import Xv6.Lib.Ends

/-!
# Pre- and postconditions of sequential programs

`Triple P x Q` is partial correctness: run from a state with `P`, the command fails or returns with `Q`.
-/

namespace Xv6.Lib

variable {σ τ ε α β : Type} {P P' : σ → Prop} {Q Q' : α → σ → Prop} {R : β → σ → Prop}

abbrev Cmd (σ ε α : Type) := StateT σ (Except ε) α

theorem Cmd.bind_ok {x : Cmd σ ε α} {f : α → Cmd σ ε β} {s s' : σ} {a : α} (h : x s = .ok (a, s')) : (x >>= f) s = f a s' := by
  change (x s >>= fun r => f r.1 r.2) = f a s'
  rw [h]
  rfl

theorem Cmd.bind_error {x : Cmd σ ε α} {f : α → Cmd σ ε β} {s : σ} {e : ε} (h : x s = .error e) : (x >>= f) s = .error e := by
  change (x s >>= fun r => f r.1 r.2) = _
  rw [h]
  rfl

def Triple (P : σ → Prop) (x : Cmd σ ε α) (Q : α → σ → Prop) : Prop := ∀ s, P s → Ends Any (fun r => Q r.1 r.2) (x s)

variable {x : Cmd σ ε α}

theorem Triple.ret {a : α} (h : ∀ s, P s → Q a s) : Triple P (pure a : Cmd σ ε α) Q := h

theorem Triple.throw {e : ε} : Triple P (throw e : Cmd σ ε α) Q := fun _ _ => trivial

theorem Triple.bind {f : α → Cmd σ ε β} (hx : Triple P x Q) (hf : ∀ a, Triple (Q a) (f a) R) :
    Triple P (x >>= f) R := fun s hs => (hx s hs).bind fun r hr => hf r.1 r.2 hr

theorem Triple.mono (h : Triple P x Q) (hP : ∀ s, P' s → P s) (hQ : ∀ a s, Q a s → Q' a s) : Triple P' x Q' :=
  fun s hs => (h s (hP s hs)).imp fun r hr => hQ r.1 r.2 hr

theorem Triple.pre (h : Triple P x Q) (hP : ∀ s, P' s → P s) : Triple P' x Q := h.mono hP fun _ _ => id

theorem Triple.of_pre (h : ∀ s, P s → Triple (· = s) x Q) : Triple P x Q := fun s hs => h s hs s rfl

theorem Triple.of_and {c : Prop} (h : c → Triple P x Q) : Triple (fun s => c ∧ P s) x Q := fun s hs => h hs.1 s hs.2

theorem Triple.ite {c : Prop} [Decidable c] {y : Cmd σ ε α} (hx : c → Triple P x Q) (hy : ¬ c → Triple P y Q) :
    Triple P (if c then x else y) Q := by
  split
  · exact hx ‹_›
  · exact hy ‹_›

theorem Triple.of_ok {s s' : σ} {a : α} (h : Triple P x Q) (hs : P s) (hx : x s = .ok (a, s')) : Q a s' :=
  (h s hs).of_ok hx

/-- A command on a part of the state. -/
def zoom (get : τ → σ) (set : τ → σ → τ) (x : Cmd σ ε α) : Cmd τ ε α := fun t => do
  let (a, s) ← x (get t)
  return (a, set t s)

theorem Triple.zoom {get : τ → σ} {set : τ → σ → τ} {T : τ → Prop} {U : α → τ → Prop}
    (h : ∀ t, T t → Triple (· = get t) x fun a s => U a (set t s)) : Triple T (Lib.zoom get set x) U :=
  fun t ht => (h t ht (get t) rfl).bind fun _ hr => hr

/-! ## Invariants of commands -/

/-- The command keeps `I`, if it returns. -/
def Stable (I : σ → Prop) (x : Cmd σ ε α) : Prop := Triple I x fun _ => I

variable {I : σ → Prop}

theorem Stable.ret (a : α) : Stable I (pure a : Cmd σ ε α) := Triple.ret fun _ h => h

theorem Stable.throw (e : ε) : Stable I (throw e : Cmd σ ε α) := Triple.throw

theorem Stable.bind {f : α → Cmd σ ε β} (hx : Stable I x) (hf : ∀ a, Stable I (f a)) : Stable I (x >>= f) := Triple.bind hx hf

theorem Stable.ite {c : Prop} [Decidable c] {y : Cmd σ ε α} (hx : Stable I x) (hy : Stable I y) : Stable I (if c then x else y) :=
  Triple.ite (fun _ => hx) fun _ => hy

end Xv6.Lib
