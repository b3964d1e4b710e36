import Mathlib.Data.List.Basic

/-!
# Computations that return or fail

`Ends E Q x` is the postcondition of a computation in `Except`, with one rule per way of composing computations.
-/

namespace Xv6.Lib

variable {ε α β σ : Type} {E E' : ε → Prop} {Q Q' : α → Prop} {R : β → Prop} {x : Except ε α}

def Ends (E : ε → Prop) (Q : α → Prop) : Except ε α → Prop
  | .ok a => Q a
  | .error e => E e

/-- The condition on errors of a postcondition for normal returns only. -/
abbrev Any : ε → Prop := fun _ => True

theorem Ends.any (x : Except ε α) : Ends Any (fun _ => True) x := by
  cases x <;> trivial

theorem Ends.pure {a : α} (h : Q a) : Ends E Q (.ok a) := h

theorem Ends.ret {a : α} (h : Q a) : Ends E Q (Pure.pure a) := h

theorem Ends.returned {a : α} (h : x = .ok a) : Ends E (· = a) x := by rw [h]; rfl

theorem ok_bind (a : α) (f : α → Except ε β) : (Except.ok a >>= f) = f a := rfl

theorem Ends.bind {f : α → Except ε β} (hx : Ends E Q x) (hf : ∀ a, Q a → Ends E R (f a)) : Ends E R (x >>= f) := by
  cases x with
  | ok a => exact hf a hx
  | error e => exact hx

theorem Ends.ite {p : Prop} [Decidable p] {y : Except ε α} (hx : Ends E Q x) (hy : Ends E Q y) : Ends E Q (if p then x else y) := by
  split
  · exact hx
  · exact hy

theorem Ends.mono (h : Ends E Q x) (hE : ∀ e, E e → E' e) (hQ : ∀ a, Q a → Q' a) : Ends E' Q' x := by
  cases x with
  | ok a => exact hQ a h
  | error e => exact hE e h

theorem Ends.imp (h : Ends E Q x) (hQ : ∀ a, Q a → Q' a) : Ends E Q' x := h.mono (fun _ => id) hQ

theorem Ends.and (h : Ends E Q x) (h' : Ends E' Q' x) : Ends E (fun a => Q a ∧ Q' a) x := by
  cases x with
  | ok a => exact ⟨h, h'⟩
  | error e => exact h

theorem Ends.to_any (h : Ends E Q x) : Ends Any Q x := h.mono (fun _ _ => trivial) fun _ => id

theorem Ends.mapError {ε' : Type} {f : ε → ε'} {F : ε' → Prop} (h : Ends E Q x) (hf : ∀ e, E e → F (f e)) : Ends F Q (x.mapError f) := by
  cases x with
  | ok a => exact h
  | error e => exact hf e h

theorem Ends.exclude {e : ε} (h : Ends (fun e' => E e' ∨ e' = e) Q x) (hx : x ≠ .error e) : Ends E Q x := by
  cases x with
  | ok a => exact h
  | error e' => exact h.resolve_right fun he => hx (by rw [he])

theorem Ends.of_ok {a : α} (h : Ends E Q x) (hx : x = .ok a) : Q a := by subst hx; exact h

theorem Ends.of_error {e : ε} (h : Ends E Q x) (hx : x = .error e) : E e := by subst hx; exact h

theorem of_bind_ok {f : α → Except ε β} {b : β} (h : (x >>= f) = .ok b) : ∃ a, x = .ok a ∧ f a = .ok b := by
  cases x with
  | ok a => exact ⟨a, rfl, h⟩
  | error e => cases h

theorem of_toOption {a : α} (h : x.toOption = some a) : x = .ok a := by
  cases x with
  | ok b => cases h; rfl
  | error e => cases h

theorem Ends.returns (h : Ends E Q x) (hE : ∀ e, E e → x ≠ .error e) : ∃ a, x = .ok a ∧ Q a := by
  cases x with
  | ok a => exact ⟨a, rfl, h⟩
  | error e => exact absurd rfl (hE e h)

/-- A value that a computation returns, found by evaluation. -/
theorem returns_of_eval (p : α → Bool) (h : (match x with | .ok a => p a | .error _ => false) = true) : ∃ a, x = .ok a ∧ p a = true := by
  cases x with
  | ok a => exact ⟨a, rfl, h⟩
  | error e => cases h

theorem Ends.foldlM {f : σ → β → Except ε σ} {I : List β → σ → Prop} {l : List β} {s : σ} (h0 : I [] s)
    (hs : ∀ done y rest s, l = done ++ y :: rest → I done s → Ends E (I (done ++ [y])) (f s y)) : Ends E (I l) (l.foldlM f s) := by
  suffices h : ∀ rest done s, l = done ++ rest → I done s → Ends E (I l) (rest.foldlM f s) from h l [] s rfl h0
  intro rest
  induction rest with
  | nil => intro done s hl hi; rw [List.append_nil] at hl; subst hl; exact hi
  | cons y rest ih =>
    intro done s hl hi
    rw [List.foldlM_cons]
    refine (hs done y rest s hl hi).bind fun s' hi' => ih (done ++ [y]) s' ?_ hi'
    rw [List.append_assoc]; exact hl

end Xv6.Lib
