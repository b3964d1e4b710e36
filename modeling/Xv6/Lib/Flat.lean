import Mathlib.Logic.Function.Basic

/-!
# A flat store and its histories

In a history of the store every read returns the value of the last write to its key, or the initial value.
-/

namespace Xv6.Lib

inductive Event (κ β : Type) where
  | read (k : κ) (v : β)
  | write (k : κ) (v : β)

variable {κ β : Type} [DecidableEq κ] {d0 : κ → β} {tr : List (Event κ β)} {k : κ} {v : β}

def Event.apply (d : κ → β) : Event κ β → κ → β
  | .read _ _ => d
  | .write k v => Function.update d k v

def contents (d0 : κ → β) (tr : List (Event κ β)) : κ → β := tr.foldl Event.apply d0

/-- Every read of the history returns what the store holds when it is made. -/
def Coherent (d0 : κ → β) (tr : List (Event κ β)) : Prop :=
  ∀ tr1 k v tr2, tr = tr1 ++ .read k v :: tr2 → v = contents d0 tr1 k

@[simp] theorem contents_read : contents d0 (tr ++ [.read k v]) = contents d0 tr := by
  simp [contents, Event.apply]

@[simp] theorem contents_write : contents d0 (tr ++ [.write k v]) = Function.update (contents d0 tr) k v := by
  simp [contents, Event.apply]

theorem coherent_nil : Coherent d0 [] := by
  intro tr1 k v tr2 h
  simp at h

theorem Coherent.snoc {e : Event κ β} (h : Coherent d0 tr) (he : ∀ k v, e = .read k v → v = contents d0 tr k) :
    Coherent d0 (tr ++ [e]) := by
  intro tr1 k v tr2 ht
  rcases List.eq_nil_or_concat tr2 with rfl | ⟨l, x, rfl⟩
  · obtain ⟨rfl, hx⟩ := List.append_inj' ht rfl
    exact he k v (by simpa using hx)
  · rw [List.concat_eq_append, ← List.cons_append, ← List.append_assoc] at ht
    obtain ⟨rfl, _⟩ := List.append_inj' ht rfl
    exact h _ _ _ _ rfl

theorem Coherent.read (h : Coherent d0 tr) (hv : v = contents d0 tr k) : Coherent d0 (tr ++ [.read k v]) :=
  h.snoc (by rintro _ _ ⟨⟩; exact hv)

theorem Coherent.write (h : Coherent d0 tr) : Coherent d0 (tr ++ [.write k v]) := h.snoc (by rintro _ _ ⟨⟩)

end Xv6.Lib
