import Mathlib.Data.List.Basic

/-!
# Lists linked through a store

Every node holds the address of the next one, and 0 ends the list.
-/

namespace Xv6.Lib

variable {ι : Type} {addr next next' : ι → Nat} {a : Nat} {l : List ι}

def Chain (addr next : ι → Nat) : Nat → List ι → Prop
  | a, [] => a = 0
  | a, x :: l => a = addr x ∧ Chain addr next (next x) l

theorem Chain.congr (h : Chain addr next a l) (hn : ∀ x ∈ l, next' x = next x) : Chain addr next' a l := by
  induction l generalizing a with
  | nil => exact h
  | cons x l ih =>
    refine ⟨h.1, ?_⟩
    rw [hn x (by simp)]
    exact ih h.2 fun y hy => hn y (by simp [hy])

end Xv6.Lib
