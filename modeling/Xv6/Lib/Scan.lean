/-!
# Searching upwards

`scan p k i` is the loop that tries `i, i + 1, …` at most `k` times and stops at the first number with property `p`.
-/

namespace Xv6.Lib

def scan (p : Nat → Bool) : Nat → Nat → Option Nat
  | 0, _ => none
  | k + 1, i => if p i then some i else scan p k (i + 1)

variable {p : Nat → Bool} {k i j : Nat}

theorem scan_some (h : scan p k i = some j) : i ≤ j ∧ j < i + k ∧ p j = true := by
  induction k generalizing i with
  | zero => cases h
  | succ k ih =>
    simp only [scan] at h
    split at h
    · rename_i hp
      cases h
      exact ⟨Nat.le_refl _, by omega, hp⟩
    · obtain ⟨h1, h2, h3⟩ := ih h
      exact ⟨by omega, by omega, h3⟩

theorem scan_ne_none (hij : i ≤ j) (hj : j < i + k) (hp : p j = true) : scan p k i ≠ none := by
  induction k generalizing i with
  | zero => omega
  | succ k ih =>
    simp only [scan]
    split
    · exact Option.some_ne_none _
    · rename_i hi
      have hne : i ≠ j := by rintro rfl; exact hi hp
      exact ih (by omega) (by omega)

end Xv6.Lib
