import Mathlib.Algebra.Ring.Nat
import Mathlib.Data.List.Basic

/-!
# Circular buffers with counters that wrap around

Two counters of `w` bits count everything ever written and read; cell `c % n` belongs to count `c`.
-/

namespace Xv6.Lib

open List BitVec

variable {α : Type} {w n : Nat} {get : Nat → α} {r : BitVec w} {k : Nat}

/-- The `k` elements from counter `r` on. -/
def ring (n : Nat) (get : Nat → α) (r : BitVec w) (k : Nat) : List α :=
  (range k).map fun j => get ((r + .ofNat w j).toNat % n)

@[simp] theorem length_ring : (ring n get r k).length = k := by simp [ring]

@[simp] theorem ring_zero : ring n get r 0 = [] := rfl

theorem ring_succ : ring n get r (k + 1) = ring n get r k ++ [get ((r + .ofNat w k).toNat % n)] := by
  simp [ring, range_succ]

theorem ring_cell (hn : n ∣ 2 ^ w) (r : BitVec w) (j : Nat) : (r + .ofNat w j).toNat % n = (r.toNat + j) % n := by
  rw [toNat_add, toNat_ofNat, Nat.mod_mod_of_dvd _ hn, Nat.add_mod, Nat.mod_mod_of_dvd _ hn, ← Nat.add_mod]

theorem ring_congr {get' : Nat → α} (h : ∀ j < k, get' ((r + .ofNat w j).toNat % n) = get ((r + .ofNat w j).toNat % n)) :
    ring n get' r k = ring n get r k :=
  map_congr_left fun j hj => h j (mem_range.mp hj)

theorem ring_push {get' : Nat → α} {a : α} (hn : n ∣ 2 ^ w) (hk : k < n) (hs : get' ((r + .ofNat w k).toNat % n) = a)
    (ho : ∀ i, i ≠ (r + .ofNat w k).toNat % n → get' i = get i) : ring n get' r (k + 1) = ring n get r k ++ [a] := by
  have hold : ring n get' r k = ring n get r k := by
    refine ring_congr fun j hj => ho _ ?_
    rw [ring_cell hn, ring_cell hn]
    intro he
    have h1 := Nat.div_add_mod (r.toNat + j) n
    have h2 := Nat.div_add_mod (r.toNat + k) n
    rw [he] at h1
    have h3 : (r.toNat + k) / n ≤ (r.toNat + j) / n := by
      by_contra hlt
      have := Nat.mul_le_mul_left n (show (r.toNat + j) / n + 1 ≤ (r.toNat + k) / n by omega)
      rw [Nat.mul_add] at this
      omega
    have := Nat.mul_le_mul_left n h3
    omega
  rw [ring_succ, hs, hold]

theorem ring_pop : ring n get r (k + 1) = get (r.toNat % n) :: ring n get (r + 1#w) k := by
  have hj : ∀ j, r + BitVec.ofNat w (j + 1) = r + 1#w + .ofNat w j := by
    intro j
    rw [BitVec.add_assoc, ← BitVec.ofNat_add, Nat.add_comm]
  have hz : r + BitVec.ofNat w 0 = r := BitVec.add_zero r
  rw [ring, List.range_succ_eq_map, List.map_cons, List.map_map, hz]
  refine congrArg (get (r.toNat % n) :: ·) (List.map_congr_left fun j _ => ?_)
  rw [Function.comp_apply, Nat.succ_eq_add_one, hj]

end Xv6.Lib
