import Mathlib.Algebra.Ring.Nat
import Mathlib.Logic.Function.Basic

/-!
# The two `memmove`s (`string.c`, `ulib.c`)

The kernel's `memmove` copies from the end when the destination starts inside the source. The user library's always copies
from the start.
-/

namespace Xv6.Ulib

open Function BitVec

abbrev Mem := BitVec 32 → BitVec 8

def forward (m : Mem) (d s : BitVec 32) : Nat → Mem
  | 0 => m
  | n + 1 => forward (update m d (m s)) (d + 1) (s + 1) n

def backward (m : Mem) (d s : BitVec 32) : Nat → Mem
  | 0 => m
  | n + 1 => backward (update m (d - 1) (m (s - 1))) (d - 1) (s - 1) n

def kmemmove (m : Mem) (dst src n : BitVec 32) : Mem :=
  if src < dst ∧ src + n > dst then backward m (dst + n) (src + n) n.toNat else forward m dst src n.toNat

def memmove (m : Mem) (vdst vsrc n : BitVec 32) : Mem := forward m vdst vsrc n.toInt.toNat

variable {m : Mem} {dst src : BitVec 32} {n k lo hi : Nat}

/-- The old memory `m`, with the bytes `lo` to `hi` of the destination replaced by the old ones of the source. -/
def between (m : Mem) (dst src : BitVec 32) (lo hi : Nat) : Mem := fun a =>
  if dst.toNat + lo ≤ a.toNat ∧ a.toNat < dst.toNat + hi then m (src + (a - dst)) else m a

def moved (m : Mem) (dst src : BitVec 32) (n : Nat) : Mem := between m dst src 0 n

/-! ## One byte -/

theorem between_empty : between m dst src k k = m := by
  funext a
  exact if_neg (by omega)

theorem toNat_add_ofNat {p : BitVec 32} (h : p.toNat + k < 2 ^ 32) : (p + .ofNat 32 k).toNat = p.toNat + k := by
  rw [toNat_add, toNat_ofNat, Nat.mod_eq_of_lt (show k < 2 ^ 32 by omega), Nat.mod_eq_of_lt h]

theorem between_unread (h : src.toNat + k < 2 ^ 32) (ho : src.toNat + k < dst.toNat + lo ∨ dst.toNat + hi ≤ src.toNat + k) :
    between m dst src lo hi (src + .ofNat 32 k) = m (src + .ofNat 32 k) := by
  unfold between
  rw [toNat_add_ofNat h]
  exact if_neg (by omega)

theorem between_put (lo' hi' : Nat) (hd : dst.toNat + k < 2 ^ 32) (hj : ∀ i, lo' ≤ i ∧ i < hi' ↔ lo ≤ i ∧ i < hi ∨ i = k) :
    update (between m dst src lo hi) (dst + .ofNat 32 k) (m (src + .ofNat 32 k)) = between m dst src lo' hi' := by
  have hk := toNat_add_ofNat hd
  funext a
  by_cases ha : a = dst + .ofNat 32 k
  · subst ha
    have hin := (hj k).mpr (.inr rfl)
    have ho : dst + .ofNat 32 k - dst = BitVec.ofNat 32 k := by rw [BitVec.add_comm, BitVec.add_sub_cancel]
    rw [update_self, between, if_pos (by omega), ho]
  · have hne : a.toNat ≠ dst.toNat + k := fun h => ha (BitVec.eq_of_toNat_eq (h.trans hk.symm))
    rw [update_of_ne ha, between, between]
    refine if_congr ?_ rfl rfl
    have := hj (a.toNat - dst.toNat)
    omega

/-! ## The loops -/

theorem add_ofNat_succ (p : BitVec 32) : p + .ofNat 32 k + 1 = p + .ofNat 32 (k + 1) := by
  rw [BitVec.add_assoc, BitVec.ofNat_add]
  rfl

theorem forward_between (hs : src.toNat + (k + n) ≤ 2 ^ 32) (hd : dst.toNat + (k + n) ≤ 2 ^ 32)
    (ho : dst.toNat ≤ src.toNat ∨ src.toNat + (k + n) ≤ dst.toNat) :
    forward (between m dst src 0 k) (dst + .ofNat 32 k) (src + .ofNat 32 k) n = between m dst src 0 (k + n) := by
  induction n generalizing k with
  | zero => rfl
  | succ n ih =>
    rw [forward, between_unread (by omega) (by omega), between_put 0 (k + 1) (by omega) (by omega), add_ofNat_succ, add_ofNat_succ,
      ih (by omega) (by omega) (by omega), Nat.add_assoc, Nat.add_comm 1]

theorem backward_between {N : Nat} (hk : k ≤ N) (hs : src.toNat + N ≤ 2 ^ 32) (hd : dst.toNat + N ≤ 2 ^ 32) (ho : src.toNat < dst.toNat) :
    backward (between m dst src k N) (dst + .ofNat 32 k) (src + .ofNat 32 k) k = moved m dst src N := by
  induction k with
  | zero => rfl
  | succ k ih =>
    have hp (p : BitVec 32) : p + .ofNat 32 (k + 1) - 1 = p + .ofNat 32 k := by
      rw [BitVec.ofNat_add, ← BitVec.add_assoc]
      exact BitVec.add_sub_cancel _ _
    rw [backward, hp, hp, between_unread (by omega) (by omega), between_put k N (by omega) (by omega)]
    exact ih (by omega)

theorem forward_moved (hs : src.toNat + n ≤ 2 ^ 32) (hd : dst.toNat + n ≤ 2 ^ 32)
    (ho : dst.toNat ≤ src.toNat ∨ src.toNat + n ≤ dst.toNat) : forward m dst src n = moved m dst src n := by
  have h : forward (between m dst src 0 0) (dst + .ofNat 32 0) (src + .ofNat 32 0) n = between m dst src 0 (0 + n) :=
    forward_between (by omega) (by omega) (by omega)
  rwa [between_empty, BitVec.add_zero, BitVec.add_zero, Nat.zero_add] at h

theorem backward_moved (hs : src.toNat + n ≤ 2 ^ 32) (hd : dst.toNat + n ≤ 2 ^ 32) (ho : src.toNat < dst.toNat) :
    backward m (dst + .ofNat 32 n) (src + .ofNat 32 n) n = moved m dst src n := by
  have h := backward_between (m := m) (Nat.le_refl n) hs hd ho
  rwa [between_empty] at h

/-- When the source starts below the destination and all memory there has one value, so has every byte the loop writes. -/
theorem forward_smears {b : BitVec 8} (hd : dst.toNat + (k + n) ≤ 2 ^ 32) (ho : src.toNat < dst.toNat)
    (hm : ∀ a : BitVec 32, a.toNat < dst.toNat + k → m a = b) {a : BitVec 32} (ha : a.toNat < dst.toNat + (k + n)) :
    forward m (dst + .ofNat 32 k) (src + .ofNat 32 k) n a = b := by
  induction n generalizing k m with
  | zero => exact hm a ha
  | succ n ih =>
    rw [forward, add_ofNat_succ, add_ofNat_succ]
    refine ih (by omega) (fun c hc => ?_) (by omega)
    by_cases he : c = dst + .ofNat 32 k
    · rw [he, update_self]
      exact hm _ (by rw [toNat_add_ofNat (by omega)]; omega)
    · have hne : c.toNat ≠ dst.toNat + k := fun h => he (BitVec.eq_of_toNat_eq (h.trans (toNat_add_ofNat (by omega)).symm))
      rw [update_of_ne he]
      exact hm c (by omega)

theorem forward_not_moved (hd : dst.toNat + n ≤ 2 ^ 32) (hlt : src.toNat < dst.toNat)
    (ho : dst.toNat < src.toNat + n) : ∃ m, forward m dst src n ≠ moved m dst src n := by
  -- 1 below the destination, 0 from there on: the byte at `dst + (dst - src)` should become that at `dst`
  refine ⟨fun a => if a.toNat < dst.toNat then 1 else 0, fun h => ?_⟩
  obtain ⟨j, hj⟩ : ∃ j, dst.toNat = src.toNat + j := ⟨dst.toNat - src.toNat, by omega⟩
  have ha : (dst + .ofNat 32 j).toNat = dst.toNat + j := toNat_add_ofNat (by omega)
  have hsrc : src + .ofNat 32 j = dst := BitVec.eq_of_toNat_eq ((toNat_add_ofNat (by omega)).trans hj.symm)
  have hone : forward (fun a : BitVec 32 => if a.toNat < dst.toNat then (1 : BitVec 8) else 0) (dst + .ofNat 32 0)
      (src + .ofNat 32 0) n (dst + .ofNat 32 j) = 1 :=
    forward_smears (by omega) hlt (fun a ha => if_pos (by omega)) (by omega)
  rw [BitVec.add_zero, BitVec.add_zero, h, moved, between, if_pos (by omega), BitVec.add_comm dst, BitVec.add_sub_cancel, hsrc,
    if_neg (by omega)] at hone
  exact absurd hone (by decide)

/-! ## Both functions -/

/-- The kernel's `memmove` is right whatever the overlap, the user library's is right on every memory exactly if the
destination does not start inside the source. -/
theorem memmove_moves (dst src n : BitVec 32) (hs : src.toNat + n.toNat ≤ 2 ^ 32) (hd : dst.toNat + n.toNat ≤ 2 ^ 32) :
    (∀ m, kmemmove m dst src n = moved m dst src n.toNat) ∧
      (0 ≤ n.toInt →
        ((∀ m, memmove m dst src n = moved m dst src n.toNat) ↔ ¬ (src < dst ∧ dst.toNat < src.toNat + n.toNat))) := by
  constructor
  · intro m
    unfold kmemmove
    -- the end of the source does not wrap, since it is below that of the destination
    split <;> rename_i ho <;> simp only [lt_def, gt_iff_lt] at ho
    · have h := backward_moved (m := m) hs hd ho.1
      rwa [ofNat_toNat, setWidth_eq] at h
    · refine forward_moved hs hd ?_
      by_contra hn
      have he : (src + n).toNat = src.toNat + n.toNat := by rw [toNat_add, Nat.mod_eq_of_lt (by omega)]
      omega
  · intro hn
    have he : n.toInt.toNat = n.toNat := by
      rw [toInt_eq_toNat_of_lt (toInt_pos_iff.mp hn)]
      rfl
    simp only [memmove, he, lt_def]
    constructor
    · rintro h ⟨hlt, ho⟩
      obtain ⟨m, hm⟩ := forward_not_moved hd hlt ho
      exact hm (h m)
    · intro ho m
      exact forward_moved hs hd (by omega)

theorem memmove_moves_up : memmove (fun a => a.setWidth 8) 4 2 2 = moved (fun a => a.setWidth 8) 4 2 2 :=
  ((memmove_moves 4 2 2 (by decide) (by decide)).2 (by decide)).mpr (by decide) _

/-- `"abc"` moved up by one byte: the user library leaves `"aaaa"`. -/
theorem memmove_smears : memmove (fun a => 97 + a.setWidth 8) 1 0 3 3 = 97 ∧ moved (fun a => 97 + a.setWidth 8) 1 0 3 3 = 99 := by
  decide

end Xv6.Ulib
