import Mathlib.Data.List.Basic

/-!
# Arrays that are read and written at an offset

A list, with reads that stop at its end and writes that may extend it.
-/

namespace Xv6.Lib

open List

variable {α : Type} {f g : Nat → α} {z off : Nat} {c : List α}

def readAt (c : List α) (off n : Nat) : List α := (c.drop off).take n

def writeAt (c : List α) (off : Nat) (src : List α) : List α := c.take off ++ src ++ c.drop (off + src.length)

def tabulate (z : Nat) (f : Nat → α) : List α := (range z).map f

@[simp] theorem length_tabulate (z : Nat) (f : Nat → α) : (tabulate z f).length = z := by simp [tabulate]

theorem tabulate_congr (h : ∀ k, k < z → f k = g k) : tabulate z f = tabulate z g :=
  map_congr_left fun k hk => h k (mem_range.mp hk)

theorem tabulate_add (a b : Nat) (f : Nat → α) : tabulate (a + b) f = tabulate a f ++ tabulate b fun k => f (a + k) := by
  simp [tabulate, range_add]

theorem tabulate_inj {z' : Nat} (h : tabulate z f = tabulate z' g) : z = z' ∧ ∀ k, k < z → f k = g k := by
  obtain rfl : z = z' := by simpa using congrArg length h
  refine ⟨rfl, fun k hk => ?_⟩
  have := congrArg (·[k]?) h
  simpa [tabulate, hk] using this

theorem readAt_tabulate (z off n : Nat) (f : Nat → α) : readAt (tabulate z f) off n = tabulate (min n (z - off)) fun k => f (off + k) := by
  rcases Nat.le_total off z with h | h
  · obtain ⟨r, rfl⟩ := Nat.exists_eq_add_of_le h
    rw [readAt, tabulate_add, drop_left' (by simp), Nat.add_sub_cancel_left, tabulate, tabulate, ← map_take,
      take_range]
  · rw [readAt, drop_of_length_le (by simpa using h), Nat.sub_eq_zero_of_le h, Nat.min_zero, take_nil]
    rfl

theorem writeAt_tabulate {n : Nat} (f src : Nat → α) (h : off ≤ z) :
    writeAt (tabulate z f) off (tabulate n src) =
      tabulate (max z (off + n)) fun k => if off ≤ k ∧ k < off + n then src (k - off) else f k := by
  obtain ⟨r, rfl⟩ := Nat.exists_eq_add_of_le h
  have hlow : tabulate off f = tabulate off fun k => if off ≤ k ∧ k < off + n then src (k - off) else f k :=
    tabulate_congr fun k hk => by rw [if_neg (by omega)]
  have hmid : tabulate n src =
      tabulate n fun k => if off ≤ off + k ∧ off + k < off + n then src (off + k - off) else f (off + k) :=
    tabulate_congr fun k hk => by rw [if_pos (by omega), Nat.add_sub_cancel_left]
  rw [writeAt, length_tabulate, tabulate_add, take_left' (by simp), drop_append, length_tabulate,
    drop_of_length_le (by simp), nil_append, Nat.add_sub_cancel_left]
  by_cases hr : r ≤ n
  · rw [Nat.max_eq_right (by omega), tabulate_add off n, ← hlow, ← hmid, drop_of_length_le (by simpa using hr),
      append_nil]
  · obtain ⟨t, rfl⟩ := Nat.exists_eq_add_of_le (Nat.le_of_not_le hr)
    have hhigh : (tabulate t fun k => f (off + (n + k))) = tabulate t fun k =>
        if off ≤ off + n + k ∧ off + n + k < off + n then src (off + n + k - off) else f (off + n + k) :=
      tabulate_congr fun k _ => by rw [if_neg (by omega), Nat.add_assoc]
    rw [Nat.max_eq_left (by omega), ← Nat.add_assoc, tabulate_add (off + n) t, tabulate_add off n, ← hlow, ← hmid,
      ← hhigh, tabulate_add n t, drop_left' (by simp)]

theorem writeAt_nil (c : List α) (off : Nat) : writeAt c off [] = c := by
  simp [writeAt]

theorem length_writeAt (src : List α) (h : off ≤ c.length) : (writeAt c off src).length = max c.length (off + src.length) := by
  simp only [writeAt, length_append, length_take, length_drop]
  omega

theorem writeAt_writeAt (a b : List α) (h : off ≤ c.length) : writeAt (writeAt c off a) (off + a.length) b = writeAt c off (a ++ b) := by
  have hlen : (c.take off ++ a).length = off + a.length := by
    rw [length_append, length_take, Nat.min_eq_left h]
  rw [writeAt, writeAt, writeAt, take_left' hlen, Nat.add_assoc off, drop_append, hlen,
    drop_of_length_le (by rw [hlen]; omega), nil_append, drop_drop, length_append, ← append_assoc]
  congr 2
  omega

end Xv6.Lib
