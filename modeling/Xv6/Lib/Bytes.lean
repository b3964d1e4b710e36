import Mathlib.Data.BitVec

/-!
# Fixed-size byte arrays

Integers are stored little-endian, at any byte offset.
-/

namespace Xv6.Lib

open BitVec

def Bytes (n : Nat) : Type := Fin n → BitVec 8

namespace Bytes

variable {n : Nat} {i j off k : Nat}

@[ext] theorem ext' {a b : Bytes n} (h : ∀ i, a i = b i) : a = b := funext h

def get (b : Bytes n) (i : Nat) : BitVec 8 := if h : i < n then b ⟨i, h⟩ else 0

def set (b : Bytes n) (i : Nat) (v : BitVec 8) : Bytes n := fun j => if j.val = i then v else b j

def fill (n : Nat) (v : BitVec 8) : Bytes n := fun _ => v

/-- `memmove(b + off, src, m)` for a source that does not overlap `b`. -/
def write (b : Bytes n) (off m : Nat) (src : Nat → BitVec 8) : Bytes n :=
  fun j => if off ≤ j.val ∧ j.val < off + m then src (j.val - off) else b j

def half (b : Bytes n) (off : Nat) : BitVec 16 := b.get (off + 1) ++ b.get off

def setHalf (b : Bytes n) (off : Nat) (v : BitVec 16) : Bytes n :=
  (b.set off (v.extractLsb' 0 8)).set (off + 1) (v.extractLsb' 8 8)

def word (b : Bytes n) (off : Nat) : BitVec 32 := b.half (off + 2) ++ b.half off

def setWord (b : Bytes n) (off : Nat) (v : BitVec 32) : Bytes n :=
  (b.setHalf off (v.extractLsb' 0 16)).setHalf (off + 2) (v.extractLsb' 16 16)

def setWords (b : Bytes n) (off : Nat) (f : Nat → BitVec 32) : Nat → Bytes n
  | 0 => b
  | k + 1 => (b.setWords off f k).setWord (off + 4 * k) (f k)

/-! ## Single bytes -/

theorem get_of_lt (b : Bytes n) (h : i < n) : b.get i = b ⟨i, h⟩ := by simp [get, h]

@[simp] theorem get_set_self (b : Bytes n) (v : BitVec 8) (h : i < n) : (b.set i v).get i = v := by
  simp [get, set, h]

@[simp] theorem get_set_ne (b : Bytes n) (v : BitVec 8) (h : j ≠ i) : (b.set i v).get j = b.get j := by
  simp [get, set, if_neg h]

@[simp] theorem get_fill (v : BitVec 8) (h : i < n) : (fill n v).get i = v := by simp [get, fill, h]

theorem get_fill_zero (i : Nat) : (fill n 0#8).get i = 0#8 := by simp [get, fill]

theorem get_write (b : Bytes n) (off m : Nat) (src : Nat → BitVec 8) (h : i < n) :
    (b.write off m src).get i = if off ≤ i ∧ i < off + m then src (i - off) else b.get i := by
  simp [get, write, h]

/-! ## 16-bit values -/

theorem half_split (v : BitVec 16) : (v.extractLsb' 8 8 ++ v.extractLsb' 0 8 : BitVec 16) = v := by
  apply eq_of_getLsbD_eq
  intro i hi
  simp only [getLsbD_append, getLsbD_extractLsb']
  by_cases h : i < 8
  · simp [h]
  · have h' : i - 8 < 8 := by omega
    simp [h, h', show 8 + (i - 8) = i by omega]

theorem half_setHalf_self (b : Bytes n) (v : BitVec 16) (h : off + 1 < n) : (b.setHalf off v).half off = v := by
  have h0 : off < n := by omega
  simp only [half, setHalf, get_set_self _ _ h]
  rw [get_set_ne _ _ (by omega), get_set_self _ _ h0]
  exact half_split v

theorem get_setHalf_ne (b : Bytes n) (v : BitVec 16) (h : j < off ∨ off + 2 ≤ j) : (b.setHalf off v).get j = b.get j := by
  simp only [setHalf]
  rw [get_set_ne _ _ (by omega), get_set_ne _ _ (by omega)]

theorem half_setHalf_ne (b : Bytes n) (v : BitVec 16) (h : j + 2 ≤ off ∨ off + 2 ≤ j) : (b.setHalf off v).half j = b.half j := by
  simp only [half]
  rw [get_setHalf_ne _ _ (by omega), get_setHalf_ne _ _ (by omega)]

/-! ## 32-bit values -/

private theorem word_split (v : BitVec 32) : (v.extractLsb' 16 16 ++ v.extractLsb' 0 16 : BitVec 32) = v := by
  apply eq_of_getLsbD_eq
  intro i hi
  simp only [getLsbD_append, getLsbD_extractLsb']
  by_cases h : i < 16
  · simp [h]
  · have h' : i - 16 < 16 := by omega
    simp [h, h', show 16 + (i - 16) = i by omega]

section

variable (b : Bytes n) (v : BitVec 32)
include b v

theorem word_setWord_self (h : off + 3 < n) : (b.setWord off v).word off = v := by
  simp only [word, setWord]
  rw [half_setHalf_self _ _ (by omega), half_setHalf_ne _ _ (by omega), half_setHalf_self _ _ (by omega)]
  exact word_split v

theorem get_setWord_ne (h : j < off ∨ off + 4 ≤ j) : (b.setWord off v).get j = b.get j := by
  simp only [setWord]
  rw [get_setHalf_ne _ _ (by omega), get_setHalf_ne _ _ (by omega)]

theorem half_setWord_ne (h : j + 2 ≤ off ∨ off + 4 ≤ j) : (b.setWord off v).half j = b.half j := by
  simp only [half]
  rw [get_setWord_ne _ _ (by omega), get_setWord_ne _ _ (by omega)]

theorem word_setWord_ne (h : j + 4 ≤ off ∨ off + 4 ≤ j) : (b.setWord off v).word j = b.word j := by
  simp only [word]
  rw [half_setWord_ne _ _ (by omega), half_setWord_ne _ _ (by omega)]

end

section

variable (b : Bytes n) (f : Nat → BitVec 32)
include b f

theorem get_setWords_ne (h : j < off ∨ off + 4 * k ≤ j) : (b.setWords off f k).get j = b.get j := by
  induction k with
  | zero => rfl
  | succ k ih => rw [setWords, get_setWord_ne _ _ (by omega), ih (by omega)]

theorem half_setWords_ne (h : j + 2 ≤ off ∨ off + 4 * k ≤ j) : (b.setWords off f k).half j = b.half j := by
  simp only [half]
  rw [get_setWords_ne _ _ (by omega), get_setWords_ne _ _ (by omega)]

theorem word_setWords_ne (h : j + 4 ≤ off ∨ off + 4 * k ≤ j) : (b.setWords off f k).word j = b.word j := by
  simp only [word]
  rw [half_setWords_ne _ _ (by omega), half_setWords_ne _ _ (by omega)]

theorem word_setWords (h : off + 4 * k ≤ n) (hi : i < k) : (b.setWords off f k).word (off + 4 * i) = f i := by
  induction k with
  | zero => omega
  | succ k ih =>
    rw [setWords]
    by_cases he : i = k
    · subst he; rw [word_setWord_self _ _ (by omega)]
    · rw [word_setWord_ne _ _ (by omega), ih (by omega) (by omega)]

end

@[simp] theorem word_fill_zero (off : Nat) : (fill n 0#8).word off = 0#32 := by
  simp only [word, half, get_fill_zero]; rfl

theorem getLsbD_word (b : Bytes n) (off : Nat) (hi : i < 8) : (b.word off).getLsbD (16 + i) = (b.get (off + 2)).getLsbD i := by
  rw [word, getLsbD_append, if_neg (by omega), half, getLsbD_append, if_pos (by omega), Nat.add_sub_cancel_left]

def ofWords (f : Nat → BitVec 32) : Bytes n := fun i => (f (i.val / 4)).extractLsb' (8 * (i.val % 4)) 8

theorem get_ofWords (f : Nat → BitVec 32) (hi : i < 4) (h : 4 * k + i < n) :
    (ofWords f : Bytes n).get (4 * k + i) = (f k).extractLsb' (8 * i) 8 := by
  simp only [get, ofWords, h, dif_pos]
  rw [show (4 * k + i) / 4 = k by omega, show (4 * k + i) % 4 = i by omega]

private theorem extract_half (v : BitVec 32) {a b : Nat} (hb : b ≤ 8) : (v.extractLsb' a 16).extractLsb' b 8 = v.extractLsb' (a + b) 8 := by
  apply eq_of_getLsbD_eq
  intro i hi
  simp [hi, show b + i < 16 by omega, add_assoc]

theorem word_ofWords (f : Nat → BitVec 32) (h : 4 * k + 3 < n) : (ofWords f : Bytes n).word (4 * k) = f k := by
  have h0 := get_ofWords f (i := 0) (by omega) (show 4 * k + 0 < n by omega)
  have h1 := get_ofWords f (i := 1) (by omega) (show 4 * k + 1 < n by omega)
  have h2 := get_ofWords f (i := 2) (by omega) (show 4 * k + 2 < n by omega)
  have h3 := get_ofWords f (i := 3) (by omega) (show 4 * k + 3 < n by omega)
  rw [add_zero] at h0
  simp only [word, half, h0, h1, h2, h3]
  conv_rhs => rw [← word_split (f k), ← half_split ((f k).extractLsb' 0 16), ← half_split ((f k).extractLsb' 16 16)]
  rw [extract_half _ (by omega), extract_half _ (by omega), extract_half _ (by omega), extract_half _ (by omega)]

@[simp] theorem half_fill_zero (off : Nat) : (fill n 0#8).half off = 0#16 := by
  simp only [half, get_fill_zero]; rfl

end Bytes

end Xv6.Lib
