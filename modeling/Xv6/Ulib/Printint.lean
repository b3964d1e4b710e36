import Mathlib.Data.Nat.Digits.Lemmas

/-!
# Printing and reading integers (`printf.c`, `console.c`, `ulib.c`)

A function that writes past the end of its buffer has no result.
-/

namespace Xv6.Ulib

open List Option BitVec

/-- `do { buf[i++] = digits[x % base]; } while((x /= base) != 0)`, with `room` entries of `buf` left. -/
def digitLoop (digits : String) (base x : BitVec 32) : Nat → Option (List Char)
  | 0 => none
  | room + 1 =>
    let c := digits.toList.getD (x % base).toNat default
    if x / base ≠ 0 then (digitLoop digits base (x / base) room).map (c :: ·) else some [c]

/-- What `printint` prints; `-xx` is computed modulo `2 ^ 32`. -/
def printintWith (digits : String) (xx base : BitVec 32) (sgn : Bool) : Option (List Char) := do
  let neg := sgn && xx.slt 0
  let x := if neg then -xx else xx
  let buf ← digitLoop digits base x 16
  let buf ← if neg then if buf.length < 16 then some (buf ++ ['-']) else none else some buf
  return buf.reverse

def printint : BitVec 32 → BitVec 32 → Bool → Option (List Char) := printintWith "0123456789ABCDEF"

def consolePrintint : BitVec 32 → BitVec 32 → Bool → Option (List Char) := printintWith "0123456789abcdef"

/-- The loop of `atoi`, which stops at the end of the string at the latest; the arithmetic is that of the machine. -/
def atoiLoop (n : BitVec 32) : List Char → BitVec 32
  | [] => n
  | c :: s => if '0' ≤ c ∧ c ≤ '9' then atoiLoop (n * 10 + .ofNat 32 c.toNat - .ofNat 32 '0'.toNat) s else n

def atoi (s : List Char) : BitVec 32 := atoiLoop 0 s

/-! ## Numerals -/

def digit (digits : String) (d : Nat) : Char := digits.toList.getD d default

/-- `s` is the numeral of `v`: a sign if `v` is negative, then the digits of `|v|` without leading zeros. -/
def Numeral (digits : String) (base : Nat) (v : Int) (s : List Char) : Prop :=
  ∃ ds : List Nat, s = (if v < 0 then ['-'] else []) ++ ds.map (digit digits) ∧ (∀ d ∈ ds, d < base) ∧
    ds ≠ [] ∧ (ds.head? = some 0 → ds = [0]) ∧ Nat.ofDigits base ds.reverse = v.natAbs

def lowFirst (base n : Nat) : List Nat := if n = 0 then [0] else Nat.digits base n

section LowFirst

variable {base n k : Nat}

theorem lowFirst_step (hb : 1 < base) : lowFirst base n = n % base :: if n / base = 0 then [] else lowFirst base (n / base) := by
  unfold lowFirst
  by_cases hn : n = 0
  · simp [hn]
  · rw [if_neg hn, Nat.digits_def' hb (Nat.pos_of_ne_zero hn)]
    by_cases hq : n / base = 0 <;> simp [hq]

theorem length_lowFirst (hb : 1 < base) (hk : 0 < k) (h : n < base ^ k) : (lowFirst base n).length ≤ k := by
  unfold lowFirst
  split
  · exact hk
  · exact (Nat.digits_length_le_iff hb n).mpr h

theorem lowFirst_lt (hb : 1 < base) : ∀ d ∈ lowFirst base n, d < base := by
  unfold lowFirst
  split
  · simp; omega
  · exact fun d => Nat.digits_lt_base hb

theorem ofDigits_lowFirst : Nat.ofDigits base (lowFirst base n) = n := by
  unfold lowFirst
  split
  · rename_i hn
    simp [hn]
  · exact Nat.ofDigits_digits base n

theorem lowFirst_ne_nil : lowFirst base n ≠ [] := by
  unfold lowFirst
  split
  · simp
  · exact Nat.digits_ne_nil_iff_ne_zero.mpr ‹_›

theorem lowFirst_leading (h : (lowFirst base n).reverse.head? = some 0) : (lowFirst base n).reverse = [0] := by
  unfold lowFirst at h ⊢
  split <;> rename_i hn
  · rfl
  · have hne : Nat.digits base n ≠ [] := Nat.digits_ne_nil_iff_ne_zero.mpr hn
    rw [if_neg hn, head?_reverse, getLast?_eq_some_getLast hne] at h
    exact absurd (some.inj h) (Nat.getLast_digit_ne_zero base hn)

theorem numeral_lowFirst (digits : String) (hb : 1 < base) {v : Int} (hv : v.natAbs = n) :
    Numeral digits base v ((if v < 0 then ['-'] else []) ++ ((lowFirst base n).map (digit digits)).reverse) := by
  refine ⟨(lowFirst base n).reverse, by rw [map_reverse], ?_, ?_, lowFirst_leading, ?_⟩
  · simpa using lowFirst_lt hb
  · simpa using lowFirst_ne_nil
  · rw [reverse_reverse, ofDigits_lowFirst, hv]

end LowFirst

/-! ## `printint` -/

section Print

variable {base x : BitVec 32}

theorem digitLoop_eq (digits : String) (hb : 1 < base.toNat) {room : Nat} (h : (lowFirst base.toNat x.toNat).length ≤ room) :
    digitLoop digits base x room = some ((lowFirst base.toNat x.toNat).map (digit digits)) := by
  induction room generalizing x with
  | zero => exact absurd (eq_nil_of_length_eq_zero (Nat.le_zero.mp h)) lowFirst_ne_nil
  | succ room ih =>
    have hz : x / base = 0 ↔ x.toNat / base.toNat = 0 := by
      rw [← toNat_inj, toNat_udiv]
      rfl
    rw [lowFirst_step hb] at h ⊢
    rw [digitLoop]
    by_cases hq : x.toNat / base.toNat = 0
    · rw [if_neg (not_not.mpr (hz.mpr hq)), if_pos hq]
      rfl
    · rw [if_neg hq] at h ⊢
      rw [if_pos (hz.not.mpr hq), ih (by rw [toNat_udiv]; exact Nat.le_of_succ_le_succ h), toNat_udiv]
      simp [digit]

theorem printintWith_numeral (digits : String) (xx base : BitVec 32) (sgn : Bool) {k : Nat} (hb : 1 < base.toNat) (hk : 0 < k)
    (hx : 2 ^ 32 ≤ base.toNat ^ k) (h16 : k < 16) :
    ∃ s, printintWith digits xx base sgn = some s ∧ s.length ≤ 16 ∧
      Numeral digits base.toNat (if sgn then xx.toInt else xx.toNat) s := by
  have hlen (y : BitVec 32) : (lowFirst base.toNat y.toNat).length ≤ k := length_lowFirst hb hk (y.isLt.trans_le hx)
  have hloop (y : BitVec 32) := digitLoop_eq digits hb ((hlen y).trans h16.le)
  have hint := toInt_eq_toNat_cond xx
  by_cases hn : (sgn && xx.slt 0) = true
  · obtain ⟨rfl, hs⟩ := Bool.and_eq_true_iff.mp hn
    have hneg : xx.toInt < 0 := by simpa [BitVec.slt] using hs
    have habs : xx.toInt.natAbs = (-xx).toNat := by
      rw [BitVec.toNat_neg]
      split at hint <;> omega
    have hm := numeral_lowFirst digits hb habs
    rw [if_pos hneg] at hm
    refine ⟨_, ?_, ?_, hm⟩
    · simp only [printintWith, if_pos hn, hloop, bind_eq_bind, bind_some, length_map]
      rw [if_pos ((hlen _).trans_lt h16)]
      simp
    · simp only [length_append, length_singleton, length_reverse, length_map]
      have := hlen (-xx)
      omega
  · have hv : ¬ (if sgn then xx.toInt else xx.toNat) < 0 ∧ (if sgn then xx.toInt else xx.toNat : Int).natAbs = xx.toNat := by
      cases sgn with
      | false => simp
      | true =>
        have : ¬ xx.toInt < 0 := by simpa [BitVec.slt] using hn
        rw [if_pos rfl]
        split at hint <;> omega
    have hm := numeral_lowFirst digits hb hv.2
    rw [if_neg hv.1, nil_append] at hm
    refine ⟨_, ?_, ?_, hm⟩
    · simp only [printintWith, if_neg hn, hloop, Option.bind_eq_bind, Option.bind_some, Option.pure_def]
    · rw [length_reverse, length_map]
      exact (hlen xx).trans h16.le

end Print

/-! ## `atoi` -/

def Decimal (digits : String) : Prop :=
  ∀ d < 10, ('0' ≤ digit digits d ∧ digit digits d ≤ '9') ∧ (digit digits d).toNat = d + '0'.toNat

theorem atoiLoop_digits {digits : String} (hd : Decimal digits) {ds : List Nat} (hlt : ∀ d ∈ ds, d < 10) (n : Nat) :
    atoiLoop (.ofNat 32 n) (ds.map (digit digits)) = .ofNat 32 (ds.foldl (fun n d => d + 10 * n) n) := by
  induction ds generalizing n with
  | nil => rfl
  | cons d ds ih =>
    obtain ⟨hc, hv⟩ := hd d (hlt d mem_cons_self)
    have hn : BitVec.ofNat 32 n * 10 + .ofNat 32 (d + '0'.toNat) - .ofNat 32 '0'.toNat = .ofNat 32 (d + 10 * n) := by
      rw [BitVec.ofNat_add, ← BitVec.add_assoc, BitVec.add_sub_cancel, BitVec.ofNat_add, BitVec.ofNat_mul, BitVec.add_comm,
        BitVec.mul_comm]
      rfl
    rw [map_cons, atoiLoop, if_pos hc, hv, hn, foldl_cons]
    exact ih (fun e he => hlt e (mem_cons_of_mem d he)) _

theorem Numeral.atoi {digits : String} (hd : Decimal digits) {v : Int} {s : List Char} (h : Numeral digits 10 v s) (hv : 0 ≤ v) :
    atoi s = .ofInt 32 v := by
  obtain ⟨ds, rfl, hlt, -, -, hof⟩ := h
  rw [if_neg (not_lt.mpr hv), nil_append, Ulib.atoi]
  refine (atoiLoop_digits hd hlt 0).trans ?_
  rw [Nat.ofDigits_eq_foldr, foldr_reverse] at hof
  rw [show ds.foldl (fun n d => d + 10 * n) 0 = v.natAbs from hof]
  obtain ⟨k, rfl⟩ := Int.eq_ofNat_of_zero_le hv
  rw [Int.natAbs_natCast, ofInt_natCast]

/-! ## Both tables -/

/-- What `print`, with its table `digits`, prints for `xx`. -/
structure Exact (digits : String) (print : BitVec 32 → BitVec 32 → Bool → Option (List Char)) (xx : BitVec 32) : Prop where
  signed : ∃ s, print xx 10 true = some s ∧ s.length ≤ 16 ∧ Numeral digits 10 xx.toInt s ∧ (0 ≤ xx.toInt → atoi s = xx)
  unsigned : ∃ s, print xx 16 false = some s ∧ s.length ≤ 16 ∧ Numeral digits 16 xx.toNat s

theorem Decimal.exact {digits : String} (hd : Decimal digits) (xx : BitVec 32) : Exact digits (printintWith digits) xx where
  signed := by
    obtain ⟨s, hs, hlen, hm⟩ := printintWith_numeral digits xx 10 true (k := 10) (by decide) (by decide) (by decide) (by decide)
    exact ⟨s, hs, hlen, hm, fun hv => (hm.atoi hd hv).trans (ofInt_toInt)⟩
  unsigned := printintWith_numeral digits xx 16 false (k := 8) (by decide) (by decide) (by decide) (by decide)

theorem printint_exact (xx : BitVec 32) : Exact "0123456789ABCDEF" printint xx ∧ Exact "0123456789abcdef" consolePrintint xx :=
  have hd : Decimal "0123456789ABCDEF" ∧ Decimal "0123456789abcdef" := by unfold Decimal digit; decide
  ⟨hd.1.exact xx, hd.2.exact xx⟩

example : printint (.intMin 32) 10 true = some "-2147483648".toList := by decide

end Xv6.Ulib
