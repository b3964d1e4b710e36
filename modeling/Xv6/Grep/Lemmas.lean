import Xv6.Grep.Model
import Xv6.Lib.Lines

/-!
# One `read` of `grep`

What follows the last newline is kept for the next `read`; without a newline everything is dropped.
-/

namespace Xv6.Grep

open Xv6.Lib List Bytes

variable {buf : Buf} {p : Nat} {a b c l : List Byte} (pattern : List Byte) {s : State}

/-! ## Strings in the buffer -/

/-- The string at position `p` is `l`. -/
structure Holds (buf : Buf) (p : Nat) (l : List Byte) : Prop where
  bytes : ∀ i, (hi : i < l.length) → buf.get (p + i) = l[i]
  nul : buf.get (p + l.length) = 0#8
  nonzero : 0#8 ∉ l
  fits : p + l.length < BUFSIZE

theorem Holds.head {x : Byte} (h : Holds buf p (x :: l)) : buf.get p = x ∧ x ≠ 0#8 :=
  ⟨h.bytes 0 (by simp), fun hx => h.nonzero (by simp [hx])⟩

theorem Holds.drop (h : Holds buf p (a ++ b)) : Holds buf (p + a.length) b where
  bytes i hi := by
    have := h.bytes (a.length + i) (by simpa using hi)
    rw [getElem_append_right (by omega), ← add_assoc] at this
    simpa using this
  nul := by
    have := h.nul
    rwa [length_append, ← add_assoc] at this
  nonzero hx := h.nonzero (mem_append_right _ hx)
  fits := by
    have := h.fits
    simp only [length_append] at this
    omega

theorem Holds.tail {x : Byte} (h : Holds buf p (x :: l)) : Holds buf (p + 1) l := Holds.drop (a := [x]) h

theorem cstr_eq (h : Holds buf p l) {k : Nat} (hk : l.length < k) : cstr buf k p = l := by
  induction l generalizing p k with
  | nil =>
    obtain ⟨k, rfl⟩ : ∃ n, k = n + 1 := ⟨k - 1, by omega⟩
    have h0 : buf.get p = 0#8 := h.nul
    simp [cstr, h0]
  | cons x l ih =>
    obtain ⟨k, rfl⟩ : ∃ n, k = n + 1 := ⟨k - 1, by omega⟩
    simp only [length_cons] at hk
    simp [cstr, h.head, ih h.tail (show l.length < k by omega)]

theorem strchr_none (h : Holds buf p l) (hn : newline ∉ l) (k : Nat) : strchr buf newline k p = none := by
  induction l generalizing p k with
  | nil =>
    have h0 : buf.get p = 0#8 := h.nul
    cases k with
    | zero => rfl
    | succ k => simp [strchr, h0]
  | cons x l ih =>
    simp only [mem_cons, not_or] at hn
    cases k with
    | zero => rfl
    | succ k => simp [strchr, h.head, Ne.symm hn.1, ih h.tail hn.2]

theorem strchr_some (h : Holds buf p (a ++ newline :: b)) (hn : newline ∉ a) {k : Nat} (hk : a.length < k) :
    strchr buf newline k p = some (p + a.length) := by
  induction a generalizing p k with
  | nil =>
    obtain ⟨k, rfl⟩ : ∃ n, k = n + 1 := ⟨k - 1, by omega⟩
    obtain ⟨h1, h2⟩ := Holds.head h
    simp [strchr, h1, h2]
  | cons x a ih =>
    obtain ⟨k, rfl⟩ : ∃ n, k = n + 1 := ⟨k - 1, by omega⟩
    simp only [mem_cons, not_or] at hn
    simp only [length_cons] at hk
    obtain ⟨h1, h2⟩ := Holds.head h
    simp only [strchr, h1, if_neg h2, if_neg (Ne.symm hn.1), ih (Holds.tail h) hn.2 (show a.length < k by omega),
      length_cons]
    congr 1
    omega

/-- A nul in the place of the newline: the string is the line. -/
theorem Holds.cut (h : Holds buf p (a ++ newline :: b)) : Holds (buf.set (p + a.length) 0#8) p a where
  bytes i hi := by
    rw [get_set_ne _ _ (by omega), h.bytes i (by simp; omega), getElem_append_left hi]
  nul := by
    have := h.fits
    simp only [length_append, length_cons] at this
    rw [get_set_self _ _ (by omega)]
  nonzero hx := h.nonzero (mem_append_left _ hx)
  fits := by
    have := h.fits
    simp only [length_append, length_cons] at this
    omega

theorem Holds.set (h : Holds buf p l) {q : Nat} (hq : q < p) (v : Byte) : Holds (buf.set q v) p l where
  __ := h
  bytes i hi := by rw [get_set_ne _ _ (by omega)]; exact h.bytes i hi
  nul := by rw [get_set_ne _ _ (by omega)]; exact h.nul

theorem slice_eq (h : Holds (buf.set (p + a.length) 0#8) p a) (hp : p + a.length < BUFSIZE) :
    slice ((buf.set (p + a.length) 0#8).set (p + a.length) newline) p (a.length + 1) = a ++ [newline] := by
  apply ext_getElem
  · simp [slice]
  · intro i h1 h2
    simp only [slice, length_map, length_range] at h1
    simp only [slice, getElem_map, getElem_range]
    by_cases hi : i < a.length
    · rw [get_set_ne _ _ (by omega), h.bytes i hi, getElem_append_left hi]
    · obtain rfl : i = a.length := by omega
      rw [get_set_self _ _ hp, getElem_append_right le_rfl]
      simp

/-! ## One `read` -/

def matching (pattern : List Byte) (ls : List (List Byte)) : List Byte :=
  (ls.filter (matchText pattern)).flatMap (· ++ [newline])

theorem matching_append (ls ls' : List (List Byte)) : matching pattern (ls ++ ls') = matching pattern ls ++ matching pattern ls' := by
  simp [matching]

theorem lineLoop_eq (h : Holds buf p l) {k : Nat} (hk : l.length < k) (out : List Byte) :
    ∃ buf' p', lineLoop pattern k buf p out = (buf', p', out ++ matching pattern (complete newline l)) ∧
      Holds buf' p' (remainder newline l) ∧ p' + (remainder newline l).length = p + l.length ∧
      (newline ∉ l → p' = p) ∧ (newline ∈ l → p < p') := by
  induction l using lines_induction newline generalizing buf p k out with
  | last l hn =>
    obtain ⟨k, rfl⟩ : ∃ n, k = n + 1 := ⟨k - 1, by omega⟩
    refine ⟨buf, p, ?_, ?_, ?_, ?_⟩ <;> simp [lineLoop, strchr_none h hn, hn, matching, h]
  | line a b hn ih =>
    obtain ⟨k, rfl⟩ : ∃ n, k = n + 1 := ⟨k - 1, by omega⟩
    have hf := h.fits
    simp only [length_append, length_cons] at hf hk
    have hc := h.cut
    have hb : Holds buf (p + a.length + 1) b := (Holds.drop h).tail
    have hq : p + a.length + 1 - p = a.length + 1 := by omega
    have hlen : (a ++ newline :: b).length = a.length + 1 + b.length := by simp; omega
    have hmem : newline ∈ a ++ newline :: b := by simp
    simp only [lineLoop, strchr_some h hn (show a.length < BUFSIZE by omega), cstr_eq hc (show a.length < BUFSIZE by omega), hq,
      slice_eq hc (by omega), complete_append hn, remainder_append hn, hlen]
    have hle : ∀ p', (newline ∉ b → p' = p + a.length + 1) → (newline ∈ b → p + a.length + 1 < p') → p < p' := by
      intro p' h1 h2
      by_cases hb : newline ∈ b
      · have := h2 hb; omega
      · have := h1 hb; omega
    split
    · rename_i hm
      obtain ⟨buf', p', h1, h2, h3, h4, h5⟩ := ih
        ((hb.set (q := p + a.length) (by omega) 0#8).set (q := p + a.length) (by omega) newline)
        (show b.length < k by omega) (out ++ (a ++ [newline]))
      refine ⟨buf', p', ?_, h2, by omega, fun h => absurd hmem h, fun _ => hle p' h4 h5⟩
      rw [h1]
      simp [matching, hm]
    · rename_i hm
      obtain ⟨buf', p', h1, h2, h3, h4, h5⟩ := ih (hb.set (q := p + a.length) (by omega) 0#8)
        (show b.length < k by omega) out
      refine ⟨buf', p', ?_, h2, by omega, fun h => absurd hmem h, fun _ => hle p' h4 h5⟩
      rw [h1]
      simp [matching, hm]

structure Left (s : State) (l : List Byte) : Prop where
  m : s.m = l.length
  bytes : ∀ i, (hi : i < l.length) → s.buf.get i = l[i]
  noLine : newline ∉ l
  nonzero : 0#8 ∉ l

section

variable (h : Left s l) (hc : 0#8 ∉ c) (hl : l.length + c.length < BUFSIZE)
include h hc hl

theorem Left.read :
    Holds ((s.buf.write s.m c.length fun i => c.getD i 0#8).set (s.m + c.length) 0#8) 0 (l ++ c) where
  bytes i hi := by
    simp only [length_append] at hi
    rw [h.m, zero_add, get_set_ne _ _ (by omega), get_write _ _ _ _ (by omega)]
    by_cases hlt : i < l.length
    · rw [if_neg (by omega), h.bytes i hlt, getElem_append_left hlt]
    · rw [if_pos (by omega), getElem_append_right (by omega), getD_eq_getElem?_getD,
        getElem?_eq_getElem (by omega), Option.getD_some]
  nul := by
    rw [h.m, zero_add, length_append, get_set_self _ _ hl]
  nonzero hx := (mem_append.mp hx).elim h.nonzero hc
  fits := by simpa using hl

theorem Left.step_line (hn : newline ∈ c) :
    Left (step pattern s c) (remainder newline (l ++ c)) ∧
      (step pattern s c).out = s.out ++ matching pattern (complete newline (l ++ c)) := by
  have hr := h.read hc hl
  have hlen : (l ++ c).length = l.length + c.length := length_append
  obtain ⟨buf', p', h1, h2, h3, _, h5⟩ := lineLoop_eq pattern hr (show _ < BUFSIZE by omega) s.out
  have hp := h5 (mem_append_right _ hn)
  have hm : s.m + c.length - p' = (remainder newline (l ++ c)).length := by rw [h.m]; omega
  have hs : step pattern s c =
      ⟨memmove buf' p' (s.m + c.length - p'), s.m + c.length - p', s.out ++ matching pattern (complete newline (l ++ c))⟩ := by
    have hpos : 0 < s.m + c.length := by rw [h.m]; omega
    simp only [step, h1, if_neg (show p' ≠ 0 by omega), gt_iff_lt, if_pos hpos]
  rw [hs]
  refine ⟨⟨hm, fun i hi => ?_, remainder_no_line _ _, h2.nonzero⟩, rfl⟩
  simp only [memmove]
  rw [get_write _ _ _ _ (by omega), if_pos (by omega), Nat.sub_zero, h2.bytes i hi]

theorem Left.step_drop (hn : newline ∉ c) :
    Left (step pattern s c) [] ∧ (step pattern s c).out = s.out := by
  have hr := h.read hc hl
  have hlen : (l ++ c).length = l.length + c.length := length_append
  have hno : newline ∉ l ++ c := fun hx => (mem_append.mp hx).elim h.noLine hn
  obtain ⟨buf', p', h1, _, _, h4, _⟩ := lineLoop_eq pattern hr (show _ < BUFSIZE by omega) s.out
  obtain rfl := h4 hno
  have hs : step pattern s c = ⟨buf', 0, s.out⟩ := by
    simp only [step, h1, if_true, gt_iff_lt, lt_irrefl, if_false, complete_not_mem hno, matching, filter_nil,
      flatMap_nil, append_nil]
  rw [hs]
  exact ⟨⟨rfl, by simp, by simp, by simp⟩, rfl⟩

end

end Xv6.Grep
