import Xv6.Grep.Lemmas

/-!
# Theorems about `grep`

When a `read` brings no newline, `grep` forgets what it has in the buffer.
-/

namespace Xv6.Grep

open Xv6.Lib List

variable {pattern : List Byte} {buf : Buf} {chunks : List (List Byte)} {l c : List Byte}

/-! ## The lines that `grep` sees -/

def feed (pattern : List Byte) : List Byte → List (List Byte) → List Byte
  | _, [] => []
  | l, c :: cs =>
    if newline ∈ c then matching pattern (complete newline (l ++ c)) ++ feed pattern (remainder newline (l ++ c)) cs
    else feed pattern [] cs

/-- `grep` is the list program `feed`: the buffer holds what it should hold at each `read`. -/
theorem run_eq_feed (hr : Reads pattern buf chunks) (h0 : 0#8 ∉ chunks.flatten) {before after : List (List Byte)}
    (hc : chunks = before ++ after) (hl : Left (run pattern buf before) l) :
    (run pattern buf chunks).out = (run pattern buf before).out ++ feed pattern l after := by
  induction after generalizing before l with
  | nil => rw [hc, append_nil]; simp [feed]
  | cons c after ih =>
    obtain ⟨hne, hlen⟩ := hr before c after hc
    have hz : 0#8 ∉ c := by
      intro hx
      apply h0
      rw [hc, mem_flatten]
      exact ⟨c, by simp, hx⟩
    have hfit : l.length + c.length < BUFSIZE := by
      have hm := hl.m
      have hpos := length_pos_of_ne_nil hne
      omega
    have hrun : run pattern buf (before ++ [c]) = step pattern (run pattern buf before) c := by
      simp [run]
    have hc' : chunks = (before ++ [c]) ++ after := by simp [hc]
    by_cases hn : newline ∈ c
    · obtain ⟨h1, h2⟩ := hl.step_line pattern hz hfit hn
      rw [ih hc' (hrun ▸ h1), hrun, h2, feed, if_pos hn, append_assoc]
    · obtain ⟨h1, h2⟩ := hl.step_drop pattern hz hfit hn
      rw [ih hc' (hrun ▸ h1), hrun, h2, feed, if_neg hn]

/-! ## When nothing is lost -/

def Steady (chunks : List (List Byte)) : Prop :=
  ∀ before c after, chunks = before ++ c :: after → newline ∈ after.flatten → newline ∈ c

theorem Steady.tail (h : Steady (c :: chunks)) : Steady chunks :=
  fun before d after hc => h (c :: before) d after (by rw [hc, cons_append])

theorem steady_cons_iff (hn : newline ∈ c) : Steady (c :: chunks) ↔ Steady chunks := by
  refine ⟨Steady.tail, fun h before d after hc ha => ?_⟩
  cases before with
  | nil => cases hc; exact hn
  | cons x before => cases hc; exact h before d after rfl ha

theorem Steady.of_no_line (h : newline ∉ chunks.flatten) : Steady chunks := by
  intro before d after hc ha
  refine absurd ?_ h
  rw [hc, flatten_append, flatten_cons]
  exact mem_append_right _ (mem_append_right _ ha)

theorem feed_no_line (l : List Byte) (h : newline ∉ chunks.flatten) : feed pattern l chunks = [] := by
  induction chunks generalizing l with
  | nil => rfl
  | cons c cs ih =>
    simp only [flatten_cons, mem_append, not_or] at h
    rw [feed, if_neg h.1, ih [] h.2]

theorem feed_steady (hs : Steady chunks) (hl : newline ∉ l) :
    feed pattern l chunks = matching pattern (complete newline (l ++ chunks.flatten)) := by
  induction chunks generalizing l with
  | nil => simp [feed, hl, matching]
  | cons c cs ih =>
    rw [feed, flatten_cons]
    split
    · rw [ih hs.tail (remainder_no_line newline (l ++ c)), ← append_assoc, complete_append_append newline (l ++ c),
        matching_append]
    · rename_i hn
      -- Nothing follows that could be lost.
      have hno : newline ∉ cs.flatten := fun ha => hn (hs [] c cs rfl ha)
      have hall : newline ∉ l ++ (c ++ cs.flatten) := by simp [hl, hn, hno]
      rw [feed_no_line _ hno, complete_not_mem hall]
      rfl

/-! ## When something is lost -/

theorem matchText_nil (text : List Byte) : matchText [] text = true := by
  cases text <;> simp [matchText, matchLoop, matchhere]

theorem matching_nil (ls : List (List Byte)) : matching [] ls = ls.flatMap (· ++ [newline]) := by
  rw [matching, filter_eq_self.mpr fun a _ => matchText_nil a]

def upto (l : List Byte) : Nat := (matching [] (complete newline l)).length

theorem upto_append (l r : List Byte) : upto (l ++ r) = upto l + upto (remainder newline l ++ r) := by
  simp [upto, complete_append_append newline l, matching_append]

theorem upto_of_line {r : List Byte} (hl : newline ∉ l) (hr : newline ∈ r) : upto (l ++ r) = l.length + upto r := by
  obtain ⟨a, b, rfl, ha⟩ := eq_append_cons_of_mem hr
  have hla : newline ∉ l ++ a := by simp [hl, ha]
  simp only [upto, ← append_assoc, complete_append hla, complete_append ha, matching_nil, flatMap_cons,
    length_append]
  omega

theorem feed_le (l : List Byte) (hl : newline ∉ l) : (feed [] l chunks).length ≤ upto (l ++ chunks.flatten) := by
  induction chunks generalizing l with
  | nil => simp [feed]
  | cons c cs ih =>
    rw [feed, flatten_cons]
    split
    · rw [← append_assoc, upto_append, length_append]
      exact Nat.add_le_add_left (ih _ (remainder_no_line newline (l ++ c))) _
    · rename_i hn
      by_cases hcs : newline ∈ cs.flatten
      · have hlc : newline ∉ l ++ c := by simp [hl, hn]
        rw [← append_assoc, upto_of_line hlc hcs]
        have := ih [] (by simp)
        rw [nil_append] at this
        omega
      · rw [feed_no_line _ hcs]
        exact Nat.zero_le _

/-- A chunk without a newline, and a newline later: bytes of a line are lost. -/
theorem feed_lt (hl : newline ∉ l) (hne : ∀ c ∈ chunks, c ≠ []) (hs : ¬ Steady chunks) :
    (feed [] l chunks).length < upto (l ++ chunks.flatten) := by
  induction chunks generalizing l with
  | nil => exact absurd (.of_no_line (by simp)) hs
  | cons c cs ih =>
    rw [feed, flatten_cons]
    split
    · rename_i hn
      rw [steady_cons_iff hn] at hs
      rw [← append_assoc, upto_append, length_append]
      exact Nat.add_lt_add_left (ih (remainder_no_line newline (l ++ c)) (fun d hd => hne d (by simp [hd])) hs) _
    · rename_i hn
      by_cases hcs : newline ∈ cs.flatten
      · have hlc : newline ∉ l ++ c := by simp [hl, hn]
        rw [← append_assoc, upto_of_line hlc hcs]
        have hle : (feed [] [] cs).length ≤ upto ([] ++ cs.flatten) := feed_le [] (by simp)
        rw [nil_append] at hle
        have hpos := length_pos_of_ne_nil (hne c (by simp))
        simp only [length_append]
        omega
      · exact absurd (.of_no_line (by simp [hn, hcs])) hs

/-! ## `grep` -/

theorem grep_eq_feed (hr : Reads pattern buf chunks) (h0 : 0#8 ∉ chunks.flatten) : grep pattern buf chunks = feed pattern [] chunks := by
  have hl : Left (run pattern buf []) [] := ⟨rfl, by simp, by simp, by simp⟩
  have := run_eq_feed hr h0 (show chunks = [] ++ chunks from rfl) hl
  simpa [grep, run] using this

/-- `grep` writes the matching lines for every pattern exactly if every chunk before the last newline has a newline. -/
theorem grep_lines_iff (h0 : 0#8 ∉ chunks.flatten) (hr : ∀ pattern, Reads pattern buf chunks) :
    ((∀ pattern, grep pattern buf chunks = matching pattern (complete newline chunks.flatten)) ↔ Steady chunks) ∧
    ∀ chunks' buf', chunks'.flatten = chunks.flatten → (∀ pattern, Reads pattern buf' chunks') → Steady chunks →
      Steady chunks' → ∀ pattern, grep pattern buf' chunks' = grep pattern buf chunks := by
  have hlines : Steady chunks → ∀ pattern, grep pattern buf chunks = matching pattern (complete newline chunks.flatten) := by
    intro hs pattern
    rw [grep_eq_feed (hr pattern) h0, feed_steady hs (by simp), nil_append]
  refine ⟨⟨fun h => ?_, hlines⟩, fun chunks' buf' hf hr' hs hs' pattern => ?_⟩
  · by_contra hs
    have hne : ∀ c ∈ chunks, c ≠ [] := by
      intro c hc
      obtain ⟨before, after, he⟩ := append_of_mem hc
      exact (hr [] before c after he).1
    have hlt := feed_lt (l := []) (by simp) hne hs
    rw [← grep_eq_feed (hr []) h0, h [], nil_append] at hlt
    exact lt_irrefl _ hlt
  · rw [hlines hs, grep_eq_feed (hr' pattern) (hf ▸ h0), feed_steady hs' (by simp), nil_append, hf]

/-! ## Short inputs -/

theorem run_left (pattern : List Byte) (buf : Buf) (h0 : 0#8 ∉ chunks.flatten) (hb : chunks.flatten.length < BUFSIZE) :
    ∃ l, Left (run pattern buf chunks) l ∧ l.length ≤ chunks.flatten.length := by
  induction chunks using reverseRecOn with
  | nil => exact ⟨[], ⟨rfl, by simp, by simp, by simp⟩, le_rfl⟩
  | append_singleton cs c ih =>
    simp only [flatten_append, flatten_cons, flatten_nil, append_nil, mem_append, not_or,
      length_append] at h0 hb ⊢
    obtain ⟨l, hl, hle⟩ := ih h0.1 (by omega)
    have hrun : run pattern buf (cs ++ [c]) = step pattern (run pattern buf cs) c := by simp [run]
    rw [hrun]
    by_cases hn : newline ∈ c
    · refine ⟨_, (hl.step_line pattern h0.2 (by omega) hn).1, ?_⟩
      have := length_remainder_le newline (l ++ c)
      simp only [length_append] at this
      omega
    · exact ⟨[], (hl.step_drop pattern h0.2 (by omega) hn).1, Nat.zero_le _⟩

theorem reads_of_short (pattern : List Byte) (buf : Buf) (h0 : 0#8 ∉ chunks.flatten) (hb : chunks.flatten.length < BUFSIZE)
    (hne : ∀ c ∈ chunks, c ≠ []) : Reads pattern buf chunks := by
  intro before c after hc
  refine ⟨hne c (by simp [hc]), ?_⟩
  rw [hc] at h0 hb
  simp only [flatten_append, flatten_cons, mem_append, not_or, length_append] at h0 hb
  obtain ⟨l, hl, hle⟩ := run_left pattern buf h0.1 (by omega)
  rw [hl.m]
  omega

def whole : List (List Byte) := [[0x61, 0x62, newline]]

def lines : List (List Byte) := [[0x61, newline, 0x62], [newline, 0x63], [newline, 0x64]]

def split : List (List Byte) := [[0x61], [0x62, newline]]

/-- `a`, `b` and `c` in three reads, of which two end within a line, or in one. -/
theorem grep_lines_iff_three_reads : Steady lines ∧
    (∀ pattern, grep pattern (Bytes.fill BUFSIZE 0#8) lines = matching pattern (complete newline lines.flatten)) ∧
    ∀ pattern, grep pattern (Bytes.fill BUFSIZE 0#8) [lines.flatten] = grep pattern (Bytes.fill BUFSIZE 0#8) lines := by
  have hlast : Steady [[newline, 0x64]] := (steady_cons_iff (by decide)).mpr (.of_no_line (by decide))
  have hs : Steady lines := (steady_cons_iff (by decide)).mpr ((steady_cons_iff (by decide)).mpr hlast)
  have hone : Steady [lines.flatten] := (steady_cons_iff (by decide)).mpr (.of_no_line (by decide))
  have hr : ∀ pattern, Reads pattern (Bytes.fill BUFSIZE 0#8) lines := fun _ => reads_of_short _ _ (by decide) (by decide) (by decide)
  have h := grep_lines_iff (by decide) hr
  exact ⟨hs, h.1.mpr hs, h.2 _ _ (by decide) (fun _ => reads_of_short _ _ (by decide) (by decide) (by decide)) hs hone⟩

/-- The empty pattern: `ab` in the one case, and `b` in the other. -/
theorem grep_depends_on_reads :
    ¬ ∀ pattern buf chunks chunks', 0#8 ∉ chunks.flatten → Reads pattern buf chunks → Reads pattern buf chunks' →
      chunks'.flatten = chunks.flatten → grep pattern buf chunks' = grep pattern buf chunks := by
  intro hall
  have h1 : Reads [] (Bytes.fill BUFSIZE 0#8) whole := reads_of_short _ _ (by decide) (by decide) (by decide)
  have h2 : Reads [] (Bytes.fill BUFSIZE 0#8) split := reads_of_short _ _ (by decide) (by decide) (by decide)
  have h := hall [] (Bytes.fill BUFSIZE 0#8) whole split (by decide) h1 h2 (by decide)
  rw [grep_eq_feed h1 (by decide), grep_eq_feed h2 (by decide)] at h
  exact absurd h (by decide)

end Xv6.Grep
