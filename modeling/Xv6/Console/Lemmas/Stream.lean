import Xv6.Lib.Ring
import Xv6.Console.Stream

/-!
# The buffer holds the stream

The bytes between `r` and `w` have been entered, and those between `w` and `e` are the current line.
-/

namespace Xv6.Console

open Xv6.Lib List

variable {s : Input} {q l : List (BitVec 8)} {a : Edited} {c : BitVec 8}

structure Holds (s : Input) (q l : List (BitVec 8)) : Prop where
  le : (q ++ l).length ≤ INPUT_BUF
  w : s.w = s.r + .ofNat 32 q.length
  e : s.e = s.r + .ofNat 32 (q ++ l).length
  ring : ring INPUT_BUF s.buf.get s.r (q ++ l).length = q ++ l
  newline : ∀ c ∈ l, c ≠ NEWLINE

theorem toNat_add_sub (r : BitVec 32) {k : Nat} (h : k ≤ INPUT_BUF) : (r + .ofNat 32 k - r).toNat = k := by
  have hk : k < 2 ^ 32 := lt_of_le_of_lt h (by decide)
  rw [BitVec.add_comm, BitVec.add_sub_cancel, BitVec.toNat_ofNat, Nat.mod_eq_of_lt hk]

theorem add_ofNat_inj {r : BitVec 32} {k m : Nat} (hk : k ≤ INPUT_BUF) (hm : m ≤ INPUT_BUF) :
    r + .ofNat 32 k = r + .ofNat 32 m ↔ k = m := by
  constructor
  · intro h
    rw [← toNat_add_sub r hk, h, toNat_add_sub r hm]
  · rintro rfl
    rfl

theorem add_ofNat_succ (r : BitVec 32) (k : Nat) : r + .ofNat 32 (k + 1) = r + .ofNat 32 k + 1 := by
  rw [BitVec.ofNat_add, ← BitVec.add_assoc]
  rfl

namespace Holds

section

variable (h : Holds s q l)
include h

theorem le_left : q.length ≤ INPUT_BUF :=
  le_trans (by simp) h.le

theorem w_sub_r : (s.w - s.r).toNat = q.length := by
  rw [h.w, toNat_add_sub _ h.le_left]

theorem e_sub_r : (s.e - s.r).toNat = (q ++ l).length := by
  rw [h.e, toNat_add_sub _ h.le]

theorem e_sub_w : (s.e - s.w).toNat = l.length := by
  have hl : l.length ≤ INPUT_BUF := le_trans (by simp) h.le
  rw [h.e, h.w, length_append, BitVec.ofNat_add, ← BitVec.add_assoc, toNat_add_sub _ hl]

theorem r_eq_w : s.r = s.w ↔ q = [] := by
  rw [h.w, ← length_eq_zero_iff, eq_comm, ← add_ofNat_inj h.le_left (Nat.zero_le _)]
  rw [show s.r + BitVec.ofNat 32 0 = s.r from BitVec.add_zero _]

theorem e_eq_w : s.e = s.w ↔ l = [] := by
  rw [h.w, h.e, add_ofNat_inj h.le h.le_left]
  simp

theorem unread : s.unread = q := by
  have hl : s.unread = Lib.ring INPUT_BUF s.buf.get s.r q.length := by
    rw [Input.unread, h.w_sub_r]
    rfl
  have hp : Lib.ring INPUT_BUF s.buf.get s.r q.length <+: Lib.ring INPUT_BUF s.buf.get s.r (q ++ l).length := by
    refine List.IsPrefix.map _ ?_
    rw [length_append, range_add]
    exact prefix_append _ _
  rw [hl]
  rw [h.ring] at hp
  exact (prefix_of_prefix_length_le hp (prefix_append q l) (by simp)).eq_of_length (by simp)

/-! ## Keys -/

theorem put (hlt : (q ++ l).length < INPUT_BUF) (c : BitVec 8) :
    (s.put c).e = s.r + .ofNat 32 ((q ++ l).length + 1) ∧
    Lib.ring INPUT_BUF (s.put c).buf.get s.r ((q ++ l).length + 1) = q ++ l ++ [c] := by
  constructor
  · rw [add_ofNat_succ, ← h.e]
    rfl
  · have hi : s.e.toNat % INPUT_BUF < INPUT_BUF := Nat.mod_lt _ (by decide)
    rw [← congrArg (· ++ [c]) h.ring]
    refine ring_push (by decide) hlt ?_ fun i hne => ?_
    · rw [← h.e]; exact Bytes.get_set_self _ _ hi
    · rw [← h.e] at hne; exact Bytes.get_set_ne _ _ hne

theorem type (hlt : (q ++ l).length < INPUT_BUF) (hc : c ≠ NEWLINE) : Holds (s.put c) q (l ++ [c]) := by
  obtain ⟨he, hr⟩ := h.put hlt c
  have hl : (q ++ (l ++ [c])).length = (q ++ l).length + 1 := by simp [add_assoc]
  refine ⟨hl ▸ hlt, h.w, hl ▸ he, ?_, ?_⟩
  · rw [hl, ← append_assoc]; exact hr
  · intro b hb
    rcases mem_append.mp hb with hb | hb
    · exact h.newline b hb
    · rw [mem_singleton.mp hb]; exact hc

theorem enter (hlt : (q ++ l).length < INPUT_BUF) (c : BitVec 8) : Holds { s.put c with w := (s.put c).e } (q ++ (l ++ [c])) [] := by
  obtain ⟨he, hr⟩ := h.put hlt c
  have hl : (q ++ (l ++ [c])).length = (q ++ l).length + 1 := by simp [add_assoc]
  refine ⟨?_, ?_, ?_, ?_, by simp⟩
  · rw [append_nil, hl]; exact hlt
  · rw [hl]; exact he
  · rw [append_nil, hl]; exact he
  · rw [append_nil, hl, ← append_assoc]; exact hr

end

theorem last (h : Holds s q (l ++ [c])) : s.at' (s.e - 1) = c ∧ Holds { s with e := s.e - 1 } q l := by
  have hl : (q ++ (l ++ [c])).length = (q ++ l).length + 1 := by simp [add_assoc]
  have he : s.e - 1 = s.r + .ofNat 32 (q ++ l).length := by
    rw [h.e, hl, add_ofNat_succ, BitVec.add_sub_cancel]
  have hr := h.ring
  rw [hl, ring_succ, ← append_assoc] at hr
  obtain ⟨hq, hc⟩ := append_inj' hr rfl
  constructor
  · rw [he]
    exact singleton_inj.mp hc
  · exact ⟨by have := h.le; omega, h.w, he, hq, fun b hb => h.newline b (mem_append_left _ hb)⟩

theorem back (h : Holds s q l) : Holds (if s.e ≠ s.w then { s with e := s.e - 1 } else s) q l.dropLast := by
  rcases eq_nil_or_concat' l with rfl | ⟨l, c, rfl⟩
  · rw [if_neg (not_not.mpr (h.e_eq_w.mpr rfl))]
    exact h
  · rw [if_pos (fun he => by simpa using h.e_eq_w.mp he), dropLast_concat]
    exact h.last.2

/-- Nothing stops the loop of `C('U')` before `w`. -/
theorem killLine {k : Nat} (h : Holds s q l) (hk : l.length ≤ k) : Holds (s.killLine k) q [] := by
  induction k generalizing s l with
  | zero => rwa [← length_eq_zero_iff.mp (Nat.le_zero.mp hk)]
  | succ k ih =>
    rcases eq_nil_or_concat' l with rfl | ⟨l, c, rfl⟩
    · rw [Input.killLine, if_neg fun hs => hs.1 (h.e_eq_w.mpr rfl)]
      exact h
    · have hc : c ≠ NEWLINE := h.newline c (by simp)
      rw [Input.killLine, if_pos ⟨fun he => by simpa using h.e_eq_w.mp he, by rw [h.last.1]; exact hc⟩]
      exact ih h.last.2 (by simpa using hk)

theorem take (h : Holds s (c :: q) l) : s.at' s.r = c ∧ Holds { s with r := s.r + 1 } q l := by
  have hr := h.ring
  rw [cons_append, length_cons, ring_pop] at hr
  obtain ⟨hc, hq⟩ := cons.inj hr
  have hadd : ∀ k, s.r + .ofNat 32 (k + 1) = s.r + 1 + .ofNat 32 k := by
    intro k
    rw [add_ofNat_succ, BitVec.add_assoc, BitVec.add_comm (.ofNat 32 k), ← BitVec.add_assoc]
  refine ⟨hc, Nat.le_of_succ_le h.le, ?_, ?_, hq, h.newline⟩
  · rw [h.w]; exact hadd _
  · rw [h.e]; exact hadd _

end Holds

/-! ## Refinement of the stream -/

structure Follows (s : Input) (a : Edited) : Prop where
  taken : a.taken ≤ a.text.length
  holds : Holds s (a.text.drop a.taken) a.line

namespace Follows

section

variable (h : Follows s a)
include h

theorem length : (a.text.drop a.taken ++ a.line).length + a.taken = a.text.length + a.line.length := by
  have := h.taken
  simp only [length_append, length_drop]
  omega

theorem full : a.full ↔ (a.text.drop a.taken ++ a.line).length = INPUT_BUF := by
  have hl := h.length
  have hle := h.holds.le
  rw [Edited.full]
  omega

theorem full_type (c : BitVec 8) : (a.type c).full ↔ (a.text.drop a.taken ++ a.line).length + 1 = INPUT_BUF ∨ a.full := by
  have hl := h.length
  have hle := h.holds.le
  simp only [Edited.full, Edited.type, length_append, length_singleton] at *
  omega

theorem accept (hf : ¬ a.full) (c : BitVec 8) :
    Follows (if c = NEWLINE ∨ c = C 'D' ∨ (s.put c).e = s.r + .ofNat 32 INPUT_BUF then
      { s.put c with w := (s.put c).e } else s.put c) (a.accept c) := by
  have hlt : (a.text.drop a.taken ++ a.line).length < INPUT_BUF := lt_of_le_of_ne h.holds.le fun he => hf (h.full.mpr he)
  have hfull : (s.put c).e = s.r + .ofNat 32 INPUT_BUF ↔ (a.type c).full := by
    rw [(h.holds.put hlt c).1, add_ofNat_inj hlt le_rfl, h.full_type, or_iff_left hf]
  simp only [hfull, Edited.accept]
  split
  · refine ⟨?_, ?_⟩
    · simpa [Edited.enter, Edited.type] using le_trans h.taken (Nat.le_add_right _ _)
    · simp only [Edited.enter, Edited.type, drop_append_of_le_length h.taken]
      exact h.holds.enter hlt c
  · rename_i hn
    exact ⟨h.taken, h.holds.type hlt fun hc => hn (.inl hc)⟩

theorem key (c : BitVec 8) : Follows (s.key c) (a.key c) := by
  have hroom : c ≠ 0 ∧ (s.e - s.r).toNat < INPUT_BUF ↔ ¬ (c = 0 ∨ a.full) := by
    have hle := h.holds.le
    rw [h.holds.e_sub_r, h.full, not_or]
    exact and_congr_right fun _ => lt_iff_le_and_ne.trans (and_iff_right hle)
  simp only [Input.key, Edited.key, hroom]
  split
  · exact h
  · split
    · exact ⟨h.taken, h.holds.killLine h.holds.e_sub_w.ge⟩
    · split
      · exact ⟨h.taken, h.holds.back⟩
      · by_cases hn : c = 0 ∨ a.full
        · rw [if_neg (not_not.mpr hn), if_pos hn]
          exact h
        · rw [if_pos hn, if_neg hn]
          exact h.accept (fun hf => hn (.inr hf)) _

theorem consoleintr (cs : List (BitVec 8)) : Follows (s.consoleintr cs) (cs.foldl Edited.key a) := by
  induction cs generalizing s a with
  | nil => exact h
  | cons c cs ih => exact ih (h.key c)

end

end Follows

end Xv6.Console
