import Mathlib.Order.Interval.Finset.Nat
import Xv6.Filewrite.Theorems
import Xv6.Fs.Lemmas.Fills

/-!
# The log space of a write

A pass of the loop in `filewrite` is one operation of the log, for which `begin_op` reserves `MAXOPBLOCKS` blocks.
-/

namespace Xv6.Filewrite

open Xv6.Lib Fs Finset

variable {n : Inum} {N : Finset Fs.Idx} {f : File} {c : Call} {off len : Nat}

/-- The log as one operation sees it: the blocks that it has passed to `log_write`. A block that is more than the operation
has reserved is refused. -/
def budget (l : Finset Nat) (b : Nat) : Option (Finset Nat) :=
  if (insert b l).card ≤ MAXOPBLOCKS then some (insert b l) else none

theorem foldlM_budget {bs : List Nat} {l l' : Finset Nat} (h : bs.foldlM budget l = some l') : l' = l ∪ bs.toFinset := by
  induction bs generalizing l with
  | nil =>
    cases h
    simp
  | cons b bs ih =>
    rw [List.foldlM_cons, budget] at h
    split at h
    · simp [ih h]
    · cases h

variable {fs fs' : Fs.State (Finset Nat)}

/-! ## What a pass may log -/

theorem not_refused (hlog : fs.disk.log = ∅) (hN : N.card + (missing fs n N).card + 1 ≤ MAXOPBLOCKS) : ¬ Fs.Refused budget fs n N := by
  rintro ⟨g, bs, l, b, -, hbs, hb, hall⟩
  rw [hlog] at hbs
  have hl : insert b l = (bs ++ [b]).toFinset := by rw [foldlM_budget hbs]; ext; simp
  rw [budget, hl, if_pos] at hb
  · cases hb
  · exact (card_le_of_logged fun y hy => hall y (List.mem_toFinset.mp hy)).trans hN

theorem Fills.card_log (h : Fs.Fills budget fs n N fs') (hlog : fs.disk.log = ∅)
    (hN : N.card + (missing fs n N).card + 1 ≤ MAXOPBLOCKS) : fs'.disk.log.card ≤ MAXOPBLOCKS := by
  obtain ⟨bs, hbs, hall⟩ := h.log
  rw [hlog] at hbs
  rw [foldlM_budget hbs, empty_union]
  exact (card_le_of_logged fun y hy => hall y (List.mem_toFinset.mp hy)).trans hN

/-- Three blocks of bytes are in four blocks of the file, and the first of four begins before them. -/
theorem card_touched (hlen : len ≤ 3 * BSIZE) : (touched off len).card + ((touched off len).filter (off ≤ · * BSIZE)).card ≤ 7 := by
  by_cases ha : off % BSIZE = 0
  · have hsub : touched off len ⊆ Finset.Ico (off / BSIZE) (off / BSIZE + 3) := fun bn hbn => by
      rw [mem_touched, Fs.Touch] at hbn
      simp only [mem_Ico, BSIZE] at hbn hlen ha ⊢
      omega
    have h1 := card_le_card hsub
    have h2 := card_le_card ((filter_subset (off ≤ · * BSIZE) _).trans hsub)
    rw [Nat.card_Ico] at h1 h2
    omega
  · have hsub : touched off len ⊆ Finset.Ico (off / BSIZE) (off / BSIZE + 4) := fun bn hbn => by
      rw [mem_touched, Fs.Touch] at hbn
      simp only [mem_Ico, BSIZE] at hbn hlen ⊢
      omega
    have hsub' : (touched off len).filter (off ≤ · * BSIZE) ⊆ Finset.Ico (off / BSIZE + 1) (off / BSIZE + 4) :=
      fun bn hbn => by
        rw [mem_filter, mem_touched, Fs.Touch] at hbn
        simp only [mem_Ico, BSIZE] at hbn hlen ha ⊢
        omega
    have h1 := card_le_card hsub
    have h2 := card_le_card hsub'
    rw [Nat.card_Ico] at h1 h2
    omega

theorem card_needed (h : ∀ bn, bn * BSIZE < off → dataRef fs n bn ≠ 0) (hlen : len ≤ 3 * BSIZE) :
    (range off len).card + (missing fs n (range off len)).card + 1 ≤ MAXOPBLOCKS := by
  have h1 := card_range off len
  have h2 : (missing fs n (range off len)).card ≤ ((touched off len).filter (off ≤ · * BSIZE)).card + 1 :=
    card_missing_range h
  have h3 : (touched off len).card + ((touched off len).filter (off ≤ · * BSIZE)).card ≤ 7 := card_touched hlen
  have hM : MAXOPBLOCKS = 10 := rfl
  omega

/-! ## One pass -/

/-- A pass of `filewrite` at any offset within the file stays within the blocks that it has reserved: the log refuses none,
also if the disk becomes full on the way. -/
theorem pass_fits (h : Opened n f fs) (hblocks : ∀ bn, bn * BSIZE < (view fs n).size.toNat → dataRef fs n bn ≠ 0)
    (hoff : f.off.toNat ≤ (view fs n).size.toNat) (hlog : fs.disk.log = ∅) (hi : c.i < c.n) :
    Ends (· = .fs .outOfBlocks) (fun r => r.2.2.disk.log.card ≤ MAXOPBLOCKS) (pass budget fs f c) := by
  have hcard : (range f.off.toNat c.n1.toNat).card + (missing fs n (range f.off.toNat c.n1.toNat)).card + 1 ≤
      MAXOPBLOCKS := by
    refine card_needed (fun bn hbn => hblocks bn (lt_of_lt_of_le hbn hoff)) ?_
    have hle := (n1_pos hi).2
    have hmax : max = 3 * BSIZE := rfl
    omega
  refine (h.pass_fills hi).mono (fun e ⟨p, hp, he, _⟩ => ?_) fun r hr => ?_
  · rcases hp with ⟨_, hp⟩ | ⟨rfl, _⟩
    · exact absurd hp (not_refused hlog hcard)
    · exact he
  · rcases hr with ⟨_, hf⟩ | ⟨_, _, hf⟩
    · exact Fills.card_log hf hlog (by simp [missing, MAXOPBLOCKS])
    · exact Fills.card_log hf hlog hcard

/-- The first pass of a write at the end of a file of five bytes. -/
theorem pass_fits_five_bytes : ∃ (fs : Fs.State (Finset Nat)) (r : Int × File × Fs.State (Finset Nat)),
    pass budget fs ⟨true, entry0, 5⟩ ⟨fun _ => 1, 4000, 0, []⟩ = .ok r ∧ r.2.2.disk.log.card ≤ MAXOPBLOCKS := by
  obtain ⟨fs, hs, hl, ht, hsize, href, hlog, hok⟩ := Reach.of_runs fiveBytes
    (fun fs => Fs.Live fs entry0 inode2 ∧ (view fs inode2).type = T_FILE ∧ (view fs inode2).size = 5 ∧
      dataRef fs inode2 0 ≠ 0 ∧ fs.disk.log = ∅ ∧ (pass budget fs ⟨true, entry0, 5⟩ ⟨fun _ => 1, 4000, 0, []⟩).isOk)
    (show Fs.Runs (fun l _ => some l) (iinit emptyImage (fun _ => ⟨none, none⟩) ∅) from
      .init ⟨[], emptyImage, _, _, by decide, mkfs_nil, rfl⟩) (by decide +kernel)
  have hfits := pass_fits (f := ⟨true, entry0, 5⟩) (c := ⟨fun _ => 1, 4000, 0, []⟩)
    ⟨Fs.Runs.inv hs, hl.ref, hl.inum, ht⟩ (fun bn hbn => by
      rw [hsize] at hbn
      obtain rfl : bn = 0 := by
        change bn * 512 < 5 at hbn
        omega
      exact href) (by rw [hsize]) hlog (by decide)
  obtain ⟨r, hr, hcard⟩ := hfits.returns fun e _ => ne_error_of_isOk hok
  exact ⟨fs, r, hr, hcard⟩

end Xv6.Filewrite
