import Xv6.Fs.Lemmas.Image
import Xv6.Fs.Lemmas.ReadWrite
import Xv6.Fs.Lemmas.Trunc

/-! # Runs of the inode layer -/

namespace Xv6.Fs

open Xv6.Lib

variable {L : Type} {lw : LogWrite L} {s s' : State L} {i j : Fin NINODE} {n m : Inum}

theorem inv_iinit {blk : Nat → Block} (h : Mkfs.Formatted blk) (devsw : Nat → Devsw) (log : L) : Inv (iinit blk devsw log) := by
  have hno : ∀ i n, ¬ Live (iinit blk devsw log) i n := fun i n hl => lt_irrefl _ hl.ref
  have hview : view (iinit blk devsw log) =
      fun n : Inum => readDinode (blk (iblock Mkfs.sb n)) (n % IPB) := by
    funext n
    rw [view_of_not_live fun i => hno i n, Disk.dinode, ← h.super]
    rfl
  refine ⟨⟨h.super, h.super, fun i hi => absurd hi (lt_irrefl 0), fun i _ hi => absurd hi (lt_irrefl 0), ?_⟩,
    fun i n hl => absurd hl (hno i n)⟩
  rw [State.ref, hview]
  exact h.owns

/-! ## Each call -/

abbrev NotFreeing (p : Panic) : Prop := p ≠ .freeingFree

theorem LogFull.notFreeing {p : Panic} (h : LogFull lw p) : NotFreeing p := by
  rw [h.1]; decide

theorem NoSpace.notFreeing {p : Panic} (h : NoSpace lw p) : NotFreeing p := by
  rcases h with h | rfl
  · exact h.notFreeing
  · decide

section

variable (h : Inv s) (hl : Live s i n)
include h hl

theorem Inv.bmap (bn : Nat) : Ends NotFreeing (fun r => Inv r.2 ∧ Live r.2 i n) (bmap lw s i bn) := by
  by_cases hb : bn < MAXFILE
  · exact (ends_bmap h hl hb).mono (fun _ => NoSpace.notFreeing) fun r hr => ⟨hr.inv, hr.live⟩
  · have hm : MAXFILE = NDIRECT + NINDIRECT := rfl
    unfold Fs.bmap
    rw [dif_neg (by omega), if_neg (by omega)]
    exact Panic.noConfusion

theorem Inv.readLoop {fuel off len : Nat} : Ends NotFreeing (fun r => Inv r.2) (readLoop lw i fuel s off len) := by
  induction fuel generalizing s off len with
  | zero => exact h
  | succ fuel ih =>
    rw [Fs.readLoop]
    split
    · exact h
    · refine (h.bmap hl _).bind fun r hr => ?_
      exact (ih hr.1 hr.2).bind fun r' hr' => hr'

theorem Inv.readi (off len : BitVec 32) : Ends NotFreeing (fun r => Inv r.2.2) (readi lw s i off len) := by
  simp only [Fs.readi]
  split
  · split
    · exact h
    · split
      · exact h
      · exact h
  · split
    · exact h
    · exact (h.readLoop hl).bind fun r hr => hr

theorem Inv.writei (src : Nat → BitVec 8) (off len : BitVec 32) : Ends NotFreeing (fun r => Inv r.2) (writei lw s i src off len) := by
  simp only [Fs.writei]
  split
  · split
    · exact h
    · split
      · exact h
      · exact h
  · split
    · exact h
    · rename_i hin
      split
      · exact h
      · rename_i hmax
        have hsum : (off + len).toNat = off.toNat + len.toNat := by
          have := (add_lt_iff off len).not.mp fun hw => hin (.inr hw)
          rw [BitVec.toNat_add]; exact Nat.mod_eq_of_lt (by omega)
        rw [gt_iff_lt, BitVec.lt_def, hsum, toNat_maxBytes] at hmax
        refine ((ends_writeLoop h hl le_rfl (by omega)).mono (fun _ => NoSpace.notFreeing) fun _ => id).bind
          fun s1 hw => ?_
        split
        · exact Ends.bind ((hw.inv.resize hw.live _).mono (fun _ => LogFull.notFreeing) fun _ => id) fun s2 h2 => h2.inv
        · exact hw.inv

theorem Inv.update (major minor nlink : BitVec 16) :
    Ends NotFreeing Inv
      (iupdate lw (s.setInode i { s.inode i with d := { (s.inode i).d with major, minor, nlink } }) i) := by
  have hsave : Ends (LogFull lw) (Saves s i n { (s.inode i).d with major, minor, nlink })
    (iupdate lw (s.setInode i { s.inode i with d := { (s.inode i).d with major, minor, nlink } }) i) := h.save hl rfl
  exact hsave.mono (fun _ => LogFull.notFreeing) fun s' hs => hs.inv

end

theorem Inv.live (h : Inv s) (hr : 0 < (s.inode i).ref) (hv : (s.inode i).valid = true) :
    Live s i ⟨(s.inode i).inum, h.inum i hr⟩ := ⟨hr, hv, rfl⟩

theorem Inv.exec (h : Inv s) {c : Call} (hc : c.Allowed s) : Ends NotFreeing Inv (exec lw s c) := by
  cases c with
  | iget inum =>
    have hlt : inum < Mkfs.NINODES := by
      have : inum < s.disk.sb.ninodes := hc
      rw [h.sb] at this; exact this
    refine Ends.bind ((h.iget ⟨inum, hlt⟩).mono (fun e he => ?_) fun _ => id) fun r hr => hr.1.1
    subst he; decide
  | idup i => exact (h.touch hc { s.inode i with ref := (s.inode i).ref + 1 } rfl id rfl).1
  | ialloc type =>
    refine Ends.bind ((h.ialloc type).mono (fun e he => ?_) fun _ => id) fun r hr => hr.1.1
    rcases he with he | rfl | rfl
    · exact he.notFreeing
    · decide
    · decide
  | ilock i =>
    refine (h.ilock hc).mono (fun e he => ?_) fun s' hs => hs.1
    subst he; decide
  | update i major minor nlink => exact h.update (h.live hc.1 hc.2) _ _ _
  | bmap i bn => exact (h.bmap (h.live hc.1 hc.2) bn).bind fun r hr => hr.1
  | readi i off n => exact (h.readi (h.live hc.1 hc.2) off n).bind fun r hr => hr
  | writei i src off n => exact (h.writei (h.live hc.1 hc.2) src off n).bind fun r hr => hr
  | itrunc i => exact (h.itrunc (h.live hc.1 hc.2)).mono (fun _ => LogFull.notFreeing) fun s' hs => hs.inv
  | iput i => exact (h.iput hc).mono (fun _ => LogFull.notFreeing) fun s' hs => hs.1

end Xv6.Fs
