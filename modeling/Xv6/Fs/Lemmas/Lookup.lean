import Xv6.Dir.Lemmas.Dirent
import Xv6.Fs.Dirlookup
import Xv6.Fs.Lemmas.ReadWrite

/-! # `dirlookup` over the bytes of a directory -/

namespace Xv6.Fs

open Xv6.Lib
open Xv6.Dir (Dirent Str namecmp)

variable {L : Type} {lw : LogWrite L} {s s' : State L} {i j : Fin NINODE} {n m : Inum}
variable {z off : Nat} {f : Nat → BitVec 8} {name : Str}

/-- A locked directory of `z` bytes `f`. All of its blocks are there, or there is room for the last one. -/
structure Listing (s : State L) (i : Fin NINODE) (n : Inum) (z : Nat) (f : Nat → BitVec 8) : Prop where
  inv : Inv s
  live : Live s i n
  type : (s.inode i).d.type = T_DIR
  size : (s.inode i).d.size.toNat = z
  small : z ≤ NDIRECT * BSIZE
  byte : ∀ q, byteAt s n q = f q
  blocks : ∀ bn, (bn + 1) * BSIZE < z → dataRef s n bn ≠ 0
  last : (∀ bn, bn * BSIZE < z → dataRef s n bn ≠ 0) ∨ ∃ b, b < FSSIZE ∧ used s.blk b = false

def slot (f : Nat → BitVec 8) (off : Nat) : Dirent := Dirent.ofBytes (tabulate 16 fun j => f (off + j))

def Hit (name : Str) (de : Dirent) : Prop := de.inum ≠ 0 ∧ namecmp name de.name = 0

/-! ## One entry -/

theorem readLoop_pass {fuel len : Nat} (hlen : 0 < len) (hfit : off % BSIZE + len ≤ BSIZE) :
    readLoop lw i (fuel + 1) s off len = (do
      let (b, s) ← bmap lw s i (off / BSIZE)
      return (tabulate len fun j => (s.blk b).get (off % BSIZE + j), s)) := by
  rw [readLoop, if_neg (by omega), Nat.min_eq_left (by omega)]
  simp only [Nat.sub_self]
  cases hb : bmap lw s i (off / BSIZE) with
  | error e => rfl
  | ok r =>
    have hdone : readLoop lw i fuel r.2 (off + len) 0 = .ok ([], r.2) := by
      cases fuel with
      | zero => rfl
      | succ fuel => rfl
    simp only [bind, Except.bind, pure, Except.pure, hdone, List.append_nil]
    rfl

theorem before_last {b bn : Nat} (hb : b * BSIZE < z) (hlast : ¬ (b + 1) * BSIZE < z) (hbn : bn * BSIZE < z) (hne : bn ≠ b) :
    (bn + 1) * BSIZE < z := by
  have hle : bn ≤ b := by
    by_contra hc
    exact hlast (Nat.lt_of_le_of_lt (Nat.mul_le_mul_right _ (by omega)) hbn)
  exact Nat.lt_of_le_of_lt (Nat.mul_le_mul_right _ (by omega)) hb

section

variable (h : Listing s i n z f)
include h

theorem Listing.bmap (hoff : off < z) :
    Ends (LogFull lw) (fun r => Listing r.2 i n z f ∧ dataRef r.2 n (off / BSIZE) = r.1 ∧ r.1 ≠ 0) (bmap lw s i (off / BSIZE)) := by
  have hsmall := h.small
  have hd : off / BSIZE < NDIRECT := Nat.div_lt_of_lt_mul (by rw [Nat.mul_comm]; omega)
  have hb : off / BSIZE < MAXFILE := Nat.lt_of_lt_of_le hd (by decide)
  by_cases hr : dataRef s n (off / BSIZE) = 0
  · have hlast : ¬ (off / BSIZE + 1) * BSIZE < z := fun hc => h.blocks _ hc hr
    have hin : off / BSIZE * BSIZE < z := Nat.lt_of_le_of_lt (Nat.div_mul_le_self ..) hoff
    obtain ⟨b, hbf, hbu⟩ := h.last.resolve_left fun hall => hall _ hin hr
    have hspace : Fs.bmap lw s i (off / BSIZE) ≠ .error .outOfBlocks := by
      have hz : (s.inode i).d.addrs ⟨off / BSIZE, Nat.lt_succ_of_lt hd⟩ = 0 := by
        rw [dataRef_of_lt hb, dataIdx_direct hb hd, State.ref, refOf_inl, h.inv.view_live h.live] at hr
        exact toNat_eq_zero.mp hr
      have hne : balloc lw s.disk ≠ .error .outOfBlocks := balloc_ne_outOfBlocks h.inv.sb hbf hbu
      unfold Fs.bmap
      rw [dif_pos hd, bmapAddr, if_pos hz]
      intro he
      cases hc : balloc lw s.disk with
      | ok r => rw [hc] at he; cases he
      | error e =>
        rw [hc] at he
        simp only [bind, Except.bind, Except.error.injEq] at he
        exact hne (by rw [hc, he])
    refine ((ends_bmap h.inv h.live hb).exclude hspace).imp fun r hg => ?_
    have hent := hg.entry
    refine ⟨⟨hg.inv, hg.live, by rw [hent]; exact h.type, by rw [hent]; exact h.size, h.small, fun q => ?_, fun bn hbn => ?_,
      .inl fun bn hbn => ?_⟩, ?_, hg.pos⟩
    · rw [hg.byteAt hb, h.byte]
    · exact (hg.dataRef_iff hb bn).mpr (.inl (h.blocks bn hbn))
    · refine (hg.dataRef_iff hb bn).mpr ?_
      by_cases hbn' : bn = off / BSIZE
      · exact .inr hbn'
      · exact .inl (h.blocks bn (before_last hin hlast hbn hbn'))
    · rw [dataRef_of_lt hb, hg.ref]
  · rw [h.inv.bmap_eq h.live hr]
    exact ⟨h, rfl, hr⟩

theorem toNat_off (hoff : off ≤ z) : (BitVec.ofNat 32 off).toNat = off := by
  have hsmall := h.small
  have : NDIRECT * BSIZE < 2 ^ 32 := by decide
  rw [BitVec.toNat_ofNat]
  omega

theorem readi_entry (hz : z % 16 = 0) (hoff : off < z) (ho : off % 16 = 0) :
    readi lw s i (.ofNat 32 off) 16 = (do
      let (b, s) ← bmap lw s i (off / BSIZE)
      return (16, tabulate 16 fun j => (s.blk b).get (off % BSIZE + j), s)) := by
  have ht : (s.inode i).d.type ≠ T_DEV := by rw [h.type]; decide
  have hend : off + 16 ≤ z := by omega
  have hsum : (BitVec.ofNat 32 off + 16).toNat = off + 16 := by
    rw [show (16 : BitVec 32) = .ofNat 32 16 from rfl, ← BitVec.ofNat_add]
    exact toNat_off h hend
  have hsize := h.size
  have hoff' := toNat_off h hoff.le
  have hin : ¬ (BitVec.ofNat 32 off > (s.inode i).d.size ∨ BitVec.ofNat 32 off + 16 < BitVec.ofNat 32 off) := by
    rw [gt_iff_lt, BitVec.lt_def, BitVec.lt_def, hsum]
    omega
  have hn : ¬ BitVec.ofNat 32 off + 16 > (s.inode i).d.size := by
    rw [gt_iff_lt, BitVec.lt_def, hsum]
    omega
  simp only [readi]
  rw [if_neg ht, if_neg hin, if_neg hn, hoff']
  have hpass : readLoop lw i (15 + 1) s off 16 = _ := readLoop_pass (by decide) (by simp only [BSIZE]; omega)
  rw [show (16 : BitVec 32).toNat = 15 + 1 from rfl, hpass]
  cases bmap lw s i (off / BSIZE) with
  | error e => rfl
  | ok r => rfl

theorem Listing.bytes (hb : dataRef s n (off / BSIZE) ≠ 0) (ho : off % 16 = 0) :
    (tabulate 16 fun j => (s.blk (dataRef s n (off / BSIZE))).get (off % BSIZE + j)) = tabulate 16 fun j => f (off + j) := by
  refine tabulate_congr fun j hj => ?_
  have hdiv : (off + j) / BSIZE = off / BSIZE := by simp only [BSIZE]; omega
  have hmod : (off + j) % BSIZE = off % BSIZE + j := by simp only [BSIZE]; omega
  rw [← h.byte, byteAt_eq, hdiv, hmod, if_neg hb]

theorem ends_readi_entry (hz : z % 16 = 0) (hoff : off < z) (ho : off % 16 = 0) :
    Ends (LogFull lw) (fun r => r.1 = 16 ∧ r.2.1 = (tabulate 16 fun j => f (off + j)) ∧ Listing r.2.2 i n z f)
      (readi lw s i (.ofNat 32 off) 16) := by
  rw [readi_entry h hz hoff ho]
  refine (h.bmap hoff).bind fun ⟨b, s'⟩ ⟨h', hr, hb⟩ => ⟨rfl, ?_, h'⟩
  dsimp only at h' hr hb ⊢
  rw [← hr] at hb ⊢
  exact h'.bytes hb ho

theorem readi_entry_eq (hz : z % 16 = 0) (hoff : off < z) (ho : off % 16 = 0) (hb : dataRef s n (off / BSIZE) ≠ 0) :
    readi lw s i (.ofNat 32 off) 16 = .ok (16, tabulate 16 fun j => f (off + j), s) := by
  rw [readi_entry h hz hoff ho, h.inv.bmap_eq h.live hb, ← h.bytes hb ho]
  rfl

end

/-! ## The loop -/

theorem off_add (k : Nat) : BitVec.ofNat 32 (16 * k) + 16 = BitVec.ofNat 32 (16 * (k + 1)) := by
  rw [Nat.mul_succ, BitVec.ofNat_add]
  rfl

theorem Listing.lt_size (h : Listing s i n z f) {k : Nat} (hk : 16 * k ≤ z) :
    BitVec.ofNat 32 (16 * k) < (s.inode i).d.size ↔ 16 * k < z := by
  rw [BitVec.lt_def, toNat_off h hk, h.size]

/-- No entry from the `k`-th on has the name. -/
theorem ends_dirlookupLoop {fuel k : Nat} (h : Listing s i n z f) (hz : z % 16 = 0) (hk : 16 * k ≤ z)
    (hmiss : ∀ j, k ≤ j → 16 * j < z → ¬ Hit name (slot f (16 * j))) :
    Ends (fun e => ∃ p, e = .inode p ∧ LogFull lw p) (fun r => r.1 = none)
      (dirlookupLoop lw i name fuel s (.ofNat 32 (16 * k))) := by
  induction fuel generalizing s k with
  | zero => rfl
  | succ fuel ih =>
    rw [dirlookupLoop]
    by_cases hlt : 16 * k < z
    · rw [if_pos ((h.lt_size hk).mpr hlt)]
      refine ((ends_readi_entry h hz hlt (Nat.mul_mod_right ..)).mapError fun p hp => ⟨p, rfl, hp⟩).bind
        fun ⟨r, bytes, s1⟩ ⟨hr, hbytes, h1⟩ => ?_
      dsimp only at hr hbytes h1 ⊢
      rw [if_neg (fun hne => hne hr), hbytes, off_add, show Dirent.ofBytes _ = slot f (16 * k) from rfl]
      have hno := hmiss k (Nat.le_refl _) hlt
      have hrest := ih h1 (k := k + 1) (by omega) fun j hj => hmiss j (by omega)
      split
      · exact hrest
      · rename_i hinum
        rw [if_neg fun hname => hno ⟨hinum, hname⟩]
        exact hrest
    · rw [if_neg (mt (h.lt_size hk).mp hlt)]
      rfl

/-- The `k`-th entry is the first one with the name. -/
theorem dirlookupLoop_eq {fuel j k : Nat} (h : Listing s i n z f) (hz : z % 16 = 0) (hjk : j ≤ k) (hk : 16 * k < z)
    (hfuel : k < j + fuel) (hblk : ∀ l, l ≤ k → dataRef s n (16 * l / BSIZE) ≠ 0)
    (hmiss : ∀ l, j ≤ l → l < k → ¬ Hit name (slot f (16 * l))) (hhit : Hit name (slot f (16 * k))) :
    dirlookupLoop lw i name fuel s (.ofNat 32 (16 * j)) = (do
      let (ip, s) ← (iget s (slot f (16 * k)).inum.toNat).mapError .inode
      return (some (.ofNat 32 (16 * k), ip), s)) := by
  induction fuel generalizing j with
  | zero => omega
  | succ fuel ih =>
    have hread : readi lw s i (.ofNat 32 (16 * j)) 16 = _ :=
      readi_entry_eq h hz (by omega) (Nat.mul_mod_right ..) (hblk j hjk)
    rw [dirlookupLoop, if_pos ((h.lt_size (by omega)).mpr (by omega)), hread]
    simp only [Except.mapError, bind, Except.bind]
    rw [if_neg (by decide), off_add, show Dirent.ofBytes _ = slot f (16 * j) from rfl]
    by_cases he : j = k
    · subst he
      rw [if_neg hhit.1, if_pos hhit.2]
    · have hno := hmiss j (Nat.le_refl _) (by omega)
      have hrest := ih (j := j + 1) (by omega) (by omega) fun l hl => hmiss l (by omega)
      split
      · exact hrest
      · rename_i hinum
        rw [if_neg fun hname => hno ⟨hinum, hname⟩]
        exact hrest

end Xv6.Fs
