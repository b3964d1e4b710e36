import Xv6.Fs.Lemmas.Bmap
import Xv6.Fs.Lemmas.Icache
import Xv6.Lib.Extent

/-!
# The content of a file

A file is the array of its first `size` bytes, a block that is not allocated counting as zeros.
-/

namespace Xv6.Fs

open Xv6.Lib Function

variable {L : Type} {lw : LogWrite L} {s s' : State L} {i j : Fin NINODE} {n m : Inum}
variable {d : Disk L} {b bn k : Nat}

def blockOf {ι : Type} (ref : ι × Idx → Nat) (n : ι) (bn : Nat) : Nat := if h : bn < MAXFILE then ref (n, dataIdx bn h) else 0

def byteOf {ι : Type} (ref : ι × Idx → Nat) (blk : Nat → Block) (n : ι) (k : Nat) : BitVec 8 :=
  if blockOf ref n (k / BSIZE) = 0 then 0 else (blk (blockOf ref n (k / BSIZE))).get (k % BSIZE)

def dataRef (s : State L) (n : Inum) (bn : Nat) : Nat := blockOf s.ref n bn

def byteAt (s : State L) (n : Inum) (k : Nat) : BitVec 8 := byteOf s.ref s.blk n k

def content (s : State L) (n : Inum) : List (BitVec 8) := tabulate (view s n).size.toNat (byteAt s n)

/-- The blocks of `[0, size)` are allocated, and no others. -/
structure Covers (s : State L) (n : Inum) : Prop where
  size : (view s n).size.toNat ≤ MAXFILE * BSIZE
  blocks : ∀ bn, bn < MAXFILE → (dataRef s n bn ≠ 0 ↔ bn * BSIZE < (view s n).size.toNat)

theorem Covers.full (h : Covers s n) (bn : Nat) (hb : bn * BSIZE < (view s n).size.toNat) : dataRef s n bn ≠ 0 :=
  (h.blocks bn (Nat.lt_of_mul_lt_mul_right (lt_of_lt_of_le hb h.size))).mpr hb

/-! ## Positions of data blocks -/

theorem dataIdx_direct (h : bn < MAXFILE) (hd : bn < NDIRECT) :
    dataIdx bn h = .inl ⟨bn, Nat.lt_succ_of_lt hd⟩ := dif_pos hd

theorem dataIdx_indirect (h : bn < MAXFILE) (hd : ¬ bn < NDIRECT) (hlt : bn - NDIRECT < NINDIRECT) :
    dataIdx bn h = .inr ⟨bn - NDIRECT, hlt⟩ := dif_neg hd

theorem dataIdx_ne_indirect (h : bn < MAXFILE) : dataIdx bn h ≠ .inl indirect := by
  unfold dataIdx
  split
  · rename_i hd
    intro he
    have := congrArg Fin.val (Sum.inl.inj he)
    simp only [indirect, Fin.val_last] at this
    omega
  · simp

theorem dataIdx_inj {bm : Nat} (h : bn < MAXFILE) (h' : bm < MAXFILE) (he : dataIdx bn h = dataIdx bm h') : bn = bm := by
  unfold dataIdx at he
  split at he <;> split at he
  · simpa using he
  · cases he
  · cases he
  · have := congrArg Fin.val (Sum.inr.inj he)
    simp only at this
    omega

section

variable {ι : Type} {ref : ι × Idx → Nat} {p q : ι}

theorem blockOf_of_lt (hb : bn < MAXFILE) : blockOf ref p bn = ref (p, dataIdx bn hb) := dif_pos hb

theorem blockOf_pos (h : blockOf ref p bn ≠ 0) : ∃ hb : bn < MAXFILE, blockOf ref p bn = ref (p, dataIdx bn hb) := by
  by_cases hb : bn < MAXFILE
  · exact ⟨hb, blockOf_of_lt hb⟩
  · exact absurd (dif_neg hb) h

theorem blockOf_inj {bm lo hi : Nat} {taken : Nat → Bool} (ho : Owned lo hi taken ref) (h : blockOf ref p bn ≠ 0)
    (he : blockOf ref p bn = blockOf ref q bm) : p = q ∧ bn = bm := by
  obtain ⟨hb, hr⟩ := blockOf_pos h
  obtain ⟨hb', hr'⟩ := blockOf_pos (he ▸ h)
  have := ho.inj (p, dataIdx bn hb) (q, dataIdx bm hb') (hr ▸ h) (by rw [← hr, he, hr'])
  obtain ⟨h1, h2⟩ := Prod.mk.inj this
  exact ⟨h1, dataIdx_inj hb hb' h2⟩

end

theorem dataRef_of_lt (hb : bn < MAXFILE) : dataRef s n bn = s.ref (n, dataIdx bn hb) := blockOf_of_lt hb

theorem dataRef_pos (h : dataRef s n bn ≠ 0) : ∃ hb : bn < MAXFILE, dataRef s n bn = s.ref (n, dataIdx bn hb) := blockOf_pos h

theorem dataRef_inj {bm : Nat} (hc : Core s) (h : dataRef s n bn ≠ 0) (he : dataRef s n bn = dataRef s m bm) : n = m ∧ bn = bm :=
  blockOf_inj hc.owns h he

theorem byteAt_eq (s : State L) (n : Inum) (k : Nat) : byteAt s n k =
    if dataRef s n (k / BSIZE) = 0 then 0 else (s.blk (dataRef s n (k / BSIZE))).get (k % BSIZE) := rfl

/-! ## `bmap` -/

theorem Grows.dataRef_keep {p : Pos} (h : Grows s i n p b s') (hr : dataRef s m bn ≠ 0) : dataRef s' m bn = dataRef s m bn := by
  obtain ⟨hb, he⟩ := dataRef_pos hr
  rw [he] at hr ⊢
  rw [dataRef_of_lt hb, h.keep _ hr]

theorem Grows.byteAt (hb : bn < MAXFILE) (h : Grows s i n (n, dataIdx bn hb) b s') (m : Inum) (k : Nat) :
    byteAt s' m k = Fs.byteAt s m k := by
  rw [byteAt_eq, byteAt_eq]
  by_cases hz : dataRef s m (k / BSIZE) = 0
  · rw [if_pos hz]
    split
    · rfl
    · rename_i hn
      -- a block that is there now and was not there before is the new one
      obtain ⟨hk, he⟩ := dataRef_pos hn
      have hz' : s.ref (m, dataIdx _ hk) = 0 := by rw [← hz, dataRef_of_lt hk]
      rcases h.only _ (he ▸ hn) with h1 | h1 | h1
      · exact absurd hz' h1
      · rw [he, h1, h.ref, h.new (by rw [← h1]; exact hz'), Bytes.get_fill_zero]; rfl
      · exact absurd (Prod.mk.inj h1).2 (dataIdx_ne_indirect hk)
  · obtain ⟨hk, he⟩ := dataRef_pos hz
    rw [h.dataRef_keep hz, if_neg hz, if_neg hz, he]
    exact congrArg (fun v => Bytes.get v _) (h.data _ (dataIdx_ne_indirect hk) (he ▸ hz))

theorem Grows.dataRef_iff (hb : bn < MAXFILE) (h : Grows s i n (n, dataIdx bn hb) b s') (k : Nat) :
    dataRef s' n k ≠ 0 ↔ dataRef s n k ≠ 0 ∨ k = bn := by
  constructor
  · intro hk
    obtain ⟨hk', he⟩ := dataRef_pos hk
    rcases h.only _ (he ▸ hk) with h1 | h1 | h1
    · left; rw [dataRef_of_lt hk']; exact h1
    · exact .inr (dataIdx_inj hk' hb (Prod.mk.inj h1).2)
    · exact absurd (Prod.mk.inj h1).2 (dataIdx_ne_indirect hk')
  · rintro (hk | rfl)
    · rw [h.dataRef_keep hk]; exact hk
    · rw [dataRef_of_lt hb, h.ref]; exact h.pos

/-- `bmap` only looks up a block that is there. -/
theorem Core.bmap_eq (h : Core s) (hl : Live s i n) (hr : dataRef s n bn ≠ 0) : bmap lw s i bn = .ok (dataRef s n bn, s) := by
  obtain ⟨hb, he⟩ := dataRef_pos hr
  rw [he] at hr ⊢
  have hvl := h.view_live hl
  unfold bmap
  by_cases hd : bn < NDIRECT
  · rw [dataIdx_direct hb hd, State.ref, refOf_inl, hvl] at hr ⊢
    rw [dif_pos hd, bmapAddr, if_neg fun hz => hr (toNat_eq_zero.mpr hz)]
  · have hlt : bn - NDIRECT < NINDIRECT := by have : MAXFILE = NDIRECT + NINDIRECT := rfl; omega
    have hz : (view s n).addrs indirect ≠ 0 := fun hz => hr (by
      rw [dataIdx_indirect hb hd hlt, State.ref, refOf_inr_zero hz])
    rw [dataIdx_indirect hb hd hlt, State.ref, refOf_inr hz, hvl] at hr ⊢
    rw [hvl] at hz
    rw [dif_neg hd, if_pos hlt, bmapAddr, if_neg hz]
    exact if_neg fun hw => hr (toNat_eq_zero.mpr hw)

/-! ## Storing a data block -/

theorem Core.sameRefs_data (h : Core s) (hr : dataRef s n bn ≠ 0) {v : Block} (hsb : d.sb = s.disk.sb)
    (hblk : d.blk = update s.blk (dataRef s n bn) v) : SameRefs s d := by
  obtain ⟨hb, he⟩ := dataRef_pos hr
  refine h.sameRefs hsb (h.owns.range _ (he ▸ hr)).1 (fun m hm hc => ?_) fun x hx _ => ?_
  · have := h.owns.inj (m, .inl indirect) (n, dataIdx bn hb) (mt toNat_eq_zero.mp hm) hc
    exact dataIdx_ne_indirect hb (Prod.mk.inj this).2.symm
  · rw [hblk, he, update_of_ne hx]

theorem used_data (h : Core s) (hr : dataRef s n bn ≠ 0) {v : Block} {x : Nat} (hx : x < FSSIZE) :
    used (update s.blk (dataRef s n bn) v) x = used s.blk x := by
  obtain ⟨hb, he⟩ := dataRef_pos hr
  have hge := (h.owns.range _ (he ▸ hr)).1
  have hin := (bblock_inMap hx).2
  rw [used, update_of_ne (by omega), used]

theorem SameRefs.byteAt (hs : SameRefs s d) (h : Core s) (hr : dataRef s n bn ≠ 0) {v : Block}
    (hblk : d.blk = update s.blk (dataRef s n bn) v) (m : Inum) (k : Nat) :
    byteAt { s with disk := d } m k = if m = n ∧ k / BSIZE = bn then v.get (k % BSIZE) else Fs.byteAt s m k := by
  have hdr : ∀ m k, dataRef { s with disk := d } m k = dataRef s m k := fun m k => by
    simp [dataRef, hs.ref]
  simp only [byteAt_eq, hdr, State.blk, hblk]
  by_cases hm : m = n ∧ k / BSIZE = bn
  · obtain ⟨rfl, rfl⟩ := hm
    rw [if_neg hr, if_pos ⟨rfl, rfl⟩, update_self]
  · rw [if_neg hm]
    by_cases hz : dataRef s m (k / BSIZE) = 0
    · rw [if_pos hz, if_pos hz]
    · rw [if_neg hz, if_neg hz, update_of_ne fun he => hm (dataRef_inj h hz he)]

end Xv6.Fs
