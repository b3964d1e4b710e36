import Xv6.Fs.Lemmas.Content

/-! # `readi` and `writei` -/

namespace Xv6.Fs

open Xv6.Lib Function

variable {L : Type} {lw : LogWrite L} {s s1 s' : State L} {i j : Fin NINODE} {n m : Inum}
variable {src : Nat → BitVec 8} {off len a c : Nat} {k fuel : Nat} {di : Dinode}

/-! ## Bytes and blocks -/

theorem pass_bytes (hfit : off % BSIZE + len ≤ BSIZE) :
    (k / BSIZE = off / BSIZE ∧ off % BSIZE ≤ k % BSIZE ∧ k % BSIZE < off % BSIZE + len) ↔
      off ≤ k ∧ k < off + len := by
  simp only [BSIZE] at hfit ⊢; omega

theorem pass_sub (hk : k / BSIZE = off / BSIZE) : k % BSIZE - off % BSIZE = k - off := by
  simp only [BSIZE] at hk ⊢; omega

theorem pass_block (hlen : 0 < len) (hfit : off % BSIZE + len ≤ BSIZE) :
    k = off / BSIZE ↔ 0 < len ∧ k * BSIZE < off + len ∧ off < (k + 1) * BSIZE := by
  simp only [BSIZE] at hfit ⊢; omega

theorem pass_lt (hlen : 0 < len) (hmax : off + len ≤ MAXFILE * BSIZE) : off / BSIZE < MAXFILE :=
  Nat.div_lt_of_lt_mul (by rw [mul_comm]; omega)

theorem mod_lt_BSIZE (k : Nat) : k % BSIZE < BSIZE := Nat.mod_lt _ (by decide)

/-! ## The loop of `writei` -/

/-- `len` bytes of `src` have been stored in inode `n` at `off`. The size of the inode and the inode on disk follow
after the loop. -/
structure Writes (s : State L) (i : Fin NINODE) (n : Inum) (src : Nat → BitVec 8) (off len : Nat)
    (s' : State L) : Prop where
  inv : Inv s'
  live : Live s' i n
  byte : ∀ m k, byteAt s' m k = if m = n ∧ off ≤ k ∧ k < off + len then src (k - off) else byteAt s m k
  alloc : ∀ k, dataRef s' n k ≠ 0 ↔ dataRef s n k ≠ 0 ∨ (0 < len ∧ k * BSIZE < off + len ∧ off < (k + 1) * BSIZE)
  keep : ∀ q, s.ref q ≠ 0 → s'.ref q = s.ref q
  entry : s'.inode i = { s.inode i with d := { (s.inode i).d with addrs := (s'.inode i).d.addrs } }
  other : ∀ j, j ≠ i → s'.inode j = s.inode j
  dinode : ∀ m : Inum, s'.disk.dinode m = s.disk.dinode m

theorem Writes.refl (h : Inv s) (hl : Live s i n) : Writes s i n src off 0 s := by
  refine ⟨h, hl, fun m k => ?_, fun k => ?_, fun _ _ => rfl, rfl, fun _ _ => rfl, fun _ => rfl⟩
  · rw [if_neg (by omega)]
  · simp

theorem Writes.trans (h1 : Writes s i n src off a s1) (h2 : Writes s1 i n (fun j => src (a + j)) (off + a) c s') :
    Writes s i n src off (a + c) s' := by
  refine ⟨h2.inv, h2.live, fun m k => ?_, fun k => ?_, fun q hq => ?_, ?_, fun j hj => ?_, fun m => ?_⟩
  · rw [h2.byte, h1.byte]
    by_cases hm : m = n
    · by_cases hk : off ≤ k ∧ k < off + a
      · rw [if_neg (by omega), if_pos ⟨hm, hk⟩, if_pos ⟨hm, by omega⟩]
      · by_cases hk' : off + a ≤ k ∧ k < off + a + c
        · rw [if_pos ⟨hm, hk'⟩, if_pos ⟨hm, by omega⟩]
          congr 1
          omega
        · rw [if_neg (by omega), if_neg (by omega), if_neg (by omega)]
    · rw [if_neg fun h => hm h.1, if_neg fun h => hm h.1, if_neg fun h => hm h.1]
  · rw [h2.alloc, h1.alloc, or_assoc]
    refine or_congr_right ?_
    simp only [BSIZE]
    omega
  · have := h1.keep q hq
    rw [h2.keep q (this ▸ hq), this]
  · rw [h2.entry, h1.entry]
  · rw [h2.other j hj, h1.other j hj]
  · rw [h2.dinode m, h1.dinode m]

theorem Grows.writes {d : Disk L} {b : Nat} (hb : off / BSIZE < MAXFILE) (h : Grows s i n (n, dataIdx (off / BSIZE) hb) b s1)
    (hlen : 0 < len) (hfit : off % BSIZE + len ≤ BSIZE) (hsb : d.sb = s1.disk.sb)
    (hblk : d.blk = update s1.blk b ((s1.blk b).write (off % BSIZE) len src)) : Writes s i n src off len { s1 with disk := d } := by
  have href : dataRef s1 n (off / BSIZE) = b := by rw [dataRef_of_lt hb]; exact h.ref
  have hr : dataRef s1 n (off / BSIZE) ≠ 0 := by rw [href]; exact h.pos
  rw [← href] at hblk
  have hsame := h.inv.sameRefs_data hr hsb hblk
  refine ⟨hsame.inv h.inv fun x hx hu => ?_, live_disk.mpr h.live, fun m k => ?_, fun k => ?_, fun q hq => ?_, h.entry,
    h.other, fun m => (hsame.dinode m).trans (h.dinode m)⟩
  · rw [hblk, used_data h.inv.toCore hr hx]; exact hu
  · rw [hsame.byteAt h.inv.toCore hr hblk, Bytes.get_write _ _ _ _ (mod_lt_BSIZE k), ← h.byteAt hb m k]
    by_cases hm : m = n ∧ k / BSIZE = off / BSIZE
    · obtain ⟨rfl, hk⟩ := hm
      have hiff := pass_bytes (k := k) hfit
      simp only [hk, true_and] at hiff
      rw [if_pos ⟨rfl, hk⟩, pass_sub hk]
      simp only [hiff, true_and]
      split
      · rfl
      · rw [byteAt_eq, hk, if_neg hr]
    · have hn : ¬ (m = n ∧ off ≤ k ∧ k < off + len) := fun hc => hm ⟨hc.1, ((pass_bytes hfit).mpr hc.2).1⟩
      rw [if_neg hm, if_neg hn]
  · have : dataRef { s1 with disk := d } n k = dataRef s1 n k := by simp only [dataRef, hsame.ref]
    rw [this, h.dataRef_iff hb]
    exact or_congr_right (pass_block hlen hfit)
  · rw [hsame.ref]; exact h.keep q hq

theorem ends_writeLoop (h : Inv s) (hl : Live s i n) (hf : len ≤ fuel) (hmax : off + len ≤ MAXFILE * BSIZE) :
    Ends (NoSpace lw) (Writes s i n src off len) (writeLoop lw i fuel s src off len) := by
  induction fuel generalizing s src off len with
  | zero =>
    obtain rfl : len = 0 := by omega
    exact Writes.refl h hl
  | succ fuel ih =>
    rw [writeLoop]
    split
    · rename_i hz
      subst hz
      exact Writes.refl h hl
    · rename_i hz
      have hbn := pass_lt (Nat.pos_of_ne_zero hz) hmax
      have hmod := mod_lt_BSIZE off
      refine (ends_bmap h hl hbn).bind fun ⟨b, s1⟩ h1 => ?_
      refine (ends_logWrite (fun _ => .inl) _ _).bind fun d ⟨hsb, hblk, _⟩ => ?_
      have hw : Writes s i n src off (min len (BSIZE - off % BSIZE)) { s1 with disk := d } :=
        h1.writes hbn (by omega) (by omega) hsb hblk
      refine (ih hw.inv hw.live (by omega) (by omega)).imp fun s' h' => ?_
      have := hw.trans h'
      rwa [Nat.add_sub_cancel' (min_le_left ..)] at this

/-! ## Sizes -/

theorem Writes.live_iff (h : Writes s i n src off len s') : Live s' j m ↔ Live s j m := by
  by_cases hj : j = i
  · subst hj
    exact live_congr h.entry
  · exact live_congr (h.other j hj)

theorem Writes.size (h : Writes s i n src off len s') (hc : Core s) (m : Inum) : (view s' m).size = (view s m).size := by
  by_cases hm : ∃ j, Live s j m
  · obtain ⟨j, hj⟩ := hm
    rw [h.inv.view_live (h.live_iff.mpr hj), hc.view_live hj]
    by_cases hji : j = i
    · subst hji; rw [h.entry]
    · rw [h.other j hji]
  · rw [not_exists] at hm
    rw [view_of_not_live hm, view_of_not_live fun j hj => hm j (h.live_iff.mp hj), h.dinode]

structure Resizes (s : State L) (i : Fin NINODE) (n : Inum) (size : BitVec 32) (s' : State L) : Prop where
  inv : Inv s'
  live : Live s' i n
  byte : byteAt s' = byteAt s
  alloc : dataRef s' = dataRef s
  size : (view s' n).size = size
  type : (view s' n).type = (view s n).type
  other : ∀ m, m ≠ n → (view s' m).size = (view s m).size

theorem byteAt_congr (h : Core s) (ha : (view s' m).addrs = (view s m).addrs)
    (hblk : ∀ x, Mkfs.nmeta ≤ x → s'.blk x = s.blk x) : dataRef s' m = dataRef s m ∧ byteAt s' m = byteAt s m := by
  have href : ∀ x, s'.ref (m, x) = s.ref (m, x) := by
    intro x
    cases x with
    | inl k => simp only [State.ref, refOf, Dinode.ref, ha]
    | inr k =>
      simp only [State.ref, refOf, Dinode.ref, ha]
      split
      · rfl
      · rename_i hz
        rw [hblk _ (h.indirect_ge hz)]
  have hr : dataRef s' m = dataRef s m := by funext k; simp only [dataRef, blockOf, href]
  refine ⟨hr, ?_⟩
  funext k
  rw [byteAt_eq, byteAt_eq, hr]
  split
  · rfl
  · rename_i hz
    obtain ⟨hk, he⟩ := dataRef_pos hz
    rw [hblk _ (he ▸ (h.owns.range _ (he ▸ hz)).1)]

/-- New fields of a live inode, in the cache and on disk. The addresses stay. -/
structure Saves (s : State L) (i : Fin NINODE) (n : Inum) (di : Dinode) (s' : State L) : Prop where
  inv : Inv s'
  view : view s' = update (Fs.view s) n di
  byte : byteAt s' = byteAt s
  alloc : dataRef s' = dataRef s
  inode : s'.inode = update s.inode i { s.inode i with d := di }
  self : s'.disk.dinode n = di
  other : ∀ m : Inum, m ≠ n → s'.disk.dinode m = s.disk.dinode m
  frame : ∀ x, Mkfs.nmeta ≤ x → s'.blk x = s.blk x

theorem Saves.live (h : Saves s i n di s') (hl : Live s i n) : Live s' i n := by
  have he : s'.inode i = { s.inode i with d := di } := by rw [h.inode, update_self]
  exact ⟨by rw [he]; exact hl.ref, by rw [he]; exact hl.valid, by rw [he]; exact hl.inum⟩

theorem Inv.save (h : Inv s) (hl : Live s i n) (ha : di.addrs = (s.inode i).d.addrs) :
    Ends (LogFull lw) (Saves s i n di) (iupdate lw (s.setInode i { s.inode i with d := di }) i) := by
  have hview : Fs.view (s.setInode i { s.inode i with d := di }) = update (Fs.view s) n di :=
    view_setInode_live h.uniq (h.fits hl.ref rfl) hl hl.ref hl.valid hl.inum
  have hinv := (h.touch hl.ref { s.inode i with d := di } rfl id ha).1
  have hlive : Live (s.setInode i { s.inode i with d := di }) i n := Live.setInode hl.ref hl.valid hl.inum
  refine (hinv.iupdate hlive fun j _ => hinv.behind j).imp fun s' ⟨hs, hp⟩ => ?_
  have hframe : ∀ x, Mkfs.nmeta ≤ x → s'.blk x = s.blk x := fun x hx =>
    hp.frame x (by have := iblock_lt_nmeta n; omega)
  have hview' := hs.view.trans hview
  have haddr : ∀ m, (Fs.view s' m).addrs = (Fs.view s m).addrs := by
    intro m
    rw [hview']
    by_cases hm : m = n
    · subst hm; rw [update_self, h.view_live hl, ha]
    · rw [update_of_ne hm]
  refine ⟨hs.inv, hview', funext fun m => (byteAt_congr h.toCore (haddr m) hframe).2,
    funext fun m => (byteAt_congr h.toCore (haddr m) hframe).1, hs.inode, ?_, fun m hm => hp.other m hm, hframe⟩
  rw [hp.self, inode_setInode_self]

theorem Inv.resize (h : Inv s) (hl : Live s i n) (size : BitVec 32) :
    Ends (LogFull lw) (Resizes s i n size)
      (iupdate lw (s.setInode i { s.inode i with d := { (s.inode i).d with size } }) i) := by
  have hsave : Ends (LogFull lw) (Saves s i n { (s.inode i).d with size })
    (iupdate lw (s.setInode i { s.inode i with d := { (s.inode i).d with size } }) i) := h.save hl rfl
  refine hsave.imp fun s' hs => ⟨hs.inv, hs.live hl, hs.byte, hs.alloc, ?_, ?_, fun m hm => ?_⟩
  · rw [hs.view, update_self]
  · rw [hs.view, update_self, h.view_live hl]
  · rw [hs.view, update_of_ne hm]

/-! ## `writei` -/

/-- The array of inode `n` has been written at `off`; it may have become longer. -/
structure Splices (s : State L) (i : Fin NINODE) (n : Inum) (src : Nat → BitVec 8) (off len : Nat)
    (s' : State L) : Prop where
  inv : Inv s'
  live : Live s' i n
  alloc : ∀ k, dataRef s' n k ≠ 0 ↔ dataRef s n k ≠ 0 ∨ (0 < len ∧ k * BSIZE < off + len ∧ off < (k + 1) * BSIZE)
  size : (view s' n).size.toNat = max (view s n).size.toNat (off + len)
  type : (view s' n).type = (view s n).type
  content : content s' n = writeAt (content s n) off (tabulate len src)
  other : ∀ m, m ≠ n → Fs.content s' m = Fs.content s m

theorem Splices.covers (h : Splices s i n src off len s') (hc : Covers s n) (hoff : off ≤ (view s n).size.toNat)
    (hmax : off + len ≤ MAXFILE * BSIZE) : Covers s' n := by
  refine ⟨?_, fun bn hbn => ?_⟩
  · rw [h.size]; exact Nat.max_le.mpr ⟨hc.size, hmax⟩
  · rw [h.alloc, hc.blocks bn hbn, h.size]
    simp only [BSIZE]
    omega

theorem Writes.type (h : Writes s i n src off len s1) (hc : Core s) (hl : Live s i n) : (view s1 n).type = (view s n).type := by
  rw [h.inv.view_live h.live, hc.view_live hl, h.entry]

theorem Writes.splices (h : Writes s i n src off len s1) (hoff : off ≤ (view s n).size.toNat) (hinv : Inv s')
    (hl : Live s' i n) (hbyte : byteAt s' = byteAt s1) (halloc : dataRef s' = dataRef s1)
    (hsize : (view s' n).size.toNat = max (view s n).size.toNat (off + len)) (htype : (view s' n).type = (view s n).type)
    (hother : ∀ m, m ≠ n → (view s' m).size = (view s m).size) : Splices s i n src off len s' := by
  refine ⟨hinv, hl, fun k => ?_, hsize, htype, ?_, fun m hm => ?_⟩
  · rw [halloc, h.alloc]
  · rw [content, content, hsize, writeAt_tabulate _ _ hoff, hbyte]
    refine tabulate_congr fun k _ => ?_
    rw [h.byte]
    simp
  · rw [content, content, hother m hm, hbyte]
    refine tabulate_congr fun k _ => ?_
    rw [h.byte, if_neg fun he => hm he.1]

theorem add_lt_iff (a b : BitVec 32) : a + b < a ↔ 2 ^ 32 ≤ a.toNat + b.toNat := by
  have := a.isLt
  have := b.isLt
  rw [BitVec.lt_def, BitVec.toNat_add]
  omega

def InRange (s : State L) (n : Inum) (off len : BitVec 32) : Prop :=
  off.toNat ≤ (view s n).size.toNat ∧ off.toNat + len.toNat < 2 ^ 32

theorem inRange_iff (hc : Core s) (hl : Live s i n) (off len : BitVec 32) :
    (off > (s.inode i).d.size ∨ off + len < off) ↔ ¬ InRange s n off len := by
  rw [InRange, gt_iff_lt, add_lt_iff, BitVec.lt_def, hc.view_live hl]
  omega

theorem InRange.toNat_add {off len : BitVec 32} (h : InRange s n off len) : (off + len).toNat = off.toNat + len.toNat := by
  rw [BitVec.toNat_add]
  exact Nat.mod_eq_of_lt h.2

theorem toNat_maxBytes : (BitVec.ofNat 32 (MAXFILE * BSIZE)).toNat = MAXFILE * BSIZE := by decide

theorem ends_writei {off len : BitVec 32} (h : Inv s) (hl : Live s i n) (ht : (view s n).type ≠ T_DEV)
    (hr : InRange s n off len) (hmax : off.toNat + len.toNat ≤ MAXFILE * BSIZE) :
    Ends (NoSpace lw) (fun r => r.1 = (len.toNat : Int) ∧ Splices s i n src off.toNat len.toNat r.2)
      (writei lw s i src off len) := by
  have hvl := h.view_live hl
  have hsum := hr.toNat_add
  simp only [writei]
  rw [if_neg (by rw [← hvl]; exact ht), if_neg ((inRange_iff h.toCore hl off len).not_left.mpr hr),
    if_neg (by rw [gt_iff_lt, BitVec.lt_def, hsum, toNat_maxBytes]; omega)]
  refine (ends_writeLoop h hl le_rfl hmax).bind fun s1 hw => ?_
  have hsz : (s1.inode i).d.size = (view s n).size := by rw [hw.entry, hvl]
  split
  · rename_i hgt
    have hgt' : (view s n).size.toNat < off.toNat + len.toNat := by
      have := hgt.2
      rwa [gt_iff_lt, BitVec.lt_def, hsum, hsz] at this
    refine ((hw.inv.resize hw.live (off + len)).mono (fun _ e => .inl e) fun _ => id).bind fun s2 h2 => ?_
    refine ⟨rfl, hw.splices hr.1 h2.inv h2.live h2.byte h2.alloc ?_ (h2.type.trans (hw.type h.toCore hl)) fun m hm => ?_⟩
    · rw [h2.size, hsum]; omega
    · rw [h2.other m hm, hw.size h.toCore]
  · rename_i hle
    refine ⟨rfl, hw.splices hr.1 hw.inv hw.live rfl rfl ?_ (hw.type h.toCore hl) fun m _ => hw.size h.toCore m⟩
    rw [hw.size h.toCore]
    by_cases hz : len.toNat = 0
    · have := hr.1
      omega
    · have : ¬ (off + len > (s1.inode i).d.size) := fun hc => hle ⟨by rw [gt_iff_lt, BitVec.lt_def]; exact Nat.pos_of_ne_zero hz, hc⟩
      rw [gt_iff_lt, BitVec.lt_def, hsum, hsz] at this
      omega

section

variable (h : Core s) (hl : Live s i n)
include h hl

theorem writei_refuses {off len : BitVec 32} (ht : (view s n).type ≠ T_DEV)
    (hr : ¬ (InRange s n off len ∧ off.toNat + len.toNat ≤ MAXFILE * BSIZE)) : writei lw s i src off len = .ok (-1, s) := by
  simp only [writei]
  rw [if_neg (by rw [← h.view_live hl]; exact ht)]
  by_cases hin : InRange s n off len
  · have hgt : MAXFILE * BSIZE < off.toNat + len.toNat := lt_of_not_ge fun hle => hr ⟨hin, hle⟩
    rw [if_neg ((inRange_iff h hl off len).not_left.mpr hin),
      if_pos (by rw [gt_iff_lt, BitVec.lt_def, hin.toNat_add, toNat_maxBytes]; exact hgt)]
  · rw [if_pos ((inRange_iff h hl off len).mpr hin)]

/-! ## `readi` -/

theorem readLoop_eq (hc : ∀ bn, bn * BSIZE < (view s n).size.toNat → dataRef s n bn ≠ 0) (hf : len ≤ fuel)
    (hsz : off + len ≤ (view s n).size.toNat) : readLoop lw i fuel s off len = .ok (tabulate len fun k => byteAt s n (off + k), s) := by
  induction fuel generalizing off len with
  | zero =>
    obtain rfl : len = 0 := by omega
    rfl
  | succ fuel ih =>
    rw [readLoop]
    split
    · rename_i hz
      subst hz
      rfl
    · rename_i hz
      have hmod := mod_lt_BSIZE off
      have hr : dataRef s n (off / BSIZE) ≠ 0 := hc _ (by have := Nat.div_mul_le_self off BSIZE; omega)
      obtain ⟨r, hlen⟩ := Nat.exists_eq_add_of_le (min_le_left len (BSIZE - off % BSIZE))
      have ih' := @ih (off + min len (BSIZE - off % BSIZE)) (len - min len (BSIZE - off % BSIZE))
        (by omega) (by omega)
      -- the bytes of this block are those of the file
      have hbytes : ((List.range (min len (BSIZE - off % BSIZE))).map fun j =>
          (s.blk (dataRef s n (off / BSIZE))).get (off % BSIZE + j)) =
          tabulate (min len (BSIZE - off % BSIZE)) fun k => byteAt s n (off + k) := by
        refine tabulate_congr fun k hk => ?_
        have hdiv : (off + k) / BSIZE = off / BSIZE := by simp only [BSIZE] at hk ⊢; omega
        have hkm : (off + k) % BSIZE = off % BSIZE + k := by simp only [BSIZE] at hk ⊢; omega
        rw [byteAt_eq, hdiv, hkm, if_neg hr]
      simp only [h.bmap_eq hl hr, hbytes, ih', bind, Except.bind, pure, Except.pure]
      refine congrArg (fun l => Except.ok (l, s)) ?_
      conv_rhs => rw [hlen, tabulate_add]
      rw [show len - min len (BSIZE - off % BSIZE) = r by omega]
      simp [add_assoc]

theorem readi_eq {off len : BitVec 32} (ht : (view s n).type ≠ T_DEV)
    (hc : ∀ bn, bn * BSIZE < (view s n).size.toNat → dataRef s n bn ≠ 0) (hr : InRange s n off len) :
    readi lw s i off len = .ok ((min len.toNat ((view s n).size.toNat - off.toNat) : Nat),
      readAt (content s n) off.toNat len.toNat, s) := by
  have hvl := h.view_live hl
  have hsum := hr.toNat_add
  have hsub : ((view s n).size - off).toNat = (view s n).size.toNat - off.toNat :=
    BitVec.toNat_sub_of_le (BitVec.le_def.mpr hr.1)
  have hn : (if off + len > (s.inode i).d.size then (s.inode i).d.size - off else len).toNat =
      min len.toNat ((view s n).size.toNat - off.toNat) := by
    rw [← hvl]
    split
    · rename_i hgt
      rw [gt_iff_lt, BitVec.lt_def, hsum] at hgt
      rw [hsub]; omega
    · rename_i hle
      rw [gt_iff_lt, BitVec.lt_def, hsum] at hle
      omega
  simp only [readi]
  rw [if_neg (by rw [← hvl]; exact ht), if_neg ((inRange_iff h hl off len).not_left.mpr hr)]
  have hin := hr.1
  rw [hn, readLoop_eq h hl hc le_rfl (by omega)]
  rw [content, readAt_tabulate]
  rfl

theorem readi_refuses {off len : BitVec 32} (ht : (view s n).type ≠ T_DEV)
    (hr : ¬ InRange s n off len) : readi lw s i off len = .ok (-1, [], s) := by
  simp only [readi]
  rw [if_neg (by rw [← h.view_live hl]; exact ht), if_pos ((inRange_iff h hl off len).mpr hr)]

end

end Xv6.Fs
