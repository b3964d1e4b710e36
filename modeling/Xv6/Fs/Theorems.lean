import Mathlib.Data.Finset.Card
import Xv6.Fs.Lemmas.Run
import Xv6.Lib.Trans

/-! # Theorems about the file system -/

namespace Xv6.Fs

open Xv6.Lib List Mkfs

variable {L : Type} {lw : LogWrite L} {s s' : State L} {i j : Fin NINODE} {n m : Inum}

/-! ## Ownership -/

def Booted (s : State L) : Prop :=
  ∃ files blk devsw log, files.length + 2 ≤ Mkfs.NINODES ∧ mkfs files = .ok blk ∧ s = iinit blk devsw log

def Runs (lw : LogWrite L) : State L → Prop := Reach Booted (step lw) fun s c => c.Allowed s

theorem Runs.inv (h : Runs lw s) : Inv s := by
  refine Reach.inv (P := Inv) ?_ ?_ h
  · rintro _ ⟨files, blk, devsw, log, hlen, hmk, rfl⟩
    exact inv_iinit ((ends_mkfs hlen).of_ok hmk) devsw log
  · intro s c s' hi hc hst
    exact (hi.exec hc).of_ok (of_toOption hst)

/-- Block number `b` is stored at position `x` of inode `n`, in its cache entry or on disk. -/
inductive Stored (s : State L) (n : Inum) (x : Idx) (b : Nat) : Prop where
  | cached {i : Fin NINODE} : Live s i n → (s.inode i).d.ref s.blk x = b → Stored s n x b
  | disk : (s.disk.dinode n).ref s.blk x = b → Stored s n x b

theorem Inv.stored (h : Inv s) {x : Idx} {b : Nat} (hs : Stored s n x b) (hb : b ≠ 0) : s.ref (n, x) = b := by
  cases hs with
  | cached hl he => rw [State.ref, refOf, h.view_live hl]; exact he
  | disk he =>
    by_cases hl : ∃ i, Live s i n
    · -- the inode on disk may lack addresses, but has no others
      obtain ⟨i, hl⟩ := hl
      rw [State.ref, refOf, h.view_live hl]
      rcases Dinode.ref_sub (h.behind i n hl) s.blk x with h0 | h1
      · exact absurd (he.symm.trans h0) hb
      · exact h1.symm.trans he
    · rw [State.ref, refOf, view_of_not_live fun i hi => hl ⟨i, hi⟩]; exact he

/-- A block number that an inode stores is in the data area, has its bit set and is stored at no other position; `balloc` returns a block
that is stored nowhere; no call frees a free block; and `itrunc` clears the bits of the blocks of its inode only. -/
theorem block_ownership (h : Runs lw s) :
    (∀ n x b, Stored s n x b → b ≠ 0 → nmeta ≤ b ∧ b < s.disk.sb.size ∧ used s.blk b = true ∧
      ∀ m y, Stored s m y b → m = n ∧ y = x) ∧
    (∀ b d, balloc lw s.disk = .ok (b, d) → ∀ n x, ¬ Stored s n x b) ∧
    (∀ c : Call, c.Allowed s → exec lw s c ≠ .error .freeingFree) ∧
    ∀ i n s', Live s i n → itrunc lw s i = .ok s' → ∀ b, b < s.disk.sb.size →
      (used s'.blk b = true ↔ used s.blk b = true ∧ ∀ x, (s.inode i).d.ref s.blk x = b → b = 0) := by
  have hi := h.inv
  have hsize : s.disk.sb.size = FSSIZE := by rw [hi.sb]; rfl
  refine ⟨fun n x b hs hb => ?_, fun b d hd n x hs => ?_, fun c hc he => ?_, fun i n s' hl he b hb => ?_⟩
  · have hr := hi.stored hs hb
    have hrange := hi.owns.range (n, x) (hr ▸ hb)
    have hused := hi.owns.taken (n, x) (hr ▸ hb)
    rw [hr] at hrange hused
    refine ⟨hrange.1, hsize ▸ hrange.2, hused, fun m y hm => ?_⟩
    have hr' := hi.stored hm hb
    exact Prod.mk.inj (hi.owns.inj (m, y) (n, x) (hr' ▸ hb) (hr'.trans hr.symm))
  · have hb := (ends_balloc hi.sb hi.meta_used).of_ok hd
    exact hi.fresh hb (n, x) (hi.stored hs hb.pos)
  · exact (hi.exec hc).of_error he rfl
  · have ht := (hi.itrunc hl).of_ok he
    have href : ∀ x, s.ref (n, x) = (s.inode i).d.ref s.blk x := fun x => by
      rw [State.ref, refOf, hi.view_live hl]
    rw [ht.used b (hsize ▸ hb)]
    refine and_congr_right fun _ => forall_congr' fun x => ?_
    rw [href]
    constructor
    · intro hn hx
      by_contra hb0
      exact hn (hx ▸ hb0) hx
    · intro hn hne hx
      exact hne (hx.trans (hn hx))

def record (l : List Nat) (b : Nat) : Option (List Nat) := some (l ++ [b])

def emptyImage : Nat → Block :=
  match mkfs [] with
  | .ok blk => blk
  | .error _ => fun _ => Bytes.fill BSIZE 0#8

theorem mkfs_nil : mkfs [] = .ok emptyImage := by
  have hok : (mkfs []).isOk = true := by decide +kernel
  unfold emptyImage
  cases h : mkfs [] with
  | ok blk => rfl
  | error e => rw [h] at hok; cases hok

theorem runs_empty : Runs record (iinit emptyImage (fun _ => ⟨none, none⟩) []) :=
  .init ⟨[], emptyImage, _, _, by decide, mkfs_nil, rfl⟩

def entry0 : Fin NINODE := ⟨0, by decide⟩

def inode2 : Inum := ⟨2, by decide⟩

def fiveBytes : List Call := [.ialloc T_FILE, .ilock entry0, .writei entry0 (fun _ => 7#8) 0 5]

theorem block_ownership_new_file :
    ∃ s, Runs record s ∧ Live s entry0 inode2 ∧ Stored s inode2 (.inl ⟨0, by decide⟩) 84 ∧
      ∀ m y, Stored s m y 84 → m = inode2 ∧ y = .inl ⟨0, by decide⟩ := by
  obtain ⟨s, hs, hl, ha⟩ := Reach.of_runs fiveBytes
    (fun s => Live s entry0 inode2 ∧ (s.inode entry0).d.ref s.blk (.inl ⟨0, by decide⟩) = 84) runs_empty
    (by decide +kernel)
  have hst : Stored s inode2 (.inl ⟨0, by decide⟩) 84 := .cached hl ha
  exact ⟨s, hs, hl, hst, ((block_ownership hs).1 _ _ _ hst (by decide)).2.2.2⟩

/-! ## Content -/

/-- On a locked file whose blocks are those of `[0, size)`: `writei` writes the array of the file and leaves all other files alone, or
refuses with -1; `readi` reads the array. -/
theorem inode_is_array (h : Inv s) (hl : Live s i n) (ht : (view s n).type ≠ T_DEV) (hc : Covers s n) (src : Nat → BitVec 8)
    (off len : BitVec 32) :
    (off.toNat ≤ (content s n).length ∧ off.toNat + len.toNat < 2 ^ 32 ∧ off.toNat + len.toNat ≤ MAXFILE * BSIZE →
      writei lw s i src off len ≠ .error .outOfBlocks → writei lw s i src off len ≠ .error .log →
      ∃ s', writei lw s i src off len = .ok (len.toNat, s') ∧
        content s' n = writeAt (content s n) off.toNat (tabulate len.toNat src) ∧
        (view s' n).size.toNat = max (view s n).size.toNat (off.toNat + len.toNat) ∧
        (∀ m, m ≠ n → content s' m = content s m) ∧ Inv s' ∧ Live s' i n ∧ Covers s' n) ∧
    (¬ (off.toNat ≤ (content s n).length ∧ off.toNat + len.toNat < 2 ^ 32 ∧
        off.toNat + len.toNat ≤ MAXFILE * BSIZE) → writei lw s i src off len = .ok (-1, s)) ∧
    (off.toNat ≤ (content s n).length ∧ off.toNat + len.toNat < 2 ^ 32 →
      readi lw s i off len = .ok ((readAt (content s n) off.toNat len.toNat).length,
        readAt (content s n) off.toNat len.toNat, s)) ∧
    (¬ (off.toNat ≤ (content s n).length ∧ off.toNat + len.toNat < 2 ^ 32) →
      readi lw s i off len = .ok (-1, [], s)) := by
  have hlen : (content s n).length = (view s n).size.toNat := length_tabulate _ _
  rw [hlen]
  refine ⟨?_, fun hn => ?_, fun hr => ?_, fun hn => readi_refuses h.toCore hl ht hn⟩
  · rintro ⟨h1, h2, h3⟩ hspace hlog
    have hends : Ends (NoSpace lw) _ (writei lw s i src off len) := ends_writei h hl ht ⟨h1, h2⟩ h3
    obtain ⟨⟨k, s'⟩, he, hk, hs⟩ := hends.returns (by
      rintro e (he | he)
      · rw [he.1]; exact hlog
      · rw [he]; exact hspace)
    dsimp only at hk
    subst hk
    exact ⟨s', he, hs.content, hs.size, hs.other, hs.inv, hs.live, hs.covers hc h1 h3⟩
  · exact writei_refuses h.toCore hl ht fun hr => hn ⟨hr.1.1, hr.1.2, hr.2⟩
  · rw [readi_eq h.toCore hl ht hc.full hr, content, readAt_tabulate, length_tabulate]

theorem ne_error_of_isOk {ε α : Type} {x : Except ε α} {e : ε} (h : x.isOk = true) : x ≠ .error e := by
  rintro rfl; cases h

/-- Four bytes over the end of a file with five. -/
theorem inode_is_array_extends :
    ∃ s s' : State (List Nat), content s inode2 = [7, 7, 7, 7, 7] ∧
      writei record s entry0 (fun _ => 9#8) 3 4 = .ok (4, s') ∧ content s' inode2 = [7, 7, 7, 9, 9, 9, 9] := by
  obtain ⟨s, hs, hl, ht, hcont, href, hok⟩ := Reach.of_runs fiveBytes
    (fun s => Live s entry0 inode2 ∧ (view s inode2).type ≠ T_DEV ∧ content s inode2 = [7, 7, 7, 7, 7] ∧
      (∀ bn, bn < MAXFILE → (dataRef s inode2 bn ≠ 0 ↔ bn = 0)) ∧
      (writei record s entry0 (fun _ => 9#8) 3 4).isOk) runs_empty (by decide +kernel)
  have hlen : (view s inode2).size.toNat = 5 := by
    rw [← length_tabulate (view s inode2).size.toNat (byteAt s inode2)]
    exact congrArg length hcont
  have hcov : Covers s inode2 := by
    refine ⟨by rw [hlen]; decide, fun bn hbn => ?_⟩
    rw [href bn hbn, hlen]
    simp only [BSIZE]
    omega
  obtain ⟨s', hw, hc', _⟩ := (inode_is_array (Runs.inv hs) hl ht hcov (fun _ => 9#8) 3 4).1
    (by rw [hcont]; decide) (ne_error_of_isOk hok) (ne_error_of_isOk hok)
  exact ⟨s, s', hcont, hw, by rw [hc', hcont]; decide⟩

/-! ## Transactions -/

theorem foldlM_record (l0 l : List Nat) : l.foldlM record l0 = some (l0 ++ l) := by
  induction l generalizing l0 with
  | nil => rw [append_nil]; rfl
  | cons b l ih =>
    rw [foldlM_cons, record]
    exact (ih _).trans (by rw [append_assoc]; rfl)

theorem card_freeBlocks {s : State L} (h : Core s) (n : Inum) :
    (freeBlocks s n).toFinset.card = (mapBlocks s n allIdx).toFinset.card + 1 := by
  have hno : iblock sb n ∉ (mapBlocks s n allIdx).toFinset := by
    rw [mem_toFinset]
    intro hm
    obtain ⟨x, hx, he⟩ := mem_map.mp hm
    have hne : s.ref (n, x) ≠ 0 := by simpa using (mem_filter.mp hx).2
    exact iblock_not_inMap n (he ▸ bblock_inMap (h.owns.range (n, x) hne).2)
  have : (freeBlocks s n).toFinset = insert (iblock sb n) (mapBlocks s n allIdx).toFinset := by
    ext b
    simp [freeBlocks]
  rw [this, Finset.card_insert_of_notMem hno]

/-- The `iput` that frees an inode logs its block and the bitmap blocks of all its blocks, so it fits into a transaction if and
only if these are fewer than `MAXOPBLOCKS`. -/
theorem iput_fits_iff {s : State (List Nat)} (h : Inv s) (hf : Frees s i) (hn : (s.inode i).inum = n) :
    ∃ s' bs, iput record s i = .ok s' ∧ s'.disk.log = s.disk.log ++ bs ∧
      (bs.toFinset.card ≤ MAXOPBLOCKS ↔ (mapBlocks s n allIdx).toFinset.card < MAXOPBLOCKS) := by
  have hends : Ends (LogFull record) _ (iput record s i) := h.iput_frees hf hn
  obtain ⟨s', he, _, hlog⟩ := hends.returns fun e hfull => by
    obtain ⟨_, l, b, hnone⟩ := hfull
    cases hnone
  rw [foldlM_record] at hlog
  refine ⟨s', freeBlocks s n, he, (Option.some.inj hlog).symm, ?_⟩
  rw [card_freeBlocks h.toCore]
  exact Iff.rfl

theorem iput_fits_five_bytes :
    ∃ (s : State (List Nat)) (s' : State (List Nat)) (bs : List Nat), iput record s entry0 = .ok s' ∧
      s'.disk.log = s.disk.log ++ bs ∧ bs.toFinset.card ≤ MAXOPBLOCKS := by
  obtain ⟨s, hs, hf, hn, hm⟩ := Reach.of_runs (fiveBytes ++ [.update entry0 0 0 0])
    (fun s => Frees s entry0 ∧ (s.inode entry0).inum = inode2 ∧ mapBlocks s inode2 allIdx = [58]) runs_empty
    (by decide +kernel)
  obtain ⟨s', bs, he, hlog, hiff⟩ := iput_fits_iff (Runs.inv hs) hf hn
  exact ⟨s, s', bs, he, hlog, hiff.mpr (by rw [hm]; decide)⟩

/-- A file with one block in the range of each of the first twelve bitmap blocks. -/
def scatteredInode : Dinode where
  type := T_FILE
  major := 0
  minor := 0
  nlink := 0
  size := .ofNat 32 (NDIRECT * BSIZE)
  addrs := fun k => if k = indirect then 0 else .ofNat 32 (BPB * k + 100)

def fullDisk : Nat → Block := fun x =>
  if x = 1 then writesb (Bytes.fill BSIZE 0#8) sb
  else if sb.bmapstart ≤ x ∧ x < nmeta then Bytes.fill BSIZE 255#8
  else Bytes.fill BSIZE 0#8

def scattered : State (List Nat) where
  disk := {
    sb := sb
    blk := Function.update fullDisk (iblock sb 2) (writeDinode (fullDisk (iblock sb 2)) (2 % IPB) scatteredInode)
    log := [] }
  inode := fun i =>
    if i = entry0 then { inum := 2, ref := 1, valid := true, d := scatteredInode }
    else { inum := 0, ref := 0, valid := false, d := Dinode.zero }
  devsw := fun _ => ⟨none, none⟩

theorem live_scattered : Live scattered entry0 inode2 := by decide

theorem ref_scattered (h : 0 < (scattered.inode i).ref) : i = entry0 := by
  by_contra hi
  simp [scattered, hi] at h

theorem dinode_scattered (n : Inum) : scattered.disk.dinode n = if n = inode2 then scatteredInode else Dinode.zero := by
  refine (readDinode_update sb fullDisk 2 n scatteredInode).trans ?_
  by_cases hn : n = inode2
  · subst hn; rfl
  · have hn' : n.val ≠ 2 := fun e => hn (Fin.ext e)
    have hlt := iblock_lt n
    rw [if_neg hn', if_neg hn, fullDisk, if_neg (by omega), if_neg (by omega), readDinode_fill]

theorem view_scattered (n : Inum) : view scattered n = if n = inode2 then scatteredInode else Dinode.zero := by
  have hu : Uniq scattered := fun a b ha hb _ => (ref_scattered ha).trans (ref_scattered hb).symm
  by_cases hn : n = inode2
  · subst hn; rw [hu.view live_scattered, if_pos rfl]; rfl
  · rw [view_of_not_live, dinode_scattered]
    intro i hl
    obtain rfl := ref_scattered hl.ref
    exact hn (Fin.ext hl.inum.symm)

theorem ref_eq_scattered {p : Pos} (hp : scattered.ref p ≠ 0) :
    ∃ k : Fin (NDIRECT + 1), p = (inode2, .inl k) ∧ k.val < NDIRECT ∧ scattered.ref p = BPB * k + 100 := by
  obtain ⟨n, x⟩ := p
  have hv : (view scattered n).addrs indirect = 0 := by
    rw [view_scattered]
    split
    · decide
    · rfl
  cases x with
  | inr j => exact absurd (refOf_inr_zero hv j) hp
  | inl k =>
    rw [State.ref, refOf_inl, view_scattered] at hp ⊢
    by_cases hn : n = inode2
    · subst hn
      rw [if_pos rfl] at hp ⊢
      by_cases hk : k = indirect
      · subst hk; exact absurd (show ((scatteredInode.addrs indirect).toNat = 0) by decide) hp
      · have hlt : k.val < NDIRECT := by
          have h1 := k.isLt
          have h2 : k.val ≠ NDIRECT := fun e => hk (Fin.ext e)
          omega
        refine ⟨k, rfl, hlt, ?_⟩
        have hfs : BPB * k.val + 100 < FSSIZE := by simp only [BPB, BSIZE, NDIRECT, FSSIZE] at hlt ⊢; omega
        rw [scatteredInode]
        simp only [if_neg hk]
        exact toNat_ofNat_fs hfs
    · rw [if_neg hn] at hp
      exact absurd rfl hp

theorem blk_scattered {x : Nat} (hx : x ≠ iblock sb 2) : scattered.blk x = fullDisk x :=
  Function.update_of_ne hx _ _

theorem fullDisk_inMap {x : Nat} (hx : InMap x) : fullDisk x = Bytes.fill BSIZE 255#8 := by
  have hne : x ≠ 1 := fun e => one_not_inMap (e ▸ hx)
  unfold fullDisk
  rw [if_neg hne]
  exact if_pos hx

theorem used_scattered {b : Nat} (hb : b < FSSIZE) : used scattered.blk b = true := by
  have hin := bblock_inMap hb
  have hne : bblock sb b ≠ iblock sb 2 := fun e => iblock_not_inMap inode2 (e ▸ hin)
  have hbit : ∀ k, k < 8 → (255#8).getLsbD k = true := by decide
  have hlt : b % BPB / 8 < BSIZE := by have := mod_lt_BPB b; simp only [BPB, BSIZE] at this ⊢; omega
  rw [used, blk_scattered hne, fullDisk_inMap hin, isFree_eq, Bytes.get_fill _ hlt, hbit _ (Nat.mod_lt _ (by decide))]
  rfl

theorem inv_scattered : Inv scattered := by
  refine ⟨⟨rfl, ?_, fun i hi => ?_, fun a b ha hb _ => (ref_scattered ha).trans (ref_scattered hb).symm,
    ⟨fun x hx => used_scattered (lt_trans hx (by decide)), fun p hp => ?_, fun p hp => ?_, fun p q hp hpq => ?_⟩⟩,
    fun i n hl k => .inr ?_⟩
  · rw [blk_scattered (by decide)]; exact readsb_writesb
  · obtain rfl := ref_scattered hi
    decide
  · obtain ⟨k, _, hk, he⟩ := ref_eq_scattered hp
    rw [he]
    have : nmeta = 83 := rfl
    simp only [BPB, BSIZE, NDIRECT, FSSIZE] at hk ⊢
    omega
  · obtain ⟨k, _, hk, he⟩ := ref_eq_scattered hp
    refine used_scattered ?_
    rw [he]
    simp only [BPB, BSIZE, NDIRECT, FSSIZE] at hk ⊢
    omega
  · obtain ⟨k, rfl, hk, he⟩ := ref_eq_scattered hp
    obtain ⟨k', rfl, hk', he'⟩ := ref_eq_scattered (hpq ▸ hp)
    rw [he, he'] at hpq
    have : k = k' := Fin.ext (by simp only [BPB, BSIZE] at hpq; omega)
    rw [this]
  · obtain rfl := ref_scattered hl.ref
    obtain rfl : n = inode2 := Fin.ext hl.inum.symm
    rw [dinode_scattered, if_pos rfl]
    rfl

/-- Dropping the last reference to that file logs 13 blocks. -/
theorem iput_overflows :
    ¬ ∀ (s : State (List Nat)) i s' bs, Inv s → Frees s i → iput record s i = .ok s' →
      s'.disk.log = s.disk.log ++ bs → bs.toFinset.card ≤ MAXOPBLOCKS := by
  intro hall
  have hlog : ((iput record scattered entry0).toOption.map fun s => s.disk.log) =
      some (range' 58 12 ++ [32, 32]) := by decide +kernel
  cases he : iput record scattered entry0 with
  | ok s' =>
    rw [he] at hlog
    have := hall scattered entry0 s' _ inv_scattered (by decide) he (Option.some.inj hlog)
    exact absurd this (by decide)
  | error e => rw [he] at hlog; cases hlog

end Xv6.Fs
