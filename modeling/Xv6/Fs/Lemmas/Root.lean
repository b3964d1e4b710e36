import Xv6.Fs.Lemmas.Lookup
import Xv6.Fs.Lemmas.Made
import Xv6.Fs.Lemmas.Run

/-! # A kernel that starts on a new image -/

namespace Xv6.Fs

open Xv6.Lib List
open Xv6.Dir (Dirent Str namecmp cname)
open Xv6.Mkfs (File Made holding typed rootEntries usedBlocks)

variable {L : Type} {lw : LogWrite L} {s s' : State L} {i j : Fin NINODE} {n m : Inum}
variable {files : List File} {blk : Nat → Block} {k : Nat} {name : Str}

/-! ## Opening an inode -/

theorem iget_new {inum : Nat} (hno : ∀ j, 0 < (s.inode j).ref → (s.inode j).inum ≠ inum) (hfree : ∃ j, (s.inode j).ref = 0) :
    ∃ j, (s.inode j).ref = 0 ∧ iget s inum = .ok (j, s.setInode j { s.inode j with inum, ref := 1, valid := false }) := by
  have hnone : (finRange NINODE).find? (fun i => (s.inode i).ref > 0 ∧ (s.inode i).inum = inum) = none := by
    rw [find?_eq_none]
    intro j _ hj
    obtain ⟨hr, hn⟩ := of_decide_eq_true hj
    exact hno j hr hn
  obtain ⟨j0, hj0⟩ := hfree
  cases hf : (finRange NINODE).find? fun i => (s.inode i).ref = 0 with
  | none =>
    rw [find?_eq_none] at hf
    exact absurd (decide_eq_true hj0) (hf j0 (mem_finRange j0))
  | some j =>
    refine ⟨j, of_decide_eq_true (find?_some hf :), ?_⟩
    rw [iget, hnone]
    simp [hf]

theorem iget_old (hu : Uniq s) (hr : 0 < (s.inode i).ref) :
    iget s (s.inode i).inum = .ok (i, s.setInode i { s.inode i with ref := (s.inode i).ref + 1 }) := by
  cases hf : (finRange NINODE).find? fun j => (s.inode j).ref > 0 ∧ (s.inode j).inum = (s.inode i).inum with
  | none =>
    rw [find?_eq_none] at hf
    exact absurd (decide_eq_true ⟨hr, rfl⟩) (hf i (mem_finRange i))
  | some j =>
    obtain ⟨hjr, hjn⟩ := of_decide_eq_true (find?_some hf :)
    obtain rfl := hu j i hjr hr hjn
    rw [iget, hf]

def State.load (s : State L) (j : Fin NINODE) (n : Inum) : State L :=
  s.setInode j { inum := n, ref := 1, valid := true, d := s.disk.dinode n }

theorem ilock_new (j : Fin NINODE) (ht : (s.disk.dinode n).type ≠ 0#16) :
    ilock (s.setInode j { s.inode j with inum := n, ref := 1, valid := false }) j = .ok (s.load j n) := by
  have hd : (s.setInode j { s.inode j with inum := n, ref := 1, valid := false }).disk = s.disk := rfl
  unfold ilock
  simp only [inode_setInode_self]
  rw [if_neg (by decide), if_neg (by decide), hd, if_neg ht]
  rw [State.load, State.setInode, State.setInode, State.setInode, Function.update_idem]

section Load

variable (hno : ∀ j, 0 < (s.inode j).ref → (s.inode j).inum ≠ n)
include hno

theorem not_live_of_new (k : Fin NINODE) : ¬ Live s k n := fun hl => hno k hl.ref hl.inum

theorem fits_load (j : Fin NINODE) : Fits s j { inum := n, ref := 1, valid := true, d := s.disk.dinode n } :=
  fun _ => ⟨n.isLt, fun k _ hk => hno k hk⟩

theorem view_load (h : Inv s) (hr : (s.inode j).ref = 0) : view (s.load j n) = view s := by
  funext m
  rw [State.load, view_setInode h.uniq (fits_load hno j)]
  split
  · rename_i hl
    have hm := hl.inum
    rw [inode_setInode_self] at hm
    obtain rfl : m = n := Fin.ext hm.symm
    rw [view_of_not_live (not_live_of_new hno)]
  · rw [if_neg]
    intro hl
    have := hl.ref
    omega

theorem inv_load (h : Inv s) (j : Fin NINODE) : Inv (s.load j n) := by
  refine (h.setInode (fits_load hno j) fun m hm => ?_).1
  have hn := hm.inum
  rw [inode_setInode_self] at hn
  obtain rfl : m = n := Fin.ext hn.symm
  rw [view_of_not_live (not_live_of_new hno)]

end Load

theorem live_load (s : State L) (j : Fin NINODE) (n : Inum) : Live (s.load j n) j n :=
  Live.setInode one_pos rfl rfl

/-! ## The entries of the root directory -/

theorem getD_flatMap_tabulate {α : Type} (g : α → Nat → BitVec 8) (es : List α) {j : Nat} (hj : j < 16) :
    (es.flatMap fun e => tabulate 16 (g e)).getD (16 * k + j) 0 = ((es[k]?).map fun e => g e j).getD 0 := by
  induction es generalizing k with
  | nil => simp
  | cons e es ih =>
    rw [flatMap_cons]
    cases k with
    | zero =>
      rw [getD_append _ _ _ _ (by rw [length_tabulate]; omega), getD_eq_getElem?_getD, tabulate,
        getElem?_map, getElem?_range (by omega)]
      simp
    | succ k =>
      have hsub : 16 * (k + 1) + j - 16 = 16 * k + j := by omega
      rw [getD_append_right _ _ _ _ (by rw [length_tabulate]; omega), length_tabulate, hsub, ih]
      simp

abbrev rootByte (files : List File) (q : Nat) : BitVec 8 :=
  ((rootEntries files).flatMap fun e => tabulate 16 (Mkfs.dirent e.1 e.2)).getD q 0

theorem inum_bytes {a : Nat} (ha : a < 2 ^ 16) : (BitVec.ofNat 8 (a / 256) ++ BitVec.ofNat 8 a : BitVec 16) = .ofNat 16 a := by
  apply BitVec.eq_of_toNat_eq
  rw [BitVec.toNat_append, BitVec.toNat_ofNat, BitVec.toNat_ofNat, BitVec.toNat_ofNat, ← Nat.shiftLeft_add_eq_or_of_lt]
  · rw [Nat.shiftLeft_eq]
    omega
  · omega

theorem slot_root (hk : k < (rootEntries files).length) (hin : (rootEntries files)[k].1 < 2 ^ 16) :
    slot (rootByte files) (16 * k) = ⟨.ofNat 16 (rootEntries files)[k].1,
      tabulate 14 ((rootEntries files)[k].2.getD · 0)⟩ := by
  have hbytes : (tabulate 16 fun j => rootByte files (16 * k + j)) =
      tabulate 16 (Mkfs.dirent (rootEntries files)[k].1 (rootEntries files)[k].2) := by
    refine tabulate_congr fun j hj => ?_
    rw [rootByte, getD_flatMap_tabulate _ _ hj, getElem?_eq_getElem hk]
    rfl
  rw [slot, hbytes, Dirent.ofBytes, ← inum_bytes hin]
  rfl

theorem slot_past (hk : (rootEntries files).length ≤ k) : (slot (rootByte files) (16 * k)).inum = 0 := by
  have hbytes : (tabulate 16 fun j => rootByte files (16 * k + j)) = tabulate 16 fun _ => 0#8 := by
    refine tabulate_congr fun j hj => ?_
    rw [rootByte, getD_flatMap_tabulate _ _ hj, getElem?_eq_none hk]
    rfl
  rw [slot, hbytes]
  rfl

theorem takeWhile_append_zeros (t : Str) (k : Nat) : (t ++ replicate k 0).takeWhile (· ≠ 0) = t.takeWhile (· ≠ 0) := by
  have hz : (replicate k (0 : BitVec 8)).takeWhile (· ≠ 0) = [] := by
    cases k with
    | zero => rfl
    | succ k => simp [replicate_succ]
  induction t with
  | nil => exact hz
  | cons c t ih =>
    rw [cons_append, takeWhile_cons, takeWhile_cons, ih]

theorem cname_tabulate (t : Str) : cname (tabulate 14 (t.getD · 0)) = cname t := by
  have hpad : tabulate 14 (t.getD · 0) = t.take 14 ++ replicate (14 - (t.take 14).length) 0 := by
    apply ext_getElem
    · simp
    · intro k h1 h2
      rw [length_tabulate] at h1
      rw [getElem_append]
      split
      · rename_i hk
        rw [length_take] at hk
        simp [tabulate, getElem?_eq_getElem (show k < t.length by omega)]
      · rename_i hk
        rw [length_take] at hk
        simp [tabulate, getElem?_eq_none (show t.length ≤ k by omega)]
  rw [cname, show Dir.DIRSIZ = 14 from rfl, take_of_length_le (by rw [length_tabulate]), hpad,
    takeWhile_append_zeros]
  rfl

theorem length_rootEntries (files : List File) : (rootEntries files).length = files.length + 2 := by
  simp [rootEntries]

theorem rootEntries_file (hk : k < files.length) : (rootEntries files)[k + 2]? = some (k + 2, (files[k]).skip) := by
  simp [rootEntries, hk, add_comm]

section

variable (hlen : files.length + 2 ≤ Mkfs.NINODES) (hk : k < (rootEntries files).length)
include hlen hk

theorem inum_root :
    0 < (rootEntries files)[k].1 ∧ (rootEntries files)[k].1 < Mkfs.NINODES := by
  have hl := length_rootEntries files
  match k with
  | 0 => exact ⟨one_pos, show 1 < Mkfs.NINODES by decide⟩
  | 1 => exact ⟨one_pos, show 1 < Mkfs.NINODES by decide⟩
  | k + 2 =>
    have he := rootEntries_file (show k < files.length by omega)
    rw [getElem?_eq_getElem hk] at he
    rw [Option.some.inj he]
    exact ⟨Nat.succ_pos _, by omega⟩

theorem inum_root_lt :
    (rootEntries files)[k].1 < 2 ^ 16 := lt_trans (inum_root hlen hk).2 (by decide)

theorem hit_root :
    Hit name (slot (rootByte files) (16 * k)) ↔ cname name = cname (rootEntries files)[k].2 := by
  have hpos := (inum_root hlen hk).1
  have hin := inum_root_lt hlen hk
  have hne : BitVec.ofNat 16 (rootEntries files)[k].1 ≠ 0 := fun he => by
    have := congrArg BitVec.toNat he
    rw [BitVec.toNat_ofNat, Nat.mod_eq_of_lt hin] at this
    exact Nat.ne_of_gt hpos this
  rw [Hit, slot_root hk hin, Dir.namecmp_eq_zero, cname_tabulate]
  exact and_iff_right hne

end

/-! ## The image -/

abbrev rootIno : Inum := ⟨1, by decide⟩

structure Shows (files : List File) (blk : Nat → Block) (s : State L) : Prop where
  made : Made files blk
  inv : Inv s
  disk : s.blk = blk
  view : view s = fun n : Inum => readDinode (blk (iblock Mkfs.sb n)) (n % IPB)

theorem shows_iinit (h : Made files blk) (hf : Mkfs.Formatted blk) (devsw : Nat → Devsw) (log : L) :
    Shows files blk (iinit blk devsw log) := by
  refine ⟨h, inv_iinit hf devsw log, rfl, ?_⟩
  funext n
  rw [view_of_not_live fun i hl => lt_irrefl _ hl.ref, Disk.dinode, ← h.super]
  rfl

section Shows

variable (h : Shows files blk s)
include h

theorem Shows.load (hno : ∀ j, 0 < (s.inode j).ref → (s.inode j).inum ≠ n) (hr : (s.inode j).ref = 0) : Shows files blk (s.load j n) :=
  ⟨h.made, inv_load hno h.inv j, h.disk, (view_load hno h.inv hr).trans h.view⟩

theorem Shows.dinode (n : Inum) : s.disk.dinode n = readDinode (blk (iblock Mkfs.sb n)) (n % IPB) := by
  rw [Disk.dinode, h.inv.sb, ← h.disk]

theorem Shows.dataRef_eq (n : Inum) (bn : Nat) : dataRef s n bn =
    Mkfs.dataRef (fun n : Inum => readDinode (blk (iblock Mkfs.sb n)) (n % IPB)) blk n bn := by
  rw [dataRef, Mkfs.dataRef, State.ref, h.view, h.disk]

theorem Shows.blocks (n : Inum) {bn : Nat} (hb : bn < MAXFILE) :
    dataRef s n bn ≠ 0 ↔ bn * BSIZE < (holding files n).length := by
  rw [h.dataRef_eq]
  exact h.made.stores.data n bn hb

theorem Shows.byte (n : Inum) (q : Nat) : byteAt s n q = (holding files n).getD q 0 := by
  rw [← h.made.stores.byte n q, byteAt_eq, Mkfs.byteAt_eq, h.dataRef_eq, h.disk]

theorem Shows.size (n : Inum) : (Fs.view s n).size.toNat =
    if n.val = 1 then ((holding files n).length / BSIZE + 1) * BSIZE else (holding files n).length := by
  rw [h.view]
  exact h.made.size n

theorem Shows.type (n : Inum) : (Fs.view s n).type = typed files n := by
  rw [h.view]
  exact h.made.type n

theorem Shows.listing (hl : Live s i rootIno) (hlen : files.length + 2 ≤ Mkfs.NINODES) (hroom : usedBlocks (holding files) < BSIZE * 8) :
    Listing s i rootIno ((16 * (files.length + 2) / BSIZE + 1) * BSIZE) (rootByte files) := by
  have hhold : holding files rootIno = (rootEntries files).flatMap fun e => tabulate 16 (Mkfs.dirent e.1 e.2) := if_pos rfl
  have hlength : (holding files rootIno).length = 16 * (files.length + 2) := by
    rw [hhold]
    exact Mkfs.length_root files
  have hvl := h.inv.view_live hl
  have hN : Mkfs.NINODES = 200 := rfl
  refine ⟨h.inv, hl, ?_, ?_, ?_, fun q => ?_, fun bn hbn => ?_, .inr ⟨usedBlocks (holding files), ?_, ?_⟩⟩
  · rw [← hvl, h.type]
    rfl
  · rw [← hvl, h.size, if_pos rfl, hlength]
  · simp only [BSIZE, NDIRECT]
    omega
  · rw [h.byte, hhold]
  · have hlt : bn < 16 * (files.length + 2) / BSIZE := by
      have := Nat.lt_of_mul_lt_mul_right hbn
      omega
    refine (h.blocks rootIno ?_).mpr ?_
    · simp only [BSIZE, MAXFILE, NDIRECT, NINDIRECT] at hlt ⊢
      omega
    · rw [hlength]
      simp only [BSIZE] at hlt ⊢
      omega
  · exact lt_of_lt_of_le hroom (by decide)
  · rw [h.disk, h.made.bits _ (lt_of_lt_of_le hroom (by decide))]
    exact decide_eq_false (lt_irrefl _)

theorem Shows.covers (hn : n.val ≠ 1) (hmax : (holding files n).length ≤ MAXFILE * BSIZE) : Covers s n := by
  have hsize := h.size n
  rw [if_neg hn] at hsize
  exact ⟨hsize ▸ hmax, fun bn hb => by rw [hsize]; exact h.blocks n hb⟩

theorem Shows.content (hn : n.val ≠ 1) : content s n = holding files n := by
  have hsize := h.size n
  rw [if_neg hn] at hsize
  rw [Fs.content, hsize]
  have htake := Mkfs.tabulate_getD (holding files n) (holding files n).length
  rw [Nat.min_self, take_length] at htake
  exact (tabulate_congr fun q _ => h.byte n q).trans htake

/-! ## Lookups in the root directory -/

section Root

variable (hl : Live s i rootIno) (hlen : files.length + 2 ≤ Mkfs.NINODES) (hroom : usedBlocks (holding files) < BSIZE * 8)
include hl hlen hroom

theorem Shows.dirlookup_eq (name : Str) : dirlookup lw s i name =
    dirlookupLoop lw i name ((s.inode i).d.size.toNat + 1) s (.ofNat 32 (16 * 0)) := by
  unfold dirlookup
  rw [if_neg (fun hne => hne (h.listing hl hlen hroom).type)]
  rfl

theorem Shows.dirlookup_found (hk : k < (rootEntries files).length) (hname : cname name = cname (rootEntries files)[k].2)
    (hfirst : ∀ l (hll : l < (rootEntries files).length), l < k → cname name ≠ cname (rootEntries files)[l].2) :
    dirlookup lw s i name = (do
      let (ip, s) ← (iget s (rootEntries files)[k].1).mapError .inode
      return (some (.ofNat 32 (16 * k), ip), s)) := by
  have hlist := h.listing hl hlen hroom
  have hz : (16 * (files.length + 2) / BSIZE + 1) * BSIZE % 16 = 0 := by simp only [BSIZE]; omega
  have hll := length_rootEntries files
  have hlt : 16 * k < (16 * (files.length + 2) / BSIZE + 1) * BSIZE := by simp only [BSIZE]; omega
  have hslot := slot_root hk (inum_root_lt hlen hk)
  have hinum : (slot (rootByte files) (16 * k)).inum.toNat = (rootEntries files)[k].1 := by
    rw [hslot, BitVec.toNat_ofNat]
    exact Nat.mod_eq_of_lt (inum_root_lt hlen hk)
  rw [h.dirlookup_eq hl hlen hroom, dirlookupLoop_eq hlist hz (Nat.zero_le k) hlt, hinum]
  · rw [hlist.size]
    omega
  · intro l hlk
    refine (h.blocks rootIno ?_).mpr ?_
    · have hN : Mkfs.NINODES = 200 := rfl
      simp only [BSIZE, MAXFILE, NDIRECT, NINDIRECT]
      omega
    · rw [holding, if_pos rfl, Mkfs.length_root]
      simp only [BSIZE]
      omega
  · intro l _ hlk hhit
    have hl' := lt_trans hlk hk
    exact hfirst l hl' hlk ((hit_root hlen hl').mp hhit)
  · exact (hit_root hlen hk).mpr hname

theorem Shows.ends_dirlookup (habs : ∀ l (hll : l < (rootEntries files).length), cname name ≠ cname (rootEntries files)[l].2) :
    Ends (fun e => ∃ p, e = .inode p ∧ LogFull lw p) (fun r => r.1 = none) (dirlookup lw s i name) := by
  have hz : (16 * (files.length + 2) / BSIZE + 1) * BSIZE % 16 = 0 := by simp only [BSIZE]; omega
  rw [h.dirlookup_eq hl hlen hroom]
  refine ends_dirlookupLoop (h.listing hl hlen hroom) hz (Nat.zero_le _) fun l _ _ hhit => ?_
  by_cases hll : l < (rootEntries files).length
  · exact habs l hll ((hit_root hlen hll).mp hhit)
  · exact hhit.1 (slot_past (by omega))

end Root

end Shows

theorem lockRoot_iinit (h : Made files blk) (hf : Mkfs.Formatted blk) (devsw : Nat → Devsw) (log : L) :
    ∃ j, lockRoot (iinit blk devsw log) = .ok (j, (iinit blk devsw log).load j rootIno) := by
  have hs := shows_iinit h hf devsw log
  have hno : ∀ j, 0 < ((iinit blk devsw log).inode j).ref → ((iinit blk devsw log).inode j).inum ≠ Dir.ROOTINO :=
    fun j hj => absurd hj (lt_irrefl 0)
  obtain ⟨j, -, hget⟩ := iget_new hno ⟨⟨0, by decide⟩, rfl⟩
  have hlock := ilock_new (s := iinit blk devsw log) (n := rootIno) j (by
    rw [hs.dinode, h.type]
    exact show T_DIR ≠ 0#16 by decide)
  refine ⟨j, ?_⟩
  unfold lockRoot
  rw [hget]
  exact (congrArg (fun r => r >>= fun s => Except.ok (j, s)) hlock :)

end Xv6.Fs
