import Xv6.Fs.Lemmas.Root
import Xv6.Fs.Theorems

/-!
# What the kernel reads from the image of `mkfs`

`mkfs` strips one `_` from a name and does not look at what is left, so two files can get the same entry, and one the entry `.`.
-/

namespace Xv6.Fs

open Xv6.Lib List Mkfs
open Xv6.Dir (Str cname dot dotdot)
open Xv6.Mkfs (File Made holding rootEntries usedBlocks blocksNeeded)

variable {L : Type} {lw : LogWrite L} {s : State L} {i : Fin NINODE} {files : List File} {blk : Nat → Block} {k : Nat}
  {n : Inum}

def rootNames (files : List File) : List Str := dot :: dotdot :: files.map fun f => cname f.skip

theorem map_rootEntries (files : List File) : (rootEntries files).map (fun e => cname e.2) = rootNames files := by
  rw [rootEntries, map_cons, map_cons, map_map, rootNames]
  refine congrArg (fun l => dot :: dotdot :: l) ?_
  apply ext_getElem
  · simp
  · intro k h1 h2
    simp

theorem rootNames_get (hk : k < (rootEntries files).length) : (rootNames files)[k]? = some (cname (rootEntries files)[k].2) := by
  rw [← map_rootEntries, getElem?_map, getElem?_eq_getElem hk]
  rfl

theorem rootNames_first {l : Nat} (hn : (rootNames files).Nodup) (hk : k < (rootEntries files).length)
    (hl : l < (rootEntries files).length) (hlk : l < k) : cname (rootEntries files)[k].2 ≠ cname (rootEntries files)[l].2 := by
  intro he
  have hlt : k < (rootNames files).length := by rw [← map_rootEntries, length_map]; exact hk
  exact Nat.ne_of_gt hlk ((getElem?_inj hlt hn).mp (by rw [rootNames_get hk, rootNames_get hl, he]))

theorem load_root (blk : Nat → Block) (devsw : Nat → Devsw) (log : L) (dp : Fin NINODE) :
    (∀ j, 0 < (((iinit blk devsw log).load dp rootIno).inode j).ref → j = dp) ∧
      ∃ j, (((iinit blk devsw log).load dp rootIno).inode j).ref = 0 := by
  have hother : ∀ j, j ≠ dp → (((iinit blk devsw log).load dp rootIno).inode j).ref = 0 := fun j hj => by
    rw [State.load, inode_setInode_ne hj]
    rfl
  refine ⟨fun j hj => by_contra fun hne => Nat.ne_of_gt hj (hother j hne), ?_⟩
  by_cases h0 : dp = entry0
  · exact ⟨⟨1, by decide⟩, hother _ (by rw [h0]; decide)⟩
  · exact ⟨entry0, hother _ fun e => h0 e.symm⟩

theorem used_iff_of_made (h : Made files blk) {b : Nat} (hb : b < FSSIZE) : used blk b = true ↔
    b < nmeta ∨ ∃ (n : Inum) (x : Idx), (readDinode (blk (iblock sb n)) (n % IPB)).ref blk x = b := by
  rw [h.bits b hb, decide_eq_true_eq]
  constructor
  · intro hlt
    by_cases hlo : b < nmeta
    · exact .inl hlo
    · obtain ⟨⟨n, x⟩, hp⟩ := h.stores.owned b (by omega) hlt
      exact .inr ⟨n, x, hp⟩
  · rintro (hlo | ⟨n, x, hx⟩)
    · exact lt_of_lt_of_le hlo h.stores.good.first
    · by_cases hz : b = 0
      · exact lt_of_lt_of_le (by rw [hz]; decide) h.stores.good.first
      · have hlt := h.stores.good.lt (p := (n, x)) (by rw [refOf]; exact hx ▸ hz)
        rw [refOf] at hlt
        exact hx ▸ hlt

section Lookup

variable {dp : Fin NINODE} (h : Shows files blk s) (hl : Live s dp rootIno) (hlen : files.length + 2 ≤ Mkfs.NINODES)
  (hroom : usedBlocks (holding files) < BSIZE * 8) {name : Str}
include h hl hlen hroom

theorem Shows.dirlookup_dots (hname : cname name = dot ∨ cname name = dotdot) :
    ∃ off s', dirlookup lw s dp name = .ok (some (off, dp), s') := by
  have hll := length_rootEntries files
  have hfound : ∃ k, ∃ hk : k < (rootEntries files).length, (rootEntries files)[k].1 = 1 ∧
      cname name = cname (rootEntries files)[k].2 ∧
      ∀ l (hll : l < (rootEntries files).length), l < k → cname name ≠ cname (rootEntries files)[l].2 := by
    rcases hname with hname | hname
    · exact ⟨0, by omega, rfl, hname, fun l _ hl0 => absurd hl0 (Nat.not_lt_zero l)⟩
    · refine ⟨1, by omega, rfl, hname, fun l _ hl1 => ?_⟩
      obtain rfl : l = 0 := by omega
      rw [hname]
      exact show dotdot ≠ dot by decide
  obtain ⟨k, hk, hone, hk', hfirst⟩ := hfound
  have hget := iget_old h.inv.uniq hl.ref
  rw [hl.inum] at hget
  rw [h.dirlookup_found hl hlen hroom hk hk' hfirst, hone, hget]
  exact ⟨_, _, rfl⟩

variable (hnames : (rootNames files).Nodup)
include hnames

theorem Shows.dirlookup_file (hk : k < files.length) (hname : cname name = cname (files[k]).skip) (hn : n.val = k + 2)
    (hno : ∀ j, 0 < (s.inode j).ref → (s.inode j).inum ≠ n) (hfree : ∃ j, (s.inode j).ref = 0) :
    ∃ ip s1, dirlookup lw s dp name = .ok (some (.ofNat 32 (16 * (k + 2)), ip), s1) ∧ (s1.inode ip).inum = k + 2 ∧
      ilock s1 ip = .ok (s.load ip n) ∧ (s.inode ip).ref = 0 := by
  have hll := length_rootEntries files
  have hk2 : k + 2 < (rootEntries files).length := by omega
  have hent : (rootEntries files)[k + 2] = (k + 2, (files[k]).skip) := by
    have := rootEntries_file hk
    rw [getElem?_eq_getElem hk2] at this
    exact Option.some.inj this
  have hk' : cname name = cname (rootEntries files)[k + 2].2 := by rw [hent]; exact hname
  have htype : (s.disk.dinode n).type = T_FILE := by
    rw [h.dinode, h.made.type, typed, if_neg (by omega), if_pos (by omega)]
  obtain ⟨ip, hip, hget⟩ := iget_new hno hfree
  refine ⟨ip, _, ?_, ?_, ilock_new ip (by rw [htype]; decide), hip⟩
  · rw [h.dirlookup_found hl hlen hroom hk2 hk' fun l hll hlk => hk' ▸ rootNames_first hnames hk2 hll hlk, hent, ← hn]
    dsimp only
    rw [hget]
    rfl
  · rw [inode_setInode_self, hn]

end Lookup

theorem Shows.readi_file (h : Shows files blk s) (hl : Live s i n) (hk : k < files.length)
    (hn : n.val = k + 2) (hmax : (files[k]).data.length ≤ MAXFILE * BSIZE) :
    (s.inode i).d.size.toNat = (files[k]).data.length ∧
      ∀ off len : BitVec 32, off.toNat ≤ (files[k]).data.length → off.toNat + len.toNat < 2 ^ 32 →
        readi lw s i off len = .ok ((readAt (files[k]).data off.toNat len.toNat).length,
          readAt (files[k]).data off.toNat len.toNat, s) := by
  have hn1 : n.val ≠ 1 := by omega
  have hhold : holding files n = (files[k]).data := by
    rw [holding, if_neg hn1, if_neg (by omega), show n.val - 2 = k by omega, getElem?_eq_getElem hk]
    rfl
  have hlength : (Fs.view s n).size.toNat = (files[k]).data.length := by rw [h.size, if_neg hn1, hhold]
  have ht : (Fs.view s n).type ≠ T_DEV := by
    rw [h.type, typed, if_neg hn1, if_pos (by omega)]
    decide
  refine ⟨by rw [← h.inv.view_live hl, hlength], fun off len hoff hover => ?_⟩
  have hcov := h.covers hn1 (by rw [hhold]; exact hmax)
  rw [readi_eq h.inv.toCore hl ht hcov.full ⟨by rw [hlength]; exact hoff, hover⟩, hlength, h.content hn1, hhold, readAt,
    length_take, length_drop]

theorem lockRoot_mkfs (devsw : Nat → Devsw) (log : L) (hlen : files.length + 2 ≤ Mkfs.NINODES) (hslash : ∀ f ∈ files, 47#8 ∉ f.name)
    (hsize : ∀ f ∈ files, f.data.length ≤ MAXFILE * BSIZE) (hroom : usedBlocks (holding files) < BSIZE * 8) :
    ∃ blk dp s, mkfs files = .ok blk ∧ lockRoot (iinit blk devsw log) = .ok (dp, s) ∧ Shows files blk s ∧
      Live s dp rootIno ∧ (∀ j, 0 < (s.inode j).ref → j = dp) ∧ ∃ j, (s.inode j).ref = 0 := by
  obtain ⟨blk, hmk, hmade⟩ := (made_mkfs hlen hslash hsize hroom).returns fun _ hf => hf.elim
  have hform := (ends_mkfs hlen).of_ok hmk
  obtain ⟨dp, hroot⟩ := lockRoot_iinit hmade hform devsw log
  have hs : Shows files blk ((iinit blk devsw log).load dp rootIno) :=
    (shows_iinit hmade hform devsw log).load (fun j hj => absurd hj (lt_irrefl 0)) rfl
  exact ⟨blk, dp, _, hmk, hroot, hs, live_load _ dp rootIno, load_root blk devsw log dp⟩

/-- For files whose names are distinct and have no `/`: the free map is exact, `dirlookup` in the root finds the files, `.` and `..`, and
nothing else, and `readi` reads their bytes. A name that is not there can make `bmap` allocate the last block of the directory. -/
theorem mkfs_readable (files : List File) (lw : LogWrite L) (devsw : Nat → Devsw) (log : L) (hlen : files.length + 2 ≤ Mkfs.NINODES)
    (hslash : ∀ f ∈ files, 47#8 ∉ f.name) (hsize : ∀ f ∈ files, f.data.length ≤ MAXFILE * BSIZE)
    (hroom : blocksNeeded files < BSIZE * 8) (hnames : (rootNames files).Nodup) :
    ∃ blk dp s, mkfs files = .ok blk ∧ lockRoot (iinit blk devsw log) = .ok (dp, s) ∧
      (∀ b, b < FSSIZE → (used blk b = true ↔ b < nmeta ∨
        ∃ (n : Inum) (x : Idx), (readDinode (blk (iblock sb n)) (n % IPB)).ref blk x = b)) ∧
      (∀ name, cname name ∉ rootNames files →
        Ends (fun e => ∃ p, e = .inode p ∧ LogFull lw p) (fun r => r.1 = none) (dirlookup lw s dp name)) ∧
      (∀ name, cname name = dot ∨ cname name = dotdot → ∃ off s', dirlookup lw s dp name = .ok (some (off, dp), s')) ∧
      ∀ k (hk : k < files.length) name, cname name = cname (files[k]).skip →
        ∃ ip s1 s2, dirlookup lw s dp name = .ok (some (.ofNat 32 (16 * (k + 2)), ip), s1) ∧
          (s1.inode ip).inum = k + 2 ∧ ilock s1 ip = .ok s2 ∧ (s2.inode ip).d.size.toNat = (files[k]).data.length ∧
          ∀ off n : BitVec 32, off.toNat ≤ (files[k]).data.length → off.toNat + n.toNat < 2 ^ 32 →
            readi lw s2 ip off n = .ok ((readAt (files[k]).data off.toNat n.toNat).length,
              readAt (files[k]).data off.toNat n.toNat, s2) := by
  rw [← usedBlocks_eq files hlen] at hroom
  obtain ⟨blk, dp, s, hmk, hroot, hs, hl, honly, hfree⟩ := lockRoot_mkfs devsw log hlen hslash hsize hroom
  refine ⟨blk, dp, s, hmk, hroot, fun b hb => used_iff_of_made hs.made hb, fun name hname => ?_,
    fun name hname => hs.dirlookup_dots hl hlen hroom hname, fun k hk name hname => ?_⟩
  · refine hs.ends_dirlookup hl hlen hroom fun l hll he => hname ?_
    rw [he]
    exact mem_of_getElem? (rootNames_get hll)
  · let n : Inum := ⟨k + 2, by omega⟩
    have hno : ∀ j, 0 < (s.inode j).ref → (s.inode j).inum ≠ n := fun j hj => by
      rw [honly j hj, hl.inum]
      exact ne_of_lt (show 1 < k + 2 by omega)
    obtain ⟨ip, s1, hlook, hinum, hlock, hip⟩ := hs.dirlookup_file hl hlen hroom hnames hk hname (n := n) rfl hno hfree
    obtain ⟨hz, hread⟩ := (hs.load hno hip).readi_file (live_load s ip n) hk rfl (hsize _ (getElem_mem hk))
    exact ⟨ip, s1, _, hlook, hinum, hlock, hz, hread⟩

def fileA : File := ⟨[95#8, 97#8], [7#8]⟩

theorem mkfs_readable_one_file :
    ∃ blk dp s ip s1 s2, mkfs [fileA] = .ok blk ∧
      lockRoot (iinit blk (fun _ => ⟨none, none⟩) ([] : List Nat)) = .ok (dp, s) ∧
      dirlookup record s dp [97#8] = .ok (some (.ofNat 32 32, ip), s1) ∧ ilock s1 ip = .ok s2 ∧
      readi record s2 ip 0 512 = .ok (1, [7#8], s2) := by
  obtain ⟨blk, dp, s, hmk, hroot, -, -, -, hfile⟩ := mkfs_readable [fileA] record (fun _ => ⟨none, none⟩) []
    (by decide) (by decide) (by decide) (by decide) (by decide)
  obtain ⟨ip, s1, s2, hlook, -, hlock, -, hread⟩ := hfile 0 (by decide) [97#8] (by decide)
  exact ⟨blk, dp, s, ip, s1, s2, hmk, hroot, hlook, hlock, hread 0 512 (by decide) (by decide)⟩

def fileDot : File := ⟨[95#8, 46#8], [7#8]⟩

/-- The file gets the entry `.` as well, and the kernel finds the root instead. -/
theorem fileDot_hidden :
    ([fileDot].map fun f => cname f.name).Nodup ∧ ∃ blk dp s off s', mkfs [fileDot] = .ok blk ∧
      lockRoot (iinit blk (fun _ => ⟨none, none⟩) ([] : List Nat)) = .ok (dp, s) ∧
      dirlookup record s dp fileDot.skip = .ok (some (off, dp), s') ∧ (s.inode dp).inum = 1 ∧
      (s.inode dp).d.size.toNat = 512 ∧ fileDot.data.length = 1 := by
  have hlen : [fileDot].length + 2 ≤ Mkfs.NINODES := by decide
  have hroom : usedBlocks (holding [fileDot]) < BSIZE * 8 := by rw [usedBlocks_eq _ hlen]; decide
  obtain ⟨blk, dp, s, hmk, hroot, hs, hl, -⟩ := lockRoot_mkfs (fun _ => ⟨none, none⟩) ([] : List Nat) hlen (by decide) (by decide) hroom
  obtain ⟨off, s', hlook⟩ := hs.dirlookup_dots hl hlen hroom (.inl (show cname fileDot.skip = dot by decide))
  refine ⟨by decide, blk, dp, s, off, s', hmk, hroot, hlook, hl.inum, ?_, rfl⟩
  rw [← hs.inv.view_live hl, hs.size, if_pos rfl, holding, if_pos rfl, length_root]
  rfl

end Xv6.Fs
