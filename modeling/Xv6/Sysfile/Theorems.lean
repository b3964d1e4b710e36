import Xv6.Fs.Boot
import Xv6.Lib.Trans
import Xv6.Sysfile.Lemmas.Update

/-! # Theorems about the system calls -/

namespace Xv6.Sysfile

open Xv6.Lib Xv6.Fs Mkfs Triple Multiset
open Xv6.Dir (Str)
open Xv6.Ptable (Slot)

variable {L : Type} {lw : LogWrite L} {t t0 : Sys L}

/-! ## Write-through -/

/-- A call of the inode layer, or one that is made of such calls. -/
inductive Op where
  | call (c : Fs.Call)
  | dirlink (dp : Fin NINODE) (name : Str) (inum : Nat)
  | create (p : Slot) (path : Str) (type major minor : BitVec 16)
  | link (p : Slot) (old new : Option Str)
  | unlink (p : Slot) (path : Option Str)

def Op.cmd (lw : LogWrite L) : Op → SysM L Unit
  | .call c => onFs (inode fun s => return ((), ← Fs.exec lw s c))
  | .dirlink dp name inum => do let _ ← onFs (Sysfile.dirlink lw dp name inum)
  | .create p path type major minor => do
    let cwd ← getCwd p
    let _ ← onFs (Sysfile.create lw cwd path type major minor)
  | .link p old new => do let _ ← sysLink lw p old new
  | .unlink p path => do let _ ← sysUnlink lw p path

/-- The caller has the references that the call needs. Only `readi` and `writei` call `bmap`. -/
def Op.Allowed (t : Sys L) : Op → Prop
  | .call (.bmap _ _) => False
  | .call (.writei i src off n) =>
    (Fs.Call.writei i src off n).Allowed t.fs ∧ WritesNames t.fs i src off n
  | .call c => c.Allowed t.fs
  | .dirlink dp _ inum => 0 < (t.fs.inode dp).ref ∧ (t.fs.inode dp).valid = true ∧ inum < Mkfs.NINODES
  | .create p _ _ _ _ | .link p _ _ | .unlink p _ => 0 < (t.fs.inode (t.cwd p)).ref

def step (lw : LogWrite L) (t : Sys L) (o : Op) : Option (Sys L) := ((o.cmd lw t).toOption).map Prod.snd

theorem is_base {s : Fs.State L} (h : Synced s) : Is (fun i => (s.inode i).ref) 0 0 s :=
  ⟨h, fun _ => rfl, le_rfl, fun i hi => absurd hi (notMem_zero i)⟩

theorem is_locked {s : Fs.State L} {i : Fin NINODE} (h : Synced s) (hr : 0 < (s.inode i).ref)
    (hv : (s.inode i).valid = true) : Is (fun j => (s.inode j).ref - count j {i}) {i} {i} s := by
  refine ⟨h, fun j => ?_, le_rfl, fun j hj => ?_⟩
  · by_cases hj : j = i
    · subst hj
      simp only [count_singleton_self]
      omega
    · simp [hj]
  · rw [mem_singleton] at hj
    rw [hj]
    exact hv

theorem on_self {A : Fs.State L → Prop} (h : A t.fs) (t' : Sys L) (he : t' = t) : On t t.outstanding A t' := by
  subst he
  exact ⟨h, rfl⟩

theorem Op.spec (o : Op) (h : Synced t.fs) (ho : o.Allowed t) : Triple (· = t) (o.cmd lw) fun _ t' => Synced t'.fs := by
  have hbase := on_self (is_base h)
  cases o with
  | call c =>
    have hexec : Ends Any Synced (Fs.exec lw t.fs c) := by
      cases c with
      | bmap i bn => exact ho.elim
      | writei i src off n =>
        refine h.exec ho.1 (fun _ _ => Fs.Call.noConfusion) fun i' src' off' n' he => ?_
        cases he
        exact ho.2
      | _ => exact h.exec ho (fun _ _ => Fs.Call.noConfusion) fun _ _ _ _ => Fs.Call.noConfusion
    have hx : Triple (· = t.fs) (inode fun s => return ((), ← Fs.exec lw s c)) fun _ => Synced := by
      refine Triple.inode ?_
      rintro _ rfl
      exact hexec.bind fun _ hs => hs
    exact (onFs_spec hx).mono (on_self rfl) fun _ _ hr => hr.1
  | dirlink dp name inum =>
    rw [Op.cmd]
    have hpre := on_self (is_locked h ho.1 ho.2.1)
    refine ((onFs_spec (dirlink_spec (mem_singleton_self dp) name ho.2.2)).pre hpre).bind fun _ => ?_
    exact ret fun _ hr => hr.1.1
  | create p path type major minor =>
    rw [Op.cmd]
    refine ((getCwd_spec p).pre hbase).bind fun c => of_and ?_
    rintro rfl
    refine (onFs_spec (create_spec ho le_rfl path type major minor)).bind fun r => ret fun t' hr => ?_
    cases r with
    | none => exact hr.1.1
    | some ip => exact hr.1.1
  | link p old new =>
    rw [Op.cmd]
    exact ((sysLink_spec ho old new).pre hbase).bind fun _ => ret fun _ hr => hr.1.1
  | unlink p path =>
    rw [Op.cmd]
    exact ((sysUnlink_spec ho path).pre hbase).bind fun _ => ret fun _ hr => hr.1.1

theorem Reach.synced (h0 : Synced t0.fs) (h : Reach (· = t0) (step lw) (fun t o => o.Allowed t) t) : Synced t.fs := by
  refine Reach.inv (P := fun t => Synced t.fs) ?_ ?_ h
  · rintro _ rfl
    exact h0
  · intro t o t' ht ho hst
    simp only [step, Option.map_eq_some_iff] at hst
    obtain ⟨r, hr, rfl⟩ := hst
    cases he : o.cmd lw t with
    | ok a =>
      rw [he] at hr
      cases hr
      exact (o.spec ht ho).of_ok rfl he
    | error e =>
      rw [he] at hr
      cases hr

/-- An entry of the inode cache that is in use and valid holds what is on disk. If its reference is dropped and the inode is not freed,
then reading the inode again gives the same. -/
theorem cache_written_through {blk : Nat → Block} {devsw : Nat → Devsw} {log : L} (hf : Mkfs.Formatted blk)
    (hw : Whole (iinit blk devsw log)) (h0 : t0.fs = iinit blk devsw log) (h : Reach (· = t0) (step lw) (fun t o => o.Allowed t) t)
    {i : Fin NINODE} {n : Inum} (hl : Live t.fs i n) :
    (t.fs.inode i).d = t.fs.disk.dinode n ∧
    ∀ s1 s2 s3 j, ¬ Frees t.fs i → Fs.iput lw t.fs i = .ok s1 → Fs.iget s1 n = .ok (j, s2) → Fs.ilock s2 j = .ok s3 →
      (s3.inode j).d = (t.fs.inode i).d := by
  have hs : Synced t.fs := by
    refine Reach.synced ?_ h
    rw [h0]
    exact synced_of_unused (inv_iinit hf devsw log) hw fun _ => rfl
  refine ⟨hs.same i n hl, fun s1 s2 s3 j hn h1 h2 h3 => ?_⟩
  obtain ⟨hs1, hd1⟩ := (hs.iput hl.ref).of_ok h1
  have hg := (gets_iget s1 n).of_ok h2
  have hk := (locks_ilock s2 j).of_ok h3
  have hs3 := (hs1.gets n.isLt hg).locks hk
  have hdisk : s3.disk = t.fs.disk := by
    rw [hk.disk, hg.disk, hd1.keep hn]
    rfl
  rw [hs3.same j n (hk.live hg.inum.2), hdisk, hs.same i n hl]

/-- An image of `mkfs` is whole unless the entries of the root directory fill its blocks: then its size counts one more
block, which is not there. -/
theorem whole_mkfs {files : List Mkfs.File} {blk : Nat → Block} {s : Fs.State L} (h : Shows files blk s)
    (hlen : files.length + 2 ≤ Mkfs.NINODES) (hsize : ∀ f ∈ files, f.data.length ≤ MAXFILE * BSIZE)
    (hroot : 16 * (files.length + 2) % BSIZE ≠ 0) : Whole s := by
  have hN : Mkfs.NINODES = 200 := rfl
  have hhold : holding files rootIno = (rootEntries files).flatMap fun e => tabulate 16 (dirent e.1 e.2) :=
    if_pos rfl
  have hlength : (holding files rootIno).length = 16 * (files.length + 2) := by
    rw [hhold]
    exact length_root files
  refine ⟨fun n bn hbn => ?_, fun n ht off hoff _ => ?_⟩
  · by_cases hn : n.val = 1
    · obtain rfl : n = rootIno := Fin.ext hn
      rw [h.size, if_pos rfl, hlength] at hbn
      have hlt : bn * BSIZE < 16 * (files.length + 2) := by
        simp only [BSIZE] at hbn hroot ⊢
        omega
      refine (h.blocks rootIno ?_).mpr (by rw [hlength]; exact hlt)
      simp only [BSIZE, MAXFILE, NDIRECT, NINDIRECT] at hlt ⊢
      omega
    · refine (h.covers hn ?_).full bn hbn
      rw [holding, if_neg hn]
      split
      · exact Nat.zero_le _
      · cases hf : files[n.val - 2]? with
        | none => exact Nat.zero_le _
        | some f => exact hsize f (List.mem_of_getElem? hf)
  · have hn : n.val = 1 := by
      by_contra hn
      rw [h.type, typed, if_neg hn] at ht
      split at ht
      all_goals exact absurd ht (by decide)
    obtain rfl : n = rootIno := Fin.ext hn
    have hbyte : byteAt s rootIno = rootByte files := by
      funext q
      rw [h.byte, hhold]
    obtain ⟨k, rfl⟩ := Nat.dvd_of_mod_eq_zero hoff
    rw [hbyte]
    by_cases hk : k < (rootEntries files).length
    · have hin := inum_root_lt hlen hk
      rw [slot_root hk hin, BitVec.toNat_ofNat, Nat.mod_eq_of_lt hin]
      exact (inum_root hlen hk).2
    · rw [slot_past (le_of_not_gt hk)]
      decide

instance (s : Fs.State L) (i : Fin NINODE) (src : Nat → BitVec 8) (off n : BitVec 32) :
    Decidable (WritesNames s i src off n) := by
  unfold WritesNames
  infer_instance

instance (t : Sys L) (o : Op) : Decidable (o.Allowed t) := by
  unfold Op.Allowed
  split <;> infer_instance

def started : Sys (List Nat) where
  fs := iinit emptyImage (fun _ => ⟨none, none⟩) []
  outstanding := 0
  cwd _ := entry0

theorem formatted_emptyImage : Mkfs.Formatted emptyImage :=
  (ends_mkfs (show ([] : List Mkfs.File).length + 2 ≤ Mkfs.NINODES by decide)).of_ok mkfs_nil

theorem whole_started : Whole started.fs := by
  have hlen : ([] : List Mkfs.File).length + 2 ≤ Mkfs.NINODES := by decide
  have hroom : usedBlocks (holding []) < BSIZE * 8 := by rw [usedBlocks_eq _ hlen]; decide
  have hmade := (made_mkfs hlen (by simp) (by simp) hroom).of_ok mkfs_nil
  exact whole_mkfs (shows_iinit hmade formatted_emptyImage _ _) hlen (by simp) (by decide)

theorem synced_started : Synced started.fs :=
  synced_of_unused (inv_iinit formatted_emptyImage _ _) whole_started fun _ => rfl

/-- A new file with five bytes. -/
theorem cache_written_through_new_file :
    ∃ t, Reach (· = started) (step record) (fun t o => o.Allowed t) t ∧ Live t.fs entry0 inode2 ∧
      (t.fs.inode entry0).d.size = 5 ∧ (t.fs.inode entry0).d = t.fs.disk.dinode inode2 := by
  have hstart : Reach (· = started) (step record) (fun t o => Op.Allowed t o) started := .init rfl
  obtain ⟨t, ht, hl, hz⟩ := Reach.of_runs (fiveBytes.map Op.call)
    (fun t => Live t.fs entry0 inode2 ∧ (t.fs.inode entry0).d.size = 5) hstart (by decide +kernel)
  exact ⟨t, ht, hl, hz, (cache_written_through formatted_emptyImage whole_started rfl ht hl).1⟩

end Xv6.Sysfile
