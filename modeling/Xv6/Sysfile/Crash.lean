import Xv6.Log.Theorems
import Xv6.Sysfile.Logged

/-!
# Crashes of the file system

The calls run over the write-ahead log, any number of whole calls in one transaction. After a crash the kernel starts again on
the disk that recovery leaves.
-/

namespace Xv6.Sysfile

open Xv6.Lib Xv6.Fs Xv6.Log
open Mkfs (Formatted)

variable {L : Type} {s : Fs.State L} {d d0 : Nat → Block} {devsw : Nat → Devsw} {t0 t : Sys (List Nat)} {xs : List Txn}

/-! ## Transactions of calls -/

/-- The calls from `t0` to `t`, in transactions `xs`. A transaction holds the blocks `bs` that its calls have passed to
`log_write`, as they are in the cache after the last call. -/
inductive Carries (t0 : Sys (List Nat)) : List Txn → Sys (List Nat) → Prop where
  | nil : Carries t0 [] t0
  | snoc {xs : List Txn} {t t' : Sys (List Nat)} {x : Txn} {bs : List Nat} : Carries t0 xs t →
      Reach (· = t) (step record) (fun t o => o.Allowed t) t' → t'.fs.disk.log = t.fs.disk.log ++ bs →
      (∀ b, applyTxn x t.fs.blk b = if b ∈ bs then t'.fs.blk b else t.fs.blk b) → Carries t0 (xs ++ [x]) t'

theorem Carries.spec (h : Carries t0 xs t) (h0 : Synced t0.fs) : Synced t.fs ∧ t.fs.blk = applyTxns xs t0.fs.blk := by
  induction h with
  | nil => exact ⟨h0, rfl⟩
  | @snoc xs t t' x bs _ hr hbs hx ih =>
    obtain ⟨hs, hblk⟩ := ih
    refine ⟨Reach.synced hs hr, ?_⟩
    obtain ⟨bs', hbs', hd⟩ := Reach.told hr
    rw [foldlM_record, hbs, Option.some.injEq, List.append_cancel_left_eq] at hbs'
    rw [applyTxns_snoc, ← hblk]
    funext b
    rw [hx b]
    split
    · rfl
    · rename_i hb
      exact hd b (hbs' ▸ hb)

theorem Carries.take (h : Carries t0 xs t) (k : Nat) : ∃ t', Carries t0 (xs.take k) t' := by
  induction h with
  | nil => exact ⟨t0, by simpa using .nil⟩
  | @snoc xs t t' x bs hc hr hbs hx ih =>
    by_cases hk : k ≤ xs.length
    · rw [List.take_append_of_le_length hk]
      exact ih
    · rw [List.take_of_length_le (by simp; omega)]
      exact ⟨t', .snoc hc hr hbs hx⟩

/-! ## A restart -/

theorem home_meta {b : Nat} (h1 : 32 ≤ b) (h2 : b < FSSIZE) : Home 2 LOGSIZE b := by
  have hl : LOGSIZE = 30 := rfl
  exact ⟨h2, by omega, by omega⟩

/-- The kernel starts on a disk whose home blocks are those of `s`. -/
structure Restarts (s : Fs.State L) (d : Nat → Block) : Prop where
  super : readsb (d 1) = Mkfs.sb
  home : ∀ b, 32 ≤ b → b < FSSIZE → d b = s.blk b

theorem Restarts.dinode (h : Restarts s d) (hs : Synced s) (n : Inum) :
    readDinode (d (iblock Mkfs.sb n)) (n % IPB) = s.disk.dinode n := by
  have hlt := iblock_lt_nmeta n
  have hge : 32 ≤ iblock Mkfs.sb n := Nat.le_add_left ..
  rw [Disk.dinode, hs.sb, h.home _ hge (lt_trans hlt (by decide))]

theorem Restarts.ref (h : Restarts s d) (hs : Synced s) :
    refOf (fun n : Inum => readDinode (d (iblock Mkfs.sb n)) (n % IPB)) d = s.ref := by
  have hv : (fun n : Inum => readDinode (d (iblock Mkfs.sb n)) (n % IPB)) = view s :=
    funext fun n => (h.dinode hs n).trans (hs.view n).symm
  rw [hv]
  refine refOf_congr fun n hn => ?_
  have hlt := (hs.owns.range (n, .inl indirect) (by rw [State.ref, refOf_inl]; exact mt toNat_eq_zero.mp hn))
  exact h.home _ (le_trans (by decide) hlt.1) hlt.2

theorem Restarts.formatted (h : Restarts s d) (hs : Synced s) : Formatted d := by
  refine ⟨h.super, ?_⟩
  rw [h.ref hs]
  refine hs.owns.mono (fun x hx hu => ?_) (by decide)
  have hmap := bblock_inMap hx
  rwa [used, h.home _ (le_trans (by decide) hmap.1) (lt_trans hmap.2 (by decide))]

variable (devsw)

theorem Restarts.view (h : Restarts s d) (hs : Synced s) (n : Inum) :
    view (iinit d devsw ([] : List Nat)) n = Fs.view s n := by
  rw [view_of_not_live fun i hl => lt_irrefl 0 hl.ref, hs.view, ← h.dinode hs, Disk.dinode, ← h.super]
  rfl

theorem Restarts.bytes (h : Restarts s d) (hs : Synced s) (n : Inum) :
    dataRef (iinit d devsw ([] : List Nat)) n = dataRef s n ∧ byteAt (iinit d devsw ([] : List Nat)) n = byteAt s n := by
  have href : (iinit d devsw ([] : List Nat)).ref = s.ref := by
    rw [← h.ref hs, State.ref]
    exact congrArg (refOf · d) (funext fun n => (h.view devsw hs n).trans ((hs.view n).trans (h.dinode hs n).symm))
  have hr : dataRef (iinit d devsw ([] : List Nat)) n = dataRef s n := by
    funext k
    simp only [dataRef, blockOf, href]
  refine ⟨hr, funext fun k => ?_⟩
  rw [byteAt_eq, byteAt_eq, hr]
  split
  · rfl
  · rename_i hz
    obtain ⟨hk, he⟩ := dataRef_pos hz
    have hlt := hs.owns.range _ (he ▸ hz)
    rw [← he] at hlt
    exact congrArg (Bytes.get · _) (h.home _ (le_trans (by decide) hlt.1) hlt.2)

theorem Restarts.whole (h : Restarts s d) (hs : Synced s) : Whole (iinit d devsw ([] : List Nat)) := by
  refine ⟨fun n bn hbn => ?_, fun n ht => ?_⟩
  · rw [h.view devsw hs] at hbn
    rw [(h.bytes devsw hs n).1]
    exact hs.full n bn hbn
  · rw [h.view devsw hs] at ht ⊢
    rw [(h.bytes devsw hs n).2]
    exact hs.names n ht

variable {devsw} {m : Log.State}

/-! ## Crash consistency -/

/-- The machine stops at any point of a run whose transactions fit into the log, and restarts as often as it likes. The file
system that the kernel then finds is sound, so that the same holds again for the calls that follow, and it is the one after the
calls of the first `k` transactions: no inode and no byte of a file tells the difference. Every transaction whose commit has
returned is among them. -/
theorem crash_consistency (hf : Formatted d0) (hw : Whole (iinit d0 devsw ([] : List Nat))) (hd : header d0 = [])
    (h0 : t0.fs = iinit d0 devsw []) (hm : Log.Runs d0 m) (hc : Carries t0 m.txns t) :
    (∃ d, Recovers m.cache.disk d) ∧
    ∀ d, Recovers m.cache.disk d → Formatted d ∧ Whole (iinit d devsw ([] : List Nat)) ∧ header d = [] ∧
      ∃ k t', m.returned ≤ k ∧ k ≤ m.txns.length ∧ Carries t0 (m.txns.take k) t' ∧
        ∀ n, view (iinit d devsw ([] : List Nat)) n = view t'.fs n ∧ content (iinit d devsw ([] : List Nat)) n = content t'.fs n := by
  have hlog : logstart d0 = 2 := by rw [logstart, hf.super]; rfl
  have hlen : nlog d0 = LOGSIZE := by rw [Log.nlog, hf.super]; rfl
  obtain ⟨hwf, hinv⟩ := hm.crashInv (by rw [hlen]; decide) (by rw [hlen]) (by rw [hlog]) hd
  obtain ⟨hok, k, hk1, hk2, hk⟩ := hinv.crash hwf
  obtain ⟨n, hn⟩ := recover_returns m.cache.disk
  refine ⟨⟨_, .returns hn⟩, fun d hrec => ?_⟩
  obtain ⟨hsb, hnil, hspec⟩ := hrec.spec hok
  obtain ⟨t', ht'⟩ := hc.take k
  have hs0 : Synced t0.fs := by
    rw [h0]
    exact synced_of_unused (inv_iinit hf devsw []) hw fun _ => rfl
  obtain ⟨hs, hblk⟩ := ht'.spec hs0
  have hr : Restarts t'.fs d := by
    refine ⟨?_, fun b hb hlt => ?_⟩
    · rw [hsb, hinv.geometry.superblock, hf.super]
    · have hhome : Home m.start m.size b := by
        rw [hinv.geometry.startEq, hinv.geometry.sizeEq, hlog, hlen]
        exact home_meta hb hlt
      rw [hspec b (by rw [hinv.geometry.logstart_eq, hinv.geometry.nlog_eq]; exact hhome), hk b hhome, hblk, h0]
      rfl
  refine ⟨hr.formatted hs, hr.whole devsw hs, hnil, k, t', hk1, hk2, ht', fun n => ⟨hr.view devsw hs n, ?_⟩⟩
  rw [content, content, hr.view devsw hs, (hr.bytes devsw hs n).2]

theorem header_emptyImage : header emptyImage = [] := by
  have hword : (emptyImage (logstart emptyImage)).word 0 = 0 := by decide +kernel
  simp [header, decodeHead, hword]

theorem runs_one (hs : logstart d0 = 2) (hn : nlog d0 = LOGSIZE) (v : Block) :
    ∃ m, Log.Runs d0 m ∧ m.txns = [[(32, v)]] ∧ m.returned = 0 := by
  have h0 : Log.Runs d0 (.boot d0) := .init rfl
  obtain ⟨m, hm, hx, hr⟩ : ∃ m, Lib.runs Log.step FitsLog (.boot d0)
      [.beginOp 0, .modify 0 32 v, .logTest 0 32, .logAppend 0, .endOp 0] = some m ∧ m.txns = [[(32, v)]] ∧ m.returned = 0 := by
    simp [Lib.runs, Log.step, FitsLog, Log.beginOp, modifyBuf, logTest, logAppend, Log.endOp, State.boot, State.op, State.setOp,
      Home, hs, hn, LOGSIZE, MAXOPBLOCKS, FSSIZE, Assoc.put, Assoc.del, absorb]
  exact ⟨m, Reach.runs h0 hm, hx, hr⟩

/-- The machine stops when the commit of a new inode begins. -/
theorem crash_consistency_new_inode : ∃ m t, Log.Runs emptyImage m ∧ m.txns.length = 1 ∧ Carries started m.txns t ∧
    ∀ d, Recovers m.cache.disk d → ∃ k ≤ 1, ∃ t', Carries started (m.txns.take k) t' ∧
      ∀ n, view (iinit d (fun _ => ⟨none, none⟩) ([] : List Nat)) n = view t'.fs n := by
  obtain ⟨t, ht, hlog⟩ := Reach.of_runs [Op.call (.ialloc T_FILE)] (fun t => t.fs.disk.log = [32])
    (show Reach (· = started) (step record) (fun t o => o.Allowed t) started from .init rfl) (by decide +kernel)
  have hf := formatted_emptyImage
  obtain ⟨m, hm, hx, -⟩ := runs_one (by rw [logstart, hf.super]; rfl) (by rw [Log.nlog, hf.super]; rfl) (t.fs.blk 32)
  have hc : Carries started m.txns t := by
    rw [hx]
    change Carries started ([] ++ [_]) t
    refine .snoc .nil ht (show _ = started.fs.disk.log ++ [32] from hlog) fun b => ?_
    by_cases hb : b = 32
    · subst hb
      simp [applyTxn]
    · simp [applyTxn, hb]
  refine ⟨m, t, hm, by rw [hx]; rfl, hc, fun d hd => ?_⟩
  obtain ⟨_, _, _, k, t', _, hk, ht', hv⟩ := (crash_consistency hf whole_started header_emptyImage rfl hm hc).2 d hd
  rw [hx] at hk
  exact ⟨k, hk, t', ht', fun n => (hv n).1⟩

end Xv6.Sysfile
