import Xv6.Lib.Trans
import Xv6.Log.Lemmas.Crash
import Xv6.Log.Lemmas.Reserve

/-! # Theorems about the log -/

namespace Xv6.Log

open Xv6.Lib List

def Runs (d0 : Nat → Block) : State → Prop := Reach (· = State.boot d0) step FitsLog

variable {d0 : Nat → Block} {s : State}

/-! ## Crash atomicity -/

theorem Runs.crashInv (hs : 0 < nlog d0) (hle : nlog d0 ≤ LOGSIZE) (ha : 2 ≤ logstart d0) (hd : header d0 = [])
    (h : Runs d0 s) : Wf s ∧ CrashInv d0 s := by
  refine Reach.inv (P := fun s => Wf s ∧ CrashInv d0 s) ?_ ?_ h
  · rintro _ rfl; exact ⟨wf_boot _, crashInv_boot hs hle ha hd⟩
  · rintro s a s' ⟨hwf, hc⟩ hok hst
    have hn := (next_of_step hwf hst).2
    exact ⟨hwf.next hn, hc.next hwf hok hn⟩

/-- The machine stops in any state `s` of any run, and recovery is crashed and restarted any number of times. In the end the home blocks
are those after the first `k` transactions, `k` covering every transaction whose `commit()` has returned, and the log is empty. -/
theorem crash_atomicity (hs : 0 < nlog d0) (hle : nlog d0 ≤ LOGSIZE) (ha : 2 ≤ logstart d0) (hd : header d0 = []) (h : Runs d0 s) :
    (∃ d, Recovers s.cache.disk d) ∧
    ∀ d, Recovers s.cache.disk d → d 1 = d0 1 ∧ header d = [] ∧
      ∃ k, s.returned ≤ k ∧ k ≤ s.txns.length ∧
        ∀ b, Home (logstart d0) (nlog d0) b → d b = applyTxns (s.txns.take k) d0 b := by
  obtain ⟨hwf, hinv⟩ := h.crashInv hs hle ha hd
  obtain ⟨hok, k, hk1, hk2, hk⟩ := hinv.crash hwf
  obtain ⟨n, hn⟩ := recover_returns s.cache.disk
  refine ⟨⟨_, .returns hn⟩, fun d hrec => ?_⟩
  obtain ⟨hsb, hnil, hspec⟩ := hrec.spec hok
  rw [hinv.geometry.logstart_eq, hinv.geometry.nlog_eq] at hspec
  rw [← hinv.geometry.startEq, ← hinv.geometry.sizeEq]
  exact ⟨hsb.trans hinv.geometry.superblock, hnil, k, hk1, hk2, fun b hb => by rw [hspec b hb, hk b hb]⟩

def blankDisk : Nat → Block := fun b =>
  if b = 1 then ((Bytes.fill BSIZE 0#8).setWord 12 (.ofNat 32 LOGSIZE)).setWord 16 2#32 else Bytes.fill BSIZE 0#8

@[simp] theorem nlog_blankDisk : nlog blankDisk = LOGSIZE := by decide

@[simp] theorem logstart_blankDisk : logstart blankDisk = 2 := by decide

theorem header_blankDisk : header blankDisk = [] := by
  simp [header, blankDisk, decodeHead]

/-- The machine stops while the header of its first transaction is on its way to disk. -/
theorem crash_atomicity_in_commit :
    ∃ s, Runs blankDisk s ∧ s.pc = some .writeHead ∧ s.returned = 0 ∧ s.txns.length = 1 ∧
      ∀ d, Recovers s.cache.disk d → ∃ k ≤ 1, ∀ b, Home 2 LOGSIZE b →
        d b = applyTxns (s.txns.take k) blankDisk b := by
  have h0 : Runs blankDisk (.boot blankDisk) := .init rfl
  obtain ⟨s, hs, hpc, hret, htx⟩ := Reach.of_runs
    [.beginOp 7, .modify 7 100 (Bytes.fill BSIZE 1), .logTest 7 100, .logAppend 7, .endOp 7, .commit, .commit]
    (fun s => s.pc = some .writeHead ∧ s.returned = 0 ∧ s.txns.length = 1) h0 (by decide)
  refine ⟨s, hs, hpc, hret, htx, fun d hd => ?_⟩
  obtain ⟨_, _, k, _, hk, hb⟩ :=
    (crash_atomicity (by simp; decide) (by simp) (by simp) header_blankDisk hs).2 d hd
  simp only [logstart_blankDisk, nlog_blankDisk] at hb
  exact ⟨k, htx ▸ hk, hb⟩

/-! ## Reservation -/

def BudgetRuns (d0 : Nat → Block) (ok : State → Act → Prop) : State → Prop :=
  Reach (· = State.boot d0) step fun s a => Budget s a ∧ ok s a

/-- As long as operations are admitted with room for them in the log area, none of them meets a full log, and every block that
`write_log` writes is in the log area. -/
theorem reservation_sound (hz : nlog d0 = LOGSIZE) (h : BudgetRuns d0 Room s) :
    s.panicked ≠ some .tooBig ∧ ∀ t s' b, s.pc = some (.writeLog t) → step s .commit = some s' →
      s'.cache.disk b ≠ s.cache.disk b → logstart d0 ≤ b ∧ b < logstart d0 + nlog d0 := by
  have hinv : Wf s ∧ ReserveInv d0 s := by
    refine Reach.inv (P := fun s => Wf s ∧ ReserveInv d0 s) ?_ ?_ h
    · rintro _ rfl; exact ⟨wf_boot _, reserveInv_boot (by rw [hz]; decide)⟩
    · rintro s a s' ⟨hwf, hr⟩ hok hst
      have hn := (next_of_step hwf hst).2
      exact ⟨hwf.next hn, hr.next hz.le hwf hok hn⟩
  exact ⟨hinv.2.panic, fun t s' b hpc hst hb => hinv.2.written hpc hst hb⟩

def logWrites (p : Nat) (bs : List Nat) : List Act := bs.flatMap fun b => [.logTest p b, .logAppend p]

/-- Two operations, and the commit of their blocks as far as the second one. -/
theorem reservation_sound_two_ops :
    ∃ s s', BudgetRuns blankDisk Room s ∧ s.lh.length = 11 ∧ s.pc = some (.writeLog 1) ∧ step s .commit = some s' ∧
      ∀ b, s'.cache.disk b ≠ s.cache.disk b → 2 ≤ b ∧ b < 32 := by
  have h0 : BudgetRuns blankDisk Room (.boot blankDisk) := .init rfl
  obtain ⟨s, hs, hlh, hpc, hpan⟩ := Reach.of_runs
    (.beginOp 0 :: .beginOp 1 :: (logWrites 0 (range' 100 10) ++ logWrites 1 [109, 110] ++ [.endOp 0, .endOp 1, .commit]))
    (fun s => s.lh.length = 11 ∧ s.pc = some (.writeLog 1) ∧ s.panicked = none) h0 (by decide)
  obtain ⟨s', hst⟩ : ∃ s', step s .commit = some s' := by
    rw [step, if_pos hpan]
    simp only [commit, hpc, hlh]
    exact ⟨_, rfl⟩
  refine ⟨s, s', hs, hlh, hpc, hst, fun b hb => ?_⟩
  simpa [LOGSIZE, MAXOPBLOCKS] using (reservation_sound nlog_blankDisk hs).2 1 s' b hpc hst hb

set_option maxRecDepth 4000 in
/-- Three operations within their budgets: the last `log_write` of the third one panics. -/
theorem reservation_overflows : ¬ ∀ s, BudgetRuns blankDisk (fun _ _ => True) s → s.panicked ≠ some .tooBig := by
  intro hall
  have h0 : BudgetRuns blankDisk (fun _ _ => True) (.boot blankDisk) := .init rfl
  obtain ⟨s, hs, hp⟩ := Reach.of_runs
    ([.beginOp 0, .beginOp 1, .beginOp 2] ++ logWrites 0 (range' 100 10) ++ logWrites 1 (range' 110 10) ++
      logWrites 2 (range' 120 9) ++ [.logTest 2 129])
    (fun s => s.panicked = some .tooBig) h0 (by decide)
  exact hall s hs hp

end Xv6.Log
