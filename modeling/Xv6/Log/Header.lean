import Xv6.Log.Theorems

/-!
# The log header (`begin_op`, `log_write`, `end_op`)

The machine keeps account of the blocks that were logged since the last commit.
-/

namespace Xv6.Log

open Xv6.Lib

structure Book where
  log : State
  /-- The blocks that were passed to `log_write` since the last commit. -/
  logged : List Nat

def Book.step (x : Book) (a : Act) : Option Book :=
  (Log.step x.log a).map fun s => ⟨s,
    match a with
    | .logAppend p => ((x.log.op p).bind Op.tested).toList ++ x.logged
    | .commit => if s.pc = none then [] else x.logged
    | _ => x.logged⟩

def BookRuns (d0 : Nat → Block) : Book → Prop := Reach (· = ⟨.boot d0, []⟩) Book.step fun _ _ => True

structure Book.Ok (x : Book) : Prop where
  wf : Wf x.log
  used : ∀ b, Using x.log.ops b → x.log.cache.Cached b
  pinned : x.log.pc = none → ∀ b ∈ x.log.lh, x.log.cache.Dirty b
  logged : x.log.pc = none → ∀ b, b ∈ x.log.lh ↔ b ∈ x.logged

variable {d0 : Nat → Block} {x x' : Book} {a : Act} {s s' : State}

theorem Wf.unused (h : Wf s) (hpc : s.pc ≠ none) (b : Nat) : ¬ Using s.ops b := by
  simp [(h.quiet hpc).1, Using]

theorem Book.Ok.step (h : x.Ok) (hst : x.step a = some x') : x'.Ok := by
  obtain ⟨s, hs, rfl⟩ := Option.map_eq_some_iff.mp hst
  have hn := (next_of_step h.wf hs).2
  have hwf := h.wf.next hn
  -- The steps of a commit leave no buffer in use.
  have hcommit (hpc : s.pc ≠ none) (l : List Nat) : Book.Ok ⟨s, l⟩ :=
    ⟨hwf, fun b hb => absurd hb (hwf.unused hpc b), fun he => absurd he hpc, fun he => absurd he hpc⟩
  cases hn with
  | beginOp => exact ⟨hwf, fun b hb => h.used b (by simpa [Using.cons] using hb), h.pinned, h.logged⟩
  | @modify p b v o l1 l2 hl hpc ht =>
    refine ⟨hwf, fun y hy => ?_, fun hc y hy => (h.pinned hc y hy).bread.modify, h.logged⟩
    by_cases he : y = b
    · exact he ▸ Cache.cached_bread.modify
    · refine (h.used y ?_).bread.modify
      rw [hl, Using.split]
      simpa [Using.split, he] using hy
  | tooBig => exact ⟨hwf, h.used, h.pinned, h.logged⟩
  | @logTest p b o l1 l2 hl hpc _ ht _ _ =>
    refine ⟨hwf, fun y hy => ?_, fun hc y hy => (h.pinned hc y hy).bread, h.logged⟩
    by_cases he : y = b
    · exact he ▸ Cache.cached_bread
    · refine (h.used y ?_).bread
      rw [hl, Using.split]
      rcases Using.split.mp hy with (hp | hb) | hu
      · exact .inl (.inl hp)
      · cases hb
        exact absurd rfl he
      · exact .inr hu
  | @logAppend p b o l1 l2 hl hpc ho ht =>
    have hb : Using x.log.ops b := by
      rw [hl, Using.split]
      exact .inl (.inr ht)
    refine ⟨hwf, fun y hy => (h.used y ?_).setDirty, fun hc y hy => ?_, fun hc y => ?_⟩
    · rw [hl, Using.split]
      rcases Using.split.mp hy with (hp | hn) | hu
      · exact .inl (.inl (List.mem_filter.mp hp).1)
      · cases hn
      · exact .inr hu
    · rcases mem_absorb.mp hy with hy | rfl
      · exact (h.pinned hc y hy).setDirty
      · exact (h.used y hb).setDirty_self
    · simp [mem_absorb, ho, ht, h.logged hc y, or_comm]
  | endOp hl _ hp ht =>
    exact ⟨hwf, fun b hb => h.used b (by rw [hl]; exact (Using.drop_op hp ht b).mpr hb), h.pinned, h.logged⟩
  | endLast | endEmpty | writeLog | writeLogDone | writeHead | install => exact hcommit (by simp) _
  | installDone | clearHead => exact hcommit (by simp) _
  | finish hpc =>
    have hnil := h.wf.cleared (.inr hpc)
    exact ⟨hwf, h.used, by simp [hnil], by simp [hnil]⟩
  | bread => exact ⟨hwf, fun b hb => (h.used b hb).bread, fun hc b hb => (h.pinned hc b hb).bread, h.logged⟩
  | @evict b y hy hd hu =>
    refine ⟨hwf, fun z hz => (h.used z hz).evict ?_, fun hc z hz => (h.pinned hc z hz).evict ?_, h.logged⟩
    · rintro rfl
      cases hu.symm.trans (inUse_iff.mpr hz)
    · rintro rfl
      obtain ⟨w, hw, hwd⟩ := h.pinned hc z hz
      cases hy.symm.trans hw
      cases hd.symm.trans hwd

theorem BookRuns.ok (h : BookRuns d0 x) : x.Ok := by
  refine Reach.inv (P := Book.Ok) ?_ (fun x a x' hi _ hst => hi.step hst) h
  rintro _ rfl
  exact ⟨wf_boot _, by simp [State.boot, Using], by simp [State.boot], by simp [State.boot]⟩

/-- The header lists distinct blocks, and while no commit runs they are those that were logged since the last one, each pinned;
`outstanding` counts the operations; a commit runs with none of them, and none begins, logs or ends before it is over. -/
theorem header_discipline (h : BookRuns d0 x) :
    x.log.lh.Nodup ∧
    (x.log.committing = false → ∀ b, (b ∈ x.log.lh ↔ b ∈ x.logged) ∧ (b ∈ x.log.lh → x.log.cache.Dirty b)) ∧
    x.log.outstanding = x.log.ops.length ∧ (x.log.ops.map Prod.fst).Nodup ∧
    (x.log.pc ≠ none → x.log.committing = true ∧ x.log.outstanding = 0) ∧
    (x.log.committing = true → ∀ p b, x.step (.beginOp p) = none ∧ x.step (.logTest p b) = none ∧ x.step (.logAppend p) = none ∧
      x.step (.endOp p) = none) ∧
    x.log.panicked ≠ some .committing := by
  have hok := h.ok
  have hflag := hok.wf.flag
  refine ⟨hok.wf.nodup, fun hc b => ?_, hok.wf.count, hok.wf.keys, fun hpc => ?_, fun hc p b => ?_, hok.wf.panics.1⟩
  · have hpc : x.log.pc = none := by simpa [hc] using hflag
    exact ⟨hok.logged hpc b, hok.pinned hpc b⟩
  · refine ⟨by simpa [Option.isSome_iff_ne_none] using hflag.trans (Option.isSome_iff_ne_none.mpr hpc), ?_⟩
    rw [hok.wf.count, (hok.wf.quiet hpc).1]
    rfl
  · have hpc : x.log.pc ≠ none := Option.isSome_iff_ne_none.mp (hflag.symm.trans hc)
    have hop : x.log.op p = none := by simp [State.op, (hok.wf.quiet hpc).1]
    simp [Book.step, Log.step, beginOp, logTest, logAppend, endOp, hop, hc]

/-- Two operations log the same block. -/
theorem header_discipline_absorbs : ∃ x, BookRuns blankDisk x ∧ x.log.lh = [100] ∧ x.logged = [100, 100] ∧ x.log.outstanding = 1 ∧
    x.log.cache.Dirty 100 := by
  obtain ⟨x, hr, hl, hg, ho, hc⟩ := Reach.of_runs
    [.beginOp 0, .beginOp 1, .logTest 0 100, .logAppend 0, .logTest 1 100, .logAppend 1, .endOp 0]
    (fun x => x.log.lh = [100] ∧ x.logged = [100, 100] ∧ x.log.outstanding = 1 ∧ x.log.committing = false)
    (Reach.init rfl : BookRuns blankDisk _) (by decide +kernel)
  exact ⟨x, hr, hl, hg, ho, ((header_discipline hr).2.1 hc 100).2 (by simp [hl])⟩

end Xv6.Log
