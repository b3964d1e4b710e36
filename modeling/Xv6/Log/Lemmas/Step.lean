import Xv6.Log.Model

/-!
# What one action of the log does

`Next` lists everything an action can do to a well-formed log state, guards included.
-/

namespace Xv6.Log

open Xv6.Lib List Assoc

/-! ## Well-formed states -/

/-- Log states the code can be in, whatever the operations do. -/
structure Wf (s : State) : Prop where
  keys : (s.ops.map Prod.fst).Nodup
  count : s.outstanding = s.ops.length
  flag : s.committing = s.pc.isSome
  /-- `commit()` runs with no operation in progress. -/
  quiet : s.pc ≠ none → s.ops = [] ∧ s.cur = []
  nodup : s.lh.Nodup
  cleared : s.pc = some .clearHead ∨ s.pc = some .returned → s.lh = []
  panics : s.panicked ≠ some .committing ∧ s.panicked ≠ some .outsideTrans

/-! ## The actions -/

inductive Next (s : State) : Act → State → Prop where
  | beginOp {p} : p ∉ s.ops.map Prod.fst → s.pc = none →
      s.lh.length + (s.outstanding + 1) * MAXOPBLOCKS ≤ LOGSIZE →
      Next s (.beginOp p) { s with outstanding := s.outstanding + 1, ops := (p, ⟨[], none, []⟩) :: s.ops }
  | modify {p b v o l1 l2} : s.ops = l1 ++ (p, o) :: l2 → s.pc = none → o.tested = none →
      Next s (.modify p b v) { s with
        ops := l1 ++ (p, { o with pend := b :: o.pend }) :: l2
        cache := (s.cache.bread b).modify b v, cur := s.cur ++ [(b, v)] }
  | tooBig {p b o l1 l2} : s.ops = l1 ++ (p, o) :: l2 → s.lh.length ≥ LOGSIZE ∨ s.lh.length ≥ s.size - 1 →
      Next s (.logTest p b) { s with panicked := some .tooBig }
  | logTest {p b o l1 l2} : s.ops = l1 ++ (p, o) :: l2 → s.pc = none → s.op p = some o → o.tested = none →
      s.lh.length < LOGSIZE → s.lh.length < s.size - 1 →
      Next s (.logTest p b) { s with ops := l1 ++ (p, { o with tested := some b }) :: l2, cache := s.cache.bread b }
  | logAppend {p b o l1 l2} : s.ops = l1 ++ (p, o) :: l2 → s.pc = none → s.op p = some o → o.tested = some b →
      Next s (.logAppend p) { s with
        ops := l1 ++ (p, { pend := o.pend.filter (· ≠ b), tested := none, wrote := absorb o.wrote b }) :: l2
        cache := s.cache.setDirty b, lh := absorb s.lh b }
  | endOp {p o l1 l2} : s.ops = l1 ++ (p, o) :: l2 → s.pc = none → o.pend = [] → o.tested = none →
      l1 ++ l2 ≠ [] → Next s (.endOp p) { s with outstanding := s.outstanding - 1, ops := l1 ++ l2 }
  | endLast {p o} : s.ops = [(p, o)] → s.pc = none → o.pend = [] → o.tested = none → s.lh ≠ [] →
      Next s (.endOp p) { s with
        outstanding := 0, ops := [], committing := true, txns := s.txns ++ [s.cur], cur := []
        pc := some (.writeLog 0) }
  | endEmpty {p o} : s.ops = [(p, o)] → s.pc = none → o.pend = [] → o.tested = none → s.lh = [] →
      Next s (.endOp p) { s with
        outstanding := 0, ops := [], committing := true, txns := s.txns ++ [s.cur], cur := []
        pc := some .returned, returned := s.returned + 1 }
  | writeLog {t} : s.pc = some (.writeLog t) → t < s.lh.length →
      Next s .commit { s with cache := writeLog1 s.cache s.start s.lh t, pc := some (.writeLog (t + 1)) }
  | writeLogDone {t} : s.pc = some (.writeLog t) → s.lh.length ≤ t → Next s .commit { s with pc := some .writeHead }
  | writeHead : s.pc = some .writeHead →
      Next s .commit { s with cache := writeHead s.cache s.start s.lh, pc := some (.install 0) }
  | install {t} : s.pc = some (.install t) → t < s.lh.length →
      Next s .commit { s with cache := installTrans1 s.cache s.start s.lh t, pc := some (.install (t + 1)) }
  | installDone {t} : s.pc = some (.install t) → s.lh.length ≤ t →
      Next s .commit { s with lh := [], pc := some .clearHead }
  | clearHead : s.pc = some .clearHead →
      Next s .commit { s with
        cache := Log.writeHead s.cache s.start s.lh, pc := some .returned, returned := s.returned + 1 }
  | finish : s.pc = some .returned → Next s .commit { s with committing := false, pc := none }
  | bread {b} : Next s (.bread b) { s with cache := s.cache.bread b }
  | evict {b x} : s.cache.buf b = some x → x.dirty = false → s.inUse b = false →
      Next s (.evict b) { s with cache := s.cache.evict b }

variable {s s' : State} {a : Act} {p b : Nat}

theorem Wf.pc_none (h : Wf s) {o : Op} {l1 l2 : List (Nat × Op)} (hl : s.ops = l1 ++ (p, o) :: l2) : s.pc = none := by
  by_contra hpc
  have := (h.quiet hpc).1
  rw [hl] at this
  simp at this

theorem next_beginOp (h : Wf s) (hst : beginOp s p = some s') : Next s (.beginOp p) s' := by
  unfold beginOp at hst
  split at hst
  · rename_i hop
    split at hst
    · cases hst
    · rename_i hc
      obtain ⟨hroom, hst⟩ := Option.ite_none_left_eq_some.mp hst
      cases hst
      refine .beginOp (lookup_none hop) ?_ (by omega)
      rw [h.flag] at hc
      simpa using hc
  · cases hst

theorem next_modify (h : Wf s) {v : Block} (hst : modifyBuf s p b v = some s') : Next s (.modify p b v) s' := by
  unfold modifyBuf at hst
  split at hst
  · rename_i o ho
    obtain ⟨l1, l2, hl, h1, h2⟩ := split h.keys ho
    obtain ⟨ht, hst⟩ := Option.ite_none_right_eq_some.mp hst
    cases hst
    simpa only [State.setOp, hl, put_split h1 h2] using
      Next.modify (b := b) (v := v) hl (h.pc_none hl) ht
  · cases hst

theorem next_logTest (h : Wf s) (hst : logTest s p b = some s') : Next s (.logTest p b) s' := by
  unfold logTest at hst
  split at hst
  · rename_i o ho
    obtain ⟨l1, l2, hl, h1, h2⟩ := split h.keys ho
    obtain ⟨ht, hst⟩ := Option.ite_none_right_eq_some.mp hst
    split at hst
    · rename_i hbig
      cases hst
      exact .tooBig hl hbig
    · rename_i hfit
      split at hst
      · rename_i hout
        rw [h.count, hl] at hout
        simp at hout
      · cases hst
        simp only [not_or, ge_iff_le, not_le] at hfit
        simpa only [State.setOp, hl, put_split h1 h2] using
          Next.logTest (b := b) hl (h.pc_none hl) ho ht hfit.1 hfit.2
  · cases hst

theorem next_logAppend (h : Wf s) (hst : logAppend s p = some s') : Next s (.logAppend p) s' := by
  unfold logAppend at hst
  split at hst
  · rename_i o ho
    obtain ⟨l1, l2, hl, h1, h2⟩ := split h.keys ho
    split at hst
    · rename_i b ht
      cases hst
      simpa only [State.setOp, hl, put_split h1 h2] using Next.logAppend hl (h.pc_none hl) ho ht
    · cases hst
  · cases hst

theorem next_endOp (h : Wf s) (hst : endOp s p = some s') : Next s (.endOp p) s' := by
  unfold endOp at hst
  split at hst
  · rename_i o ho
    obtain ⟨l1, l2, hl, h1, h2⟩ := split h.keys ho
    have hpc := h.pc_none hl
    have hcom : s.committing = false := by rw [h.flag, hpc]; rfl
    have hcount : s.outstanding - 1 = (l1 ++ l2).length := by
      rw [h.count, hl]; simp only [length_append, length_cons]; omega
    obtain ⟨hp, hst⟩ := Option.ite_none_right_eq_some.mp hst
    simp only [hcom, Bool.false_eq_true, if_false] at hst
    rw [hl, del_split h1 h2, hcount] at hst
    by_cases hlast : l1 ++ l2 = []
    · obtain ⟨rfl, rfl⟩ := append_eq_nil_iff.mp hlast
      simp only [append_nil, length_nil, if_true] at hst
      split at hst
      · cases hst
        exact .endLast hl hpc hp.1 hp.2 (by rintro he; simp_all)
      · cases hst
        exact .endEmpty hl hpc hp.1 hp.2 (length_eq_zero_iff.mp (by omega))
    · have hne : (l1 ++ l2).length ≠ 0 := fun he => hlast (length_eq_zero_iff.mp he)
      simp only [hne, if_false] at hst
      cases hst
      rw [← hcount]
      simpa only [hcom] using Next.endOp hl hpc hp.1 hp.2 hlast
  · cases hst

theorem next_commit (hst : commit s = some s') : Next s .commit s' := by
  unfold commit at hst
  split at hst
  · rename_i t hpc
    split at hst
    · cases hst; exact .writeLog hpc ‹_›
    · cases hst; exact .writeLogDone hpc (by omega)
  · cases hst; exact .writeHead ‹_›
  · rename_i t hpc
    split at hst
    · cases hst; exact .install hpc ‹_›
    · cases hst; exact .installDone hpc (by omega)
  · cases hst; exact .clearHead ‹_›
  · cases hst; exact .finish ‹_›
  · cases hst

theorem next_of_step (h : Wf s) (hst : step s a = some s') : s.panicked = none ∧ Next s a s' := by
  unfold step at hst
  split at hst
  · rename_i hp
    refine ⟨hp, ?_⟩
    cases a with
    | beginOp p => exact next_beginOp h hst
    | modify p b v => exact next_modify h hst
    | logTest p b => exact next_logTest h hst
    | logAppend p => exact next_logAppend h hst
    | endOp p => exact next_endOp h hst
    | commit => exact next_commit hst
    | bread b => cases hst; exact .bread
    | evict b =>
      simp only [evictBuf] at hst
      split at hst
      · rename_i x hx
        obtain ⟨hc, hst⟩ := Option.ite_none_right_eq_some.mp hst
        cases hst
        exact .evict hx hc.1 hc.2
      · cases hst
  · cases hst

/-! ## Every action keeps a log state well-formed -/

theorem wf_boot (disk : Nat → Block) : Wf (.boot disk) :=
  ⟨nodup_nil, rfl, rfl, fun h => absurd rfl h, nodup_nil, fun _ => rfl, by simp [State.boot]⟩

theorem absorb_nodup {lh : List Nat} (h : lh.Nodup) (b : Nat) : (absorb lh b).Nodup := by
  unfold absorb
  split
  · exact h
  · rename_i hb
    exact nodup_append.mpr ⟨h, nodup_singleton b, by
      rintro x hx y hy rfl
      exact hb (mem_singleton.mp hy ▸ hx)⟩

theorem mem_absorb {lh : List Nat} {b x : Nat} : x ∈ absorb lh b ↔ x ∈ lh ∨ x = b := by
  unfold absorb
  split
  · rename_i hb
    exact ⟨Or.inl, fun h => h.elim id (fun e => e ▸ hb)⟩
  · simp

theorem Wf.next (h : Wf s) (hn : Next s a s') : Wf s' := by
  obtain ⟨hkeys, hcount, hflag, hquiet, hnodup, hclear, hpan⟩ := h
  cases hn with
  | beginOp hpn hpc =>
    exact ⟨nodup_cons.mpr ⟨hpn, hkeys⟩, by simp [hcount], hflag, fun h => absurd hpc h, hnodup, hclear, hpan⟩
  | modify hl hpc | logTest hl hpc =>
    rw [hl] at hkeys hcount
    exact ⟨by simpa using hkeys, by simpa using hcount, hflag, fun h => absurd hpc h, hnodup, hclear, hpan⟩
  | tooBig hl => exact ⟨hkeys, hcount, hflag, hquiet, hnodup, hclear, by simp⟩
  | logAppend hl hpc =>
    rw [hl] at hkeys hcount
    exact ⟨by simpa using hkeys, by simpa using hcount, hflag, fun h => absurd hpc h, absorb_nodup hnodup _,
      by rw [hpc]; simp, hpan⟩
  | endOp hl hpc =>
    rw [hl] at hkeys hcount
    refine ⟨?_, ?_, hflag, fun h => absurd hpc h, hnodup, hclear, hpan⟩
    · simp only [map_append, map_cons] at hkeys ⊢
      exact hkeys.sublist (List.Sublist.append_left (sublist_cons_self _ _) _)
    · simp only [hcount, length_append, length_cons]; omega
  | endLast => exact ⟨nodup_nil, rfl, rfl, fun _ => ⟨rfl, rfl⟩, hnodup, by simp, hpan⟩
  | endEmpty _ _ _ _ he => exact ⟨nodup_nil, rfl, rfl, fun _ => ⟨rfl, rfl⟩, hnodup, fun _ => he, hpan⟩
  | writeLog hpc | writeLogDone hpc | writeHead hpc | install hpc =>
    have hq := hquiet (by simp [hpc])
    exact ⟨hkeys, hcount, by simp [hflag, hpc], fun _ => hq, hnodup, by simp, hpan⟩
  | installDone hpc =>
    have hq := hquiet (by simp [hpc])
    exact ⟨hkeys, hcount, by simp [hflag, hpc], fun _ => hq, nodup_nil, fun _ => rfl, hpan⟩
  | clearHead hpc =>
    have hq := hquiet (by simp [hpc])
    exact ⟨hkeys, hcount, by simp [hflag, hpc], fun _ => hq, hnodup, fun _ => hclear (.inl hpc), hpan⟩
  | finish hpc => exact ⟨hkeys, hcount, rfl, fun h => absurd rfl h, hnodup, by simp, hpan⟩
  | bread | evict => exact ⟨hkeys, hcount, hflag, hquiet, hnodup, hclear, hpan⟩

end Xv6.Log
