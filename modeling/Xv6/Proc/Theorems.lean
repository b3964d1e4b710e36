import Xv6.Lib.Trans
import Xv6.Proc.Lemmas.Kill
import Xv6.Proc.Lemmas.Sched
import Xv6.Proc.Lemmas.Sleep

/-!
# Processes: results
-/

open Xv6.Lib

namespace Xv6.Sleep

variable {chan : Nat} {s : State}

theorem Inv.reach {ok : State → Act → Prop} (h : Reach (· = init) (Sleep.step chan) ok s) : Inv chan s :=
  h.inv (fun _ hs => hs ▸ inv_init) fun _ _ _ hi _ hs => hi.step hs

/-- While the condition holds and no waker is between its update and its wakeup, nobody sleeps on `chan`, whoever holds the
locks. -/
theorem no_sleeper_while_cond (hr : Reach (· = init) (step chan) (fun _ _ => True) s) (hw : ∀ p, (s.proc p).pc.pending = false)
    (hc : s.cond = true) (p : Nat) : ¬ ((s.proc p).state = .sleeping ∧ (s.proc p).chan = some chan) := by
  rintro ⟨hs, -⟩
  obtain ⟨q, hq⟩ := (Inv.reach hr).committed hc p (.inl hs)
  rw [hw q] at hq
  cases hq

/-- Process 0 goes to sleep, and process 1 releases `lk` before its wakeup. -/
theorem no_sleeper_while_cond_two_procs : ∃ s, Reach (· = init) (step 7) (fun _ _ => True) s ∧
    s.cond = true ∧ (∀ p, (s.proc p).pc.pending = false) ∧ ∀ p, ¬ ((s.proc p).state = .sleeping ∧ (s.proc p).chan = some 7) := by
  let acts : List Act := .wait 0 :: (List.replicate 7 (.go 0) ++ .unschedule :: .signal 1 false :: List.replicate 6 (.go 1))
  obtain ⟨s, hs⟩ : ∃ s, runs (step 7) (fun _ _ => True) init acts = some s := ⟨_, rfl⟩
  have hr : Reach (· = init) (step 7) (fun _ _ => True) s := Reach.runs (.init rfl) hs
  have hw : ∀ p, (s.proc p).pc.pending = false := by
    cases hs
    intro p
    match p with
    | 0 => rfl
    | 1 => rfl
    | p + 2 => rfl
  have hc : s.cond = true := by cases hs; rfl
  exact ⟨s, hr, hc, hw, no_sleeper_while_cond hr hw hc⟩

end Xv6.Sleep

namespace Xv6.Ptable

variable {n : Nat} {s s' : State n}

theorem Inv.reach {ok : State n → Act n → Prop} (h : Reach (· = init) Ptable.step ok s) : Inv s :=
  h.inv (fun _ hs => hs ▸ inv_init) fun _ _ _ hi _ hs => hi.step hs

/-! ## Scheduling -/

theorem Sched.running_iff (h : Sched s) (hl : s.lock = none) (p : Slot) :
    (s.tab.proc p).state = .RUNNING ↔ ∃! c, (s.cpu c).proc = some p := by
  constructor
  · intro hr
    obtain ⟨c, hc⟩ := h.running p hr
    exact ⟨c, hc, fun c' hc' => h.alone c' c p hc' hc⟩
  · rintro ⟨c, hc, -⟩
    exact h.settled_of_free hl c p hc

theorem Sched.executes_running (h : Sched s) {c : Fin n} {p : Slot} (he : (s.cpu c).mode.executes = some p)
    (hl : s.lock ≠ some c) : (s.tab.proc p).state = .RUNNING := by
  have hc := h.cpu c
  have hm : (s.cpu c).mode.holds ≠ true := fun hm => hl ((h.lock c).mp hm)
  unfold Cpu.Ok at hc
  cases hmode : (s.cpu c).mode with simp only [hmode] at he hm hc
  | run q => cases he; exact hc.2
  | idle => cases he
  | _ => exact absurd rfl hm

/-- While `ptable.lock` is free, the `RUNNING` processes are those with one processor. A scheduler only selects a process
whose context is saved, and a processor that does not hold the lock executes a `RUNNING` process or none. -/
theorem scheduling_safety (hr : Reach (· = init) step (fun _ _ => True) s) :
    (s.lock = none → ∀ p, (s.tab.proc p).state = .RUNNING ↔ ∃! c, (s.cpu c).proc = some p) ∧
    (∀ c p, (s.cpu c).mode = .enter p → (s.tab.proc p).saved = true) ∧
    (∀ c p, (s.cpu c).mode.executes = some p → s.lock ≠ some c → (s.tab.proc p).state = .RUNNING) := by
  have h := (Inv.reach hr).sched
  refine ⟨h.running_iff, fun c p hm => ?_, fun _ _ => h.executes_running⟩
  have hc := h.cpu c
  simp only [Cpu.Ok, hm] at hc
  exact hc.2.2

def forkRun (c : Fin n) : List (Act n) :=
  [.acquire c, .scan c, .swtch c, .resume c, .call c .fork, .call c (.kstack true), .call c (.copy true), .call c .ready]

/-- Init on processor 0, its child on processor 1. -/
theorem scheduling_safety_two_cpus : ∃ s : State 2, Reach (· = init) step (fun _ _ => True) s ∧ s.lock = none ∧
    (s.cpu 1).proc = some child ∧ (s.tab.proc child).state = .RUNNING := by
  obtain ⟨s, hr, hl, h1, h0⟩ : ∃ s : State 2, Reach (· = init) step (fun _ _ => True) s ∧
      s.lock = none ∧ (s.cpu 1).proc = some child ∧ (s.cpu 0).proc = some initproc :=
    Reach.of_runs (forkRun 0 ++ [.acquire 1, .scan 1, .scan 1, .swtch 1, .resume 1]) _ (.init rfl) (by decide +kernel)
  refine ⟨s, hr, hl, h1, ((scheduling_safety hr).1 hl _).mpr ⟨1, h1, fun c hc => ?_⟩⟩
  match c with
  | 0 => cases h0.symm.trans hc
  | 1 => rfl

/-! ## `exit` and `wait` -/

theorem waits_free {p : Slot} {k : Call} {t : Table} (h : s.free p k = some t) : t.waits = s.tab.waits := by
  unfold State.free at h
  split at h
  · cases h
    rfl
  · split at h <;> cases h
    unfold Table.kstack
    split <;> rfl
  · split at h <;> cases h
    unfold Table.copy
    split <;> rfl
  · cases h

/-- Only `wait` returns anything to be recorded. -/
theorem waits_locked {c : Fin n} {p : Slot} {k : Call} (h : s.locked c p k = some s') :
    s'.tab.waits = s.tab.waits ∨ s' = s.wait c p s.tab := by
  unfold State.locked at h
  split at h
  case h_4 =>
    cases h
    simp only [Table.kill]
    split <;> exact .inl rfl
  case h_5 =>
    cases h
    simp only [Table.allocproc]
    split <;> exact .inl rfl
  case h_7 =>
    split at h <;> cases h
    exact .inl (Table.exit_waits ‹_›)
  case h_8 =>
    cases h
    exact .inr rfl
  case h_9 => cases h
  all_goals cases h; exact .inl rfl

theorem waits_step {a : Act n} (h : step s a = some s') : s'.tab.waits = s.tab.waits ∨
    ∃ c p t, (s.cpu c).proc = some p ∧ (t = s.tab ∨ t = s.tab.tidy p) ∧ s' = s.wait c p t := by
  cases a with
  | acquire c =>
    simp only [step] at h
    split at h <;> cases h
    exact .inl rfl
  | scan c =>
    simp only [step] at h
    split at h <;> cases h
    simp only [State.scan]
    split
    · split <;> exact .inl rfl
    · exact .inl rfl
  | swtch c =>
    simp only [step, State.swtch] at h
    split at h <;> cases h <;> exact .inl rfl
  | resume c =>
    simp only [step] at h
    split at h
    · rename_i p _ hp
      unfold State.resume at h
      split at h <;> cases h
      · exact .inl rfl
      · exact .inl rfl
      · exact .inl rfl
      · exact .inr ⟨c, p, _, hp, .inr rfl, rfl⟩
    · cases h
  | intr c a =>
    simp only [step] at h
    split at h
    · split at h <;> cases h
      exact .inl rfl
    · split at h <;> cases h
      exact .inl rfl
    · cases h
  | call c k =>
    simp only [step] at h
    split at h
    · rename_i p _ hp
      unfold State.call at h
      split at h
      · cases h
        exact .inl (waits_free ‹_›)
      · split at h
        · exact (waits_locked h).imp_right fun hw => ⟨c, p, _, hp, .inl rfl, hw⟩
        · cases h
    · cases h

theorem Table.tidy_proc (t : Table) (p q : Slot) : (t.tidy p).proc q = { t.proc q with chan := ((t.tidy p).proc q).chan } := by
  simp only [tidy, setProc_proc]
  split
  · subst q; rfl
  · rfl

/-- A `wait` that returns -1. -/
theorem no_child_step {a : Act n} {pid : Nat} (h : step s a = some s') (hw : s'.tab.waits = (pid, -1) :: s.tab.waits) :
    ∃ c p, (s.cpu c).proc = some p ∧ (s.tab.proc p).pid = pid ∧
      ((∀ q, (s.tab.proc q).parent ≠ some p) ∨ (s.tab.proc p).killed = true) := by
  rcases waits_step h with hsame | ⟨c, p, t, hp, ht, rfl⟩
  · exact absurd (hsame.symm.trans hw).symm (List.cons_ne_self _ _)
  have hproc (q : Slot) : (t.proc q).parent = (s.tab.proc q).parent ∧ (t.proc q).killed = (s.tab.proc q).killed ∧
      (t.proc q).pid = (s.tab.proc q).pid := by
    rcases ht with rfl | rfl
    · exact ⟨rfl, rfl, rfl⟩
    · rw [Table.tidy_proc]
      exact ⟨rfl, rfl, rfl⟩
  have htw : t.waits = s.tab.waits := by rcases ht with rfl | rfl <;> rfl
  unfold State.wait at hw
  split at hw
  · rename_i q _
    have he : (((t.proc q).pid : Nat) : Int) = -1 := congrArg Prod.snd (List.cons.inj hw).1
    omega
  · rename_i hr
    have he : (t.proc p).pid = pid := congrArg Prod.fst (List.cons.inj hw).1
    refine ⟨c, p, hp, (hproc p).2.2 ▸ he, (Table.round_fail hr).imp (fun hq q => (hproc q).1 ▸ hq q) fun hk => (hproc p).2.1 ▸ hk⟩
  · have he : t.waits = (pid, -1) :: s.tab.waits := hw
    exact absurd (htw.symm.trans he).symm (List.cons_ne_self _ _)

/-- Every process that has been made `RUNNABLE` has a parent that can still wait for it, and nobody sleeps in `wait` with a zombie among
its children. A pid is returned by one `wait` at most. A `wait` returns -1 only without children or when its caller is killed. -/
theorem exit_wait_account (hr : Reach (· = init) step (fun _ _ => True) s) :
    (∀ p, p ≠ initproc → (s.tab.proc p).state ≠ .UNUSED → (s.tab.proc p).state ≠ .EMBRYO →
      ∃ q, (s.tab.proc p).parent = some q ∧ (s.tab.proc q).state ≠ .UNUSED ∧ (s.tab.proc q).state ≠ .ZOMBIE) ∧
    (∀ p, (s.tab.proc p).inWait → ∀ q, (s.tab.proc q).parent = some p → (s.tab.proc q).state ≠ .ZOMBIE) ∧
    ((s.tab.forks.map Prod.fst).Nodup ∧ ((s.tab.waits.map Prod.snd).filter (· ≠ -1)).Nodup ∧
      ∀ x ∈ s.tab.waits, x.2 ≠ -1 → ∃ pid ∈ s.tab.exits, x.2 = ↑pid ∧ ∃ f, (pid, f) ∈ s.tab.forks ∧
        (x.1 = f ∨ f ∈ s.tab.exits ∧ x.1 = (s.tab.proc initproc).pid)) ∧
    (∀ a s' pid, step s a = some s' → s'.tab.waits = (pid, -1) :: s.tab.waits → ∃ c p, (s.cpu c).proc = some p ∧
      (s.tab.proc p).pid = pid ∧ ((∀ q, (s.tab.proc q).parent ≠ some p) ∨ (s.tab.proc p).killed = true)) := by
  have h := (Inv.reach hr).family
  refine ⟨fun p hi hu he => ?_, fun p hw => (h.asleep p hw).2, ⟨h.forks_nodup, h.waits_nodup, ?_⟩, fun _ _ _ => no_child_step⟩
  · have hs : (s.tab.proc p).state.live = true ∨ (s.tab.proc p).state = .ZOMBIE := by
      cases hs : (s.tab.proc p).state with
      | UNUSED => exact absurd hs hu
      | EMBRYO => exact absurd hs he
      | SLEEPING | RUNNABLE | RUNNING => exact .inl rfl
      | ZOMBIE => exact .inr rfl
    obtain ⟨q, f, hq, -, hl, -⟩ := h.parent p hi hs
    refine ⟨q, hq, ?_, ?_⟩ <;> intro hs <;> rw [hs] at hl <;> cases hl
  · rw [h.init.2.1]
    exact h.waited

/-- Init forks and waits. The child runs and exits, and init gets its pid. Init has no child then, and a second `wait` returns -1. -/
theorem exit_wait_account_one_child : ∃ s : State 1, Reach (· = init) step (fun _ _ => True) s ∧ s.tab.waits = [(1, 2)] ∧
    (∃ f, (2, f) ∈ s.tab.forks ∧ (1 = f ∨ f ∈ s.tab.exits ∧ 1 = (s.tab.proc initproc).pid)) ∧
    ∃ s', step s (.call 0 .wait) = some s' ∧ s'.tab.waits = [(1, -1), (1, 2)] ∧
      ∃ p, (s.tab.proc p).pid = 1 ∧ ((∀ q, (s.tab.proc q).parent ≠ some p) ∨ (s.tab.proc p).killed = true) := by
  obtain ⟨s, hr, hw, s', hs, hw'⟩ : ∃ s : State 1, Reach (· = init) step (fun _ _ => True) s ∧ s.tab.waits = [(1, 2)] ∧
      ∃ s', step s (.call 0 .wait) = some s' ∧ s'.tab.waits = [(1, -1), (1, 2)] := by
    obtain ⟨s, hr, hw, hn⟩ : ∃ s : State 1, Reach (· = init) step (fun _ _ => True) s ∧ s.tab.waits = [(1, 2)] ∧
        ((step s (.call 0 .wait)).map (·.tab.waits)) = some [(1, -1), (1, 2)] :=
      Reach.of_runs (forkRun 0 ++ [.call 0 .wait, .swtch 0, .swtch 0, .scan 0, .swtch 0, .resume 0, .call 0 .exit, .swtch 0, .swtch 0] ++
        List.replicate 63 (.scan 0) ++ [.acquire 0, .scan 0, .swtch 0, .resume 0]) _ (.init rfl) (by decide +kernel)
    obtain ⟨s', hs, hw'⟩ := Option.map_eq_some_iff.mp hn
    exact ⟨s, hr, hw, s', hs, hw'⟩
  obtain ⟨-, -, ⟨-, -, h⟩, hno⟩ := exit_wait_account hr
  obtain ⟨pid, -, he, hf⟩ := h (1, 2) (by rw [hw]; exact List.mem_singleton_self _) (by decide)
  obtain rfl : 2 = pid := Int.ofNat_inj.mp he
  obtain ⟨c, p, -, hp⟩ := hno _ s' 1 hs (by rw [hw', hw])
  exact ⟨s, hr, hw, hf, s', hs, hw', p, hp⟩

/-! ## `kill` -/

theorem Pids.reach {ok : State n → Act n → Prop} (h : Reach (· = init) Ptable.step ok s) : Pids s.tab := by
  induction h with
  | init hs => exact hs ▸ pids_init
  | step hr _ hs ih => exact ih.effect ((Inv.reach hr).effect hs)

theorem Clean.reach (h : Reach (· = init) Ptable.step Spares s) : Clean s.tab := by
  induction h with
  | init hs => exact hs ▸ clean_init
  | step hr hok hs ih => exact (ih.effect_iff (Pids.reach hr) ((Inv.reach hr).effect hs)).mpr hok

/-- `kill(pid)` is exact if and only if `pid` is not that of an `UNUSED` slot. A new process is marked as killed if and only if its slot is.
Free slots stay unmarked as long as all steps are as in `Spares`, and the first one that is not marks a slot. -/
theorem kill_exact_iff (hr : Reach (· = init) step (fun _ _ => True) s) :
    (∀ pid, KillExact s.tab pid ↔ ∀ p, (s.tab.proc p).state = .UNUSED → ((s.tab.proc p).pid : Int) ≠ pid) ∧
    (∀ a s', step s a = some s' → ∀ p, (s.tab.proc p).state = .UNUSED → (s'.tab.proc p).state ≠ .UNUSED →
      (s'.tab.proc p).state = .EMBRYO ∧ (s'.tab.proc p).killed = (s.tab.proc p).killed) ∧
    (Reach (· = init) step Spares s → Clean s.tab) ∧
    (Clean s.tab → ∀ a s', step s a = some s' → (Clean s'.tab ↔ Spares s a)) ∧
    (∀ a s', step s a = some s' → ∀ p, (s.tab.proc p).state = .EMBRYO → (s'.tab.proc p).killed ≠ (s.tab.proc p).killed →
      ∃ c, a = .call c (.kill (s.tab.proc p).pid)) := by
  have hi := Inv.reach hr
  have hp := Pids.reach hr
  refine ⟨hp.killExact_iff, fun a s' hs p => (hi.effect hs).born, Clean.reach, fun hc a s' hs => ?_, fun a s' hs p => ?_⟩
  · exact hc.effect_iff hp (hi.effect hs)
  · exact hp.embryo (hi.effect hs)

/-- Init has forked: `kill(2)` is exact, and the next child will not be marked. -/
theorem kill_exact_iff_child : ∃ s : State 1, Reach (· = init) step (fun _ _ => True) s ∧ KillExact s.tab 2 ∧ Clean s.tab := by
  obtain ⟨s, hr, hs⟩ : ∃ s : State 1, Reach (· = init) step Spares s ∧
      ∀ p, (s.tab.proc p).state = .UNUSED → ((s.tab.proc p).pid : Int) ≠ 2 :=
    Reach.of_runs (forkRun 0) _ (.init rfl) (by decide +kernel)
  have hr' : Reach (· = init) step (fun _ _ => True) s := hr.mono fun _ _ _ => trivial
  obtain ⟨h1, -, h2, -⟩ := kill_exact_iff hr'
  exact ⟨s, hr', (h1 2).mpr hs, h2 hr⟩

/-- A `fork` of init fails, and its slot keeps pid 2. `kill(2)` returns 0 and marks the slot, and the next child of init starts
as killed. -/
theorem kill_not_exact : ∃ s s' : State 1, Reach (· = init) step (fun _ _ => True) s ∧
    Reach (· = init) step (fun _ _ => True) s' ∧ s'.tab.forks = [(3, 1)] ∧ (s'.tab.proc child).state = .RUNNABLE ∧
    (s'.tab.proc child).killed = true ∧ s.tab.killRet 2 = 0 ∧ ¬ KillExact s.tab 2 := by
  let start : List (Act 1) := [.acquire 0, .scan 0, .swtch 0, .resume 0, .call 0 .fork, .call 0 (.kstack false)]
  obtain ⟨s, hr, hz, hn⟩ : ∃ s : State 1, Reach (· = init) step (fun _ _ => True) s ∧
      s.tab.killRet 2 = 0 ∧ ∀ p, ¬ (s.tab.proc p).Is 2 :=
    Reach.of_runs start _ (.init rfl) (by decide +kernel)
  obtain ⟨s', hr', h1, h2, h3⟩ : ∃ s : State 1, Reach (· = init) step (fun _ _ => True) s ∧
      s.tab.forks = [(3, 1)] ∧ (s.tab.proc child).state = .RUNNABLE ∧ (s.tab.proc child).killed = true :=
    Reach.of_runs (start ++ [.call 0 (.kill 2), .call 0 .fork, .call 0 (.kstack true), .call 0 (.copy true), .call 0 .ready]) _
      (.init rfl) (by decide +kernel)
  refine ⟨s, s', hr, hr', h1, h2, h3, hz, fun hk => ?_⟩
  obtain ⟨p, hp⟩ := hk.zero.mp hz
  exact hn p hp

end Xv6.Ptable
