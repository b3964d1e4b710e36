import Xv6.Proc.Theorems

/-!
# The turns of the scheduler (`proc.c`)

A scheduler looks at the slots in a circle, wherever it is interrupted by the processes that it runs.
-/

namespace Xv6.Ptable

open Function Xv6.Lib

variable {n k : Nat} {s s' : State n} {c : Fin n} {p : Slot} {f : Cpu}

/-- The slots from slot `i` on that come before slot `p`. -/
def before (p i : Nat) : Nat := if i ≤ p then p - i else NPROC - i + p

def Cpu.before (f : Cpu) (p : Nat) : Nat :=
  match f.mode with
  | .idle => Ptable.before p 0
  | .scan => Ptable.before p f.i
  | _ => Ptable.before p (f.i + 1)

def Mode.away : Mode → Bool
  | .idle | .scan => false
  | _ => true

def looks (s : State n) (c : Fin n) : Act n → Nat
  | .scan c' => if c' = c ∧ (s.cpu c).i < NPROC then 1 else 0
  | _ => 0

/-- Process `p` is `RUNNABLE` all the time from `s` to `s'`, and processor `c` looks at `k` slots. -/
inductive Passes (c : Fin n) (p : Slot) (s : State n) : Nat → State n → Prop where
  | refl : (s.tab.proc p).state = .RUNNABLE → Passes c p s 0 s
  | step {k : Nat} {s' s'' : State n} {a : Act n} : Passes c p s k s' → step s' a = some s'' → (s''.tab.proc p).state = .RUNNABLE →
      Passes c p s (k + looks s' c a) s''

theorem Cpu.before_lt (f : Cpu) (p : Slot) : f.before p < NPROC := by
  have hp := p.isLt
  unfold Cpu.before Ptable.before
  split <;> split_ifs <;> omega

theorem before_succ {i : Nat} (h : i ≠ p) (hi : i < NPROC) : 1 + before p (i + 1) = before p i := by
  unfold before
  split_ifs <;> omega

/-! ## Steps -/

/-- Processor `c` is not in its scheduler before and after the step. -/
def Stays (s : State n) (c : Fin n) (s' : State n) : Prop := ∃ m : Mode, m.away = true ∧ s'.cpu = (s.setMode c m).cpu

theorem stays_wait {t : Table} : Stays s c (s.wait c p t) := by
  unfold State.wait
  split <;> exact ⟨_, rfl, rfl⟩

theorem stays_resume (h : s.resume c p = some s') : Stays s c s' := by
  unfold State.resume at h
  split at h <;> cases h
  case h_4 => exact stays_wait
  all_goals exact ⟨_, rfl, rfl⟩

theorem stays_call {x : Call} (hm : (s.cpu c).mode.away = true) (h : s.call c p x = some s') : Stays s c s' := by
  have hself (t : Table) : Stays s c { s with tab := t } := ⟨_, hm, (update_eq_self c s.cpu).symm⟩
  unfold State.call at h
  split at h
  · cases h
    exact hself _
  · split at h
    · unfold State.locked at h
      split at h <;> try split at h
      all_goals cases h
      all_goals first | exact hself _ | exact stays_wait | exact ⟨_, rfl, rfl⟩
    · cases h

theorem before_scan (hm : (s.cpu c).mode = .scan) (hp : (s.tab.proc p).state = .RUNNABLE)
    (hp' : ((s.scan c).tab.proc p).state = .RUNNABLE) :
    ∃ f, (s.scan c).cpu = update s.cpu c f ∧ looks s c (.scan c) + f.before p = (s.cpu c).before p := by
  have hslot (hi : (s.cpu c).i < NPROC) (he : (s.cpu c).i = p) : (⟨(s.cpu c).i, hi⟩ : Slot) = p := Fin.ext he
  unfold State.scan at *
  by_cases hi : (s.cpu c).i < NPROC
  · by_cases hr : (s.tab.proc ⟨(s.cpu c).i, hi⟩).state = .RUNNABLE
    · simp only [hi, hr, dif_pos, if_true] at hp' ⊢
      refine ⟨_, rfl, ?_⟩
      simp only [looks, Cpu.before, hm, hi, and_self, if_true]
      exact before_succ (fun he => by simp [Table.setProc, hslot hi he] at hp') hi
    · simp only [hi, hr, dif_pos, if_false]
      refine ⟨_, rfl, ?_⟩
      simp only [looks, Cpu.before, hm, hi, and_self, if_true]
      exact before_succ (fun he => hr (hslot hi he ▸ hp)) hi
  · simp only [hi, dif_neg, not_false_eq_true]
    refine ⟨_, rfl, ?_⟩
    have hlt := p.isLt
    simp only [looks, Cpu.before, before, hm, hi, and_false, if_false]
    split_ifs <;> omega

/-- Every slot that a scheduler looks at brings it closer to a process that stays `RUNNABLE`, and nothing takes it away. -/
theorem before_step {a : Act n} (h : step s a = some s') (hp : (s.tab.proc p).state = .RUNNABLE)
    (hp' : (s'.tab.proc p).state = .RUNNABLE) : looks s c a + (s'.cpu c).before p = (s.cpu c).before p := by
  have hupd {c' : Fin n} {f : Cpu} (hs : s'.cpu = update s.cpu c' f) (hf : c' = c → f.before p = (s.cpu c').before p) :
      0 + (s'.cpu c).before p = (s.cpu c).before p := by
    rw [Nat.zero_add, hs]
    by_cases hc : c' = c
    · rw [← hc, update_self, hf hc]
    · rw [update_of_ne (Ne.symm hc)]
  have haway {f : Cpu} (hm : f.mode.away = true) : f.before p = Ptable.before p (f.i + 1) := by
    unfold Cpu.before
    cases hf : f.mode <;> simp_all [Mode.away]
  have hstays {c' : Fin n} (hm : (s.cpu c').mode.away = true) (hs : Stays s c' s') : 0 + (s'.cpu c).before p = (s.cpu c).before p := by
    obtain ⟨m, hm', hs⟩ := hs
    exact hupd hs fun _ => (haway hm').trans (haway hm).symm
  cases a with simp only [Ptable.step] at h
  | acquire c' =>
    split_ifs at h with hc
    cases h
    exact hupd rfl fun _ => by simp [Cpu.before, hc.1]
  | scan c' =>
    split_ifs at h with hm
    cases h
    obtain ⟨f, hs, hf⟩ := before_scan hm hp hp'
    by_cases hc : c' = c
    · subst hc
      rwa [hs, update_self]
    · rw [looks, if_neg (mt And.left hc)]
      exact hupd hs fun h => absurd h hc
  | swtch c' =>
    unfold State.swtch at h
    split at h <;> cases h
    case h_2 hm _ => exact hstays (by rw [hm]; rfl) ⟨_, rfl, rfl⟩
    · rename_i hm
      exact hstays (by rw [hm]; rfl) ⟨_, rfl, rfl⟩
    · rename_i hm
      exact hupd rfl fun _ => (haway (by rw [hm]; rfl)).symm
  | resume c' =>
    split at h
    · rename_i hm _
      exact hstays (by rw [hm]; rfl) (stays_resume h)
    · cases h
  | intr c' x =>
    have hs : s'.cpu = s.cpu := by
      split at h <;> try split at h
      all_goals cases h
      all_goals rfl
    rw [hs]
    exact Nat.zero_add _
  | call c' x =>
    split at h
    · rename_i hm _
      have hm : (s.cpu c').mode.away = true := by rw [hm]; rfl
      exact hstays hm (stays_call hm h)
    · cases h

/-- A process does not stay `RUNNABLE` while a processor looks at `NPROC` slots, so at most `NPROC - 1` others are selected there
before it, whatever the other processors do. -/
theorem runnable_turn (h : Passes c p s k s') : k < NPROC := by
  suffices hk : k + (s'.cpu c).before p = (s.cpu c).before p ∧ (s'.tab.proc p).state = .RUNNABLE by
    have hlt := (s.cpu c).before_lt p
    omega
  induction h with
  | refl hp => exact ⟨Nat.zero_add _, hp⟩
  | @step k s' _ a _ hs hp ih =>
    have hb : looks s' c a + _ = _ := before_step hs ih.2 hp
    exact ⟨by omega, hp⟩

/-- Init has forked. The second processor looks at init, which runs on the first one, and then it comes to the child. -/
theorem runnable_turn_second : ∃ s : State 2, Reach (· = init) step (fun _ _ => True) s ∧
    ∃ s' k, Passes 1 child s k s' ∧ 0 < k ∧ k < NPROC := by
  obtain ⟨s, hr, hp, hn⟩ : ∃ s : State 2, Reach (· = init) step (fun _ _ => True) s ∧ (s.tab.proc child).state = .RUNNABLE ∧
      ((step s (.acquire 1)).bind fun s1 => (step s1 (.scan 1)).map fun s2 =>
        ((s1.tab.proc child).state, looks s1 1 (.scan 1), (s2.tab.proc child).state)) = some (.RUNNABLE, 1, .RUNNABLE) :=
    Reach.of_runs (forkRun 0) _ (.init rfl) (by decide +kernel)
  obtain ⟨s1, h1, hn⟩ := Option.bind_eq_some_iff.mp hn
  obtain ⟨s2, h2, hn⟩ := Option.map_eq_some_iff.mp hn
  obtain ⟨hp1, hk, hp2⟩ : _ ∧ _ ∧ _ := by simpa using hn
  have h := ((Passes.refl (c := 1) hp).step h1 hp1).step h2 hp2
  exact ⟨s, hr, s2, _, h, by rw [hk]; exact Nat.succ_pos _, runnable_turn h⟩

end Xv6.Ptable
