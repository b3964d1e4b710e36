import Xv6.Proc.Lemmas.Family

/-!
# Which processor runs which process

`ptable.lock` passes from a scheduler to the process that it selects and back.
-/

namespace Xv6.Ptable

open Option State Table

variable {n : Nat} {s : State n} {c : Fin n} {p q : Slot} {f : Slot → Proc} {k : Cpu} {l : Option (Fin n)} {a b r : Proc} {s' : State n}

/-! ## The invariant -/

def Mode.holds : Mode → Bool
  | .idle | .run _ => false
  | _ => true

def ProcState.off : ProcState → Bool
  | .SLEEPING | .RUNNABLE | .ZOMBIE => true
  | _ => false

def Cpu.Ok (f : Slot → Proc) (k : Cpu) : Prop :=
  match k.mode with
  | .idle | .scan => k.proc = none
  | .enter p => k.proc = some p ∧ (f p).state = .RUNNING ∧ (f p).saved = true
  | .resumed p | .run p => k.proc = some p ∧ (f p).state = .RUNNING
  | .sched p => k.proc = some p ∧ (f p).state.off = true
  | .back p => k.proc = some p ∧ (f p).state.off = true ∧ (f p).saved = true

structure Sched (s : State n) : Prop where
  cpu : ∀ c, (s.cpu c).Ok s.tab.proc
  lock : ∀ c, (s.cpu c).mode.holds = true ↔ s.lock = some c
  alone : ∀ c c' p, (s.cpu c).proc = some p → (s.cpu c').proc = some p → c = c'
  running : ∀ p, (s.tab.proc p).state = .RUNNING → ∃ c, (s.cpu c).proc = some p
  off : ∀ p, (s.tab.proc p).state.off = true → (s.tab.proc p).saved = true ∨ ∃ c, (s.cpu c).mode = .sched p

theorem Cpu.Ok.congr {f' : Slot → Proc} (h : k.Ok f)
    (hf : ∀ p, k.proc = some p → (f' p).state = (f p).state ∧ (f' p).saved = (f p).saved) : k.Ok f' := by
  unfold Cpu.Ok at *
  cases hm : k.mode with simp only [hm] at h ⊢
  | idle | scan => exact h
  | _ p =>
    obtain ⟨hs, hv⟩ := hf p h.1
    rw [hs]
    first | exact h | (rw [hv]; exact h)

theorem Cpu.Ok.proc (h : k.Ok f) (hp : k.proc = some p) :
    (f p).state = .RUNNING ∨ k.mode.holds = true ∧ (f p).state.off = true ∧ ((f p).saved = true ∨ k.mode = .sched p) := by
  unfold Cpu.Ok at h
  cases hm : k.mode with simp only [hm] at h
  | idle | scan => rw [hp] at h; cases h
  | enter q | resumed q | run q =>
    obtain ⟨hq, hs⟩ := h
    cases hp.symm.trans hq
    first | exact .inl hs | exact .inl hs.1
  | sched q =>
    obtain ⟨hq, hs⟩ := h
    cases hp.symm.trans hq
    exact .inr ⟨rfl, hs, .inr rfl⟩
  | back q =>
    obtain ⟨hq, hs, hv⟩ := h
    cases hp.symm.trans hq
    exact .inr ⟨rfl, hs, .inl hv⟩

theorem Sched.update (h : Sched s) {t : Table} (hb : ∀ c' p, c' ≠ c → (s.cpu c').proc = some p →
      (t.proc p).state = (s.tab.proc p).state ∧ (t.proc p).saved = (s.tab.proc p).saved) (hk : k.Ok t.proc)
    (hl : ∀ c', c' ≠ c → (l = some c' ↔ s.lock = some c')) (hl' : k.mode.holds = true ↔ l = some c)
    (ha : ∀ c' p, c' ≠ c → k.proc = some p → (s.cpu c').proc ≠ some p)
    (hr : ∀ p, (∀ c', c' ≠ c → (s.cpu c').proc ≠ some p) → k.proc ≠ some p →
      (t.proc p).state ≠ .RUNNING ∧ ((t.proc p).state.off = true → (t.proc p).saved = true)) :
    Sched { s.setCpu c k with tab := t, lock := l } := by
  have hself : (s.setCpu c k).cpu c = k := Function.update_self ..
  have hother {c' : Fin n} (hc : c' ≠ c) : (s.setCpu c k).cpu c' = s.cpu c' := Function.update_of_ne hc ..
  -- where a process has a processor afterwards
  have hcases (p : Slot) : (∃ c', c' ≠ c ∧ (s.cpu c').proc = some p) ∨ k.proc = some p ∨
      (t.proc p).state ≠ .RUNNING ∧ ((t.proc p).state.off = true → (t.proc p).saved = true) := by
    by_cases h1 : ∃ c', c' ≠ c ∧ (s.cpu c').proc = some p
    · exact .inl h1
    · by_cases h2 : k.proc = some p
      · exact .inr (.inl h2)
      · exact .inr (.inr (hr p (fun c' hc hp => h1 ⟨c', hc, hp⟩) h2))
  constructor
  case cpu =>
    intro c'
    by_cases hc : c' = c
    · subst hc; simp only [hself]; exact hk
    · simp only [hother hc]; exact (h.cpu c').congr fun p hp => hb c' p hc hp
  case lock =>
    intro c'
    by_cases hc : c' = c
    · subst hc; simp only [hself]; exact hl'
    · simp only [hother hc]; exact (h.lock c').trans (hl c' hc).symm
  case alone =>
    intro c1 c2 p h1 h2
    by_cases hc1 : c1 = c <;> by_cases hc2 : c2 = c
    · exact hc1.trans hc2.symm
    · simp only [hc1, hself, hother hc2] at h1 h2; exact absurd h2 (ha c2 p hc2 h1)
    · simp only [hc2, hself, hother hc1] at h1 h2; exact absurd h1 (ha c1 p hc1 h2)
    · simp only [hother hc1, hother hc2] at h1 h2; exact h.alone c1 c2 p h1 h2
  case running =>
    intro p hp
    rcases hcases p with ⟨c', hc, hp'⟩ | hp' | hp'
    · exact ⟨c', by simp only [hother hc]; exact hp'⟩
    · exact ⟨c, by simp only [hself]; exact hp'⟩
    · exact absurd hp hp'.1
  case off =>
    intro p hp
    rcases hcases p with ⟨c', hc, hp'⟩ | hp' | hp'
    · obtain ⟨hs, hv⟩ := hb c' p hc hp'
      simp only [hs, hv] at hp ⊢
      refine (h.off p hp).imp id ?_
      rintro ⟨c2, hm⟩
      have hc2 : (s.cpu c2).proc = some p := by
        have := h.cpu c2
        simp only [Cpu.Ok, hm] at this
        exact this.1
      cases h.alone c2 c' p hc2 hp'
      exact ⟨c', by simp only [hother hc]; exact hm⟩
    · rcases hk.proc hp' with hs | ⟨_, _, hs⟩
      · simp only at hp; rw [hs] at hp; cases hp
      · exact hs.imp id fun hm => ⟨c, by simp only [hself]; exact hm⟩
    · exact .inl (hp'.2 hp)

/-! ## Changes of the table -/

/-- Every processor's process is `RUNNING`: nobody is between a change of state and its switch. -/
def Settled (s : State n) : Prop := ∀ c p, (s.cpu c).proc = some p → (s.tab.proc p).state = .RUNNING

theorem Sched.settled_of_free (h : Sched s) (hl : s.lock = none) : Settled s := by
  intro c p hp
  refine ((h.cpu c).proc hp).resolve_right fun hm => ?_
  have := (h.lock c).mp hm.1
  rw [hl] at this
  cases this

theorem Sched.settled_of_resumed (h : Sched s) (hm : (s.cpu c).mode = .resumed p) : Settled s := by
  intro c' q hq
  have hc := h.cpu c
  simp only [Cpu.Ok, hm] at hc
  have hl := (h.lock c).mp (by rw [hm]; rfl)
  by_cases hcc : c' = c
  · subst hcc
    cases hq.symm.trans hc.1
    exact hc.2
  · refine ((h.cpu c').proc hq).resolve_right fun hm => hcc ?_
    exact some.inj (((h.lock c').mp hm.1).symm.trans hl)

structure Quiet (a b : Proc) : Prop where
  running : a.state = .RUNNING → b.state = .RUNNING ∧ b.saved = a.saved
  other : a.state ≠ .RUNNING → b.state ≠ .RUNNING
  off : b.state.off = true → a.state.off = true ∧ b.saved = a.saved ∨ b.saved = true

theorem Quiet.refl (a : Proc) : Quiet a a := ⟨fun h => ⟨h, rfl⟩, id, fun h => .inl ⟨h, rfl⟩⟩

theorem Quiet.trans {d : Proc} (h : Quiet a b) (h' : Quiet b d) : Quiet a d where
  running ha := by
    obtain ⟨hb, hv⟩ := h.running ha
    obtain ⟨hd, hv'⟩ := h'.running hb
    exact ⟨hd, hv'.trans hv⟩
  other ha := h'.other (h.other ha)
  off hd := by
    rcases h'.off hd with ⟨hb, hv⟩ | hv
    · rw [hv]; exact h.off hb
    · exact .inr hv

theorem Sched.saved_of_off (h : Sched s) (hset : Settled s) (hp : (s.tab.proc p).state.off = true) : (s.tab.proc p).saved = true := by
  refine (h.off p hp).resolve_right ?_
  rintro ⟨c, hm⟩
  have hc := h.cpu c
  simp only [Cpu.Ok, hm] at hc
  rw [hset c p hc.1] at hp
  cases hp

theorem Sched.quiet_idle (h : Sched s) (hset : Settled s) {t : Table} (hq : Quiet (s.tab.proc p) (t.proc p))
    (hp : ∀ c, (s.cpu c).proc ≠ some p) : (t.proc p).state ≠ .RUNNING ∧ ((t.proc p).state.off = true → (t.proc p).saved = true) := by
  refine ⟨hq.other fun hr => ?_, fun ho => ?_⟩
  · obtain ⟨c, hc⟩ := h.running p hr
    exact hp c hc
  · rcases hq.off ho with ⟨ha, hv⟩ | hv
    · rw [hv]; exact h.saved_of_off hset ha
    · exact hv

theorem Sched.turn (h : Sched s) (hset : Settled s) (hp : (s.cpu c).proc = some p) {t : Table} {m : Mode}
    (hk : Cpu.Ok t.proc { s.cpu c with mode := m }) (hl : ∀ c', c' ≠ c → (l = some c' ↔ s.lock = some c'))
    (hl' : m.holds = true ↔ l = some c) (hq : ∀ q, q ≠ p → Quiet (s.tab.proc q) (t.proc q)) :
    Sched { s.setMode c m with tab := t, lock := l } := by
  refine h.update (fun c' q hc hq' => ?_) hk hl hl' (fun c' q hc hq' hq'' => ?_) fun q hq' hqp => ?_
  · have hqp : q ≠ p := by rintro rfl; exact hc (h.alone c' c q hq' hp)
    obtain ⟨hs, hv⟩ := (hq q hqp).running (hset c' q hq')
    exact ⟨hs.trans (hset c' q hq').symm, hv⟩
  · exact hc (h.alone c' c q hq'' hq')
  · refine h.quiet_idle hset (hq q fun he => hqp (he ▸ hp)) fun c' hc' => ?_
    by_cases hc : c' = c
    · subst hc; exact hqp hc'
    · exact hq' c' hc hc'

theorem Sched.table (h : Sched s) (c : Fin n) (hset : Settled s) {t : Table} (hq : ∀ q, Quiet (s.tab.proc q) (t.proc q)) :
    Sched { s with tab := t } := by
  have hb (c' : Fin n) (p : Slot) (hp : (s.cpu c').proc = some p) :
      (t.proc p).state = (s.tab.proc p).state ∧ (t.proc p).saved = (s.tab.proc p).saved := by
    obtain ⟨hs, hv⟩ := (hq p).running (hset c' p hp)
    exact ⟨hs.trans (hset c' p hp).symm, hv⟩
  have := h.update (c := c) (k := s.cpu c) (t := t) (l := s.lock) (fun c' p _ hp => hb c' p hp) ((h.cpu c).congr fun p hp => hb c p hp)
    (fun _ _ => Iff.rfl) (h.lock c) (fun c' p hc hp hp' => hc (h.alone c' c p hp' hp)) fun p hp hpc => ?_
  · rwa [setCpu, Function.update_eq_self] at this
  · refine h.quiet_idle hset (hq p) fun c' hc' => ?_
    by_cases hc : c' = c
    · subst hc; exact hpc hc'
    · exact hp c' hc hc'

/-! ## The operations on the table are quiet -/

variable {t : Table}

theorem Quiet.of_ne (ha : a.state ≠ .RUNNING) (hb : b.state ≠ .RUNNING)
    (hv : b.state.off = true → a.state.off = true ∧ b.saved = a.saved ∨ b.saved = true) : Quiet a b :=
  ⟨fun h => absurd h ha, fun _ => hb, hv⟩

theorem Quiet.of_eq (hs : b.state = a.state) (hv : b.saved = a.saved) : Quiet a b := by
  refine ⟨fun h => ⟨hs.trans h, hv⟩, fun h => hs ▸ h, fun h => .inl ⟨hs ▸ h, hv⟩⟩

theorem Quiet.setProc (h : Quiet (t.proc p) r) (q : Slot) : Quiet (t.proc q) ((t.setProc p r).proc q) := by
  rw [setProc_proc]
  split
  · subst q; exact h
  · exact .refl _

theorem Quiet.wake (h : a.state = .SLEEPING) : Quiet a { a with state := .RUNNABLE } :=
  .of_ne (by rw [h]; nofun) nofun fun _ => .inl ⟨by rw [h]; rfl, rfl⟩

theorem Quiet.wakeup1 (chan : Option Chan) (q : Slot) : Quiet (t.proc q) ((t.wakeup1 chan).proc q) := by
  simp only [Table.wakeup1]
  split
  · rename_i h
    exact .wake h.1
  · exact .refl _

theorem Quiet.kill (pid : Int) (q : Slot) : Quiet (t.proc q) ((t.kill pid).proc q) := by
  unfold Table.kill
  split
  · rename_i p _
    refine Quiet.setProc ?_ q
    by_cases hs : (t.proc p).state = .SLEEPING
    · rw [if_pos hs]
      exact .of_ne (by rw [hs]; nofun) nofun fun _ => .inl ⟨by rw [hs]; rfl, rfl⟩
    · rw [if_neg hs]
      exact .of_eq rfl rfl
  · exact .refl _

theorem Quiet.fill {np : Slot} {m : Pc} (hne : np ≠ p) (ha : Quiet (t.proc np) a) (q : Slot) :
    Quiet (t.proc q) ((t.fill p np a m).proc q) := by
  rw [fill_proc hne]
  split
  · subst q; exact .of_eq rfl rfl
  · split
    · subst q; exact ha
    · exact .refl _

theorem Quiet.allocproc (hp : (t.proc p).state = .RUNNING) (q : Slot) : Quiet (t.proc q) ((t.allocproc p).proc q) := by
  unfold Table.allocproc
  split
  · rename_i np hnp
    have hnp : (t.proc np).state = .UNUSED := by simpa using find_some hnp
    exact Quiet.fill (by rintro rfl; rw [hp] at hnp; cases hnp) (.of_ne (by rw [hnp]; nofun) (by nofun) (by nofun)) q
  · exact .refl _

section Fork

variable {np : Slot} (h : Family t) (hnp : (t.proc p).pc.np = some np)
include h hnp

theorem Family.np_ne : np ≠ p := by
  obtain ⟨hs, hp⟩ := h.forking np p hnp
  rintro rfl
  rw [hs] at hp
  cases hp

theorem Quiet.ready (hv : (t.proc np).saved = true) (q : Slot) : Quiet (t.proc q) ((t.ready p np).proc q) := by
  have hs := (h.forking np p hnp).1
  refine Quiet.fill (h.np_ne hnp) (.of_ne ?_ ?_ fun _ => .inr ?_) q
  · rw [hs]; nofun
  · nofun
  · exact hv

end Fork

theorem Quiet.reparent (hp : p ≠ initproc) (q : Slot) : Quiet (t.proc q) ((t.reparent p).proc q) := by
  have h := reparented (t := t) hp
  have hr := h.rest q
  have hv : ((t.reparent p).proc q).saved = (t.proc q).saved := by rw [hr]
  rcases h.state q with hs | ⟨hs, hs'⟩
  · exact .of_eq hs hv
  · exact .of_ne (by rw [hs]; nofun) (by rw [hs']; nofun) fun _ => .inl ⟨by rw [hs]; rfl, hv⟩

/-! ## The steps -/

theorem Sched.release (h : Sched s) (hset : Settled s) (hp : (s.cpu c).proc = some p) (hl : ∀ c', c' ≠ c → s.lock ≠ some c')
    (ht : (t.proc p).state = .RUNNING) (hq : ∀ q, q ≠ p → Quiet (s.tab.proc q) (t.proc q)) : Sched (s.release c p t) :=
  h.turn hset hp ⟨hp, ht⟩ (fun c' hc => ⟨nofun, fun h => absurd h (hl c' hc)⟩) ⟨nofun, nofun⟩ hq

theorem Sched.sched (h : Sched s) (hset : Settled s) (hp : (s.cpu c).proc = some p) (hl : ∀ c', c' ≠ c → s.lock ≠ some c')
    (ht : (t.proc p).state.off = true) (hq : ∀ q, q ≠ p → Quiet (s.tab.proc q) (t.proc q)) : Sched (s.sched c p t) := by
  refine h.turn hset hp ⟨hp, ht⟩ (fun c' hc => ⟨fun he => ?_, fun h => absurd h (hl c' hc)⟩) ⟨fun _ => rfl, fun _ => rfl⟩ hq
  exact absurd (some.inj he).symm hc

structure Inv (s : State n) : Prop where
  sched : Sched s
  family : Family s.tab

theorem Inv.wait (h : Inv s) (hset : Settled s) (hp : (s.cpu c).proc = some p) (hl : ∀ c', c' ≠ c → s.lock ≠ some c') (hf : Family t)
    (ht : (t.proc p).state = .RUNNING) (hq : ∀ q, q ≠ p → Quiet (s.tab.proc q) (t.proc q)) : Inv (s.wait c p t) := by
  unfold State.wait
  split
  · rename_i q hr
    obtain ⟨hpar, hz⟩ := round_child hr
    have hne : p ≠ q := by rintro rfl; rw [ht] at hz; cases hz
    refine ⟨h.sched.release hset hp hl ?_ fun r hr => (hq r hr).trans ?_, hf.reap hpar hz⟩
    · simp only [reap, setProc_proc, if_neg hne]; exact ht
    · exact Quiet.setProc (.of_ne (by rw [hz]; rintro ⟨⟩) (by rintro ⟨⟩) (by rintro ⟨⟩)) r
  · exact ⟨h.sched.release hset hp hl ht hq, hf.noChild p⟩
  · rename_i hr
    refine ⟨h.sched.sched hset hp hl ?_ fun q hqp => ?_, hf.sleep ht fun _ => ⟨rfl, fun _ => round_sleep hr⟩⟩
    · simp only [sleep, setProc_proc, if_true]; rfl
    · simp only [sleep, setProc_proc, if_neg hqp]; exact hq q hqp

theorem Sched.embryo (h : Sched s) (hq : ∀ q, (t.proc q).state = (s.tab.proc q).state ∧ (t.proc q).saved = (s.tab.proc q).saved ∨
      (s.tab.proc q).state = .EMBRYO ∧ ((t.proc q).state = .EMBRYO ∨ (t.proc q).state = .UNUSED)) : Sched { s with tab := t } := by
  have hsame (q : Slot) (hs : (t.proc q).state = .RUNNING ∨ (t.proc q).state.off = true) :
      (t.proc q).state = (s.tab.proc q).state ∧ (t.proc q).saved = (s.tab.proc q).saved := by
    refine (hq q).resolve_right ?_
    rintro ⟨-, he | he⟩ <;> rw [he] at hs <;> exact hs.elim nofun nofun
  refine ⟨fun c => (h.cpu c).congr fun p hp => (hq p).resolve_right ?_, h.lock, h.alone, fun p hp => ?_, fun p hp => ?_⟩
  · rintro ⟨he, -⟩
    rcases (h.cpu c).proc hp with hs | ⟨_, hs, _⟩ <;> rw [he] at hs <;> cases hs
  · exact h.running p ((hsame p (.inl hp)).1.symm.trans hp)
  · obtain ⟨hs, hv⟩ := hsame p (.inr hp)
    simp only [hs, hv] at hp ⊢
    exact h.off p hp

theorem Family.fill_state (hf : Family t) {np : Slot} (hnp : (t.proc p).pc.np = some np)
    (ha : a.state = .EMBRYO ∨ a.state = .UNUSED) (m : Pc) (q : Slot) :
    ((t.fill p np a m).proc q).state = (t.proc q).state ∧ ((t.fill p np a m).proc q).saved = (t.proc q).saved ∨
      (t.proc q).state = .EMBRYO ∧ (((t.fill p np a m).proc q).state = .EMBRYO ∨ ((t.fill p np a m).proc q).state = .UNUSED) := by
  rw [fill_proc (hf.np_ne hnp)]
  split
  · subst q; exact .inl ⟨rfl, rfl⟩
  · split
    · subst q; exact .inr ⟨(hf.forking np p hnp).1, ha⟩
    · exact .inl ⟨rfl, rfl⟩

theorem Inv.free (h : Inv s) {k : Call} (hs : s.free p k = some t) : Inv { s with tab := t } := by
  unfold State.free at hs
  split at hs
  · cases hs
    refine ⟨h.sched.embryo fun q => .inl ?_, h.family.setProc ⟨.inl rfl, rfl, rfl, rfl, fun _ => rfl⟩ fun hw => .inl ⟨hw, rfl⟩⟩
    rw [setProc_proc]
    split
    · subst q; exact ⟨rfl, rfl⟩
    · exact ⟨rfl, rfl⟩
  case h_2 | h_3 =>
    split at hs
    · cases hs
      rename_i ok _ np hpc
      have hnp : (s.tab.proc p).pc.np = some np := by rw [hpc]; rfl
      refine ⟨h.sched.embryo fun q => ?_, by first | exact h.family.kstack hpc ok | exact h.family.copy hpc ok⟩
      cases ok with
      | true =>
        refine h.family.fill_state hnp (.inl ?_) _ q
        exact (h.family.forking np p hnp).1
      | false => exact h.family.fill_state hnp (.inr rfl) _ q
    · cases hs
  · cases hs

theorem Inv.locked (h : Inv s) (hl : s.lock = none) (hp : (s.cpu c).proc = some p) {k : Call} (hs : s.locked c p k = some s') : Inv s' := by
  have hset := h.sched.settled_of_free hl
  have hrun := hset c p hp
  have hl' : ∀ c', c' ≠ c → s.lock ≠ some c' := fun _ _ => by rw [hl]; nofun
  unfold State.locked at hs
  split at hs
  · cases hs
    refine ⟨h.sched.sched hset hp hl' ?_ fun q hq => ?_, h.family.setProc ⟨.inr ⟨by rw [hrun]; rfl, rfl⟩, rfl, rfl, rfl, fun _ => rfl⟩ ?_⟩
    · simp only [setProc_proc, if_true]; rfl
    · simp only [setProc_proc, if_neg hq]; exact .refl _
    · rintro ⟨hw, -⟩; cases hw
  · cases hs
    refine ⟨h.sched.sched hset hp hl' ?_ fun q hq => ?_, h.family.sleep hrun nofun⟩
    · simp only [sleep, setProc_proc, if_true]; rfl
    · simp only [sleep, setProc_proc, if_neg hq]; exact .refl _
  · cases hs
    exact ⟨h.sched.table c hset (Quiet.wakeup1 _), h.family.wakeup1 _⟩
  · cases hs
    exact ⟨h.sched.table c hset (Quiet.kill _), h.family.kill _⟩
  · cases hs
    rename_i hpc
    exact ⟨h.sched.table c hset (Quiet.allocproc hrun), h.family.allocproc (by rw [hrun]; rfl) hpc⟩
  · cases hs
    rename_i np hpc
    have hnp : (s.tab.proc p).pc.np = some np := by rw [hpc]; rfl
    have hv := h.family.saved np p hnp (by rw [hpc]; rfl)
    exact ⟨h.sched.table c hset (Quiet.ready h.family hnp hv), h.family.fork_ready hpc⟩
  · split at hs
    · cases hs
    · cases hs
      rename_i hpc hi
      refine ⟨h.sched.sched hset hp hl' ?_ fun q hq => ?_, h.family.exit hi hrun hpc⟩
      · simp only [exit, setProc_proc, if_true]; rfl
      · simp only [exit, setProc_proc, if_neg hq]
        exact (Quiet.wakeup1 _ q).trans (Quiet.reparent hi q)
  · cases hs
    exact h.wait hset hp hl' h.family hrun fun _ _ => .refl _
  · cases hs

theorem Inv.resume (h : Inv s) (hm : (s.cpu c).mode = .resumed q) (hp : (s.cpu c).proc = some p)
    (hs : s.resume c p = some s') : Inv s' := by
  have hset := h.sched.settled_of_resumed hm
  have hrun := hset c p hp
  have hl : ∀ c', c' ≠ c → s.lock ≠ some c' := by
    intro c' hc hl
    have := (h.sched.lock c).mp (by rw [hm]; rfl)
    exact hc (some.inj (hl.symm.trans this))
  have htidy (q : Slot) : Quiet (s.tab.proc q) ((s.tab.tidy p).proc q) := by
    refine Quiet.setProc ?_ q
    exact .of_eq rfl rfl
  have hrun' : ((s.tab.tidy p).proc p).state = .RUNNING := ((htidy p).running hrun).1
  unfold State.resume at hs
  split at hs
  case h_1 | h_2 =>
    cases hs
    exact ⟨h.sched.release hset hp hl hrun fun _ _ => .refl _, h.family⟩
  · cases hs
    exact ⟨h.sched.release hset hp hl hrun' fun q _ => htidy q, h.family.tidy hrun⟩
  · cases hs
    exact h.wait hset hp hl (h.family.tidy hrun) hrun' fun q _ => htidy q
  · cases hs

theorem Sched.idle (h : Sched s) (hp : ∀ c, (s.cpu c).proc ≠ some p) :
    (s.tab.proc p).state ≠ .RUNNING ∧ ((s.tab.proc p).state.off = true → (s.tab.proc p).saved = true) := by
  refine ⟨fun hr => ?_, fun ho => (h.off p ho).resolve_right ?_⟩
  · obtain ⟨c, hc⟩ := h.running p hr
    exact hp c hc
  · rintro ⟨c, hm⟩
    have hc := h.cpu c
    simp only [Cpu.Ok, hm] at hc
    exact hp c hc.1

theorem Sched.loop (h : Sched s) (hc : (s.cpu c).proc = none) (hk : k.proc = none) (hm : k.mode = .idle ∨ k.mode = .scan)
    (hl : ∀ c', c' ≠ c → (l = some c' ↔ s.lock = some c')) (hl' : k.mode.holds = true ↔ l = some c) :
    Sched { s.setCpu c k with lock := l } := by
  refine h.update (fun _ _ _ _ => ⟨rfl, rfl⟩) ?_ hl hl' (fun _ _ _ hp => by rw [hk] at hp; cases hp) fun p hp _ => h.idle fun c' => ?_
  · rcases hm with hm | hm <;> simp only [Cpu.Ok, hm] <;> exact hk
  · by_cases hcc : c' = c
    · subst hcc; rw [hc]; nofun
    · exact hp c' hcc

/-- The scheduler and the process `p` on `c` hand the processor over. The lock stays where it is. -/
theorem Sched.hand (h : Sched s) (hl : s.lock = some c) (hm : k.mode.holds = true) (hp : ∀ c', c' ≠ c → (s.cpu c').proc ≠ some p)
    (hc : (s.cpu c).proc = none ∨ (s.cpu c).proc = some p) (hk : k.Ok (s.tab.setProc p r).proc) (hkp : k.proc = some p) :
    Sched { s.setCpu c k with tab := s.tab.setProc p r } := by
  have hne {q : Slot} (hq : q ≠ p) : (s.tab.setProc p r).proc q = s.tab.proc q := by rw [setProc_proc, if_neg hq]
  refine h.update (fun c' q hc' hq => ?_) hk (fun _ _ => Iff.rfl) ⟨fun _ => hl, fun _ => hm⟩ (fun c' q hc' hq => ?_) fun q hq hq' => ?_
  · rw [hne (by rintro rfl; exact hp c' hc' hq)]; exact ⟨rfl, rfl⟩
  · cases hkp.symm.trans hq
    exact hp c' hc'
  · have hqp : q ≠ p := by rintro rfl; exact hq' hkp
    rw [hne hqp]
    refine h.idle fun c' hc' => ?_
    by_cases hcc : c' = c
    · subst hcc
      rcases hc with hc | hc <;> rw [hc] at hc'
      · cases hc'
      · exact hqp (some.inj hc').symm
    · exact hq c' hcc hc'

theorem Inv.swtch (h : Inv s) (hs : s.swtch c = some s') : Inv s' := by
  have hc := h.sched.cpu c
  have hl := h.sched.lock c
  unfold State.swtch at hs
  split at hs
  · rename_i p hm
    cases hs
    simp only [Cpu.Ok, hm] at hc
    obtain ⟨hp, hr, -⟩ := hc
    refine ⟨h.sched.hand (hl.mp (by rw [hm]; rfl)) rfl (fun c' hcc hp' => hcc (h.sched.alone c' c p hp' hp)) (.inr hp) ⟨hp, ?_⟩ hp, ?_⟩
    · rw [setProc_proc, if_pos rfl]; exact hr
    · exact h.family.setProc ⟨.inl rfl, rfl, rfl, rfl, fun he => by rw [hr] at he; cases he⟩ fun hw => .inl ⟨hw, rfl⟩
  · rename_i p' p hm hp
    cases hs
    simp only [Cpu.Ok, hm] at hc
    obtain ⟨hp', hr⟩ := hc
    cases hp.symm.trans hp'
    refine ⟨h.sched.hand (hl.mp (by rw [hm]; rfl)) rfl (fun c' hcc hp' => hcc (h.sched.alone c' c _ hp' hp)) (.inr hp) ⟨hp, ?_⟩ hp, ?_⟩
    · rw [setProc_proc, if_pos rfl]; exact ⟨hr, rfl⟩
    · exact h.family.setProc ⟨.inl rfl, rfl, rfl, rfl, fun he => by rw [he] at hr; cases hr⟩ fun hw => .inl ⟨hw, rfl⟩
  · rename_i p hm
    cases hs
    simp only [Cpu.Ok, hm] at hc
    obtain ⟨hp, hr, hv⟩ := hc
    refine ⟨?_, h.family⟩
    refine h.sched.update (fun _ _ _ _ => ⟨rfl, rfl⟩) rfl (fun _ _ => Iff.rfl) ⟨fun _ => hl.mp (by rw [hm]; rfl), fun _ => rfl⟩ nofun
      fun q hq _ => ?_
    by_cases hqp : q = p
    · subst hqp
      refine ⟨fun hr' => ?_, fun _ => hv⟩
      rw [hr'] at hr
      cases hr
    · refine h.sched.idle fun c' hc' => ?_
      by_cases hcc : c' = c
      · subst hcc
        exact hqp (some.inj (hc'.symm.trans hp))
      · exact hq c' hcc hc'
  · cases hs

theorem Inv.scan (h : Inv s) (hm : (s.cpu c).mode = .scan) : Inv (s.scan c) := by
  have hc := h.sched.cpu c
  have hl := (h.sched.lock c).mp (by rw [hm]; rfl)
  simp only [Cpu.Ok, hm] at hc
  unfold State.scan
  dsimp only
  split
  · rename_i hi
    split
    · rename_i hr
      have hset : ∀ c' q, c' ≠ c → (s.cpu c').proc = some q → (s.tab.proc q).state = .RUNNING := by
        intro c' q hcc hq
        refine ((h.sched.cpu c').proc hq).resolve_right fun hm' => hcc ?_
        exact some.inj (((h.sched.lock c').mp hm'.1).symm.trans hl)
      have hv : (s.tab.proc ⟨(s.cpu c).i, hi⟩).saved = true := by
        refine (h.sched.idle fun c' hc' => ?_).2 (by rw [hr]; rfl)
        by_cases hcc : c' = c
        · subst hcc; rw [hc] at hc'; cases hc'
        · have := hset c' _ hcc hc'
          rw [hr] at this
          cases this
      refine ⟨h.sched.hand hl rfl (fun c' hcc hp => ?_) (.inl hc) ⟨rfl, ?_⟩ rfl, ?_⟩
      · have := hset c' _ hcc hp
        rw [hr] at this
        cases this
      · rw [setProc_proc, if_pos rfl]; exact ⟨rfl, hv⟩
      · refine h.family.setProc ⟨.inr ⟨by rw [hr]; rfl, rfl⟩, rfl, rfl, rfl, fun _ => rfl⟩ ?_
        rintro ⟨hw, -⟩
        cases hw
    · exact ⟨h.sched.loop (k := { s.cpu c with i := (s.cpu c).i + 1 }) hc hc (.inr hm) (fun _ _ => Iff.rfl) (h.sched.lock c), h.family⟩
  · refine ⟨h.sched.loop (k := { s.cpu c with mode := .idle }) hc hc (.inl rfl)
      (fun c' hcc => ⟨nofun, fun h => ?_⟩) ⟨nofun, nofun⟩, h.family⟩
    exact absurd (some.inj (h.symm.trans hl)) hcc

theorem Inv.step (h : Inv s) {a : Act n} (hs : step s a = some s') : Inv s' := by
  cases a with
  | acquire c =>
    simp only [Ptable.step, ite_none_right_eq_some, some.injEq] at hs
    obtain ⟨⟨hm, hl⟩, rfl⟩ := hs
    have hc := h.sched.cpu c
    simp only [Cpu.Ok, hm] at hc
    refine ⟨h.sched.loop (k := ⟨(s.cpu c).proc, .scan, 0⟩) hc hc (.inr rfl)
      (fun c' hcc => ⟨fun he => ?_, fun he => ?_⟩) ⟨fun _ => rfl, fun _ => rfl⟩, h.family⟩
    · exact absurd (some.inj he).symm hcc
    · rw [hl] at he; cases he
  | scan c =>
    simp only [Ptable.step, ite_none_right_eq_some, some.injEq] at hs
    obtain ⟨hm, rfl⟩ := hs
    exact h.scan hm
  | swtch c => exact h.swtch hs
  | resume c =>
    simp only [Ptable.step] at hs
    split at hs
    · exact h.resume ‹_› ‹_› hs
    · cases hs
  | intr c a =>
    have hw (hl : s.lock = none) : Inv { s with tab := s.tab.wakeup1 (some (.addr a)) } :=
      ⟨h.sched.table c (h.sched.settled_of_free hl) (Quiet.wakeup1 _), h.family.wakeup1 _⟩
    simp only [Ptable.step] at hs
    split at hs
    case h_1 | h_2 =>
      split at hs
      · cases hs; exact hw ‹_›
      · cases hs
    · cases hs
  | call c k =>
    simp only [Ptable.step] at hs
    split at hs
    · rename_i p hm hp
      unfold call at hs
      split at hs
      · cases hs
        rename_i hf
        exact h.free hf
      · split at hs
        · exact h.locked ‹_› hp hs
        · cases hs
    · cases hs

theorem inv_init : Inv (init : State n) where
  sched := by
    refine ⟨fun c => rfl, fun c => ⟨nofun, nofun⟩, nofun, fun p hp => ?_, fun p hp => .inl ?_⟩
    all_goals simp only [init] at hp ⊢; split at hp
    · cases hp
    · cases hp
    · rw [if_pos ‹_›]
    · cases hp
  family := family_init

end Xv6.Ptable
