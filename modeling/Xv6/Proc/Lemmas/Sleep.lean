import Xv6.Proc.Sleep

/-!
# No wakeup is lost

A waiter holds `ptable.lock` from before it releases `lk` until it is asleep, so a `wakeup` meanwhile is still to come.
-/

namespace Xv6.Sleep

open Function Option State Proc Pc

variable {chan : Nat} {s s' : State} {p q : Nat} {r : Proc} {o : Option Holder} {c : Pc}

/-! ## Who holds the locks -/

def Pc.holdsLk : Pc → Bool
  | .test | .sleepAcquire | .sleepRelease | .use | .release | .set _ | .wakerRelease _ | .wakeupAcquire true | .wakeup1 true
  | .wakeupRelease true => true
  | _ => false

/-- A process that comes back from `sched` has the lock once it is `RUNNING`. -/
def Proc.holdsPtable (q : Proc) : Bool :=
  match q.pc with
  | .sleepRelease | .sleepChan | .sleepState | .sched | .sleepDone | .wakeup1 _ | .wakeupRelease _ | .yieldState _
  | .yieldSched _ => true
  | .tidy | .yieldRelease _ => q.state = .running
  | _ => false

/-- The waiter has released `lk`, and no wakeup has reached it. -/
def Proc.committed (q : Proc) : Prop := q.state = .sleeping ∨ q.pc = .sleepChan ∨ q.pc = .sleepState

def Pc.decided : Pc → Bool
  | .sleepAcquire | .sleepRelease => true
  | _ => false

def Pc.back : Pc → Option Pc
  | .yieldState back | .yieldSched back | .yieldRelease back => some back
  | _ => none

structure Proc.Wf (chan : Nat) (q : Proc) : Prop where
  asleep : q.state = .sleeping → q.chan = some chan ∧ (q.pc = .sched ∨ q.pc = .tidy)
  named : q.pc = .sleepState → q.chan = some chan
  back : ∀ b, q.pc.back = some b → b.interruptible = true
  switched : q.pc.switching = true → q.state ≠ .running
  ready : q.state = .runnable → q.pc = .tidy ∨ q.pc.back ≠ none

structure Inv (chan : Nat) (s : State) : Prop where
  wf : ∀ p, (s.proc p).Wf chan
  lk : ∀ p, (s.proc p).pc.holdsLk = true ↔ s.lk = some p
  ptable : ∀ p, (s.proc p).holdsPtable = true ↔ s.ptable = some (.proc p)
  decided : ∀ p, (s.proc p).pc.decided = true → s.cond = false
  committed : s.cond = true → ∀ p, (s.proc p).committed → ∃ q, (s.proc q).pc.pending = true

theorem inv_init : Inv chan init where
  wf _ := ⟨nofun, nofun, nofun, nofun, nofun⟩
  lk _ := by simp [init, holdsLk]
  ptable _ := by simp [init, holdsPtable]
  decided _ h := by cases h
  committed h := by cases h

/-! ## One process takes a step -/

structure Moves (s s' : State) (p : Nat) (r : Proc) : Prop where
  proc : s'.proc = update s.proc p r
  lk : ∀ q, q ≠ p → (s'.lk = some q ↔ s.lk = some q)
  lk_self : r.pc.holdsLk = true ↔ s'.lk = some p
  ptable : ∀ q, q ≠ p → (s'.ptable = some (.proc q) ↔ s.ptable = some (.proc q))
  ptable_self : r.holdsPtable = true ↔ s'.ptable = some (.proc p)

section

variable (h : Inv chan s)
include h

theorem Inv.moves (hm : Moves s s' p r) (hw : r.Wf chan) (hd : ∀ q, (s'.proc q).pc.decided = true → s'.cond = false)
    (hc : s'.cond = true → ∀ q, (s'.proc q).committed → ∃ q, (s'.proc q).pc.pending = true) : Inv chan s' := by
  refine ⟨fun q => ?_, fun q => ?_, fun q => ?_, hd, hc⟩ <;> rw [hm.proc] <;> by_cases hq : q = p
  · subst hq; rw [update_self]; exact hw
  · rw [update_of_ne hq]; exact h.wf q
  · subst hq; rw [update_self]; exact hm.lk_self
  · rw [update_of_ne hq, hm.lk q hq]; exact h.lk q
  · subst hq; rw [update_self]; exact hm.ptable_self
  · rw [update_of_ne hq, hm.ptable q hq]; exact h.ptable q

theorem Inv.local (hm : Moves s s' p r) (hw : r.Wf chan) (hs : s'.cond = s.cond)
    (hd : r.pc.decided = true → s.cond = false) (hp : ∀ q, (s.proc q).committed → (s.proc p).pc.pending = true → r.pc.pending = true)
    (hc : r.committed → (s.proc p).committed ∨ s.cond = false) : Inv chan s' := by
  refine h.moves hm hw (fun q hq => ?_) fun ht q hq => ?_
  · rw [hs]
    rw [hm.proc] at hq
    by_cases hqp : q = p
    · subst hqp; rw [update_self] at hq; exact hd hq
    · rw [update_of_ne hqp] at hq; exact h.decided q hq
  · rw [hs] at ht
    have hq' : ∃ q, (s.proc q).committed := by
      rw [hm.proc] at hq
      by_cases hqp : q = p
      · subst hqp
        rw [update_self] at hq
        refine ⟨q, (hc hq).resolve_right fun hf => ?_⟩
        rw [hf] at ht; cases ht
      · rw [update_of_ne hqp] at hq; exact ⟨q, hq⟩
    obtain ⟨q', hq'⟩ := hq'
    obtain ⟨w, hw⟩ := h.committed ht q' hq'
    refine ⟨w, ?_⟩
    rw [hm.proc]
    by_cases hwp : w = p
    · subst hwp; rw [update_self]; exact hp q' hq' hw
    · rw [update_of_ne hwp]; exact hw

/-! ## The locks -/

theorem Inv.keeps (hl : r.pc.holdsLk = (s.proc p).pc.holdsLk)
    (ht : r.holdsPtable = (s.proc p).holdsPtable) (c : Bool) : Moves s ({ s with cond := c }.setProc p r) p r :=
  ⟨rfl, fun _ _ => Iff.rfl, hl ▸ h.lk p, fun _ _ => Iff.rfl, ht ▸ h.ptable p⟩

theorem Inv.takesLk (hf : s.lk = none) (hl : r.pc.holdsLk = true)
    (ht : r.holdsPtable = (s.proc p).holdsPtable) : Moves s ({ s with lk := some p }.setProc p r) p r := by
  refine ⟨rfl, fun q hq => ?_, ?_, fun _ _ => Iff.rfl, ht ▸ h.ptable p⟩
  · simp [setProc, hf, Ne.symm hq]
  · simp [setProc, hl]

theorem Inv.dropsLk (hh : (s.proc p).pc.holdsLk = true) (hl : r.pc.holdsLk = false)
    (ht : r.holdsPtable = (s.proc p).holdsPtable) : Moves s ({ s with lk := none }.setProc p r) p r := by
  have hs := (h.lk p).mp hh
  refine ⟨rfl, fun q hq => ?_, ?_, fun _ _ => Iff.rfl, ht ▸ h.ptable p⟩
  · simp [setProc, hs, Ne.symm hq]
  · simp [setProc, hl]

theorem Inv.takesPtable (hf : ∀ q, s.ptable ≠ some (.proc q)) (ht : r.holdsPtable = true)
    (hl : r.pc.holdsLk = (s.proc p).pc.holdsLk) : Moves s ({ s with ptable := some (.proc p) }.setProc p r) p r := by
  refine ⟨rfl, fun _ _ => Iff.rfl, hl ▸ h.lk p, fun q hq => ?_, ?_⟩
  · simp [setProc, hf q, Ne.symm hq]
  · simp [setProc, ht]

theorem Inv.dropsPtable (hh : (s.proc p).holdsPtable = true) (ho : ∀ q, o ≠ some (.proc q)) (ht : r.holdsPtable = false)
    (hl : r.pc.holdsLk = (s.proc p).pc.holdsLk) : Moves s ({ s with ptable := o }.setProc p r) p r := by
  have hs := (h.ptable p).mp hh
  refine ⟨rfl, fun _ _ => Iff.rfl, hl ▸ h.lk p, fun q hq => ?_, ?_⟩
  · simp [setProc, hs, ho q, Ne.symm hq]
  · simp [setProc, ht, ho p]

end

/-! ## The steps -/

def Pc.plain : Pc → Bool
  | .sleepChan | .sleepState | .sched | .yieldState _ | .yieldSched _ | .yieldRelease _ => false
  | _ => true

theorem Pc.plain.wf (hp : r.pc.plain = true) (hr : r.state = .running) : r.Wf chan := by
  obtain ⟨st, ch, pc⟩ := r
  cases hr
  cases pc with
  | sleepChan | sleepState | sched | yieldState | yieldSched | yieldRelease => cases hp
  | _ => exact ⟨nofun, nofun, nofun, nofun, nofun⟩

theorem Pc.plain.not_committed (hp : r.pc.plain = true) (hr : r.state = .running) : ¬ r.committed := by
  rintro (h | h | h)
  · rw [hr] at h; cases h
  · rw [h] at hp; cases hp
  · rw [h] at hp; cases hp

theorem Inv.goto (h : Inv chan s) (hm : Moves s s' p r) (hs : s'.cond = s.cond) (hr : r.state = .running) (hc : r.pc.plain = true)
    (hd : r.pc.decided = true → s.cond = false) (hp : (s.proc p).pc.pending = true → r.pc.pending = true) : Inv chan s' :=
  h.local hm (plain.wf hc hr) hs hd (fun _ _ => hp) fun hcom => (plain.not_committed hc hr hcom).elim

theorem Pc.interruptible.spec {b : Pc} (h : b.interruptible = true) :
    b.plain = true ∧ b.holdsLk = false ∧ b.decided = false ∧ (∀ st ch, (mk st ch b).holdsPtable = false) := by
  cases b with
  | idle | acquire | reacquire | wakerAcquire => exact ⟨rfl, rfl, rfl, fun _ _ => rfl⟩
  | wakeupAcquire early =>
    cases early with
    | true => cases h
    | false => exact ⟨rfl, rfl, rfl, fun _ _ => rfl⟩
  | _ => cases h

theorem Inv.acquire (h : Inv chan s) (hr : (s.proc p).state = .running)
    (ht : { s.proc p with pc := c }.holdsPtable = (s.proc p).holdsPtable) (hl : c.holdsLk = true) (hc : c.plain = true)
    (hd : c.decided = false) (hp : (s.proc p).pc.pending = false) (hs : s.acquire p c = some s') : Inv chan s' := by
  unfold State.acquire at hs
  split at hs
  · cases hs
    exact h.goto (h.takesLk ‹_› hl ht) rfl hr hc (by simp [hd]) (by simp [hp])
  · cases hs

theorem State.acquirePtable_some (hs : s.acquirePtable p c = some s') :
    s.ptable = none ∧ s' = { s with ptable := some (.proc p) }.setPc p c := by
  unfold acquirePtable at hs
  split at hs
  · cases hs
    exact ⟨‹_›, rfl⟩
  · cases hs

theorem Proc.executes.running (h : r.executes) (hp : r.pc.switching = false) : r.state = .running :=
  h.resolve_right (by simp [hp])

section

variable (h : Inv chan s)
include h

/-- `cond = 1`: from now on `p` owes a wakeup. -/
theorem Inv.set (hr : (s.proc p).state = .running) (hl : (s.proc p).pc.holdsLk = true)
    (hl' : c.holdsLk = true) (ht : { s.proc p with pc := c }.holdsPtable = (s.proc p).holdsPtable) (hc : c.plain = true)
    (hd : c.decided = false) (hp : c.pending = true) : Inv chan ({ s with cond := true }.setPc p c) := by
  refine h.moves (h.keeps (hl'.trans hl.symm) ht true) (plain.wf hc hr) (fun q hq => ?_) fun _ _ _ => ?_
  · exfalso
    by_cases hqp : q = p
    · subst hqp; simp [setPc, setProc, hd] at hq
    · simp only [State.setPc, State.setProc, update_of_ne hqp] at hq
      -- a waiter that has decided to sleep holds `lk`
      have hq' : (s.proc q).pc.holdsLk = true := by
        cases hpc : (s.proc q).pc <;> simp_all [Pc.decided, Pc.holdsLk]
      have := ((h.lk q).mp hq').symm.trans ((h.lk p).mp hl)
      exact hqp (some.inj this)
  · exact ⟨p, by simp [setPc, setProc, hp]⟩

theorem Inv.committed_cases (hq : (s.proc q).committed) :
    s.ptable = some (.proc q) ∨ ((s.proc q).state = .sleeping ∧ (s.proc q).pc = .tidy) := by
  rw [← h.ptable q]
  cases hq with
  | inl hs => exact ((h.wf q).asleep hs).2.imp (fun hpc => by simp [holdsPtable, hpc]) fun hpc => ⟨hs, hpc⟩
  | inr hpc => exact .inl (by rcases hpc with hpc | hpc <;> simp [holdsPtable, hpc])

theorem Inv.wakeup1 (hp : s.ptable = some (.proc p)) (hc : ¬ (s.proc p).committed) :
    Inv chan (s.wakeup1 chan) ∧ ∀ q, ¬ ((s.wakeup1 chan).proc q).committed := by
  have hq (q : Nat) : (¬ (s.proc q).committed ∧ (s.wakeup1 chan).proc q = s.proc q) ∨
      ((s.proc q).pc = .tidy ∧ (s.proc q).state = .sleeping ∧ (s.wakeup1 chan).proc q = { s.proc q with state := .runnable }) := by
    by_cases hcq : (s.proc q).committed
    · have hqp : s.ptable ≠ some (.proc q) := by
        rintro hqp
        cases hp.symm.trans hqp
        exact hc hcq
      obtain ⟨hs, hpc⟩ := (h.committed_cases hcq).resolve_left hqp
      exact .inr ⟨hpc, hs, if_pos ⟨hs, ((h.wf q).asleep hs).1⟩⟩
    · exact .inl ⟨hcq, if_neg fun hs => hcq (.inl hs.1)⟩
  have hn (q : Nat) : ¬ ((s.wakeup1 chan).proc q).committed := by
    rcases hq q with ⟨hcq, he⟩ | ⟨hpc, hs, he⟩
    · rwa [he]
    · rw [he]; simp [Proc.committed, hpc]
  refine ⟨⟨fun q => ?_, fun q => ?_, fun q => ?_, fun q => ?_, fun _ q hcq => (hn q hcq).elim⟩, hn⟩ <;>
    rcases hq q with ⟨_, he⟩ | ⟨hpc, hs, he⟩ <;> rw [he]
  · exact h.wf q
  · exact ⟨nofun, by simp [hpc], by simp [hpc, back], by simp [hpc, switching], fun _ => .inl hpc⟩
  · exact h.lk q
  · exact h.lk q
  · exact h.ptable q
  · refine Iff.trans ?_ (h.ptable q)
    simp [holdsPtable, hpc, hs]
  · exact h.decided q
  · exact h.decided q

theorem Inv.go (hg : go chan s p = some s') : Inv chan s' := by
  unfold Sleep.go at hg
  split at hg
  case isFalse => cases hg
  rename_i he
  have hrun (hs : (s.proc p).pc.switching = false) : (s.proc p).state = .running := he.running hs
  have hw := h.wf p
  cases hpc : (s.proc p).pc with rw [hpc] at hg hrun
  | idle => cases hg
  | acquire | reacquire | wakerAcquire early => exact h.acquire (hrun rfl) (by simp [holdsPtable, hpc]) rfl rfl rfl (by rw [hpc]; rfl) hg
  | test =>
    cases hg
    cases hc : s.cond with
    | true =>
      exact h.goto (h.keeps (by simp [hpc, holdsLk]) (by simp [holdsPtable, hpc]) s.cond) rfl (hrun rfl) rfl nofun
        (by simp [hpc, pending])
    | false =>
      exact h.goto (h.keeps (by simp [hpc, holdsLk]) (by simp [holdsPtable, hpc]) s.cond) rfl (hrun rfl) rfl
        (fun _ => hc) (by simp [hpc, pending])
  | sleepAcquire =>
    have hd := h.decided p (by rw [hpc]; rfl)
    obtain ⟨hf, rfl⟩ := acquirePtable_some (c := .sleepRelease) hg
    exact h.goto (h.takesPtable (by simp [hf]) rfl (by rw [hpc]; rfl)) rfl (hrun rfl) rfl (fun _ => hd) (by simp [hpc, pending])
  | sleepRelease =>
    cases hg
    have hd := h.decided p (by rw [hpc]; rfl)
    refine h.local (h.dropsLk (by rw [hpc]; rfl) rfl (by simp [holdsPtable, hpc])) ⟨?_, nofun, nofun, nofun, ?_⟩ rfl nofun
      (by simp [hpc, pending]) fun _ => .inr hd
    · simp [hrun rfl]
    · simp [hrun rfl]
  | sleepChan =>
    cases hg
    refine h.local (h.keeps (by rw [hpc]; rfl) (by simp [holdsPtable, hpc]) s.cond) ⟨?_, fun _ => rfl, nofun, nofun, ?_⟩ rfl
      nofun (by simp [hpc, pending]) fun _ => .inl (.inr (.inl hpc))
    · simp [hrun rfl]
    · simp [hrun rfl]
  | sleepState =>
    cases hg
    exact h.local (h.keeps (by rw [hpc]; rfl) (by simp [holdsPtable, hpc]) s.cond)
      ⟨fun _ => ⟨hw.named hpc, .inl rfl⟩, nofun, nofun, nofun, nofun⟩ rfl nofun (by simp [hpc, pending])
      fun _ => .inl (.inr (.inr hpc))
  | sched =>
    cases hg
    have hs := hw.switched (by rw [hpc]; rfl)
    refine h.local (h.dropsPtable (by simp [holdsPtable, hpc]) nofun (by simp [holdsPtable, hs]) (by rw [hpc]; rfl))
      ⟨fun ha => ⟨(hw.asleep ha).1, .inr rfl⟩, nofun, nofun, nofun, fun _ => .inl rfl⟩ rfl nofun (by simp [hpc, pending]) fun hc => ?_
    exact .inl (.inl (hc.resolve_right (by simp)))
  | tidy =>
    cases hg
    exact h.goto (h.keeps (by rw [hpc]; rfl) (by simp [holdsPtable, hpc, hrun rfl]) s.cond) rfl (hrun rfl) rfl nofun
      (by simp [hpc, pending])
  | sleepDone =>
    cases hg
    exact h.goto (h.dropsPtable (by simp [holdsPtable, hpc]) nofun rfl (by rw [hpc]; rfl)) rfl (hrun rfl) rfl nofun
      (by simp [hpc, pending])
  | use =>
    cases hg
    exact h.goto (h.keeps (by rw [hpc]; rfl) (by simp [holdsPtable, hpc]) s.cond) rfl (hrun rfl) rfl nofun
      (by simp [hpc, pending])
  | release =>
    cases hg
    exact h.goto (h.dropsLk (by rw [hpc]; rfl) rfl (by simp [holdsPtable, hpc])) rfl (hrun rfl) rfl nofun
      (by simp [hpc, pending])
  | set early =>
    cases hg
    cases early with
    | true | false => exact h.set (hrun rfl) (by rw [hpc]; rfl) rfl (by simp [holdsPtable, hpc]) rfl rfl rfl
  | wakerRelease early =>
    cases hg
    cases early with
    | true =>
      exact h.goto (h.dropsLk (by rw [hpc]; rfl) rfl (by simp [holdsPtable, hpc])) rfl (hrun rfl) rfl nofun
        (by simp [hpc, pending])
    | false =>
      exact h.goto (h.dropsLk (by rw [hpc]; rfl) rfl (by simp [holdsPtable, hpc])) rfl (hrun rfl) rfl nofun
        (fun _ => rfl)
  | wakeupAcquire early =>
    obtain ⟨hf, rfl⟩ := State.acquirePtable_some (c := .wakeup1 early) hg
    have hl : (Pc.wakeup1 early).holdsLk = (s.proc p).pc.holdsLk := by rw [hpc]; cases early <;> rfl
    exact h.goto (h.takesPtable (by simp [hf]) rfl hl) rfl (hrun rfl) rfl nofun fun _ => rfl
  | wakeup1 early =>
    cases hg
    have hp := (h.ptable p).mp (by simp [holdsPtable, hpc])
    obtain ⟨h', hn⟩ := h.wakeup1 hp (plain.not_committed (by rw [hpc]; rfl) (hrun rfl))
    have he : (s.wakeup1 chan).proc p = s.proc p := if_neg (by simp [hrun rfl])
    have hm := h'.keeps (p := p) (r := { (s.wakeup1 chan).proc p with pc := .wakeupRelease early })
      (by rw [he, hpc]; cases early <;> rfl) (by rw [he]; simp [holdsPtable, hpc]) s.cond
    have hr := he ▸ hrun rfl
    exact h'.local hm (plain.wf rfl hr) rfl nofun (fun q hq => (hn q hq).elim) fun hc =>
      absurd hc (plain.not_committed rfl hr)
  | wakeupRelease early =>
    cases hg
    cases early with
    | true | false =>
      exact h.goto (h.dropsPtable (by simp [holdsPtable, hpc]) nofun rfl (by rw [hpc]; rfl)) rfl (hrun rfl) rfl nofun
        (by simp [hpc, pending])
  | yieldState back =>
    cases hg
    have hb := hw.back back (by rw [hpc]; rfl)
    exact h.local (h.keeps (by rw [hpc]; rfl) (by simp [Proc.holdsPtable, hpc]) s.cond)
      ⟨nofun, nofun, fun b hb' => Option.some.inj hb' ▸ hb, nofun, fun _ => .inr nofun⟩ rfl nofun
      (by simp [hpc, Pc.pending]) (by simp [Proc.committed])
  | yieldSched back =>
    cases hg
    have hb := hw.back back (by rw [hpc]; rfl)
    have hs := hw.switched (by rw [hpc]; rfl)
    refine h.local (h.dropsPtable (by simp [holdsPtable, hpc]) nofun (by simp [holdsPtable, hs]) (by rw [hpc]; rfl))
      ⟨fun ha => ?_, nofun, fun b hb' => some.inj hb' ▸ hb, nofun, fun _ => .inr nofun⟩ rfl nofun
      (by simp [hpc, pending]) fun hc => .inl (.inl (hc.resolve_right (by simp)))
    have := (hw.asleep ha).2
    simp [hpc] at this
  | yieldRelease back =>
    cases hg
    obtain ⟨hc, hl, hd, ht⟩ := interruptible.spec (hw.back back (by rw [hpc]; rfl))
    have ht' : (s.proc p).holdsPtable = true := by simp [holdsPtable, hpc, hrun rfl]
    exact h.goto (h.dropsPtable ht' nofun (ht _ _) (by rw [hpc]; exact hl)) rfl (hrun rfl) hc (by simp [hd])
      (by simp [hpc, pending])

theorem Inv.pick (hs : s.ptable = some .scheduler) (hr : (s.proc p).state = .runnable) :
    Inv chan ({ s with ptable := some (.proc p) }.setProc p { s.proc p with state := .running }) := by
  have hw := h.wf p
  have hf : (s.proc p).holdsPtable = false := by
    refine Bool.eq_false_iff.mpr fun ht => ?_
    cases hs.symm.trans ((h.ptable p).mp ht)
  have hpc : (s.proc p).pc = .tidy ∨ ∃ b, (s.proc p).pc = .yieldRelease b := by
    refine (hw.ready hr).imp id fun hb => ?_
    cases hpc : (s.proc p).pc with
    | yieldRelease b => exact ⟨b, rfl⟩
    | yieldState b | yieldSched b => simp [holdsPtable, hpc] at hf
    | _ => rw [hpc] at hb; cases hb rfl
  refine h.local (h.takesPtable (by simp [hs]) ?_ rfl) ⟨nofun, ?_, hw.back, ?_, nofun⟩ rfl (h.decided p) (fun _ _ => id)
    fun hc => .inl (.inr (hc.resolve_left nofun))
  all_goals rcases hpc with hpc | ⟨b, hpc⟩ <;> simp [hpc, holdsPtable, switching]

theorem Inv.free (hs : ∀ q, s.ptable ≠ some (.proc q)) (ho : ∀ q, o ≠ some (.proc q)) : Inv chan { s with ptable := o } :=
  ⟨h.wf, h.lk, fun q => (h.ptable q).trans (by simp [hs q, ho q]), h.decided, h.committed⟩

theorem Inv.step {a : Act} (hs : step chan s a = some s') : Inv chan s' := by
  cases a with
  | wait p | signal p early =>
    simp only [Sleep.step, ite_none_right_eq_some, some.injEq] at hs
    obtain ⟨⟨hr, hpc⟩, rfl⟩ := hs
    exact h.goto (h.keeps (by rw [hpc]; rfl) (by simp [holdsPtable, hpc]) s.cond) rfl hr rfl nofun
      (by simp [hpc, pending])
  | go p => exact h.go hs
  | consume p =>
    simp only [Sleep.step, ite_none_right_eq_some, some.injEq] at hs
    obtain ⟨⟨hr, hpc⟩, rfl⟩ := hs
    exact h.moves (h.keeps (by rw [hpc]; rfl) (by simp [holdsPtable, hpc]) false) (plain.wf rfl hr)
      (fun _ _ => rfl) nofun
  | preempt p =>
    simp only [Sleep.step, ite_none_right_eq_some] at hs
    obtain ⟨⟨hr, hi⟩, hs⟩ := hs
    obtain ⟨hf, rfl⟩ := acquirePtable_some hs
    obtain ⟨-, hl, -, -⟩ := interruptible.spec hi
    exact h.local (h.takesPtable (by simp [hf]) rfl hl.symm)
      ⟨by simp [hr], nofun, fun b hb => Option.some.inj hb ▸ hi, nofun, by simp [hr]⟩ rfl nofun (fun _ _ => id)
      (by simp [Proc.committed, hr])
  | schedule =>
    simp only [Sleep.step, Option.ite_none_right_eq_some, Option.some.injEq] at hs
    obtain ⟨hf, rfl⟩ := hs
    exact h.free (by simp [hf]) nofun
  | pick p =>
    simp only [Sleep.step, ite_none_right_eq_some, some.injEq] at hs
    obtain ⟨⟨hf, hr⟩, rfl⟩ := hs
    exact h.pick hf hr
  | unschedule =>
    simp only [Sleep.step, ite_none_right_eq_some, some.injEq] at hs
    obtain ⟨hf, rfl⟩ := hs
    exact h.free (by simp [hf]) nofun

end

end Xv6.Sleep
