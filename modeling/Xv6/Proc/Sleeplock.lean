import Mathlib.Tactic.SplitIfs
import Xv6.Lib.Trans
import Xv6.Proc.Lemmas.Sleep

/-!
# Sleep-locks (`sleeplock.c`)

In the machine of `sleep` and `wakeup`, the spinlock is `lk->lk` and the condition is `!lk->locked`: `acquiresleep` is a waiter
that makes the condition false, and `releasesleep` a waker that calls `wakeup` before it releases `lk->lk`. Around their steps
stand the other statements of the two, and `holdingsleep`.
-/

namespace Xv6.Sleeplock

open Xv6.Lib Xv6.Sleep Function Option State

/-- A statement that the process with `lk->lk` executes next. -/
inductive Line where
  /-- `lk->pid = myproc()->pid`. -/
  | setPid
  /-- `lk->pid = 0`. -/
  | clearPid
  /-- `r = lk->locked && (lk->pid == myproc()->pid)`. -/
  | read

structure State where
  sleep : Sleep.State
  pid : Int
  line : Option Line
  /-- The process is between `acquiresleep` and `releasesleep`. -/
  owns : Nat → Bool
  answer : Nat → Bool

def State.locked (s : State) : Bool := !s.sleep.cond

def State.next (s : State) (p : Nat) : Option Line := if s.sleep.lk = some p then s.line else none

def init : State where
  sleep := { Sleep.init with cond := true }
  pid := 0
  line := none
  owns := fun _ => false
  answer := fun _ => false

inductive Act where
  | acquiresleep (p : Nat)
  | releasesleep (p : Nat)
  | holdingsleep (p : Nat)
  | go (p : Nat)
  | preempt (p : Nat)
  | schedule
  | pick (p : Nat)
  | unschedule
  | kill (p : Nat)

variable (chan : Nat) (pid : Nat → Int)

def go (s : State) (p : Nat) : Option State :=
  match s.next p with
  | some .setPid => some { s with pid := pid p, owns := update s.owns p true, line := none }
  | some .clearPid => some { s with pid := 0, line := none }
  | some .read => some { s with answer := update s.answer p (s.locked && s.pid = pid p), line := none }
  | none =>
    match (s.sleep.proc p).pc with
    -- `lk->locked = 1`
    | .use => (Sleep.step chan s.sleep (.consume p)).map fun x => { s with sleep := x, line := some .setPid }
    -- `lk->locked = 0`
    | .set _ => (Sleep.go chan s.sleep p).map fun x =>
      { s with sleep := x, owns := update s.owns p false, line := some .clearPid }
    | _ => (Sleep.go chan s.sleep p).map ({ s with sleep := · })

def step (s : State) : Act → Option State
  | .acquiresleep p => (Sleep.step chan s.sleep (.wait p)).map ({ s with sleep := · })
  | .releasesleep p => if s.owns p then (Sleep.step chan s.sleep (.signal p true)).map ({ s with sleep := · }) else none
  | .holdingsleep p =>
    if (s.sleep.proc p).state = .running ∧ (s.sleep.proc p).pc = .idle then
      (s.sleep.acquire p .release).map fun x => { s with sleep := x, line := some .read }
    else none
  | .go p => go chan pid s p
  | .preempt p => (Sleep.step chan s.sleep (.preempt p)).map ({ s with sleep := · })
  | .schedule => (Sleep.step chan s.sleep .schedule).map ({ s with sleep := · })
  | .pick p => (Sleep.step chan s.sleep (.pick p)).map ({ s with sleep := · })
  | .unschedule => (Sleep.step chan s.sleep .unschedule).map ({ s with sleep := · })
  | .kill p =>
    if s.sleep.ptable = none ∧ (s.sleep.proc p).state = .sleeping then
      some { s with sleep := s.sleep.setProc p { s.sleep.proc p with state := .runnable } }
    else none

def Runs : State → Prop := Reach (· = init) (step chan pid) fun _ _ => True

variable {chan : Nat} {pid : Nat → Int} {s s' : State} {x x' : Sleep.State} {p : Nat} {b : Bool}

/-! ## Steps of `sleep` and `wakeup` -/

/-- A process, which has the lock if `b`, calls `wakeup` before it releases `lk->lk`, and calls `releasesleep` with the lock. -/
def Calls (b : Bool) : Pc → Prop
  | .wakerAcquire early | .set early => early = true ∧ b = true
  | .wakerRelease early | .wakeupAcquire early | .wakeup1 early | .wakeupRelease early => early = true
  | .yieldState back | .yieldSched back | .yieldRelease back => Calls b back
  | _ => True

theorem Calls.mono {pc : Pc} (h : Calls b pc) : Calls true pc := by
  induction pc with
  | wakerAcquire | set => exact ⟨h.1, rfl⟩
  | yieldState _ ih | yieldSched _ ih | yieldRelease _ ih => exact ih h
  | _ => exact h

theorem Calls.holdsLk {pc : Pc} (h : Calls b pc) (hp : pc.pending = true) (hb : ∀ back, pc.back = some back → back.interruptible = true) :
    pc.holdsLk = true := by
  cases pc with
  | yieldState back | yieldSched back | yieldRelease back =>
    have hi := hb back rfl
    cases back <;> simp_all [Calls, Pc.pending, Pc.interruptible]
  | _ => simp_all [Calls, Pc.pending, Pc.holdsLk]

structure Frames (b : Bool) (x x' : Sleep.State) (p : Nat) : Prop where
  cond : x'.cond = x.cond
  pc : ∀ q, q ≠ p → (x'.proc q).pc = (x.proc q).pc
  calls : Calls b (x'.proc p).pc
  use : (x'.proc p).pc = .use → x.cond = true

theorem Frames.of_update {r : Proc} (hp : x'.proc = update x.proc p r) (hcond : x'.cond = x.cond) (hc : Calls b r.pc)
    (hu : r.pc = .use → x.cond = true) : Frames b x x' p := by
  refine ⟨hcond, fun q hq => ?_, ?_, ?_⟩ <;> rw [hp]
  · rw [update_of_ne hq]
  · rwa [update_self]
  · rwa [update_self]

theorem go_frames (h : Sleep.Inv chan x) (hc : Calls b (x.proc p).pc) (hset : ∀ early, (x.proc p).pc ≠ .set early)
    (hg : Sleep.go chan x p = some x') : Frames b x x' p := by
  have hback := (h.wf p).back
  unfold Sleep.go at hg
  split at hg
  case isFalse => cases hg
  cases hpc : (x.proc p).pc with rw [hpc] at hg hc
  | idle => cases hg
  | set early => exact absurd hpc (hset early)
  | acquire | reacquire =>
    dsimp only [acquire] at hg
    split_ifs at hg
    cases hg
    exact .of_update rfl rfl trivial (by rintro ⟨⟩)
  | wakerAcquire early =>
    dsimp only [acquire] at hg
    split_ifs at hg
    cases hg
    exact .of_update rfl rfl hc (by rintro ⟨⟩)
  | sleepAcquire | wakeupAcquire =>
    obtain ⟨-, rfl⟩ := acquirePtable_some hg
    exact .of_update rfl rfl hc (by rintro ⟨⟩)
  | test =>
    cases hg
    refine .of_update rfl rfl ?_ fun hu => ?_ <;> dsimp only at *
    · split_ifs <;> trivial
    · split_ifs at hu
      assumption
  | wakerRelease early | wakeupRelease early =>
    cases hg
    cases hc
    exact .of_update rfl rfl (by simp [Calls]) (by rintro ⟨⟩)
  | wakeup1 early =>
    cases hg
    refine ⟨rfl, fun q hq => ?_, ?_, ?_⟩ <;> simp only [setPc, setProc]
    · rw [update_of_ne hq, wakeup1]
      dsimp only
      split_ifs <;> rfl
    · rw [update_self]
      exact hc
    · rw [update_self]
      rintro ⟨⟩
  | yieldRelease back =>
    cases hg
    refine .of_update rfl rfl hc fun hu => ?_
    have := hback back (by rw [hpc]; rfl)
    rw [show back = .use from hu] at this
    cases this
  | _ =>
    cases hg
    exact .of_update rfl rfl hc (by rintro ⟨⟩)

/-! ## The lock -/

/-- `lk->locked`, `lk->pid` and who has the lock, before and after each statement. -/
def Books (pid : Nat → Int) (s : State) : Prop :=
  match s.line with
  | some .setPid => s.locked = true ∧ s.pid = 0 ∧ ∀ q, s.owns q = false
  | some .clearPid => s.locked = false ∧ ∀ q, s.owns q = false
  | _ => if s.locked then ∃ p, s.pid = pid p ∧ ∀ q, s.owns q = true ↔ q = p else s.pid = 0 ∧ ∀ q, s.owns q = false

structure Inv (chan : Nat) (pid : Nat → Int) (s : State) : Prop where
  sleep : Sleep.Inv chan s.sleep
  busy : s.line ≠ none → s.sleep.lk ≠ none
  books : Books pid s
  use : ∀ p, (s.sleep.proc p).pc = .use → s.locked = false
  calls : ∀ p, Calls (s.owns p) (s.sleep.proc p).pc

theorem inv_init : Inv chan pid init where
  sleep := by
    have h : Sleep.Inv chan Sleep.init := Sleep.inv_init
    refine ⟨h.wf, h.lk, h.ptable, nofun, fun _ q hq => ?_⟩
    rcases hq with hq | hq | hq <;> cases hq
  busy h := absurd rfl h
  books := ⟨rfl, fun _ => rfl⟩
  use _ h := by cases h
  calls _ := trivial

section

variable (h : Inv chan pid s)
include h

theorem Inv.keep (hx : Sleep.Inv chan x) (hf : Frames (s.owns p) s.sleep x p)
    (hl : s.line ≠ none → x.lk ≠ none) : Inv chan pid { s with sleep := x } := by
  have hlocked : { s with sleep := x }.locked = s.locked := by rw [State.locked, hf.cond]; rfl
  refine ⟨hx, hl, ?_, fun q hq => ?_, fun q => ?_⟩
  · unfold Books
    rw [hlocked]
    exact h.books
  · rw [hlocked]
    by_cases hqp : q = p
    · subst hqp
      rw [State.locked, hf.use hq]
      rfl
    · exact h.use q (hf.pc q hqp ▸ hq)
  · by_cases hqp : q = p
    · subst hqp
      exact hf.calls
    · dsimp only
      rw [hf.pc q hqp]
      exact h.calls q

theorem Inv.setPid (hl : s.line = some .setPid) :
    Inv chan pid { s with pid := pid p, owns := update s.owns p true, line := none } := by
  have hb := h.books
  simp only [Books, hl] at hb
  obtain ⟨hlocked, -, hno⟩ := hb
  refine ⟨h.sleep, nofun, ?_, h.use, fun q => ?_⟩
  · refine (if_pos hlocked).mpr ⟨p, rfl, fun q => ?_⟩
    by_cases hq : q = p
    · simp [hq]
    · simp [hq, hno q]
  · by_cases hq : q = p
    · subst hq
      simpa using (h.calls q).mono
    · simpa [hq] using h.calls q

theorem Inv.take (hn : s.next p = none) (hpc : (s.sleep.proc p).pc = .use)
    (hx : Sleep.step chan s.sleep (.consume p) = some x) : Inv chan pid { s with sleep := x, line := some .setPid } := by
  have hi := h.sleep.step hx
  have hlk : s.sleep.lk = some p := (h.sleep.lk p).1 (by rw [hpc]; rfl)
  have hb := h.books
  rw [State.next, if_pos hlk] at hn
  simp only [Books, hn, h.use p hpc] at hb
  simp only [Sleep.step, Option.ite_none_right_eq_some, Option.some.injEq] at hx
  obtain ⟨-, rfl⟩ := hx
  refine ⟨hi, fun _ => ne_none_iff_exists'.2 ⟨p, hlk⟩, ⟨rfl, hb.1, hb.2⟩, fun q hq => ?_, fun q => ?_⟩ <;>
    simp only [setPc, setProc] at * <;> by_cases hqp : q = p
  · subst hqp
    simp at hq
  · rw [update_of_ne hqp] at hq
    have hq' := (h.sleep.lk q).1 (by rw [hq]; rfl)
    exact absurd (some.inj (hq'.symm.trans hlk)) hqp
  · subst hqp
    rw [update_self]
    trivial
  · rw [update_of_ne hqp]
    exact h.calls q

theorem Inv.drop {early : Bool} (hn : s.next p = none) (hpc : (s.sleep.proc p).pc = .set early)
    (hx : Sleep.go chan s.sleep p = some x) :
    Inv chan pid { s with sleep := x, owns := update s.owns p false, line := some .clearPid } := by
  have hi := h.sleep.go hx
  have hlk : s.sleep.lk = some p := (h.sleep.lk p).1 (by rw [hpc]; rfl)
  have hb := h.books
  obtain ⟨rfl, ho⟩ : early = true ∧ s.owns p = true := by simpa [hpc, Calls] using h.calls p
  rw [State.next, if_pos hlk] at hn
  simp only [Books, hn] at hb
  have hno (q : Nat) (hq : q ≠ p) : s.owns q = false := by
    split_ifs at hb
    · obtain ⟨o, -, hb⟩ := hb
      rw [← Bool.not_eq_true, hb q, ← (hb p).1 ho]
      exact hq
    · exact hb.2 q
  simp only [Sleep.go, hpc, ite_none_right_eq_some, some.injEq] at hx
  obtain ⟨-, rfl⟩ := hx
  refine ⟨hi, fun _ => ne_none_iff_exists'.2 ⟨p, hlk⟩, ⟨rfl, fun q => ?_⟩, fun _ _ => rfl, fun q => ?_⟩ <;>
    simp only [setPc, setProc] at * <;> by_cases hqp : q = p
  · subst hqp
    rw [update_self]
  · rw [update_of_ne hqp, hno q hqp]
  · subst hqp
    simp [Calls]
  · rw [update_of_ne hqp, update_of_ne hqp]
    exact h.calls q

theorem Inv.go (hg : go chan pid s p = some s') : Inv chan pid s' := by
  have hb := h.books
  unfold Sleeplock.go at hg
  have hline {l : Line} (hn : s.next p = some l) : s.line = some l := by
    rw [State.next] at hn
    split_ifs at hn
    exact hn
  split at hg <;> rename_i hn
  · cases hg
    exact h.setPid (hline hn)
  · cases hg
    simp only [Books, hline hn] at hb
    exact ⟨h.sleep, nofun, (if_neg (ne_true_of_eq_false hb.1)).mpr ⟨rfl, hb.2⟩, h.use, h.calls⟩
  · cases hg
    simp only [Books, hline hn] at hb
    exact ⟨h.sleep, nofun, hb, h.use, h.calls⟩
  · split at hg <;> obtain ⟨x, hx, rfl⟩ := map_eq_some_iff.1 hg
    · exact h.take hn ‹_› hx
    · exact h.drop hn ‹_› hx
    · have hf := go_frames h.sleep (h.calls p) ‹_› hx
      refine h.keep (h.sleep.go hx) hf fun hl => ?_
      obtain ⟨q, hq⟩ := ne_none_iff_exists'.1 (h.busy hl)
      have hqp : q ≠ p := by
        rintro rfl
        rw [State.next, if_pos hq] at hn
        exact hl hn
      -- the process with `lk->lk` has not moved
      rw [((h.sleep.go hx).lk q).1 (by rw [hf.pc q hqp]; exact (h.sleep.lk q).2 hq)]
      nofun

end

theorem inv_kill (h : Sleep.Inv chan x) (hp : x.ptable = none) (hs : (x.proc p).state = .sleeping) :
    Sleep.Inv chan (x.setProc p { x.proc p with state := .runnable }) := by
  obtain ⟨-, hpc⟩ := (h.committed_cases (.inl hs)).resolve_left (by simp [hp])
  have ht : { x.proc p with state := .runnable }.holdsPtable = (x.proc p).holdsPtable := by simp [Proc.holdsPtable, hpc, hs]
  refine h.local (h.keeps (r := { x.proc p with state := .runnable }) rfl ht x.cond) ?_ rfl (h.decided p) (fun _ _ => id) ?_
  · exact ⟨by simp, by simp [hpc], by simp [hpc, Pc.back], by simp [hpc, Pc.switching], fun _ => .inl hpc⟩
  · simp [Proc.committed, hpc]

theorem Inv.idle (h : Inv chan pid s) {r : Proc} (hx : Sleep.Inv chan x) (hp : x.proc = update s.sleep.proc p r)
    (hc : x.cond = s.sleep.cond) (hlk : x.lk = s.sleep.lk) (hr : Calls (s.owns p) r.pc)
    (hu : r.pc = .use → (s.sleep.proc p).pc = .use) : Inv chan pid { s with sleep := x } := by
  refine h.keep hx (.of_update hp hc hr fun hu' => ?_) fun hl => hlk ▸ h.busy hl
  simpa [State.locked] using h.use p (hu hu')

theorem Inv.step {a : Act} (h : Inv chan pid s) (hs : step chan pid s a = some s') : Inv chan pid s' := by
  cases a with simp only [Sleeplock.step] at hs
  | acquiresleep p =>
    obtain ⟨x, hx, rfl⟩ := map_eq_some_iff.1 hs
    have hi := h.sleep.step hx
    simp only [Sleep.step, ite_none_right_eq_some, some.injEq] at hx
    obtain ⟨-, rfl⟩ := hx
    exact h.idle hi rfl rfl rfl trivial (by rintro ⟨⟩)
  | releasesleep p =>
    split_ifs at hs with ho
    obtain ⟨x, hx, rfl⟩ := map_eq_some_iff.1 hs
    have hi := h.sleep.step hx
    simp only [Sleep.step, ite_none_right_eq_some, some.injEq] at hx
    obtain ⟨-, rfl⟩ := hx
    exact h.idle hi rfl rfl rfl ⟨rfl, ho⟩ (by rintro ⟨⟩)
  | holdingsleep p =>
    split_ifs at hs with hr
    obtain ⟨x, hx, rfl⟩ := map_eq_some_iff.1 hs
    have hi : Sleep.Inv chan x := h.sleep.acquire hr.1 (by simp [Proc.holdsPtable, hr.2]) rfl rfl rfl (by rw [hr.2]; rfl) hx
    simp only [acquire, ite_none_right_eq_some, some.injEq] at hx
    obtain ⟨hlk, rfl⟩ := hx
    have hl : s.line = none := not_not.1 fun hl => h.busy hl hlk
    have hk := h.keep hi (.of_update rfl rfl trivial (by rintro ⟨⟩)) (absurd hl)
    have hb := hk.books
    simp only [Books, hl] at hb
    exact ⟨hi, fun _ => (by rintro ⟨⟩), hb, hk.use, hk.calls⟩
  | go p => exact h.go hs
  | preempt p =>
    obtain ⟨x, hx, rfl⟩ := map_eq_some_iff.1 hs
    have hi := h.sleep.step hx
    simp only [Sleep.step, ite_none_right_eq_some] at hx
    obtain ⟨-, rfl⟩ := acquirePtable_some hx.2
    exact h.idle hi rfl rfl rfl (h.calls p) (by rintro ⟨⟩)
  | schedule | unschedule =>
    obtain ⟨x, hx, rfl⟩ := map_eq_some_iff.1 hs
    have hi := h.sleep.step hx
    simp only [Sleep.step, ite_none_right_eq_some, some.injEq] at hx
    obtain ⟨-, rfl⟩ := hx
    exact h.idle hi (update_eq_self 0 _).symm rfl rfl (h.calls 0) id
  | pick p =>
    obtain ⟨x, hx, rfl⟩ := map_eq_some_iff.1 hs
    have hi := h.sleep.step hx
    simp only [Sleep.step, ite_none_right_eq_some, some.injEq] at hx
    obtain ⟨-, rfl⟩ := hx
    exact h.idle hi rfl rfl rfl (h.calls p) id
  | kill p =>
    split_ifs at hs with hk
    cases hs
    exact h.idle (inv_kill h.sleep hk.1 hk.2) rfl rfl rfl (h.calls p) id

theorem Runs.inv (h : Runs chan pid s) : Inv chan pid s :=
  Reach.inv (P := Inv chan pid) (fun _ hs => by rw [hs]; exact inv_init) (fun _ _ _ hi _ hs => hi.step hs) h

theorem Inv.owner (h : Inv chan pid s) :
    (∃ p, s.locked = true ∧ s.pid = pid p ∧ ∀ q, s.owns q = true ↔ q = p) ∨
    (∀ q, s.owns q = false) ∧ (s.locked = true → s.sleep.lk ≠ none ∧ s.pid = 0) := by
  have hb := h.books
  have hbusy := h.busy
  unfold Books at hb
  split at hb <;> rename_i hl
  · exact .inr ⟨hb.2.2, fun _ => ⟨hbusy (by simp [hl]), hb.2.1⟩⟩
  · exact .inr ⟨hb.2, fun ht => by rw [hb.1] at ht; cases ht⟩
  · split_ifs at hb with hlocked
    · obtain ⟨p, hp⟩ := hb
      exact .inl ⟨p, hlocked, hp⟩
    · exact .inr ⟨hb.2, (absurd · hlocked)⟩

/-- Under `lk->lk`, `lk->locked` and `lk->pid` tell the process that has the lock from the others. -/
theorem Inv.read (h : Inv chan pid s) (hp : Injective pid) (hl : s.line = some .read) : (s.locked && s.pid = pid p) = s.owns p := by
  have hb := h.books
  simp only [Books, hl] at hb
  split_ifs at hb with hlocked
  · obtain ⟨o, ho, hb⟩ := hb
    rw [hlocked, ho, Bool.true_and, Bool.eq_iff_iff, decide_eq_true_eq, hp.eq_iff, hb p, eq_comm]
  · simp [hlocked, hb.2 p]

theorem Inv.locked_of_sleeping (h : Inv chan pid s) (hlk : s.sleep.lk = none) (hs : (s.sleep.proc p).state = .sleeping) :
    s.locked = true := by
  rw [← Bool.not_eq_false]
  intro hc
  obtain ⟨q, hq⟩ := h.sleep.committed (by simpa [State.locked] using hc) p (.inl hs)
  have hq' := (h.sleep.lk q).1 ((h.calls q).holdsLk hq (h.sleep.wf q).back)
  cases hlk.symm.trans hq'

/-- At most one process is between `acquiresleep` and `releasesleep`, `lk->locked` and `lk->pid` name it, `holdingsleep` answers
true to it only, and whoever sleeps for the lock while `lk->lk` is free sleeps while it is taken. -/
theorem sleeplock_exclusive (hr : Runs chan pid s) :
    (∀ p q, s.owns p = true → s.owns q = true → p = q) ∧
    (∀ p, s.owns p = true → s.locked = true ∧ s.pid = pid p) ∧
    (s.locked = true → s.sleep.lk = none ∨ s.pid ≠ 0 → ∃ p, s.owns p = true) ∧
    (Injective pid → ∀ p s', s.next p = some .read → step chan pid s (.go p) = some s' → s'.answer p = s'.owns p) ∧
    (s.sleep.lk = none → ∀ p, (s.sleep.proc p).state = .sleeping ∧ (s.sleep.proc p).chan = some chan → s.locked = true) := by
  have h := hr.inv
  refine ⟨fun p q hp hq => ?_, fun p hp => ?_, fun hl hf => ?_, fun hi p s' hn hs => ?_, fun hlk p hp => h.locked_of_sleeping hlk hp.1⟩
  · rcases h.owner with ⟨o, -, -, ho⟩ | ⟨ho, -⟩
    · rw [(ho p).1 hp, (ho q).1 hq]
    · rw [ho p] at hp
      cases hp
  · rcases h.owner with ⟨o, hl, hpid, ho⟩ | ⟨ho, -⟩
    · exact ⟨hl, (ho p).1 hp ▸ hpid⟩
    · rw [ho p] at hp
      cases hp
  · rcases h.owner with ⟨o, -, -, ho⟩ | ⟨-, ho⟩
    · exact ⟨o, (ho o).2 rfl⟩
    · obtain ⟨hlk, hpid⟩ := ho hl
      exact (hf.elim hlk (· hpid)).elim
  · simp only [step, go, hn, Option.some.injEq] at hs
    subst hs
    rw [State.next] at hn
    split_ifs at hn
    exact (update_self ..).trans (h.read hi hn)

/-- Process 1 sleeps until process 0 releases the lock. -/
theorem sleeplock_exclusive_waiter : ∃ s, Runs 7 (fun p => p + 1) s ∧ s.owns 0 = true ∧ (s.sleep.proc 1).state = .sleeping ∧
    s.locked = true ∧ s.pid = 1 ∧ ¬s.owns 1 = true := by
  obtain ⟨s, hr, h0, hlk, h1⟩ := Reach.of_runs
    (.acquiresleep 0 :: List.replicate 5 (.go 0) ++ .acquiresleep 1 :: List.replicate 7 (.go 1))
    (fun s => s.owns 0 = true ∧ s.sleep.lk = none ∧ (s.sleep.proc 1).state = .sleeping ∧ (s.sleep.proc 1).chan = some 7)
    (Reach.init rfl : Runs 7 (fun p => p + 1) init) (by decide +kernel)
  replace hr : Runs 7 (fun p => p + 1) s := hr
  obtain ⟨hone, hheld, -, -, hsleep⟩ := sleeplock_exclusive hr
  exact ⟨s, hr, h0, h1.1, hsleep hlk 1 h1, (hheld 0 h0).2, fun h => nomatch hone 0 1 h0 h⟩

end Xv6.Sleeplock
