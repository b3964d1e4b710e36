import Mathlib.Logic.Function.Basic

/-!
# `sleep` and `wakeup` (`proc.c`)

Any number of processes share a condition that is guarded by a spinlock `lk`. Waiters run

    acquire(lk); while(!cond) sleep(chan, lk); ...; release(lk);

where they may make the condition false again, and wakers make it true while they hold `lk` and call `wakeup(chan)` before
or after they release it. An action is one step of one process or of a scheduler. A process that holds no lock may be made
to `yield`.
-/

namespace Xv6.Sleep

inductive ProcState where
  | sleeping
  | runnable
  | running
deriving DecidableEq

inductive Pc where
  | idle
  /-- `acquire(lk)` of a waiter. -/
  | acquire
  /-- `while(!cond)`. -/
  | test
  /-- In `sleep`: `acquire(&ptable.lock)`. -/
  | sleepAcquire
  /-- `release(lk)`. -/
  | sleepRelease
  /-- `p->chan = chan`. -/
  | sleepChan
  /-- `p->state = SLEEPING`. -/
  | sleepState
  /-- `sched()`: the processor, with `ptable.lock`, goes to the scheduler. -/
  | sched
  /-- Back from `sched()`: `p->chan = 0`. -/
  | tidy
  /-- `release(&ptable.lock)`. -/
  | sleepDone
  /-- `acquire(lk)` at the end of `sleep`. -/
  | reacquire
  | use
  /-- `release(lk)`. -/
  | release
  /-- A waker, which calls `wakeup` before `release(lk)` if `early`: `acquire(lk)`. -/
  | wakerAcquire (early : Bool)
  /-- `cond = 1`. -/
  | set (early : Bool)
  /-- `release(lk)`. -/
  | wakerRelease (early : Bool)
  /-- In `wakeup`: `acquire(&ptable.lock)`. -/
  | wakeupAcquire (early : Bool)
  | wakeup1 (early : Bool)
  /-- `release(&ptable.lock)`. -/
  | wakeupRelease (early : Bool)
  /-- In `yield`, which goes on with `back`: `p->state = RUNNABLE`. -/
  | yieldState (back : Pc)
  | yieldSched (back : Pc)
  /-- `release(&ptable.lock)`. -/
  | yieldRelease (back : Pc)
deriving DecidableEq

structure Proc where
  state : ProcState
  chan : Option Nat
  pc : Pc

/-- Who holds `ptable.lock`: a process or the scheduler of some processor. -/
inductive Holder where
  | proc (p : Nat)
  | scheduler
deriving DecidableEq

structure State where
  proc : Nat → Proc
  lk : Option Nat
  ptable : Option Holder
  cond : Bool

def init : State where
  proc := fun _ => ⟨.running, none, .idle⟩
  lk := none
  ptable := none
  cond := false

namespace State

def setProc (s : State) (p : Nat) (q : Proc) : State := { s with proc := Function.update s.proc p q }

def setPc (s : State) (p : Nat) (pc : Pc) : State := s.setProc p { s.proc p with pc := pc }

def acquire (s : State) (p : Nat) (pc : Pc) : Option State :=
  if s.lk = none then some ({ s with lk := some p }.setPc p pc) else none

def acquirePtable (s : State) (p : Nat) (pc : Pc) : Option State :=
  if s.ptable = none then some ({ s with ptable := some (.proc p) }.setPc p pc) else none

def wakeup1 (s : State) (chan : Nat) : State :=
  { s with proc := fun p =>
    if (s.proc p).state = .sleeping ∧ (s.proc p).chan = some chan then { s.proc p with state := .runnable } else s.proc p }

end State

def Pc.switching : Pc → Bool
  | .sched | .yieldSched _ => true
  | _ => false

/-- The process has a processor: it is `RUNNING`, or in `sched` after it has changed its state. -/
def Proc.executes (q : Proc) : Prop := q.state = .running ∨ q.pc.switching = true

instance (q : Proc) : Decidable q.executes := inferInstanceAs (Decidable (_ ∨ _))

def Pc.pending : Pc → Bool
  | .wakerRelease false | .wakeupAcquire _ | .wakeup1 _ => true
  | .yieldState back | .yieldSched back | .yieldRelease back => back.pending
  | _ => false

/-- Interrupts are enabled, since the process holds no spinlock. -/
def Pc.interruptible : Pc → Bool
  | .idle | .acquire | .reacquire | .wakerAcquire _ | .wakeupAcquire false => true
  | _ => false

variable (chan : Nat)

def go (s : State) (p : Nat) : Option State :=
  if (s.proc p).executes then
    match (s.proc p).pc with
    | .idle => none
    | .acquire => s.acquire p .test
    | .test => some (s.setPc p (if s.cond then .use else .sleepAcquire))
    | .sleepAcquire => s.acquirePtable p .sleepRelease
    | .sleepRelease => some ({ s with lk := none }.setPc p .sleepChan)
    | .sleepChan => some (s.setProc p { s.proc p with chan := some chan, pc := .sleepState })
    | .sleepState => some (s.setProc p { s.proc p with state := .sleeping, pc := .sched })
    | .sched => some ({ s with ptable := some .scheduler }.setPc p .tidy)
    | .tidy => some (s.setProc p { s.proc p with chan := none, pc := .sleepDone })
    | .sleepDone => some ({ s with ptable := none }.setPc p .reacquire)
    | .reacquire => s.acquire p .test
    | .use => some (s.setPc p .release)
    | .release => some ({ s with lk := none }.setPc p .idle)
    | .wakerAcquire early => s.acquire p (.set early)
    | .set early => some ({ s with cond := true }.setPc p (if early then .wakeupAcquire early else .wakerRelease early))
    | .wakerRelease early => some ({ s with lk := none }.setPc p (if early then .idle else .wakeupAcquire early))
    | .wakeupAcquire early => s.acquirePtable p (.wakeup1 early)
    | .wakeup1 early => some ((s.wakeup1 chan).setPc p (.wakeupRelease early))
    | .wakeupRelease early => some ({ s with ptable := none }.setPc p (if early then .wakerRelease early else .idle))
    | .yieldState back => some (s.setProc p { s.proc p with state := .runnable, pc := .yieldSched back })
    | .yieldSched back => some ({ s with ptable := some .scheduler }.setPc p (.yieldRelease back))
    | .yieldRelease back => some ({ s with ptable := none }.setPc p back)
  else none

inductive Act where
  | wait (p : Nat)
  | signal (p : Nat) (early : Bool)
  | go (p : Nat)
  /-- A process that has found the condition true makes it false. -/
  | consume (p : Nat)
  | preempt (p : Nat)
  /-- A scheduler takes `ptable.lock`. -/
  | schedule
  /-- It switches to `p`, which gets `ptable.lock`. -/
  | pick (p : Nat)
  | unschedule

def step (s : State) : Act → Option State
  | .wait p =>
    if (s.proc p).state = .running ∧ (s.proc p).pc = .idle then some (s.setPc p .acquire) else none
  | .signal p early =>
    if (s.proc p).state = .running ∧ (s.proc p).pc = .idle then some (s.setPc p (.wakerAcquire early)) else none
  | .go p => go chan s p
  | .consume p =>
    if (s.proc p).state = .running ∧ (s.proc p).pc = .use then some ({ s with cond := false }.setPc p .release) else none
  | .preempt p =>
    if (s.proc p).state = .running ∧ (s.proc p).pc.interruptible then s.acquirePtable p (.yieldState (s.proc p).pc) else none
  | .schedule => if s.ptable = none then some { s with ptable := some .scheduler } else none
  | .pick p =>
    if s.ptable = some .scheduler ∧ (s.proc p).state = .runnable then
      some ({ s with ptable := some (.proc p) }.setProc p { s.proc p with state := .running })
    else none
  | .unschedule => if s.ptable = some .scheduler then some { s with ptable := none } else none

end Xv6.Sleep
