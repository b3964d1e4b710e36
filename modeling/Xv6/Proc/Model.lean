import Mathlib.Data.Fin.Basic
import Mathlib.Data.List.FinRange
import Mathlib.Logic.Function.Basic

/-!
# The process table and the schedulers (`proc.c`)

Any number of processors run `scheduler` and the processes that it selects. A section under `ptable.lock` is one action,
except where the lock is handed over by `swtch`: the change of `p->state`, the switch itself and what follows it are
actions of their own, and the lock is held in between. `nextpid` does not wrap.
-/

namespace Xv6.Ptable

def NPROC : Nat := 64

/-- `&ptable.proc[i]`. -/
abbrev Slot := Fin NPROC

def initproc : Slot := ⟨0, by decide⟩

def child : Slot := ⟨1, by decide⟩

inductive ProcState where
  | UNUSED
  | EMBRYO
  | SLEEPING
  | RUNNABLE
  | RUNNING
  | ZOMBIE
deriving DecidableEq

/-- What a process sleeps on: in `wait`, its own entry of the table. -/
inductive Chan where
  | proc (p : Slot)
  | addr (a : Nat)
deriving DecidableEq

inductive Resume where
  | forkret
  | yield
  | sleep
  | wait
  | exit
deriving DecidableEq

/-- How far a process is with `fork`, which may be interrupted. -/
inductive Pc where
  | none
  /-- `np` is an `EMBRYO`, and `allocproc` asks for its kernel stack. -/
  | kstack (np : Slot)
  | copy (np : Slot)
  | ready (np : Slot)
deriving DecidableEq

structure Proc where
  state : ProcState
  pid : Nat
  parent : Option Slot
  chan : Option Chan
  killed : Bool
  /-- `p->context` is where the process has to go on: `swtch` or `allocproc` has stored it, and nobody has used it. -/
  saved : Bool
  resume : Resume
  pc : Pc

inductive Mode where
  | idle
  /-- The scheduler looks at `ptable.proc[i]`. -/
  | scan
  /-- The scheduler has selected `p` and is about to switch to it. -/
  | enter (p : Slot)
  /-- Process `p` has come back from `swtch`. -/
  | resumed (p : Slot)
  /-- Process `p` runs, without the lock. -/
  | run (p : Slot)
  /-- Process `p` has changed its state and is about to switch in `sched`. -/
  | sched (p : Slot)
  /-- The scheduler has come back from `swtch`. -/
  | back (p : Slot)
deriving DecidableEq

def Mode.executes : Mode → Option Slot
  | .resumed p | .run p | .sched p => some p
  | _ => none

structure Cpu where
  /-- `c->proc`. -/
  proc : Option Slot
  mode : Mode
  /-- The scheduler's `p`. -/
  i : Nat

/-- The process table, with a record of the calls of `fork`, `exit` and `wait`, by pid. -/
structure Table where
  proc : Slot → Proc
  nextpid : Nat
  /-- The child and the caller of each `fork` that succeeded. -/
  forks : List (Nat × Nat)
  exits : List Nat
  /-- The caller and the result of each `wait` that has returned. -/
  waits : List (Nat × Int)

namespace Table

variable (t : Table) (p : Slot)

def setProc (q : Proc) : Table := { t with proc := Function.update t.proc p q }

def find (f : Proc → Bool) : Option Slot := (List.finRange NPROC).find? fun p => f (t.proc p)

def wakeup1 (chan : Option Chan) : Table :=
  { t with proc := fun p =>
    if (t.proc p).state = .SLEEPING ∧ (t.proc p).chan = chan then { t.proc p with state := .RUNNABLE } else t.proc p }

def kill (pid : Int) : Table :=
  match t.find fun q => (q.pid : Int) = pid with
  | some p => t.setProc p { t.proc p with
      killed := true
      state := if (t.proc p).state = .SLEEPING then .RUNNABLE else (t.proc p).state }
  | none => t

def killRet (pid : Int) : Int := if (t.find fun q => (q.pid : Int) = pid).isSome then 0 else -1

/-- `fork` of `p` writes `a` to the slot `np` and goes on at `c`. -/
def fill (np : Slot) (a : Proc) (c : Pc) : Table :=
  let t := t.setProc np a
  t.setProc p { t.proc p with pc := c }

def allocproc : Table :=
  match t.find fun q => q.state = .UNUSED with
  | some np =>
    { t.fill p np { t.proc np with state := .EMBRYO, pid := t.nextpid } (.kstack np) with nextpid := t.nextpid + 1 }
  | none => t

/-- The rest of `allocproc`, where `kalloc` may fail. -/
def kstack (np : Slot) (ok : Bool) : Table :=
  if ok then t.fill p np { t.proc np with saved := true, resume := .forkret, pc := .none } (.copy np)
  else t.fill p np { t.proc np with state := .UNUSED } .none

/-- `copyuvm`, which may fail; then the kernel stack is freed. -/
def copy (np : Slot) (ok : Bool) : Table :=
  if ok then t.fill p np { t.proc np with parent := some p } (.ready np)
  else t.fill p np { t.proc np with state := .UNUSED, saved := false } .none

def ready (np : Slot) : Table :=
  { t.fill p np { t.proc np with state := .RUNNABLE } .none with
    forks := ((t.proc np).pid, (t.proc p).pid) :: t.forks }

/-- One step of the loop in `exit` that passes the children of `p` to init. -/
def reparent1 (q : Slot) : Table :=
  if (t.proc q).parent = some p then
    let t := t.setProc q { t.proc q with parent := some initproc }
    if (t.proc q).state = .ZOMBIE then t.wakeup1 (some (.proc initproc)) else t
  else t

def reparent : Table := (List.finRange NPROC).foldl (fun t q => t.reparent1 p q) t

def exit : Table :=
  let t := (t.wakeup1 ((t.proc p).parent.map .proc)).reparent p
  { t.setProc p { t.proc p with state := .ZOMBIE, resume := .exit } with exits := (t.proc p).pid :: t.exits }

def reap (q : Slot) : Table :=
  { t.setProc q { t.proc q with state := .UNUSED, pid := 0, parent := none, killed := false, saved := false } with
    waits := ((t.proc p).pid, ↑(t.proc q).pid) :: t.waits }

/-- `wait` returns -1. -/
def noChild : Table := { t with waits := ((t.proc p).pid, -1) :: t.waits }

inductive Round where
  | child (q : Slot)
  | fail
  | sleep
deriving DecidableEq

def round : Round :=
  match t.find fun q => q.parent = some p ∧ q.state = .ZOMBIE with
  | some q => .child q
  | none =>
    if (t.find fun q => q.parent = some p) = none ∨ (t.proc p).killed then .fail
    else .sleep

/-- `sleep(chan, lk)` up to `sched`, with `ptable.lock`. -/
def sleep (chan : Chan) (r : Resume) : Table :=
  t.setProc p { t.proc p with chan := some chan, state := .SLEEPING, resume := r }

def tidy : Table := t.setProc p { t.proc p with chan := none }

end Table

structure State (n : Nat) where
  tab : Table
  cpu : Fin n → Cpu
  lock : Option (Fin n)

variable {n : Nat}

def init : State n where
  tab :=
    { proc := fun p =>
        if p = initproc then ⟨.RUNNABLE, 1, none, none, false, true, .forkret, .none⟩
        else ⟨.UNUSED, 0, none, none, false, false, .forkret, .none⟩
      nextpid := 2
      forks := []
      exits := []
      waits := [] }
  cpu _ := ⟨none, .idle, 0⟩
  lock := none

/-- What a process does on its own, when it does not hold the lock. -/
inductive Call where
  | yield
  | sleep (a : Nat)
  | wakeup (a : Nat)
  | kill (pid : Int)
  /-- A trap sets `myproc()->killed`. -/
  | fault
  | fork
  | kstack (ok : Bool)
  | copy (ok : Bool)
  | ready
  | exit
  | wait

inductive Act (n : Nat) where
  | acquire (c : Fin n)
  | scan (c : Fin n)
  | swtch (c : Fin n)
  | resume (c : Fin n)
  /-- An interrupt handler calls `wakeup`. -/
  | intr (c : Fin n) (a : Nat)
  | call (c : Fin n) (k : Call)

namespace State

variable (s : State n) (c : Fin n) (p : Slot)

def setCpu (k : Cpu) : State n := { s with cpu := Function.update s.cpu c k }

def setMode (m : Mode) : State n := s.setCpu c { s.cpu c with mode := m }

def release (t : Table) : State n := { s.setMode c (.run p) with tab := t, lock := none }

def sched (t : Table) : State n := { s.setMode c (.sched p) with tab := t, lock := some c }

def wait (t : Table) : State n :=
  match t.round p with
  | .child q => s.release c p (t.reap p q)
  | .fail => s.release c p (t.noChild p)
  | .sleep => s.sched c p (t.sleep p (.proc p) .wait)

def resume : Option (State n) :=
  match (s.tab.proc p).resume with
  | .forkret | .yield => some (s.release c p s.tab)
  | .sleep => some (s.release c p (s.tab.tidy p))
  | .wait => some (s.wait c p (s.tab.tidy p))
  -- `panic("zombie exit")`
  | .exit => none

def scan : State n :=
  let k := s.cpu c
  if h : k.i < NPROC then
    let p : Slot := ⟨k.i, h⟩
    if (s.tab.proc p).state = .RUNNABLE then
      { s.setCpu c { k with proc := some p, mode := .enter p } with
        tab := s.tab.setProc p { s.tab.proc p with state := .RUNNING } }
    else s.setCpu c { k with i := k.i + 1 }
  else { s.setMode c .idle with lock := none }

def free : Call → Option Table
  | .fault => some (s.tab.setProc p { s.tab.proc p with killed := true })
  | .kstack ok =>
    match (s.tab.proc p).pc with
    | .kstack np => some (s.tab.kstack p np ok)
    | _ => none
  | .copy ok =>
    match (s.tab.proc p).pc with
    | .copy np => some (s.tab.copy p np ok)
    | _ => none
  | _ => none

def locked (k : Call) : Option (State n) :=
  match k, (s.tab.proc p).pc with
  | .yield, _ => some (s.sched c p (s.tab.setProc p { s.tab.proc p with state := .RUNNABLE, resume := .yield }))
  | .sleep a, _ => some (s.sched c p (s.tab.sleep p (.addr a) .sleep))
  | .wakeup a, _ => some { s with tab := s.tab.wakeup1 (some (.addr a)) }
  | .kill pid, _ => some { s with tab := s.tab.kill pid }
  | .fork, .none => some { s with tab := s.tab.allocproc p }
  | .ready, .ready np => some { s with tab := s.tab.ready p np }
  | .exit, .none =>
    -- `panic("init exiting")`
    if p = initproc then none else some (s.sched c p (s.tab.exit p))
  | .wait, .none => some (s.wait c p s.tab)
  | _, _ => none

def call (k : Call) : Option (State n) :=
  match s.free p k with
  | some t => some { s with tab := t }
  | none => if s.lock = none then s.locked c p k else none

def swtch : Option (State n) :=
  match (s.cpu c).mode, (s.cpu c).proc with
  | .enter p, _ => some { s.setMode c (.resumed p) with tab := s.tab.setProc p { s.tab.proc p with saved := false } }
  | .sched _, some p => some { s.setMode c (.back p) with tab := s.tab.setProc p { s.tab.proc p with saved := true } }
  | .back _, _ => some (s.setCpu c ⟨none, .scan, (s.cpu c).i + 1⟩)
  | _, _ => none

end State

def step (s : State n) : Act n → Option (State n)
  | .acquire c =>
    if (s.cpu c).mode = .idle ∧ s.lock = none then some { s.setCpu c ⟨(s.cpu c).proc, .scan, 0⟩ with lock := some c } else none
  | .scan c => if (s.cpu c).mode = .scan then some (s.scan c) else none
  | .swtch c => s.swtch c
  | .resume c =>
    match (s.cpu c).mode, (s.cpu c).proc with
    | .resumed _, some p => s.resume c p
    | _, _ => none
  | .intr c a =>
    match (s.cpu c).mode with
    | .idle | .run _ => if s.lock = none then some { s with tab := s.tab.wakeup1 (some (.addr a)) } else none
    | _ => none
  | .call c k =>
    match (s.cpu c).mode, (s.cpu c).proc with
    | .run _, some p => s.call c p k
    | _, _ => none

end Xv6.Ptable
