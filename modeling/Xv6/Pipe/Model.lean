import Xv6.Param

/-!
# Pipes (`pipe.c`)

Any number of processes call `pipewrite`, `piperead` and `pipeclose` on one pipe. An action is one step of one process:
taking or releasing `p->lock`, one test or one pass of a loop, one call of `wakeup`. `sleep` is one action, since a process
is asleep before `ptable.lock` is free again. `kill` may come between any two steps.
-/

namespace Xv6.Pipe

open Xv6.Lib

def PIPESIZE : Nat := 512

structure Pipe where
  data : Bytes PIPESIZE
  nread : BitVec 32
  nwrite : BitVec 32
  readopen : Bool
  writeopen : Bool

inductive Chan where
  | nread
  | nwrite
deriving DecidableEq

inductive WriteAt where
  | acquire
  /-- `i < n`. -/
  | loop
  /-- The test of `pipewrite-full`, and the copy if the pipe is not full. -/
  | full
  /-- `wakeup(&p->nread)` before sleeping. -/
  | wake
  | sleep
  | asleep
  /-- `sleep` takes `p->lock` again. -/
  | woken
  /-- `pipewrite-wakeup1`. -/
  | done
  | release
  /-- `release(&p->lock); return -1`. -/
  | fail
deriving DecidableEq

inductive ReadAt where
  | acquire
  /-- The test of `pipe-empty`. -/
  | empty
  | sleep
  | asleep
  | woken
  /-- One pass of `piperead-copy`. -/
  | copy
  /-- `piperead-wakeup`. -/
  | done
  | release
  | fail
deriving DecidableEq

inductive CloseAt where
  | acquire
  | clear
  | wake
  | release
deriving DecidableEq

/-- What a process is doing: with `addr` the bytes to write or those read so far. -/
inductive Pc where
  | idle
  | write (l : WriteAt) (addr : List (BitVec 8)) (i : Nat)
  | read (l : ReadAt) (n : Nat) (addr : List (BitVec 8))
  | close (l : CloseAt) (writable : Bool)
deriving DecidableEq

structure State where
  pipe : Pipe
  lock : Option Nat
  pc : Nat → Pc
  killed : Nat → Bool
  ret : Nat → Option Int

/-- The pipe that `pipealloc` returns, in a page with any contents. -/
def pipealloc (page : Bytes PIPESIZE) : State where
  pipe := ⟨page, 0, 0, true, true⟩
  lock := none
  pc := fun _ => .idle
  killed := fun _ => false
  ret := fun _ => none

namespace Pipe

def isFull (p : Pipe) : Prop := p.nwrite = p.nread + .ofNat 32 PIPESIZE

instance (p : Pipe) : Decidable p.isFull := inferInstanceAs (Decidable (_ = _))

def isEmpty (p : Pipe) : Prop := p.nread = p.nwrite

instance (p : Pipe) : Decidable p.isEmpty := inferInstanceAs (Decidable (_ = _))

def put (p : Pipe) (b : BitVec 8) : Pipe :=
  { p with data := p.data.set (p.nwrite.toNat % PIPESIZE) b, nwrite := p.nwrite + 1 }

def front (p : Pipe) : BitVec 8 := p.data.get (p.nread.toNat % PIPESIZE)

def drop (p : Pipe) : Pipe := { p with nread := p.nread + 1 }

end Pipe

def Pc.asleep : Pc → Option Chan
  | .write .asleep _ _ => some .nwrite
  | .read .asleep _ _ => some .nread
  | _ => none

def Pc.rouse : Pc → Pc
  | .write .asleep addr i => .write .woken addr i
  | .read .asleep n addr => .read .woken n addr
  | pc => pc

namespace State

def setPc (s : State) (t : Nat) (pc : Pc) : State := { s with pc := Function.update s.pc t pc }

def acquire (s : State) (t : Nat) (pc : Pc) : Option State :=
  if s.lock = none then some ({ s with lock := some t }.setPc t pc) else none

def release (s : State) (t : Nat) (pc : Pc) : State := { s with lock := none }.setPc t pc

def wakeup (s : State) (c : Chan) : State :=
  { s with pc := fun u => if (s.pc u).asleep = some c then (s.pc u).rouse else s.pc u }

def put (s : State) (b : BitVec 8) : State := { s with pipe := s.pipe.put b }

def take (s : State) : State := { s with pipe := s.pipe.drop }

def return' (s : State) (t : Nat) (r : Int) : State :=
  { s.release t .idle with ret := Function.update s.ret t (some r) }

end State

def pipewrite (s : State) (t : Nat) (addr : List (BitVec 8)) (i : Nat) : WriteAt → Option State
  | .acquire => s.acquire t (.write .loop addr i)
  | .loop => some (s.setPc t (.write (if i < addr.length then .full else .done) addr i))
  | .full =>
    if s.pipe.isFull then
      if !s.pipe.readopen || s.killed t then some (s.setPc t (.write .fail addr i))
      else some (s.setPc t (.write .wake addr i))
    else some ((s.put (addr.getD i 0)).setPc t (.write .loop addr (i + 1)))
  | .wake => some ((s.wakeup .nread).setPc t (.write .sleep addr i))
  | .sleep => some (s.release t (.write .asleep addr i))
  | .asleep => none
  | .woken => s.acquire t (.write .full addr i)
  | .done => some ((s.wakeup .nread).setPc t (.write .release addr i))
  | .release => some (s.return' t addr.length)
  | .fail => some (s.return' t (-1))

def piperead (s : State) (t n : Nat) (addr : List (BitVec 8)) : ReadAt → Option State
  | .acquire => s.acquire t (.read .empty n addr)
  | .empty =>
    if s.pipe.isEmpty ∧ s.pipe.writeopen then some (s.setPc t (.read (if s.killed t then .fail else .sleep) n addr))
    else some (s.setPc t (.read .copy n addr))
  | .sleep => some (s.release t (.read .asleep n addr))
  | .asleep => none
  | .woken => s.acquire t (.read .empty n addr)
  | .copy =>
    if addr.length < n ∧ ¬ s.pipe.isEmpty then some (s.take.setPc t (.read .copy n (addr ++ [s.pipe.front])))
    else some (s.setPc t (.read .done n addr))
  | .done => some ((s.wakeup .nwrite).setPc t (.read .release n addr))
  | .release => some (s.return' t addr.length)
  | .fail => some (s.return' t (-1))

def pipeclose (s : State) (t : Nat) (writable : Bool) : CloseAt → Option State
  | .acquire => s.acquire t (.close .clear writable)
  | .clear =>
    let pipe := if writable then { s.pipe with writeopen := false } else { s.pipe with readopen := false }
    some ({ s with pipe := pipe }.setPc t (.close .wake writable))
  | .wake => some ((s.wakeup (if writable then .nread else .nwrite)).setPc t (.close .release writable))
  | .release => some (s.return' t 0)

inductive Act where
  | write (t : Nat) (addr : List (BitVec 8))
  | read (t n : Nat)
  | close (t : Nat) (writable : Bool)
  | go (t : Nat)
  | kill (t : Nat)

def begin (s : State) (t : Nat) (pc : Pc) : Option State := if s.pc t = .idle then some (s.setPc t pc) else none

def go (s : State) (t : Nat) : Option State :=
  match s.pc t with
  | .idle => none
  | .write l addr i => pipewrite s t addr i l
  | .read l n addr => piperead s t n addr l
  | .close l writable => pipeclose s t writable l

def kill (s : State) (t : Nat) : State :=
  { s with killed := Function.update s.killed t true, pc := Function.update s.pc t (s.pc t).rouse }

def step (s : State) : Act → Option State
  | .write t addr => begin s t (.write .acquire addr 0)
  | .read t n => begin s t (.read .acquire n [])
  | .close t writable => begin s t (.close .acquire writable)
  | .go t => go s t
  | .kill t => some (kill s t)

/-! ## What goes in and what comes out -/

/-- The bytes that `pipewrite` has put into the pipe in a step: `addr[i]` for each `i++`. -/
def Pc.stores : Pc → Pc → List (BitVec 8)
  | .write _ addr i, .write _ _ j => (List.range' i (j - i)).map (addr.getD · 0)
  | _, _ => []

/-- The bytes that a `piperead` has returned with: the first `r` at `addr`. -/
def Pc.returns (r : Option Int) : Pc → Pc → List (BitVec 8)
  | .read _ _ addr, .idle => (List.range (r.getD 0).toNat).map (addr.getD · 0)
  | _, _ => []

/-- A state of the machine, and all bytes stored and returned so far. -/
structure Traffic where
  state : State
  stored : List (BitVec 8)
  returned : List (BitVec 8)

def Traffic.step (x : Traffic) (a : Act) : Option Traffic :=
  (Pipe.step x.state a).map fun s =>
    match a with
    | .go t => ⟨s, x.stored ++ (x.state.pc t).stores (s.pc t), x.returned ++ (x.state.pc t).returns (s.ret t) (s.pc t)⟩
    | _ => { x with state := s }

end Xv6.Pipe
