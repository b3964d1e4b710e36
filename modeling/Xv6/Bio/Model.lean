import Mathlib.Data.List.FinRange
import Xv6.Lib.Assoc
import Xv6.Lib.Flat
import Xv6.Param

/-!
# The buffer cache (`bio.c`)

One action of the machine is one section of the code under `bcache.lock`, one change of a sleep lock, or what a process
does to a buffer whose sleep lock it holds. `iderw` is one action: the driver syncs the one block of its buffer with
the disk. Each process may have any number of calls in progress, and any number of buffers.
-/

namespace Xv6.Bio

open Xv6.Lib

/-- A disk block: `dev` and `blockno`. -/
abbrev Key : Type := Nat × Nat

/-- `struct buf`; the sleep lock is the pid of its holder. -/
structure Buf where
  valid : Bool
  dirty : Bool
  dev : Nat
  blockno : Nat
  lock : Option Nat
  refcnt : Nat
  data : Block

def Buf.key (b : Buf) : Key := (b.dev, b.blockno)

/-- How far a process has come with a buffer that it has counted in `refcnt`. -/
inductive Stage where
  /-- In `bget`, before `acquiresleep` returns. -/
  | waiting
  | locked
  /-- In `iderw`, called by `bread`. -/
  | reading
  | held
  /-- The data has changed, and neither `log_write` nor `bwrite` has been called since. -/
  | modified
  /-- In `iderw`, called by `bwrite`. -/
  | writing
  /-- In `brelse`, after `releasesleep`. -/
  | released
deriving DecidableEq

/-- One use of a buffer: the block that `bread` was called for, and the buffer that `bget` chose. -/
structure Ref where
  pid : Nat
  key : Key
  buf : Fin NBUF
  stage : Stage

inductive Panic where
  | noBuffers
  | bwrite
  | brelse
  | notLocked
  | nothingToDo
deriving DecidableEq

structure State where
  buf : Fin NBUF → Buf
  /-- The list from `bcache.head.next` on, the most recently used buffer first. -/
  lru : List (Fin NBUF)
  disk : Key → Block
  refs : List (Nat × Ref)
  panicked : Option Panic
  /-- What the holders of buffers have read and written so far. -/
  trace : List (Event Key Block)

def binit : List (Fin NBUF) := (List.finRange NBUF).foldl (fun l b => b :: l) []

namespace State

def boot (disk : Key → Block) : State where
  buf := fun _ => ⟨false, false, 0, 0, none, 0, Bytes.fill BSIZE 0⟩
  lru := binit
  disk := disk
  refs := []
  panicked := none
  trace := []

def setBuf (s : State) (i : Fin NBUF) (b : Buf) : State := { s with buf := Function.update s.buf i b }

def setRef (s : State) (c : Nat) (r : Ref) : State := { s with refs := Assoc.put s.refs c r }

def emit (s : State) (e : Event Key Block) : State := { s with trace := s.trace ++ [e] }

end State

inductive Act where
  | bget (c pid dev blockno : Nat)
  | acquiresleep (c : Nat)
  | bread (c : Nat)
  | iderw (c : Nat)
  | modify (c : Nat) (v : Block)
  | logWrite (c : Nat)
  | bwrite (c : Nat)
  | releasesleep (c : Nat)
  | brelse (c : Nat)

/-! ## `bget` -/

def cached (s : State) (k : Key) : Option (Fin NBUF) :=
  s.lru.find? fun i => (s.buf i).dev = k.1 ∧ (s.buf i).blockno = k.2

def unused (s : State) : Option (Fin NBUF) :=
  s.lru.reverse.find? fun i => (s.buf i).refcnt = 0 ∧ (s.buf i).dirty = false

/-- The section of `bget(dev, blockno)` under `bcache.lock`, for call `c`. -/
def bget (s : State) (c pid dev blockno : Nat) : Option State :=
  if s.refs.lookup c = none then
    match cached s (dev, blockno) with
    | some i =>
      let b := s.buf i
      some { s.setBuf i { b with refcnt := b.refcnt + 1 } with
        refs := (c, ⟨pid, (dev, blockno), i, .waiting⟩) :: s.refs }
    | none =>
      match unused s with
      | some i =>
        let b := s.buf i
        some { s.setBuf i { b with dev, blockno, valid := false, dirty := false, refcnt := 1 } with
          refs := (c, ⟨pid, (dev, blockno), i, .waiting⟩) :: s.refs }
      | none => some { s with panicked := some .noBuffers }
  else none

/-! ## What a process does with its buffer -/

def acquiresleep (s : State) (c : Nat) (r : Ref) : Option State :=
  let b := s.buf r.buf
  if r.stage = .waiting ∧ b.lock = none then
    some ((s.setBuf r.buf { b with lock := some r.pid }).setRef c { r with stage := .locked })
  else none

/-- `bread` after `bget`: it returns the buffer, or calls `iderw` for one that is not valid. -/
def bread (s : State) (c : Nat) (r : Ref) : Option State :=
  let b := s.buf r.buf
  if r.stage = .locked then
    if b.valid = false then some (s.setRef c { r with stage := .reading })
    else some ((s.setRef c { r with stage := .held }).emit (.read r.key b.data))
  else none

def holdingsleep (s : State) (r : Ref) : Bool := (s.buf r.buf).lock = some r.pid

/-- What the driver does for `b`: a dirty buffer goes to disk, another one comes from disk. -/
def sync (s : State) (i : Fin NBUF) : State :=
  let b := s.buf i
  if b.dirty then { s.setBuf i { b with valid := true, dirty := false } with disk := Function.update s.disk b.key b.data }
  else s.setBuf i { b with valid := true, data := s.disk b.key }

def iderw (s : State) (c : Nat) (r : Ref) : Option State :=
  let b := s.buf r.buf
  if r.stage = .reading ∨ r.stage = .writing then
    if holdingsleep s r = false then some { s with panicked := some .notLocked }
    else if b.valid ∧ b.dirty = false then some { s with panicked := some .nothingToDo }
    else
      let s := (sync s r.buf).setRef c { r with stage := .held }
      if r.stage = .reading then some (s.emit (.read r.key (s.buf r.buf).data)) else some s
  else none

def modify (s : State) (c : Nat) (r : Ref) (v : Block) : Option State :=
  if r.stage = .held ∨ r.stage = .modified then
    some (((s.setBuf r.buf { s.buf r.buf with data := v }).setRef c { r with stage := .modified }).emit
      (.write r.key v))
  else none

/-- `log_write(b)`, as far as it concerns the buffer: `b->flags |= B_DIRTY`. -/
def logWrite (s : State) (c : Nat) (r : Ref) : Option State :=
  if r.stage = .held ∨ r.stage = .modified then
    some ((s.setBuf r.buf { s.buf r.buf with dirty := true }).setRef c { r with stage := .held })
  else none

def bwrite (s : State) (c : Nat) (r : Ref) : Option State :=
  if r.stage = .held ∨ r.stage = .modified then
    if holdingsleep s r = false then some { s with panicked := some .bwrite }
    else some ((s.setBuf r.buf { s.buf r.buf with dirty := true }).setRef c { r with stage := .writing })
  else none

/-- `brelse(b)`, up to `releasesleep`. The caller has passed what it changed to `log_write` or `bwrite`. -/
def releasesleep (s : State) (c : Nat) (r : Ref) : Option State :=
  if r.stage = .held then
    if holdingsleep s r = false then some { s with panicked := some .brelse }
    else some ((s.setBuf r.buf { s.buf r.buf with lock := none }).setRef c { r with stage := .released })
  else none

def brelse (s : State) (c : Nat) (r : Ref) : Option State :=
  let b := s.buf r.buf
  if r.stage = .released then
    let s := { s.setBuf r.buf { b with refcnt := b.refcnt - 1 } with refs := Assoc.del s.refs c }
    if b.refcnt - 1 = 0 then some { s with lru := r.buf :: s.lru.erase r.buf } else some s
  else none

def step (s : State) (a : Act) : Option State :=
  if s.panicked = none then
    match a with
    | .bget c pid dev blockno => bget s c pid dev blockno
    | .acquiresleep c => (s.refs.lookup c).bind (acquiresleep s c)
    | .bread c => (s.refs.lookup c).bind (bread s c)
    | .iderw c => (s.refs.lookup c).bind (iderw s c)
    | .modify c v => (s.refs.lookup c).bind (modify s c · v)
    | .logWrite c => (s.refs.lookup c).bind (logWrite s c)
    | .bwrite c => (s.refs.lookup c).bind (bwrite s c)
    | .releasesleep c => (s.refs.lookup c).bind (releasesleep s c)
    | .brelse c => (s.refs.lookup c).bind (brelse s c)
  else none

end Xv6.Bio
