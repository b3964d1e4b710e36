import Mathlib.Data.Fintype.Basic
import Mathlib.Logic.Function.Basic
import Xv6.Param

/-!
# The disk driver (`ide.c`)

Any number of processes call `iderw` for buffers whose sleep lock they hold. One action of the machine is one section of
the code under `idelock`, one step of the device, or what a process does to its buffers outside `iderw`. The device takes one
command at a time, and it raises an interrupt when it has completed it.
-/

namespace Xv6.Ide

open Xv6.Lib Function

def SECTOR_SIZE : Nat := 512

structure Buf (P : Type) where
  dev : Nat
  blockno : Nat
  valid : Bool
  dirty : Bool
  lock : Option P
  data : Block

def Buf.synced {P : Type} (x : Buf P) : Bool := x.valid && !x.dirty

/-- What is written to the registers of the device, and to its data port. -/
structure Command (B : Type) where
  buf : B
  drive : Nat
  sector : Nat
  write : Bool
  data : Block

inductive Device (B : Type) where
  | idle
  | busy (c : Command B)
  /-- The command is done, and its interrupt is pending; `out` is what the data port returns. -/
  | ready (c : Command B) (out : Block)

inductive Pc (B : Type) where
  | outside
  /-- In `sleep(b, &idelock)`. -/
  | asleep (b : B)
  /-- `wakeup(b)` has been called. -/
  | awake (b : B)
deriving DecidableEq

def Pc.buf {B : Type} : Pc B → Option B
  | .outside => none
  | .asleep b | .awake b => some b

inductive Panic where
  | notLocked
  | nothingToDo
  | noDisk1
  | incorrectBlockno
  /-- Not a panic of the code: a command is issued while the device has another one. -/
  | overrun
deriving DecidableEq

structure State (P B : Type) where
  buf : B → Buf P
  idequeue : List B
  device : Device B
  disk : Nat → Nat → Block
  havedisk1 : Bool
  pc : P → Pc B
  panicked : Option Panic
  /-- The buffers in the order in which `iderw` was called for them. -/
  calls : List B
  /-- The buffers in the order in which `ideintr` has taken them from the queue. -/
  completed : List B

variable {P B : Type}

/-! ## `idestart` -/

/-- What the device gets through its four registers of a sector number. -/
def registers (sector : Nat) : Nat :=
  sector % 256 + 2 ^ 8 * (sector / 2 ^ 8 % 256) + 2 ^ 16 * (sector / 2 ^ 16 % 256) + 2 ^ 24 * (sector / 2 ^ 24 % 16)

def command (b : B) (x : Buf P) : Command B where
  buf := b
  drive := x.dev % 2
  sector := registers (x.blockno * (BSIZE / SECTOR_SIZE))
  write := x.dirty
  data := x.data

def idestart (s : State P B) (b : B) : State P B :=
  if (s.buf b).blockno ≥ FSSIZE then { s with panicked := some .incorrectBlockno }
  else
    match s.device with
    | .idle => { s with device := .busy (command b (s.buf b)) }
    | _ => { s with panicked := some .overrun }

/-! ## Interrupts -/

variable [DecidableEq P] [DecidableEq B]

def wakeup (pc : P → Pc B) (b : B) (p : P) : Pc B := if pc p = .asleep b then .awake b else pc p

def finish (x : Buf P) (out : Block) : Buf P :=
  { x with data := if x.dirty then x.data else out, valid := true, dirty := false }

def ideintr (s : State P B) : Option (State P B) :=
  match s.device with
  | .ready _ out =>
    let s := { s with device := .idle }
    match s.idequeue with
    | [] => some s
    | b :: rest =>
      let s := { s with
        idequeue := rest
        completed := s.completed ++ [b]
        buf := update s.buf b (finish (s.buf b) out)
        pc := wakeup s.pc b }
      match rest with
      | [] => some s
      | b :: _ => some (idestart s b)
  | _ => none

def complete (s : State P B) : Option (State P B) :=
  match s.device with
  | .busy c =>
    if c.write then
      some { s with
        disk := update s.disk c.drive (update (s.disk c.drive) c.sector c.data)
        device := .ready c c.data }
    else some { s with device := .ready c (s.disk c.drive c.sector) }
  | _ => none

/-! ## `iderw` -/

def await (s : State P B) (p : P) (b : B) : State P B :=
  { s with pc := update s.pc p (if (s.buf b).synced then .outside else .asleep b) }

/-- Sync buf with disk, as far as the first `sleep`. -/
def iderw (s : State P B) (p : P) (b : B) : Option (State P B) :=
  if s.pc p ≠ .outside then none
  else if (s.buf b).lock ≠ some p then some { s with panicked := some .notLocked }
  else if (s.buf b).synced then some { s with panicked := some .nothingToDo }
  else if (s.buf b).dev ≠ 0 ∧ s.havedisk1 = false then some { s with panicked := some .noDisk1 }
  else
    -- Append b to idequeue, and start disk if necessary.
    let s := { s with idequeue := s.idequeue ++ [b], calls := s.calls ++ [b] }
    let s := if s.idequeue.head? = some b then idestart s b else s
    if s.panicked = none then some (await s p b) else some s

def resume (s : State P B) (p : P) : Option (State P B) :=
  match s.pc p with
  | .awake b => some (await s p b)
  | _ => none

/-- Outside `iderw`, a process locks and unlocks buffers, and it changes those that it has locked. -/
def own (s : State P B) (p : P) (b : B) (x : Buf P) : Option (State P B) :=
  if s.pc p = .outside ∧ ((s.buf b).lock = none ∨ (s.buf b).lock = some p) ∧ (x.lock = none ∨ x.lock = some p) then
    some { s with buf := update s.buf b x }
  else none

inductive Act (P B : Type) where
  | own (p : P) (b : B) (x : Buf P)
  | iderw (p : P) (b : B)
  | resume (p : P)
  | complete
  | ideintr

def step (s : State P B) (a : Act P B) : Option (State P B) :=
  if s.panicked = none then
    match a with
    | .own p b x => own s p b x
    | .iderw p b => iderw s p b
    | .resume p => resume s p
    | .complete => complete s
    | .ideintr => ideintr s
  else none

structure Booted (s : State P B) : Prop where
  idequeue : s.idequeue = []
  device : s.device = .idle
  pc : ∀ p, s.pc p = .outside
  panicked : s.panicked = none
  calls : s.calls = []
  completed : s.completed = []

/-! ## Disk blocks -/

def Buf.block (x : Buf P) : Nat × Nat := (x.dev % 2, x.blockno)

/-- `iderw` is called for a buffer only while no other call is in progress for the same disk block. -/
def Apart (s : State P B) : Act P B → Prop
  | .iderw _ b => ∀ q, ∀ b' ∈ (s.pc q).buf, b' ≠ b → (s.buf b').block ≠ (s.buf b).block
  | _ => True

instance [Fintype P] (s : State P B) (a : Act P B) : Decidable (Apart s a) := by
  cases a <;> unfold Apart <;> infer_instance

end Xv6.Ide
