import Xv6.Param

/-!
# Console input (`console.c`)

`consoleintr` edits the current line and `consoleread` takes what has been entered, both under `cons.lock`. An action is
one such critical section: of `consoleintr` over the characters that `getc` has, of `consoleread` from `acquire` or from
the end of a `sleep` up to the next `sleep` or to `return`. A process may leave `sleep` at any time.
-/

namespace Xv6.Console

open Xv6.Lib

def INPUT_BUF : Nat := 128

def C (x : Char) : BitVec 8 := .ofNat 8 (x.toNat - '@'.toNat)

def NEWLINE : BitVec 8 := 10

def RETURN : BitVec 8 := 13

def DEL : BitVec 8 := 0x7f

structure Input where
  buf : Bytes INPUT_BUF
  r : BitVec 32
  w : BitVec 32
  e : BitVec 32

namespace Input

def at' (s : Input) (i : BitVec 32) : BitVec 8 := s.buf.get (i.toNat % INPUT_BUF)

def put (s : Input) (c : BitVec 8) : Input :=
  { s with buf := s.buf.set (s.e.toNat % INPUT_BUF) c, e := s.e + 1 }

def killLine : Nat → Input → Input
  | 0, s => s
  | k + 1, s => if s.e ≠ s.w ∧ s.at' (s.e - 1) ≠ NEWLINE then killLine k { s with e := s.e - 1 } else s

def key (s : Input) (c : BitVec 8) : Input :=
  if c = C 'P' then s
  else if c = C 'U' then s.killLine (s.e - s.w).toNat
  else if c = C 'H' ∨ c = DEL then
    if s.e ≠ s.w then { s with e := s.e - 1 } else s
  else if c ≠ 0 ∧ (s.e - s.r).toNat < INPUT_BUF then
    let c := if c = RETURN then NEWLINE else c
    let s := s.put c
    if c = NEWLINE ∨ c = C 'D' ∨ s.e = s.r + .ofNat 32 INPUT_BUF then { s with w := s.e } else s
  else s

def consoleintr (s : Input) (cs : List (BitVec 8)) : Input := cs.foldl key s

def unread (s : Input) : List (BitVec 8) := (List.range (s.w - s.r).toNat).map fun j => s.at' (s.r + .ofNat 32 j)

end Input

/-- What happens to the buffer: a keystroke, or a byte that leaves it. -/
inductive Ev where
  | key (c : BitVec 8)
  | take

/-- A call of `consoleread` that sleeps, with the bytes it has stored at `dst`: `n` is `target - got.length`. -/
structure Call where
  id : Nat
  target : Nat
  got : List (BitVec 8)
deriving DecidableEq

/-- A call of `consoleread` that has returned `got.length`, and the number of bytes that had left the buffer then. -/
structure Ret extends Call where
  pos : Nat
deriving DecidableEq

structure State where
  input : Input
  asleep : Nat → Option Call
  killed : Nat → Bool
  calls : Nat
  events : List Ev
  delivered : List (Nat × BitVec 8)
  returned : List Ret

def start (buf : Bytes INPUT_BUF) : State where
  input := ⟨buf, 0, 0, 0⟩
  asleep := fun _ => none
  killed := fun _ => false
  calls := 0
  events := []
  delivered := []
  returned := []

def Ev.isTake : Ev → Bool
  | .key _ => false
  | .take => true

namespace State

def take (s : State) : State :=
  { s with input := { s.input with r := s.input.r + 1 }, events := s.events ++ [.take] }

def putBack (s : State) : State := { s with input := { s.input with r := s.input.r + 1 - 1 } }

def deliver (s : State) (id : Nat) (c : BitVec 8) : State := { s with delivered := s.delivered ++ [(id, c)] }

def sleep (s : State) (p : Nat) (x : Call) : State := { s with asleep := Function.update s.asleep p (some x) }

def return' (s : State) (x : Call) : State := { s with returned := s.returned ++ [⟨x, s.events.countP Ev.isTake⟩] }

def bytes (s : State) (id : Nat) : List (BitVec 8) := (s.delivered.filter (·.1 = id)).map Prod.snd

end State

def readLoop (p id target : Nat) : Nat → List (BitVec 8) → State → State
  | 0, got, s => s.return' ⟨id, target, got⟩
  | n + 1, got, s =>
    if s.input.r = s.input.w then
      if s.killed p then s  -- return -1
      else s.sleep p ⟨id, target, got⟩
    else
      let c := s.input.at' s.input.r
      if c = C 'D' then
        if n + 1 < target then s.putBack.return' ⟨id, target, got⟩
        else s.take.return' ⟨id, target, got⟩
      else
        let s := s.take.deliver id c
        if c = NEWLINE then s.return' ⟨id, target, got ++ [c]⟩
        else readLoop p id target n (got ++ [c]) s

def consoleread (s : State) (p : Nat) (n : Int) : State :=
  readLoop p s.calls n.toNat n.toNat [] { s with calls := s.calls + 1 }

def wake (s : State) (p : Nat) (x : Call) : State :=
  readLoop p x.id x.target (x.target - x.got.length) x.got { s with asleep := Function.update s.asleep p none }

inductive Act where
  | intr (cs : List (BitVec 8))
  | read (p : Nat) (n : Int)
  | wake (p : Nat)
  | kill (p : Nat)

def step (s : State) : Act → Option State
  | .intr cs => some { s with input := s.input.consoleintr cs, events := s.events ++ cs.map .key }
  | .read p n => if (s.asleep p).isNone then some (consoleread s p n) else none
  | .wake p => (s.asleep p).map (wake s p)
  | .kill p => some { s with killed := Function.update s.killed p true }

end Xv6.Console
