import Xv6.Fs.Lemmas.Content
import Xv6.Lib.Chunks

/-!
# Writes through a shared descriptor (`filewrite` in `file.c`)

Any number of processes call `filewrite` on one `struct file` of type `FD_INODE`. One pass of the loop runs under the lock
of the inode and is one action; so is whatever else happens in the file system in between, as long as it does not write the
inode. Processes that write through other descriptors are left out.
-/

namespace Xv6.Filewrite

open Xv6.Lib

inductive Panic where
  | fs (p : Fs.Panic)
  | shortFilewrite
deriving DecidableEq

structure File where
  writable : Bool
  ip : Fin NINODE
  off : BitVec 32

/-- A call of `filewrite`: its arguments, its variable `i` and, for the proofs, what it has written. -/
structure Call where
  addr : Nat → BitVec 8
  n : Int
  i : Int
  written : List (Chunk (BitVec 8))

def max : Int := ((MAXOPBLOCKS - 1 - 1 - 2) / 2) * 512

def Call.n1 (c : Call) : Int := if c.n - c.i > max then max else c.n - c.i

def Call.src (c : Call) (j : Nat) : BitVec 8 := c.addr (c.i.toNat + j)

def Call.result (c : Call) : Int := if c.i = c.n then c.n else -1

variable {L P : Type}

section

variable (lw : Fs.LogWrite L)

/-- One pass of the loop, up to the test of what `writei` has returned: this value, the file and the file system. -/
def pass (s : Fs.State L) (f : File) (c : Call) : Except Panic (Int × File × Fs.State L) := do
  let s ← (Fs.ilock s f.ip).mapError .fs
  let (r, s) ← (Fs.writei lw s f.ip c.src f.off (.ofInt 32 c.n1)).mapError .fs
  let f := if r > 0 then { f with off := f.off + .ofInt 32 r } else f
  if r < 0 then return (r, f, s)
  else if r ≠ c.n1 then .error .shortFilewrite
  else return (r, f, s)

def passes : Nat → Fs.State L → File → Call → Except Panic (Call × File × Fs.State L)
  | 0, s, f, c => .ok (c, f, s)
  | k + 1, s, f, c =>
    if c.i < c.n then do
      let (r, f, s) ← pass lw s f c
      if r < 0 then return (c, f, s)
      else passes k s f { c with i := c.i + r }
    else .ok (c, f, s)

/-- A call that nobody interrupts. A pass writes at least one byte. -/
def filewrite (s : Fs.State L) (f : File) (addr : Nat → BitVec 8) (n : Int) : Except Panic (Int × File × Fs.State L) :=
  if f.writable then do
    let (c, f, s) ← passes lw n.toNat s f { addr, n, i := 0, written := [] }
    return (c.result, f, s)
  else .ok (-1, f, s)

structure State (P L : Type) where
  fs : Fs.State L
  f : File
  call : P → Option Call
  chunks : List (Chunk (BitVec 8))
  returned : List (Call × Int)

inductive Act (P L : Type) where
  | call (p : P) (addr : Nat → BitVec 8) (n : Int)
  | pass (p : P)
  | ret (p : P)
  /-- The rest of the system changes the file system. -/
  | others (fs : Fs.State L)

variable [DecidableEq P]

def State.leave (s : State P L) (p : P) (c : Call) : State P L :=
  { s with call := Function.update s.call p none, returned := s.returned ++ [(c, c.result)] }

def step (s : State P L) : Act P L → Option (State P L)
  | .call p addr n =>
    match s.call p with
    | some _ => none
    | none =>
      let c : Call := { addr, n, i := 0, written := [] }
      if s.f.writable then some { s with call := Function.update s.call p (some c) }
      else some { s with returned := s.returned ++ [(c, -1)] }
  | .pass p =>
    match s.call p with
    | none => none
    | some c =>
      if c.i < c.n then
        match pass lw s.fs s.f c with
        | .error _ => none
        | .ok (r, f, fs) =>
          if r < 0 then some ({ s with f, fs }.leave p c)
          else
            let k : Chunk (BitVec 8) := { off := s.f.off.toNat, data := tabulate r.toNat c.src }
            let c := { c with i := c.i + r, written := c.written ++ [k] }
            some { s with f, fs, call := Function.update s.call p (some c), chunks := s.chunks ++ [k] }
      else none
  | .ret p =>
    match s.call p with
    | none => none
    | some c => if c.i < c.n then none else some (s.leave p c)
  | .others fs => some { s with fs }

end

/-! ## The inode -/

structure Opened (n : Fs.Inum) (f : File) (s : Fs.State L) : Prop where
  inv : Fs.Inv s
  ref : 0 < (s.inode f.ip).ref
  inum : (s.inode f.ip).inum = n
  type : (Fs.view s n).type = T_FILE

def Allowed (n : Fs.Inum) (s : State P L) : Act P L → Prop
  | .others fs => Opened n s.f fs ∧ Fs.content fs n = Fs.content s.fs n
  | _ => True

structure Started (n : Fs.Inum) (s : State P L) : Prop where
  opened : Opened n s.f s.fs
  call : ∀ p, s.call p = none
  chunks : s.chunks = []
  returned : s.returned = []

def Within (s : State P L) : Act P L → Prop
  | .pass p => ∀ c ∈ s.call p, (s.f.off.toNat : Int) + c.n1 ≤ MAXFILE * BSIZE
  | _ => True

instance (s : State P L) (x : Act P L) : Decidable (Within s x) := by
  cases x <;> unfold Within <;> infer_instance

end Xv6.Filewrite
