import Mathlib.Data.BitVec
import Xv6.Lib.Traced
import Xv6.Vm.Model

/-!
# System call arguments (`syscall.c`, and `sys_exec` in `sysfile.c`)

The kernel reads the arguments from the memory of the process, through its page table. A computation records the addresses
that it reads there; the result -1 is failure. Sums of addresses wrap as in C.
-/

namespace Xv6.Syscall

open Xv6.Lib

def MAXARG : Nat := 32

abbrev Addr : Type := BitVec 32

structure Proc where
  sz : BitVec 32
  /-- `tf->esp`. -/
  esp : BitVec 32
  /-- What the kernel finds at an address while this process runs. -/
  mem : Addr → BitVec 8

abbrev M : Type → Type := Traced Addr

variable (p : Proc)

def readByte (a : Addr) : M (BitVec 8) := do
  Traced.touch a
  return p.mem a

def readInt (a : Addr) : M (BitVec 32) := do
  let b0 ← readByte p a
  let b1 ← readByte p (a + 1)
  let b2 ← readByte p (a + 2)
  let b3 ← readByte p (a + 3)
  return b3 ++ b2 ++ b1 ++ b0

def fetchint (addr : Addr) : M (BitVec 32) :=
  if addr ≥ p.sz ∨ addr + 4 > p.sz then Traced.fail else readInt p addr

def strLoop (pp : Addr) : Nat → Addr → M Nat
  | 0, _ => Traced.fail
  | k + 1, s =>
    if s < p.sz then do
      let c ← readByte p s
      if c = 0 then return (s - pp).toNat else strLoop pp k (s + 1)
    else Traced.fail

/-- Fetch the nul-terminated string at addr from the current process: the pointer and the length, not including nul. -/
def fetchstr (addr : Addr) : M (Addr × Nat) :=
  if addr ≥ p.sz then Traced.fail
  else do
    let n ← strLoop p addr (p.sz - addr).toNat addr
    return (addr, n)

def argint (n : BitVec 32) : M (BitVec 32) := fetchint p (p.esp + 4 + 4 * n)

def argptr (n size : BitVec 32) : M Addr := do
  let i ← argint p n
  if size.slt 0 ∨ i ≥ p.sz ∨ i + size > p.sz then Traced.fail else return i

def argstr (n : BitVec 32) : M (Addr × Nat) := do
  let addr ← argint p n
  fetchstr p addr

/-- The loop of `sys_exec` over `argv`, from pass `i` on; `k` passes are left before `argv` is full. -/
def argvLoop (uargv : Addr) : Nat → BitVec 32 → M (List (Addr × Nat))
  | 0, _ => Traced.fail
  | k + 1, i => do
    let uarg ← fetchint p (uargv + 4 * i)
    if uarg = 0 then return []
    else do
      let s ← fetchstr p uarg
      let rest ← argvLoop uargv k (i + 1)
      return s :: rest

/-- `sys_exec` as far as the call of `exec`: the path, and the arguments. -/
def sys_exec : M ((Addr × Nat) × List (Addr × Nat)) := do
  let path ← argstr p 0
  let uargv ← argint p 1
  let argv ← argvLoop p uargv MAXARG 0
  return (path, argv)

/-! ## What is returned as valid -/

inductive Call where
  | fetchint (addr : Addr)
  | fetchstr (addr : Addr)
  | argint (n : BitVec 32)
  | argptr (n size : BitVec 32)
  | argstr (n : BitVec 32)
  | sys_exec

def strRange (s : Addr × Nat) : Nat × Nat := (s.1.toNat, s.2 + 1)

/-- The byte ranges that a call returns as valid, as start and length. -/
def Call.ranges : Call → M (List (Nat × Nat))
  | .fetchint addr => do
    let _ ← Syscall.fetchint p addr
    return []
  | .fetchstr addr => return [strRange (← Syscall.fetchstr p addr)]
  | .argint n => do
    let _ ← Syscall.argint p n
    return []
  | .argptr n size => return [((← Syscall.argptr p n size).toNat, size.toNat)]
  | .argstr n => return [strRange (← Syscall.argstr p n)]
  | .sys_exec => do
    let (path, argv) ← Syscall.sys_exec p
    return strRange path :: argv.map strRange

end Xv6.Syscall
