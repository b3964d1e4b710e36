import Mathlib.Algebra.Ring.Nat
import Mathlib.Data.List.Basic

/-!
# Multiprocessor support (`mp.c`, `mp.h`)

Memory is a function of kernel addresses, and pointers are 32-bit words. The loop of `mpinit` has a bound on its passes: without
a result it has not ended in that many passes.
-/

namespace Xv6.Mp

abbrev Byte : Type := BitVec 8

abbrev Addr : Type := BitVec 32

abbrev Mem : Type := Addr → Byte

def NCPU : Nat := 8

def P2V (a : Addr) : Addr := a + 0x80000000#32

def half (m : Mem) (a : Addr) : BitVec 16 := m (a + 1) ++ m a

def word (m : Mem) (a : Addr) : BitVec 32 := half m (a + 2) ++ half m a

def sum (m : Mem) (addr : Addr) : Nat → Byte
  | 0 => 0
  | n + 1 => sum m addr n + m (addr + BitVec.ofNat 32 n)

/-- `memcmp` of the bytes at `p` with a text is 0. -/
def holds (m : Mem) (p : Addr) : List Byte → Bool
  | [] => true
  | b :: bs => m p == b && holds m (p + 1) bs

/-! ## The floating pointer structure -/

namespace FloatingPointer

def size : Nat := 16

def signature : List Byte := [0x5F, 0x4D, 0x50, 0x5F]

def physaddr (m : Mem) (mp : Addr) : Addr := word m (mp + 4)

def imcrp (m : Mem) (mp : Addr) : Byte := m (mp + 12)

end FloatingPointer

def searchLoop (m : Mem) : Nat → Addr → Option Addr
  | 0, _ => none
  | k + 1, p =>
    if holds m p FloatingPointer.signature ∧ sum m p FloatingPointer.size = 0 then some p
    else searchLoop m k (p + BitVec.ofNat 32 FloatingPointer.size)

def mpsearch1 (m : Mem) (a : Addr) (len : Nat) : Option Addr := searchLoop m (len / FloatingPointer.size) (P2V a)

def mpsearch (m : Mem) : Option Addr :=
  let bda := P2V 0x400
  let ebda : Addr := (half m (bda + 0x0E)).setWidth 32 <<< 4
  let found := if ebda ≠ 0 then mpsearch1 m ebda 1024 else mpsearch1 m ((half m (bda + 0x13)).setWidth 32 * 1024 - 1024) 1024
  found.orElse fun _ => mpsearch1 m 0xF0000 0x10000

/-! ## The configuration table -/

namespace Conf

def size : Nat := 44

def signature : List Byte := [0x50, 0x43, 0x4D, 0x50]

def length (m : Mem) (conf : Addr) : BitVec 16 := half m (conf + 4)

def version (m : Mem) (conf : Addr) : Byte := m (conf + 6)

def lapicaddr (m : Mem) (conf : Addr) : BitVec 32 := word m (conf + 36)

end Conf

/-- Search for an MP configuration table: the floating pointer structure and the table. -/
def mpconfig (m : Mem) : Option (Addr × Addr) :=
  match mpsearch m with
  | none => none
  | some mp =>
    if FloatingPointer.physaddr m mp = 0 then none
    else
      let conf := P2V (FloatingPointer.physaddr m mp)
      if ¬ holds m conf Conf.signature then none
      else if Conf.version m conf ≠ 1 ∧ Conf.version m conf ≠ 4 then none
      else if sum m conf (Conf.length m conf).toNat ≠ 0 then none
      else some (mp, conf)

/-! ## The entries -/

def MPPROC : Byte := 0x00

def MPBUS : Byte := 0x01

def MPIOAPIC : Byte := 0x02

def MPIOINTR : Byte := 0x03

def MPLINTR : Byte := 0x04

/-- What the loop of `mpinit` finds: the `apicid` of the first `ncpu` entries of `cpus`, `ioapicid` and `ismp`. -/
structure Found where
  cpus : List Byte
  ioapicid : Byte
  ismp : Bool
deriving DecidableEq

def Found.start : Found := ⟨[], 0, true⟩

/-- The second byte of `struct mpproc` and of `struct mpioapic`. -/
def apicid (m : Mem) (p : Addr) : Byte := m (p + 1)

/-- The `switch` of `mpinit`. Its `break` leaves the `switch`, not the loop. -/
def entry (m : Mem) (p : Addr) (x : Found) : Addr × Found :=
  if m p = MPPROC then (p + 20, { x with cpus := if x.cpus.length < NCPU then x.cpus ++ [apicid m p] else x.cpus })
  else if m p = MPIOAPIC then (p + 8, { x with ioapicid := apicid m p })
  else if m p = MPBUS ∨ m p = MPIOINTR ∨ m p = MPLINTR then (p + 8, x)
  else (p, { x with ismp := false })

def entries (m : Mem) (e : Addr) : Nat → Addr → Found → Option Found
  | 0, _, _ => none
  | k + 1, p, x => if p < e then entries m e k (entry m p x).1 (entry m p x).2 else some x

inductive Panic
  /-- "Expect to run on an SMP". -/
  | noTable
  /-- "Didn't find a suitable machine". -/
  | unsuitable
deriving DecidableEq

/-- The globals that `mpinit` sets; `imcr` tells if it writes the interrupt mode register. -/
structure Smp where
  lapic : BitVec 32
  cpus : List Byte
  ioapicid : Byte
  imcr : Bool
deriving DecidableEq

def mpinit (m : Mem) (k : Nat) : Option (Except Panic Smp) :=
  match mpconfig m with
  | none => some (.error .noTable)
  | some (mp, conf) =>
    match entries m (conf + (Conf.length m conf).setWidth 32) k (conf + BitVec.ofNat 32 Conf.size) .start with
    | none => none
    | some x =>
      if ¬ x.ismp then some (.error .unsuitable)
      else some (.ok ⟨Conf.lapicaddr m conf, x.cpus, x.ioapicid, FloatingPointer.imcrp m mp ≠ 0⟩)

end Xv6.Mp
