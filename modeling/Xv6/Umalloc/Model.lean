import Xv6.Param
import Xv6.Lib.Tiling

/-!
# The memory allocator of user programs (`umalloc.c`)

Memory is 2^32 bytes, of which those from `KERNBASE` on are the kernel's. `base` is the address of the static header; it lies below
the heap. A loop makes at most as many passes as there are bytes below the break; `none` means that it goes on.
-/

namespace Xv6.Umalloc

open Xv6.Lib

def KERNBASE : Nat := 0x80000000

abbrev Mem : Type := Bytes (2 ^ 32)

namespace Mem

@[irreducible] def ptr (m : Mem) (p : Nat) : Nat := (m.word p).toNat

@[irreducible] def size (m : Mem) (p : Nat) : Nat := (m.word (p + 4)).toNat

def setPtr (m : Mem) (p v : Nat) : Mem := m.setWord p (.ofNat 32 v)

def setSize (m : Mem) (p v : Nat) : Mem := m.setWord (p + 4) (.ofNat 32 v)

end Mem

def plus (p n : Nat) : Nat := (p + 8 * n) % 2 ^ 32

structure State where
  mem : Mem
  freep : Nat
  brk : Nat
  segs : List Span
  /-- The live blocks: the address of the header, and the number of bytes that were asked for. -/
  live : List (Nat × Nat)

/-! ## `free` -/

def findPlace (m : Mem) (bp : Nat) : Nat → Nat → Option Nat
  | 0, _ => none
  | k + 1, p =>
    if bp > p ∧ bp < m.ptr p then some p
    else if p ≥ m.ptr p ∧ (bp > p ∨ bp < m.ptr p) then some p
    else findPlace m bp k (m.ptr p)

/-- `bp` takes over the block that follows it, or only the pointer to it. -/
def joinNext (m : Mem) (p bp : Nat) : Mem :=
  if plus bp (m.size bp) = m.ptr p then
    let m := m.setSize bp (m.size bp + m.size (m.ptr p))
    m.setPtr bp (m.ptr (m.ptr p))
  else m.setPtr bp (m.ptr p)

def joinPrev (m : Mem) (p bp : Nat) : Mem :=
  if plus p (m.size p) = bp then
    let m := m.setSize p (m.size p + m.size bp)
    m.setPtr p (m.ptr bp)
  else m.setPtr p bp

def free (s : State) (ap : Nat) : Option State :=
  let bp := ap - 8
  (findPlace s.mem bp s.brk s.freep).map fun p =>
    { s with mem := joinPrev (joinNext s.mem p bp) p bp, freep := p }

/-! ## `malloc` -/

/-- The system gives memory after a gap, if there is room, or refuses. -/
def sbrk (s : State) (n : Nat) : Option Nat → Option (State × Nat)
  | none => none
  | some gap =>
    let p := s.brk + gap
    if p + n ≤ KERNBASE then some ({ s with brk := p + n, segs := (p, n) :: s.segs }, p) else none

def morecore (s : State) (nu : Nat) (gap : Option Nat) : Option (State × Nat) :=
  let nu := if nu < 4096 then 4096 else nu
  match sbrk s (nu * 8 % 2 ^ 32) gap with
  | none => some (s, 0)
  | some (s, hp) => (free { s with mem := s.mem.setSize hp nu } (plus hp 1)).map fun s => (s, s.freep)

def take (s : State) (nunits prevp p : Nat) : State × Nat :=
  if s.mem.size p = nunits then ({ s with mem := s.mem.setPtr prevp (s.mem.ptr p), freep := prevp }, plus p 1)
  else
    let m := s.mem.setSize p (s.mem.size p - nunits)
    let p := plus p (m.size p)
    ({ s with mem := m.setSize p nunits, freep := prevp }, plus p 1)

/-- The loop of `malloc`; `gaps` are the answers of `sbrk`. -/
def mallocLoop (nunits : Nat) : Nat → State → Nat → Nat → List (Option Nat) → Option (State × Nat)
  | 0, _, _, _, _ => none
  | k + 1, s, prevp, p, gaps =>
    if s.mem.size p ≥ nunits then some (take s nunits prevp p)
    else if p = s.freep then
      (morecore s nunits gaps.head?.join).bind fun (s, p) =>
        if p = 0 then some (s, 0) else mallocLoop nunits k s p (s.mem.ptr p) gaps.tail
    else mallocLoop nunits k s p (s.mem.ptr p) gaps

def nunits (nbytes : Nat) : Nat := (nbytes + 8 - 1) % 2 ^ 32 / 8 + 1

def initBase (base : Nat) (s : State) : State :=
  if s.freep = 0 then { s with mem := (s.mem.setPtr base base).setSize base 0, freep := base } else s

def malloc (base : Nat) (s : State) (nbytes : Nat) (gaps : List (Option Nat)) : Option (State × Nat) :=
  let s := initBase base s
  mallocLoop (nunits nbytes) s.brk s s.freep (s.mem.ptr s.freep) gaps

/-! ## Programs -/

inductive Act where
  | malloc (nbytes : Nat) (gaps : List (Option Nat))
  | free (ap : Nat)
  | store (a : Nat) (b : BitVec 8)

def step (base : Nat) (s : State) : Act → Option State
  | .malloc nbytes gaps => (malloc base s nbytes gaps).map fun (s, ap) =>
    if ap = 0 then s else { s with live := (ap - 8, nbytes) :: s.live }
  | .free ap => (free s ap).map fun s => { s with live := s.live.filter (·.1 ≠ ap - 8) }
  | .store a b => some { s with mem := s.mem.set a b }

/-- The rules for programs: sizes that an `int` can hold, blocks are freed once, and bytes are stored in live blocks or
outside the heap. -/
def Fair (base : Nat) (s : State) : Act → Prop
  | .malloc nbytes _ => 8 * ((nbytes + 8 - 1) / 8 + 1) < 2 ^ 31
  | .free ap => ∃ b ∈ s.live, ap = b.1 + 8
  | .store a _ => (∃ b ∈ s.live, b.1 + 8 ≤ a ∧ a < b.1 + 8 * s.mem.size b.1) ∨
      (a < base ∨ base + 8 ≤ a) ∧ cover s.segs a = 0

instance (base : Nat) (s : State) : (a : Act) → Decidable (Fair base s a)
  | .malloc _ _ => inferInstanceAs (Decidable (_ < _))
  | .free _ => inferInstanceAs (Decidable (∃ b ∈ _, _))
  | .store _ _ => inferInstanceAs (Decidable (_ ∨ _))

def start (m : Mem) (brk : Nat) : State := ⟨m, 0, brk, [], []⟩

end Xv6.Umalloc
