import Xv6.Param

/-!
# Page tables (`vm.c`) and the free list (`kalloc.c`)

Addresses are numbers below `2 ^ 32`, 0 is the null pointer. The kernel reaches physical memory through the direct map
above `KERNBASE`; an address below it goes through the page directory in `cr3`, and without a present entry the access
faults.

The code is generic in `kalloc` and the two functions of the LRU list, which come from another part of `kalloc.c`.
-/

namespace Xv6.Vm

open Xv6.Lib

/-! ## `memlayout.h` and `mmu.h` -/

def EXTMEM : Nat := 0x100000

def PHYSTOP : Nat := 0xE000000

def DEVSPACE : Nat := 0xFE000000

def KERNBASE : Nat := 0x80000000

def KERNLINK : Nat := KERNBASE + EXTMEM

def PGSIZE : Nat := 4096

def NPDENTRIES : Nat := 1024

def PTE_P : BitVec 32 := 0x001

def PTE_W : BitVec 32 := 0x002

def PTE_U : BitVec 32 := 0x004

def PTE_A : BitVec 32 := 0x20

def PTE_SWAP : BitVec 32 := 0x100

def V2P (a : Nat) : Nat := (a + 2 ^ 32 - KERNBASE) % 2 ^ 32

def P2V (a : Nat) : Nat := (a + KERNBASE) % 2 ^ 32

def PDX (va : Nat) : Nat := va / 2 ^ 22 % 1024

def PTX (va : Nat) : Nat := va / 2 ^ 12 % 1024

def PGROUNDUP (sz : Nat) : Nat := (sz + PGSIZE - 1) % 2 ^ 32 / PGSIZE * PGSIZE

def PGROUNDDOWN (a : Nat) : Nat := a / PGSIZE * PGSIZE

def PTE_ADDR (pte : BitVec 32) : Nat := (pte &&& ~~~0xFFF#32).toNat

def PTE_FLAGS (pte : BitVec 32) : BitVec 32 := pte &&& 0xFFF#32

def has (pte flag : BitVec 32) : Bool := pte &&& flag ≠ 0

/-! ## Memory -/

abbrev Page : Type := Bytes PGSIZE

/-- How a call can end other than by returning: with a panic, with an access that has no meaning, or never. -/
inductive Stop where
  | kfree
  | remap
  | inituvm
  | loaduvmAlign
  | loaduvm
  | freevm
  | clearpteu
  | copyuvmPte
  | copyuvmPresent
  | fullPageArray
  | swapread
  | swapwrite
  | balloc
  | schedLocks
  /-- A page fault in the kernel. -/
  | fault
  /-- A null pointer is followed. -/
  | null
  | hang
deriving DecidableEq

structure Kernel where
  data : Nat
  end_ : Nat
  data_ge : KERNLINK < data
  data_page : data % PGSIZE = 0
  data_lt : data < KERNBASE + PHYSTOP
  end_ge : data ≤ end_

structure State (σ : Type) where
  mem : Nat → Page
  /-- `kmem.freelist`. -/
  freelist : Nat
  cr3 : Nat
  ext : σ

variable {σ : Type}

def State.word (s : State σ) (pa : Nat) : BitVec 32 := (s.mem (pa / PGSIZE)).word (pa % PGSIZE)

def translate (s : State σ) (a : Nat) : Except Stop Nat :=
  if KERNBASE ≤ a then .ok (V2P a)
  else
    let pde := s.word (s.cr3 + 4 * PDX a)
    if has pde PTE_P then
      let pte := s.word (PTE_ADDR pde + 4 * PTX a)
      if has pte PTE_P then .ok (PTE_ADDR pte + a % PGSIZE) else .error .fault
    else .error .fault

def load (s : State σ) (a : Nat) : Except Stop (BitVec 32) := return s.word (← translate s a)

def State.setPage (s : State σ) (f : Nat) (p : Page) : State σ := { s with mem := Function.update s.mem f p }

def store (s : State σ) (a : Nat) (w : BitVec 32) : Except Stop (State σ) := do
  let pa ← translate s a
  return s.setPage (pa / PGSIZE) ((s.mem (pa / PGSIZE)).setWord (pa % PGSIZE) w)

def loadPage (s : State σ) (a : Nat) : Except Stop Page := return s.mem ((← translate s a) / PGSIZE)

def storePage (s : State σ) (a : Nat) (p : Page) : Except Stop (State σ) :=
  return s.setPage ((← translate s a) / PGSIZE) p

/-! ## The free list -/

def kfree (K : Kernel) (s : State σ) (v : Nat) : Except Stop (State σ) :=
  if v % PGSIZE ≠ 0 ∨ v < K.end_ ∨ V2P v ≥ PHYSTOP then .error .kfree
  else do
    -- Fill with junk to catch dangling refs.
    let s ← storePage s v (Bytes.fill PGSIZE 1#8)
    let s ← store s v (.ofNat 32 s.freelist)
    return { s with freelist := v }

/-- `r = kmem.freelist; kmem.freelist = r->next`, for a list that is not empty. -/
def popFree (s : State σ) : Except Stop (Nat × State σ) := do
  let next ← load s s.freelist
  return (s.freelist, { s with freelist := next.toNat })

/-! ## Page tables -/

/-- What `vm.c` calls. `kalloc` returns 0 when it fails. -/
structure Hooks (σ : Type) where
  kalloc : State σ → Except Stop (Nat × State σ)
  lru_insert : State σ → Nat → Nat → Bool → Except Stop (State σ)
  lru_delete : State σ → Nat → Nat → Except Stop (State σ)

section

variable (K : Kernel) (h : Hooks σ)

def newTable (s : State σ) (pgdir va pgtab : Nat) : Except Stop (Nat × State σ) := do
  -- Make sure all those PTE_P bits are zero.
  let s ← storePage s pgtab (Bytes.fill PGSIZE 0#8)
  let s ← store s (pgdir + 4 * PDX va) (.ofNat 32 (V2P pgtab) ||| PTE_P ||| PTE_W ||| PTE_U)
  return (pgtab + 4 * PTX va, s)

/-- `walkpgdir(pgdir, va, 0)`: the address of the entry, or 0. -/
def walk (s : State σ) (pgdir va : Nat) : Except Stop Nat := do
  let pde ← load s (pgdir + 4 * PDX va)
  return if has pde PTE_P then P2V (PTE_ADDR pde) + 4 * PTX va else 0

/-- `*pte` where the code does not test whether `walkpgdir` has returned a null pointer. -/
def readPte (s : State σ) (pte : Nat) : Except Stop (BitVec 32) := if pte = 0 then .error .null else load s pte

def walkpgdir (s : State σ) (pgdir va : Nat) : Except Stop (Nat × State σ) := do
  let pde ← load s (pgdir + 4 * PDX va)
  if has pde PTE_P then return (P2V (PTE_ADDR pde) + 4 * PTX va, s)
  else do
    let (pgtab, s) ← h.kalloc s
    if pgtab = 0 then return (0, s) else newTable s pgdir va pgtab

/-- `*pte = pa | perm | PTE_P`, with the entry in the LRU list. -/
def setPte (s : State σ) (pgdir va pte pa : Nat) (perm : BitVec 32) : Except Stop (State σ) := do
  let old ← load s pte
  if has old PTE_P then .error .remap
  else do
    let s ← store s pte (.ofNat 32 pa ||| perm ||| PTE_P)
    let new ← load s pte
    h.lru_insert s pgdir va (has new PTE_U)

/-- One pass of `mappages`, for page `a`; false stands for -1. -/
def mapPage (s : State σ) (pgdir va a pa : Nat) (perm : BitVec 32) : Except Stop (Bool × State σ) := do
  let (pte, s) ← walkpgdir h s pgdir a
  if pte = 0 then return (false, s)
  else do
    let s ← setPte h s pgdir va pte pa perm
    return (true, s)

def mapLoop : Nat → State σ → Nat → Nat → Nat → Nat → BitVec 32 → Except Stop (Bool × State σ)
  | 0, s, pgdir, va, a, pa, perm => mapPage h s pgdir va a pa perm
  | k + 1, s, pgdir, va, a, pa, perm => do
    let (ok, s) ← mapPage h s pgdir va a pa perm
    if ok then mapLoop k s pgdir va ((a + PGSIZE) % 2 ^ 32) ((pa + PGSIZE) % 2 ^ 32) perm else return (false, s)

def mappages (s : State σ) (pgdir va size pa : Nat) (perm : BitVec 32) : Except Stop (Bool × State σ) :=
  let a := PGROUNDDOWN va
  let last := PGROUNDDOWN ((va + size + 2 ^ 32 - 1) % 2 ^ 32)
  mapLoop h ((last + 2 ^ 32 - a) % 2 ^ 32 / PGSIZE) s pgdir va a pa perm

/-! ## Releasing memory -/

def freePte (s : State σ) (pgdir pte : Nat) (w : BitVec 32) : Except Stop (State σ) :=
  if PTE_ADDR w = 0 then .error .kfree
  else do
    let s ← kfree K s (P2V (PTE_ADDR w))
    let s ← h.lru_delete s pgdir (P2V (PTE_ADDR w))
    store s pte 0

/-- One pass of `deallocuvm`: the address for the next pass. -/
def deallocPage (s : State σ) (pgdir a : Nat) : Except Stop (Nat × State σ) := do
  let pte ← walk s pgdir a
  if pte = 0 then return ((PDX a + 1) * 2 ^ 22 % 2 ^ 32, s)
  else do
    let w ← load s pte
    if has w PTE_P then do
      let s ← freePte K h s pgdir pte w
      return (a + PGSIZE, s)
    else return (a + PGSIZE, s)

def deallocLoop (pgdir oldsz : Nat) : Nat → State σ → Nat → Except Stop (State σ)
  | 0, s, _ => .ok s
  | k + 1, s, a =>
    if a < oldsz then do
      let (a, s) ← deallocPage K h s pgdir a
      deallocLoop pgdir oldsz k s a
    else .ok s

def deallocuvm (s : State σ) (pgdir oldsz newsz : Nat) : Except Stop (Nat × State σ) :=
  if newsz ≥ oldsz then .ok (oldsz, s)
  else do
    let s ← deallocLoop K h pgdir oldsz (oldsz / PGSIZE + 1) s (PGROUNDUP newsz)
    return (newsz, s)

def freeTable (pgdir : Nat) (s : State σ) (i : Nat) : Except Stop (State σ) := do
  let pde ← load s (pgdir + 4 * i)
  if has pde PTE_P then kfree K s (P2V (PTE_ADDR pde)) else return s

def freevm (s : State σ) (pgdir : Nat) : Except Stop (State σ) :=
  if pgdir = 0 then .error .freevm
  else do
    let (_, s) ← deallocuvm K h s pgdir KERNBASE 0
    let s ← (List.range NPDENTRIES).foldlM (freeTable K pgdir) s
    kfree K s pgdir

/-! ## Building address spaces -/

structure Kmap where
  virt : Nat
  phys_start : Nat
  phys_end : Nat
  perm : BitVec 32

def kmap : List Kmap :=
  [ ⟨KERNBASE, 0, EXTMEM, PTE_W⟩,                  -- I/O space
    ⟨KERNLINK, V2P KERNLINK, V2P K.data, 0⟩,       -- kern text+rodata
    ⟨K.data, V2P K.data, PHYSTOP, PTE_W⟩,          -- kern data+memory
    ⟨DEVSPACE, DEVSPACE, 0, PTE_W⟩ ]               -- more devices

def setupLoop (pgdir : Nat) : List Kmap → State σ → Except Stop (Nat × State σ)
  | [], s => .ok (pgdir, s)
  | k :: ks, s => do
    let (ok, s) ← mappages h s pgdir k.virt ((k.phys_end + 2 ^ 32 - k.phys_start) % 2 ^ 32) k.phys_start k.perm
    if ok then setupLoop pgdir ks s
    else do
      let s ← freevm K h s pgdir
      return (0, s)

def setupkvm (s : State σ) : Except Stop (Nat × State σ) := do
  let (pgdir, s) ← h.kalloc s
  if pgdir = 0 then return (0, s)
  else do
    let s ← storePage s pgdir (Bytes.fill PGSIZE 0#8)
    setupLoop K h pgdir (kmap K) s

/-- `inituvm`, for the first `sz` bytes of `init`. The result of `kalloc` is not checked. -/
def inituvm (s : State σ) (pgdir : Nat) (init : Nat → BitVec 8) (sz : Nat) : Except Stop (State σ) :=
  if sz ≥ PGSIZE then .error .inituvm
  else do
    let (mem, s) ← h.kalloc s
    let s ← storePage s mem (Bytes.fill PGSIZE 0#8)
    let (_, s) ← mappages h s pgdir 0 PGSIZE (V2P mem) (PTE_W ||| PTE_U)
    storePage s mem ((Bytes.fill PGSIZE 0#8).write 0 sz init)

/-- `loaduvm` for pages that `readi` has read, a short read being `none`; `n` passes from address `a` on. -/
def loadLoop (pgdir : Nat) (file : Nat → Option Page) : Nat → State σ → Nat → Nat → Except Stop (Bool × State σ)
  | 0, s, _, _ => .ok (true, s)
  | n + 1, s, a, i => do
    let pte ← walk s pgdir a
    if pte = 0 then .error .loaduvm
    else do
      let w ← load s pte
      match file i with
      | none => return (false, s)
      | some page => do
        let s ← storePage s (P2V (PTE_ADDR w)) page
        loadLoop pgdir file n s (a + PGSIZE) (i + 1)

def loaduvm (s : State σ) (pgdir addr : Nat) (file : Nat → Option Page) (sz : Nat) : Except Stop (Bool × State σ) :=
  if addr % PGSIZE ≠ 0 then .error .loaduvmAlign
  else loadLoop pgdir file ((sz + PGSIZE - 1) / PGSIZE) s addr 0

def allocLoop (pgdir oldsz newsz : Nat) : Nat → State σ → Nat → Except Stop (Nat × State σ)
  | 0, s, _ => .ok (newsz, s)
  | n + 1, s, a => do
    let (mem, s) ← h.kalloc s
    if mem = 0 then do
      let (_, s) ← deallocuvm K h s pgdir newsz oldsz
      return (0, s)
    else do
      let s ← storePage s mem (Bytes.fill PGSIZE 0#8)
      let (ok, s) ← mappages h s pgdir a PGSIZE (V2P mem) (PTE_W ||| PTE_U)
      if ok then allocLoop pgdir oldsz newsz n s (a + PGSIZE)
      else do
        let (_, s) ← deallocuvm K h s pgdir newsz oldsz
        let s ← kfree K s mem
        return (0, s)

def allocuvm (s : State σ) (pgdir oldsz newsz : Nat) : Except Stop (Nat × State σ) :=
  if newsz ≥ KERNBASE then .ok (0, s)
  else if newsz < oldsz then .ok (oldsz, s)
  else allocLoop K h pgdir oldsz newsz ((newsz - PGROUNDUP oldsz + PGSIZE - 1) / PGSIZE) s (PGROUNDUP oldsz)

def clearpteu (s : State σ) (pgdir uva : Nat) : Except Stop (State σ) := do
  let pte ← walk s pgdir uva
  if pte = 0 then .error .clearpteu
  else do
    let w ← load s pte
    store s pte (w &&& ~~~PTE_U)

/-- One pass of `copyuvm`: page `i` of `pgdir`, with entry `w` at `pte`, for `d`; false stands for `goto bad`. -/
def copyPage (s : State σ) (pgdir d i pte : Nat) (w : BitVec 32) : Except Stop (Bool × State σ) := do
  let (mem, s) ← h.kalloc s
  if mem = 0 then return (false, s)
  else do
    let page ← loadPage s (P2V (PTE_ADDR w))
    let s ← storePage s mem page
    -- The entry is read once more.
    let s ← h.lru_insert s pgdir mem (has (← load s pte) PTE_U)
    let (ok, s) ← mappages h s d i PGSIZE (V2P mem) (PTE_FLAGS w)
    if ok then return (true, s)
    else do
      let s ← kfree K s mem
      return (false, s)

def copyLoop (pgdir d : Nat) : Nat → State σ → Nat → Except Stop (Nat × State σ)
  | 0, s, _ => .ok (d, s)
  | n + 1, s, i => do
    let pte ← walk s pgdir i
    if pte = 0 then .error .copyuvmPte
    else do
      let w ← load s pte
      if has w PTE_P then do
        let (ok, s) ← copyPage K h s pgdir d i pte w
        if ok then copyLoop pgdir d n s (i + PGSIZE)
        else do
          let s ← freevm K h s d
          return (0, s)
      else .error .copyuvmPresent

def copyuvm (s : State σ) (pgdir sz : Nat) : Except Stop (Nat × State σ) := do
  let (d, s) ← setupkvm K h s
  if d = 0 then return (0, s) else copyLoop K h pgdir d ((sz + PGSIZE - 1) / PGSIZE) s 0

def uva2ka (s : State σ) (pgdir uva : Nat) : Except Stop Nat := do
  let pte ← walk s pgdir uva
  let w ← readPte s pte
  return if has w PTE_P ∧ has w PTE_U then P2V (PTE_ADDR w) else 0

def copyout (pgdir : Nat) : Nat → State σ → Nat → (Nat → BitVec 8) → Nat → Except Stop (Bool × State σ)
  | 0, s, _, _, _ => .ok (true, s)
  | k + 1, s, va, buf, len =>
    if len = 0 then .ok (true, s)
    else do
      let pa0 ← uva2ka s pgdir (PGROUNDDOWN va)
      if pa0 = 0 then return (false, s)
      else do
        let n := min (PGSIZE - va % PGSIZE) len
        let page ← loadPage s pa0
        let s ← storePage s pa0 (page.write (va % PGSIZE) n buf)
        copyout pgdir k s (PGROUNDDOWN va + PGSIZE) (fun j => buf (n + j)) (len - n)

end

end Xv6.Vm
