import Xv6.Fs.Model
import Xv6.Vm.Model

/-!
# The LRU list and swapping (`kalloc.c`, with its helpers in `vm.c` and `fs.c`)

A `struct page*` is an index into `pages[]`, and `none` is the null pointer. Swapped pages are on device 0, while
`balloc_for_swap` takes its block numbers from the free map of device 2.
-/

namespace Xv6.Vm

open Xv6.Lib

structure LruPage where
  next : Option Nat
  prev : Option Nat
  pgdir : Nat
  vaddr : Nat
deriving DecidableEq

def NPAGES : Nat := PHYSTOP / PGSIZE

def SWAPBASE : Nat := 500

def SWAPMAX : Nat := 100000 - SWAPBASE

def BLKS_PER_PG : Nat := PGSIZE / BSIZE

structure Swap (L : Type) where
  pages : Nat → LruPage
  page_lru_head : Option Nat
  num_lru_pages : Int
  swapbitmap : Nat → Nat
  /-- Device 2, as `balloc` sees it. -/
  disk : Fs.Disk L
  /-- The blocks of device 0. -/
  swap : Nat → Block

variable {L : Type}

abbrev Mem (L : Type) : Type := State (Swap L)

/-! ## The LRU list -/

def Swap.setPage (e : Swap L) (i : Nat) (p : LruPage) : Swap L := { e with pages := Function.update e.pages i p }

def Swap.setNext (e : Swap L) (i : Nat) (q : Option Nat) : Swap L := e.setPage i { e.pages i with next := q }

def Swap.setPrev (e : Swap L) (i : Nat) (q : Option Nat) : Swap L := e.setPage i { e.pages i with prev := q }

/-- The case of `lru_insert` in which the list is not empty. -/
def lruLink (e : Swap L) (head : Nat) : Except Stop (Swap L) :=
  let p := (e.pages head).prev
  match scan (fun i => (e.pages i).next.isSome) NPAGES 0 with
  | none => .error .fullPageArray
  | some i =>
    let e := (e.setNext i (some head)).setPrev i p
    match p with
    | none => .error .null
    | some q => .ok ((e.setNext q (some i)).setPrev head (some i))

def lru_insert (s : Mem L) (pgdir va : Nat) (pte_u_mask : Bool) : Except Stop (Mem L) :=
  if pte_u_mask then
    let e := { s.ext with num_lru_pages := s.ext.num_lru_pages + 1 }
    match e.page_lru_head with
    | none =>
      .ok { s with ext := { e.setPage 0 ⟨some 0, some 0, pgdir, va⟩ with page_lru_head := some 0 } }
    | some head => return { s with ext := ← lruLink e head }
  else .ok s

def unlink (e : Swap L) (p : Nat) : Except Stop (Swap L) :=
  match (e.pages p).next, (e.pages p).prev with
  | some next, some prev =>
    let e := (e.setPrev next (some prev)).setNext prev (some next)
    .ok { (e.setNext p none).setPrev p none with num_lru_pages := e.num_lru_pages - 1 }
  | _, _ => .error .null

/-- The loop of `lru_delete`. It has no exit for an address that is not in the list: after as many passes as there are
pages it is going round in circles. -/
def lruFind (e : Swap L) (va : Nat) : Nat → Nat → Except Stop Nat
  | 0, _ => .error .hang
  | k + 1, p =>
    if (e.pages p).vaddr = va ∧ (e.pages p).next.isSome then .ok p
    else
      match (e.pages p).next with
      | none => .error .null
      | some q => lruFind e va k q

def lru_delete (s : Mem L) (_pgdir va : Nat) : Except Stop (Mem L) :=
  match s.ext.page_lru_head with
  | none => .ok s
  | some head => do
    let p ← lruFind s.ext va (NPAGES + 1) head
    let e ← unlink s.ext p
    return { s with ext := { e with swapbitmap := fun i => if i < PGSIZE ∧ e.swapbitmap i = va then 0 else e.swapbitmap i } }

/-! ## Page table entries -/

def pte_logical_and (s : Mem L) (pgdir va : Nat) (flag : BitVec 32) : Except Stop Bool := do
  let pte ← walk s pgdir va
  if pte = 0 then return false
  else do
    let w ← load s pte
    return has w flag

def pteUpdate (f : BitVec 32 → BitVec 32) (s : Mem L) (pgdir va : Nat) : Except Stop (Mem L) := do
  let pte ← walk s pgdir va
  if pte = 0 then return s
  else do
    let w ← load s pte
    store s pte (f w)

def pte_pte_a_clear : Mem L → Nat → Nat → Except Stop (Mem L) := pteUpdate fun w => w &&& ~~~PTE_A

def pte_pte_p_clear : Mem L → Nat → Nat → Except Stop (Mem L) := pteUpdate fun w => w &&& ~~~PTE_P

def pte_pte_swap_set : Mem L → Nat → Nat → Except Stop (Mem L) := pteUpdate fun w => w &&& PTE_SWAP

def pte_set_swapoffset (s : Mem L) (pgdir va off : Nat) : Except Stop (Mem L) :=
  pteUpdate (fun w => w &&& 0xFFF#32 ||| BitVec.ofNat 32 off <<< 12) s pgdir va

/-! ## Swap space -/

def swapread (s : Mem L) (ptr blkno : Nat) : Except Stop (Mem L) :=
  if blkno ≥ SWAPMAX / BLKS_PER_PG then .error .swapread
  else storePage s ptr fun j => (s.ext.swap (SWAPBASE + BLKS_PER_PG * blkno + j / BSIZE)).get (j % BSIZE)

def swapwrite (s : Mem L) (ptr blkno : Nat) : Except Stop (Mem L) :=
  if blkno ≥ SWAPMAX / BLKS_PER_PG then .error .swapwrite
  else do
    let page ← loadPage s ptr
    let base := SWAPBASE + BLKS_PER_PG * blkno
    return { s with ext := { s.ext with swap := fun b =>
      if base ≤ b ∧ b < base + BLKS_PER_PG then fun j => page.get (BSIZE * (b - base) + j) else s.ext.swap b } }

def setSwapbitmap (s : Mem L) (blkno va : Nat) : Mem L :=
  { s with ext := { s.ext with swapbitmap := Function.update s.ext.swapbitmap blkno va } }

section

variable (lw : Fs.LogWrite L)

def balloc_for_swap (s : Mem L) : Except Stop (Nat × Mem L) :=
  match Fs.balloc lw s.ext.disk with
  | .ok (b, d) => .ok (b, { s with ext := { s.ext with disk := d } })
  | .error _ => .error .balloc

/-! ## Reclaiming -/

def evict (s : Mem L) (p : Nat) : Except Stop (Mem L) := do
  let page := s.ext.pages p
  let e ← unlink s.ext p
  let (blkno, s) ← balloc_for_swap lw { s with ext := e }
  let s ← swapwrite s page.vaddr blkno
  let s := setSwapbitmap s blkno page.vaddr
  let s ← pte_pte_swap_set s page.pgdir page.vaddr
  let s ← pte_pte_p_clear s page.pgdir page.vaddr
  let s ← pte_set_swapoffset s page.pgdir page.vaddr blkno
  return { s with freelist := page.vaddr }

def nextHead (s : Mem L) : Except Stop (Mem L) :=
  match s.ext.page_lru_head with
  | none => .error .null
  | some h => .ok { s with ext := { s.ext with page_lru_head := (s.ext.pages h).next } }

/-- The loop of `reclaim` up to the choice of its victim, in at most `k` passes. -/
def pickLoop (tail : Option Nat) : Nat → Mem L → Nat → Except Stop (Option Nat × Mem L)
  | 0, _, _ => .error .hang
  | k + 1, s, p => do
    let page := s.ext.pages p
    let a ← pte_logical_and s page.pgdir page.vaddr PTE_A
    if a then do
      let s ← pte_pte_a_clear s page.pgdir page.vaddr
      let s ← nextHead s
      if some p = tail then return (none, s)
      else
        match (s.ext.pages p).next with
        | none => .error .null
        | some q => pickLoop tail k s q
    else return (some p, s)

/-- The victim. A second round would find the bits of the first one cleared, so two rounds are enough. -/
def pick (s : Mem L) : Except Stop (Option Nat × Mem L) :=
  match s.ext.page_lru_head with
  | none => .ok (none, s)
  | some head => pickLoop (s.ext.pages head).prev (2 * NPAGES + 1) s head

def reclaim (s : Mem L) : Except Stop (Bool × Mem L) := do
  let (victim, s) ← pick s
  match victim with
  | none => return (false, s)
  | some p => do
    let s ← evict lw s p
    return (true, s)

/-- The loop of `kalloc`; every pass that does not end it takes a page out of the list. -/
def kallocLoop : Nat → Mem L → Except Stop (Nat × Mem L)
  | 0, _ => .error .hang
  | k + 1, s =>
    if s.freelist ≠ 0 then popFree s
    else do
      let (ok, s) ← reclaim lw s
      if ok then kallocLoop k s else return (0, s)

def kalloc (s : Mem L) : Except Stop (Nat × Mem L) := kallocLoop lw (NPAGES + 1) s

def hooks : Hooks (Swap L) where
  kalloc := kalloc lw
  lru_insert := lru_insert
  lru_delete := lru_delete

/-! ## Page faults -/

def swapin_helper (s : Mem L) (pgdir va np : Nat) : Except Stop (Mem L) := do
  let pte ← walk s pgdir va
  let w ← readPte s pte
  store s pte ((w &&& 0xFFF#32 ||| PTE_P) &&& BitVec.ofNat 32 (V2P np) <<< 12)

/-- `swapin`; false stands for -1. -/
def swapin (s : Mem L) (pgdir va : Nat) : Except Stop (Bool × Mem L) := do
  let (np, s) ← kalloc lw s
  if np = 0 then return (false, s)
  else do
    let blkno := va / 2 ^ 12
    let s := setSwapbitmap s blkno 0
    let s ← swapread s np blkno
    let s ← swapin_helper s pgdir va np
    return (true, s)

/-- `pgintr` for a process with page directory `pgdir`: whether it sets `p->killed`. What it calls is a parameter, so that one can
say when it is called. -/
def pgintrWith (swapin : Mem L → Nat → Nat → Except Stop (Bool × Mem L)) (s : Mem L) (pgdir rcr : Nat) : Except Stop (Bool × Mem L) := do
  let pte ← walk s pgdir rcr
  let w ← readPte s pte
  if has w PTE_SWAP then do
    let (ok, s) ← swapin s pgdir rcr
    return (!ok, s)
  else return (true, s)

def pgintr : Mem L → Nat → Nat → Except Stop (Bool × Mem L) := pgintrWith (swapin lw)

end

/-! ## Address spaces -/

structure Space (L : Type) where
  mem : Mem L
  dirs : List Nat

inductive Call where
  | setupkvm
  | mappages (pgdir va size pa : Nat) (perm : BitVec 32)
  | inituvm (pgdir : Nat) (init : Nat → BitVec 8) (sz : Nat)
  | allocuvm (pgdir oldsz newsz : Nat)
  | copyuvm (pgdir sz : Nat)
  | deallocuvm (pgdir oldsz newsz : Nat)
  | freevm (pgdir : Nat)
  | reclaim
  | swapin (pgdir va : Nat)
  | switchuvm (pgdir : Nat)
  /-- The machine sets `PTE_A` when the page is used. -/
  | access (pgdir va : Nat)

def Call.pgdir : Call → Option Nat
  | .mappages pgdir _ _ _ _ | .inituvm pgdir _ _ | .allocuvm pgdir _ _ | .copyuvm pgdir _ | .deallocuvm pgdir _ _
  | .freevm pgdir | .swapin pgdir _ | .switchuvm pgdir | .access pgdir _ => some pgdir
  | .setupkvm | .reclaim => none

def addDir (dirs : List Nat) (pgdir : Nat) : List Nat := if pgdir = 0 then dirs else pgdir :: dirs

def exec (K : Kernel) (lw : Fs.LogWrite L) (x : Space L) : Call → Except Stop (Space L)
  | .setupkvm => do
    let (d, s) ← setupkvm K (hooks lw) x.mem
    return ⟨s, addDir x.dirs d⟩
  | .mappages pgdir va size pa perm => do
    let (_, s) ← mappages (hooks lw) x.mem pgdir va size pa perm
    return { x with mem := s }
  | .inituvm pgdir init sz => return { x with mem := ← inituvm (hooks lw) x.mem pgdir init sz }
  | .allocuvm pgdir oldsz newsz => do
    let (_, s) ← allocuvm K (hooks lw) x.mem pgdir oldsz newsz
    return { x with mem := s }
  | .copyuvm pgdir sz => do
    let (d, s) ← copyuvm K (hooks lw) x.mem pgdir sz
    return ⟨s, addDir x.dirs d⟩
  | .deallocuvm pgdir oldsz newsz => do
    let (_, s) ← deallocuvm K (hooks lw) x.mem pgdir oldsz newsz
    return { x with mem := s }
  | .freevm pgdir => return ⟨← freevm K (hooks lw) x.mem pgdir, x.dirs.erase pgdir⟩
  | .reclaim => do
    let (_, s) ← reclaim lw x.mem
    return { x with mem := s }
  | .swapin pgdir va => do
    let (_, s) ← swapin lw x.mem pgdir va
    return { x with mem := s }
  | .switchuvm pgdir => .ok { x with mem := { x.mem with cr3 := V2P pgdir } }
  | .access pgdir va => return { x with mem := ← pteUpdate (fun w => w ||| PTE_A) x.mem pgdir va }

def step (K : Kernel) (lw : Fs.LogWrite L) (x : Space L) (c : Call) : Option (Space L) :=
  (exec K lw x c).toOption

def Call.Allowed (x : Space L) (c : Call) : Prop := ∀ d ∈ c.pgdir, d ∈ x.dirs

instance (x : Space L) (c : Call) : Decidable (c.Allowed x) := by unfold Call.Allowed; infer_instance

/-! ## What the list should hold -/

def pteAt (s : Mem L) (pgdir va : Nat) : BitVec 32 :=
  let pde := s.word (V2P pgdir + 4 * PDX va)
  if has pde PTE_P then s.word (PTE_ADDR pde + 4 * PTX va) else 0

def Resident (x : Space L) (pgdir va : Nat) : Prop :=
  pgdir ∈ x.dirs ∧ va % PGSIZE = 0 ∧ va < 2 ^ 32 ∧ has (pteAt x.mem pgdir va) PTE_P ∧ has (pteAt x.mem pgdir va) PTE_U

/-- The circular list at `page_lru_head` consists of the pages `ps`. -/
structure Ring (e : Swap L) (ps : List Nat) : Prop where
  head : e.page_lru_head = ps.head?
  nodup : ps.Nodup
  next : ∀ i p, ps[i]? = some p → (e.pages p).next = ps[(i + 1) % ps.length]?
  prev : ∀ i p, ps[(i + 1) % ps.length]? = some p → i < ps.length → (e.pages p).prev = ps[i]?

end Xv6.Vm
