import Xv6.Bio.Model
import Xv6.Vm.Swap

/-!
# `kalloc` and the locks that its slow path meets

The path from `kalloc` through `balloc`, `log_write`, the buffer cache and the disk driver, as one processor runs it while
it holds `kmem.lock`. `ncli` is the number of spinlocks that the processor holds. `sleep` gives up the one lock that it is
passed, and `sched` panics if the processor holds another one.
-/

namespace Xv6.Vm.Locked

open Xv6.Lib

/-- How a call can end other than by returning. -/
inductive Halt where
  /-- As in the functions without locks. -/
  | stop (e : Stop)
  /-- `panic("sched locks")`. -/
  | schedLocks
  /-- The process sleeps, and holds no spinlock. -/
  | asleep
  | noBuffers
  | bwrite
  | brelse
  | notLocked
  | nothingToDo
  | noDisk1
  | incorrectBlockno
  | tooBig
  /-- `panic("log_write outside of trans")`. -/
  | outsideTrans
  | outOfBlocks
  | swapwrite
deriving DecidableEq

structure Io where
  ncli : Nat
  /-- `myproc()->pid`. -/
  pid : Nat
  buf : Fin NBUF → Bio.Buf
  lru : List (Fin NBUF)
  idequeue : List (Fin NBUF)
  havedisk1 : Bool
  sb : Superblock
  /-- `log.lh.block[0 .. log.lh.n]`. -/
  logged : List Nat
  logsize : Nat
  outstanding : Nat

structure World (L : Type) where
  mem : Mem L
  io : Io

def lift {α : Type} : Except Stop α → Except Halt α
  | .ok a => .ok a
  | .error e => .error (.stop e)

namespace Io

def setBuf (s : Io) (i : Fin NBUF) (b : Bio.Buf) : Io := { s with buf := Function.update s.buf i b }

/-! ## Locks -/

def acquire (s : Io) : Io := { s with ncli := s.ncli + 1 }

def release (s : Io) : Io := { s with ncli := s.ncli - 1 }

/-- `sleep(chan, lk)`, as far as `swtch`: it takes `ptable.lock`, releases `lk` and calls `sched`. -/
def sleep (s : Io) : Except Halt Io :=
  let s := s.acquire.release
  if s.ncli ≠ 1 then .error .schedLocks else .error .asleep

def acquiresleep (s : Io) (i : Fin NBUF) : Except Halt Io :=
  let s := s.acquire
  if (s.buf i).lock ≠ none then s.sleep
  else .ok (s.setBuf i { s.buf i with lock := some s.pid }).release

def holdingsleep (s : Io) (i : Fin NBUF) : Bool := (s.buf i).lock = some s.pid

/-! ## The disk driver -/

def idestart (s : Io) (i : Fin NBUF) : Except Halt Unit :=
  if (s.buf i).blockno ≥ FSSIZE then .error .incorrectBlockno else .ok ()

/-- The interrupt that completes the request needs `idelock`, so the first test of the loop finds it unfinished. -/
def iderw (s : Io) (i : Fin NBUF) : Except Halt Io :=
  if s.holdingsleep i = false then .error .notLocked
  else if (s.buf i).valid ∧ (s.buf i).dirty = false then .error .nothingToDo
  else if (s.buf i).dev ≠ 0 ∧ s.havedisk1 = false then .error .noDisk1
  else do
    let s := s.acquire
    let s := { s with idequeue := s.idequeue ++ [i] }
    if s.idequeue.head? = some i then s.idestart i
    if (s.buf i).valid ∧ (s.buf i).dirty = false then return s.release
    else s.sleep

/-! ## The buffer cache -/

def bget (s : Io) (dev blockno : Nat) : Except Halt (Fin NBUF × Io) :=
  match s.lru.find? fun i => (s.buf i).dev = dev ∧ (s.buf i).blockno = blockno with
  | some i => .ok (i, s.setBuf i { s.buf i with refcnt := (s.buf i).refcnt + 1 })
  | none =>
    match s.lru.reverse.find? fun i => (s.buf i).refcnt = 0 ∧ (s.buf i).dirty = false with
    | some i => .ok (i, s.setBuf i { s.buf i with dev, blockno, valid := false, dirty := false, refcnt := 1 })
    | none => .error .noBuffers

def bread (s : Io) (dev blockno : Nat) : Except Halt (Fin NBUF × Io) := do
  let (i, s) ← s.bget dev blockno
  let s ← s.acquiresleep i
  if (s.buf i).valid then return (i, s)
  else do
    let s ← s.iderw i
    return (i, s)

def bwrite (s : Io) (i : Fin NBUF) : Except Halt Io :=
  if s.holdingsleep i = false then .error .bwrite
  else (s.setBuf i { s.buf i with dirty := true }).iderw i

def brelse (s : Io) (i : Fin NBUF) : Except Halt Io :=
  if s.holdingsleep i = false then .error .brelse
  else
    let b := { s.buf i with lock := none, refcnt := (s.buf i).refcnt - 1 }
    let s := s.setBuf i b
    .ok (if b.refcnt = 0 then { s with lru := i :: s.lru.erase i } else s)

def setData (s : Io) (i : Fin NBUF) (v : Block) : Io := s.setBuf i { s.buf i with data := v }

/-! ## The log -/

def log_write (s : Io) (i : Fin NBUF) : Except Halt Io :=
  if s.logged.length ≥ LOGSIZE ∨ s.logged.length + 1 ≥ s.logsize then .error .tooBig
  else if s.outstanding < 1 then .error .outsideTrans
  else
    let b := s.buf i
    let s := if b.blockno ∈ s.logged then s else { s with logged := s.logged ++ [b.blockno] }
    .ok (s.setBuf i { b with dirty := true })

/-! ## Blocks -/

def bzero (s : Io) (dev bno : Nat) : Except Halt Io := do
  let (bp, s) ← s.bread dev bno
  let s ← (s.setData bp (Bytes.fill BSIZE 0#8)).log_write bp
  s.brelse bp

def ballocLoop (dev : Nat) : Nat → Io → Nat → Except Halt (Nat × Io)
  | 0, _, _ => .error .outOfBlocks
  | k + 1, s, b =>
    if b < s.sb.size then do
      let (bp, s) ← s.bread dev (Fs.bblock s.sb b)
      let data := (s.buf bp).data
      match scan (fun bi => b + bi < s.sb.size && Fs.isFree data bi) BPB 0 with
      | some bi => do
        let s ← (s.setData bp (data.set (bi / 8) (data.get (bi / 8) ||| Fs.mask bi))).log_write bp
        let s ← s.brelse bp
        let s ← s.bzero dev (b + bi)
        return (b + bi, s)
      | none => do
        let s ← s.brelse bp
        ballocLoop dev k s (b + BPB)
    else .error .outOfBlocks

def balloc (s : Io) (dev : Nat) : Except Halt (Nat × Io) := ballocLoop dev (s.sb.size / BPB + 1) s 0

end Io

variable {L : Type}

/-! ## Swapping out -/

def balloc_for_swap (s : Io) : Except Halt (Nat × Io) := s.balloc T_FILE.toNat

def swapBlock (page : Page) (blkno : Nat) (s : Io) (i : Nat) : Except Halt Io := do
  let (bp, s) ← s.bread 0 (SWAPBASE + BLKS_PER_PG * blkno + i)
  let s := s.setData bp fun j => page.get (BSIZE * i + j)
  let s ← s.bwrite bp
  s.brelse bp

def swapwrite (w : World L) (ptr blkno : Nat) : Except Halt (World L) :=
  if blkno ≥ SWAPMAX / BLKS_PER_PG then .error .swapwrite
  else do
    let page ← lift (loadPage w.mem ptr)
    let io ← (List.range BLKS_PER_PG).foldlM (swapBlock page blkno) w.io
    return { w with io }

def evict (w : World L) (p : Nat) : Except Halt (World L) := do
  let page := w.mem.ext.pages p
  let e ← lift (unlink w.mem.ext p)
  let w := { w with mem := { w.mem with ext := e } }
  let (blkno, io) ← balloc_for_swap w.io
  let w ← swapwrite { w with io } page.vaddr blkno
  let m := setSwapbitmap w.mem blkno page.vaddr
  let m ← lift (pte_pte_swap_set m page.pgdir page.vaddr)
  let m ← lift (pte_pte_p_clear m page.pgdir page.vaddr)
  let m ← lift (pte_set_swapoffset m page.pgdir page.vaddr blkno)
  return { w with mem := { m with freelist := page.vaddr } }

def reclaim (w : World L) : Except Halt (Bool × World L) := do
  let (victim, m) ← lift (pick w.mem)
  let w := { w with mem := m }
  match victim with
  | none => return (false, w)
  | some p => do
    let w ← evict w p
    return (true, w)

def kallocLoop : Nat → World L → Except Halt (Nat × World L)
  | 0, _ => .error (.stop .hang)
  | k + 1, w =>
    if w.mem.freelist ≠ 0 then do
      let (r, m) ← lift (popFree w.mem)
      return (r, { w with mem := m })
    else do
      let (ok, w) ← reclaim w
      if ok then kallocLoop k w else return (0, w)

def kalloc (w : World L) : Except Halt (Nat × World L) := do
  let (r, w) ← kallocLoop (NPAGES + 1) { w with io := w.io.acquire }
  return (r, { w with io := w.io.release })

/-! ## For `vm.c` -/

/-- `kalloc` on memory alone. With a victim `reclaim` has to wait for the disk, and `sched` panics. -/
def kallocMem (s : Mem L) : Except Stop (Nat × Mem L) :=
  if s.freelist ≠ 0 then popFree s
  else do
    let (victim, s) ← pick s
    match victim with
    | none => return (0, s)
    | some _ => .error .schedLocks

def hooks : Hooks (Swap L) where
  kalloc := kallocMem
  lru_insert := lru_insert
  lru_delete := lru_delete

end Xv6.Vm.Locked
