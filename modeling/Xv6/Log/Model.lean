import Xv6.Lib.Assoc
import Xv6.Superblock

/-!
# The write-ahead log (`log.c`)

The log runs on one device, `log.dev`. Its buffer cache is modelled per block number: a block is cached or not, and
a cached buffer is clean or pinned by `B_DIRTY`. A clean buffer that nobody uses may be recycled at any moment,
which is all that `bget` can do to it.

One action of the machine is one section of the code under `log.lock`, or one loop iteration of `commit()` with its
single `bwrite`. The disk changes in `bwrite` only, one block at a time, so a crash after any prefix of the block
writes is a crash in some state of the machine.
-/

namespace Xv6.Log

open Xv6.Lib Function

/-! ## Buffers -/

structure Buf where
  data : Block
  dirty : Bool

structure Cache where
  disk : Nat → Block
  buf : Nat → Option Buf

namespace Cache

def view (c : Cache) (b : Nat) : Block := ((c.buf b).map Buf.data).getD (c.disk b)

def bread (c : Cache) (b : Nat) : Cache :=
  match c.buf b with
  | some _ => c
  | none => { c with buf := update c.buf b (some ⟨c.disk b, false⟩) }

def modify (c : Cache) (b : Nat) (v : Block) : Cache :=
  { c with buf := update c.buf b ((c.buf b).map fun x => { x with data := v }) }

def setDirty (c : Cache) (b : Nat) : Cache :=
  { c with buf := update c.buf b ((c.buf b).map fun x => { x with dirty := true }) }

def bwrite (c : Cache) (b : Nat) : Cache :=
  { disk := update c.disk b (c.view b)
    buf := update c.buf b ((c.buf b).map fun x => { x with dirty := false }) }

def evict (c : Cache) (b : Nat) : Cache := { c with buf := update c.buf b none }

end Cache

/-! ## The log header -/

/-- The block with `struct logheader` stored over it: `n`, then `block[0..n)`. -/
def encodeBlocks (blk : Block) (i : Nat) : List Nat → Block
  | [] => blk
  | b :: bs => encodeBlocks (blk.setWord (4 + 4 * i) (BitVec.ofNat 32 b)) (i + 1) bs

@[irreducible] def encodeHead (blk : Block) (lh : List Nat) : Block :=
  encodeBlocks (blk.setWord 0 (BitVec.ofNat 32 lh.length)) 0 lh

/-- `lh->n` is a signed `int`; a negative one ends every loop at once. -/
@[irreducible] def decodeHead (blk : Block) : List Nat :=
  (List.range (blk.word 0).toInt.toNat).map fun i => (blk.word (4 + 4 * i)).toNat

/-! ## The superblock -/

def nlog (disk : Nat → Block) : Nat := (readsb (disk 1)).nlog

def logstart (disk : Nat → Block) : Nat := (readsb (disk 1)).logstart

/-! ## The pieces of `commit` and of `recover_from_log` -/

/-- One iteration of `write_log`: copy block `lh.block[tail]` from cache to log. -/
def writeLog1 (c : Cache) (start : Nat) (lh : List Nat) (tail : Nat) : Cache :=
  let c := (c.bread (start + tail + 1)).bread (lh.getD tail 0)
  (c.modify (start + tail + 1) (c.view (lh.getD tail 0))).bwrite (start + tail + 1)

/-- One iteration of `install_trans`: copy block `tail` of the log to its home. -/
def installTrans1 (c : Cache) (start : Nat) (lh : List Nat) (tail : Nat) : Cache :=
  let c := (c.bread (start + tail + 1)).bread (lh.getD tail 0)
  (c.modify (lh.getD tail 0) (c.view (start + tail + 1))).bwrite (lh.getD tail 0)

def readHead (c : Cache) (start : Nat) : List Nat := decodeHead (c.view start)

def writeHead (c : Cache) (start : Nat) (lh : List Nat) : Cache :=
  let c := c.bread start
  (c.modify start (encodeHead (c.view start) lh)).bwrite start

/-! ## The machine -/

structure Op where
  /-- Buffers it has modified and not yet passed to `log_write`. -/
  pend : List Nat
  /-- The buffer of a `log_write` call that has passed its tests and not yet taken `log.lock`. -/
  tested : Option Nat
  /-- The distinct block numbers it has passed to `log_write`. -/
  wrote : List Nat

inductive CommitPc where
  | writeLog (tail : Nat)
  | writeHead
  | install (tail : Nat)
  | clearHead
  | returned
deriving DecidableEq

inductive Panic where
  | tooBig
  | outsideTrans
  | committing
deriving DecidableEq

/-- A transaction: the buffer modifications of all operations between two commits, in order. -/
abbrev Txn : Type := List (Nat × Block)

structure State where
  cache : Cache
  start : Nat
  size : Nat
  outstanding : Nat
  committing : Bool
  lh : List Nat
  ops : List (Nat × Op)
  pc : Option CommitPc
  panicked : Option Panic
  /-- The modifications since the last commit began. -/
  cur : Txn
  /-- The transactions handed to `commit()`, and how many of these calls have returned. -/
  txns : List Txn
  returned : Nat

namespace State

/-- The log after `initlog` on a disk whose log is empty. -/
def boot (disk : Nat → Block) : State where
  cache := ⟨disk, fun _ => none⟩
  start := logstart disk
  size := nlog disk
  outstanding := 0
  committing := false
  lh := []
  ops := []
  pc := none
  panicked := none
  cur := []
  txns := []
  returned := 0

def inUse (s : State) (b : Nat) : Bool := s.ops.any fun o => b ∈ o.2.pend || o.2.tested == some b

def op (s : State) (p : Nat) : Option Op := s.ops.lookup p

def setOp (s : State) (p : Nat) (o : Op) : State :=
  { s with ops := Assoc.put s.ops p o }

end State

inductive Act where
  | beginOp (p : Nat)
  | modify (p b : Nat) (v : Block)
  | logTest (p b : Nat)
  | logAppend (p : Nat)
  | endOp (p : Nat)
  | commit
  | bread (b : Nat)
  | evict (b : Nat)

/-- `begin_op`, the pass of its loop that admits the operation; a pass that sleeps changes nothing. -/
def beginOp (s : State) (p : Nat) : Option State :=
  if s.op p = none then
    if s.committing then none
    else if s.lh.length + (s.outstanding + 1) * MAXOPBLOCKS > LOGSIZE then none
    else some { s with outstanding := s.outstanding + 1, ops := (p, ⟨[], none, []⟩) :: s.ops }
  else none

def modifyBuf (s : State) (p b : Nat) (v : Block) : Option State :=
  match s.op p with
  | some o =>
    if o.tested = none then
      some { s.setOp p { o with pend := b :: o.pend } with
        cache := (s.cache.bread b).modify b v, cur := s.cur ++ [(b, v)] }
    else none
  | none => none

/-- The two tests of `log_write(b)`, made before it takes `log.lock`. -/
def logTest (s : State) (p b : Nat) : Option State :=
  match s.op p with
  | some o =>
    if o.tested = none then
      if s.lh.length ≥ LOGSIZE ∨ s.lh.length ≥ s.size - 1 then some { s with panicked := some .tooBig }
      else if s.outstanding < 1 then some { s with panicked := some .outsideTrans }
      else some { s.setOp p { o with tested := some b } with cache := s.cache.bread b }
    else none
  | none => none

def absorb (lh : List Nat) (b : Nat) : List Nat := if b ∈ lh then lh else lh ++ [b]

def logAppend (s : State) (p : Nat) : Option State :=
  match s.op p with
  | some o =>
    match o.tested with
    | some b =>
      some { s.setOp p { pend := o.pend.filter (· ≠ b), tested := none, wrote := absorb o.wrote b } with
        cache := s.cache.setDirty b, lh := absorb s.lh b }
    | none => none
  | none => none

/-- The first section of `end_op` under `log.lock`. The caller has logged every buffer it modified. -/
def endOp (s : State) (p : Nat) : Option State :=
  match s.op p with
  | some o =>
    if o.pend = [] ∧ o.tested = none then
      let s := { s with outstanding := s.outstanding - 1, ops := Assoc.del s.ops p }
      if s.committing then some { s with panicked := some .committing }
      else if s.outstanding = 0 then
        let s := { s with committing := true, txns := s.txns ++ [s.cur], cur := [] }
        -- `commit()` does nothing for an empty transaction.
        if s.lh.length > 0 then some { s with pc := some (.writeLog 0) }
        else some { s with pc := some .returned, returned := s.returned + 1 }
      else some s
    else none
  | none => none

/-- One step of the process that is in `commit()`, up to its last section under `log.lock`. -/
def commit (s : State) : Option State :=
  match s.pc with
  | some (.writeLog tail) =>
    if tail < s.lh.length then
      some { s with cache := writeLog1 s.cache s.start s.lh tail, pc := some (.writeLog (tail + 1)) }
    else some { s with pc := some .writeHead }
  | some .writeHead => some { s with cache := writeHead s.cache s.start s.lh, pc := some (.install 0) }
  | some (.install tail) =>
    if tail < s.lh.length then
      some { s with cache := installTrans1 s.cache s.start s.lh tail, pc := some (.install (tail + 1)) }
    else some { s with lh := [], pc := some .clearHead }
  | some .clearHead =>
    some { s with cache := writeHead s.cache s.start s.lh, pc := some .returned, returned := s.returned + 1 }
  | some .returned => some { s with committing := false, pc := none }
  | none => none

def evictBuf (s : State) (b : Nat) : Option State :=
  match s.cache.buf b with
  | some x => if x.dirty = false ∧ s.inUse b = false then some { s with cache := s.cache.evict b } else none
  | none => none

def step (s : State) (a : Act) : Option State :=
  if s.panicked = none then
    match a with
    | .beginOp p => beginOp s p
    | .modify p b v => modifyBuf s p b v
    | .logTest p b => logTest s p b
    | .logAppend p => logAppend s p
    | .endOp p => endOp s p
    | .commit => commit s
    | .bread b => some { s with cache := s.cache.bread b }
    | .evict b => evictBuf s b
  else none

/-! ## Recovery -/

inductive RecoverPc where
  | readsb
  | readHead
  | install (tail : Nat)
  | clearHead
  | returned
deriving DecidableEq

structure Recovery where
  cache : Cache
  start : Nat
  lh : List Nat
  pc : RecoverPc

def Recovery.boot (disk : Nat → Block) : Recovery := ⟨⟨disk, fun _ => none⟩, 0, [], .readsb⟩

def recoverStep (r : Recovery) : Recovery :=
  match r.pc with
  | .readsb => { r with cache := r.cache.bread 1, start := logstart r.cache.view, pc := .readHead }
  | .readHead => { r with cache := r.cache.bread r.start, lh := readHead r.cache r.start, pc := .install 0 }
  | .install tail =>
    if tail < r.lh.length then
      { r with cache := installTrans1 r.cache r.start r.lh tail, pc := .install (tail + 1) }
    else { r with lh := [], pc := .clearHead }
  | .clearHead => { r with cache := writeHead r.cache r.start r.lh, pc := .returned }
  | .returned => r

def recover (disk : Nat → Block) (k : Nat) : Recovery := recoverStep^[k] (.boot disk)

/-- The disks that restarting on `disk` can leave: recovery may crash after any step and start again, any number
of times, and in the end returns. -/
inductive Recovers : (Nat → Block) → (Nat → Block) → Prop where
  | returns {disk : Nat → Block} {k : Nat} : (recover disk k).pc = .returned →
      Recovers disk (recover disk k).cache.disk
  | crashes {disk disk' : Nat → Block} {k : Nat} : Recovers (recover disk k).cache.disk disk' →
      Recovers disk disk'

end Xv6.Log
