import Xv6.Fs.Model
import Xv6.Lib.Assoc

/-!
# The inode cache (`fs.c`)

One action of the machine is one section of the code under `icache.lock`, one change of a sleep lock, or what a process
does to an inode whose sleep lock it holds. `disk` is what `bread` returns for the block of an inode: a process has the
buffer while it copies the inode, so copying is one action.
-/

namespace Xv6.Icache

open Xv6.Lib Function
open Xv6.Fs (Dinode)

/-- An inode on disk: `dev` and `inum`. -/
abbrev Key : Type := Nat × Nat

/-- `struct inode`; the sleep lock is the pid of its holder. -/
structure Inode where
  dev : Nat
  inum : Nat
  ref : Nat
  lock : Option Nat
  valid : Bool
  d : Dinode
  /-- The inode from which `d` was copied. The code has no such field; it says what `d` is about. -/
  owner : Key

def Inode.key (ip : Inode) : Key := (ip.dev, ip.inum)

abbrev Slot : Type := Fin NINODE

/-- How far a process has come with one of its references. -/
inductive Stage where
  | idle
  /-- In `ilock`, with the sleep lock. -/
  | locked
  /-- In `ilock`, with a copy from disk. -/
  | copied
  | held
  /-- The holder has changed the copy, and it has not called `iupdate` since. -/
  | changed
  /-- In `iput`, with the sleep lock. -/
  | putting
  /-- `iput` has seen that this is the last reference to an inode without links. -/
  | last
  /-- After `itrunc`. -/
  | truncated
  /-- After `ip->type = 0`. -/
  | cleared
  /-- After `iupdate`. -/
  | freed
  /-- In `iput`, before `releasesleep`. -/
  | finished
  /-- In `iput`, after `releasesleep`. -/
  | released
deriving DecidableEq

structure Ref where
  pid : Nat
  slot : Slot
  stage : Stage

inductive Panic where
  | iget
  | ilock
  | noType
  | iunlock
deriving DecidableEq

structure State where
  inode : Slot → Inode
  disk : Key → Dinode
  /-- The references that `iget` and `idup` have returned and that `iput` has not dropped. -/
  refs : List (Nat × Ref)
  panicked : Option Panic

/-! ## `iget` -/

inductive Found where
  | cached (i : Slot)
  | empty (i : Slot)
  | full

/-- The loop of `iget`, with the empty slot that it remembers. -/
def search (inode : Slot → Inode) (dev inum : Nat) : Option Slot → List Slot → Found
  | none, [] => .full
  | some i, [] => .empty i
  | empty, i :: l =>
    if 0 < (inode i).ref ∧ (inode i).dev = dev ∧ (inode i).inum = inum then .cached i
    else search inode dev inum (if empty = none ∧ (inode i).ref = 0 then some i else empty) l

def iget (inode : Slot → Inode) (dev inum : Nat) : Option (Slot × (Slot → Inode)) :=
  match search inode dev inum none (List.finRange NINODE) with
  | .cached i => some (i, update inode i { inode i with ref := (inode i).ref + 1 })
  | .empty i => some (i, update inode i { inode i with dev, inum, ref := 1, valid := false })
  | .full => none

def idup (inode : Slot → Inode) (i : Slot) : Slot → Inode :=
  update inode i { inode i with ref := (inode i).ref + 1 }

def decref (inode : Slot → Inode) (i : Slot) : Slot → Inode :=
  update inode i { inode i with ref := (inode i).ref - 1 }

/-! ## The machine -/

namespace State

def boot (disk : Key → Dinode) : State where
  inode _ := ⟨0, 0, 0, none, false, Dinode.zero, (0, 0)⟩
  disk := disk
  refs := []
  panicked := none

def setInode (s : State) (i : Slot) (ip : Inode) : State := { s with inode := update s.inode i ip }

def setStage (s : State) (c : Nat) (r : Ref) (st : Stage) : State :=
  { s with refs := Assoc.put s.refs c { r with stage := st } }

def panic (s : State) (p : Panic) : State := { s with panicked := some p }

end State

def truncate (d : Dinode) : Dinode := { d with size := 0, addrs := fun _ => 0 }

def ilock (s : State) (c : Nat) (r : Ref) : Option State :=
  let ip := s.inode r.slot
  if r.stage = .idle then
    if ip.ref < 1 then some (s.panic .ilock)
    else if ip.lock = none then some ((s.setInode r.slot { ip with lock := some r.pid }).setStage c r .locked)
    else none
  else none

def copy (s : State) (c : Nat) (r : Ref) : Option State :=
  let ip := s.inode r.slot
  if r.stage = .locked then
    if ip.valid = false then
      some ((s.setInode r.slot { ip with d := s.disk ip.key, owner := ip.key }).setStage c r .copied)
    else some (s.setStage c r .held)
  else none

def setValid (s : State) (c : Nat) (r : Ref) : Option State :=
  let ip := s.inode r.slot
  if r.stage = .copied then
    let s := s.setInode r.slot { ip with valid := true }
    if ip.d.type = 0 then some (s.panic .noType) else some (s.setStage c r .held)
  else none

/-- The holder of the lock changes the copy; only `iput` clears the type. -/
def change (s : State) (c : Nat) (r : Ref) (d : Dinode) : Option State :=
  if (r.stage = .held ∨ r.stage = .changed) ∧ d.type ≠ 0 then
    some ((s.setInode r.slot { s.inode r.slot with d := d }).setStage c r .changed)
  else none

def iupdate (s : State) (c : Nat) (r : Ref) : Option State :=
  let ip := s.inode r.slot
  let s := { s with disk := update s.disk ip.key ip.d }
  if r.stage = .held ∨ r.stage = .changed then some (s.setStage c r .held)
  else if r.stage = .cleared then some (s.setStage c r .freed)
  else none

/-- `iunlock(ip)`. The holder has called `iupdate` after its last change. -/
def iunlock (s : State) (c : Nat) (r : Ref) : Option State :=
  let ip := s.inode r.slot
  if r.stage = .held then
    if ip.lock ≠ some r.pid ∨ ip.ref < 1 then some (s.panic .iunlock)
    else some ((s.setInode r.slot { ip with lock := none }).setStage c r .idle)
  else none

def iput (s : State) (c : Nat) (r : Ref) : Option State :=
  let ip := s.inode r.slot
  if r.stage = .idle ∧ ip.lock = none then
    some ((s.setInode r.slot { ip with lock := some r.pid }).setStage c r .putting)
  else none

def check (s : State) (c : Nat) (r : Ref) : Option State :=
  let ip := s.inode r.slot
  if r.stage = .putting then
    if ip.valid ∧ ip.d.nlink = 0 ∧ ip.ref = 1 then some (s.setStage c r .last) else some (s.setStage c r .finished)
  else none

def itrunc (s : State) (c : Nat) (r : Ref) : Option State :=
  let ip := s.inode r.slot
  if r.stage = .last then
    let s := s.setInode r.slot { ip with d := truncate ip.d }
    some ({ s with disk := update s.disk ip.key (truncate ip.d) }.setStage c r .truncated)
  else none

def clearType (s : State) (c : Nat) (r : Ref) : Option State :=
  let ip := s.inode r.slot
  if r.stage = .truncated then
    some ((s.setInode r.slot { ip with d := { ip.d with type := 0 } }).setStage c r .cleared)
  else none

def clearValid (s : State) (c : Nat) (r : Ref) : Option State :=
  if r.stage = .freed then
    some ((s.setInode r.slot { s.inode r.slot with valid := false }).setStage c r .finished)
  else none

def releasesleep (s : State) (c : Nat) (r : Ref) : Option State :=
  if r.stage = .finished then
    some ((s.setInode r.slot { s.inode r.slot with lock := none }).setStage c r .released)
  else none

def drop (s : State) (c : Nat) (r : Ref) : Option State :=
  if r.stage = .released then some { s with inode := decref s.inode r.slot, refs := Assoc.del s.refs c } else none

inductive Act where
  | iget (c pid dev inum : Nat)
  | idup (c n pid : Nat)
  | ilock (c : Nat)
  | copy (c : Nat)
  | setValid (c : Nat)
  | change (c : Nat) (d : Dinode)
  | iupdate (c : Nat)
  | iunlock (c : Nat)
  | iput (c : Nat)
  | check (c : Nat)
  | itrunc (c : Nat)
  | clearType (c : Nat)
  | clearValid (c : Nat)
  | releasesleep (c : Nat)
  | drop (c : Nat)
  /-- `ialloc` gives a free inode a type. -/
  | ialloc (dev inum : Nat) (type : BitVec 16)

def State.newRef (s : State) (c pid : Nat) (i : Slot) (inode : Slot → Inode) : State :=
  { s with inode := inode, refs := (c, ⟨pid, i, .idle⟩) :: s.refs }

def step (s : State) (a : Act) : Option State :=
  if s.panicked = none then
    match a with
    | .iget c pid dev inum =>
      if s.refs.lookup c = none then
        match iget s.inode dev inum with
        | some (i, inode) => some (s.newRef c pid i inode)
        | none => some (s.panic .iget)
      else none
    | .idup c n pid =>
      if s.refs.lookup n = none then
        (s.refs.lookup c).bind fun r =>
          if r.stage = .idle ∨ r.stage = .held then some (s.newRef n pid r.slot (idup s.inode r.slot)) else none
      else none
    | .ilock c => (s.refs.lookup c).bind (ilock s c)
    | .copy c => (s.refs.lookup c).bind (copy s c)
    | .setValid c => (s.refs.lookup c).bind (setValid s c)
    | .change c d => (s.refs.lookup c).bind (change s c · d)
    | .iupdate c => (s.refs.lookup c).bind (iupdate s c)
    | .iunlock c => (s.refs.lookup c).bind (iunlock s c)
    | .iput c => (s.refs.lookup c).bind (iput s c)
    | .check c => (s.refs.lookup c).bind (check s c)
    | .itrunc c => (s.refs.lookup c).bind (itrunc s c)
    | .clearType c => (s.refs.lookup c).bind (clearType s c)
    | .clearValid c => (s.refs.lookup c).bind (clearValid s c)
    | .releasesleep c => (s.refs.lookup c).bind (releasesleep s c)
    | .drop c => (s.refs.lookup c).bind (drop s c)
    | .ialloc dev inum type =>
      if (s.disk (dev, inum)).type = 0 ∧ type ≠ 0 then
        some { s with disk := update s.disk (dev, inum) { Dinode.zero with type } }
      else none
  else none

end Xv6.Icache
