import Xv6.Dir.Model

/-!
# Looking up a name in the blocks of a directory (`fs.c`)

On a block that is not allocated `bmap` allocates one, also while reading.
-/

namespace Xv6.Fs

open Xv6.Dir (Dirent Str namecmp)

inductive DirPanic where
  | inode (p : Panic)
  | notDir
  | read
  | dirlinkRead
  | dirlink
  | isdirempty
  | nlink
  | unlinkWrite
  | dots
  | create
deriving DecidableEq

variable {L : Type} (lw : LogWrite L)

/-- The loop of `dirlookup` from `off` on, in at most `k` passes: the offset of the entry and the inode. -/
def dirlookupLoop (dp : Fin NINODE) (name : Str) : Nat → State L → BitVec 32 →
    Except DirPanic (Option (BitVec 32 × Fin NINODE) × State L)
  | 0, s, _ => .ok (none, s)
  | k + 1, s, off =>
    if off < (s.inode dp).d.size then do
      let (r, bytes, s) ← (readi lw s dp off 16).mapError .inode
      if r ≠ 16 then .error .read
      else
        let de := Dirent.ofBytes bytes
        if de.inum = 0 then dirlookupLoop dp name k s (off + 16)
        else if namecmp name de.name = 0 then do
          let (ip, s) ← (iget s de.inum.toNat).mapError .inode
          return (some (off, ip), s)
        else dirlookupLoop dp name k s (off + 16)
    else .ok (none, s)

def dirlookup (s : State L) (dp : Fin NINODE) (name : Str) :
    Except DirPanic (Option (BitVec 32 × Fin NINODE) × State L) :=
  if (s.inode dp).d.type ≠ T_DIR then .error .notDir
  else dirlookupLoop lw dp name ((s.inode dp).d.size.toNat + 1) s 0

/-- The first thing that `namex` does for a path from the root: `iget(ROOTDEV, ROOTINO)` and `ilock`. -/
def lockRoot (s : State L) : Except Panic (Fin NINODE × State L) := do
  let (ip, s) ← iget s Dir.ROOTINO
  let s ← ilock s ip
  return (ip, s)

end Xv6.Fs
