import Xv6.File.Model
import Xv6.Fs.Mkfs

/-!
# Names and directory entries (`fs.c`, `string.c`)
-/

namespace Xv6.Dir

def DIRSIZ : Nat := 14

def ROOTINO : Nat := 1

/-- A string in memory. What lies beyond it is NUL. -/
abbrev Str := List (BitVec 8)

def slash : BitVec 8 := 47#8

def dot : Str := [46#8]

def dotdot : Str := [46#8, 46#8]

/-! ## Names -/

def strncmp : Nat → Str → Str → Int
  | 0, _, _ => 0
  | n + 1, p, q =>
    if p.headD 0 ≠ 0 ∧ p.headD 0 = q.headD 0 then strncmp n p.tail q.tail
    else (p.headD 0).toNat - (q.headD 0).toNat

def strncpy : Nat → Str → Str
  | 0, _ => []
  | n + 1, t => if t.headD 0 = 0 then List.replicate (n + 1) 0 else t.headD 0 :: strncpy n t.tail

def namecmp (s t : Str) : Int := strncmp DIRSIZ s t

/-- `skipelem`: the next element of the path, and the path that follows it. -/
def skipelem (path : Str) : Option (Str × Str) :=
  let s := path.dropWhile (· = slash)
  if s.headD 0 = 0 then none
  else
    let elem := s.takeWhile fun c => c ≠ slash ∧ c ≠ 0
    let rest := (s.drop elem.length).dropWhile (· = slash)
    some (if elem.length ≥ DIRSIZ then elem.take DIRSIZ else elem, rest)

/-! ## Entries -/

structure Dirent where
  inum : BitVec 16
  name : Str
deriving DecidableEq

def Dirent.bytes (de : Dirent) : Str := de.inum.extractLsb' 0 8 :: de.inum.extractLsb' 8 8 :: de.name

def Dirent.ofBytes (b : Str) : Dirent := ⟨b.getD 1 0 ++ b.getD 0 0, b.drop 2⟩

end Xv6.Dir
