import Xv6.Lib.Bytes

/-!
# `grep.c`

Strings are lists of bytes without the nul at their end, except in the buffer, which is modelled as it is: `strchr` and
`match` see what stands there up to the next nul. The input is the list of what successive calls of `read` return.
-/

namespace Xv6.Grep

open Xv6.Lib

abbrev Byte : Type := BitVec 8

def newline : Byte := 0x0A

/-! ## The matcher -/

def caret : Byte := 0x5E

def dot : Byte := 0x2E

def star : Byte := 0x2A

def dollar : Byte := 0x24

/-- matchstar: search for c*re at beginning of text; `re` is given by what it matches. -/
def matchstar (c : Byte) (re : List Byte → Bool) : List Byte → Bool
  | [] => re []
  | t :: text => re (t :: text) || ((t = c || c = dot) && matchstar c re text)

def matchone (c : Byte) (re : List Byte → Bool) : List Byte → Bool
  | [] => false
  | t :: text => (c = dot || c = t) && re text

def matchhere : List Byte → List Byte → Bool
  | [], _ => true
  | [c], text => if c = dollar then text.isEmpty else matchone c (fun _ => true) text
  | c :: c' :: re, text =>
    if c' = star then matchstar c (matchhere re) text else matchone c (matchhere (c' :: re)) text

def matchLoop (re : List Byte) : List Byte → Bool
  | [] => matchhere re []
  | t :: text => matchhere re (t :: text) || matchLoop re text

def matchText (re text : List Byte) : Bool :=
  match re with
  | [] => matchLoop [] text
  | c :: re => if c = caret then matchhere re text else matchLoop (c :: re) text

/-! ## The buffer -/

def BUFSIZE : Nat := 1024

abbrev Buf : Type := Bytes BUFSIZE

/-- `strchr`, from position `s` on; `k` bounds the passes of its loop. -/
def strchr (buf : Buf) (c : Byte) : Nat → Nat → Option Nat
  | 0, _ => none
  | k + 1, s => if buf.get s = 0#8 then none else if buf.get s = c then some s else strchr buf c k (s + 1)

def cstr (buf : Buf) : Nat → Nat → List Byte
  | 0, _ => []
  | k + 1, s => if buf.get s = 0#8 then [] else buf.get s :: cstr buf k (s + 1)

def slice (buf : Buf) (s n : Nat) : List Byte := (List.range n).map fun i => buf.get (s + i)

structure State where
  buf : Buf
  m : Nat
  /-- What has been written to file descriptor 1. -/
  out : List Byte

/-- The loop over the lines in the buffer, from `p` on; `k` bounds its passes. -/
def lineLoop (pattern : List Byte) : Nat → Buf → Nat → List Byte → Buf × Nat × List Byte
  | 0, buf, p, out => (buf, p, out)
  | k + 1, buf, p, out =>
    match strchr buf newline BUFSIZE p with
    | none => (buf, p, out)
    | some q =>
      let buf := buf.set q 0#8
      if matchText pattern (cstr buf BUFSIZE p) then
        let buf := buf.set q newline
        lineLoop pattern k buf (q + 1) (out ++ slice buf p (q + 1 - p))
      else lineLoop pattern k buf (q + 1) out

def memmove (buf : Buf) (p m : Nat) : Buf := buf.write 0 m fun i => buf.get (p + i)

/-- One pass of `grep`, for a `read` that returns `chunk`. -/
def step (pattern : List Byte) (s : State) (chunk : List Byte) : State :=
  let m := s.m + chunk.length
  let buf := (s.buf.write s.m chunk.length fun i => chunk.getD i 0#8).set m 0#8
  let (buf, p, out) := lineLoop pattern BUFSIZE buf 0 s.out
  let m := if p = 0 then 0 else m
  if m > 0 then ⟨memmove buf p (m - p), m - p, out⟩ else ⟨buf, m, out⟩

def run (pattern : List Byte) (buf : Buf) (chunks : List (List Byte)) : State :=
  chunks.foldl (step pattern) ⟨buf, 0, []⟩

/-- The output of `grep`, whatever an earlier file has left in the buffer. -/
def grep (pattern : List Byte) (buf : Buf) (chunks : List (List Byte)) : List Byte := (run pattern buf chunks).out

/-- `read(fd, buf+m, sizeof(buf)-m-1)` returns at least one byte and at most what it is asked for. -/
def Reads (pattern : List Byte) (buf : Buf) (chunks : List (List Byte)) : Prop :=
  ∀ before chunk after, chunks = before ++ chunk :: after →
    chunk ≠ [] ∧ chunk.length ≤ BUFSIZE - (run pattern buf before).m - 1

end Xv6.Grep
