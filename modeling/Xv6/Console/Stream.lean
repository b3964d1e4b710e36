import Xv6.Console.Model

/-!
# The edited stream

What a keyboard user means: an unbounded text of the lines entered so far and a line that is being edited. A key that
edits works on the line; a line is entered by a newline, by `C('D')`, or when `INPUT_BUF` bytes wait to be read, and no
further byte is accepted as long as so many wait.
-/

namespace Xv6.Console

structure Edited where
  /-- All that has been entered, with the `C('D')` in it. -/
  text : List (BitVec 8)
  line : List (BitVec 8)
  taken : Nat

namespace Edited

def full (a : Edited) : Prop := a.taken + INPUT_BUF ≤ a.text.length + a.line.length

instance (a : Edited) : Decidable a.full := inferInstanceAs (Decidable (_ ≤ _))

def type (a : Edited) (c : BitVec 8) : Edited := { a with line := a.line ++ [c] }

def enter (a : Edited) : Edited := { a with text := a.text ++ a.line, line := [] }

def accept (a : Edited) (c : BitVec 8) : Edited :=
  if c = NEWLINE ∨ c = C 'D' ∨ (a.type c).full then (a.type c).enter else a.type c

def key (a : Edited) (c : BitVec 8) : Edited :=
  if c = C 'P' then a
  else if c = C 'U' then { a with line := [] }
  else if c = C 'H' ∨ c = DEL then { a with line := a.line.dropLast }
  else if c = 0 ∨ a.full then a
  else a.accept (if c = RETURN then NEWLINE else c)

def event (a : Edited) : Ev → Edited
  | .key c => a.key c
  | .take => { a with taken := a.taken + 1 }

end Edited

def edited (es : List Ev) : Edited := es.foldl Edited.event ⟨[], [], 0⟩

def State.stream (s : State) : Edited := edited s.events

def Edits (c : BitVec 8) : Prop := c = C 'P' ∨ c = C 'U' ∨ c = C 'H' ∨ c = DEL

def Ret.isEof (x : Ret) : Bool := 0 < x.target ∧ x.got = []

/-- How a read ends: at its length, after the first newline, or at the first `C('D')`. The read leaves the `C('D')` in
the text if it has data, and otherwise takes it and returns 0. -/
structure Ended (text : List (BitVec 8)) (x : Ret) : Prop where
  le : x.got.length ≤ x.target
  newline : ∀ c ∈ x.got.dropLast, c ≠ NEWLINE
  eof : ∀ c ∈ x.got, c ≠ C 'D'
  stop : x.got.length = x.target ∨ x.got.getLast? = some NEWLINE ∨ (x.got ≠ [] ∧ text[x.pos]? = some (C 'D')) ∨
    x.got = [] ∧ 0 < x.pos ∧ text[x.pos - 1]? = some (C 'D')

end Xv6.Console
