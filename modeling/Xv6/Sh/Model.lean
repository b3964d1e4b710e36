import Xv6.File.Model

/-!
# The shell's parser (`sh.c`)

The input is a buffer, and a `char *` is an offset in it. Behind the buffer there is a NUL. `malloc` does not fail.
-/

namespace Xv6.Sh

open Xv6.Ftable (O_RDONLY O_WRONLY O_CREATE)

abbrev Str := List (BitVec 8)

def ch (c : Char) : BitVec 8 := .ofNat 8 c.toNat

def str (s : String) : Str := s.toList.map ch

def MAXARGS : Nat := 10

/-! ## Commands -/

inductive Cmd where
  /-- `argv[i]` and `eargv[i]`. -/
  | exec (args : List (Nat × Nat))
  | redir (cmd : Cmd) (file efile : Nat) (mode : BitVec 32) (fd : Nat)
  | pipe (left right : Cmd)
  | list (left right : Cmd)
  | back (cmd : Cmd)
deriving DecidableEq

/-- One more argument for the `struct execcmd` inside the redirections. -/
def Cmd.addArg (w : Nat × Nat) : Cmd → Cmd
  | .exec args => .exec (args ++ [w])
  | .redir cmd file efile mode fd => .redir (cmd.addArg w) file efile mode fd
  | cmd => cmd

inductive Panic where
  | syntaxError
  /-- With the leftovers, from this offset on. -/
  | leftovers (s : Nat)
  | missingFile
  | parseblock
  | missingParen
  | tooManyArgs
deriving DecidableEq

inductive Stop where
  | panic (p : Panic)
  | fuel
deriving DecidableEq

/-! ## Tokens -/

def whitespace : Str := [32, 9, 13, 10, 11]

def symbols : Str := str "<|>&;()"

variable (buf : Str)

def skip (f : BitVec 8 → Bool) (s es : Nat) : Nat := s + (((buf.take es).drop s).takeWhile f).length

def skipWs (s es : Nat) : Nat := skip buf (· ∈ whitespace) s es

/-- What `gettoken` returns and stores in `q`, `eq` and `ps`. -/
structure Token where
  ret : BitVec 8
  q : Nat
  eq : Nat
  s : Nat

def gettoken (s es : Nat) : Token :=
  let q := skipWs buf s es
  let c := buf.getD q 0
  let (ret, eq) :=
    if c = 0 then (c, q)
    else if c ∈ str "|();&<" then (c, q + 1)
    else if c = ch '>' then if buf.getD (q + 1) 0 = ch '>' then (ch '+', q + 2) else (c, q + 1)
    else (ch 'a', skip buf (fun c => c ∉ whitespace ∧ c ∉ symbols) q es)
  ⟨ret, q, eq, skipWs buf eq es⟩

def peek (s es : Nat) (toks : Str) : Bool × Nat :=
  let s := skipWs buf s es
  (buf.getD s 0 ≠ 0 ∧ buf.getD s 0 ∈ toks, s)

/-! ## Parsing -/

def redircmd (tok : BitVec 8) (cmd : Cmd) (q eq : Nat) : Cmd :=
  if tok = ch '<' then .redir cmd q eq O_RDONLY 0
  else if tok = ch '>' then .redir cmd q eq (O_WRONLY ||| O_CREATE) 1
  else if tok = ch '+' then .redir cmd q eq (O_WRONLY ||| O_CREATE) 1
  else cmd

def parseredirs (es : Nat) : Nat → Cmd → Nat → Except Stop (Cmd × Nat)
  | 0, _, _ => .error .fuel
  | k + 1, cmd, s =>
    let (b, s) := peek buf s es (str "<>")
    if b then
      let tok := gettoken buf s es
      let file := gettoken buf tok.s es
      if file.ret ≠ ch 'a' then .error (.panic .missingFile)
      else parseredirs es k (redircmd tok.ret cmd file.q file.eq) file.s
    else .ok (cmd, s)

def parseargs (es : Nat) : Nat → Nat → Cmd → Nat → Except Stop (Cmd × Nat)
  | 0, _, _, _ => .error .fuel
  | k + 1, argc, ret, s =>
    let (b, s) := peek buf s es (str "|)&;")
    if b then .ok (ret, s)
    else
      let tok := gettoken buf s es
      if tok.ret = 0 then .ok (ret, tok.s)
      else if tok.ret ≠ ch 'a' then .error (.panic .syntaxError)
      else
        let ret := ret.addArg (tok.q, tok.eq)
        if argc + 1 ≥ MAXARGS then .error (.panic .tooManyArgs)
        else do
          let (ret, s) ← parseredirs buf es (es + 1) ret tok.s
          parseargs es k (argc + 1) ret s

def parseback (es : Nat) : Nat → Cmd → Nat → Except Stop (Cmd × Nat)
  | 0, _, _ => .error .fuel
  | k + 1, cmd, s =>
    let (b, s) := peek buf s es (str "&")
    if b then parseback es k (.back cmd) (gettoken buf s es).s else .ok (cmd, s)

mutual

def parseline (es : Nat) : Nat → Nat → Except Stop (Cmd × Nat)
  | 0, _ => .error .fuel
  | k + 1, s => do
    let (cmd, s) ← parsepipe es k s
    let (cmd, s) ← parseback buf es (es + 1) cmd s
    let (b, s) := peek buf s es (str ";")
    if b then
      let (right, s) ← parseline es k (gettoken buf s es).s
      return (.list cmd right, s)
    else return (cmd, s)

def parsepipe (es : Nat) : Nat → Nat → Except Stop (Cmd × Nat)
  | 0, _ => .error .fuel
  | k + 1, s => do
    let (cmd, s) ← parseexec es k s
    let (b, s) := peek buf s es (str "|")
    if b then
      let (right, s) ← parsepipe es k (gettoken buf s es).s
      return (.pipe cmd right, s)
    else return (cmd, s)

def parseblock (es : Nat) : Nat → Nat → Except Stop (Cmd × Nat)
  | 0, _ => .error .fuel
  | k + 1, s => do
    let (b, s) := peek buf s es (str "(")
    if !b then throw (.panic .parseblock)
    let (cmd, s) ← parseline es k (gettoken buf s es).s
    let (b, s) := peek buf s es (str ")")
    if !b then throw (.panic .missingParen)
    parseredirs buf es (es + 1) cmd (gettoken buf s es).s

def parseexec (es : Nat) : Nat → Nat → Except Stop (Cmd × Nat)
  | 0, _ => .error .fuel
  | k + 1, s => do
    let (b, s) := peek buf s es (str "(")
    if b then parseblock es k s
    else
      let (ret, s) ← parseredirs buf es (es + 1) (.exec []) s
      parseargs buf es (es + 1) 0 ret s

end

/-- `nulterminate`: what it makes of the buffer. -/
def nulterminate : Cmd → Str → Str
  | .exec args, buf => args.foldl (fun buf w => buf.set w.2 0) buf
  | .redir cmd _ efile _ _, buf => (nulterminate cmd buf).set efile 0
  | .pipe left right, buf => nulterminate right (nulterminate left buf)
  | .list left right, buf => nulterminate right (nulterminate left buf)
  | .back cmd, buf => nulterminate cmd buf

def strlen : Nat := (buf.takeWhile (· ≠ 0)).length

def parsecmd : Except Stop (Cmd × Str) := do
  let es := strlen buf
  let (cmd, s) ← parseline buf es (4 * es + 4) 0
  let (_, s) := peek buf s es []
  if s ≠ es then throw (.panic (.leftovers s))
  return (cmd, nulterminate cmd buf)

end Xv6.Sh
