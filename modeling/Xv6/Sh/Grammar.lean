import Mathlib.Logic.Function.Iterate
import Xv6.Sh.Model

/-!
# The shell's grammar

    line  ::= pipe '&'* [';' line]
    pipe  ::= exec ['|' pipe]
    exec  ::= '(' line ')' redir* | redir* (word redir*)*
    redir ::= ('<' | '>' | '>>') word

A derivation is of a sequence of tokens, and determines a command.
-/

namespace Xv6.Sh

open Xv6.Ftable (O_RDONLY O_WRONLY O_CREATE)

/-- A symbol, where `+` stands for `>>`, or a word and where it stands in the input. -/
inductive Tok where
  | sym (c : BitVec 8)
  | word (q eq : Nat)
deriving DecidableEq

def tokens (buf : Str) (es : Nat) : Nat → Nat → List Tok
  | 0, _ => []
  | k + 1, s =>
    let t := gettoken buf s es
    if t.ret = 0 then []
    else (if t.ret = ch 'a' then .word t.q t.eq else .sym t.ret) :: tokens buf es k t.s

def tokenize (buf : Str) : List Tok := tokens buf (strlen buf) (strlen buf + 1) 0

structure Redir where
  file : Nat
  efile : Nat
  mode : BitVec 32
  fd : Nat

def Redir.wrap (cmd : Cmd) (r : Redir) : Cmd := .redir cmd r.file r.efile r.mode r.fd

inductive IsRedir : List Tok → Redir → Prop where
  | input (q eq : Nat) : IsRedir [.sym (ch '<'), .word q eq] ⟨q, eq, O_RDONLY, 0⟩
  | output (q eq : Nat) : IsRedir [.sym (ch '>'), .word q eq] ⟨q, eq, O_WRONLY ||| O_CREATE, 1⟩
  | append (q eq : Nat) : IsRedir [.sym (ch '+'), .word q eq] ⟨q, eq, O_WRONLY ||| O_CREATE, 1⟩

/-- `redir*`. -/
inductive Redirs : List Tok → List Redir → Prop where
  | nil : Redirs [] []
  | cons {ts ts' : List Tok} {r : Redir} {rs : List Redir} : IsRedir ts r → Redirs ts' rs → Redirs (ts ++ ts') (r :: rs)

/-- `(word redir*)*`. -/
inductive Words : List Tok → List (Nat × Nat) → List Redir → Prop where
  | nil : Words [] [] []
  | cons {ts ts' : List Tok} {q eq : Nat} {ws : List (Nat × Nat)} {rs rs' : List Redir} :
      Redirs ts rs → Words ts' ws rs' → Words (.word q eq :: (ts ++ ts')) ((q, eq) :: ws) (rs ++ rs')

mutual

inductive Line : List Tok → Cmd → Prop where
  | last {ts : List Tok} {c : Cmd} (n : Nat) : Pipe ts c → Line (ts ++ List.replicate n (.sym (ch '&'))) (Cmd.back^[n] c)
  | semi {ts ts' : List Tok} {c c' : Cmd} (n : Nat) : Pipe ts c → Line ts' c' →
      Line (ts ++ (List.replicate n (.sym (ch '&')) ++ .sym (ch ';') :: ts')) (.list (Cmd.back^[n] c) c')

inductive Pipe : List Tok → Cmd → Prop where
  | last {ts : List Tok} {c : Cmd} : Exec ts c → Pipe ts c
  | bar {ts ts' : List Tok} {c c' : Cmd} : Exec ts c → Pipe ts' c' → Pipe (ts ++ .sym (ch '|') :: ts') (.pipe c c')

/-- Each redirection encloses those before it. -/
inductive Exec : List Tok → Cmd → Prop where
  | block {ts ts' : List Tok} {c : Cmd} {rs : List Redir} : Line ts c → Redirs ts' rs →
      Exec (.sym (ch '(') :: (ts ++ .sym (ch ')') :: ts')) (rs.foldl Redir.wrap c)
  | simple {ts ts' : List Tok} {ws : List (Nat × Nat)} {rs rs' : List Redir} : Redirs ts rs → Words ts' ws rs' →
      ws.length < MAXARGS → Exec (ts ++ ts') ((rs ++ rs').foldl Redir.wrap (.exec ws))

end

end Xv6.Sh
