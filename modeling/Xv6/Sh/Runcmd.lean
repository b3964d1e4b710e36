import Xv6.File.Views
import Xv6.Lib.Trans
import Xv6.Sh.Model

/-!
# Running a command (`runcmd` in `sh.c`)

What a process of the shell still has to do is a tree of system calls. It branches on what a call returns, and at a `fork`
the parent and the child go on in different branches. All processes run on one kernel, in any order. The programs they
start, and the processes that have nothing to do with the command, make arbitrary calls.

A node of the command is named by the path to it. The system records which pipe and which open file a node has made.
-/

namespace Xv6.Sh

open Function

open Xv6.Ftable (State Call Fd Desc Table NOFILE)
open Xv6.Ptable (Slot)

/-- The field of a command that a subcommand is in. -/
inductive Side where
  | cmd
  | left
  | right
deriving DecidableEq

abbrev Node := List Side

inductive Message where
  /-- `"exec %s failed\n"`. -/
  | exec (arg : Nat)
  /-- `"open %s failed\n"`. -/
  | open (file : Nat)
  /-- `"%s\n"`. -/
  | panic (s : String)
deriving DecidableEq

/-- The system calls of a process. `fork` says which node the child runs, and `pipe` passes on the array unless it fails. -/
inductive Prog where
  | close (fd : Int) (next : Prog)
  | dup (fd : Int) (next : Prog)
  | open (node : Node) (file : Nat) (mode : BitVec 32) (next : Int → Prog)
  | pipe (node : Node) (next : Option (Fd × Fd) → Prog)
  | fork (child : Node) (next : Int → Prog)
  | wait (next : Prog)
  | exec (node : Node) (args : List (Nat × Nat)) (next : Prog)
  | printf (text : Message) (next : Prog)
  | exit

def panic (s : String) : Prog := .printf (.panic s) .exit

def fork1 (child : Node) (next : Int → Prog) : Prog :=
  .fork child fun pid => if pid = -1 then panic "fork" else next pid

/-- It does not return, so that nothing comes after a call of it. -/
def runcmd (node : Node) : Cmd → Prog
  | .exec [] => .exit
  | .exec (arg :: args) => .exec node (arg :: args) <| .printf (.exec arg.1) .exit
  | .redir cmd file _ mode fd =>
    .close fd <|
    .open node file mode fun r =>
      if r < 0 then .printf (.open file) .exit else runcmd (node ++ [.cmd]) cmd
  | .list left right =>
    fork1 (node ++ [.left]) fun pid =>
      if pid = 0 then runcmd (node ++ [.left]) left
      else .wait <| runcmd (node ++ [.right]) right
  | .pipe left right =>
    .pipe node fun
      | none => panic "pipe"
      | some (p0, p1) =>
        fork1 (node ++ [.left]) fun pid =>
          if pid = 0 then .close 1 <| .dup p1 <| .close p0 <| .close p1 <| runcmd (node ++ [.left]) left
          else
            fork1 (node ++ [.right]) fun pid =>
              if pid = 0 then .close 0 <| .dup p0 <| .close p0 <| .close p1 <| runcmd (node ++ [.right]) right
              else .close p0 <| .close p1 <| .wait <| .wait .exit
  | .back cmd =>
    fork1 (node ++ [.cmd]) fun pid =>
      if pid = 0 then runcmd (node ++ [.cmd]) cmd else .exit

/-! ## The processes -/

/-- `home` is the node for which the process, or the shell process that it descends from, was forked. -/
inductive Proc where
  | outside
  | shell (home : Node) (prog : Prog)
  | program (home : Node) (args : List (Nat × Nat))

structure Sys where
  kernel : State
  procs : Slot → Proc
  pipes : Node → Option Nat
  files : Node → Option Nat

/-- What the environment decides: whether there is memory, a path is found and a program can be run, the pid of a child, the child that
`wait` finds, and the call of another process. -/
structure Choice where
  mem : Bool := true
  found : Option Bool := some false
  pid : Nat := 0
  zombie : Slot := Ptable.initproc
  runs : Bool := true
  call : Call := .exit

namespace Sys

variable (y : Sys)

def starts (s : State) (child : Proc) : Slot → Proc := fun q =>
  if y.kernel.life q ≠ .used ∧ s.life q = .used then child else y.procs q

def call (p : Slot) (c : Choice) : Option (Int × Sys) :=
  match y.procs p with
  | .shell home prog =>
    match prog with
    | .close fd next => do
      let (r, s) ← (Ftable.exec y.kernel p (.close fd)).toOption
      return (r, { y with kernel := s, procs := update y.procs p (.shell home next) })
    | .dup fd next => do
      let (r, s) ← (Ftable.exec y.kernel p (.dup fd)).toOption
      return (r, { y with kernel := s, procs := update y.procs p (.shell home next) })
    | .open node _ mode next => do
      let (r, s) ← (Ftable.exec y.kernel p (.open c.found mode)).toOption
      return (r, { y with
        kernel := s
        procs := update y.procs p (.shell home (next r))
        files := if r < 0 then y.files else update y.files node (some y.kernel.nip) })
    | .pipe node next => do
      let (r, s) ← (Ftable.exec y.kernel p (.pipe true c.mem)).toOption
      return (r, { y with
        kernel := s
        procs := update y.procs p (.shell home (next (if r < 0 then none else y.kernel.pipeFds p c.mem)))
        pipes := if r < 0 then y.pipes else update y.pipes node (some y.kernel.npipe) })
    | .fork child next => do
      let (r, s) ← (Ftable.exec y.kernel p (.fork c.mem)).toOption
      -- A pid is positive, so that the parent does not take itself for the child.
      let pid : Int := if r < 0 then -1 else c.pid + 1
      return (r, { y with
        kernel := s
        procs := update (y.starts s (.shell child (next 0))) p (.shell home (next pid)) })
    | .wait next => do
      let (r, s) ← (Ftable.exec y.kernel p (.wait c.zombie)).toOption
      return (r, { y with kernel := s, procs := update y.procs p (.shell home next) })
    | .exec _ args next =>
      if c.runs then some (0, { y with procs := update y.procs p (.program home args) })
      else some (-1, { y with procs := update y.procs p (.shell home next) })
    | .printf _ next => some (0, { y with procs := update y.procs p (.shell home next) })
    | .exit => do
      let (r, s) ← (Ftable.exec y.kernel p .exit).toOption
      return (r, { y with kernel := s })
  | proc => do
    let (_, s) ← (Ftable.exec y.kernel p c.call).toOption
    return (0, { y with kernel := s, procs := y.starts s proc })

def step (a : Slot × Choice) : Option Sys :=
  if y.kernel.life a.1 = .used then (y.call a.1 a.2).map (·.2) else none

def succeeds (a : Slot × Choice) : Prop := (y.call a.1 a.2).all (0 ≤ ·.1) = true

instance (a : Slot × Choice) : Decidable (y.succeeds a) := inferInstanceAs (Decidable (_ = true))

end Sys

/-- `runcmd` starts in process `p`, with descriptors 0, 1 and 2. -/
structure Starts (cmd : Cmd) (p : Slot) (y : Sys) : Prop where
  kernel : Lib.Reach (· = Ftable.init) Ftable.step (fun _ _ => True) y.kernel
  used : y.kernel.life p = .used
  fds : ∀ fd : Fd, (y.kernel.ofile (p, fd)).isSome ↔ fd.val < 3
  procs : y.procs = update (fun _ => .outside) p (.shell [] (runcmd [] cmd))
  pipes : y.pipes = fun _ => none
  files : y.files = fun _ => none

/-! ## What the command assigns -/

inductive Source where
  | inherited (fd : Nat)
  | file (node : Node) (mode : BitVec 32)
  | pipe (node : Node) (writable : Bool)
deriving DecidableEq

/-- A program of the command, with its descriptors 0, 1 and 2. -/
structure Leaf where
  node : Node
  args : List (Nat × Nat)
  std : Nat → Source

def leaves (node : Node) (std : Nat → Source) : Cmd → List Leaf
  | .exec [] => []
  | .exec (arg :: args) => [⟨node, arg :: args, std⟩]
  | .redir cmd _ _ mode fd => leaves (node ++ [.cmd]) (update std fd (.file node mode)) cmd
  | .list left right => leaves (node ++ [.left]) std left ++ leaves (node ++ [.right]) std right
  | .pipe left right =>
    leaves (node ++ [.left]) (update std 1 (.pipe node true)) left ++
      leaves (node ++ [.right]) (update std 0 (.pipe node false)) right
  | .back cmd => leaves (node ++ [.cmd]) std cmd

/-- The open file that a source stands for, with `t` the descriptors at the start. -/
def Sys.desc (y : Sys) (t : Table) : Source → Option Desc
  | .inherited fd => if h : fd < NOFILE then t ⟨fd, h⟩ else none
  | .file node mode => (y.files node).map (Ftable.opened · mode)
  | .pipe node writable => (y.pipes node).map (.pipe · writable)

def Proc.within (node : Node) : Proc → Prop
  | .outside => False
  | .shell home _ => node <+: home
  | .program home _ => node <+: home

/-- All that the process does until `fd` is closed is to close and copy descriptors and to fork processes that do so too. -/
def Prog.closes (fd : Fd) : Prog → Prop
  | .close n next => n = fd ∨ next.closes fd
  | .dup _ next => next.closes fd
  | .fork _ next => ∀ pid, 0 ≤ pid → (next pid).closes fd
  | _ => False

def Proc.closes (fd : Fd) : Proc → Prop
  | .shell _ prog => prog.closes fd
  | _ => False

end Xv6.Sh
