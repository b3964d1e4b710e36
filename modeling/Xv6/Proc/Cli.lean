import Mathlib.Logic.Function.Basic
import Mathlib.Tactic.SplitIfs
import Xv6.Lib.Trans

/-!
# `pushcli` and `popcli` (`spinlock.c`), `sched` (`proc.c`)

Kernel threads on any number of processors. A thread calls the functions below in any order in which no `popcli` comes before
its `pushcli`, and an action is one step of a processor. An interrupt may come whenever the processor admits it, also between
`readeflags()` and `cli()` of a `pushcli`, and the handler may itself be switched to another processor before it returns.
-/

namespace Xv6.Cli

open Xv6.Lib Function

/-- A step of the code that no other one of this processor can come in between. -/
inductive Prim where
  /-- `eflags = readeflags()`. -/
  | readeflags
  /-- `cli()` and the rest of `pushcli`. -/
  | cli
  | popcli
  /-- `r = lock->locked && lock->cpu == mycpu()`. -/
  | test (lk : Nat)
  /-- The panics of `acquire`, `release` and `sched` about the answer of `holding`. -/
  | check (held : Bool)
  | xchg (lk : Nat)
  /-- `lk->cpu = mycpu()`. -/
  | setcpu (lk : Nat)
  /-- `lk->cpu = 0`. -/
  | clearcpu (lk : Nat)
  /-- `lk->locked = 0`. -/
  | unlock (lk : Nat)
  /-- `p = c->proc`. -/
  | proc
  /-- In `sched`, which is called by processes: the tests, `intena = mycpu()->intena` and `swtch`. -/
  | swtch
  /-- `mycpu()->intena = intena`. -/
  | restore
deriving DecidableEq

def pushcli : List Prim := [.readeflags, .cli]

def popcli : List Prim := [.popcli]

def holding (lk : Nat) : List Prim := pushcli ++ .test lk :: popcli

def acquire (lk : Nat) : List Prim := pushcli ++ holding lk ++ [.check false, .xchg lk, .setcpu lk]

def release (lk : Nat) : List Prim := holding lk ++ [.check true, .clearcpu lk, .unlock lk] ++ popcli

def myproc : List Prim := pushcli ++ .proc :: popcli

def sched : List Prim := myproc ++ holding 0 ++ [.check true, .swtch, .restore]

inductive Call where
  | pushcli
  | popcli
  | holding (lk : Nat)
  | acquire (lk : Nat)
  | release (lk : Nat)
  | myproc
  | sched

def Call.code : Call → List Prim
  | .pushcli => Cli.pushcli
  | .popcli => Cli.popcli
  | .holding lk => Cli.holding lk
  | .acquire lk => Cli.acquire lk
  | .release lk => Cli.release lk
  | .myproc => Cli.myproc
  | .sched => Cli.sched

/-- The call ends a section that the thread has begun. -/
def Call.ends : Call → Bool
  | .popcli | .release _ => true
  | _ => false

structure Vars where
  eflags : Bool
  r : Bool
  intena : Bool

/-- What an interrupt has put off; `fl_if` is the flag that `iret` restores. -/
structure Frame where
  code : List Prim
  vars : Vars
  fl_if : Bool

structure Thread where
  code : List Prim
  vars : Vars
  frames : List Frame
  /-- Waits in `swtch`, or has not run yet. -/
  suspended : Bool
  /-- The number of `pushcli`s without their `popcli`. -/
  depth : Nat
  /-- The flag at the first of these, if the thread has called it itself. -/
  before : Option Bool
  begun : Bool

inductive Tid where
  | scheduler (c : Nat)
  | proc (p : Nat)
deriving DecidableEq

structure Cpu where
  ncli : Int
  intena : Bool
  fl_if : Bool
  running : Tid

structure Spinlock where
  locked : Bool
  cpu : Option Nat

inductive Panic where
  | popcliInterruptible
  | popcli
  | lock
  | schedLocks
  | schedInterruptible
deriving DecidableEq

structure State where
  cpu : Nat → Cpu
  thread : Tid → Thread
  lock : Nat → Spinlock
  panicked : Option Panic

/-- Every processor starts in its scheduler. A new process returns from `swtch` to `forkret`, which releases `ptable.lock`. -/
def init : State where
  cpu := fun c => ⟨0, false, false, .scheduler c⟩
  thread := fun
    | .scheduler _ => ⟨[], ⟨false, false, false⟩, [], false, 0, none, true⟩
    | .proc _ => ⟨[], ⟨false, false, false⟩, [], true, 1, none, false⟩
  lock := fun _ => ⟨false, none⟩
  panicked := none

namespace State

def current (s : State) (c : Nat) : Thread := s.thread (s.cpu c).running

def setThread (s : State) (i : Tid) (t : Thread) : State := { s with thread := update s.thread i t }

def setCpu (s : State) (c : Nat) (k : Cpu) : State := { s with cpu := update s.cpu c k }

def put (s : State) (c : Nat) (k : Cpu) (t : Thread) : State := (s.setThread (s.cpu c).running t).setCpu c k

def setLock (s : State) (lk : Nat) (l : Spinlock) : State := { s with lock := update s.lock lk l }

def panic (s : State) (p : Panic) : State := { s with panicked := some p }

/-- Processor `c` leaves its thread `t`, and goes on with thread `i`. -/
def switch (s : State) (c : Nat) (t : Thread) (i : Tid) : State :=
  let s := s.put c { s.cpu c with running := i } { t with suspended := true }
  s.setThread i { s.thread i with suspended := false }

end State

def Prim.exec (s : State) (c : Nat) (t : Thread) : Prim → Option State
  | .readeflags => some (s.put c (s.cpu c) { t with vars := { t.vars with eflags := (s.cpu c).fl_if } })
  | .cli =>
    let k := s.cpu c
    some (s.put c { k with fl_if := false, intena := if k.ncli = 0 then t.vars.eflags else k.intena, ncli := k.ncli + 1 }
      { t with depth := t.depth + 1, before := if t.depth = 0 then some k.fl_if else t.before })
  | .popcli =>
    let k := s.cpu c
    if k.fl_if then some (s.panic .popcliInterruptible)
    else if k.ncli - 1 < 0 then some (s.panic .popcli)
    else some (s.put c { k with ncli := k.ncli - 1, fl_if := k.ncli - 1 = 0 && k.intena }
      { t with depth := t.depth - 1, begun := t.begun || t.depth - 1 = 0 })
  | .test lk => some (s.put c (s.cpu c) { t with vars := { t.vars with r := (s.lock lk).locked && (s.lock lk).cpu = some c } })
  | .check held => if t.vars.r = held then some (s.put c (s.cpu c) t) else some (s.panic .lock)
  | .xchg lk => if (s.lock lk).locked then some s else some ((s.setLock lk { s.lock lk with locked := true }).put c (s.cpu c) t)
  | .setcpu lk => some ((s.setLock lk { s.lock lk with cpu := some c }).put c (s.cpu c) t)
  | .clearcpu lk => some ((s.setLock lk { s.lock lk with cpu := none }).put c (s.cpu c) t)
  | .unlock lk => some ((s.setLock lk { s.lock lk with locked := false }).put c (s.cpu c) t)
  | .proc => some (s.put c (s.cpu c) t)
  | .swtch =>
    if (s.cpu c).running = .scheduler c then none
    else if (s.cpu c).ncli ≠ 1 then some (s.panic .schedLocks)
    else if (s.cpu c).fl_if then some (s.panic .schedInterruptible)
    else some (s.switch c { t with vars := { t.vars with intena := (s.cpu c).intena } } (.scheduler c))
  | .restore => some (s.put c { s.cpu c with intena := t.vars.intena } t)

inductive Act where
  | exec (c : Nat)
  | call (c : Nat) (f : Call)
  /-- `sti()` or `cli()`, as in `scheduler`, outside of all sections. -/
  | flag (c : Nat) (b : Bool)
  | interrupt (c : Nat)
  | iret (c : Nat)
  /-- The scheduler of processor `c`, which has `ptable.lock`, switches to process `p`. It does not save `intena`. -/
  | dispatch (c p : Nat)

def step (s : State) (a : Act) : Option State :=
  if s.panicked = none then
    match a with
    | .exec c =>
      match (s.current c).code with
      | [] => none
      | x :: code => x.exec s c { s.current c with code }
    | .call c f =>
      let t := s.current c
      if t.code = [] ∧ (f.ends → 0 < t.depth) then
        some (s.put c (s.cpu c) { t with code := f.code })
      else none
    | .flag c b =>
      let t := s.current c
      if t.code = [] ∧ t.depth = 0 then some (s.put c { s.cpu c with fl_if := b } t) else none
    | .interrupt c =>
      let t := s.current c
      if (s.cpu c).fl_if then
        some (s.put c { s.cpu c with fl_if := false } { t with code := [], frames := ⟨t.code, t.vars, true⟩ :: t.frames })
      else none
    | .iret c =>
      let t := s.current c
      match t.frames with
      | [] => none
      | f :: frames =>
        if t.code = [] ∧ t.depth = 0 then
          some (s.put c { s.cpu c with fl_if := f.fl_if } { t with code := f.code, vars := f.vars, frames })
        else none
    | .dispatch c p =>
      let t := s.current c
      if (s.cpu c).running = .scheduler c ∧ t.code = [] ∧ t.depth = 1 ∧ (s.thread (.proc p)).suspended then
        some (s.switch c { t with before := none } (.proc p))
      else none
  else none

def Runs : State → Prop := Reach (· = init) step fun _ _ => True

variable {s s' : State} {c d : Nat} {k : Cpu} {t : Thread} {i : Tid} {x : Prim} {l : List Prim}

/-! ## The invariant -/

def Follows (x : Prim) (l : List Prim) : Prop :=
  (l.head? = some .cli ↔ x = .readeflags) ∧ (l.head? = some .restore ↔ x = .swtch)

/-- From depth `d` on, the code ends no section that has not begun. -/
def Nested : Nat → List Prim → Prop
  | _, [] => True
  | d, x :: l => Follows x l ∧ match x with
    | .cli => Nested (d + 1) l
    | .popcli => 0 < d ∧ Nested (d - 1) l
    | .swtch => l = [.restore]
    | .restore => 0 < d ∧ Nested d l
    | _ => Nested d l

/-- What an interrupt has put off is at depth 0, with interrupts enabled. -/
structure Frame.Ok (f : Frame) : Prop where
  enabled : f.fl_if = true
  nested : Nested 0 f.code
  eflags : f.code.head? = some .cli → f.vars.eflags = true

/-- A thread on its processor. Between `swtch` and `restore`, its `intena` is in its variable. -/
structure OnCpu (k : Cpu) (t : Thread) : Prop where
  ncli : k.ncli = t.depth
  off : 0 < t.depth → k.fl_if = false
  nested : Nested t.depth t.code
  eflags : t.code.head? = some .cli → t.vars.eflags = k.fl_if
  intena : 0 < t.depth → ∀ b, t.before = some b → (if t.code.head? = some .restore then t.vars.intena else k.intena) = b
  frames : ∀ f ∈ t.frames, f.Ok

structure Waits (t : Thread) : Prop where
  depth : t.depth = 1
  code : t.code = [] ∧ t.before = none ∨ t.code = [.restore] ∧ ∀ b, t.before = some b → t.vars.intena = b
  frames : ∀ f ∈ t.frames, f.Ok

/-- The thread of a process has called `pushcli` itself, but for the one that `forkret` undoes. -/
def Owns (i : Tid) (t : Thread) : Prop := ∀ p, i = .proc p → 0 < t.depth → t.begun = true → t.before ≠ none

structure Inv (s : State) : Prop where
  running : ∀ c, OnCpu (s.cpu c) (s.current c) ∧ (s.current c).suspended = false
  waits : ∀ i, (s.thread i).suspended = true → Waits (s.thread i)
  inj : ∀ c c', (s.cpu c).running = (s.cpu c').running → c = c'
  home : ∀ c c', (s.cpu c).running = .scheduler c' → c' = c
  away : ∀ c, (s.cpu c).running ≠ .scheduler c → (s.thread (.scheduler c)).suspended = true
  own : ∀ i, Owns i (s.thread i)
  panics : s.panicked ≠ some .popcli ∧ s.panicked ≠ some .popcliInterruptible

theorem inv_init : Inv init where
  running c := ⟨⟨rfl, nofun, trivial, nofun, nofun, nofun⟩, rfl⟩
  waits i h := by
    cases i with
    | scheduler c => cases h
    | proc p => exact ⟨rfl, .inl ⟨rfl, rfl⟩, nofun⟩
  inj c c' h := by cases h; rfl
  home c c' h := by cases h; rfl
  away c h := absurd rfl h
  own i p hi _ h := by
    subst hi
    cases h
  panics := ⟨nofun, nofun⟩

/-! ## Steps -/

@[simp] theorem put_cpu_self : (s.put c k t).cpu c = k := update_self ..

@[simp] theorem put_cpu_ne {c' : Nat} (h : c' ≠ c) : (s.put c k t).cpu c' = s.cpu c' := update_of_ne h ..

theorem put_thread_self : (s.put c k t).thread (s.cpu c).running = t := update_self ..

theorem put_thread_ne (h : i ≠ (s.cpu c).running) : (s.put c k t).thread i = s.thread i := update_of_ne h ..

theorem Inv.put (h : Inv s) (hk : k.running = (s.cpu c).running) (ht : OnCpu k t) (hs : t.suspended = false)
    (ho : Owns (s.cpu c).running t) : Inv (s.put c k t) := by
  have hrun (c' : Nat) : ((s.put c k t).cpu c').running = (s.cpu c').running := by
    by_cases hc : c' = c
    · subst hc
      rw [put_cpu_self, hk]
    · rw [put_cpu_ne hc]
  have hthread (i : Tid) : (s.put c k t).thread i = t ∧ i = (s.cpu c).running ∨ (s.put c k t).thread i = s.thread i := by
    by_cases hi : i = (s.cpu c).running
    · subst hi
      exact .inl ⟨put_thread_self, rfl⟩
    · exact .inr (put_thread_ne hi)
  refine ⟨fun c' => ?_, fun i hi => ?_, fun c1 c2 => ?_, fun c1 c2 => ?_, fun c' hc' => ?_, fun i => ?_, h.panics⟩
  · rw [State.current, hrun]
    by_cases hc : c' = c
    · subst hc
      rw [put_cpu_self, put_thread_self]
      exact ⟨ht, hs⟩
    · rw [put_cpu_ne hc, put_thread_ne fun he => hc (h.inj c' c he)]
      exact h.running c'
  · rcases hthread i with ⟨he, -⟩ | he <;> rw [he] at hi ⊢
    · rw [hs] at hi
      cases hi
    · exact h.waits i hi
  · rw [hrun, hrun]
    exact h.inj c1 c2
  · rw [hrun]
    exact h.home c1 c2
  · rw [hrun] at hc'
    rcases hthread (.scheduler c') with ⟨-, he⟩ | he
    · obtain rfl := h.home c c' he.symm
      exact absurd he.symm hc'
    · rw [he]
      exact h.away c' hc'
  · rcases hthread i with ⟨he, rfl⟩ | he <;> rw [he]
    · exact ho
    · exact h.own i

theorem Waits.onCpu (h : Waits t) (hk : k.ncli = 1) (hf : k.fl_if = false) : OnCpu k { t with suspended := false } := by
  refine ⟨by rw [h.depth, hk]; rfl, fun _ => hf, ?_, ?_, fun _ b hb => ?_, h.frames⟩ <;> dsimp only at *
  all_goals rcases h.code with ⟨hc, hn⟩ | ⟨hc, hn⟩ <;> rw [hc]
  · trivial
  · rw [h.depth]
    exact ⟨by simp [Follows], Nat.one_pos, trivial⟩
  · nofun
  · nofun
  · rw [hn] at hb
    cases hb
  · exact hn b hb

theorem Inv.switch (h : Inv s) (hw : Waits t) (ho : Owns (s.cpu c).running t) (hi : (s.thread i).suspended = true)
    (hk : (s.cpu c).ncli = 1) (hf : (s.cpu c).fl_if = false) (hhome : ∀ c', i = .scheduler c' → c' = c)
    (haway : i = .scheduler c ∨ (s.cpu c).running = .scheduler c) : Inv (s.switch c t i) := by
  have hrun (c' : Nat) : (s.cpu c').running ≠ i := by
    rintro rfl
    exact absurd ((h.running c').2.symm.trans hi) Bool.false_ne_true
  have hcpu : (s.switch c t i).cpu c = { s.cpu c with running := i } := update_self ..
  have hcpu' {c' : Nat} (hc : c' ≠ c) : (s.switch c t i).cpu c' = s.cpu c' := update_of_ne hc ..
  have hold : (s.switch c t i).thread (s.cpu c).running = { t with suspended := true } :=
    (update_of_ne (hrun c) ..).trans put_thread_self
  have hnew : (s.switch c t i).thread i = { s.thread i with suspended := false } := by
    refine (update_self ..).trans ?_
    rw [put_thread_ne (hrun c).symm]
  have hrest {j : Tid} (h1 : j ≠ (s.cpu c).running) (h2 : j ≠ i) : (s.switch c t i).thread j = s.thread j :=
    (update_of_ne h2 ..).trans (put_thread_ne h1)
  refine ⟨fun c' => ?_, fun j hj => ?_, fun c1 c2 hc => ?_, fun c1 c2 hc => ?_, fun c' hc => ?_, fun j => ?_, h.panics⟩
  · by_cases hc : c' = c
    · subst hc
      rw [State.current, hcpu, hnew]
      exact ⟨(h.waits i hi).onCpu hk hf, rfl⟩
    · rw [State.current, hcpu' hc, hrest (fun he => hc (h.inj c' c he)) (hrun c')]
      exact h.running c'
  · by_cases h2 : j = i
    · subst h2
      rw [hnew] at hj
      cases hj
    · by_cases h1 : j = (s.cpu c).running
      · subst h1
        rw [hold]
        exact ⟨hw.depth, hw.code, hw.frames⟩
      · rw [hrest h1 h2] at hj ⊢
        exact h.waits j hj
  · by_cases h1 : c1 = c <;> by_cases h2 : c2 = c
    · rw [h1, h2]
    · subst h1
      rw [hcpu, hcpu' h2] at hc
      exact absurd hc.symm (hrun c2)
    · subst h2
      rw [hcpu, hcpu' h1] at hc
      exact absurd hc (hrun c1)
    · rw [hcpu' h1, hcpu' h2] at hc
      exact h.inj c1 c2 hc
  · by_cases h1 : c1 = c
    · subst h1
      rw [hcpu] at hc
      exact hhome c2 hc
    · rw [hcpu' h1] at hc
      exact h.home c1 c2 hc
  · by_cases h1 : c' = c
    · subst h1
      rw [hcpu] at hc
      rw [← haway.resolve_left hc, hold]
    · rw [hcpu' h1] at hc
      rw [hrest (fun he => h1 (h.home c c' he.symm)) fun he => h1 (hhome c' he.symm)]
      exact h.away c' hc
  · by_cases h2 : j = i
    · subst h2
      rw [hnew]
      exact h.own j
    · by_cases h1 : j = (s.cpu c).running
      · subst h1
        rw [hold]
        exact ho
      · rw [hrest h1 h2]
        exact h.own j

theorem Inv.setLock (h : Inv s) (lk : Nat) (v : Spinlock) : Inv (s.setLock lk v) := { h with }

theorem Inv.panic (h : Inv s) {p : Panic} (h1 : p ≠ .popcli) (h2 : p ≠ .popcliInterruptible) : Inv (s.panic p) :=
  { h with panics := by simpa [State.panic] using ⟨h1, h2⟩ }

def Prim.Plain : Prim → Prop
  | .readeflags | .cli | .popcli | .swtch | .restore => False
  | _ => True

theorem OnCpu.next (h : OnCpu k t) (hc : t.code = x :: l) (hx : x.Plain) (v : Vars) : OnCpu k { t with code := l, vars := v } := by
  have hn := h.nested
  have hi := h.intena
  rw [hc] at hn hi
  obtain ⟨⟨hcli, hrestore⟩, hn⟩ := hn
  refine ⟨h.ncli, h.off, ?_, fun hl => ?_, fun hd b hb => ?_, h.frames⟩
  · cases x <;> first | exact hn | cases hx
  · rw [hcli.1 hl] at hx
    cases hx
  · rw [if_neg fun hl => by rw [hrestore.1 hl] at hx; cases hx]
    rw [← hi hd b hb, if_neg]
    rintro ⟨⟩
    cases hx

theorem Inv.exec (h : Inv s) (hc : (s.current c).code = x :: l) (he : x.exec s c { s.current c with code := l } = some s') : Inv s' := by
  have ho : Owns (s.cpu c).running (s.current c) := h.own _
  obtain ⟨ht, hs⟩ := h.running c
  have hn := ht.nested
  have hi := ht.intena
  rw [hc] at hn hi
  obtain ⟨⟨hcli, hrestore⟩, hn⟩ := hn
  cases x with simp only [Prim.exec] at he
  | readeflags =>
    cases he
    refine h.put rfl ⟨ht.ncli, ht.off, hn, fun _ => rfl, fun hd b hb => ?_, ht.frames⟩ hs ho
    rw [if_neg (by simp [hrestore])]
    exact hi hd b hb
  | cli =>
    cases he
    refine h.put rfl ⟨?_, fun _ => rfl, hn, ?_, fun _ b hb => ?_, ht.frames⟩ hs fun p hp _ hb => ?_
    · simp [ht.ncli]
    · simp [hcli]
    · simp only [hrestore, reduceCtorEq, if_false]
      simp only [ht.ncli] at hb ⊢
      by_cases hd : (s.current c).depth = 0
      · simp only [hd, if_true, Option.some.injEq] at hb
        simp [hd, ← hb, ht.eflags (by rw [hc]; rfl)]
      · simp only [hd, if_false] at hb
        simpa [hd] using hi (Nat.pos_of_ne_zero hd) b hb
    · by_cases hd : (s.current c).depth = 0
      · simp [hd]
      · simpa [hd] using ho p hp (Nat.pos_of_ne_zero hd) hb
  | popcli =>
    obtain ⟨hd, hn⟩ := hn
    have hncli := ht.ncli
    rw [if_neg (by simp [ht.off hd]), if_neg (by omega)] at he
    cases he
    refine h.put rfl ⟨?_, fun hd => ?_, hn, ?_, fun _ b hb => ?_, ht.frames⟩ hs fun p hp hd' hb => ?_
    · dsimp only
      omega
    · have : ¬(s.cpu c).ncli - 1 = 0 := by dsimp only at hd; omega
      simp [this]
    · simp [hcli]
    · simpa [hrestore] using hi hd b hb
    · dsimp only at hd'
      exact ho p hp hd (by simpa [Nat.pos_iff_ne_zero.1 hd'] using hb)
  | check held =>
    split at he <;> cases he
    · exact h.put rfl (ht.next hc trivial _) hs ho
    · exact h.panic nofun nofun
  | xchg lk =>
    split at he <;> cases he
    · exact h
    · exact (h.setLock lk _).put rfl (ht.next hc trivial _) hs ho
  | test lk | proc =>
    cases he
    exact h.put rfl (ht.next hc trivial _) hs ho
  | setcpu lk | clearcpu lk | unlock lk =>
    cases he
    exact (h.setLock lk _).put rfl (ht.next hc trivial _) hs ho
  | swtch =>
    split_ifs at he with hrun hncli hf <;> cases he
    · exact h.panic nofun nofun
    · exact h.panic nofun nofun
    · have hk : (s.cpu c).ncli = 1 := not_not.1 hncli
      have hd : (s.current c).depth = 1 := by have := ht.ncli; omega
      refine h.switch ⟨hd, .inr ⟨hn, fun b hb => ?_⟩, ht.frames⟩ ho (h.away c hrun) hk (eq_false_of_ne_true hf) ?_
        (.inl rfl)
      · exact hi (hd ▸ Nat.one_pos) b hb
      · rintro c' ⟨⟩
        rfl
  | restore =>
    cases he
    refine h.put rfl ⟨ht.ncli, ht.off, hn.2, ?_, fun hd b hb => ?_, ht.frames⟩ hs ho
    · simp [hcli]
    · simpa [hrestore] using hi hd b hb

theorem Call.nested (f : Call) (hf : f.ends → 0 < d) : Nested d f.code := by
  cases f <;> simp_all [code, ends, Nested, Follows, Cli.pushcli, Cli.popcli, Cli.holding, Cli.acquire, Cli.release, Cli.myproc,
    Cli.sched]

theorem Call.head_code (f : Call) : f.code.head? ≠ some .cli ∧ f.code.head? ≠ some .restore := by
  cases f <;> exact ⟨nofun, nofun⟩

theorem Inv.step {a : Act} (h : Inv s) (he : step s a = some s') : Inv s' := by
  unfold Cli.step at he
  split_ifs at he
  cases a with dsimp only at he
  | exec c =>
    split at he
    · cases he
    · rename_i hc
      exact h.exec hc he
  | call c f =>
    split_ifs at he with hf
    cases he
    obtain ⟨ht, hs⟩ := h.running c
    refine h.put rfl ⟨ht.ncli, ht.off, f.nested hf.2, fun hc => ?_, fun hd b hb => ?_, ht.frames⟩ hs (h.own _)
    · exact absurd hc f.head_code.1
    · simpa [f.head_code.2, hf.1] using ht.intena hd b hb
  | flag c b =>
    split_ifs at he with hf
    cases he
    obtain ⟨ht, hs⟩ := h.running c
    refine h.put rfl ⟨ht.ncli, ?_, ht.nested, ?_, ?_, ht.frames⟩ hs (h.own _)
    · simp [hf.2]
    · simp [hf.1]
    · simp [hf.2]
  | interrupt c =>
    split_ifs at he with hf
    cases he
    obtain ⟨ht, hs⟩ := h.running c
    have hd : (s.current c).depth = 0 := by
      refine Nat.eq_zero_of_not_pos fun hd => ?_
      rw [ht.off hd] at hf
      cases hf
    refine h.put rfl ⟨ht.ncli, fun _ => rfl, trivial, nofun, ?_, ?_⟩ hs (h.own _)
    · simp [hd]
    · rintro f (_ | ⟨_, hm⟩)
      · exact ⟨rfl, hd ▸ ht.nested, fun hc => (ht.eflags hc).trans hf⟩
      · exact ht.frames f hm
  | iret c =>
    split at he
    · cases he
    · rename_i f frames hfr
      split_ifs at he with hf
      cases he
      obtain ⟨ht, hs⟩ := h.running c
      have hok := ht.frames f (by simp [hfr])
      refine h.put rfl ⟨ht.ncli, ?_, hf.2 ▸ hok.nested, fun hc => ?_, ?_, fun g hg => ?_⟩ hs (h.own _)
      · simp [hf.2]
      · rw [hok.enabled, hok.eflags hc]
      · simp [hf.2]
      · exact ht.frames g (by rw [hfr]; exact .tail _ hg)
  | dispatch c p =>
    split_ifs at he with hf
    cases he
    obtain ⟨hrun, hc, hd, hp⟩ := hf
    obtain ⟨ht, hs⟩ := h.running c
    refine h.switch ⟨hd, .inl ⟨hc, rfl⟩, ht.frames⟩ ?_ hp ?_ (ht.off (hd ▸ Nat.one_pos)) nofun (.inr hrun)
    · rw [hrun]
      nofun
    · rw [ht.ncli, hd]
      rfl

theorem Runs.inv (h : Runs s) : Inv s :=
  Reach.inv (P := Inv) (fun _ hs => by rw [hs]; exact inv_init) (fun _ _ _ hs _ he => hs.step he) h

/-! ## Transparency -/

/-- `ncli` is the depth of the nesting and interrupts are disabled inside of it, the panics of `popcli` are not reached, and the last
`popcli` of a thread restores the flag from before its first `pushcli`, on whatever processor it is. -/
theorem pushcli_popcli_transparent (h : Runs s) :
    (∀ c, (s.cpu c).ncli = (s.current c).depth ∧ (0 < (s.current c).depth → (s.cpu c).fl_if = false)) ∧
    s.panicked ≠ some .popcli ∧ s.panicked ≠ some .popcliInterruptible ∧
    (∀ c s', (s.current c).code.head? = some .popcli → (s.current c).depth = 1 → step s (.exec c) = some s' →
      ∀ b, (s.current c).before = some b → (s'.cpu c).fl_if = b) ∧
    ∀ p, 0 < (s.thread (.proc p)).depth → (s.thread (.proc p)).begun = true → (s.thread (.proc p)).before ≠ none := by
  have hi := h.inv
  refine ⟨fun c => ⟨(hi.running c).1.ncli, (hi.running c).1.off⟩, hi.panics.1, hi.panics.2, fun c s' hc hd he b hb => ?_,
    fun p => hi.own _ p rfl⟩
  have ht := (hi.running c).1
  obtain ⟨l, hl⟩ := List.head?_eq_some_iff.1 hc
  have hncli : (s.cpu c).ncli = 1 := by rw [ht.ncli, hd]; rfl
  have hintena := ht.intena (hd ▸ Nat.one_pos) b hb
  unfold step at he
  split_ifs at he
  simp only [hl, Prim.exec, ht.off (hd ▸ Nat.one_pos), hncli, Bool.false_eq_true, if_false] at he
  rw [if_neg (by decide), Option.some.injEq] at he
  rw [← he, put_cpu_self]
  simpa [hc] using hintena

/-- A process takes `ptable.lock` with interrupts enabled, is switched out on processor 0, and releases it on processor 1. -/
theorem pushcli_popcli_transparent_moved : ∃ s, Runs s ∧ (s.cpu 1).running = .proc 0 ∧ (s.current 1).depth = 1 ∧
    (s.current 1).code = popcli ∧ ∀ s', step s (.exec 1) = some s' → (s'.cpu 1).fl_if = true := by
  let run (c n : Nat) := List.replicate n (Act.exec c)
  obtain ⟨s, hr, h1, h2, h3, h4⟩ := Reach.of_runs
    (.call 0 (.acquire 0) :: run 0 9 ++ .dispatch 0 0 :: .call 0 (.release 0) :: run 0 8 ++
      .flag 0 true :: .call 0 (.acquire 0) :: run 0 9 ++ .call 0 .sched :: run 0 10 ++ .call 0 (.release 0) :: run 0 8 ++
      .call 1 (.acquire 0) :: run 1 9 ++ .dispatch 1 0 :: run 1 1 ++ .call 1 (.release 0) :: run 1 7)
    (fun s => (s.cpu 1).running = .proc 0 ∧ (s.current 1).depth = 1 ∧ (s.current 1).code = popcli ∧
      (s.current 1).before = some true)
    (Reach.init rfl : Runs init) (by decide +kernel)
  replace hr : Runs s := hr
  exact ⟨s, hr, h1, h2, h3, fun s' he =>
    (pushcli_popcli_transparent hr).2.2.2.1 1 s' (by rw [h3]; rfl) h2 he true h4⟩

end Xv6.Cli
