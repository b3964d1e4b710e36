import Mathlib.Algebra.Ring.Nat
import Mathlib.Tactic.FinCases
import Xv6.Sh.Runcmd

/-!
# The descriptors of a running command

`runcmd` is first run on its own, with the sources of its descriptors in place of open files.
-/

open Xv6.Lib List

namespace Xv6.Sh

open Function

open Xv6.Ftable (State Call Fd Desc Table NOFILE Inv₀ lowest)
open Xv6.Ptable (Slot)

instance : NeZero NOFILE := ⟨by decide⟩

variable {cmd : Cmd} {node home m : Node} {std : Nat → Source} {prog : Prog} {x : Side} {child : Node} {next : Int → Prog} {but : Fd → Prop}
  {fd : Fd} {n : Int}

/-! ## Each node makes its pipe or file once -/

/-- The process, or one that it forks, may make the pipe or file of `m`. -/
def Prog.makes (m : Node) : Prog → Prop
  | .close _ next => next.makes m
  | .dup _ next => next.makes m
  | .open node _ _ next => m = node ∨ ∃ r, (next r).makes m
  | .pipe node next => m = node ∨ ∃ r, (next r).makes m
  | .fork _ next => ∃ pid, (next pid).makes m
  | .wait next => next.makes m
  | .exec _ _ next => next.makes m
  | .printf _ next => next.makes m
  | .exit => False

def Prog.Once : Prog → Prop
  | .close _ next => next.Once
  | .dup _ next => next.Once
  | .open node _ _ next => (∀ r, ¬ (next r).makes node) ∧ ∀ r, (next r).Once
  | .pipe node next => (∀ r, ¬ (next r).makes node) ∧ ∀ r, (next r).Once
  | .fork _ next => (∀ pid m, pid ≠ 0 → (next 0).makes m → ¬ (next pid).makes m) ∧ ∀ pid, (next pid).Once
  | .wait next => next.Once
  | .exec _ _ next => next.Once
  | .printf _ next => next.Once
  | .exit => True

theorem not_prefix_self : ¬ node ++ [x] <+: node := by
  intro h
  have := h.length_le
  rw [length_append, length_singleton] at this
  omega

theorem prefix_side {x' : Side} (h : node ++ [x] <+: m) (h' : node ++ [x'] <+: m) : x = x' := by
  have := prefix_of_prefix_length_le h h' (by simp)
  simpa using this

theorem prefix_of_side (h : node ++ [x] <+: m) : node <+: m := (prefix_append _ _).trans h

theorem fork1_makes (h : (fork1 child next).makes m) : ∃ pid, (next pid).makes m := by
  obtain ⟨pid, h⟩ := h
  dsimp only at h
  split at h
  · cases h
  · exact ⟨pid, h⟩

theorem fork1_once (hapart : ∀ pid m, pid ≠ 0 → (next 0).makes m → ¬ (next pid).makes m)
    (h : ∀ pid, (next pid).Once) : (fork1 child next).Once := by
  refine ⟨fun pid m hpid h0 hp => ?_, fun pid => ?_⟩
  · dsimp only at hp
    split at hp
    · cases hp
    · exact hapart pid m hpid h0 hp
  · dsimp only
    split
    · trivial
    · exact h pid

theorem runcmd_makes (h : (runcmd node cmd).makes m) : node <+: m := by
  induction cmd generalizing node with
  | exec args =>
    cases args with
    | nil => cases h
    | cons arg args => cases h
  | redir cmd file efile mode fd ih =>
    obtain rfl | ⟨r, h⟩ := h
    · exact prefix_rfl
    · dsimp only at h
      split at h
      · cases h
      · exact prefix_of_side (ih h)
  | list left right ihl ihr =>
    obtain ⟨pid, h⟩ := fork1_makes h
    split at h
    · exact prefix_of_side (ihl h)
    · exact prefix_of_side (ihr h)
  | pipe left right ihl ihr =>
    obtain rfl | ⟨r, h⟩ := h
    · exact prefix_rfl
    · dsimp only at h
      split at h
      · cases h
      · obtain ⟨pid, h⟩ := fork1_makes h
        split at h
        · exact prefix_of_side (ihl h)
        · obtain ⟨pid, h⟩ := fork1_makes h
          split at h
          · exact prefix_of_side (ihr h)
          · cases h
  | back cmd ih =>
    obtain ⟨pid, h⟩ := fork1_makes h
    split at h
    · exact prefix_of_side (ih h)
    · cases h

theorem runcmd_once (cmd : Cmd) (node : Node) : (runcmd node cmd).Once := by
  induction cmd generalizing node with
  | exec args =>
    cases args with
    | nil => trivial
    | cons arg args => trivial
  | redir cmd file efile mode fd ih =>
    refine ⟨fun r h => ?_, fun r => ?_⟩
    · dsimp only at h
      split at h
      · cases h
      · exact not_prefix_self (runcmd_makes h)
    · dsimp only
      split
      · trivial
      · exact ih _
  | list left right ihl ihr =>
    refine fork1_once (fun pid m hpid h0 hp => ?_) fun pid => ?_
    · rw [if_neg hpid] at hp
      cases prefix_side (runcmd_makes h0) (runcmd_makes (hp : (runcmd _ right).makes m))
    · split
      · exact ihl _
      · exact ihr _
  | pipe left right ihl ihr =>
    have hright {p0 p1 : Fd} {m : Node} (h : (fork1 (node ++ [.right]) fun pid =>
        if pid = 0 then .close 0 <| .dup p0 <| .close p0 <| .close p1 <| runcmd (node ++ [.right]) right
        else .close p0 <| .close p1 <| .wait <| .wait .exit).makes m) : node ++ [.right] <+: m := by
      obtain ⟨pid, h⟩ := fork1_makes h
      split at h
      · exact runcmd_makes h
      · cases h
    refine ⟨fun r h => ?_, fun r => ?_⟩
    · dsimp only at h
      split at h
      · cases h
      · obtain ⟨pid, h⟩ := fork1_makes h
        split at h
        · exact not_prefix_self (runcmd_makes h)
        · exact not_prefix_self (hright h)
    · dsimp only
      split
      · trivial
      · refine fork1_once (fun pid m hpid h0 hp => ?_) fun pid => ?_
        · rw [if_neg hpid] at hp
          cases prefix_side (runcmd_makes h0) (hright hp)
        · split
          · exact ihl _
          · refine fork1_once (fun pid m hpid _ hp => ?_) fun pid => ?_
            · rw [if_neg hpid] at hp
              cases hp
            · split
              · exact ihr _
              · trivial
  | back cmd ih =>
    refine fork1_once (fun pid m hpid _ hp => ?_) fun pid => ?_
    · rw [if_neg hpid] at hp
      cases hp
    · split
      · exact ih _
      · trivial

/-! ## Where the descriptors come from -/

abbrev Sources := Fd → Option Source

def stdio (std : Nat → Source) : Sources := fun fd => if fd.val < 3 then some (std fd) else none

/-- The write ends belong to the left subtrees of their pipes, but for those in `but`. -/
def Owns (home : Node) (but : Fd → Prop) (a : Sources) : Prop :=
  ∀ fd m, a fd = some (.pipe m true) → m ++ [.left] <+: home ∨ but fd

def Tidy (home : Node) (prog : Prog) (a : Sources) : Prop := Owns home (fun fd => prog.closes fd) a

/-- A process that is `home` for a node and has the descriptors `a` does what it should, and so do those it forks, as long as no
call fails. -/
def Safe (leaves : List Leaf) : Prog → Node → Sources → Prop
  | .close n next, home, a => Tidy home (.close n next) a ∧
    ∀ fd : Fd, n = fd → a fd ≠ none → Safe leaves next home (update a fd none)
  | .dup n next, home, a => Tidy home (.dup n next) a ∧
    ∀ (fd fd' : Fd) src, n = fd → a fd = some src → lowest a = some fd' → Safe leaves next home (update a fd' (some src))
  | .open node file mode next, home, a => Tidy home (.open node file mode next) a ∧
    ∀ fd : Fd, lowest a = some fd → Safe leaves (next fd) home (update a fd (some (.file node mode)))
  | .pipe node next, home, a => Tidy home (.pipe node next) a ∧
    ∀ fd0 fd1, lowest a = some fd0 → lowest (update a fd0 (some (.pipe node false))) = some fd1 →
      Safe leaves (next (some (fd0, fd1))) home
        (update (update a fd0 (some (.pipe node false))) fd1 (some (.pipe node true)))
  | .fork child next, home, a => Tidy home (.fork child next) a ∧
    Safe leaves (next 0) child a ∧ ∀ pid, 0 < pid → Safe leaves (next pid) home a
  | .wait next, home, a => Tidy home (.wait next) a ∧ Safe leaves next home a
  | .exec node args next, home, a => Tidy home (.exec node args next) a ∧ ∃ std, ⟨node, args, std⟩ ∈ leaves ∧ a = stdio std
  | .printf _ _, _, _ => False
  | .exit, home, a => Tidy home .exit a

variable {L : List Leaf} {a : Sources}

theorem Safe.tidy (h : Safe L prog home a) : Tidy home prog a := by
  cases prog with
  | printf text next => cases h
  | exit => exact h
  | close n next => exact h.1
  | dup n next => exact h.1
  | «open» node file mode next => exact h.1
  | pipe node next => exact h.1
  | fork child next => exact h.1
  | wait next => exact h.1
  | exec node args next => exact h.1

theorem Owns.update (h : Owns home but a) (fd : Fd) (o : Option Source)
    (ho : ∀ m, o = some (.pipe m true) → m ++ [.left] <+: home ∨ but fd) : Owns home but (update a fd o) := by
  intro fd' m he
  by_cases hf : fd' = fd
  · subst hf
    rw [update_self] at he
    exact ho m he
  · rw [update_of_ne hf] at he
    exact h fd' m he

theorem Owns.mono {but' : Fd → Prop} {home' : Node} (h : Owns home but a) (hp : home <+: home') (hb : ∀ fd, but fd → but' fd) :
    Owns home' but' a :=
  fun fd m he => (h fd m he).imp (·.trans hp) (hb fd)

theorem Owns.tidy (h : Owns home (fun _ => False) a) : Tidy home prog a := h.mono prefix_rfl fun _ => False.elim

theorem Owns.tidy_but (h : Owns home (· = fd) a) (hc : prog.closes fd) : Tidy home prog a :=
  h.mono prefix_rfl fun _ he => he ▸ hc

/-! ### `runcmd` -/

def piped (std : Nat → Source) (node : Node) : Sources :=
  update (update (stdio std) 3 (some (.pipe node false))) 4 (some (.pipe node true))

theorem safe_close {next : Prog} (fd : Fd) (hn : n = fd) (ht : Tidy home (.close n next) a)
    (h : Safe L next home (update a fd none)) : Safe L (.close n next) home a := by
  refine ⟨ht, fun fd' he _ => ?_⟩
  obtain rfl : fd = fd' := Fin.ext (by omega)
  exact h

theorem safe_dup {next : Prog} (fd fd' : Fd) {src : Source} (hn : n = fd) (ha : a fd = some src) (hl : lowest a = some fd')
    (ht : Tidy home (.dup n next) a) (h : Safe L next home (update a fd' (some src))) : Safe L (.dup n next) home a := by
  refine ⟨ht, fun fd1 fd2 src' he ha' hl' => ?_⟩
  obtain rfl : fd = fd1 := Fin.ext (by omega)
  cases ha.symm.trans ha'
  cases hl.symm.trans hl'
  exact h

theorem safe_fork1 (ht : Tidy home (fork1 child next) a) (h0 : Safe L (next 0) child a)
    (h : ∀ pid, 0 < pid → Safe L (next pid) home a) : Safe L (fork1 child next) home a := by
  refine ⟨ht, h0, fun pid hpid => ?_⟩
  dsimp only
  rw [if_neg (by omega)]
  exact h pid hpid

theorem closes_fork1 (h : ∀ pid, 0 ≤ pid → (next pid).closes fd) : (fork1 child next).closes fd := by
  intro pid hpid
  dsimp only
  rw [if_neg (by omega)]
  exact h pid hpid

theorem owns_piped (hs : Owns home (fun _ => False) (stdio std)) : Owns home (· = 4) (piped std node) := by
  have hs : Owns home (· = 4) (stdio std) := hs.mono prefix_rfl fun _ => False.elim
  exact (hs.update 3 (some (.pipe node false)) nofun).update 4 (some (.pipe node true)) fun m _ => .inr rfl

theorem safe_left {next : Prog} (hs : Owns (node ++ [.left]) (fun _ => False) (stdio std))
    (h : Safe L next (node ++ [.left]) (stdio (update std 1 (.pipe node true)))) :
    Safe L (.close 1 <| .dup (4 : Fd) <| .close (3 : Fd) <| .close (4 : Fd) <| next) (node ++ [.left]) (piped std node) := by
  have hend (m : Node) (he : some (Source.pipe node true) = some (.pipe m true)) : m ++ [.left] <+: node ++ [.left] ∨ False := by
    cases he
    exact .inl prefix_rfl
  have h0 := (hs.update 3 (some (.pipe node false)) nofun).update 4 _ hend
  have h1 := h0.update 1 none nofun
  have h2 := h1.update 1 _ hend
  have h3 := h2.update 3 none nofun
  refine safe_close 1 rfl h0.tidy ?_
  refine safe_dup 4 1 rfl rfl rfl h1.tidy ?_
  refine safe_close 3 rfl h2.tidy ?_
  refine safe_close 4 rfl h3.tidy ?_
  convert h using 1
  funext fd
  fin_cases fd <;> rfl

theorem safe_right {next : Prog} (hs : Owns (node ++ [.right]) (fun _ => False) (stdio std))
    (h : Safe L next (node ++ [.right]) (stdio (update std 0 (.pipe node false)))) :
    Safe L (.close 0 <| .dup (3 : Fd) <| .close (3 : Fd) <| .close (4 : Fd) <| next) (node ++ [.right]) (piped std node) := by
  have h0 : Owns (node ++ [.right]) (· = 4) (piped std node) := owns_piped hs
  have h1 := h0.update 0 none nofun
  have h2 := h1.update 0 (some (.pipe node false)) nofun
  have h3 := h2.update 3 none nofun
  refine safe_close 0 rfl (h0.tidy_but (.inr (.inr (.inl rfl)))) ?_
  refine safe_dup 3 0 rfl rfl rfl (h1.tidy_but (.inr (.inl rfl))) ?_
  refine safe_close 3 rfl (h2.tidy_but (.inr (.inl rfl))) ?_
  refine safe_close 4 rfl (h3.tidy_but (.inl rfl)) ?_
  convert h using 1
  funext fd
  fin_cases fd <;> rfl

theorem safe_parent (hs : Owns home (fun _ => False) (stdio std)) :
    Safe L (.close (3 : Fd) <| .close (4 : Fd) <| .wait <| .wait .exit) home (piped std node) := by
  have h0 : Owns home (· = 4) (piped std node) := owns_piped hs
  have h1 := h0.update 3 none nofun
  refine safe_close 3 rfl (h0.tidy_but (.inr (.inl rfl))) ?_
  refine safe_close 4 rfl (h1.tidy_but (.inl rfl)) ?_
  have he : update (update (piped std node) 3 none) 4 none = stdio std := by
    funext fd
    fin_cases fd <;> rfl
  rw [he]
  exact ⟨hs.tidy, hs.tidy, hs.tidy⟩

theorem lowest_stdio (hf : fd.val < 3) : lowest (update (stdio std) fd none) = some fd := by
  obtain rfl | rfl | rfl : fd = 0 ∨ fd = 1 ∨ fd = 2 := by
    revert hf
    revert fd
    decide
  · rfl
  · rfl
  · rfl

theorem stdio_update (fd : Fd) (src : Source) (hf : fd.val < 3) : update (stdio std) fd (some src) = stdio (update std fd src) := by
  funext fd'
  by_cases he : fd' = fd
  · subst he
    simp [stdio, hf]
  · have hne : fd'.val ≠ fd.val := fun h => he (Fin.ext h)
    simp [stdio, he, hne]

theorem runcmd_safe (cmd : Cmd) {node home : Node} {std : Nat → Source} (hL : ∀ leaf ∈ leaves node std cmd, leaf ∈ L)
    (hs : Owns home (fun _ => False) (stdio std)) (hp : home <+: node) : Safe L (runcmd node cmd) home (stdio std) := by
  induction cmd generalizing node home std with
  | exec args =>
    cases args with
    | nil => exact hs.tidy
    | cons arg args => exact ⟨hs.tidy, std, hL _ (mem_singleton_self _), rfl⟩
  | redir cmd file efile mode fd ih =>
    refine ⟨hs.tidy, fun fd' he ha => ⟨(hs.update fd' none nofun).tidy, fun fd1 hl => ?_⟩⟩
    have hf : fd'.val < 3 := by
      by_contra hf
      exact ha (if_neg hf)
    obtain rfl : fd = fd'.val := by omega
    cases (lowest_stdio hf).symm.trans hl
    dsimp only
    rw [if_neg (by omega), update_idem, stdio_update fd' _ hf]
    refine ih hL ?_ (hp.trans (prefix_append _ _))
    rw [← stdio_update fd' _ hf]
    exact hs.update fd' _ nofun
  | list left right ihl ihr =>
    have hl : ∀ leaf ∈ leaves (node ++ [.left]) std left, leaf ∈ L := fun leaf h => hL leaf (mem_append_left _ h)
    have hr : ∀ leaf ∈ leaves (node ++ [.right]) std right, leaf ∈ L := fun leaf h => hL leaf (mem_append_right _ h)
    refine safe_fork1 hs.tidy ?_ fun pid hpid => ?_
    · rw [if_pos rfl]
      exact ihl hl (hs.mono (hp.trans (prefix_append _ _)) fun _ => id) prefix_rfl
    · rw [if_neg (by omega)]
      exact ⟨hs.tidy, ihr hr hs (hp.trans (prefix_append _ _))⟩
  | pipe left right ihl ihr =>
    have hl : ∀ leaf ∈ leaves (node ++ [.left]) (update std 1 (.pipe node true)) left, leaf ∈ L :=
      fun leaf h => hL leaf (mem_append_left _ h)
    have hr : ∀ leaf ∈ leaves (node ++ [.right]) (update std 0 (.pipe node false)) right, leaf ∈ L :=
      fun leaf h => hL leaf (mem_append_right _ h)
    have hdown (x : Side) : Owns (node ++ [x]) (fun _ => False) (stdio std) :=
      hs.mono (hp.trans (prefix_append _ _)) fun _ => id
    refine ⟨hs.tidy, fun fd0 fd1 h0 h1 => ?_⟩
    obtain rfl : (3 : Fd) = fd0 := Option.some.inj h0
    obtain rfl : (4 : Fd) = fd1 := Option.some.inj h1
    have hown : Owns home (· = 4) (piped std node) := owns_piped hs
    have hcloses (pid : Int) (_ : 0 ≤ pid) : (if pid = 0 then
        Prog.close 0 <| .dup (3 : Fd) <| .close (3 : Fd) <| .close (4 : Fd) <| runcmd (node ++ [.right]) right
        else .close (3 : Fd) <| .close (4 : Fd) <| .wait <| .wait .exit).closes 4 := by
      split
      · exact .inr (.inr (.inl rfl))
      · exact .inr (.inl rfl)
    refine safe_fork1 (hown.tidy_but (closes_fork1 fun pid _ => ?_)) ?_ fun pid hpid => ?_
    · split
      · exact .inr (.inr (.inl rfl))
      · exact closes_fork1 hcloses
    · rw [if_pos rfl]
      refine safe_left (hdown .left) (ihl hl ?_ prefix_rfl)
      rw [show (1 : Nat) = (1 : Fd) from rfl, ← stdio_update 1 _ (by decide)]
      exact (hdown .left).update 1 _ fun m he => by cases he; exact .inl prefix_rfl
    · rw [if_neg (by omega)]
      refine safe_fork1 (hown.tidy_but (closes_fork1 hcloses)) ?_ fun pid hpid => ?_
      · rw [if_pos rfl]
        refine safe_right (hdown .right) (ihr hr ?_ prefix_rfl)
        rw [show (0 : Nat) = (0 : Fd) from rfl, ← stdio_update 0 _ (by decide)]
        exact (hdown .right).update 0 _ nofun
      · rw [if_neg (by omega)]
        exact safe_parent hs
  | back cmd ih =>
    refine safe_fork1 hs.tidy ?_ fun pid hpid => ?_
    · rw [if_pos rfl]
      exact ih hL (hs.mono (hp.trans (prefix_append _ _)) fun _ => id) prefix_rfl
    · rw [if_neg (by omega)]
      exact hs.tidy

end Xv6.Sh
