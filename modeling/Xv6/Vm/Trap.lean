import Xv6.Vm.Lemmas.Clock
import Xv6.Vm.Theorems

/-!
# Page faults (`trap` in `trap.c`)

`trap` sends every page fault to `pgintr`, and only the other unexpected traps to the code that looks at the process and the
privilege level. `pgintr` follows the pointers that `myproc` and `walkpgdir` return without a test.
-/

namespace Xv6.Vm

open Xv6.Lib

attribute [local irreducible] V2P P2V

variable {L : Type} {s : Mem L} {d t : Nat} {w : BitVec 32} {swapin : Mem L → Nat → Nat → Except Stop (Bool × Mem L)}

structure Trapframe where
  /-- `myproc()->pgdir`, if there is a process. -/
  pgdir : Option Nat
  killed : Bool
  /-- `(tf->cs & 3) == DPL_USER`. -/
  user : Bool
  /-- `rcr2()`. -/
  cr2 : Nat

inductive TrapEnd where
  | panic
  | exit
  /-- Back to the instruction that has trapped. -/
  | resume (killed : Bool)
deriving DecidableEq

/-- Force process exit if it has been killed and is in user space. -/
def Trapframe.leave (f : Trapframe) (killed : Bool) : TrapEnd := if killed && f.user then .exit else .resume killed

def Tables (s : Mem L) (d : Nat) : Prop :=
  d < NFRAMES ∧ ∀ va, has ((s.mem d).word (4 * PDX va)) PTE_P → frame ((s.mem d).word (4 * PDX va)) < NFRAMES ∧
    frame ((s.mem d).word (4 * PDX va)) ≠ d

theorem Tables.maps (h : Tables s d) {va pte : Nat} (hw : walk s (kva d) va = .ok pte) (hp : pte ≠ 0) :
    Maps s d (frame ((s.mem d).word (4 * PDX va))) va (pteAt s (kva d) va) := by
  rw [walk_kva h.1] at hw
  by_cases hc : has ((s.mem d).word (4 * PDX va)) PTE_P
  · obtain ⟨ht, hne⟩ := h.2 va hc
    have hm : Maps s d (frame ((s.mem d).word (4 * PDX va))) va _ := ⟨h.1, ht, hne.symm, hc, rfl, rfl⟩
    rw [hm.pteAt]
    exact hm
  · simp only [hc, Bool.false_eq_true, if_false, Except.ok.injEq] at hw
    exact absurd hw.symm hp

end Xv6.Vm
