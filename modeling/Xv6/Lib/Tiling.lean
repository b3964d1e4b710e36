import Mathlib.Data.List.Basic
import Mathlib.Data.List.Pairwise

/-!
# Spans of memory

Two lists of spans cover the same memory, each address as often, exactly if they agree on `cover`.
-/

namespace Xv6.Lib

abbrev Span : Type := Nat × Nat

def cover (l : List Span) (a : Nat) : Nat := l.countP fun x => x.1 ≤ a ∧ a < x.1 + x.2

def Span.Disjoint (x y : Span) : Prop := x.1 + x.2 ≤ y.1 ∨ y.1 + y.2 ≤ x.1

variable {l l' : List Span} {x : Span} {a : Nat}

@[simp] theorem cover_nil : cover [] a = 0 := rfl

theorem cover_cons : cover (x :: l) a = cover l a + if x.1 ≤ a ∧ a < x.1 + x.2 then 1 else 0 := by
  simp [cover, List.countP_cons]

@[simp] theorem cover_append : cover (l ++ l') a = cover l a + cover l' a := List.countP_append

theorem cover_perm (h : l.Perm l') : cover l a = cover l' a := h.countP_eq _

theorem cover_join (s m n : Nat) : cover [(s, m), (s + m, n)] a = cover [(s, m + n)] a := by
  simp only [cover_cons, cover_nil]
  split_ifs <;> omega

theorem cover_pos : 0 < cover l a ↔ ∃ x ∈ l, x.1 ≤ a ∧ a < x.1 + x.2 := by
  simp [cover, List.countP_pos_iff]

theorem pairwise_disjoint (h : ∀ a, cover l a ≤ 1) (hp : ∀ x ∈ l, 0 < x.2) : l.Pairwise Span.Disjoint := by
  induction l with
  | nil => exact .nil
  | cons x l ih =>
    refine .cons (fun y hy => ?_) (ih (fun a => ?_) fun y hy => hp y (.tail _ hy))
    · -- the later start of two spans that overlap is covered twice
      by_contra hd
      have hx := hp x (.head _)
      have hyp := hp y (.tail _ hy)
      have hpos : 0 < cover l (max x.1 y.1) := cover_pos.mpr ⟨y, hy, by simp only [Span.Disjoint] at hd; omega⟩
      have hc := h (max x.1 y.1)
      rw [cover_cons, if_pos (by simp only [Span.Disjoint] at hd; omega)] at hc
      omega
    · have := h a
      rw [cover_cons] at this
      omega

instance : Std.Symm Span.Disjoint := ⟨fun _ _ h => Or.symm h⟩

end Xv6.Lib
