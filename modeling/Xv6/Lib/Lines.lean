import Mathlib.Data.List.Basic

/-!
# Lines of a text

`complete nl l` are the lines of `l` that end with the separator `nl`, without it, and `remainder nl l` is what follows the
last separator.
-/

namespace Xv6.Lib

open List

variable {α : Type} [DecidableEq α] {nl : α} {a b l : List α}

def splitLines (nl : α) : List α → List (List α) × List α
  | [] => ([], [])
  | c :: l =>
    let r := splitLines nl l
    if c = nl then ([] :: r.1, r.2)
    else
      match r.1 with
      | [] => ([], c :: r.2)
      | a :: ls => ((c :: a) :: ls, r.2)

def complete (nl : α) (l : List α) : List (List α) := (splitLines nl l).1

def remainder (nl : α) (l : List α) : List α := (splitLines nl l).2

theorem splitLines_not_mem (h : nl ∉ l) : splitLines nl l = ([], l) := by
  induction l with
  | nil => rfl
  | cons c l ih =>
    simp only [mem_cons, not_or] at h
    simp [splitLines, ih h.2, if_neg (Ne.symm h.1)]

theorem splitLines_append (h : nl ∉ a) (b : List α) : splitLines nl (a ++ nl :: b) = (a :: complete nl b, remainder nl b) := by
  induction a with
  | nil => simp only [nil_append, splitLines, if_true, complete, remainder]
  | cons c a ih =>
    simp only [mem_cons, not_or] at h
    simp [splitLines, ih h.2, if_neg (Ne.symm h.1)]

@[simp] theorem complete_not_mem (h : nl ∉ l) : complete nl l = [] := by rw [complete, splitLines_not_mem h]

@[simp] theorem remainder_not_mem (h : nl ∉ l) : remainder nl l = l := by rw [remainder, splitLines_not_mem h]

@[simp] theorem complete_append (h : nl ∉ a) (b : List α) : complete nl (a ++ nl :: b) = a :: complete nl b := by
  rw [complete, splitLines_append h]

@[simp] theorem remainder_append (h : nl ∉ a) (b : List α) : remainder nl (a ++ nl :: b) = remainder nl b := by
  rw [remainder, splitLines_append h]

@[elab_as_elim]
theorem lines_induction {motive : List α → Prop} (nl : α) (last : ∀ l, nl ∉ l → motive l)
    (line : ∀ a b, nl ∉ a → motive b → motive (a ++ nl :: b)) (l : List α) : motive l := by
  induction hn : l.length using Nat.strongRecOn generalizing l with
  | ind n ih =>
    by_cases h : nl ∈ l
    · obtain ⟨a, b, rfl, ha⟩ := eq_append_cons_of_mem h
      simp only [length_append, length_cons] at hn
      exact line a b ha (ih b.length (by omega) b rfl)
    · exact last l h

theorem remainder_no_line (nl : α) (l : List α) : nl ∉ remainder nl l := by
  induction l using lines_induction nl with
  | last l h => rwa [remainder_not_mem h]
  | line a b ha ih => rwa [remainder_append ha]

theorem complete_append_append (nl : α) (l r : List α) : complete nl (l ++ r) = complete nl l ++ complete nl (remainder nl l ++ r) := by
  induction l using lines_induction nl with
  | last l h => rw [complete_not_mem h, remainder_not_mem h, nil_append]
  | line a b ha ih =>
    rw [complete_append ha, remainder_append ha, append_assoc, cons_append, complete_append ha, ih, cons_append]

theorem flatMap_complete (nl : α) (l : List α) : (complete nl l).flatMap (· ++ [nl]) ++ remainder nl l = l := by
  induction l using lines_induction nl with
  | last l h => rw [complete_not_mem h, remainder_not_mem h]; rfl
  | line a b ha ih =>
    rw [complete_append ha, remainder_append ha]
    simp only [flatMap_cons, append_assoc, cons_append, nil_append]
    rw [ih]

theorem length_remainder_le (nl : α) (l : List α) : (remainder nl l).length ≤ l.length := by
  have := congrArg length (flatMap_complete nl l)
  rw [length_append] at this
  omega

end Xv6.Lib
