import Mathlib.Algebra.BigOperators.Group.Finset.Piecewise

/-!
# Counting references

Finitely many positions hold at most one object each, and an object's reference count is the number of its positions.
-/

namespace Xv6.Lib

open Function Finset

variable {ι α : Type} [Fintype ι] [DecidableEq ι] [DecidableEq α] {g : ι → Option α} {a b : α} {i : ι}

def holders (g : ι → Option α) (a : α) : Nat := (univ.filter fun i => g i = some a).card

theorem holders_eq_sum : holders g a = ∑ i, if g i = some a then 1 else 0 := card_filter ..

theorem holders_update (x : Option α) :
    holders (update g i x) a + (if g i = some a then 1 else 0) = holders g a + if x = some a then 1 else 0 := by
  have hrest : ∑ j ∈ univ.erase i, (if update g i x j = some a then 1 else 0) =
      ∑ j ∈ univ.erase i, if g j = some a then 1 else 0 := by
    refine sum_congr rfl fun j hj => ?_
    rw [update_of_ne (ne_of_mem_erase hj)]
  rw [holders_eq_sum, holders_eq_sum, ← add_sum_erase _ _ (mem_univ i), hrest,
    ← add_sum_erase (s := univ) (fun j => if g j = some a then 1 else 0) (mem_univ i), update_self]
  omega

theorem holders_set (hi : g i = none) (x : α) : holders (update g i (some x)) a = holders g a + if x = a then 1 else 0 := by
  have := holders_update (g := g) (i := i) (a := a) (some x)
  simpa [hi] using this

theorem holders_clear {x : α} (hi : g i = some x) : holders (update g i none) a + (if x = a then 1 else 0) = holders g a := by
  have := holders_update (g := g) (i := i) (a := a) none
  simpa [hi] using this

theorem holders_pos : 0 < holders g a ↔ ∃ i, g i = some a := by
  rw [holders, card_pos]
  simp [Finset.Nonempty]

theorem holders_none (h : ∀ i, g i = none) : holders g a = 0 := by
  rw [holders, card_eq_zero, filter_eq_empty_iff]
  intro i _
  rw [h i]
  nofun

def occupied (g : ι → Option α) : Nat := (univ.filter fun i => (g i).isSome).card

theorem card_held_le [Fintype α] : (univ.filter fun a => 0 < holders g a).card ≤ occupied g := by
  have hsub : (univ.filter fun a => 0 < holders g a).map .some ⊆ (univ.filter fun i => (g i).isSome).image g := by
    intro x hx
    obtain ⟨a, ha, rfl⟩ := mem_map.mp hx
    obtain ⟨i, hi⟩ := holders_pos.mp (mem_filter.mp ha).2
    exact mem_image.mpr ⟨i, by simp [hi], hi⟩
  calc (univ.filter fun a => 0 < holders g a).card
      = ((univ.filter fun a => 0 < holders g a).map .some).card := (card_map _).symm
    _ ≤ ((univ.filter fun i => (g i).isSome).image g).card := card_le_card hsub
    _ ≤ occupied g := card_image_le

omit [DecidableEq ι] [DecidableEq α] in
theorem occupied_le {p : ι → Bool} (h : ∀ i, g i ≠ none → p i = true) : occupied g ≤ (univ.filter fun i => p i).card := by
  refine card_le_card fun i hi => ?_
  have := (mem_filter.mp hi).2
  exact mem_filter.mpr ⟨mem_univ i, h i (Option.isSome_iff_ne_none.mp this)⟩

omit [DecidableEq ι] [DecidableEq α] in
theorem occupied_lt {p : ι → Bool} (h : ∀ i, g i ≠ none → p i = true) (hp : p i = true) (hn : g i = none) :
    occupied g < (univ.filter fun i => p i).card := by
  refine card_lt_card ⟨fun j hj => ?_, fun hsub => ?_⟩
  · have := (mem_filter.mp hj).2
    exact mem_filter.mpr ⟨mem_univ j, h j (Option.isSome_iff_ne_none.mp this)⟩
  · have := mem_filter.mp (hsub (mem_filter.mpr ⟨mem_univ i, hp⟩))
    simp [hn] at this

end Xv6.Lib
