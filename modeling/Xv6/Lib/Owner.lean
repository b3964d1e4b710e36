import Mathlib.Logic.Function.Basic

/-!
# Ownership of numbered resources

A position `p` owns the resource `ref p`, and 0 stands for none. Those below `lo` are reserved.
-/

namespace Xv6.Lib

open Function

/-- Every resource that a position owns is taken, and no two positions own the same one. -/
structure Owned {P : Type} (lo hi : Nat) (taken : Nat → Bool) (ref : P → Nat) : Prop where
  reserved : ∀ x, x < lo → taken x = true
  range : ∀ p, ref p ≠ 0 → lo ≤ ref p ∧ ref p < hi
  taken : ∀ p, ref p ≠ 0 → taken (ref p) = true
  inj : ∀ p q, ref p ≠ 0 → ref p = ref q → p = q

variable {P : Type} {lo hi : Nat} {taken taken' : Nat → Bool} {ref ref' : P → Nat} {b : Nat}

theorem Owned.sub (h : Owned lo hi taken ref) (hs : ∀ p, ref' p = 0 ∨ ref' p = ref p) : Owned lo hi taken ref' := by
  have he : ∀ p, ref' p ≠ 0 → ref' p = ref p := fun p hp => (hs p).resolve_left hp
  refine ⟨h.reserved, fun p hp => ?_, fun p hp => ?_, fun p q hp hpq => ?_⟩
  · rw [he p hp]; exact h.range p (he p hp ▸ hp)
  · rw [he p hp]; exact h.taken p (he p hp ▸ hp)
  · refine h.inj p q (he p hp ▸ hp) ?_
    rw [← he p hp, ← he q (hpq ▸ hp), hpq]

theorem Owned.mono (h : Owned lo hi taken ref) (ht : ∀ x, x < hi → taken x = true → taken' x = true) (hlo : lo ≤ hi) :
    Owned lo hi taken' ref :=
  ⟨fun x hx => ht x (by omega) (h.reserved x hx), h.range, fun p hp => ht _ (h.range p hp).2 (h.taken p hp), h.inj⟩

theorem Owned.fresh (h : Owned lo hi taken ref) (hlo : 0 < lo) (hb : taken b = false) (p : P) : ref p ≠ b := by
  rintro rfl
  by_cases hp : ref p = 0
  · rw [hp, h.reserved 0 hlo] at hb; cases hb
  · rw [h.taken p hp] at hb; cases hb

variable [DecidableEq P] {p : P}

theorem Owned.own (h : Owned lo hi taken ref) (hf : ∀ q, ref q ≠ b) (hb : taken b = true) (hl : lo ≤ b) (hh : b < hi) :
    Owned lo hi taken (update ref p b) := by
  refine ⟨h.reserved, fun q hq => ?_, fun q hq => ?_, fun q r hq hqr => ?_⟩
  · by_cases he : q = p
    · subst he; rw [update_self]; exact ⟨hl, hh⟩
    · rw [update_of_ne he] at hq ⊢; exact h.range q hq
  · by_cases he : q = p
    · subst he; rw [update_self]; exact hb
    · rw [update_of_ne he] at hq ⊢; exact h.taken q hq
  · by_cases he : q = p
    · subst he
      by_cases hr : r = q
      · exact hr.symm
      · rw [update_self, update_of_ne hr] at hqr
        exact absurd hqr.symm (hf r)
    · rw [update_of_ne he] at hq hqr
      by_cases hr : r = p
      · subst hr; rw [update_self] at hqr; exact absurd hqr (hf q)
      · rw [update_of_ne hr] at hqr; exact h.inj q r hq hqr

theorem Owned.free (h : Owned lo hi taken ref) (hp : ref p ≠ 0)
    (ht : ∀ x, taken' x = (taken x && x ≠ ref p)) : Owned lo hi taken' (update ref p 0) := by
  refine ⟨fun x hx => ?_, fun q hq => ?_, fun q hq => ?_, fun q r hq hqr => ?_⟩
  · have : x ≠ ref p := by have := (h.range p hp).1; omega
    rw [ht x, h.reserved x hx]; simp [this]
  · by_cases he : q = p
    · subst he; rw [update_self] at hq; exact absurd rfl hq
    · rw [update_of_ne he] at hq ⊢; exact h.range q hq
  · by_cases he : q = p
    · subst he; rw [update_self] at hq; exact absurd rfl hq
    · rw [update_of_ne he] at hq ⊢
      have : ref q ≠ ref p := fun e => he (h.inj q p hq e)
      rw [ht, h.taken q hq]; simp [this]
  · by_cases he : q = p
    · subst he; rw [update_self] at hq; exact absurd rfl hq
    · rw [update_of_ne he] at hq hqr
      by_cases hr : r = p
      · subst hr; rw [update_self] at hqr; exact absurd hqr hq
      · rw [update_of_ne hr] at hqr; exact h.inj q r hq hqr

end Xv6.Lib
