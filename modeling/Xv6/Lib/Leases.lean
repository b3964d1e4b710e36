import Mathlib.Data.List.Nodup
import Xv6.Lib.Assoc

/-!
# Counted references to objects with a lock

An object counts the references to it, and at most one of them holds its lock.
-/

namespace Xv6.Lib

open List

variable {ι ρ : Type} {obj : ρ → ι} {pid : ρ → Nat} {holds : ρ → Bool} {count count' : ι → Nat} {lock lock' : ι → Option Nat}
variable {l l1 l2 : List (Nat × ρ)} {c : Nat} {r r' : ρ}

theorem mem_split {q : Nat × ρ} (hq : q ∈ l1 ++ (c, r) :: l2) : q = (c, r) ∨ q ∈ l1 ++ l2 := by
  rwa [mem_append, mem_cons, or_left_comm, ← mem_append] at hq

theorem mem_of_split {q : Nat × ρ} (hq : q ∈ l1 ++ l2) : q ∈ l1 ++ (c, r) :: l2 :=
  (List.Sublist.append_left (sublist_cons_self _ _) _).subset hq

variable [DecidableEq ι]

structure Leases (obj : ρ → ι) (pid : ρ → Nat) (holds : ρ → Bool) (count : ι → Nat) (lock : ι → Option Nat)
    (l : List (Nat × ρ)) : Prop where
  keys : (l.map Prod.fst).Nodup
  count : ∀ i, count i = l.countP fun q => obj q.2 = i
  lock : ∀ q ∈ l, holds q.2 → lock (obj q.2) = some (pid q.2)
  excl : l.Pairwise fun q q' => obj q.2 = obj q'.2 → ¬ (holds q.2 ∧ holds q'.2)

theorem Leases.counted (h : Leases obj pid holds count lock l) {q : Nat × ρ} (hq : q ∈ l) : 0 < count (obj q.2) := by
  rw [h.count, countP_pos_iff]
  exact ⟨q, hq, by simp⟩

theorem Leases.alone (h : Leases obj pid holds count lock (l1 ++ (c, r) :: l2)) (hr : holds r ∨ lock (obj r) = none)
    {q : Nat × ρ} (hq : q ∈ l1 ++ l2) (ho : obj q.2 = obj r) : holds q.2 = false := by
  rw [Bool.eq_false_iff]
  intro hh
  rcases hr with hr | hr
  · have hx := h.excl
    rw [pairwise_append, pairwise_cons] at hx
    rcases mem_append.mp hq with hq | hq
    · exact hx.2.2 q hq _ mem_cons_self ho ⟨hh, hr⟩
    · exact hx.2.1.1 q hq ho.symm ⟨hr, hh⟩
  · have := h.lock q (mem_of_split hq) hh
    rw [ho, hr] at this
    cases this

/-- The owner of a reference does something with it. It may change the lock if it holds it, or if the lock is free. -/
theorem Leases.use (h : Leases obj pid holds count lock (l1 ++ (c, r) :: l2)) (hr : holds r ∨ lock (obj r) = none)
    (ho : obj r' = obj r) (hc : ∀ i, count' i = count i) (hl : ∀ i, i ≠ obj r → lock' i = lock i)
    (hs : holds r' → lock' (obj r) = some (pid r')) : Leases obj pid holds count' lock' (l1 ++ (c, r') :: l2) := by
  have halone := fun q => h.alone hr (q := q)
  refine ⟨by simpa using h.keys, fun i => ?_, fun q hq hh => ?_, ?_⟩
  · rw [hc, h.count]
    simp [countP_cons, ho]
  · rcases mem_split hq with rfl | hq
    · rw [ho]
      exact hs hh
    · have hne : obj q.2 ≠ obj r := fun he => by
        rw [halone q hq he] at hh
        cases hh
      rw [hl _ hne]
      exact h.lock q (mem_of_split hq) hh
  · have hx := h.excl
    rw [pairwise_append, pairwise_cons] at hx
    refine pairwise_append.mpr ⟨hx.1, pairwise_cons.mpr ⟨?_, hx.2.1.2⟩, ?_⟩
    · rintro q hq he ⟨_, hh⟩
      rw [halone q (mem_append_right _ hq) (he.symm.trans ho)] at hh
      cases hh
    · intro q hq q' hq' he hh
      rcases mem_cons.mp hq' with rfl | hq'
      · rw [halone q (mem_append_left _ hq) (he.trans ho)] at hh
        cases hh.1
      · exact hx.2.2 q hq q' (mem_cons_of_mem _ hq') he hh

theorem Leases.cons (h : Leases obj pid holds count lock l) (hk : c ∉ l.map Prod.fst) (hr : holds r = false)
    (hc : ∀ i, count' i = count i + if obj r = i then 1 else 0) (hl : ∀ i, count i ≠ 0 → lock' i = lock i) :
    Leases obj pid holds count' lock' ((c, r) :: l) := by
  refine ⟨nodup_cons.mpr ⟨hk, h.keys⟩, fun i => ?_, fun q hq hh => ?_, pairwise_cons.mpr ⟨?_, h.excl⟩⟩
  · rw [hc, h.count, countP_cons]
    simp
  · rcases mem_cons.mp hq with rfl | hq
    · rw [hr] at hh
      cases hh
    · rw [hl _ (Nat.pos_iff_ne_zero.mp (h.counted hq))]
      exact h.lock q hq hh
  · rintro q _ _ ⟨hh, _⟩
    rw [hr] at hh
    cases hh

theorem Leases.drop (h : Leases obj pid holds count lock (l1 ++ (c, r) :: l2)) (hc : ∀ i, count' i = count i - if obj r = i then 1 else 0)
    (hl : ∀ i, lock' i = lock i) : Leases obj pid holds count' lock' (l1 ++ l2) := by
  have hsub : (l1 ++ l2).Sublist (l1 ++ (c, r) :: l2) := List.Sublist.append_left (sublist_cons_self _ _) _
  refine ⟨h.keys.sublist (hsub.map _), fun i => ?_, fun q hq hh => ?_, h.excl.sublist hsub⟩
  · rw [hc, h.count]
    simp only [countP_append, countP_cons, decide_eq_true_eq]
    omega
  · rw [hl]
    exact h.lock q (hsub.subset hq) hh

end Xv6.Lib
