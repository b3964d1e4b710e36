import Mathlib.Data.List.Basic

/-! # Lists of values under keys -/

namespace Xv6.Lib

open List

namespace Assoc

variable {β : Type} {l l1 l2 : List (Nat × β)} {p : Nat} {o o' : β}

def put (l : List (Nat × β)) (p : Nat) (o : β) : List (Nat × β) := l.map fun q => if q.1 = p then (p, o) else q

def del (l : List (Nat × β)) (p : Nat) : List (Nat × β) := l.filter fun q => q.1 ≠ p

theorem lookup_split (h : l.lookup p = some o) : ∃ l1 l2, l = l1 ++ (p, o) :: l2 ∧ ∀ q ∈ l1, q.1 ≠ p := by
  obtain ⟨l1, l2, hl, h1⟩ := lookup_eq_some_iff.mp h
  exact ⟨l1, l2, hl, fun q hq => (bne_iff_ne.mp (h1 q hq)).symm⟩

theorem mem_of_lookup (h : l.lookup p = some o) : (p, o) ∈ l := by
  obtain ⟨l1, l2, rfl, -⟩ := lookup_split h
  simp

theorem lookup_none (h : l.lookup p = none) : p ∉ l.map Prod.fst := by
  intro hp
  obtain ⟨q, hq, rfl⟩ := mem_map.mp hp
  simpa using lookup_eq_none_iff.mp h q hq

theorem split (hk : (l.map Prod.fst).Nodup) (h : l.lookup p = some o) :
    ∃ l1 l2, l = l1 ++ (p, o) :: l2 ∧ (∀ q ∈ l1, q.1 ≠ p) ∧ ∀ q ∈ l2, q.1 ≠ p := by
  obtain ⟨l1, l2, rfl, hl1⟩ := lookup_split h
  refine ⟨l1, l2, rfl, hl1, ?_⟩
  intro q hq he
  rw [map_append, map_cons, nodup_append] at hk
  exact (nodup_cons.mp hk.2.1).1 (mem_map.mpr ⟨q, hq, he⟩)

theorem put_split (h1 : ∀ q ∈ l1, q.1 ≠ p) (h2 : ∀ q ∈ l2, q.1 ≠ p) : put (l1 ++ (p, o) :: l2) p o' = l1 ++ (p, o') :: l2 := by
  have keep : ∀ l : List (Nat × β), (∀ q ∈ l, q.1 ≠ p) → put l p o' = l := by
    intro l hl
    conv_rhs => rw [← map_id l]
    exact map_congr_left (fun q hq => by simp [hl q hq])
  have h1' := keep l1 h1
  have h2' := keep l2 h2
  unfold put at h1' h2' ⊢
  rw [map_append, map_cons, h1', h2']
  simp

theorem del_split (h1 : ∀ q ∈ l1, q.1 ≠ p) (h2 : ∀ q ∈ l2, q.1 ≠ p) : del (l1 ++ (p, o) :: l2) p = l1 ++ l2 := by
  rw [del, filter_append, filter_cons, filter_eq_self.mpr (by simpa using h1),
    filter_eq_self.mpr (by simpa using h2)]
  simp

theorem lookup_cons (q : Nat × β) : (q :: l).lookup p = if p = q.1 then some q.2 else l.lookup p := by
  rw [List.lookup_cons]
  by_cases h : p = q.1
  · simp [h]
  · simp [h, beq_eq_false_iff_ne.mpr h]

theorem lookup_put_self (h : l.lookup p = some o) : (put l p o').lookup p = some o' := by
  induction l with
  | nil => simp at h
  | cons q l ih =>
    simp only [put, map_cons, lookup_cons] at h ih ⊢
    by_cases hq : p = q.1
    · simp [hq]
    · simpa [Ne.symm hq, hq] using ih (by simpa [hq] using h)

theorem lookup_del_self : (del l p).lookup p = none :=
  lookup_eq_none_iff.mpr fun q hq => bne_iff_ne.mpr (Ne.symm (by simpa using (mem_filter.mp hq).2))

theorem lookup_split_ne {q : Nat} (hq : q ≠ p) : (l1 ++ (p, o) :: l2).lookup q = (l1 ++ l2).lookup q := by
  rw [lookup_append, lookup_append, lookup_cons, if_neg hq]

theorem lookup_of_mem (hk : (l.map Prod.fst).Nodup) (h : (p, o) ∈ l) : l.lookup p = some o := by
  induction l with
  | nil => simp at h
  | cons x l ih =>
    obtain ⟨hx, hk⟩ := nodup_cons.mp hk
    rw [lookup_cons]
    rcases mem_cons.mp h with rfl | h
    · simp
    · rw [if_neg fun he : p = x.1 => hx (he ▸ mem_map_of_mem h), ih hk h]

end Assoc

end Xv6.Lib
