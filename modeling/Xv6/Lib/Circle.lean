import Mathlib.Data.List.Rotate

/-!
# Circular linked lists

`next` leads from each element of a list to the one after it, and from the last to the first.
-/

namespace Xv6.Lib

open Function List

variable {α : Type} {f g : α → α} {c1 c2 : List α} {p q b : α}

def Circle (f : α → α) (c : List α) : Prop := c.map f = c.rotate 1

/-- Following `f` from `a` to `z` passes the elements of a list. -/
def Walk (f : α → α) : α → List α → α → Prop
  | a, [], z => a = z
  | a, x :: l, z => a = x ∧ Walk f (f x) l z

theorem walk_iff {c : List α} : Walk f p c q ↔ p :: c.map f = c ++ [q] := by
  induction c generalizing p with
  | nil => simp [Walk]
  | cons x c ih => simp [Walk, ih]

namespace Circle

theorem congr {c : List α} (h : Circle f c) (he : ∀ p ∈ c, g p = f p) : Circle g c :=
  (map_congr_left he).trans h

theorem cons_iff {c : List α} : Circle f (p :: c) ↔ f p :: c.map f = c ++ [p] := by
  rw [Circle, map_cons, rotate_cons_succ, rotate_zero]

theorem turn (h : Circle f (c1 ++ c2)) : Circle f (c2 ++ c1) := by
  have hr : (c1 ++ c2).rotate c1.length = c2 ++ c1 := rotate_append_length_eq c1 c2
  rw [Circle, ← hr, map_rotate, h, rotate_rotate, rotate_rotate, Nat.add_comm]

theorem next_mem {c : List α} (h : Circle f c) (hp : p ∈ c) : f p ∈ c := by
  have hm : f p ∈ c.map f := mem_map_of_mem hp
  rwa [h, mem_rotate] at hm

theorem next (h : Circle f (c1 ++ p :: q :: c2)) : f p = q := by
  have ht := h.turn
  rw [cons_append, cons_iff] at ht
  exact (cons.inj ht).1

theorem next_of_eq {c l : List α} (h : Circle f (c ++ [p])) (he : c ++ [p] = q :: l) : f p = q := by
  have ht : f p :: c.map f = c ++ [p] := cons_iff.mp h.turn
  rw [he] at ht
  exact (cons.inj ht).1

theorem next_last (h : Circle f (q :: c1 ++ [p])) : f p = q := h.next_of_eq rfl

theorem walk {c : List α} (h : Circle f (p :: c)) : Walk f (f p) c p := walk_iff.mpr (cons_iff.mp h)

variable [DecidableEq α]

theorem insert (h : Circle f (c1 ++ p :: c2)) (hb : b ∉ c1 ++ p :: c2) (hn : (c1 ++ p :: c2).Nodup) :
    Circle (update (update f b (f p)) p b) (c1 ++ p :: b :: c2) := by
  have hpb : b ≠ p := fun he => hb (he ▸ by simp)
  have ht : Circle f (p :: (c2 ++ c1)) := h.turn
  have hrest : ∀ x ∈ c2 ++ c1, update (update f b (f p)) p b x = f x := by
    intro x hx
    have hx' : x ∈ c1 ++ c2 := by simpa [or_comm] using hx
    have hxp : x ≠ p := fun he => (nodup_middle.mp hn).notMem (he ▸ hx')
    have hxb : x ≠ b := fun he => hb (he ▸ perm_middle.symm.subset (.tail _ hx'))
    rw [update_of_ne hxp, update_of_ne hxb]
  have hc : Circle (update (update f b (f p)) p b) (p :: b :: (c2 ++ c1)) := by
    rw [cons_iff, map_cons, map_congr_left hrest, update_self, update_of_ne hpb,
      update_self, cons_iff.mp ht]
    rfl
  exact turn (show Circle _ ((p :: b :: c2) ++ c1) from hc)

theorem remove (h : Circle f (c1 ++ p :: q :: c2)) (hn : (c1 ++ p :: q :: c2).Nodup) : Circle (update f p (f q)) (c1 ++ p :: c2) := by
  have ht : Circle f (p :: q :: (c2 ++ c1)) := h.turn
  have hrest : ∀ x ∈ c2 ++ c1, update f p (f q) x = f x := by
    intro x hx
    have hx' : x ∈ c1 ++ q :: c2 := by
      rcases mem_append.mp hx with hx | hx <;> simp [hx]
    have hxp : x ≠ p := fun he => (nodup_middle.mp hn).notMem (he ▸ hx')
    rw [update_of_ne hxp]
  have hc : Circle (update f p (f q)) (p :: (c2 ++ c1)) := by
    rw [cons_iff, map_congr_left hrest, update_self]
    exact (cons.inj (cons_iff.mp ht)).2
  exact turn (show Circle _ ((p :: c2) ++ c1) from hc)

end Circle

/-! ## Lists linked both ways -/

structure Linked (next prev : α → α) (c : List α) : Prop where
  next : Circle next c
  prev : Circle prev c.reverse

namespace Linked

variable {next prev : α → α} {c : List α}

theorem turn (h : Linked next prev (c1 ++ c2)) : Linked next prev (c2 ++ c1) := by
  refine ⟨h.next.turn, ?_⟩
  have hr := h.prev
  rw [reverse_append] at hr ⊢
  exact hr.turn

variable [DecidableEq α]

theorem unlink (h : Linked next prev (b :: c)) (hn : (b :: c).Nodup) (hc : c ≠ []) :
    Linked (update next (prev b) (next b)) (update prev (next b) (prev b)) c := by
  have hnext : Circle next (c ++ [b]) := Circle.turn (show Circle next ([b] ++ c) from h.next)
  have hprev : Circle prev (c.reverse ++ [b]) := reverse_cons ▸ h.prev
  constructor
  · obtain ⟨c, p, rfl⟩ := (eq_nil_or_concat' c).resolve_left hc
    rw [hprev.next_of_eq (q := p) (l := c.reverse ++ [b]) (by simp)]
    rw [append_assoc] at hnext
    have hd : (c ++ [p] ++ [b]).Nodup := perm_append_comm.nodup (show ([b] ++ (c ++ [p])).Nodup from hn)
    exact hnext.remove (by simpa using hd)
  · obtain ⟨q, c, rfl⟩ := exists_cons_of_ne_nil hc
    rw [hnext.next_of_eq (q := q) rfl]
    rw [reverse_cons, append_assoc] at hprev
    rw [reverse_cons]
    exact hprev.remove (by simpa using nodup_reverse.mpr hn)

theorem link (h : Linked next prev (p :: c)) (hn : (p :: c).Nodup) (hb : b ∉ p :: c) :
    Linked (update (update next b (next p)) p b) (update (update prev b p) (next p) b) (p :: b :: c) := by
  refine ⟨Circle.insert (show Circle next ([] ++ p :: c) from h.next) hb hn, ?_⟩
  -- the element after `p`, which is `p` itself if there is no other
  obtain ⟨q, m, hm⟩ : ∃ q m, c ++ [p] = q :: m := exists_cons_of_ne_nil (by simp)
  have hr : p :: c.reverse = m.reverse ++ [q] := by rw [← reverse_cons, ← hm]; simp
  have hback : Circle prev (c.reverse ++ [p]) := reverse_cons ▸ h.prev
  have hprev : Circle prev (m.reverse ++ [q]) := hr ▸ hback.turn
  have hi := hprev.insert (b := b) (by rw [← hr]; simpa using hb) (by rw [← hr]; simpa using hn)
  have hnext : Circle next (c ++ [p]) := Circle.turn (show Circle next ([p] ++ c) from h.next)
  rw [hnext.next_of_eq hm]
  rw [hprev.next_of_eq hr.symm, ← singleton_append, ← append_assoc, ← hr] at hi
  have ht := Circle.turn (show Circle _ ([p] ++ (c.reverse ++ [b])) from hi)
  simpa using ht

end Linked

end Xv6.Lib
