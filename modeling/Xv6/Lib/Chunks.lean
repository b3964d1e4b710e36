import Xv6.Lib.Extent

/-!
# Consecutive writes

A chunk is data with the offset at which it was written.
-/

namespace Xv6.Lib

open List

variable {α : Type}

structure Chunk (α : Type) where
  off : Nat
  data : List α

namespace Chunk

def join (l : List (Chunk α)) : List α := l.flatMap (·.data)

/-- Each chunk begins where the one before it ends, the first one at `a`. -/
def Consecutive (a : Nat) : List (Chunk α) → Prop
  | [] => True
  | c :: l => c.off = a ∧ Consecutive (a + c.data.length) l

variable {a : Nat} {c : Chunk α} {l : List (Chunk α)}

@[simp] theorem join_nil : join ([] : List (Chunk α)) = [] := rfl

@[simp] theorem join_cons : join (c :: l) = c.data ++ join l := flatMap_cons

@[simp] theorem join_append (l l' : List (Chunk α)) : join (l ++ l') = join l ++ join l' := flatMap_append

theorem Consecutive.snoc (h : Consecutive a l) (hc : c.off = a + (join l).length) : Consecutive a (l ++ [c]) := by
  induction l generalizing a with
  | nil => exact ⟨by simpa using hc, trivial⟩
  | cons x l ih =>
    refine ⟨h.1, ih h.2 ?_⟩
    rw [hc, join_cons, length_append, Nat.add_assoc]

theorem Consecutive.ge (h : Consecutive a l) : ∀ x ∈ l, a ≤ x.off := by
  induction l generalizing a with
  | nil => simp
  | cons y l ih =>
    intro x hx
    rcases mem_cons.mp hx with rfl | hx
    · exact Nat.le_of_eq h.1.symm
    · exact Nat.le_trans (Nat.le_add_right _ _) (ih h.2 x hx)

theorem Consecutive.pairwise (h : Consecutive a l) : l.Pairwise fun x y => x.off + x.data.length ≤ y.off := by
  induction l generalizing a with
  | nil => exact .nil
  | cons x l ih =>
    refine .cons (fun y hy => ?_) (ih h.2)
    rw [h.1]
    exact h.2.ge y hy

theorem Consecutive.read {content : List α} (h : Consecutive a l)
    (hr : readAt content a (join l).length = join l) : ∀ x ∈ l, readAt content x.off x.data.length = x.data := by
  induction l generalizing a with
  | nil => simp
  | cons y l ih =>
    rw [join_cons, length_append, readAt, take_add, drop_drop] at hr
    have hlen : (take y.data.length (drop a content)).length = y.data.length := by
      have := congrArg length hr
      simp only [length_append, length_take, length_drop] at this ⊢
      omega
    obtain ⟨hy, hl⟩ := append_inj hr hlen
    intro x hx
    rcases mem_cons.mp hx with rfl | hx
    · rw [h.1]
      exact hy
    · exact ih h.2 hl x hx

end Chunk

theorem readAt_writeAt_end {content src : List α} {a k : Nat} (h : a + k ≤ content.length) :
    readAt (writeAt content (a + k) src) a (k + src.length) = readAt content a k ++ src := by
  have hlen : (take k (drop a content)).length = k := by
    simp only [length_take, length_drop]
    omega
  have hdrop : drop a (take (a + k) content) = take k (drop a content) := by
    rw [drop_take, Nat.add_sub_cancel_left]
  rw [writeAt, readAt, readAt, append_assoc, drop_append_of_le_length (by simp; omega), hdrop, take_append,
    hlen, Nat.add_sub_cancel_left, take_left' rfl, take_of_length_le (by omega)]

end Xv6.Lib
