/-!
# Computations that record what they touch

A `Traced α β` adds to a list of `α` whether it fails or not.
-/

namespace Xv6.Lib

variable {α β γ : Type}

def Traced (α β : Type) : Type := List α → Option β × List α

namespace Traced

def run (x : Traced α β) (tr : List α) : Option β × List α := x tr

def result (x : Traced α β) : Option β × List α := x.run []

def fail : Traced α β := fun tr => (none, tr)

def touch (a : α) : Traced α Unit := fun tr => (some (), tr ++ [a])

instance : Monad (Traced α) where
  pure b := fun tr => (some b, tr)
  bind x f := fun tr =>
    match x tr with
    | (some b, tr) => f b tr
    | (none, tr) => (none, tr)

@[simp] theorem run_pure (b : β) (tr : List α) : (pure b : Traced α β).run tr = (some b, tr) := rfl

@[simp] theorem run_fail (tr : List α) : (fail : Traced α β).run tr = (none, tr) := rfl

@[simp] theorem run_touch (a : α) (tr : List α) : (touch a).run tr = (some (), tr ++ [a]) := rfl

@[simp] theorem run_bind (x : Traced α β) (f : β → Traced α γ) (tr : List α) :
    (x >>= f).run tr =
      match x.run tr with
      | (some b, tr) => (f b).run tr
      | (none, tr) => (none, tr) := rfl

end Traced

/-! ## Bounds on what is touched -/

def Within (P : α → Prop) (Q : β → Prop) (x : Traced α β) : Prop :=
  ∀ tr, (∀ a ∈ tr, P a) → (∀ a ∈ (x.run tr).2, P a) ∧ ∀ b, (x.run tr).1 = some b → Q b

namespace Within

variable {P : α → Prop} {Q Q' : β → Prop} {R : γ → Prop} {x : Traced α β}

theorem ret {b : β} (h : Q b) : Within P Q (pure b) := by
  intro tr ht
  refine ⟨ht, fun b' hb => ?_⟩
  simp only [Traced.run_pure, Option.some.injEq] at hb
  exact hb ▸ h

theorem fail : Within P Q (Traced.fail : Traced α β) := fun _ ht => ⟨ht, fun _ hb => by cases hb⟩

theorem touch {a : α} (h : P a) : Within P (fun _ => True) (Traced.touch a) := by
  intro tr ht
  refine ⟨fun a' ha => ?_, fun _ _ => trivial⟩
  simp only [Traced.run_touch, List.mem_append, List.mem_singleton] at ha
  cases ha with
  | inl ha => exact ht a' ha
  | inr ha => exact ha ▸ h

theorem bind {f : β → Traced α γ} (hx : Within P Q x) (hf : ∀ b, Q b → Within P R (f b)) : Within P R (x >>= f) := by
  intro tr ht
  obtain ⟨htr, hq⟩ := hx tr ht
  rw [Traced.run_bind]
  cases hr : x.run tr with
  | mk o tr' =>
    rw [hr] at htr hq
    cases o with
    | none => exact ⟨htr, fun _ h => by cases h⟩
    | some b => exact hf b (hq b rfl) tr' htr

theorem result (hx : Within P Q x) : (∀ a ∈ x.result.2, P a) ∧ ∀ b, x.result.1 = some b → Q b := hx [] (by simp)

end Within

end Xv6.Lib
