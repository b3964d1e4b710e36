import Mathlib.Computability.Language

/-!
# Words at the start of a text

`Starts L R w`: the text `w` starts with a word of the language `L`, and `R` holds of what follows it.
-/

namespace Xv6.Lib

open Computability

variable {α : Type} {L M : Language α} {R : List α → Prop} {p : α → Prop} {a : α} {w : List α}

def Starts (L : Language α) (R : List α → Prop) (w : List α) : Prop := ∃ u ∈ L, ∃ v, u ++ v = w ∧ R v

def letter (p : α → Prop) : Language α := { w | ∃ a, p a ∧ w = [a] }

@[simp] theorem mem_letter : w ∈ letter p ↔ ∃ a, p a ∧ w = [a] := Iff.rfl

@[simp] theorem starts_one : Starts 1 R w ↔ R w := by
  simp [Starts]

theorem starts_add : Starts (L + M) R w ↔ Starts L R w ∨ Starts M R w := by
  simp only [Starts, Language.mem_add]
  constructor
  · rintro ⟨u, hu | hu, h⟩
    · exact .inl ⟨u, hu, h⟩
    · exact .inr ⟨u, hu, h⟩
  · rintro (⟨u, hu, h⟩ | ⟨u, hu, h⟩)
    · exact ⟨u, .inl hu, h⟩
    · exact ⟨u, .inr hu, h⟩

theorem starts_mul : Starts (L * M) R w ↔ Starts L (Starts M R) w := by
  simp only [Starts, Language.mem_mul]
  constructor
  · rintro ⟨_, ⟨u, hu, v, hv, rfl⟩, r, hw, hr⟩
    exact ⟨u, hu, v ++ r, by simp [← hw], v, hv, r, rfl, hr⟩
  · rintro ⟨u, hu, _, hw, v, hv, r, rfl, hr⟩
    exact ⟨u ++ v, ⟨u, hu, v, hv, rfl⟩, r, by simp [← hw], hr⟩

@[simp] theorem not_starts_letter_nil : ¬ Starts (letter p) R [] := by
  simp [Starts]

@[simp] theorem starts_letter_cons : Starts (letter p) R (a :: w) ↔ p a ∧ R w := by
  simp only [Starts, mem_letter]
  constructor
  · rintro ⟨_, ⟨b, hb, rfl⟩, v, hw, hr⟩
    obtain ⟨rfl, rfl⟩ : b = a ∧ v = w := by simpa using hw
    exact ⟨hb, hr⟩
  · rintro ⟨ha, hr⟩
    exact ⟨[a], ⟨a, ha, rfl⟩, w, rfl, hr⟩

theorem starts_kstar : Starts L∗ R w ↔ R w ∨ Starts L (Starts L∗ R) w := by
  conv => lhs; rw [← Language.one_add_self_mul_kstar_eq_kstar]
  rw [starts_add, starts_one, starts_mul]

@[simp] theorem starts_kstar_letter_nil : Starts (letter p)∗ R [] ↔ R [] := by
  rw [starts_kstar]
  simp

theorem starts_kstar_letter_cons : Starts (letter p)∗ R (a :: w) ↔ R (a :: w) ∨ p a ∧ Starts (letter p)∗ R w := by
  rw [starts_kstar]
  simp

end Xv6.Lib
