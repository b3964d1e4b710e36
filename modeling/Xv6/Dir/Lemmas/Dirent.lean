import Mathlib.Data.List.TakeWhile
import Xv6.Dir.Model

/-!
# Names of directory entries
-/

namespace Xv6.Dir

open List

/-! ## Names -/

/-- The name that `namecmp` and `strncpy` see. -/
def cname (t : Str) : Str := (t.take DIRSIZ).takeWhile (· ≠ 0)

def Canon (x : Str) : Prop := x.length ≤ DIRSIZ ∧ 0 ∉ x

private def cstr (n : Nat) (t : Str) : Str := (t.take n).takeWhile (· ≠ 0)

private theorem cstr_succ (n : Nat) (t : Str) : cstr (n + 1) t = if t.headD 0 = 0 then [] else t.headD 0 :: cstr n t.tail := by
  cases t with
  | nil => rfl
  | cons c t =>
    simp only [cstr, take_succ_cons, takeWhile_cons, headD_cons, tail_cons, decide_not]
    by_cases hc : c = 0 <;> simp [hc]

private theorem strncmp_eq_zero (n : Nat) (p q : Str) : strncmp n p q = 0 ↔ cstr n p = cstr n q := by
  induction n generalizing p q with
  | zero => simp [strncmp, cstr]
  | succ n ih =>
    rw [cstr_succ, cstr_succ]
    simp only [strncmp]
    by_cases hp : p.headD 0 = 0
    · rw [if_neg (fun h => h.1 hp), if_pos hp, hp]
      by_cases hq : q.headD 0 = 0
      · rw [hq, if_pos rfl]
        exact ⟨fun _ => rfl, fun _ => rfl⟩
      · rw [if_neg hq]
        have : (q.headD 0).toNat ≠ (0#8).toNat := fun h => hq (BitVec.eq_of_toNat_eq h)
        refine ⟨fun h => ?_, nofun⟩
        exact absurd (show (q.headD 0).toNat = (0#8).toNat by change ((0#8).toNat : Int) - _ = 0 at h; omega) this
    · rw [if_neg hp]
      by_cases hq : p.headD 0 = q.headD 0
      · rw [if_pos ⟨hp, hq⟩, if_neg (hq ▸ hp), ← hq, ih]
        simp
      · rw [if_neg (fun h => hq h.2)]
        have : (p.headD 0).toNat ≠ (q.headD 0).toNat := fun h => hq (BitVec.eq_of_toNat_eq h)
        constructor
        · intro h
          omega
        · intro h
          split at h
          · cases h
          · exact absurd (cons.inj h).1 hq

theorem namecmp_eq_zero {s t : Str} : namecmp s t = 0 ↔ cname s = cname t := strncmp_eq_zero DIRSIZ s t

private theorem strncpy_eq (n : Nat) (t : Str) : strncpy n t = cstr n t ++ replicate (n - (cstr n t).length) 0 := by
  induction n generalizing t with
  | zero => rfl
  | succ n ih =>
    rw [cstr_succ]
    simp only [strncpy]
    split
    · simp
    · rw [ih]
      simp

def pad (x : Str) : Str := x ++ replicate (DIRSIZ - x.length) 0

theorem strncpy_eq_pad (t : Str) : strncpy DIRSIZ t = pad (cname t) := strncpy_eq DIRSIZ t

theorem length_pad {x : Str} (h : Canon x) : (pad x).length = DIRSIZ := by
  have := h.1
  simp only [pad, length_append, length_replicate]
  omega

theorem canon_cname (t : Str) : Canon (cname t) := by
  refine ⟨?_, fun h => ?_⟩
  · refine (takeWhile_sublist _).length_le.trans ?_
    rw [length_take]
    exact min_le_left ..
  · have := mem_takeWhile_imp h
    simp at this

theorem cname_of_canon {x : Str} (h : Canon x) : cname x = x := by
  rw [cname, take_of_length_le h.1, takeWhile_eq_self_iff]
  intro c hc
  simp only [ne_eq, decide_not, Bool.not_eq_eq_eq_not, Bool.not_true, decide_eq_false_iff_not]
  rintro rfl
  exact h.2 hc

theorem cname_pad {x : Str} (h : Canon x) : cname (pad x) = x := by
  rw [cname, take_of_length_le (length_pad h).le, pad]
  rw [takeWhile_append_of_pos]
  · cases hn : DIRSIZ - x.length with
    | zero => simp
    | succ n => simp [replicate_succ]
  · intro c hc
    simp only [ne_eq, decide_not, Bool.not_eq_eq_eq_not, Bool.not_true, decide_eq_false_iff_not]
    rintro rfl
    exact h.2 hc

instance (x : Str) : Decidable (Canon x) := inferInstanceAs (Decidable (_ ∧ _))

theorem canon_dot : Canon dot := by decide

theorem canon_dotdot : Canon dotdot := by decide

end Xv6.Dir
