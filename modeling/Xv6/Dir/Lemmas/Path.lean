import Xv6.Dir.Lemmas.Dirent

/-! # Path names -/

namespace Xv6.Dir

open List

variable {path name rest e t r : Str} {c : BitVec 8}

/-- The nonempty parts between the slashes of a path, each cut to the size of a name. -/
def parts (t : Str) : List Str := ((t.splitOn slash).filter (· ≠ [])).map (·.take DIRSIZ)

def components (path : Str) : List Str := parts (path.takeWhile (· ≠ 0))

theorem parts_nil : parts [] = [] := rfl

theorem parts_slash (t : Str) : parts (slash :: t) = parts t := by
  have h : splitOn slash ([] ++ slash :: t) = splitOn slash [] ++ splitOn slash t :=
    splitOn_append_cons_self ..
  rw [nil_append] at h
  rw [parts, h, parts, splitOn_nil]
  simp

theorem parts_elem (he : e ≠ []) (hs : slash ∉ e) : parts e = [e.take DIRSIZ] := by
  rw [parts, splitOn_eq_singleton hs]
  simp [he]

theorem parts_elem_slash (he : e ≠ []) (hs : slash ∉ e) (t : Str) : parts (e ++ slash :: t) = e.take DIRSIZ :: parts t := by
  rw [parts, splitOn_append_cons_self_of_not_mem hs, parts]
  simp [he]

/-! ## `skipelem` -/

theorem components_slash (t : Str) : components (slash :: t) = components t := by
  have h : (slash :: t).takeWhile (· ≠ 0) = slash :: t.takeWhile (· ≠ 0) := takeWhile_cons_of_pos (by decide)
  rw [components, h, parts_slash, components]

theorem components_dropWhile (t : Str) : components (t.dropWhile (· = slash)) = components t := by
  induction t with
  | nil => rfl
  | cons c t ih =>
    by_cases hc : c = slash
    · subst hc
      rw [dropWhile_cons_of_pos (by simp), ih, components_slash]
    · rw [dropWhile_cons_of_neg (by simpa using hc)]

theorem components_end (h : t.headD 0 = 0) : components t = [] := by
  cases t with
  | nil => rfl
  | cons c t =>
    have hc : c = 0 := h
    rw [components, takeWhile_cons_of_neg (by simpa using hc), parts_nil]

theorem components_elem (he : e ≠ []) (hc : ∀ c ∈ e, c ≠ slash ∧ c ≠ 0) (hr : r.headD 0 = 0 ∨ r.headD 0 = slash) :
    components (e ++ r) = e.take DIRSIZ :: components r := by
  have hs : slash ∉ e := fun h => (hc _ h).1 rfl
  rw [components, takeWhile_append_of_pos fun c h => by simpa using (hc c h).2]
  rcases hr with hr | hr
  · rw [components_end hr]
    have hz : r.takeWhile (· ≠ 0) = [] := by
      cases r with
      | nil => rfl
      | cons c r => exact takeWhile_cons_of_neg (by simpa using hr)
    rw [hz, append_nil, parts_elem he hs]
  · cases r with
    | nil => exact absurd hr (by decide)
    | cons c r =>
      obtain rfl : c = slash := hr
      rw [components_slash, takeWhile_cons_of_pos (by decide), parts_elem_slash he hs, components]

theorem headD_dropWhile (p : BitVec 8 → Bool) (t : Str) : (t.dropWhile p).headD 0 = 0 ∨ p ((t.dropWhile p).headD 0) = false := by
  have h := head?_dropWhile_not p t
  cases hd : t.dropWhile p with
  | nil => exact .inl rfl
  | cons c r =>
    rw [hd] at h
    exact .inr h

theorem headD_ne_slash (t : Str) : (t.dropWhile (· = slash)).headD 0 ≠ slash := by
  rcases headD_dropWhile (· = slash) t with h | h
  · rw [h]
    decide
  · exact of_decide_eq_false h

theorem components_none (h : skipelem path = none) : components path = [] := by
  simp only [skipelem] at h
  split at h
  · rename_i hz
    rw [← components_dropWhile]
    exact components_end hz
  · cases h

theorem components_first (hs : t.headD 0 ≠ slash) (hz : t.headD 0 ≠ 0) :
    components t = (t.takeWhile fun c => c ≠ slash ∧ c ≠ 0).take DIRSIZ ::
      components (t.drop (t.takeWhile fun c => c ≠ slash ∧ c ≠ 0).length) := by
  have hsplit := takeWhile_append_dropWhile (p := fun c : BitVec 8 => decide (c ≠ slash ∧ c ≠ 0)) (l := t)
  have hdrop := congrArg (drop (t.takeWhile fun c => c ≠ slash ∧ c ≠ 0).length) hsplit
  rw [drop_left] at hdrop
  have hne : (t.takeWhile fun c => c ≠ slash ∧ c ≠ 0) ≠ [] := by
    cases t with
    | nil => exact absurd rfl hz
    | cons c t =>
      rw [takeWhile_cons_of_pos (by simpa using ⟨hs, hz⟩)]
      exact cons_ne_nil _ _
  have hend : (t.dropWhile fun c => c ≠ slash ∧ c ≠ 0).headD 0 = 0 ∨ (t.dropWhile fun c => c ≠ slash ∧ c ≠ 0).headD 0 = slash := by
    rcases headD_dropWhile (fun c => decide (c ≠ slash ∧ c ≠ 0)) t with h | h
    · exact .inl h
    · have := of_decide_eq_false h
      tauto
  rw [← hdrop]
  conv_lhs => rw [← hsplit]
  exact components_elem hne (fun c hc => by simpa using mem_takeWhile_imp hc) hend

theorem components_some (h : skipelem path = some (name, rest)) : components path = name :: components rest ∧ rest.headD 0 ≠ slash := by
  simp only [skipelem] at h
  split at h
  · cases h
  · rename_i hz
    simp only [Option.some.injEq, Prod.mk.injEq] at h
    obtain ⟨hname, rfl⟩ := h
    refine ⟨?_, headD_ne_slash _⟩
    rw [← components_dropWhile path, components_first (headD_ne_slash path) hz, components_dropWhile, ← hname]
    congr 1
    split
    · rfl
    · exact take_of_length_le (by omega)

theorem headD_eq_zero_iff (h : rest.headD 0 ≠ slash) : rest.headD 0 = 0 ↔ components rest = [] := by
  refine ⟨components_end, fun hc => ?_⟩
  by_contra hz
  rw [components_first h hz] at hc
  cases hc

theorem canon_of_skipelem (h : skipelem path = some (name, rest)) : Canon name := by
  simp only [skipelem] at h
  split at h
  · cases h
  · simp only [Option.some.injEq, Prod.mk.injEq] at h
    rw [← h.1]
    have hzero : ∀ t : Str, 0 ∉ t.takeWhile fun c => c ≠ slash ∧ c ≠ 0 := fun t hm => by
      simpa using mem_takeWhile_imp hm
    split
    · exact ⟨by rw [length_take]; exact min_le_left .., fun hm => hzero _ (mem_of_mem_take hm)⟩
    · exact ⟨by omega, hzero _⟩

end Xv6.Dir
