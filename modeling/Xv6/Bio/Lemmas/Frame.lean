import Xv6.Bio.Lemmas.Step

/-!
# What an action leaves alone

An action changes the reference of its own call only, and the contents of a block only if it writes the block.
-/

namespace Xv6.Bio

open Xv6.Lib Function List Option State Assoc

def Act.call : Act → Nat
  | .bget c _ _ _ | .acquiresleep c | .bread c | .iderw c | .modify c _ | .logWrite c | .bwrite c | .releasesleep c | .brelse c => c

variable {d0 : Key → Block} {s s' : State} {a : Act} {c k : Nat} {r : Ref}

section

variable {b : Buf} {st : Stage} {d : Key → Block} {tr : List (Event Key Block)}

theorem Use.call (h : Use s c r a b st d tr) : a.call = c := by
  cases h <;> rfl

theorem Use.locks (h : Use s c r a b st d tr) : st.holds ∨ b.lock = none := by
  cases h <;> simp [Stage.holds]

end

section

variable (h : Inv d0 s) (hst : step s a = some s')
include h hst

theorem Inv.step_lookup (hk : k ≠ a.call) : s'.refs.lookup k = s.refs.lookup k := by
  cases next_of_step h hst with
  | hit | recycle =>
    rw [Assoc.lookup_cons]
    exact if_neg hk
  | noBuffers => rfl
  | use hl hu =>
    rw [hu.call] at hk
    rw [hl, lookup_split_ne hk]
    exact lookup_split_ne hk
  | brelse hl =>
    rw [hl]
    exact (lookup_split_ne hk).symm

theorem Inv.step_refs {q : Nat × Ref} (hq : q ∈ s'.refs) :
    (∃ q0 ∈ s.refs, q0.1 = q.1 ∧ q0.2.key = q.2.key) ∨
    ∃ pid dev blockno, a = .bget q.1 pid dev blockno ∧ q.2.key = (dev, blockno) := by
  cases next_of_step h hst with
  | hit | recycle =>
    rcases mem_cons.mp hq with rfl | hq
    · exact .inr ⟨_, _, _, rfl, rfl⟩
    · exact .inl ⟨q, hq, rfl, rfl⟩
  | noBuffers => exact .inl ⟨q, hq, rfl, rfl⟩
  | @use _ c r l1 l2 _ _ _ _ hl _ =>
    rw [hl]
    rcases mem_split hq with rfl | hq
    · exact .inl ⟨(c, r), by simp, rfl, rfl⟩
    · exact .inl ⟨q, mem_of_split hq, rfl, rfl⟩
  | brelse hl => exact .inl ⟨q, hl ▸ mem_of_split hq, rfl, rfl⟩

theorem Inv.step_contents (k : Key) : contents d0 s'.trace k = contents d0 s.trace k ∨
    ∃ c v r, a = .modify c v ∧ (c, r) ∈ s.refs ∧ r.key = k := by
  cases next_of_step h hst with
  | hit | recycle | noBuffers | brelse => exact .inl rfl
  | @use _ c r _ _ _ _ _ _ hl hu =>
    cases hu with
    | modify v =>
      by_cases hk : r.key = k
      · exact .inr ⟨c, v, r, rfl, by simp [hl], hk⟩
      · exact .inl (by rw [use, contents_write, update_of_ne (Ne.symm hk)])
    | hit | fill => exact .inl (by rw [use, contents_read])
    | _ => exact .inl (by rw [use, append_nil])

end

theorem trace_modify {v : Block} (hr : s.refs.lookup c = some r) (hst : step s (.modify c v) = some s') :
    s'.trace = s.trace ++ [.write r.key v] := by
  simp only [step, hr, bind_some, modify, ite_none_right_eq_some, some.injEq] at hst
  obtain ⟨-, -, rfl⟩ := hst
  rfl

@[simp] theorem sync_frame (s : State) (i : Fin NBUF) :
    (sync s i).refs = s.refs ∧ (sync s i).trace = s.trace ∧ (sync s i).panicked = s.panicked := by
  simp only [sync]
  split <;> exact ⟨rfl, rfl, rfl⟩

theorem Inv.iderw_returns (h : Inv d0 s) (hp : s.panicked = none) (hr : s.refs.lookup c = some r)
    (hs : r.stage = .reading ∨ r.stage = .writing) :
    ∃ s', step s (.iderw c) = some s' ∧ s'.panicked = none ∧ s'.refs.lookup c = some { r with stage := .held } := by
  have hstage := h.refs.stage _ (mem_of_lookup hr)
  have hold := h.holdingsleep hr (by rcases hs with hs | hs <;> rw [hs] <;> rfl)
  have hdo : ¬ ((s.buf r.buf).valid = true ∧ (s.buf r.buf).dirty = false) := by
    rcases hs with hs | hs
    all_goals
      simp only [hs, StageOk] at hstage
      simp [hstage]
  simp only [step, hp, if_true, hr, bind_some, iderw, if_pos hs, hold, Bool.true_eq_false, if_false, if_neg hdo]
  split
  · exact ⟨_, rfl, by simp [setRef, emit, hp], by simp [setRef, emit, lookup_put_self hr]⟩
  · exact ⟨_, rfl, by simp [setRef, hp], by simp [setRef, lookup_put_self hr]⟩

/-! ## Locks -/

def Locks (s : State) : Prop := ∀ i, (s.buf i).lock ≠ none → ∃ q ∈ s.refs, q.2.buf = i ∧ q.2.stage.holds

theorem Locks.step (h : Locks s) (hi : Inv d0 s) (hst : step s a = some s') : Locks s' := by
  intro i hlock
  cases next_of_step hi hst with
  | @hit c pid dev blockno j _ _ =>
    obtain ⟨n, hn⟩ := update_refcnt s.buf j ((s.buf j).refcnt + 1) i
    simp only [hn] at hlock
    obtain ⟨q, hq, hqi⟩ := h i hlock
    exact ⟨q, mem_cons_of_mem _ hq, hqi⟩
  | @recycle c pid dev blockno j _ _ _ =>
    have hsame : (s.buf i).lock ≠ none := by
      by_cases hj : i = j
      · simpa [hj] using hlock
      · simpa [update_of_ne hj] using hlock
    obtain ⟨q, hq, hqi⟩ := h i hsame
    exact ⟨q, mem_cons_of_mem _ hq, hqi⟩
  | noBuffers => exact h i hlock
  | @use _ c r l1 l2 b st d tr hl hu =>
    by_cases hr : i = r.buf
    · subst hr
      have hb : b.lock ≠ none := by simpa [use] using hlock
      exact ⟨(c, { r with stage := st }), by simp [use], rfl, hu.locks.resolve_right hb⟩
    · obtain ⟨q, hq, hqi⟩ := h i (by simpa [use, update_of_ne hr] using hlock)
      refine ⟨q, ?_, hqi⟩
      have hne : q ≠ (c, r) := by
        rintro rfl
        exact hr hqi.1.symm
      simp only [hl, mem_append, mem_cons, hne, false_or] at hq
      simp only [use, mem_append, mem_cons]
      exact hq.imp_right .inr
  | @brelse c r l1 l2 lru hl hs _ =>
    obtain ⟨n, hn⟩ := update_refcnt s.buf r.buf ((s.buf r.buf).refcnt - 1) i
    simp only [hn] at hlock
    obtain ⟨q, hq, hqi⟩ := h i hlock
    refine ⟨q, ?_, hqi⟩
    have hne : q ≠ (c, r) := by
      rintro rfl
      simp [hs, Stage.holds] at hqi
    simpa [hl, hne] using hq

end Xv6.Bio
