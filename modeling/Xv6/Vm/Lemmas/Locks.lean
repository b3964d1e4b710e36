import Xv6.Lib.Ends
import Xv6.Vm.Locks

/-!
# Swapping out under `kmem.lock`

`bwrite` always waits for the disk, so a `reclaim` that has found a victim never comes back to `kalloc`.
-/

namespace Xv6.Vm.Locked

open Xv6.Lib Except

variable {L : Type} {w : World L} {s : Io} {i : Fin NBUF}

abbrev Lost {α : Type} (x : Except Halt α) : Prop := Ends Any (fun _ => False) x

theorem lost_sleep : Lost s.sleep := by
  unfold Io.sleep
  dsimp only
  split <;> trivial

theorem lost_iderw : Lost (s.iderw i) := by
  unfold Io.iderw
  split
  · trivial
  · split
    · trivial
    · rename_i hn
      split
      · trivial
      · -- the request is not finished
        have hn' : ¬ ((s.acquire.buf i).valid = true ∧ (s.acquire.buf i).dirty = false) := hn
        simp only [if_neg hn']
        split
        · exact Ends.bind (.any _) fun _ _ => lost_sleep
        · exact lost_sleep

theorem lost_bwrite : Lost (s.bwrite i) := by
  unfold Io.bwrite
  split
  · trivial
  · exact lost_iderw

theorem lost_swapBlock (page : Page) (blkno k : Nat) : Lost (swapBlock page blkno s k) := by
  refine Ends.bind (.any _) ?_
  rintro ⟨bp, s⟩ -
  exact lost_bwrite.bind nofun

theorem lost_swapwrite (ptr blkno : Nat) : Lost (swapwrite w ptr blkno) := by
  unfold swapwrite
  split
  · trivial
  · refine Ends.bind (.any _) fun page _ => ?_
    refine Ends.bind (Q := fun _ => False) ?_ nofun
    -- a page has more than one block, and the first one is not written
    change Ends _ _ (List.foldlM _ _ (0 :: List.map Nat.succ (List.range 7)))
    rw [List.foldlM_cons]
    exact (lost_swapBlock page blkno 0).bind nofun

theorem lost_evict (p : Nat) : Lost (evict w p) := by
  unfold evict
  refine Ends.bind (.any _) fun e _ => ?_
  refine Ends.bind (.any _) ?_
  rintro ⟨blkno, io⟩ -
  exact (lost_swapwrite _ _).bind nofun

theorem reclaim_ok {r : Bool × World L} (h : reclaim w = .ok r) : ∃ m, pick w.mem = .ok (none, m) ∧ r = (false, { w with mem := m }) := by
  unfold reclaim at h
  cases hp : pick w.mem with
  | error e => rw [hp] at h; cases h
  | ok v =>
    obtain ⟨victim, m⟩ := v
    rw [hp] at h
    cases victim with
    | none => cases h; exact ⟨m, rfl, rfl⟩
    | some p =>
      have hl : Lost (do let w ← evict { w with mem := m } p; return (true, w)) := (lost_evict p).bind nofun
      exact (hl.of_ok h).elim

theorem reclaim_none {m : Mem L} (h : pick w.mem = .ok (none, m)) : reclaim w = .ok (false, { w with mem := m }) := by
  unfold reclaim
  rw [h]
  rfl

theorem kallocLoop_ok_iff (k : Nat) : (∃ r, kallocLoop (k + 1) w = .ok r) ↔
    (w.mem.freelist ≠ 0 ∧ ∃ r, popFree w.mem = .ok r) ∨ (w.mem.freelist = 0 ∧ ∃ m, pick w.mem = .ok (none, m)) := by
  unfold kallocLoop
  by_cases hf : w.mem.freelist = 0
  · simp only [hf, ne_eq, not_true_eq_false, if_false, false_and, false_or, true_and]
    constructor
    · rintro ⟨r, hr⟩
      obtain ⟨v, hc, -⟩ := of_bind_ok hr
      obtain ⟨m, hm, -⟩ := reclaim_ok hc
      exact ⟨m, hm⟩
    · rintro ⟨m, hm⟩
      rw [reclaim_none hm]
      exact ⟨_, rfl⟩
  · simp only [hf, ne_eq, not_false_eq_true, if_true, true_and, false_and, or_false]
    constructor
    · rintro ⟨r, hr⟩
      cases hp : popFree w.mem with
      | error e => rw [hp] at hr; cases hr
      | ok v => exact ⟨v, rfl⟩
    · rintro ⟨v, hv⟩
      rw [hv]
      exact ⟨_, rfl⟩

theorem kalloc_ok_iff (w : World L) : (∃ r, kalloc w = .ok r) ↔
    (w.mem.freelist ≠ 0 ∧ ∃ r, popFree w.mem = .ok r) ∨ (w.mem.freelist = 0 ∧ ∃ m, pick w.mem = .ok (none, m)) := by
  refine Iff.trans ?_ (kallocLoop_ok_iff (w := { w with io := w.io.acquire }) NPAGES)
  unfold kalloc
  constructor
  · rintro ⟨r, hr⟩
    obtain ⟨v, hk, -⟩ := of_bind_ok hr
    exact ⟨v, hk⟩
  · rintro ⟨v, hv⟩
    rw [hv]
    exact ⟨_, rfl⟩

theorem kalloc_empty {r : Nat × World L} (hf : w.mem.freelist = 0) (h : kalloc w = .ok r) : r.1 = 0 := by
  unfold kalloc at h
  rw [kallocLoop, if_neg (not_not.mpr hf)] at h
  obtain ⟨u, hk, h⟩ := of_bind_ok h
  obtain ⟨v, hc, hk⟩ := of_bind_ok hk
  obtain ⟨m, -, rfl⟩ := reclaim_ok hc
  cases hk
  cases h
  rfl

/-- A `kalloc` that returns does to memory what `kallocMem` does. -/
theorem kalloc_iff_kallocMem {r : Nat} {m : Mem L} : kalloc w = .ok (r, ⟨m, w.io⟩) ↔ kallocMem w.mem = .ok (r, m) := by
  by_cases hf : w.mem.freelist = 0
  · simp only [kalloc, kallocMem, kallocLoop, hf, ne_eq, not_true_eq_false, if_false]
    cases hp : pick w.mem with
    | error e =>
      have hr : reclaim { w with io := w.io.acquire } = .error (.stop e) := by simp only [reclaim, hp]; rfl
      simp only [hr, bind]
      exact ⟨nofun, nofun⟩
    | ok v =>
      obtain ⟨victim, m'⟩ := v
      cases victim with
      | none =>
        simp only [reclaim_none (w := { w with io := w.io.acquire }) hp, bind, pure]
        exact ⟨fun h => by cases h; rfl, fun h => by cases h; rfl⟩
      | some p =>
        -- the call that has found a victim does not come back
        cases hc : reclaim { w with io := w.io.acquire } with
        | error e => simp only [bind]; exact ⟨nofun, nofun⟩
        | ok v =>
          obtain ⟨m1, hm, -⟩ := reclaim_ok hc
          cases hp.symm.trans hm
  · simp only [kalloc, kallocMem, kallocLoop, hf, ne_eq, not_false_eq_true, if_true]
    cases popFree w.mem with
    | error e => simp only [lift, bind]; exact ⟨nofun, nofun⟩
    | ok v =>
      simp only [lift, bind, pure]
      exact ⟨fun h => by cases h; rfl, fun h => by cases h; rfl⟩

end Xv6.Vm.Locked
