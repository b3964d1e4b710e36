import Xv6.Bio.Lemmas.Step
import Xv6.Lib.Trans

/-!
# Theorems about the buffer cache

Whatever the interleaving, a buffer that `bread` returns holds the data that was last written to its block.
-/

namespace Xv6.Bio

open Xv6.Lib

def Runs (d0 : Key → Block) : State → Prop := Reach (· = State.boot d0) step fun _ _ => True

variable {d0 : Key → Block} {s s' : State} {a : Act}

theorem Runs.inv (h : Runs d0 s) : Inv d0 s := by
  refine Reach.inv (P := Inv d0) ?_ ?_ h
  · rintro _ rfl; exact inv_boot d0
  · exact fun s a s' hi _ hst => hi.next (next_of_step hi hst)

theorem Inv.disk_current (h : Inv d0 s) {k : Key} (hk : ∀ i, (s.buf i).key = k → ¬ (s.buf i).Live) : s.disk k = contents d0 s.trace k := by
  rcases h.data.disk k with hd | ⟨i, hi, hv, _⟩
  · exact hd
  · exact absurd (.inr hv) (hk i hi)

theorem Inv.recycled (h : Inv d0 s) (hst : step s a = some s') {i : Fin NBUF} (hi : (s'.buf i).key ≠ (s.buf i).key) :
    (s.buf i).refcnt = 0 ∧ (s.buf i).dirty = false := by
  cases next_of_step h hst with
  | hit => refine (hi ?_).elim; exact key_update (by rfl) i
  | @recycle c pid dev blockno j _ _ hu =>
    by_cases hj : i = j
    · subst hj; exact unused_spec hu
    · simp [Function.update_of_ne hj] at hi
  | noBuffers => exact absurd rfl hi
  | use hl hu => exact absurd (key_update (hu.ok h hl).key i) hi
  | brelse => refine (hi ?_).elim; exact key_update (by rfl) i

/-- What `bread` has returned is what was last written; a block has at most one live buffer, and without one it is current on disk; no
step recycles a buffer that is pinned or in use. -/
theorem cache_coherence (h : Runs d0 s) :
    Coherent d0 s.trace ∧
    (∀ q ∈ s.refs, q.2.stage = .held → (s.buf q.2.buf).data = contents d0 s.trace q.2.key) ∧
    (∀ i j, (s.buf i).key = (s.buf j).key → (s.buf i).Live → (s.buf j).Live → i = j) ∧
    (∀ k, (∀ i, (s.buf i).key = k → ¬ (s.buf i).Live) → s.disk k = contents d0 s.trace k) ∧
    ∀ a s', step s a = some s' → ∀ i, (s'.buf i).key ≠ (s.buf i).key →
      (s.buf i).refcnt = 0 ∧ (s.buf i).dirty = false := by
  have hi := h.inv
  refine ⟨hi.data.coherent, fun q hq hs => ?_, fun i j => hi.lru.unique, fun k => hi.disk_current,
    fun a s' hst i => hi.recycled hst⟩
  have hv := hi.refs.stage q hq
  rw [hs] at hv
  rw [← hi.refs.key q hq]
  exact hi.data.current _ hv

/-- Process 2 reads what process 1 has logged, while block 7 is on disk only. -/
theorem cache_coherence_shared :
    ∃ s, Runs (fun _ => Bytes.fill BSIZE 0) s ∧ s.trace.length = 4 ∧ (s.refs.map Prod.fst) = [2] ∧
      Coherent (fun _ => Bytes.fill BSIZE 0) s.trace := by
  have h0 : Runs (fun _ => Bytes.fill BSIZE 0) (.boot fun _ => Bytes.fill BSIZE 0) := .init rfl
  obtain ⟨s, hs, ht, hr⟩ := Reach.of_runs
    [.bget 0 1 1 7, .bget 1 1 1 8, .acquiresleep 0, .acquiresleep 1, .bread 0, .bread 1, .iderw 1, .iderw 0,
      .bget 2 2 1 8, .modify 1 (Bytes.fill BSIZE 5), .logWrite 1, .releasesleep 1, .acquiresleep 2, .bread 2, .brelse 1,
      .releasesleep 0, .brelse 0]
    (fun s => s.trace.length = 4 ∧ s.refs.map Prod.fst = [2]) h0 (by decide)
  exact ⟨s, hs, ht, hr, (cache_coherence hs).1⟩

end Xv6.Bio
