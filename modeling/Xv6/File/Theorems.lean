import Xv6.File.Lemmas
import Xv6.Lib.Trans

/-!
# Open files: results
-/

open Xv6.Lib

namespace Xv6.Ftable

open Xv6.Ptable (initproc child)

variable {s : State}

theorem Inv₀.reach {ok : State → Ptable.Slot × Call → Prop} (h : Reach (· = init) step ok s) : Inv₀ s := by
  refine h.inv (fun _ hs => hs ▸ inv_init) fun s a s' hi _ hs => ?_
  unfold step at hs
  split at hs
  · split at hs
    · cases hs
      rename_i hu _ r hr
      exact (hi.exec hu a.2).of_ok hr
    · cases hs
  · cases hs

theorem Inv₀.descriptor (h : Inv₀ s) {f : FileIx} (hf : (s.file f).type ≠ .FD_NONE) : ∃ i, s.ofile i = some f := by
  refine holders_pos.mp ?_
  have := h.refs.ref f
  have : (s.file f).ref ≠ 0 := fun hr => hf (h.refs.free f hr)
  omega

theorem Inv₀.mem_freed (h : Inv₀ s) (k : Nat) : k ∈ s.freed ↔ k < s.npipe ∧
    ∀ i f, s.ofile i = some f → ¬ ((s.file f).type = .FD_PIPE ∧ (s.file f).pipe = k) := by
  rw [h.pipes.freed k]
  refine and_congr_right fun hk => ⟨fun hw i f _ hf => ?_, fun hi w => ?_⟩
  · have := (h.pipes.isOpen k _ hk).mpr ⟨f, hf.1, hf.2, rfl⟩
    rw [hw] at this
    cases this
  · refine Bool.eq_false_iff.mpr fun ho => ?_
    obtain ⟨f, hf⟩ := (h.pipes.isOpen k w hk).mp ho
    obtain ⟨i, hi'⟩ := h.descriptor (f := f) (by rw [hf.1]; nofun)
    exact hi i f hi' ⟨hf.1, hf.2.1⟩

theorem Inv₀.mem_iputs (h : Inv₀ s) (r : Nat) : r ∈ s.iputs ↔ r < s.nip ∧
    ∀ i f, s.ofile i = some f → ¬ ((s.file f).type = .FD_INODE ∧ (s.file f).ip = r) := by
  rw [h.inodes.iputs r]
  refine and_congr_right fun _ => ⟨fun hn i f _ => hn.2 f, fun hi => ⟨id, fun f hf => ?_⟩⟩
  obtain ⟨i, hi'⟩ := h.descriptor (f := f) (by rw [hf.1]; nofun)
  exact hi i f hi' hf

/-- A file's reference count is the number of its descriptors, and no call panics. A pipe's page is freed once, when the last descriptor of
both ends is closed, and the inode reference of an open file is put once. -/
theorem file_refs_exact (hr : Reach (· = init) step (fun _ _ => True) s) :
    (∀ f, (s.file f).ref = holders s.ofile f) ∧
    (∀ f, (s.file f).ref = 0 → (s.file f).type = .FD_NONE) ∧
    (∀ p c, s.life p = .used → ∃ r, exec s p c = .ok r) ∧
    (s.freed.Nodup ∧ ∀ k, k ∈ s.freed ↔ k < s.npipe ∧
      ∀ i f, s.ofile i = some f → ¬ ((s.file f).type = .FD_PIPE ∧ (s.file f).pipe = k)) ∧
    (s.iputs.Nodup ∧ ∀ r, r ∈ s.iputs ↔ r < s.nip ∧
      ∀ i f, s.ofile i = some f → ¬ ((s.file f).type = .FD_INODE ∧ (s.file f).ip = r)) := by
  have h := Inv₀.reach hr
  refine ⟨fun f => ?_, h.refs.free, fun p c hu => ?_, ⟨h.pipes.nodup, h.mem_freed⟩, h.inodes.nodup, h.mem_iputs⟩
  · have := h.refs.ref f
    omega
  · obtain ⟨r, hr, -⟩ := (h.exec hu c).returns nofun
    exact ⟨r, hr⟩

/-- A pipe that two processes share is freed when both have closed both ends. -/
theorem file_refs_exact_shared_pipe : ∃ s, Reach (· = init) step (fun _ _ => True) s ∧ s.freed = [0] ∧
    ∀ i f, s.ofile i = some f → ¬ ((s.file f).type = .FD_PIPE ∧ (s.file f).pipe = 0) := by
  obtain ⟨s, hr, hf⟩ : ∃ s, Reach (· = init) step (fun _ _ => True) s ∧ s.freed = [0] :=
    Reach.of_runs [(initproc, .pipe true true), (initproc, .fork true), (initproc, .close 0), (child, .exit),
      (initproc, .close 1)] _ (.init rfl) (by decide +kernel)
  obtain ⟨-, -, -, ⟨-, h⟩, -⟩ := file_refs_exact hr
  exact ⟨s, hr, hf, ((h 0).mp (by rw [hf]; exact List.mem_singleton_self _)).2⟩

end Xv6.Ftable
