import Xv6.Lib.Trans
import Xv6.Pipe.Lemmas.Fifo

/-! # Theorems about pipes -/

namespace Xv6.Pipe

open Xv6.Lib Bytes

variable {page : Bytes PIPESIZE} {s : State}

def Runs (page : Bytes PIPESIZE) (ok : State → Act → Prop) : State → Prop := Reach (· = pipealloc page) step ok

/-! ## Data -/

/-- The bytes that reads have returned with, and then those that the reader which holds the lock has copied, are a prefix of the bytes
written. What is outstanding is `nwrite - nread` bytes, at most `PIPESIZE` of them. -/
theorem pipe_is_fifo {x : Traffic} (h : Reach (· = ⟨pipealloc page, [], []⟩) Traffic.step (fun _ _ => True) x) :
    (x.state.pipe.nwrite - x.state.pipe.nread).toNat ≤ PIPESIZE ∧
    ∃ q, x.stored = x.returned ++ x.state.copied ++ q ∧ q.length = (x.state.pipe.nwrite - x.state.pipe.nread).toNat := by
  have hf : Fifo x := by
    refine Reach.inv ?_ (fun x a x' hx _ hst => hx.next hst) h
    rintro _ rfl
    exact fifo_pipealloc page
  obtain ⟨k, hk⟩ := hf.holds
  rw [hk.outstanding]
  exact ⟨hk.le, _, hk.stored, length_ring⟩

/-- Three bytes are written and two of them read. -/
theorem pipe_is_fifo_three_bytes :
    ∃ x, Reach (· = ⟨pipealloc (fill PIPESIZE 0#8), [], []⟩) Traffic.step (fun _ _ => True) x ∧ x.state.ret 2 = some 2 ∧
      x.returned = [1#8, 2#8] ∧ ∃ q, x.stored = [1#8, 2#8] ++ q ∧ q.length = (x.state.pipe.nwrite - x.state.pipe.nread).toNat := by
  have h0 : Reach (· = ⟨pipealloc (fill PIPESIZE 0#8), [], []⟩) Traffic.step (fun _ _ => True) ⟨pipealloc (fill PIPESIZE 0#8), [], []⟩ :=
    .init rfl
  obtain ⟨x, hx, hr, ht, hl⟩ := Reach.of_runs
    (.write 1 [1, 2, 3] :: List.replicate 10 (.go 1) ++ .read 2 2 :: List.replicate 7 (.go 2))
    (fun x => x.state.ret 2 = some 2 ∧ x.returned = [1, 2] ∧ x.state.lock = none) h0 (by decide +kernel)
  obtain ⟨q, hq, hlen⟩ := (pipe_is_fifo hx).2
  have hc : x.state.copied = [] := by rw [State.copied, hl]; rfl
  rw [hc, List.append_nil, ht] at hq
  exact ⟨x, hx, hr, ht, q, hq, hlen⟩

/-! ## Wakeups -/

/-- As long as no writer gives up at a full pipe while a reader sleeps, whoever sleeps when the lock is free has to: the
pipe is empty and can still be written, or full and can still be read. -/
theorem no_lost_wakeup (h : Runs page (fun s a => ∀ t, a = .go t → ¬ Abandons s t) s) (hl : s.lock = none) (t : Nat) :
    ((s.pc t).asleep = some .nread → s.pipe.isEmpty ∧ s.pipe.writeopen = true) ∧
    ((s.pc t).asleep = some .nwrite → s.pipe.isFull ∧ s.pipe.readopen = true) := by
  have hi : Inv s := by
    refine Reach.inv ?_ (fun s a s' hs hok hst => hs.next hok hst) h
    rintro _ rfl
    exact inv_pipealloc page
  rcases hi with hf | ⟨u, hu⟩
  · exact ⟨hf.asleep t .nread, hf.asleep t .nwrite⟩
  · rw [hu.lock] at hl; cases hl

/-- No `pipewrite` finds the pipe full when its process has been killed or the read end is closed. -/
def Patient (s : State) : Act → Prop
  | .go t => ¬ (s.pipe.isFull ∧ (s.pipe.readopen = false ∨ s.killed t = true))
  | _ => True

instance (s : State) (a : Act) : Decidable (Patient s a) := by
  cases a <;> unfold Patient <;> infer_instance

theorem Patient.not_abandons {a : Act} (h : Patient s a) (t : Nat) (ha : a = .go t) : ¬ Abandons s t := by
  subst ha
  rintro ⟨_, _, _, hf, hk, _⟩
  exact h ⟨hf, hk⟩

/-- A reader sleeps while the pipe is empty. -/
theorem no_lost_wakeup_empty :
    ∃ s, Runs (fill PIPESIZE 0#8) (fun s a => ∀ t, a = .go t → ¬ Abandons s t) s ∧ (s.pc 1).asleep = some .nread ∧
      s.pipe.isEmpty ∧ s.pipe.writeopen = true := by
  have h0 : Runs (fill PIPESIZE 0#8) Patient (pipealloc (fill PIPESIZE 0#8)) := .init rfl
  obtain ⟨s, hs, hl, ha⟩ := Reach.of_runs [.read 1 1, .go 1, .go 1, .go 1]
    (fun s => s.lock = none ∧ (s.pc 1).asleep = some .nread) h0 (by decide +kernel)
  have hs := hs.mono fun s a h => Patient.not_abandons h
  exact ⟨s, hs, ha, (no_lost_wakeup hs hl 1).1 ha⟩

/-- A reader sleeps, a writer fills the pipe and is killed before it writes one more byte. -/
theorem wakeup_lost :
    ¬ ∀ s, Runs (fill PIPESIZE 0#8) (fun _ _ => True) s → s.lock = none →
      ∀ t, (s.pc t).asleep = some .nread → s.pipe.isEmpty ∧ s.pipe.writeopen = true := by
  intro hall
  have h0 : Runs (fill PIPESIZE 0#8) (fun _ _ => True) (pipealloc (fill PIPESIZE 0#8)) := .init rfl
  obtain ⟨s, hs, hl, ha, he⟩ := Reach.of_runs
    ([.read 1 1, .go 1, .go 1, .go 1, .write 2 (List.replicate 513 7)] ++ List.replicate 1026 (.go 2) ++
      [.kill 2, .go 2, .go 2])
    (fun s => s.lock = none ∧ (s.pc 1).asleep = some .nread ∧ ¬ s.pipe.isEmpty) h0 (by decide +kernel)
  exact he (hall s hs hl 1 ha).1

end Xv6.Pipe
