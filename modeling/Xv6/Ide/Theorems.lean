import Xv6.Ide.Lemmas.Queue
import Xv6.Lib.Trans

/-!
# Theorems about the disk driver

That a process finds its buffer equal to the disk needs that nobody else writes the block before `iderw` returns.
-/

namespace Xv6.Ide

open Xv6.Lib Function

variable {P B : Type} [DecidableEq P] [DecidableEq B] {s s' : State P B} {a : Act P B}

def Runs (ok : State P B → Act P B → Prop) : State P B → Prop := Reach Booted step ok

def Good (s : State P B) : Prop := s.panicked ≠ some .overrun ∧ (s.panicked = none → Inv s)

theorem running (hst : step s a = some s') : s.panicked = none := by
  unfold step at hst
  split at hst
  · assumption
  · cases hst

theorem Runs.good {ok : State P B → Act P B → Prop} (h : Runs ok s) : Good s := by
  refine Reach.inv (P := Good) (fun s hs => ?_) (fun s a s' hs _ hst => ?_) h
  · exact ⟨by simp [hs.panicked], fun _ => inv_boot hs⟩
  · exact (hs.2 (running hst)).step hst

/-! ## Buffers and disk blocks -/

/-- Calls in progress are for different disk blocks, and a process that has been woken finds its buffer equal to its
block. -/
structure Fresh (s : State P B) : Prop where
  apart : ∀ p q, ∀ b ∈ (s.pc p).buf, ∀ b' ∈ (s.pc q).buf, b ≠ b' → (s.buf b).block ≠ (s.buf b').block
  current : ∀ p b, s.pc p = .awake b → (s.buf b).data = s.disk ((s.buf b).dev % 2) (s.buf b).blockno

omit [DecidableEq B] in
theorem Fresh.iderw {p : P} {b : B} {d : Device B} (h : Fresh s) (hs : (s.buf b).synced = false) (ha : Apart s (.iderw p b)) :
    Fresh (await { s with idequeue := s.idequeue ++ [b], calls := s.calls ++ [b], device := d } p b) := by
  simp only [await, hs, Bool.false_eq_true, if_false]
  have hpc : ∀ q b', b' ∈ (update s.pc p (.asleep b) q).buf → b' = b ∨ b' ∈ (s.pc q).buf := by
    intro q b' hq
    by_cases he : q = p
    · subst he; rw [update_self] at hq; cases hq; exact .inl rfl
    · rw [update_of_ne he] at hq; exact .inr hq
  refine ⟨fun q r c hc c' hc' hne => ?_, fun q c hq => ?_⟩
  · rcases hpc q c hc with rfl | h1
    · rcases hpc r c' hc' with rfl | h2
      · exact absurd rfl hne
      · exact (ha r c' h2 hne.symm).symm
    · rcases hpc r c' hc' with rfl | h2
      · exact ha q c h1 hne
      · exact h.apart q r c h1 c' h2 hne
  · dsimp only at hq
    by_cases he : q = p
    · subst he; rw [update_self] at hq; cases hq
    · rw [update_of_ne he] at hq
      exact h.current q c hq

theorem Fresh.step (h : Fresh s) (hi : Inv s) (ha : Apart s a) (hst : step s a = some s') (hn : s'.panicked = none) : Fresh s' := by
  have hr := running hst
  unfold Ide.step at hst
  rw [if_pos hr] at hst
  cases a with
  | own p b x =>
    obtain ⟨-, rfl, hf⟩ := hi.own hst
    have hne : ∀ q, ∀ c ∈ (s.pc q).buf, update s.buf b x c = s.buf c :=
      fun q c hc => update_of_ne (by rintro rfl; exact hf q hc) _ _
    refine ⟨fun q r c hc c' hc' => ?_, fun q c hq => ?_⟩
    · dsimp only
      rw [hne q c hc, hne r c' hc']
      exact h.apart q r c hc c' hc'
    · dsimp only
      rw [hne q c (by rw [hq]; rfl)]
      exact h.current q c hq
  | iderw p b =>
    obtain ⟨-, -, hs, d, -, rfl⟩ := (hi.iderw hr hst).2 hn
    exact h.iderw hs ha
  | resume p =>
    obtain ⟨-, b, hp, rfl⟩ := hi.resume hst
    have hpc : ∀ q, ∀ c ∈ (update s.pc p .outside q).buf, c ∈ (s.pc q).buf := by
      intro q c hc
      by_cases he : q = p
      · subst he; rw [update_self] at hc; cases hc
      · rwa [update_of_ne he] at hc
    refine ⟨fun q r c hc c' hc' => h.apart q r c (hpc q c hc) c' (hpc r c' hc'), fun q c hq => ?_⟩
    dsimp only at hq
    by_cases he : q = p
    · subst he; rw [update_self] at hq; cases hq
    · rw [update_of_ne he] at hq
      exact h.current q c hq
  | complete =>
    obtain ⟨-, -, hbuf, hpc, b, rest, hq, hdisk⟩ := hi.complete hst
    refine ⟨by rw [hbuf, hpc]; exact h.apart, fun q c hc => ?_⟩
    rw [hpc] at hc
    -- A process sleeps on the head of the queue, so it is another buffer.
    have hb : b ∈ s.idequeue := by simp [hq]
    obtain ⟨-, r, hr⟩ := hi.queued b hb
    have hne : c ≠ b := by rintro rfl; exact (hi.awake q c hc).1 hb
    have hbl := h.apart q r c (by rw [hc]; rfl) b (by rw [hr]; rfl) hne
    rw [hbuf, hdisk, if_neg (fun he => hbl he.2)]
    exact h.current q c hc
  | ideintr =>
    obtain ⟨-, b, rest, hq, hdisk, hpc, hbuf⟩ := (hi.ideintr hr hst).2 hn
    have hblock : ∀ c, (s'.buf c).block = (s.buf c).block := by
      intro c
      rw [hbuf]
      by_cases he : c = b
      · subst he; rw [update_self]; rfl
      · rw [update_of_ne he]
    refine ⟨fun q r c hc c' hc' => ?_, fun q c hc => ?_⟩
    · rw [hblock, hblock]
      rw [hpc, wakeup_buf] at hc hc'
      exact h.apart q r c hc c' hc'
    · rw [hpc, wakeup] at hc
      rw [hbuf, hdisk]
      split at hc
      · cases hc
        rw [update_self]
      · have hne : c ≠ b := by rintro rfl; exact (hi.awake q c hc).1 (by simp [hq])
        rw [update_of_ne hne]
        exact h.current q c hc

theorem Runs.fresh (h : Runs Apart s) (hn : s.panicked = none) : Fresh s := by
  suffices hg : (s.panicked = none → Inv s) ∧ (s.panicked = none → Fresh s) from hg.2 hn
  refine Reach.inv (P := fun s => (s.panicked = none → Inv s) ∧ (s.panicked = none → Fresh s)) (fun s hs => ?_)
    (fun s a s' hs ha hst => ?_) h
  · refine ⟨fun _ => inv_boot hs, fun _ => ⟨fun p q b hb => ?_, fun p b hp => ?_⟩⟩
    · rw [hs.pc p] at hb; cases hb
    · rw [hs.pc p] at hp; cases hp
  · have hr := running hst
    exact ⟨fun hn => ((hs.1 hr).step hst).2 hn, fun hn => (hs.2 hr).step (hs.1 hr) ha hst hn⟩

/-! ## Requests -/

/-- `iderw(b)` of `p` is in progress in `s` or called by `a`, and it has returned in `s'`. -/
def Returns (s : State P B) (a : Act P B) (s' : State P B) (p : P) (b : B) : Prop :=
  (b ∈ (s.pc p).buf ∨ a = .iderw p b) ∧ step s a = some s' ∧ s'.panicked = none ∧ s'.pc p = .outside

theorem Inv.returns {p : P} {b : B} (h : Inv s) (hr : Returns s a s' p b) :
    s.pc p = .awake b ∧ s' = { s with pc := update s.pc p .outside } := by
  obtain ⟨hin, hst, hn, hout⟩ := hr
  have hrun := running hst
  unfold Ide.step at hst
  rw [if_pos hrun] at hst
  cases a with
  | own q c x =>
    obtain ⟨-, rfl, -⟩ := h.own hst
    rcases hin with hin | hin
    · rw [show s.pc p = .outside from hout] at hin
      cases hin
    · cases hin
  | iderw q c =>
    obtain ⟨hq, -, hs, d, -, rfl⟩ := (h.iderw hrun hst).2 hn
    simp only [await, hs, Bool.false_eq_true, if_false] at hout
    have hqp : p ≠ q := by rintro rfl; rw [update_self] at hout; cases hout
    rw [update_of_ne hqp] at hout
    rcases hin with hin | hin
    · rw [hout] at hin
      cases hin
    · cases hin
      exact absurd rfl hqp
  | resume q =>
    obtain ⟨-, c, hq, rfl⟩ := h.resume hst
    rcases hin with hin | hin
    · by_cases hqp : p = q
      · subst hqp
        rw [hq] at hin
        cases hin
        exact ⟨hq, rfl⟩
      · rw [show s.pc p = .outside from (update_of_ne hqp _ _).symm.trans hout] at hin
        cases hin
    · cases hin
  | complete =>
    obtain ⟨-, -, -, hpc, -⟩ := h.complete hst
    rcases hin with hin | hin
    · rw [← hpc, hout] at hin
      cases hin
    · cases hin
  | ideintr =>
    obtain ⟨-, c, rest, -, -, hpc, -⟩ := (h.ideintr hrun hst).2 hn
    rcases hin with hin | hin
    · rw [← wakeup_buf _ c, ← hpc, hout] at hin
      cases hin
    · cases hin

def Device.command : Device B → Option (Command B)
  | .idle => none
  | .busy c | .ready c _ => some c

omit [DecidableEq P] [DecidableEq B] in
theorem Inv.command (h : Inv s) : s.device.command = s.idequeue.head?.map fun b => Ide.command b (s.buf b) := by
  have hd := h.device
  unfold DeviceOk at hd
  cases hq : s.idequeue with
  | nil => simp only [hq] at hd; rw [hd]; rfl
  | cons b rest =>
    simp only [hq] at hd
    obtain ⟨-, he | ⟨out, he, -⟩⟩ := hd <;> rw [he] <;> rfl

/-- What the device and the handler may transfer: the head of the queue to its block, or its block to it. -/
structure Transfers (s : State P B) (a : Act P B) (s' : State P B) : Prop where
  complete : a = .complete → ∃ b, s.idequeue.head? = some b ∧ s'.buf = s.buf ∧ ∀ d n,
    s'.disk d n = if (s.buf b).dirty ∧ (d, n) = (s.buf b).block then (s.buf b).data else s.disk d n
  ideintr : a = .ideintr → s'.panicked = none → ∃ b, s.idequeue.head? = some b ∧ s'.disk = s.disk ∧
    s'.buf = update s.buf b
      { s.buf b with data := s.disk ((s.buf b).dev % 2) (s.buf b).blockno, valid := true, dirty := false }
  others : a ≠ .complete → a ≠ .ideintr → (∀ p b x, a ≠ .own p b x) → s'.panicked = none → s'.disk = s.disk ∧ s'.buf = s.buf

theorem Inv.transfers (h : Inv s) (hst : Ide.step s a = some s') : Transfers s a s' := by
  have hr := running hst
  unfold Ide.step at hst
  rw [if_pos hr] at hst
  refine ⟨?_, ?_, fun h1 h2 h3 hn => ?_⟩
  · rintro rfl
    obtain ⟨-, -, hbuf, -, b, rest, hq, hdisk⟩ := h.complete hst
    exact ⟨b, by simp [hq], hbuf, hdisk⟩
  · rintro rfl hn
    obtain ⟨-, b, rest, hq, hdisk, -, hbuf⟩ := (h.ideintr hr hst).2 hn
    exact ⟨b, by simp [hq], hdisk, hbuf⟩
  · cases a with
    | own p b x => exact absurd rfl (h3 p b x)
    | iderw p b =>
      obtain ⟨-, -, -, d, -, rfl⟩ := (h.iderw hr hst).2 hn
      exact ⟨rfl, rfl⟩
    | resume p =>
      obtain ⟨-, b, -, rfl⟩ := h.resume hst
      exact ⟨rfl, rfl⟩
    | complete => exact absurd rfl h1
    | ideintr => exact absurd rfl h2

/-- Each buffer is queued at most once, the device has the command of the head of the queue, and the requests complete in the order of
the calls. When `iderw` returns its buffer is valid and clean, and equal to its disk block if no two calls are in progress for one. -/
theorem iderw_queue (h : Runs (fun _ _ => True) s) :
    s.panicked ≠ some .overrun ∧ (s.panicked = none →
      s.idequeue.Nodup ∧
      s.device.command = s.idequeue.head?.map (fun b => command b (s.buf b)) ∧
      s.calls = s.completed ++ s.idequeue ∧
      (∀ a s', step s a = some s' → Transfers s a s') ∧
      ∀ a s' p b, Returns s a s' p b →
        (s'.buf b).valid = true ∧ (s'.buf b).dirty = false ∧
        (Runs Apart s → (s'.buf b).data = s'.disk ((s'.buf b).dev % 2) (s'.buf b).blockno)) := by
  obtain ⟨ho, hi⟩ := h.good
  refine ⟨ho, fun hn => ?_⟩
  have hi := hi hn
  refine ⟨hi.nodup, hi.command, hi.fifo, fun a s' => hi.transfers, fun a s' p b hr => ?_⟩
  obtain ⟨hp, rfl⟩ := hi.returns hr
  have hs := (hi.awake p b hp).2
  rw [Buf.synced, Bool.and_eq_true, Bool.not_eq_true'] at hs
  exact ⟨hs.1, hs.2, fun ha => (ha.fresh hn).current p b hp⟩

/-! ## Two devices on one disk -/

def boot : State (Fin 2) (Fin 2) where
  buf _ := { dev := 0, blockno := 0, valid := false, dirty := false, lock := none, data := Bytes.fill BSIZE 0 }
  idequeue := []
  device := .idle
  disk _ _ := Bytes.fill BSIZE 0
  havedisk1 := true
  pc _ := .outside
  panicked := none
  calls := []
  completed := []

theorem booted_boot : Booted boot := ⟨rfl, rfl, fun _ => rfl, rfl, rfl, rfl⟩

def dirtyBuf (p : Fin 2) (dev blockno : Nat) (v : BitVec 8) : Buf (Fin 2) where
  dev := dev
  blockno := blockno
  valid := true
  dirty := true
  lock := some p
  data := Bytes.fill BSIZE v

/-- Devices 0 and 2 are one disk, and the write for the one is overwritten by the write for the other before the first process
runs again. -/
theorem iderw_stale_data : ∃ (s s' : State (Fin 2) (Fin 2)) (a : Act (Fin 2) (Fin 2)) (p b : Fin 2),
    Runs (fun _ _ => True) s ∧ Returns s a s' p b ∧
      (s'.buf b).data ≠ s'.disk ((s'.buf b).dev % 2) (s'.buf b).blockno := by
  have h0 : Runs (fun _ _ => True) boot := .init booted_boot
  obtain ⟨s, hs, _, hpc, hr⟩ := Reach.of_runs
    [.own 0 0 (dirtyBuf 0 0 100 1), .own 1 1 (dirtyBuf 1 2 100 2), .iderw 0 0, .iderw 1 1, .complete, .ideintr, .complete]
    (fun s => s.panicked = none ∧ s.pc 0 = .awake 0 ∧ (step s (.resume 0)).any fun s' =>
      decide (s'.panicked = none ∧ s'.pc 0 = .outside ∧
        (s'.buf 0).data.get 0 ≠ (s'.disk ((s'.buf 0).dev % 2) (s'.buf 0).blockno).get 0))
    h0 (by decide +kernel)
  obtain ⟨s', hst, hr⟩ := (Option.any_eq_true _ _).mp hr
  obtain ⟨hn, hout, hne⟩ := of_decide_eq_true hr
  exact ⟨s, s', .resume 0, 0, 0, hs, ⟨.inl (by rw [hpc]; rfl), hst, hn, hout⟩, fun he => hne (congrArg (·.get 0) he)⟩

/-- A write and a read of one process each: both return. -/
theorem iderw_queue_returns : ∃ s s' : State (Fin 2) (Fin 2), Runs Apart s ∧ Returns s (.resume 1) s' 1 1 ∧
    s.completed = [0, 1] ∧ (s'.buf 1).valid = true ∧ (s'.buf 1).dirty = false ∧
      (s'.buf 1).data = s'.disk ((s'.buf 1).dev % 2) (s'.buf 1).blockno := by
  have h0 : Runs Apart boot := .init booted_boot
  obtain ⟨s, hs, hn, hc, hpc, hr⟩ := Reach.of_runs
    [.own 0 0 (dirtyBuf 0 0 100 1), .own 1 1 { dirtyBuf 1 1 7 2 with valid := false, dirty := false }, .iderw 0 0, .iderw 1 1,
      .complete, .ideintr, .complete, .resume 0, .ideintr]
    (fun s => s.panicked = none ∧ s.completed = [0, 1] ∧ s.pc 1 = .awake 1 ∧
      (step s (.resume 1)).any fun s' => decide (s'.panicked = none ∧ s'.pc 1 = .outside))
    h0 (by decide +kernel)
  obtain ⟨s', hst, hr⟩ := (Option.any_eq_true _ _).mp hr
  obtain ⟨hn', hout⟩ := of_decide_eq_true hr
  have hret : Returns s (.resume 1) s' 1 1 := ⟨.inl (by rw [hpc]; rfl), hst, hn', hout⟩
  obtain ⟨hv, hd, he⟩ := ((iderw_queue (hs.mono fun _ _ _ => trivial)).2 hn).2.2.2.2 _ _ _ _ hret
  exact ⟨s, s', hs, hret, hc, hv, hd, he hs⟩

end Xv6.Ide
