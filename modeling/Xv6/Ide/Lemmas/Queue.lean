import Xv6.Ide.Model

/-!
# The queue and the device

The device has the command of the first buffer in the queue, and the processes that wait sleep on the buffers in it.
-/

namespace Xv6.Ide

open Xv6.Lib Function List

variable {P B : Type} {s s' : State P B} {p : P} {b : B} {x : Buf P}

def DeviceOk (s : State P B) : Prop :=
  match s.idequeue with
  | [] => s.device = .idle
  | b :: _ => (s.buf b).blockno < FSSIZE ∧
      (s.device = .busy (command b (s.buf b)) ∨
        ∃ out, s.device = .ready (command b (s.buf b)) out ∧
          s.disk ((s.buf b).dev % 2) (s.buf b).blockno = if (s.buf b).dirty then (s.buf b).data else out)

structure Inv (s : State P B) : Prop where
  nodup : s.idequeue.Nodup
  queued : ∀ b ∈ s.idequeue, (s.buf b).synced = false ∧ ∃ p, s.pc p = .asleep b
  asleep : ∀ p b, s.pc p = .asleep b → b ∈ s.idequeue
  awake : ∀ p b, s.pc p = .awake b → b ∉ s.idequeue ∧ (s.buf b).synced = true
  lock : ∀ p, ∀ b ∈ (s.pc p).buf, (s.buf b).lock = some p
  device : DeviceOk s
  fifo : s.calls = s.completed ++ s.idequeue

/-! ## Commands -/

theorem registers_eq {n : Nat} (h : n < FSSIZE) : registers n = n := by
  simp only [FSSIZE] at h
  simp only [registers]
  omega

theorem command_sector (b : B) (h : x.blockno < FSSIZE) : (command b x).sector = x.blockno := by
  have : BSIZE / SECTOR_SIZE = 1 := rfl
  rw [command, this, mul_one, registers_eq h]

theorem idestart_idle (hd : s.device = .idle) (b : B) :
    ((s.buf b).blockno < FSSIZE ∧ idestart s b = { s with device := .busy (command b (s.buf b)) }) ∨
      idestart s b = { s with panicked := some .incorrectBlockno } := by
  unfold idestart
  split
  · exact .inr rfl
  · rename_i h
    rw [hd]
    exact .inl ⟨by omega, rfl⟩

theorem inv_boot (h : Booted s) : Inv s where
  nodup := by simp [h.idequeue]
  queued := by simp [h.idequeue]
  asleep p b hp := by rw [h.pc p] at hp; cases hp
  awake p b hp := by rw [h.pc p] at hp; cases hp
  lock p b hp := by rw [h.pc p] at hp; cases hp
  device := by rw [DeviceOk, h.idequeue]; exact h.device
  fifo := by rw [h.calls, h.completed, h.idequeue]; rfl

/-! ## Outside `iderw` -/

section

variable (h : Inv s)
include h

theorem Inv.free (hp : s.pc p = .outside) (hl : (s.buf b).lock = none ∨ (s.buf b).lock = some p) (q : P) :
    b ∉ (s.pc q).buf := by
  intro hq
  rcases hl with hl | hl
  · rw [h.lock q b hq] at hl; cases hl
  · rw [h.lock q b hq] at hl
    cases hl
    rw [hp] at hq
    cases hq

theorem Inv.not_queued (hf : ∀ q, b ∉ (s.pc q).buf) : b ∉ s.idequeue := by
  intro hb
  obtain ⟨_, q, hq⟩ := h.queued b hb
  exact hf q (by rw [hq]; rfl)

theorem Inv.prepare [DecidableEq B] (hf : ∀ q, b ∉ (s.pc q).buf) (x : Buf P) : Inv { s with buf := update s.buf b x } := by
  have hb := h.not_queued hf
  have hne : ∀ q, ∀ b' ∈ (s.pc q).buf, b' ≠ b := fun q b' hq he => hf q (he ▸ hq)
  have hmem : ∀ b' ∈ s.idequeue, b' ≠ b := fun b' hb' he => hb (he ▸ hb')
  refine ⟨h.nodup, fun b' hb' => ?_, h.asleep, fun q b' hq => ?_, fun q b' hq => ?_, ?_, h.fifo⟩
  · simp only [update_of_ne (hmem b' hb')]
    exact h.queued b' hb'
  · simp only [update_of_ne (hne q b' (by rw [hq]; rfl))]
    exact h.awake q b' hq
  · simp only [update_of_ne (hne q b' hq)]
    exact h.lock q b' hq
  · have hd := h.device
    unfold DeviceOk at hd ⊢
    cases hq : s.idequeue with
    | nil => simpa [hq] using hd
    | cons b' rest =>
      have hne' : b' ≠ b := hmem b' (by simp [hq])
      simpa [hq, update_of_ne hne'] using hd

/-! ## `iderw` -/

theorem Inv.append [DecidableEq P] (hp : s.pc p = .outside) (hl : (s.buf b).lock = some p) (hs : (s.buf b).synced = false)
    {d : Device B} (hd : DeviceOk { s with idequeue := s.idequeue ++ [b], device := d }) :
    Inv (await { s with idequeue := s.idequeue ++ [b], calls := s.calls ++ [b], device := d } p b) := by
  have hf := h.free hp (.inr hl)
  have hb := h.not_queued hf
  have hpc : ∀ q c, update s.pc p (.asleep b) q = c → q = p ∧ c = .asleep b ∨ q ≠ p ∧ s.pc q = c := by
    intro q c hq
    by_cases he : q = p
    · subst he; rw [update_self] at hq; exact .inl ⟨rfl, hq.symm⟩
    · rw [update_of_ne he] at hq; exact .inr ⟨he, hq⟩
  simp only [await, hs, Bool.false_eq_true, if_false]
  refine ⟨?_, fun b' hb' => ?_, fun q b' hq => ?_, fun q b' hq => ?_, fun q b' hq => ?_, hd, ?_⟩
  · rw [nodup_append]
    refine ⟨h.nodup, nodup_singleton b, fun c hc c' hc' he => ?_⟩
    rw [mem_singleton] at hc'
    exact hb (hc' ▸ he ▸ hc)
  · rcases mem_append.mp hb' with hb' | hb'
    · obtain ⟨h1, q, hq⟩ := h.queued b' hb'
      have hqp : q ≠ p := by rintro rfl; rw [hp] at hq; cases hq
      exact ⟨h1, q, (update_of_ne hqp _ _).trans hq⟩
    · obtain rfl := mem_singleton.mp hb'
      exact ⟨hs, p, update_self ..⟩
  · rcases hpc q _ hq with ⟨_, he⟩ | ⟨_, hq⟩
    · cases he; simp
    · exact mem_append_left _ (h.asleep q b' hq)
  · rcases hpc q _ hq with ⟨_, he⟩ | ⟨_, he⟩
    · cases he
    · obtain ⟨h1, h2⟩ := h.awake q b' he
      have hne : b' ≠ b := by rintro rfl; exact hf q (by rw [he]; rfl)
      exact ⟨by simp [h1, hne], h2⟩
  · dsimp only at hq ⊢
    rcases hpc q _ rfl with ⟨rfl, he⟩ | ⟨_, he⟩
    · rw [he] at hq
      cases hq
      exact hl
    · rw [← he] at hq
      exact h.lock q b' hq
  · simp [h.fifo]

theorem Inv.iderw [DecidableEq P] [DecidableEq B] (hn : s.panicked = none) (hst : iderw s p b = some s') :
    s'.panicked ≠ some .overrun ∧ (s'.panicked = none → s.pc p = .outside ∧ (s.buf b).lock = some p ∧
      (s.buf b).synced = false ∧ ∃ d, Inv s' ∧
        s' = await { s with idequeue := s.idequeue ++ [b], calls := s.calls ++ [b], device := d } p b) := by
  unfold Ide.iderw at hst
  split at hst
  · cases hst
  rename_i hp
  simp only [ne_eq, not_not] at hp
  split at hst
  · cases hst; simp
  rename_i hl
  simp only [ne_eq, not_not] at hl
  split at hst
  · cases hst; simp
  rename_i hs
  simp only [Bool.not_eq_true] at hs
  split at hst
  · cases hst; simp
  have hb := h.not_queued (h.free hp (.inr hl))
  have hok := h.device
  unfold DeviceOk at hok
  cases hq : s.idequeue with
  | nil =>
    rw [hq] at hok
    have hi : ({ s with idequeue := s.idequeue ++ [b], calls := s.calls ++ [b] } : State P B).device = .idle := hok
    simp only [hq, nil_append, head?_cons, if_true] at hst
    rcases idestart_idle hi b with ⟨hlt, he⟩ | he
    · simp only [hq, nil_append] at he
      rw [he, if_pos hn] at hst
      cases hst
      refine ⟨by simp [await, hn], fun _ => ⟨hp, hl, hs, _, ?_, rfl⟩⟩
      have := h.append hp hl hs (d := .busy (command b (s.buf b))) (by
        unfold DeviceOk
        simp only [hq, nil_append]
        exact ⟨hlt, .inl trivial⟩)
      simpa [hq] using this
    · simp only [hq, nil_append] at he
      rw [he] at hst
      simp only [reduceCtorEq, if_false, Option.some.injEq] at hst
      subst hst
      simp
  | cons b0 rest =>
    have hne : b0 ≠ b := by rintro rfl; exact hb (by simp [hq])
    simp only [hq, cons_append, head?_cons, Option.some.injEq, hne, if_false] at hst
    rw [if_pos hn] at hst
    cases hst
    refine ⟨by simp [await, hn], fun _ => ⟨hp, hl, hs, s.device, ?_, rfl⟩⟩
    have := h.append hp hl hs (d := s.device) (by
      unfold DeviceOk
      rw [hq] at hok
      simpa only [hq, cons_append] using hok)
    simpa [hq] using this

theorem Inv.resume [DecidableEq P] (hst : resume s p = some s') :
    Inv s' ∧ ∃ b, s.pc p = .awake b ∧ s' = { s with pc := update s.pc p .outside } := by
  unfold Ide.resume at hst
  split at hst
  · rename_i b hp
    have he : await s p b = { s with pc := update s.pc p .outside } := by
      simp [await, (h.awake p b hp).2]
    rw [he] at hst
    cases hst
    have hpc : ∀ q c, c ≠ .outside → update s.pc p .outside q = c → s.pc q = c := by
      intro q c hc hq
      by_cases hqp : q = p
      · subst hqp; rw [update_self] at hq; exact absurd hq.symm hc
      · rwa [update_of_ne hqp] at hq
    refine ⟨⟨h.nodup, fun b' hb' => ?_, fun q b' hq => ?_, fun q b' hq => ?_, fun q b' hq => ?_, h.device, h.fifo⟩, b, hp, rfl⟩
    · obtain ⟨h1, q, hq⟩ := h.queued b' hb'
      have hqp : q ≠ p := by rintro rfl; rw [hp] at hq; cases hq
      exact ⟨h1, q, (update_of_ne hqp _ _).trans hq⟩
    · exact h.asleep q b' (hpc q _ (by simp) hq)
    · exact h.awake q b' (hpc q _ (by simp) hq)
    · dsimp only at hq ⊢
      by_cases hqp : q = p
      · subst hqp
        rw [update_self] at hq
        cases hq
      · rw [update_of_ne hqp] at hq
        exact h.lock q b' hq
  · cases hst

/-! ## The device -/

theorem Inv.busy {c : Command B} (hd : s.device = .busy c) :
    ∃ b rest, s.idequeue = b :: rest ∧ (s.buf b).blockno < FSSIZE ∧ c = command b (s.buf b) := by
  have hok := h.device
  unfold DeviceOk at hok
  cases hq : s.idequeue with
  | nil => simp only [hq, hd, reduceCtorEq] at hok
  | cons b rest =>
    simp only [hq, hd] at hok
    obtain ⟨hlt, he | ⟨out, he, _⟩⟩ := hok
    · cases he; exact ⟨b, rest, rfl, hlt, rfl⟩
    · cases he

theorem Inv.ready {c : Command B} {out : Block} (hd : s.device = .ready c out) :
    ∃ b rest, s.idequeue = b :: rest ∧ (s.buf b).blockno < FSSIZE ∧ c = command b (s.buf b) ∧
      s.disk ((s.buf b).dev % 2) (s.buf b).blockno = if (s.buf b).dirty then (s.buf b).data else out := by
  have hok := h.device
  unfold DeviceOk at hok
  cases hq : s.idequeue with
  | nil => simp only [hq, hd, reduceCtorEq] at hok
  | cons b rest =>
    simp only [hq, hd] at hok
    obtain ⟨hlt, he | ⟨out, he, hdisk⟩⟩ := hok
    · cases he
    · cases he; exact ⟨b, rest, rfl, hlt, rfl, hdisk⟩

theorem Inv.complete (hst : complete s = some s') :
    Inv s' ∧ s'.panicked = s.panicked ∧ s'.buf = s.buf ∧ s'.pc = s.pc ∧ ∃ b rest, s.idequeue = b :: rest ∧
      ∀ d n, s'.disk d n = if (s.buf b).dirty ∧ (d, n) = (s.buf b).block then (s.buf b).data else s.disk d n := by
  unfold Ide.complete at hst
  split at hst
  · rename_i c hd
    obtain ⟨b, rest, hq, hlt, rfl⟩ := h.busy hd
    have hsec := command_sector b hlt
    split at hst
    · rename_i hw
      have hw : (s.buf b).dirty = true := hw
      cases hst
      refine ⟨{ h with device := ?_ }, rfl, rfl, rfl, b, rest, hq, fun d n => ?_⟩
      · unfold DeviceOk
        simp only [hq]
        refine ⟨hlt, .inr ⟨_, rfl, ?_⟩⟩
        rw [hsec, if_pos hw]
        simp [command]
      · rw [hsec]
        by_cases h1 : d = (s.buf b).dev % 2 <;> by_cases h2 : n = (s.buf b).blockno <;>
          simp [command, Buf.block, hw, h1, h2]
    · rename_i hw
      have hw : (s.buf b).dirty = false := by simpa [command] using hw
      cases hst
      refine ⟨{ h with device := ?_ }, rfl, rfl, rfl, b, rest, hq, fun d n => by simp [hw]⟩
      unfold DeviceOk
      simp only [hq]
      refine ⟨hlt, .inr ⟨_, rfl, ?_⟩⟩
      rw [hsec, hw]
      rfl
  · cases hst

end

/-! ## `ideintr` -/

theorem wakeup_buf [DecidableEq B] (pc : P → Pc B) (b : B) (p : P) : (wakeup pc b p).buf = (pc p).buf := by
  unfold wakeup
  split
  · rename_i h
    rw [h]
    rfl
  · rfl

theorem Inv.dequeue [DecidableEq B] (h : Inv s) {rest : List B} (hq : s.idequeue = b :: rest) (out : Block) {d : Device B}
    (hd : DeviceOk { s with idequeue := rest, device := d, buf := update s.buf b (finish (s.buf b) out) }) :
    Inv { s with
      idequeue := rest
      device := d
      buf := update s.buf b (finish (s.buf b) out)
      completed := s.completed ++ [b]
      pc := wakeup s.pc b } := by
  have hnd := nodup_cons.mp (hq ▸ h.nodup)
  have hbuf : ∀ b', b' ≠ b → update s.buf b (finish (s.buf b) out) b' = s.buf b' :=
    fun b' hb' => update_of_ne hb' _ _
  refine ⟨hnd.2, fun b' hb' => ?_, fun q b' hq' => ?_, fun q b' hq' => ?_, fun q b' hq' => ?_, hd, ?_⟩
  · have hne : b' ≠ b := by rintro rfl; exact hnd.1 hb'
    obtain ⟨h1, q, hq'⟩ := h.queued b' (by simp [hq, hb'])
    dsimp only
    rw [hbuf b' hne]
    refine ⟨h1, q, ?_⟩
    rw [wakeup, hq', if_neg (by simpa using hne)]
  · dsimp only [wakeup] at hq'
    split at hq'
    · cases hq'
    · rename_i hne
      have := h.asleep q b' hq'
      rw [hq, mem_cons] at this
      refine this.resolve_left ?_
      rintro rfl
      exact hne hq'
  · dsimp only [wakeup] at hq' ⊢
    split at hq'
    · cases hq'
      rw [update_self]
      exact ⟨hnd.1, rfl⟩
    · obtain ⟨h1, h2⟩ := h.awake q b' hq'
      rw [hq, mem_cons, not_or] at h1
      rw [hbuf b' h1.1]
      exact ⟨h1.2, h2⟩
  · dsimp only at hq' ⊢
    rw [wakeup_buf] at hq'
    by_cases hb : b' = b
    · subst hb
      rw [update_self]
      exact h.lock q b' hq'
    · rw [hbuf b' hb]
      exact h.lock q b' hq'
  · dsimp only
    rw [h.fifo, hq, append_assoc]
    rfl

theorem Inv.ideintr [DecidableEq B] (h : Inv s) (hn : s.panicked = none) (hst : ideintr s = some s') :
    s'.panicked ≠ some .overrun ∧ (s'.panicked = none → Inv s' ∧ ∃ b rest, s.idequeue = b :: rest ∧
      s'.disk = s.disk ∧ s'.pc = wakeup s.pc b ∧ s'.buf = update s.buf b
        { s.buf b with data := s.disk ((s.buf b).dev % 2) (s.buf b).blockno, valid := true, dirty := false }) := by
  unfold Ide.ideintr at hst
  split at hst
  · rename_i c out hd
    obtain ⟨b, rest, hq, -, -, hdisk⟩ := h.ready hd
    simp only [hq] at hst
    have hfin : finish (s.buf b) out =
        { s.buf b with data := s.disk ((s.buf b).dev % 2) (s.buf b).blockno, valid := true, dirty := false } := by
      rw [hdisk, finish]
    cases hr : rest with
    | nil =>
      simp only [hr, Option.some.injEq] at hst
      subst hst
      refine ⟨by simp [hn], fun _ => ⟨?_, b, [], by rw [hq, hr], rfl, rfl, congrArg (update s.buf b) hfin⟩⟩
      exact h.dequeue (hr ▸ hq : s.idequeue = [b]) out rfl
    | cons b' rest' =>
      simp only [hr, Option.some.injEq] at hst
      have hidle : ({ s with
          device := .idle
          idequeue := b' :: rest'
          completed := s.completed ++ [b]
          buf := update s.buf b (finish (s.buf b) out)
          pc := wakeup s.pc b } : State P B).device = .idle := rfl
      rcases idestart_idle hidle b' with ⟨hlt, he⟩ | he
      · rw [he] at hst
        subst hst
        refine ⟨by simp [hn], fun _ => ⟨?_, b, _, by rw [hq, hr], rfl, rfl, congrArg (update s.buf b) hfin⟩⟩
        exact h.dequeue (hr ▸ hq) out ⟨hlt, .inl rfl⟩
      · rw [he] at hst
        subst hst
        simp
  · cases hst

/-! ## All steps -/

theorem Inv.own [DecidableEq P] [DecidableEq B] (h : Inv s) (hst : own s p b x = some s') :
    Inv s' ∧ s' = { s with buf := update s.buf b x } ∧ ∀ q, b ∉ (s.pc q).buf := by
  unfold Ide.own at hst
  split at hst
  · rename_i hc
    cases hst
    have hf := h.free hc.1 hc.2.1
    exact ⟨h.prepare hf x, rfl, hf⟩
  · cases hst

theorem Inv.step [DecidableEq P] [DecidableEq B] {a : Act P B} (h : Inv s) (hst : step s a = some s') :
    s'.panicked ≠ some .overrun ∧ (s'.panicked = none → Inv s') := by
  unfold Ide.step at hst
  split at hst
  · rename_i hn
    cases a with
    | own p b x =>
      obtain ⟨hi, rfl, _⟩ := h.own hst
      exact ⟨by simp [hn], fun _ => hi⟩
    | iderw p b =>
      obtain ⟨ho, hi⟩ := h.iderw hn hst
      exact ⟨ho, fun hp => (hi hp).2.2.2.choose_spec.1⟩
    | resume p =>
      obtain ⟨hi, _, _, rfl⟩ := h.resume hst
      exact ⟨by simp [hn], fun _ => hi⟩
    | complete =>
      obtain ⟨hi, hp, _⟩ := h.complete hst
      exact ⟨by simp [hp, hn], fun _ => hi⟩
    | ideintr =>
      obtain ⟨ho, hi⟩ := h.ideintr hn hst
      exact ⟨ho, fun hp => (hi hp).1⟩
  · cases hst

end Xv6.Ide
