import Xv6.Pipe.Model

/-!
# Who sleeps on a pipe

The holder of `p->lock` may owe a wakeup to the sleepers. The exception is `pipewrite` when it gives up at a full pipe.
-/

namespace Xv6.Pipe

open Function State

variable {s s' : State} {t u : Nat} {c : Chan} {pc : Pc} {addr : List (BitVec 8)}

def Blocked (p : Pipe) : Chan → Prop
  | .nread => p.isEmpty ∧ p.writeopen = true
  | .nwrite => p.isFull ∧ p.readopen = true

def Pc.inside : Pc → Bool
  | .idle => false
  | .write l _ _ => l ∉ [.acquire, .asleep, .woken]
  | .read l _ _ => l ∉ [.acquire, .asleep, .woken]
  | .close l _ => l ≠ .acquire

def Pc.drowsy : Pc → Option Chan
  | .write .wake _ _ | .write .sleep _ _ => some .nwrite
  | .read .sleep _ _ => some .nread
  | _ => none

/-- The process will call `wakeup(c)` before it releases the lock, unless it gives up. -/
def Pc.wakes : Pc → Option Chan
  | .write .loop _ _ | .write .full _ _ | .write .wake _ _ | .write .done _ _ => some .nread
  | .read .copy _ _ | .read .done _ _ => some .nwrite
  | .close .wake writable => some (if writable then .nread else .nwrite)
  | _ => none

structure Free (s : State) : Prop where
  lock : s.lock = none
  outside : ∀ u, (s.pc u).inside = false
  asleep : ∀ u c, (s.pc u).asleep = some c → Blocked s.pipe c

structure Held (s : State) (t : Nat) : Prop where
  lock : s.lock = some t
  outside : ∀ u, u ≠ t → (s.pc u).inside = false
  inside : (s.pc t).inside = true
  drowsy : ∀ c, (s.pc t).drowsy = some c → Blocked s.pipe c
  asleep : ∀ u c, (s.pc u).asleep = some c → Blocked s.pipe c ∨ (s.pc t).wakes = some c

def Inv (s : State) : Prop := Free s ∨ ∃ t, Held s t

/-- Process `t` gives up at a full pipe while another process sleeps on `&p->nread`. -/
def Abandons (s : State) (t : Nat) : Prop :=
  ∃ addr i, s.pc t = .write .full addr i ∧ s.pipe.isFull ∧ (s.pipe.readopen = false ∨ s.killed t = true) ∧
    ∃ u, (s.pc u).asleep = some .nread

/-! ## Sleeping and waking -/

theorem asleep_of_inside (h : pc.inside = true) : pc.asleep = none := by
  cases pc with
  | idle | close => rfl
  | write l | read l => cases l <;> first | rfl | cases h

theorem asleep_rouse (pc : Pc) : pc.rouse.asleep = none := by
  cases pc with
  | idle | close => rfl
  | write l | read l => cases l <;> rfl

theorem inside_rouse (pc : Pc) : pc.rouse.inside = pc.inside := by
  cases pc with
  | idle | close => rfl
  | write l | read l => cases l <;> rfl

theorem rouse_of_awake (h : pc.asleep = none) : pc.rouse = pc := by
  cases pc with
  | idle | close => rfl
  | write l | read l => cases l <;> first | rfl | cases h

theorem inside_wakeup (s : State) (c : Chan) (u : Nat) : ((s.wakeup c).pc u).inside = (s.pc u).inside := by
  simp only [wakeup]
  split
  · exact inside_rouse _
  · rfl

theorem asleep_wakeup {c' : Chan} (h : ((s.wakeup c).pc u).asleep = some c') : (s.pc u).asleep = some c' ∧ c' ≠ c := by
  simp only [wakeup] at h
  split at h
  · rw [asleep_rouse] at h; cases h
  · rename_i hne
    exact ⟨h, fun he => hne (he ▸ h)⟩

/-! ## Steps of the holder -/

theorem asleep_update {f : Nat → Pc} (hi : pc.inside = true) (h : (update f t pc u).asleep = some c) : (f u).asleep = some c := by
  by_cases hu : u = t
  · subst hu
    rw [update_self, asleep_of_inside hi] at h
    cases h
  · rwa [update_of_ne hu] at h

theorem Held.change (h : Held s t) (hi : pc.inside = true) (hl : s'.lock = s.lock)
    (hpc : s'.pc = update s.pc t pc) (hd : ∀ c, pc.drowsy = some c → Blocked s'.pipe c)
    (hw : ∀ u c, (s.pc u).asleep = some c → Blocked s'.pipe c ∨ pc.wakes = some c) : Held s' t := by
  refine ⟨hl.trans h.lock, fun u hu => ?_, ?_, ?_, fun u c hc => ?_⟩
  · rw [hpc, update_of_ne hu]; exact h.outside u hu
  · rw [hpc, update_self]; exact hi
  · rw [hpc, update_self]; exact hd
  · rw [hpc] at hc
    rw [hpc, update_self]
    exact hw u c (asleep_update hi hc)

section

variable {pc0 : Pc} (h : Held s t) (hpc : s.pc t = pc0)
include h hpc

theorem Held.move (hi : pc.inside = true) (hd : ∀ c, pc.drowsy = some c → Blocked s.pipe c)
    (hw : pc0.wakes = none ∨ pc.wakes = pc0.wakes) : Held (s.setPc t pc) t := by
  subst hpc
  refine h.change hi rfl rfl hd fun u c hc => (h.asleep u c hc).imp_right fun hb => ?_
  rcases hw with hw | hw
  · rw [hw] at hb; cases hb
  · rw [hw]; exact hb

theorem Held.wakeup (hi : pc.inside = true) (hd : ∀ c, pc.drowsy = some c → Blocked s.pipe c) (hw : pc0.wakes = some c) :
    Held ((s.wakeup c).setPc t pc) t := by
  subst hpc
  have hpc : (s.wakeup c).pc t = s.pc t := if_neg (by rw [asleep_of_inside h.inside]; simp)
  have hs : Held (s.wakeup c) t := by
    refine ⟨h.lock, fun u hu => ?_, ?_, ?_, fun u c' hc => ?_⟩
    · rw [inside_wakeup]; exact h.outside u hu
    · rw [inside_wakeup]; exact h.inside
    · rw [hpc]; exact h.drowsy
    · rw [hpc]; exact h.asleep u c' (asleep_wakeup hc).1
  refine hs.change hi rfl rfl hd fun u c' hc => (hs.asleep u c' hc).imp_right fun hb => ?_
  rw [hpc, hw] at hb
  exact absurd (Option.some.inj hb).symm (asleep_wakeup hc).2

theorem Held.release (hi : pc.inside = false) (hw : pc0.wakes = none) (ha : ∀ c, pc.asleep = some c → Blocked s.pipe c) :
    Free (s.release t pc) := by
  refine ⟨rfl, fun u => ?_, fun u c hc => ?_⟩
  · by_cases hu : u = t
    · subst hu; simpa only [State.release, State.setPc, update_self] using hi
    · simp only [State.release, State.setPc, update_of_ne hu]; exact h.outside u hu
  · by_cases hu : u = t
    · subst hu
      simp only [State.release, State.setPc, update_self] at hc
      exact ha c hc
    · simp only [State.release, State.setPc, update_of_ne hu] at hc
      refine (h.asleep u c hc).resolve_right fun hb => ?_
      rw [hpc, hw] at hb
      cases hb

theorem Held.return' (hw : pc0.wakes = none) (r : Int) : Free (s.return' t r) := by
  have hf : Free (s.release t .idle) := h.release hpc rfl hw fun c hc => by cases hc
  exact ⟨hf.lock, hf.outside, hf.asleep⟩

end

theorem Free.acquire (h : Free s) (hi : pc.inside = true) (hd : pc.drowsy = none) (ha : s.acquire t pc = some s') : Held s' t := by
  unfold State.acquire at ha
  split at ha <;> cases ha
  refine ⟨rfl, fun u hu => ?_, ?_, fun c hc => ?_, fun u c hc => .inl (h.asleep u c (asleep_update hi hc))⟩
  · simp only [setPc, update_of_ne hu]; exact h.outside u
  · simpa only [setPc, update_self] using hi
  · simp only [setPc, update_self] at hc
    rw [hd] at hc
    cases hc

/-! ## All steps -/

section

variable (h : Inv s)
include h

theorem Inv.held (hpc : s.pc t = pc) (hi : pc.inside = true) : Held s t := by
  subst hpc
  rcases h with hf | ⟨u, hu⟩
  · rw [hf.outside t] at hi; cases hi
  · have : t = u := by
      by_contra hne
      rw [hu.outside t hne] at hi
      cases hi
    exact this ▸ hu

theorem Inv.acquire (hi : pc.inside = true) (hd : pc.drowsy = none) (ha : s.acquire t pc = some s') : Inv s' := by
  rcases h with hf | ⟨u, hu⟩
  · exact .inr ⟨t, hf.acquire hi hd ha⟩
  · simp [State.acquire, hu.lock] at ha

theorem Inv.outside (hi : pc.inside = (s.pc t).inside) (ha : pc.asleep = none) (ho : (s.pc t).inside = true → pc = s.pc t)
    (hl : s'.lock = s.lock) (hp : s'.pipe = s.pipe) (hpc : s'.pc = update s.pc t pc) : Inv s' := by
  have hin : ∀ u, (s'.pc u).inside = (s.pc u).inside := by
    intro u
    rw [hpc]
    by_cases hu : u = t
    · subst hu; rw [update_self, hi]
    · rw [update_of_ne hu]
  have has : ∀ u c, (s'.pc u).asleep = some c → (s.pc u).asleep = some c := by
    intro u c hc
    rw [hpc] at hc
    by_cases hu : u = t
    · subst hu; rw [update_self, ha] at hc; cases hc
    · rwa [update_of_ne hu] at hc
  rcases h with hf | ⟨v, hv⟩
  · exact .inl ⟨hl.trans hf.lock, fun u => (hin u).trans (hf.outside u), fun u c hc => hp ▸ hf.asleep u c (has u c hc)⟩
  · have hsame : s'.pc v = s.pc v := by
      rw [hpc]
      by_cases hvt : v = t
      · subst hvt; rw [update_self, ho hv.inside]
      · rw [update_of_ne hvt]
    refine .inr ⟨v, hl.trans hv.lock, fun u hu => (hin u).trans (hv.outside u hu), (hin v).trans hv.inside, ?_, ?_⟩
    · rw [hsame, hp]; exact hv.drowsy
    · rw [hsame, hp]; exact fun u c hc => hv.asleep u c (has u c hc)

theorem Inv.pipewrite {i : Nat} {l : WriteAt} (hpc : s.pc t = .write l addr i)
    (hok : ¬ Abandons s t) (hst : pipewrite s t addr i l = some s') : Inv s' := by
  cases l with
  | acquire | woken => exact h.acquire rfl rfl hst
  | asleep => cases hst
  | loop =>
    cases hst
    have hh := h.held hpc rfl
    refine .inr ⟨t, hh.move hpc ?_ ?_ (.inr ?_)⟩
    · split <;> rfl
    · split <;> exact fun c hc => by cases hc
    · split <;> rfl
  | full =>
    have hh := h.held hpc rfl
    simp only [Pipe.pipewrite] at hst
    split at hst
    · rename_i hf
      split at hst
      · rename_i hg
        cases hst
        refine .inr ⟨t, hh.change rfl rfl rfl (fun c hc => by cases hc) fun u c hc => .inl ?_⟩
        rcases hh.asleep u c hc with hb | hb
        · exact hb
        · rw [hpc] at hb
          cases hb
          exact absurd ⟨addr, i, hpc, hf, by simpa using hg, u, hc⟩ hok
      · rename_i hg
        cases hst
        refine .inr ⟨t, hh.move hpc rfl (fun c hc => ?_) (.inr rfl)⟩
        cases hc
        exact ⟨hf, by simp_all⟩
    · rename_i hf
      cases hst
      refine .inr ⟨t, hh.change rfl rfl rfl (fun c hc => by cases hc) fun u c hc => ?_⟩
      -- The pipe is not full, so nobody sleeps on `&p->nwrite`.
      rcases hh.asleep u c hc with hb | hb
      · cases c with
        | nread => exact .inr rfl
        | nwrite => exact absurd hb.1 hf
      · rw [hpc] at hb
        exact .inr hb
  | wake =>
    cases hst
    have hh := h.held hpc rfl
    exact .inr ⟨t, hh.wakeup hpc rfl (fun c hc => hh.drowsy c (by rw [hpc]; exact hc)) rfl⟩
  | sleep =>
    cases hst
    have hh := h.held hpc rfl
    exact .inl (hh.release hpc rfl rfl fun c hc => hh.drowsy c (by rw [hpc]; exact hc))
  | done =>
    cases hst
    have hh := h.held hpc rfl
    exact .inr ⟨t, hh.wakeup hpc rfl (fun c hc => by cases hc) rfl⟩
  | release | fail =>
    cases hst
    have hh := h.held hpc rfl
    exact .inl (hh.return' hpc rfl _)

theorem Inv.piperead {n : Nat} {l : ReadAt} (hpc : s.pc t = .read l n addr)
    (hst : piperead s t n addr l = some s') : Inv s' := by
  cases l with
  | acquire | woken => exact h.acquire rfl rfl hst
  | asleep => cases hst
  | empty =>
    have hh := h.held hpc rfl
    simp only [Pipe.piperead] at hst
    split at hst
    · rename_i he
      cases hst
      refine .inr ⟨t, hh.move hpc ?_ (fun c hc => ?_) (.inl rfl)⟩
      · split <;> rfl
      · split at hc <;> cases hc
        exact he
    · cases hst
      exact .inr ⟨t, hh.move hpc rfl (fun c hc => by cases hc) (.inl rfl)⟩
  | copy =>
    have hh := h.held hpc rfl
    simp only [Pipe.piperead] at hst
    split at hst
    · rename_i hc
      cases hst
      refine .inr ⟨t, hh.change rfl rfl rfl (fun c hc => by cases hc) fun u c hu => ?_⟩
      -- The pipe is not empty, so nobody sleeps on `&p->nread`.
      rcases hh.asleep u c hu with hb | hb
      · cases c with
        | nread => exact absurd hb.1 hc.2
        | nwrite => exact .inr rfl
      · rw [hpc] at hb
        exact .inr hb
    · cases hst
      exact .inr ⟨t, hh.move hpc rfl (fun c hc => by cases hc) (.inr rfl)⟩
  | sleep =>
    cases hst
    have hh := h.held hpc rfl
    exact .inl (hh.release hpc rfl rfl fun c hc => hh.drowsy c (by rw [hpc]; exact hc))
  | done =>
    cases hst
    have hh := h.held hpc rfl
    exact .inr ⟨t, hh.wakeup hpc rfl (fun c hc => by cases hc) rfl⟩
  | release | fail =>
    cases hst
    have hh := h.held hpc rfl
    exact .inl (hh.return' hpc rfl _)

theorem Inv.pipeclose {writable : Bool} {l : CloseAt} (hpc : s.pc t = .close l writable)
    (hst : pipeclose s t writable l = some s') : Inv s' := by
  cases l with
  | acquire => exact h.acquire rfl rfl hst
  | clear =>
    cases hst
    have hh := h.held hpc rfl
    refine .inr ⟨t, hh.change rfl rfl rfl (fun c hc => by cases hc) fun u c hc => ?_⟩
    -- Closing one end does not concern those who sleep because of the other one.
    rcases hh.asleep u c hc with hb | hb
    · cases writable <;> cases c <;> first | exact .inr rfl | exact .inl hb
    · rw [hpc] at hb; cases hb
  | wake =>
    cases hst
    have hh := h.held hpc rfl
    exact .inr ⟨t, hh.wakeup hpc rfl (fun c hc => by cases hc) rfl⟩
  | release =>
    cases hst
    have hh := h.held hpc rfl
    exact .inl (hh.return' hpc rfl _)

theorem Inv.next {a : Act} (hok : ∀ t, a = .go t → ¬ Abandons s t) (hst : step s a = some s') : Inv s' := by
  cases a with
  | write t addr | read t n | close t writable =>
    simp only [step, begin] at hst
    split at hst <;> cases hst
    rename_i hpc
    exact h.outside (t := t) (by rw [hpc]; rfl) rfl (fun hi => by rw [hpc] at hi; cases hi) rfl rfl rfl
  | kill t =>
    cases hst
    exact h.outside (inside_rouse _) (asleep_rouse _) (fun hi => rouse_of_awake (asleep_of_inside hi)) rfl rfl rfl
  | go t =>
    simp only [step, go] at hst
    split at hst
    · cases hst
    · rename_i hpc; exact h.pipewrite hpc (hok t rfl) hst
    · rename_i hpc; exact h.piperead hpc hst
    · rename_i hpc; exact h.pipeclose hpc hst

end

theorem inv_pipealloc (page : Lib.Bytes PIPESIZE) : Inv (pipealloc page) :=
  .inl ⟨rfl, fun _ => rfl, fun _ _ h => by cases h⟩

end Xv6.Pipe
