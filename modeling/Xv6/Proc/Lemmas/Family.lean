import Mathlib.Data.List.Induction
import Xv6.Proc.Model

/-!
# Parents and children

A slot that is being filled by `fork` is an `EMBRYO` of the forking process, so that `fork` may write to it without the lock.
-/

namespace Xv6.Ptable

open Function List Table

variable {t : Table} {p q : Slot} {f : Proc → Bool} {t' : Table} {chan : Option Chan}

/-! ## The invariant -/

def ProcState.live : ProcState → Bool
  | .SLEEPING | .RUNNABLE | .RUNNING => true
  | _ => false

def Pc.np : Pc → Option Slot
  | .none => Option.none
  | .kstack np | .copy np | .ready np => some np

def Pc.hasContext : Pc → Bool
  | .copy _ | .ready _ => true
  | _ => false

def Proc.inWait (q : Proc) : Prop := q.state = .SLEEPING ∧ q.resume = .wait

structure Family (t : Table) : Prop where
  init : (t.proc initproc).state.live = true ∧ (t.proc initproc).pid = 1 ∧ (t.proc initproc).parent = none
  unused : ∀ p, (t.proc p).state = .UNUSED → (t.proc p).parent = none
  forker : ∀ p q, (t.proc p).state = .EMBRYO → (t.proc p).parent = some q → (t.proc q).pc = .ready p
  forking : ∀ p q, (t.proc q).pc.np = some p → (t.proc p).state = .EMBRYO ∧ (t.proc q).state.live = true
  single : ∀ p q q', (t.proc q).pc.np = some p → (t.proc q').pc.np = some p → q = q'
  saved : ∀ p q, (t.proc q).pc.np = some p → (t.proc q).pc.hasContext = true → (t.proc p).saved = true
  ready : ∀ p q, (t.proc q).pc = .ready p → (t.proc p).parent = some q
  parent : ∀ p, p ≠ initproc → (t.proc p).state.live = true ∨ (t.proc p).state = .ZOMBIE →
    ∃ q f, (t.proc p).parent = some q ∧ q ≠ p ∧ (t.proc q).state.live = true ∧ ((t.proc p).pid, f) ∈ t.forks ∧
      (f = (t.proc q).pid ∨ f ∈ t.exits ∧ q = initproc)
  asleep : ∀ p, (t.proc p).inWait → (t.proc p).chan = some (.proc p) ∧
    ∀ q, (t.proc q).parent = some p → (t.proc q).state ≠ .ZOMBIE
  pid_lt : ∀ p, (t.proc p).state ≠ .UNUSED → (t.proc p).pid < t.nextpid
  pid_inj : ∀ p q, (t.proc p).state ≠ .UNUSED → (t.proc q).state ≠ .UNUSED → (t.proc p).pid = (t.proc q).pid → p = q
  exited : ∀ p, (t.proc p).state ≠ .UNUSED → ((t.proc p).pid ∈ t.exits ↔ (t.proc p).state = .ZOMBIE)
  exits_lt : ∀ x ∈ t.exits, x < t.nextpid
  forks_lt : ∀ x ∈ t.forks, x.1 < t.nextpid
  fresh : ∀ p, (t.proc p).state = .EMBRYO → ∀ f, ((t.proc p).pid, f) ∉ t.forks
  forks_nodup : (t.forks.map Prod.fst).Nodup
  waited : ∀ x ∈ t.waits, x.2 ≠ -1 → ∃ pid ∈ t.exits, x.2 = ↑pid ∧ ∃ f, (pid, f) ∈ t.forks ∧ (x.1 = f ∨ f ∈ t.exits ∧ x.1 = 1)
  zombie : ∀ p, (t.proc p).state = .ZOMBIE → ↑(t.proc p).pid ∉ t.waits.map Prod.snd
  waits_nodup : ((t.waits.map Prod.snd).filter (· ≠ -1)).Nodup

theorem family_init {n : Nat} : Family (init : State n).tab := by
  have hp (p : Slot) : ((init : State n).tab.proc p).state.live = true ∧ p = initproc ∨ ((init : State n).tab.proc p).state = .UNUSED := by
    by_cases h : p = initproc
    · exact .inl ⟨by simp [init, h, ProcState.live], h⟩
    · exact .inr (by simp [init, h])
  have hpar (p : Slot) : ((init : State n).tab.proc p).parent = none := by simp only [init]; split <;> rfl
  have hpc (p : Slot) : ((init : State n).tab.proc p).pc = .none := by simp only [init]; split <;> rfl
  have hr (p : Slot) : ((init : State n).tab.proc p).resume = .forkret := by simp only [init]; split <;> rfl
  have hl {p : Slot} (h : ((init : State n).tab.proc p).state.live = true) : p = initproc :=
    ((hp p).resolve_right fun hu => by rw [hu] at h; cases h).2
  have hn {p : Slot} (h : ((init : State n).tab.proc p).state ≠ .UNUSED) : p = initproc := ((hp p).resolve_right h).2
  constructor
  case init => exact ⟨rfl, rfl, rfl⟩
  case unused => exact fun p _ => hpar p
  case forker => intro p q _ hq; rw [hpar] at hq; cases hq
  case forking => intro p q hq; rw [hpc] at hq; cases hq
  case single => intro p q q' hq; rw [hpc] at hq; cases hq
  case saved => intro p q hq; rw [hpc] at hq; cases hq
  case ready => intro p q hq; rw [hpc] at hq; cases hq
  case parent =>
    rintro p hi (hs | hs)
    · exact absurd (hl hs) hi
    · exact absurd (hn (by rw [hs]; nofun)) hi
  case asleep => intro p hw; have := hw.2; rw [hr] at this; cases this
  case pid_lt => intro p hs; cases hn hs; exact Nat.lt_succ_self 1
  case pid_inj => intro p q hp hq _; exact (hn hp).trans (hn hq).symm
  case exited => intro p hs; cases hn hs; exact ⟨nofun, nofun⟩
  case exits_lt => nofun
  case forks_lt => nofun
  case fresh => nofun
  case forks_nodup => exact nodup_nil
  case waited => nofun
  case zombie => nofun
  case waits_nodup => exact nodup_nil

/-! ## One entry of the table -/

section SetProc

variable {r : Proc}

theorem Table.setProc_proc (q : Slot) : (t.setProc p r).proc q = if q = p then r else t.proc q := by
  simp [setProc, update_apply]

@[simp] theorem Table.setProc_nextpid : (t.setProc p r).nextpid = t.nextpid := rfl

@[simp] theorem Table.setProc_forks : (t.setProc p r).forks = t.forks := rfl

@[simp] theorem Table.setProc_exits : (t.setProc p r).exits = t.exits := rfl

@[simp] theorem Table.setProc_waits : (t.setProc p r).waits = t.waits := rfl

end SetProc

/-! ## Changes that leave the family as it is -/

def ProcState.same (a b : ProcState) : Prop := a = b ∨ a.live = true ∧ b.live = true

structure Same (a b : Proc) : Prop where
  state : a.state.same b.state
  pid : b.pid = a.pid
  parent : b.parent = a.parent
  pc : b.pc = a.pc
  saved : a.state = .EMBRYO → b.saved = a.saved

theorem Same.refl (a : Proc) : Same a a := ⟨.inl rfl, rfl, rfl, rfl, fun _ => rfl⟩

theorem ProcState.same.live {a b : ProcState} (h : a.same b) : b.live = a.live := by
  rcases h with rfl | ⟨ha, hb⟩
  · rfl
  · rw [ha, hb]

theorem ProcState.same.iff {a b c : ProcState} (h : a.same b) (hc : c.live = false) : b = c ↔ a = c := by
  rcases h with rfl | ⟨ha, hb⟩
  · rfl
  · constructor
    · rintro rfl; rw [hb] at hc; cases hc
    · rintro rfl; rw [ha] at hc; cases hc

theorem Family.same (h : Family t) {f : Slot → Proc} (hf : ∀ p, Same (t.proc p) (f p))
    (hw : ∀ p, (f p).inWait → (t.proc p).inWait ∧ (f p).chan = (t.proc p).chan ∨
      (f p).chan = some (.proc p) ∧ ∀ q, (t.proc q).parent = some p → (t.proc q).state ≠ .ZOMBIE) : Family { t with proc := f } := by
  have hl p := (hf p).state.live
  have hu p := (hf p).state.iff (c := .UNUSED) rfl
  have he p := (hf p).state.iff (c := .EMBRYO) rfl
  have hz p := (hf p).state.iff (c := .ZOMBIE) rfl
  have hpid p := (hf p).pid
  have hpar p := (hf p).parent
  have hpc p := (hf p).pc
  constructor <;> simp only [hl, hu, he, hz, hpid, hpar, hpc, ne_eq]
  case asleep =>
    intro p hp
    rcases hw p hp with ⟨hp', hc⟩ | hp'
    · rw [hc]; exact h.asleep p hp'
    · exact hp'
  case saved =>
    intro p q hq hc
    rw [(hf p).saved (h.forking p q hq).1]
    exact h.saved p q hq hc
  all_goals cases h; assumption

theorem Family.setProc (h : Family t) {r : Proc} (hr : Same (t.proc p) r) (hw : r.inWait → (t.proc p).inWait ∧ r.chan = (t.proc p).chan ∨
      r.chan = some (.proc p) ∧ ∀ q, (t.proc q).parent = some p → (t.proc q).state ≠ .ZOMBIE) : Family (t.setProc p r) := by
  refine h.same (fun q => ?_) fun q hq => ?_
  all_goals by_cases hqp : q = p
  · subst hqp; rw [update_self]; exact hr
  · rw [update_of_ne hqp]; exact .refl _
  · subst hqp; rw [update_self] at hq ⊢; exact hw hq
  · rw [update_of_ne hqp] at hq ⊢; exact .inl ⟨hq, rfl⟩

theorem Family.wakeup1 (h : Family t) (chan : Option Chan) : Family (t.wakeup1 chan) := by
  refine h.same (fun q => ?_) fun q hq => ?_
  all_goals simp only at *; split
  · rename_i hs
    exact ⟨.inr ⟨by rw [hs.1]; rfl, rfl⟩, rfl, rfl, rfl, fun _ => rfl⟩
  · exact .refl _
  · rename_i hs
    rw [if_pos hs] at hq
    cases hq.1
  · rename_i hs
    rw [if_neg hs] at hq
    exact .inl ⟨hq, rfl⟩

/-! ## Searches -/

theorem Table.find_some (h : t.find f = some p) : f (t.proc p) = true := by
  have := find?_some h
  exact this

theorem Table.find_none (h : t.find f = none) (p : Slot) : f (t.proc p) = false := by
  have := find?_eq_none.mp h p (mem_finRange p)
  simpa using this

theorem Family.kill (h : Family t) (pid : Int) : Family (t.kill pid) := by
  unfold Table.kill
  split
  · rename_i p _
    by_cases hs : (t.proc p).state = .SLEEPING
    · refine h.setProc ⟨.inr ⟨by rw [hs]; rfl, by rw [if_pos hs]; rfl⟩, rfl, rfl, rfl, fun _ => rfl⟩ fun hw => ?_
      rw [if_pos hs] at hw
      cases hw.1
    · rw [if_neg hs]
      exact h.setProc ⟨.inl rfl, rfl, rfl, rfl, fun _ => rfl⟩ fun hw => .inl ⟨hw, rfl⟩
  · exact h

/-! ## `fork` -/

section Fill

variable {np : Slot} {a : Proc} {c : Pc}

theorem Table.fill_proc (hne : np ≠ p) (q : Slot) :
    (t.fill p np a c).proc q = if q = p then { t.proc p with pc := c } else if q = np then a else t.proc q := by
  simp [fill, setProc_proc, if_neg hne.symm]

@[simp] theorem Table.fill_nextpid : (t.fill p np a c).nextpid = t.nextpid := rfl

@[simp] theorem Table.fill_forks : (t.fill p np a c).forks = t.forks := rfl

@[simp] theorem Table.fill_exits : (t.fill p np a c).exits = t.exits := rfl

@[simp] theorem Table.fill_waits : (t.fill p np a c).waits = t.waits := rfl

section

variable (h : Family t)
include h

theorem Family.pc_of_not_live (hp : (t.proc p).state.live = false) : (t.proc p).pc.np = none := by
  cases hpc : (t.proc p).pc.np with
  | none => rfl
  | some np =>
    have := (h.forking np p hpc).2
    rw [hp] at this
    cases this

theorem Family.no_parent (hpc : (t.proc p).pc.np = some np) (hr : (t.proc p).pc ≠ .ready np) :
    (t.proc np).parent = none := by
  cases hq : (t.proc np).parent with
  | none => rfl
  | some q =>
    have hq := h.forker np q (h.forking np p hpc).1 hq
    cases h.single np p q hpc (by rw [hq]; rfl)
    exact absurd hq hr

attribute [local grind] Pc.np ProcState.live Pc.hasContext Proc.inWait

theorem Family.allocproc (hp : (t.proc p).state.live = true) (hpc : (t.proc p).pc = .none) : Family (t.allocproc p) := by
  unfold Table.allocproc
  split
  case h_2 => exact h
  rename_i np hnp
  have hnp : (t.proc np).state = .UNUSED := by simpa using find_some hnp
  have hne : np ≠ p := by rintro rfl; rw [hnp] at hp; cases hp
  have hpc' : (t.proc np).pc.np = none := h.pc_of_not_live (by rw [hnp]; rfl)
  constructor <;> simp only [fill_proc hne, fill_forks, fill_exits, fill_waits]
  case parent =>
    intro r hr hs
    obtain ⟨q, f, hq⟩ := h.parent r hr (by grind)
    exact ⟨q, f, by grind⟩
  case init => grind [h.init]
  case unused => grind [h.unused]
  case forker => grind [h.forker, h.unused]
  case forking => grind [h.forking]
  case single => have := h.single; have := h.forking; grind
  case saved => grind [h.saved, h.forking]
  case ready => grind [h.ready, h.forking]
  case asleep => grind [h.asleep]
  case pid_lt => have := h.pid_lt; grind
  case pid_inj => have := h.pid_inj; have := h.pid_lt; grind
  case exited => have := h.exited; have := h.exits_lt; grind
  case exits_lt => have := h.exits_lt; grind
  case forks_lt => have := h.forks_lt; grind
  case fresh => have := h.fresh; have := h.forks_lt; grind
  case zombie => grind [h.zombie]
  all_goals cases h; assumption

theorem Family.fill (hpc : (t.proc p).pc.np = some np) (hs : a.state = .EMBRYO) (hi : a.pid = (t.proc np).pid)
    (ha : a.pc.np = none) (hc : c.np = some np) (hv : c.hasContext = true → a.saved = true)
    (hr : a.parent = if c = .ready np then some p else none) : Family (t.fill p np a c) := by
  obtain ⟨hnp, hp⟩ := h.forking np p hpc
  have hne : np ≠ p := by rintro rfl; rw [hnp] at hp; cases hp
  constructor <;> simp only [fill_proc hne, fill_nextpid, fill_forks, fill_exits, fill_waits]
  case parent =>
    intro r hr hs
    obtain ⟨q, f, hq⟩ := h.parent r hr (by grind)
    exact ⟨q, f, by grind⟩
  case init => grind [h.init]
  case unused => grind [h.unused]
  case forker => have := h.forker; have := h.forking; grind
  case forking => grind [h.forking]
  case single => grind [h.single]
  case saved => grind [h.saved, h.single]
  case ready => have := h.ready; have := h.single; have := h.forking; grind
  case asleep => grind [h.asleep]
  case pid_lt => have := h.pid_lt; grind
  case pid_inj => grind [h.pid_inj]
  case exited => grind [h.exited]
  case fresh => grind [h.fresh]
  case zombie => grind [h.zombie]
  all_goals cases h; assumption

theorem Family.unfill (hpc : (t.proc p).pc.np = some np) (hs : a.state = .UNUSED) (ha : a.pc = (t.proc np).pc)
    (hr : a.parent = none) : Family (t.fill p np a .none) := by
  obtain ⟨hnp, hp⟩ := h.forking np p hpc
  have hne : np ≠ p := by rintro rfl; rw [hnp] at hp; cases hp
  have hpc' : (t.proc np).pc.np = none := h.pc_of_not_live (by rw [hnp]; rfl)
  constructor <;> simp only [fill_proc hne, fill_nextpid, fill_forks, fill_exits, fill_waits]
  case parent =>
    intro r hr hs
    obtain ⟨q, f, hq⟩ := h.parent r hr (by grind)
    exact ⟨q, f, by grind⟩
  case init => grind [h.init]
  case unused => grind [h.unused]
  case forker => grind [h.forker]
  case forking => grind [h.forking, h.single]
  case single => grind [h.single]
  case saved => grind [h.saved, h.single]
  case ready => have := h.ready; have := h.single; grind
  case asleep => grind [h.asleep]
  case pid_lt => have := h.pid_lt; grind
  case pid_inj => grind [h.pid_inj]
  case exited => grind [h.exited]
  case fresh => grind [h.fresh]
  case zombie => grind [h.zombie]
  all_goals cases h; assumption

theorem Family.kstack (hpc : (t.proc p).pc = .kstack np) (ok : Bool) : Family (t.kstack p np ok) := by
  have hnp : (t.proc p).pc.np = some np := by rw [hpc]; rfl
  have hpar := h.no_parent hnp (by rw [hpc]; nofun)
  have hs := (h.forking np p hnp).1
  cases ok with
  | true => exact h.fill hnp hs rfl rfl rfl (fun _ => rfl) hpar
  | false => exact h.unfill hnp rfl rfl hpar

theorem Family.copy (hpc : (t.proc p).pc = .copy np) (ok : Bool) : Family (t.copy p np ok) := by
  have hnp : (t.proc p).pc.np = some np := by rw [hpc]; rfl
  have hpar := h.no_parent hnp (by rw [hpc]; nofun)
  have hs := (h.forking np p hnp).1
  have hv := h.saved np p hnp (by rw [hpc]; rfl)
  have ha := h.pc_of_not_live (p := np) (by rw [hs]; rfl)
  cases ok with
  | true => exact h.fill hnp hs rfl ha rfl (fun _ => hv) (by simp)
  | false => exact h.unfill hnp rfl rfl hpar

theorem Family.fork_ready (hpc : (t.proc p).pc = .ready np) : Family (t.ready p np) := by
  have hnp : (t.proc p).pc.np = some np := by rw [hpc]; rfl
  obtain ⟨hs, hp⟩ := h.forking np p hnp
  have hne : np ≠ p := by rintro rfl; rw [hs] at hp; cases hp
  have hpar := h.ready np p hpc
  have hpc' : (t.proc np).pc.np = none := h.pc_of_not_live (by rw [hs]; rfl)
  have hf := h.fresh np hs
  constructor <;> simp only [Table.ready, Table.fill_proc hne, Table.fill_nextpid, Table.fill_exits, Table.fill_waits]
  case parent =>
    intro r hr hs
    by_cases hrn : r = np
    · subst hrn
      exact ⟨p, (t.proc p).pid, by grind⟩
    · obtain ⟨q, f, hq⟩ := h.parent r hr (by grind)
      exact ⟨q, f, by grind⟩
  case init => grind [h.init]
  case unused => grind [h.unused]
  case forker => grind [h.forker]
  case forking => grind [h.forking, h.single]
  case single => grind [h.single]
  case saved => grind [h.saved, h.single]
  case ready => grind [h.ready, h.single]
  case asleep => grind [h.asleep]
  case pid_lt => have := h.pid_lt; grind
  case pid_inj => grind [h.pid_inj]
  case exited => grind [h.exited]
  case forks_lt => have := h.forks_lt; have := h.pid_lt; grind
  case fresh => grind [h.fresh, h.pid_inj]
  case forks_nodup =>
    refine nodup_cons.mpr ⟨fun hm => ?_, h.forks_nodup⟩
    obtain ⟨⟨_, f⟩, hx, rfl⟩ := mem_map.mp hm
    exact hf f hx
  case waited => have := h.waited; grind
  case zombie => grind [h.zombie]
  all_goals cases h; assumption

end

end Fill

/-! ## `exit` -/

structure Reparented (p : Slot) (l : List Slot) (t t' : Table) : Prop where
  parent : ∀ q, (t'.proc q).parent = if (t.proc q).parent = some p ∧ q ∈ l then some initproc else (t.proc q).parent
  state : ∀ q, (t'.proc q).state = (t.proc q).state ∨ (t.proc q).state = .SLEEPING ∧ (t'.proc q).state = .RUNNABLE
  rest : ∀ q, t'.proc q = { t.proc q with parent := (t'.proc q).parent, state := (t'.proc q).state }
  woken : ∀ q ∈ l, (t.proc q).parent = some p → (t.proc q).state = .ZOMBIE →
    ∀ r, (t.proc r).chan = some (.proc initproc) → (t'.proc r).state ≠ .SLEEPING
  nextpid : t'.nextpid = t.nextpid
  forks : t'.forks = t.forks
  exits : t'.exits = t.exits
  waits : t'.waits = t.waits

theorem Reparented.nil : Reparented p [] t t :=
  ⟨fun _ => by simp, fun _ => .inl rfl, fun _ => rfl, nofun, rfl, rfl, rfl, rfl⟩

theorem Reparented.step (hp : p ≠ initproc) {l : List Slot} (h : Reparented p l t t') (q : Slot) :
    Reparented p (l ++ [q]) t (t'.reparent1 p q) := by
  have hq := h.parent q
  by_cases hq' : (t'.proc q).parent = some p
  case neg =>
    rw [reparent1, if_neg hq']
    have : ¬ ((t.proc q).parent = some p ∧ q ∉ l) := by grind
    exact ⟨by have := h.parent; grind, h.state, h.rest, by have := h.woken; grind, h.nextpid, h.forks, h.exits, h.waits⟩
  -- the entry of `q`, before any wakeup
  have hset (r : Slot) : ((t'.setProc q { t'.proc q with parent := some initproc }).proc r) =
      { t'.proc r with parent := if r = q then some initproc else (t'.proc r).parent } := by
    rw [setProc_proc]
    split
    · subst r; rfl
    · rfl
  rw [reparent1, if_pos hq']
  dsimp only at hset ⊢
  split
  · rename_i hz
    refine ⟨fun r => ?_, fun r => ?_, fun r => ?_, fun r hr => ?_, h.nextpid, h.forks, h.exits, h.waits⟩
    all_goals simp only [wakeup1, hset] at hz ⊢
    · have := h.parent r; grind
    · have := h.state r; grind
    · have := h.rest r; grind
    · have := h.rest; grind
  · rename_i hz
    refine ⟨fun r => ?_, fun r => ?_, fun r => ?_, fun r hr => ?_, h.nextpid, h.forks, h.exits, h.waits⟩
    all_goals simp only [hset] at hz ⊢
    · have := h.parent r; grind
    · exact h.state r
    · have := h.rest r; grind
    · have := h.woken r; have := h.state; grind

theorem reparented (hp : p ≠ initproc) : Reparented p (finRange NPROC) t (t.reparent p) := by
  unfold reparent
  induction finRange NPROC using reverseRecOn with
  | nil => exact .nil
  | append_singleton l q ih =>
    rw [foldl_append]
    exact ih.step hp q

theorem Table.exit_waits (hp : p ≠ initproc) : (t.exit p).waits = t.waits := by
  have hw (chan : Option Chan) : (t.wakeup1 chan).waits = t.waits := rfl
  simp only [exit, setProc_waits, (reparented hp).waits, hw]

theorem Table.wakeup1_not_sleeping (hc : (t.proc q).chan = chan) : ((t.wakeup1 chan).proc q).state ≠ .SLEEPING := by
  simp only [wakeup1]
  split
  · nofun
  · rename_i hs
    exact fun h => hs ⟨h, hc⟩

theorem Table.wakeup1_chan (chan : Option Chan) : ((t.wakeup1 chan).proc q).chan = (t.proc q).chan := by
  simp only [wakeup1]; split <;> rfl

theorem Table.wakeup1_of_ne (hs : (t.proc q).state ≠ .SLEEPING) :
    (t.wakeup1 chan).proc q = t.proc q := if_neg fun h => hs h.1

section Exit

attribute [local grind] Pc.np ProcState.live Pc.hasContext Proc.inWait

/-- The end of `exit`, once the parent is awake and the children belong to init. -/
theorem Family.zombify (h : Family t) (hr : Reparented p (finRange NPROC) t t') (hp : p ≠ initproc) (hs : (t.proc p).state = .RUNNING)
    (hpc : (t.proc p).pc = .none) (hw : ∀ q, (t.proc p).parent = some q → (t.proc q).chan = some (.proc q) → (t.proc q).state ≠ .SLEEPING) :
    Family { t'.setProc p { t'.proc p with state := .ZOMBIE, resume := .exit } with exits := (t'.proc p).pid :: t'.exits } := by
  have hmem (q : Slot) := mem_finRange q
  have hpar := hr.parent
  have hst := hr.state
  have hrest := hr.rest
  constructor <;> simp only [setProc_proc, setProc_nextpid, setProc_forks, setProc_waits,
    hr.nextpid, hr.forks, hr.exits, hr.waits]
  case parent =>
    intro r hr hs
    obtain ⟨q, f, hq⟩ := h.parent r hr (by grind)
    by_cases hqp : q = p
    · refine ⟨initproc, f, ?_⟩
      have := h.init
      grind
    · exact ⟨q, f, by grind⟩
  case init => grind [h.init]
  case unused => grind [h.unused]
  case forker => grind [h.forker]
  case forking => grind [h.forking]
  case single => grind [h.single]
  case saved => grind [h.saved]
  case ready => grind [h.ready]
  case asleep =>
    intro r hw'
    have hrp : r ≠ p := by rintro rfl; rw [if_pos rfl] at hw'; cases hw'.1
    rw [if_neg hrp] at hw' ⊢
    have hsl : (t.proc r).inWait := by grind
    obtain ⟨hc, hz⟩ := h.asleep r hsl
    refine ⟨by grind, fun q hq => ?_⟩
    by_cases hqp : q = p
    · -- the parent of `p` has been woken
      obtain ⟨q', _, hq', hne, _⟩ := h.parent p hp (by rw [hs]; exact .inl rfl)
      grind
    · by_cases hc' : (t.proc q).parent = some p
      · -- init is awake if it has got a zombie
        have := hr.woken q (hmem q) hc'
        grind
      · have := hz q
        grind
  case pid_lt => have := h.pid_lt; grind
  case pid_inj => grind [h.pid_inj]
  case exited => grind [h.exited, h.pid_inj]
  case exits_lt => have := h.exits_lt; have := h.pid_lt; grind
  case fresh => grind [h.fresh]
  case waited => have := h.waited; grind
  case zombie => have := h.zombie; have := h.waited; have := h.exited; grind
  all_goals cases h; assumption

theorem Family.exit (h : Family t) (hp : p ≠ initproc) (hs : (t.proc p).state = .RUNNING) (hpc : (t.proc p).pc = .none) :
    Family (t.exit p) := by
  have he : (t.wakeup1 ((t.proc p).parent.map .proc)).proc p = t.proc p := wakeup1_of_ne (by rw [hs]; nofun)
  refine (h.wakeup1 _).zombify (reparented hp) hp (by rw [he, hs]) (by rw [he, hpc]) fun q hq hc => ?_
  rw [he] at hq
  rw [wakeup1_chan] at hc
  exact wakeup1_not_sleeping (by rw [hc, hq]; rfl)

theorem Family.reap (h : Family t) (hq : (t.proc q).parent = some p) (hz : (t.proc q).state = .ZOMBIE) : Family (t.reap p q) := by
  have hqi : q ≠ initproc := by rintro rfl; have := h.init.1; rw [hz] at this; cases this
  obtain ⟨_, f, hq', _, _, hf, hc⟩ := h.parent q hqi (.inr hz)
  cases hq.symm.trans hq'
  constructor <;> simp only [Table.reap, Table.setProc_proc, Table.setProc_nextpid, Table.setProc_forks, Table.setProc_exits]
  case parent =>
    intro r hr hs
    obtain ⟨q, f, hq⟩ := h.parent r hr (by grind)
    exact ⟨q, f, by grind⟩
  case init => grind [h.init]
  case unused => grind [h.unused]
  case forker => grind [h.forker]
  case forking => have := h.forking; grind
  case single => grind [h.single, h.forking]
  case saved => have := h.saved; have := h.forking; grind
  case ready => grind [h.ready, h.forking]
  case asleep => grind [h.asleep]
  case pid_lt => have := h.pid_lt; grind
  case pid_inj => grind [h.pid_inj]
  case exited => grind [h.exited]
  case fresh => grind [h.fresh]
  case waited => have := h.waited; have := h.exited; have := h.init; grind
  case zombie => grind [h.zombie, h.pid_inj]
  case waits_nodup =>
    rw [map_cons, filter_cons_of_pos (by simp)]
    exact nodup_cons.mpr ⟨fun hm => h.zombie q hz (mem_of_mem_filter hm), h.waits_nodup⟩
  all_goals cases h; assumption

theorem Family.noChild (h : Family t) (p : Slot) : Family (t.noChild p) := by
  constructor <;> simp only [Table.noChild]
  case waited => have := h.waited; grind
  case zombie => have := h.zombie; grind
  case waits_nodup => exact h.waits_nodup
  all_goals cases h; assumption

end Exit

/-! ## `wait` -/

theorem Table.round_child (h : t.round p = .child q) : (t.proc q).parent = some p ∧ (t.proc q).state = .ZOMBIE := by
  unfold round at h
  split at h
  · cases h
    rename_i hq
    simpa using find_some hq
  · split at h <;> cases h

theorem Table.round_fail (h : t.round p = .fail) : (∀ q, (t.proc q).parent ≠ some p) ∨ (t.proc p).killed = true := by
  unfold round at h
  split at h
  · cases h
  · split at h
    · rename_i hc
      exact hc.imp_left fun hn q => by simpa using find_none hn q
    · cases h

theorem Table.round_sleep (h : t.round p = .sleep) (hq : (t.proc q).parent = some p) : (t.proc q).state ≠ .ZOMBIE := by
  unfold round at h
  split at h
  · cases h
  · rename_i hn
    have := find_none hn q
    simpa [hq] using this

theorem Family.tidy (h : Family t) (hs : (t.proc p).state = .RUNNING) : Family (t.tidy p) :=
  h.setProc ⟨.inl rfl, rfl, rfl, rfl, fun _ => rfl⟩ fun hw => by cases hs.symm.trans hw.1

theorem Family.sleep (h : Family t) (hs : (t.proc p).state = .RUNNING) {chan : Chan} {r : Resume}
    (hr : r = .wait → chan = .proc p ∧ ∀ q, (t.proc q).parent = some p → (t.proc q).state ≠ .ZOMBIE) : Family (t.sleep p chan r) := by
  refine h.setProc ⟨.inr ⟨by rw [hs]; rfl, rfl⟩, rfl, rfl, rfl, fun _ => rfl⟩ fun hw => .inr ?_
  obtain ⟨hc, hq⟩ := hr hw.2
  exact ⟨congrArg some hc, hq⟩

end Xv6.Ptable
