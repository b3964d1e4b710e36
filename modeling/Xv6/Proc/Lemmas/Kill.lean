import Mathlib.Data.Fintype.Basic
import Mathlib.Data.Fintype.Defs
import Xv6.Proc.Lemmas.Sched

/-!
# `kill` and the slots of the table

A slot that `fork` gives back keeps its pid and `p->killed`, and so does the next process in it for the latter.
-/

namespace Xv6.Ptable

open Option State Table Ptable

variable {n : Nat} {s s' : State n} {t t' : Table} {c : Fin n} {p q np : Slot} {pid : Int} {m : Pc} {a : Act n} {k : Call}

/-! ## What `kill` is for -/

def Proc.kill (q : Proc) : Proc :=
  { q with killed := true, state := if q.state = .SLEEPING then .RUNNABLE else q.state }

def Proc.Is (q : Proc) (pid : Int) : Prop := q.state ≠ .UNUSED ∧ (q.pid : Int) = pid

instance (q : Proc) (pid : Int) : Decidable (q.Is pid) := inferInstanceAs (Decidable (_ ∧ _))

/-- `kill(pid)` marks the process with that pid and nothing else, and fails if there is none. -/
structure KillExact (t : Table) (pid : Int) : Prop where
  zero : t.killRet pid = 0 ↔ ∃ p, (t.proc p).Is pid
  only : ∀ p, (t.kill pid).proc p = if (t.proc p).Is pid then (t.proc p).kill else t.proc p
  fail : t.killRet pid ≠ 0 → t.killRet pid = -1 ∧ t.kill pid = t

/-- No `kill` is called with the pid of an `UNUSED` slot, and no `fork` fails after its child was killed. -/
def Spares (s : State n) : Act n → Prop
  | .call _ (.kill pid) => ∀ p, (s.tab.proc p).state = .UNUSED → ((s.tab.proc p).pid : Int) ≠ pid
  | .call c (.kstack false) | .call c (.copy false) =>
    ∀ p ∈ (s.cpu c).proc, ∀ np ∈ (s.tab.proc p).pc.np, (s.tab.proc np).killed = false
  | _ => True

instance (s : State n) (a : Act n) : Decidable (Spares s a) :=
  match a with
  | .call _ (.kill _) => Fintype.decidableForallFintype
  | .call c (.kstack false) | .call c (.copy false) =>
    inferInstanceAs (Decidable (∀ p ∈ (s.cpu c).proc, ∀ np ∈ (s.tab.proc p).pc.np, (s.tab.proc np).killed = false))
  | .call _ (.kstack true) | .call _ (.copy true) | .call _ .yield | .call _ (.sleep _) | .call _ (.wakeup _)
  | .call _ .fault | .call _ .fork | .call _ .ready | .call _ .exit | .call _ .wait
  | .acquire _ | .scan _ | .swtch _ | .resume _ | .intr _ _ => isTrue trivial

def Clean (t : Table) : Prop := ∀ p, (t.proc p).state = .UNUSED → (t.proc p).killed = false

/-! ## What a step does to the table -/

structure Plain (a b : Proc) : Prop where
  pid : b.pid = a.pid
  killed : b.killed = a.killed
  unused : b.state = .UNUSED ↔ a.state = .UNUSED

theorem Plain.refl (a : Proc) : Plain a a := ⟨rfl, rfl, Iff.rfl⟩

theorem Plain.trans {a b d : Proc} (h : Plain a b) (h' : Plain b d) : Plain a d :=
  ⟨h'.pid.trans h.pid, h'.killed.trans h.killed, h'.unused.trans h.unused⟩

theorem Plain.of_ne {a b : Proc} (hp : b.pid = a.pid) (hk : b.killed = a.killed) (ha : a.state ≠ .UNUSED)
    (hb : b.state ≠ .UNUSED) : Plain a b := ⟨hp, hk, fun h => absurd h hb, fun h => absurd h ha⟩

theorem Plain.setProc {r : Proc} (h : Plain (t.proc p) r) (q : Slot) : Plain (t.proc q) ((t.setProc p r).proc q) := by
  rw [setProc_proc]
  split
  · subst q; exact h
  · exact .refl _

theorem Plain.wakeup1 (chan : Option Chan) (q : Slot) : Plain (t.proc q) ((t.wakeup1 chan).proc q) := by
  simp only [Table.wakeup1]
  split
  · rename_i hs
    exact .of_ne rfl rfl (by rw [hs.1]; rintro ⟨⟩) (by rintro ⟨⟩)
  · exact .refl _

theorem Plain.reparent (hp : p ≠ initproc) (q : Slot) : Plain (t.proc q) ((t.reparent p).proc q) := by
  have h := reparented (t := t) hp
  rcases h.state q with hs | ⟨hs, hs'⟩
  · rw [h.rest q]
    exact ⟨rfl, rfl, by rw [hs]⟩
  · rw [h.rest q]
    exact .of_ne rfl rfl (by rw [hs]; nofun) (by rw [hs']; nofun)

theorem Plain.exit (hp : p ≠ initproc) (hu : (t.proc p).state ≠ .UNUSED) (q : Slot) : Plain (t.proc q) ((t.exit p).proc q) := by
  have hq (q : Slot) := (Plain.wakeup1 (t := t) ((t.proc p).parent.map .proc) q).trans (Plain.reparent hp q)
  unfold Table.exit
  generalize (t.wakeup1 ((t.proc p).parent.map .proc)).reparent p = t' at hq ⊢
  simp only [Table.setProc_proc]
  split
  · subst q
    exact .of_ne (hq p).pid (hq p).killed hu nofun
  · exact hq q

theorem Table.exit_nextpid (hp : p ≠ initproc) : (t.exit p).nextpid = t.nextpid := by
  simp [exit, setProc_nextpid, (reparented hp).nextpid, wakeup1]

theorem Plain.fill {a : Proc} (hne : np ≠ p) (ha : Plain (t.proc np) a) (q : Slot) : Plain (t.proc q) ((t.fill p np a m).proc q) := by
  rw [fill_proc hne]
  split
  · subst q; exact ⟨rfl, rfl, Iff.rfl⟩
  · split
    · subst q; exact ha
    · exact .refl _

def Besides (t t' : Table) (np : Slot) : Prop := ∀ q, q ≠ np → Plain (t.proc q) (t'.proc q)

theorem Besides.fill {a : Proc} (hne : np ≠ p) : Besides t (t.fill p np a m) np := by
  intro q hq
  rw [fill_proc hne]
  split
  · subst q; exact ⟨rfl, rfl, Iff.rfl⟩
  · exact .refl _

/-- The actions that may mark a slot, or give one back that is marked. -/
def Act.marks : Act n → Bool
  | .call _ (.kill _) | .call _ (.kstack false) | .call _ (.copy false) => true
  | _ => false

inductive Effect (s : State n) (t' : Table) : Act n → Prop where
  | plain {a : Act n} : a.marks = false → (∀ q, Plain (s.tab.proc q) (t'.proc q)) → t'.nextpid = s.tab.nextpid → Effect s t' a
  | kill {c : Fin n} {pid : Int} : t' = s.tab.kill pid → Effect s t' (.call c (.kill pid))
  | fault {c : Fin n} {p : Slot} : (s.tab.proc p).state = .RUNNING →
      t' = s.tab.setProc p { s.tab.proc p with killed := true } → Effect s t' (.call c .fault)
  | alloc {c : Fin n} {np : Slot} : (s.tab.proc np).state = .UNUSED → (t'.proc np).state = .EMBRYO →
      (t'.proc np).pid = s.tab.nextpid → (t'.proc np).killed = (s.tab.proc np).killed → Besides s.tab t' np →
      t'.nextpid = s.tab.nextpid + 1 → Effect s t' (.call c .fork)
  | fail {c : Fin n} {k : Call} {p np : Slot} : k = .kstack false ∨ k = .copy false → (s.cpu c).proc = some p →
      (s.tab.proc p).pc.np = some np → (s.tab.proc np).state = .EMBRYO → (t'.proc np).state = .UNUSED →
      (t'.proc np).pid = (s.tab.proc np).pid → (t'.proc np).killed = (s.tab.proc np).killed → Besides s.tab t' np →
      t'.nextpid = s.tab.nextpid → Effect s t' (.call c k)
  | reap {a : Act n} {q : Slot} : a.marks = false → (s.tab.proc q).state = .ZOMBIE → (t'.proc q).state = .UNUSED →
      (t'.proc q).pid = 0 → (t'.proc q).killed = false → Besides s.tab t' q → t'.nextpid = s.tab.nextpid → Effect s t' a

theorem Effect.wait (ha : a.marks = false) (hr : (t.proc p).state = .RUNNING)
    (hq : ∀ q, Plain (s.tab.proc q) (t.proc q)) (hz : ∀ q, (t.proc q).state = .ZOMBIE → (s.tab.proc q).state = .ZOMBIE)
    (hn : t.nextpid = s.tab.nextpid) : Effect s (s.wait c p t).tab a := by
  unfold State.wait
  split
  · rename_i q hq'
    have hzq := (Table.round_child hq').2
    refine .reap (q := q) ha (hz q hzq) ?_ ?_ ?_ (fun r hr => ?_) hn
    · simp [State.release, Table.reap, Table.setProc_proc]
    · simp [State.release, Table.reap, Table.setProc_proc]
    · simp [State.release, Table.reap, Table.setProc_proc]
    · simp only [State.release, Table.reap, Table.setProc_proc, if_neg hr]
      exact hq r
  · exact .plain ha hq hn
  · have hsleep (q : Slot) : Plain (t.proc q) ((t.sleep p (.proc p) .wait).proc q) := by
      refine Plain.setProc ?_ q
      exact .of_ne rfl rfl (by rw [hr]; rintro ⟨⟩) (by rintro ⟨⟩)
    exact .plain ha (fun q => (hq q).trans (hsleep q)) hn

theorem Inv.effect_free (h : Inv s) (hp : (s.cpu c).proc = some p) (hr : (s.tab.proc p).state = .RUNNING)
    (hs : s.free p k = some t) : Effect s t (.call c k) := by
  have hne {np : Slot} (hnp : (s.tab.proc p).pc.np = some np) : np ≠ p := h.family.np_ne hnp
  unfold State.free at hs
  split at hs
  · cases hs
    exact .fault hr rfl
  case h_2 | h_3 =>
    split at hs
    · cases hs
      rename_i ok _ np hpc
      have hnp : (s.tab.proc p).pc.np = some np := by rw [hpc]; rfl
      have he := (h.family.forking np p hnp).1
      cases ok with
      | true => exact .plain rfl (Plain.fill (hne hnp) ⟨rfl, rfl, Iff.rfl⟩) rfl
      | false =>
        refine .fail (by simp) hp hnp he ?_ ?_ ?_ (Besides.fill (hne hnp)) rfl
        all_goals simp [kstack, copy, fill_proc (hne hnp), if_neg (hne hnp)]
    · cases hs
  · cases hs

theorem Inv.effect_locked (h : Inv s) (hr : (s.tab.proc p).state = .RUNNING) (hs : s.locked c p k = some s') :
    Effect s s'.tab (.call c k) := by
  have hru : (s.tab.proc p).state ≠ .UNUSED := by rw [hr]; nofun
  unfold State.locked at hs
  split at hs
  case h_1 | h_2 =>
    cases hs
    exact .plain rfl (Plain.setProc (.of_ne rfl rfl hru nofun)) rfl
  · cases hs
    exact .plain rfl (Plain.wakeup1 _) rfl
  · cases hs
    exact .kill rfl
  · cases hs
    dsimp only [allocproc]
    split
    · rename_i np hnp
      have hnp : (s.tab.proc np).state = .UNUSED := by simpa using find_some hnp
      have hne : np ≠ p := by rintro rfl; rw [hnp] at hr; cases hr
      refine .alloc hnp ?_ ?_ ?_ (fun q hq => Besides.fill hne q hq) rfl
      all_goals simp [fill_proc hne, if_neg hne]
    · exact .plain rfl (fun _ => .refl _) rfl
  · cases hs
    rename_i np hpc
    have hnp : (s.tab.proc p).pc.np = some np := by rw [hpc]; rfl
    have he := (h.family.forking np p hnp).1
    exact .plain rfl (Plain.fill (h.family.np_ne hnp) (.of_ne rfl rfl (by rw [he]; nofun) nofun)) rfl
  · split at hs
    · cases hs
    · cases hs
      rename_i hi
      exact .plain rfl (Plain.exit hi hru) (exit_nextpid hi)
  · cases hs
    exact .wait rfl hr (fun _ => .refl _) (fun _ => id) rfl
  · cases hs

theorem Inv.effect_resume (h : Inv s) (hm : (s.cpu c).mode = .resumed q) (hp : (s.cpu c).proc = some p)
    (hs : s.resume c p = some s') : Effect s s'.tab (.resume c) := by
  have hr := h.sched.settled_of_resumed hm c p hp
  have htidy (q : Slot) : Plain (s.tab.proc q) ((s.tab.tidy p).proc q) := by
    refine Plain.setProc ?_ q
    exact ⟨rfl, rfl, Iff.rfl⟩
  have hstate (q : Slot) : ((s.tab.tidy p).proc q).state = (s.tab.proc q).state := by
    simp only [tidy, setProc_proc]
    split
    · subst q; rfl
    · rfl
  unfold State.resume at hs
  split at hs
  case h_1 | h_2 =>
    cases hs
    exact .plain rfl (fun _ => .refl _) rfl
  · cases hs
    exact .plain rfl htidy rfl
  · cases hs
    exact .wait rfl ((hstate p).trans hr) htidy (fun q hz => (hstate q) ▸ hz) rfl
  · cases hs

theorem Inv.effect (h : Inv s) (hs : Ptable.step s a = some s') : Effect s s'.tab a := by
  cases a with
  | acquire c =>
    simp only [Ptable.step, Option.ite_none_right_eq_some, Option.some.injEq] at hs
    obtain ⟨-, rfl⟩ := hs
    exact .plain rfl (fun _ => .refl _) rfl
  | scan c =>
    simp only [Ptable.step, Option.ite_none_right_eq_some, Option.some.injEq] at hs
    obtain ⟨-, rfl⟩ := hs
    unfold State.scan
    dsimp only
    split
    · split
      · rename_i hr
        exact .plain rfl (Plain.setProc (.of_ne rfl rfl (by rw [hr]; rintro ⟨⟩) (by rintro ⟨⟩))) rfl
      · exact .plain rfl (fun _ => .refl _) rfl
    · exact .plain rfl (fun _ => .refl _) rfl
  | swtch c =>
    simp only [Ptable.step, State.swtch] at hs
    split at hs
    case h_1 | h_2 =>
      cases hs
      exact .plain rfl (Plain.setProc ⟨rfl, rfl, Iff.rfl⟩) rfl
    · cases hs
      exact .plain rfl (fun _ => .refl _) rfl
    · cases hs
  | resume c =>
    simp only [Ptable.step] at hs
    split at hs
    · exact h.effect_resume ‹_› ‹_› hs
    · cases hs
  | intr c a =>
    simp only [Ptable.step] at hs
    split at hs
    case h_1 | h_2 =>
      split at hs
      · cases hs; exact .plain rfl (Plain.wakeup1 _) rfl
      · cases hs
    · cases hs
  | call c k =>
    simp only [Ptable.step] at hs
    split at hs
    · rename_i p' p hm hp
      have hr : (s.tab.proc p).state = .RUNNING := by
        have hc := h.sched.cpu c
        simp only [Cpu.Ok, hm] at hc
        cases hp.symm.trans hc.1
        exact hc.2
      unfold call at hs
      split at hs
      · cases hs
        rename_i hf
        exact h.effect_free hp hr hf
      · split at hs
        · exact h.effect_locked hr hs
        · cases hs
    · cases hs

/-! ## Pids -/

/-- All pids but 0 are different, and no process has pid 0. -/
structure Pids (t : Table) : Prop where
  pos : ∀ p, (t.proc p).state ≠ .UNUSED → (t.proc p).pid ≠ 0
  lt : ∀ p, (t.proc p).pid < t.nextpid
  inj : ∀ p q, (t.proc p).pid ≠ 0 → (t.proc p).pid = (t.proc q).pid → p = q

theorem pids_init : Pids (init : State n).tab := by
  have hp (p : Slot) : ((init : State n).tab.proc p).pid = if p = initproc then 1 else 0 := by
    simp only [init]
    split <;> rfl
  refine ⟨fun p hs => ?_, fun p => ?_, fun p q h1 h2 => ?_⟩
  · rw [hp]
    simp only [init] at hs
    split
    · rintro ⟨⟩
    · rename_i hne
      rw [if_neg hne] at hs
      exact absurd rfl hs
  · rw [hp]
    change _ < 2
    split <;> omega
  · rw [hp] at h1 h2
    rw [hp] at h2
    have hpi : p = initproc := by
      by_contra hne
      rw [if_neg hne] at h1
      exact h1 rfl
    have hqi : q = initproc := by
      by_contra hne
      rw [if_neg hne, if_pos hpi] at h2
      cases h2
    exact hpi.trans hqi.symm

theorem Table.kill_proc (t : Table) (pid : Int) (q : Slot) :
    (t.kill pid).proc q = if t.find (fun q => (q.pid : Int) = pid) = some q then (t.proc q).kill else t.proc q := by
  unfold kill
  split
  · rename_i p hp
    simp only [setProc_proc, hp, some.injEq]
    by_cases hq : q = p
    · rw [if_pos hq, if_pos hq.symm, hq]
      rfl
    · rw [if_neg hq, if_neg (Ne.symm hq)]
  · rename_i hp
    rw [hp]
    rfl

theorem Proc.kill_pid (q : Proc) : q.kill.pid = q.pid := rfl

theorem Proc.kill_unused (q : Proc) : q.kill.state = .UNUSED ↔ q.state = .UNUSED := by
  unfold Proc.kill
  dsimp only
  split
  · rename_i hs
    rw [hs]
    exact ⟨nofun, nofun⟩
  · rfl

theorem Pids.of (h : Pids t) (hn : t.nextpid ≤ t'.nextpid)
    (hp : ∀ q, (t'.proc q).pid = (t.proc q).pid ∧ ((t'.proc q).state ≠ .UNUSED → (t.proc q).state ≠ .UNUSED) ∨
      (t'.proc q).pid = 0 ∧ (t'.proc q).state = .UNUSED) (h0 : 0 < t'.nextpid) : Pids t' := by
  refine ⟨fun q hs => ?_, fun q => ?_, fun p q h1 h2 => ?_⟩
  · rcases hp q with ⟨hq, hs'⟩ | ⟨-, hu⟩
    · rw [hq]; exact h.pos q (hs' hs)
    · exact absurd hu hs
  · rcases hp q with ⟨hq, -⟩ | ⟨hq, -⟩
    · rw [hq]; have := h.lt q; omega
    · omega
  · rcases hp p with ⟨hp', -⟩ | ⟨hp', -⟩
    · rcases hp q with ⟨hq, -⟩ | ⟨hq, -⟩
      · rw [hp'] at h1 h2
        rw [hq] at h2
        exact h.inj p q h1 h2
      · rw [hq] at h2; exact absurd h2 h1
    · exact absurd hp' h1

theorem Pids.effect (h : Pids s.tab) (he : Effect s t' a) : Pids t' := by
  have h0 : 0 < s.tab.nextpid := Nat.lt_of_le_of_lt (Nat.zero_le _) (h.lt initproc)
  have hplain {q : Slot} (hq : Plain (s.tab.proc q) (t'.proc q)) :
      (t'.proc q).pid = (s.tab.proc q).pid ∧ ((t'.proc q).state ≠ .UNUSED → (s.tab.proc q).state ≠ .UNUSED) :=
    ⟨hq.pid, fun hs hu => hs (hq.unused.mpr hu)⟩
  cases he with
  | plain _ hq hn => exact h.of (by omega) (fun q => .inl (hplain (hq q))) (by omega)
  | @kill c pid ht =>
    have hn : (s.tab.kill pid).nextpid = s.tab.nextpid := by
      unfold kill
      split <;> rfl
    rw [ht]
    refine h.of (by rw [hn]) (fun q => .inl ?_) (by rw [hn]; exact h0)
    rw [kill_proc]
    split
    · exact ⟨Proc.kill_pid _, fun hs hu => hs ((Proc.kill_unused _).mpr hu)⟩
    · exact ⟨rfl, id⟩
  | fault _ ht =>
    rw [ht]
    refine h.of le_rfl (fun q => .inl ?_) h0
    rw [setProc_proc]
    split
    · subst q; exact ⟨rfl, id⟩
    · exact ⟨rfl, id⟩
  | @fail c k p np _ _ _ hs _ hp _ hb hn =>
    refine h.of (by omega) (fun q => .inl ?_) (by omega)
    by_cases hq : q = np
    · subst hq
      exact ⟨hp, fun _ => by rw [hs]; nofun⟩
    · exact hplain (hb q hq)
  | @reap _ r _ _ hs hp _ hb hn =>
    refine h.of (by omega) (fun q => ?_) (by omega)
    by_cases hq : q = r
    · subst hq
      exact .inr ⟨hp, hs⟩
    · exact .inl (hplain (hb q hq))
  | @alloc c np _ _ hp _ hb hn =>
    have hpid {q : Slot} (hq : q ≠ np) := (hplain (hb q hq)).1
    refine ⟨fun q hs => ?_, fun q => ?_, fun p q h1 h2 => ?_⟩
    · by_cases hq : q = np
      · rw [hq, hp]; omega
      · rw [hpid hq]; exact h.pos q ((hplain (hb q hq)).2 hs)
    · by_cases hq : q = np
      · rw [hq, hp]; omega
      · rw [hpid hq]; have := h.lt q; omega
    · by_cases hpn : p = np
      · by_cases hqn : q = np
        · exact hpn.trans hqn.symm
        · rw [hpn, hp, hpid hqn] at h2
          have := h.lt q
          omega
      · by_cases hqn : q = np
        · rw [hqn, hp, hpid hpn] at h2
          have := h.lt p
          omega
        · rw [hpid hpn] at h1 h2
          rw [hpid hqn] at h2
          exact h.inj p q h1 h2

/-! ## `kill` -/

theorem Pids.find (h : Pids t) (hf : t.find (fun q => (q.pid : Int) = pid) = some p) :
    ((t.proc p).pid : Int) = pid ∧ ∀ q, ((t.proc q).pid : Int) = pid → (t.proc q).state ≠ .UNUSED ∨ (t.proc p).state ≠ .UNUSED → q = p := by
  have hp : ((t.proc p).pid : Int) = pid := by simpa using find_some hf
  refine ⟨hp, fun q hq hs => h.inj q p ?_ (by omega)⟩
  rcases hs with hs | hs
  · exact h.pos q hs
  · have := h.pos p hs
    omega

theorem Pids.killExact_iff (h : Pids t) (pid : Int) : KillExact t pid ↔ ∀ p, (t.proc p).state = .UNUSED → ((t.proc p).pid : Int) ≠ pid := by
  constructor
  · intro hk p hu hp
    -- the slot is found, so that `kill` returns 0, and no process has the pid
    cases hf : t.find (fun q => (q.pid : Int) = pid) with
    | none => exact absurd (find_none hf p) (by simpa using hp)
    | some q =>
      obtain ⟨r, hr, hrp⟩ := hk.zero.mp (by rw [killRet, hf]; rfl)
      obtain ⟨hq, huniq⟩ := h.find hf
      have hpr := h.inj r p (h.pos r hr) (by omega)
      exact hr (hpr ▸ hu)
  · intro hu
    have his (p : Slot) : (t.proc p).Is pid ↔ t.find (fun q => (q.pid : Int) = pid) = some p := by
      constructor
      · rintro ⟨hs, hp⟩
        cases hf : t.find (fun q => (q.pid : Int) = pid) with
        | none => exact absurd (find_none hf p) (by simpa using hp)
        | some q => rw [(h.find hf).2 p hp (.inl hs)]
      · intro hf
        have hp := (h.find hf).1
        exact ⟨fun hs => hu p hs hp, hp⟩
    refine ⟨?_, fun p => ?_, fun hz => ?_⟩
    · simp only [his, killRet, ← isSome_iff_exists]
      split
      · rename_i hs; exact ⟨fun _ => hs, fun _ => rfl⟩
      · rename_i hs; exact ⟨nofun, fun h => absurd h hs⟩
    · rw [kill_proc]
      exact if_congr (his p).symm rfl rfl
    · unfold killRet at hz ⊢
      split at hz
      · exact absurd rfl hz
      · rename_i hs
        refine ⟨if_neg hs, ?_⟩
        unfold kill
        rw [not_isSome_iff_eq_none.mp hs]

/-! ## `p->killed` of new processes -/

theorem clean_init : Clean (init : State n).tab := by
  intro p _
  simp only [init]
  split <;> rfl

/-- A step leaves no marked slot exactly when it is as in `Spares`. -/
theorem Clean.effect_iff (hc : Clean s.tab) (hp : Pids s.tab) (he : Effect s t' a) : Clean t' ↔ Spares s a := by
  have hplain {q : Slot} (hq : Plain (s.tab.proc q) (t'.proc q)) (hu : (t'.proc q).state = .UNUSED) : (t'.proc q).killed = false :=
    hq.killed.trans (hc q (hq.unused.mp hu))
  have hspares {a : Act n} (ha : a.marks = false) : Spares s a := by
    cases a with
    | call c k =>
      cases k with
      | kill => cases ha
      | kstack ok | copy ok => cases ok with | true => trivial | false => cases ha
      | _ => trivial
    | _ => trivial
  cases he with
  | plain ha hq => exact ⟨fun _ => hspares ha, fun _ q hu => hplain (hq q) hu⟩
  | @kill c pid ht =>
    constructor
    · intro hc' p hu hpp
      cases hf : s.tab.find (fun q => (q.pid : Int) = pid) with
      | none => exact absurd (find_none hf p) (by simpa using hpp)
      | some q =>
        obtain ⟨hq, huniq⟩ := hp.find hf
        have huq : (s.tab.proc q).state = .UNUSED := by
          by_contra hs
          exact hs (huniq p hpp (.inr hs) ▸ hu)
        have := hc' q
        rw [ht, kill_proc, if_pos hf] at this
        cases this ((Proc.kill_unused _).mpr huq)
    · intro hs q hu
      rw [ht, kill_proc] at hu ⊢
      split
      · rename_i hf
        rw [if_pos hf] at hu
        exact absurd (hp.find hf).1 (hs q ((Proc.kill_unused _).mp hu))
      · rename_i hf
        rw [if_neg hf] at hu
        exact hc q hu
  | fault hr ht =>
    refine ⟨fun _ => trivial, fun _ q hu => ?_⟩
    rw [ht, setProc_proc] at hu ⊢
    split
    · rename_i hq
      rw [if_pos hq] at hu
      rw [hr] at hu
      cases hu
    · rename_i hq
      rw [if_neg hq] at hu
      exact hc q hu
  | @alloc c np _ hs _ _ hb _ =>
    refine ⟨fun _ => trivial, fun _ q hu => ?_⟩
    by_cases hq : q = np
    · rw [hq, hs] at hu
      cases hu
    · exact hplain (hb q hq) hu
  | @fail c k p np hk hcp hnp _ hu' _ hkl hb _ =>
    have hsp : Spares s (.call c k) ↔ (s.tab.proc np).killed = false := by
      have key : (∀ p ∈ (s.cpu c).proc, ∀ np ∈ (s.tab.proc p).pc.np, (s.tab.proc np).killed = false) ↔
          (s.tab.proc np).killed = false := by
        constructor
        · exact fun h => h p hcp np hnp
        · intro h p' hp' np' hnp'
          cases hcp.symm.trans hp'
          cases hnp.symm.trans hnp'
          exact h
      rcases hk with rfl | rfl <;> exact key
    rw [hsp]
    refine ⟨fun h => hkl ▸ h np hu', fun h q hu => ?_⟩
    by_cases hq : q = np
    · rw [hq, hkl]; exact h
    · exact hplain (hb q hq) hu
  | @reap _ r ha _ _ _ hk hb _ =>
    refine ⟨fun _ => hspares ha, fun _ q hu => ?_⟩
    by_cases hq : q = r
    · rw [hq]; exact hk
    · exact hplain (hb q hq) hu

theorem Effect.born (he : Effect s t' a) (hu : (s.tab.proc p).state = .UNUSED) (hs : (t'.proc p).state ≠ .UNUSED) :
    (t'.proc p).state = .EMBRYO ∧ (t'.proc p).killed = (s.tab.proc p).killed := by
  cases he with
  | plain _ hq => exact absurd ((hq p).unused.mpr hu) hs
  | @kill c pid ht =>
    rw [ht, kill_proc] at hs
    split at hs
    · exact absurd ((Proc.kill_unused _).mpr hu) hs
    · exact absurd hu hs
  | fault hr ht =>
    rw [ht, setProc_proc] at hs
    split at hs
    · subst p
      rw [hr] at hu
      cases hu
    · exact absurd hu hs
  | @alloc c np _ he _ hk hb _ =>
    by_cases hp : p = np
    · subst hp
      exact ⟨he, hk⟩
    · exact absurd ((hb p hp).unused.mpr hu) hs
  | @fail c k q np _ _ _ _ hs' _ _ hb _ =>
    by_cases hp : p = np
    · subst hp
      exact absurd hs' hs
    · exact absurd ((hb p hp).unused.mpr hu) hs
  | @reap _ r _ _ hs' _ _ hb _ =>
    by_cases hp : p = r
    · subst hp
      exact absurd hs' hs
    · exact absurd ((hb p hp).unused.mpr hu) hs

/-- Until it runs, a new process is killed only by `kill` of its pid. -/
theorem Pids.embryo (hp : Pids s.tab) (he : Effect s t' a) (hs : (s.tab.proc p).state = .EMBRYO)
    (hk : (t'.proc p).killed ≠ (s.tab.proc p).killed) : ∃ c, a = .call c (.kill (s.tab.proc p).pid) := by
  cases he with
  | plain _ hq => exact absurd (hq p).killed hk
  | @kill c pid ht =>
    rw [ht, kill_proc] at hk
    split at hk
    · rename_i hf
      exact ⟨c, by rw [(hp.find hf).1]⟩
    · exact absurd rfl hk
  | fault hr ht =>
    rw [ht, setProc_proc] at hk
    split at hk
    · subst p
      rw [hr] at hs
      cases hs
    · exact absurd rfl hk
  | alloc hu _ _ _ hb =>
    refine absurd (hb p ?_).killed hk
    rintro rfl
    rw [hu] at hs
    cases hs
  | @fail c k q np _ _ _ _ _ _ hkl hb _ =>
    by_cases hpn : p = np
    · subst hpn; exact absurd hkl hk
    · exact absurd (hb p hpn).killed hk
  | reap _ hz _ _ _ hb =>
    refine absurd (hb p ?_).killed hk
    rintro rfl
    rw [hz] at hs
    cases hs

end Xv6.Ptable
