import Xv6.Proc.Cli

/-!
# Spinlocks (`spinlock.c`)

A lock belongs to a processor, also while `swtch` hands it from one thread to another.
-/

namespace Xv6.Cli

open Xv6.Lib Function

/-- What a processor relies on between two steps of `acquire` or `release`: the lock is taken and `lk->cpu` not set, or it is the
processor's, or it is if the answer of `holding` is yes. -/
inductive Stage where
  | bare
  | held
  | asked

def stage : List Prim → Option (Nat × Stage)
  | .setcpu lk :: _ | .unlock lk :: _ => some (lk, .bare)
  | .clearcpu lk :: _ => some (lk, .held)
  | .check true :: .clearcpu lk :: _ | .popcli :: .check true :: .clearcpu lk :: _ => some (lk, .asked)
  | _ => none

def Bare (s : State) (c lk : Nat) : Prop := stage (s.current c).code = some (lk, .bare)

/-- Processor `c` has the lock: from the `xchg` that finds it free to the end of `release`. -/
def Has (s : State) (c lk : Nat) : Prop := s.lock lk = ⟨true, some c⟩ ∨ s.lock lk = ⟨true, none⟩ ∧ Bare s c lk

/-! ## The invariant -/

def Stage.cpu (c : Nat) : Stage → Option Nat
  | .bare => none
  | _ => some c

def Knows (lock : Nat → Spinlock) (c : Nat) (t : Thread) : Prop :=
  ∀ lk σ, stage t.code = some (lk, σ) → (σ = .asked → t.vars.r = true) → lock lk = ⟨true, σ.cpu c⟩

/-- How the code gets to a stage. -/
def Leads (x : Prim) (l : List Prim) : Prop := ∀ lk,
  (stage l = some (lk, .bare) ↔ x = .xchg lk ∨ x = .clearcpu lk) ∧
  (stage l = some (lk, .held) → x = .check true ∧ stage (x :: l) = some (lk, .asked)) ∧
  (stage l = some (lk, .asked) → x = .test lk ∨ x = .popcli ∧ stage (x :: l) = some (lk, .asked)) ∧
  (x = .setcpu lk ∨ x = .unlock lk → stage l = none)

/-- From depth `d` on, the code is inside a section wherever it relies on a lock. -/
def Linked : Nat → List Prim → Prop
  | _, [] => True
  | d, x :: l => Leads x l ∧ ((stage (x :: l)).isSome → 0 < d) ∧
    Linked (match x with | .cli => d + 1 | .popcli => d - 1 | _ => d) l

def Thread.Ok (t : Thread) : Prop := Linked t.depth t.code ∧ ∀ f ∈ t.frames, Linked 0 f.code

structure Excl (s : State) : Prop where
  threads : ∀ i, (s.thread i).Ok
  knows : ∀ c, Knows s.lock c (s.current c)
  uniq : ∀ c c' lk, Bare s c lk → Bare s c' lk → c = c'
  free : ∀ lk, (s.lock lk).locked = false → s.lock lk = ⟨false, none⟩
  owner : ∀ lk, s.lock lk = ⟨true, none⟩ → ∃ c, Bare s c lk

variable {s s' : State} {c c' d lk : Nat} {k : Cpu} {t : Thread} {x : Prim} {l : List Prim} {σ : Stage} {v : Spinlock}

theorem Call.linked (f : Call) (hf : f.ends → 0 < d) : Linked d f.code := by
  cases f <;> simp_all [code, ends, Linked, Leads, stage, Cli.pushcli, Cli.popcli, Cli.holding, Cli.acquire, Cli.release, Cli.myproc,
    Cli.sched]

theorem stage_of_depth (h : Linked 0 l) : stage l = none := by
  cases l with
  | nil => rfl
  | cons x l => simpa using mt h.2.1 (Nat.lt_irrefl 0)

theorem Excl.exclusive (h : Excl s) (h1 : Has s c lk) (h2 : Has s c' lk) : c = c' := by
  rcases h1 with h1 | ⟨h1, hb1⟩ <;> rcases h2 with h2 | ⟨h2, hb2⟩
  · simpa [h1] using h2
  · simp [h1] at h2
  · simp [h1] at h2
  · exact h.uniq c c' lk hb1 hb2

/-- What a processor relies on is its own. -/
theorem Excl.has (h : Excl s) (hs : stage (s.current c).code = some (lk, σ)) (hr : σ = .asked → (s.current c).vars.r = true) :
    Has s c lk := by
  have hl := h.knows c lk σ hs hr
  cases σ with
  | bare => exact .inr ⟨hl, hs⟩
  | held | asked => exact .inl hl

/-! ## Steps -/

/-- A step of processor `c`: it may free its own locks, and takes nobody else's. -/
structure Next (s : State) (c : Nat) (s' : State) : Prop where
  excl : Excl s'
  keeps : ∀ c' lk, Has s c' lk → Has s' c' lk ∨ c' = c ∧ (s'.lock lk).locked = false

/-- The step leaves the lock alone, or the lock was free or its own before. -/
def Touches (s : State) (c lk : Nat) (v : Spinlock) (l : List Prim) : Prop :=
  v = s.lock lk ∧ (stage l = some (lk, .bare) ↔ Bare s c lk) ∨
  (s.lock lk = ⟨false, none⟩ ∨ Has s c lk) ∧ (stage l ≠ some (lk, .bare) ∧ (v = ⟨false, none⟩ ∨ v = ⟨true, some c⟩) ∨
    stage l = some (lk, .bare) ∧ v = ⟨true, none⟩)

theorem Excl.change (h : Excl s) (ht : ∀ i, (s'.thread i).Ok) (hcur : ∀ c', c' ≠ c → s'.current c' = s.current c')
    (hlock : ∀ lk, Touches s c lk (s'.lock lk) (s'.current c).code) (hk : Knows s'.lock c (s'.current c)) : Next s c s' := by
  have hbare {c' lk : Nat} (hc : c' ≠ c) : Bare s' c' lk ↔ Bare s c' lk := by rw [Bare, hcur c' hc, Bare]
  -- A lock that another processor relies on is not touched.
  have hother {c' lk : Nat} (hc : c' ≠ c) (hh : Has s c' lk) : s'.lock lk = s.lock lk ∧ (Bare s' c lk ↔ Bare s c lk) := by
    rcases hlock lk with he | ⟨hm | hm, -⟩
    · exact he
    · rcases hh with hh | ⟨hh, -⟩ <;> simp [hm] at hh
    · exact absurd (h.exclusive hh hm) hc
  have huniq {c' lk : Nat} (h1 : Bare s' c lk) (h2 : Bare s' c' lk) : c' = c := by
    by_contra hc
    have hb := (hbare hc).1 h2
    exact hc (h.uniq c' c lk hb ((hother hc (h.has hb (by simp))).2.1 h1))
  refine ⟨⟨ht, fun c' => ?_, fun c1 c2 lk h1 h2 => ?_, fun lk hl => ?_, fun lk hl => ?_⟩, fun c' lk hh => ?_⟩
  · by_cases hc : c' = c
    · rw [hc]
      exact hk
    · intro lk σ hs hr
      rw [hcur c' hc] at hs hr
      rw [(hother hc (h.has hs hr)).1]
      exact h.knows c' lk σ hs hr
  · by_cases hc1 : c1 = c
    · subst hc1
      exact (huniq h1 h2).symm
    · by_cases hc2 : c2 = c
      · subst hc2
        exact huniq h2 h1
      · exact h.uniq c1 c2 lk ((hbare hc1).1 h1) ((hbare hc2).1 h2)
  · rcases hlock lk with ⟨he, -⟩ | ⟨-, ⟨-, he | he⟩ | ⟨-, he⟩⟩ <;> rw [he] at hl ⊢
    · exact h.free lk hl
    · cases hl
    · cases hl
  · rcases hlock lk with ⟨he, hb⟩ | ⟨-, ⟨-, he | he⟩ | ⟨hb, -⟩⟩
    · obtain ⟨c', hc'⟩ := h.owner lk (he ▸ hl)
      by_cases hc : c' = c
      · exact ⟨c, hb.2 (hc ▸ hc')⟩
      · exact ⟨c', (hbare hc).2 hc'⟩
    · simp [he] at hl
    · simp [he] at hl
    · exact ⟨c, hb⟩
  · by_cases hc : c' = c
    · subst hc
      rcases hlock lk with ⟨he, hb⟩ | ⟨-, ⟨-, he | he⟩ | ⟨hb, he⟩⟩
      · rw [Has, he, Bare, hb]
        exact .inl hh
      · exact .inr ⟨rfl, by rw [he]⟩
      · exact .inl (.inl he)
      · exact .inl (.inr ⟨he, hb⟩)
    · rw [Has, (hother hc hh).1, hbare hc]
      exact .inl hh

section

variable (h : Excl s) (hi : Inv s)

include h hi

/-- The thread of processor `c` changes, and perhaps locks. -/
theorem Excl.put {lock : Nat → Spinlock} (hrun : k.running = (s.cpu c).running) (ht : t.Ok) (hk : Knows lock c t)
    (hlock : ∀ lk, Touches s c lk (lock lk) t.code) : Next s c (State.put { s with lock := lock } c k t) := by
  have hthread : (State.put { s with lock := lock } c k t).thread (s.cpu c).running = t := update_self ..
  have hself : (State.put { s with lock := lock } c k t).current c = t := by rw [State.current, put_cpu_self, hrun, hthread]
  refine h.change (fun i => ?_) (fun c' hc => ?_) (by rw [hself]; exact hlock) (by rw [hself]; exact hk)
  · by_cases hc : i = (s.cpu c).running
    · rw [hc, hthread]
      exact ht
    · have he : (State.put { s with lock := lock } c k t).thread i = s.thread i := update_of_ne hc ..
      rw [he]
      exact h.threads i
  · rw [State.current, put_cpu_ne hc]
    exact update_of_ne (fun he => hc (hi.inj c' c he)) ..

theorem Excl.keep (hrun : k.running = (s.cpu c).running) (ht : t.Ok) (hk : Knows s.lock c t) (hb : ∀ lk, ¬ Bare s c lk)
    (hb' : ∀ lk, stage t.code ≠ some (lk, .bare)) : Next s c (s.put c k t) :=
  h.put hi hrun ht hk fun lk => .inl ⟨rfl, iff_of_false (hb' lk) (hb lk)⟩

/-- `swtch`. A thread that waits is at no stage. -/
theorem Excl.switch {i : Tid} (ht : t.Ok) (hw : (s.thread i).suspended = true) (hb : ∀ lk, ¬ Bare s c lk) : Next s c (s.switch c t i) := by
  have hrun (c' : Nat) : (s.cpu c').running ≠ i := by
    rintro rfl
    exact absurd ((hi.running c').2.symm.trans hw) Bool.false_ne_true
  have hstage : stage (s.thread i).code = none := by
    rcases (hi.waits i hw).code with ⟨hc, -⟩ | ⟨hc, -⟩ <;> rw [hc] <;> rfl
  have hnew : (s.switch c t i).thread i = { s.thread i with suspended := false } := by
    refine (update_self ..).trans ?_
    rw [put_thread_ne (hrun c).symm]
  have hcur : stage ((s.switch c t i).current c).code = none := by
    rw [State.current, show (s.switch c t i).cpu c = { s.cpu c with running := i } from update_self .., hnew]
    exact hstage
  refine h.change (fun j => ?_) (fun c' hc => ?_) (fun lk => .inl ⟨rfl, iff_of_false (by simp [hcur]) (hb lk)⟩) (by simp [Knows, hcur])
  · by_cases h2 : j = i
    · rw [h2, hnew]
      exact h.threads i
    · rw [show (s.switch c t i).thread j = (s.put c _ { t with suspended := true }).thread j from update_of_ne h2 ..]
      by_cases h1 : j = (s.cpu c).running
      · rw [h1, put_thread_self]
        exact ht
      · rw [put_thread_ne h1]
        exact h.threads j
  · have hcpu : (s.switch c t i).cpu c' = s.cpu c' := update_of_ne hc ..
    rw [State.current, hcpu]
    exact (update_of_ne (hrun c') ..).trans (put_thread_ne fun he => hc (hi.inj c' c he))

/-- A step of `acquire` or `release` on a lock that is free or the processor's. -/
theorem Excl.turn (ht : Thread.Ok { s.current c with code := l })
    (hm : s.lock lk = ⟨false, none⟩ ∨ Has s c lk) (hb : ∀ lk', Bare s c lk' → lk' = lk)
    (hv : stage l = none ∧ (v = ⟨false, none⟩ ∨ v = ⟨true, some c⟩) ∨ stage l = some (lk, .bare) ∧ v = ⟨true, none⟩) :
    Next s c ((s.setLock lk v).put c (s.cpu c) { s.current c with code := l }) := by
  refine h.put hi rfl ht (fun lk' σ hs _ => ?_) fun lk' => ?_
  · rcases hv with ⟨hn, -⟩ | ⟨hn, rfl⟩ <;> rw [hn] at hs <;> cases hs
    exact update_self ..
  · by_cases he : lk' = lk
    · subst he
      rw [update_self]
      rcases hv with ⟨hn, hv⟩ | ⟨hn, hv⟩
      · exact .inr ⟨hm, .inl ⟨by rw [hn]; simp, hv⟩⟩
      · exact .inr ⟨hm, .inr ⟨hn, hv⟩⟩
    · rw [update_of_ne he]
      refine .inl ⟨rfl, iff_of_false (fun hs => ?_) fun hb' => he (hb lk' hb')⟩
      rcases hv with ⟨hn, -⟩ | ⟨hn, -⟩ <;> rw [hn] at hs <;> cases hs
      exact he rfl

end

theorem stage_bare : stage (x :: l) = some (lk, .bare) ↔ x = .setcpu lk ∨ x = .unlock lk := by
  unfold stage
  split <;> simp_all

/-- A step that neither takes nor gives back a lock. -/
theorem Excl.plain (h : Excl s) (hi : Inv s) (hc : (s.current c).code = x :: l) (hleads : Leads x l) (hb : ∀ lk, ¬ Bare s c lk)
    (hb' : ∀ lk, stage l ≠ some (lk, .bare)) (hrun : k.running = (s.cpu c).running) (ht : t.Ok) (hl : t.code = l)
    (hcheck : x = .check true → (s.current c).vars.r = true)
    (htest : ∀ lk, x = .test lk → t.vars.r = true → s.lock lk = ⟨true, some c⟩)
    (hpop : x = .popcli → t.vars.r = (s.current c).vars.r) : Next s c (s.put c k t) := by
  refine h.keep hi hrun ht (fun lk σ hs hr => ?_) hb (by rw [hl]; exact hb')
  rw [hl] at hs
  cases σ with
  | bare => exact absurd hs (hb' lk)
  | held =>
    obtain ⟨rfl, hs'⟩ := (hleads lk).2.1 hs
    exact h.knows c lk .asked (hc ▸ hs') fun _ => hcheck rfl
  | asked =>
    rcases (hleads lk).2.2.1 hs with rfl | ⟨rfl, hs'⟩
    · exact htest lk rfl (hr rfl)
    · exact h.knows c lk .asked (hc ▸ hs') fun _ => hpop rfl ▸ hr rfl

theorem Excl.exec (h : Excl s) (hi : Inv s) (hc : (s.current c).code = x :: l)
    (he : x.exec s c { s.current c with code := l } = some s') : Next s c s' := by
  obtain ⟨hlink, hframes⟩ : (s.current c).Ok := h.threads _
  rw [hc] at hlink
  obtain ⟨hleads, -, hlink⟩ := hlink
  have hpanic (p : Panic) : Next s c (s.panic p) := ⟨{ h with }, fun _ _ hh => .inl hh⟩
  have hbare (lk : Nat) : Bare s c lk ↔ x = .setcpu lk ∨ x = .unlock lk := by rw [Bare, hc, stage_bare]
  have hb (lk : Nat) : stage l = some (lk, .bare) ↔ x = .xchg lk ∨ x = .clearcpu lk := (hleads lk).1
  have hknows (lk : Nat) (σ : Stage) (hs : stage (x :: l) = some (lk, σ)) (hσ : σ ≠ .asked) : s.lock lk = ⟨true, σ.cpu c⟩ :=
    h.knows c lk σ (hc ▸ hs) fun ha => absurd ha hσ
  cases x with simp only [Prim.exec] at he
  | xchg lk =>
    split at he <;> cases he
    · exact ⟨h, fun _ _ hh => .inl hh⟩
    · rename_i hf
      have hf := h.free lk (eq_false_of_ne_true hf)
      exact h.turn hi ⟨hlink, hframes⟩ (.inl hf) (by simp [hbare]) (.inr ⟨by simp [hb], by rw [hf]⟩)
  | clearcpu lk =>
    cases he
    have hl := hknows lk .held rfl (by simp)
    exact h.turn hi ⟨hlink, hframes⟩ (.inr (.inl hl)) (by simp [hbare]) (.inr ⟨by simp [hb], by rw [hl]⟩)
  | setcpu lk | unlock lk =>
    cases he
    have hl := hknows lk .bare rfl (by simp)
    exact h.turn hi ⟨hlink, hframes⟩ (.inr (.inr ⟨hl, by simp [hbare]⟩)) (by simp [hbare, eq_comm])
      (.inl ⟨(hleads lk).2.2.2 (by simp), by simp [hl, Stage.cpu]⟩)
  | readeflags | cli | proc | restore =>
    cases he
    exact h.plain hi hc hleads (by simp [hbare]) (by simp [hb]) rfl ⟨hlink, hframes⟩ rfl (by simp) (by simp) (by simp)
  | popcli =>
    split_ifs at he <;> cases he
    · exact hpanic _
    · exact hpanic _
    · exact h.plain hi hc hleads (by simp [hbare]) (by simp [hb]) rfl ⟨hlink, hframes⟩ rfl (by simp) (by simp) fun _ => rfl
  | test lk =>
    cases he
    refine h.plain hi hc hleads (by simp [hbare]) (by simp [hb]) rfl ⟨hlink, hframes⟩ rfl (by simp) (fun lk' hx hr => ?_) (by simp)
    cases hx
    obtain ⟨h1, h2⟩ : (s.lock lk).locked = true ∧ (s.lock lk).cpu = some c := by simpa using hr
    rw [← h1, ← h2]
  | check held =>
    split at he <;> cases he
    · rename_i hr
      exact h.plain hi hc hleads (by simp [hbare]) (by simp [hb]) rfl ⟨hlink, hframes⟩ rfl (by simp [hr]) (by simp) (by simp)
    · exact hpanic _
  | swtch =>
    split_ifs at he with hrun <;> cases he
    · exact hpanic _
    · exact hpanic _
    · exact h.switch hi ⟨hlink, hframes⟩ (hi.away c hrun) (by simp [hbare])

def Act.cpu : Act → Nat
  | .exec c | .call c _ | .flag c _ | .interrupt c | .iret c | .dispatch c _ => c

theorem Excl.step {a : Act} (h : Excl s) (hi : Inv s) (he : step s a = some s') : Next s a.cpu s' := by
  have hframes (c : Nat) : ∀ f ∈ (s.current c).frames, Linked 0 f.code := (h.threads _).2
  unfold Cli.step at he
  split_ifs at he
  cases a with dsimp only [Act.cpu] at he ⊢
  | exec c =>
    split at he
    · cases he
    · rename_i hc
      exact h.exec hi hc he
  | call c f =>
    split_ifs at he with hf
    cases he
    have hs : stage f.code = none := by cases f <;> rfl
    exact h.keep hi rfl ⟨f.linked hf.2, hframes c⟩ (by simp [Knows, hs]) (by simp [Bare, hf.1, stage]) (by simp [hs])
  | flag c b =>
    split_ifs at he with hf
    cases he
    exact h.keep hi rfl (h.threads _) (h.knows c) (by simp [Bare, hf.1, stage]) (by simp [hf.1, stage])
  | interrupt c =>
    split_ifs at he with hf
    cases he
    have hd : (s.current c).depth = 0 := by
      refine Nat.eq_zero_of_not_pos fun hd => ?_
      rw [(hi.running c).1.off hd] at hf
      cases hf
    have hl : Linked 0 (s.current c).code := hd ▸ (h.threads _).1
    refine h.keep hi rfl ⟨trivial, ?_⟩ (by simp [Knows, stage]) (by simp [Bare, stage_of_depth hl]) (by simp [stage])
    rintro f (_ | ⟨_, hm⟩)
    · exact hl
    · exact hframes c f hm
  | iret c =>
    split at he
    · cases he
    · rename_i f frames hfr
      split_ifs at he with hf
      cases he
      have hl : Linked 0 f.code := hframes c f (by simp [hfr])
      exact h.keep hi rfl ⟨by rw [hf.2]; exact hl, fun g hg => hframes c g (by rw [hfr]; exact .tail _ hg)⟩
        (by simp [Knows, stage_of_depth hl]) (by simp [Bare, hf.1, stage]) (by simp [stage_of_depth hl])
  | dispatch c p =>
    split_ifs at he with hf
    cases he
    exact h.switch hi (h.threads _) hf.2.2.2 (by simp [Bare, hf.2.1, stage])

/-! ## Exclusion -/

theorem excl_init : Excl init where
  threads i := by cases i <;> exact ⟨trivial, by simp [init]⟩
  knows c := by simp [Knows, init, State.current, stage]
  uniq c c' lk h := by simp [Bare, init, State.current, stage] at h
  free lk _ := rfl
  owner lk h := by simp [init] at h

/-- At most one processor has a lock, and one has it as long as the lock is taken. No step of another processor ends that, and no
interrupt or switch: only its own `release` does, and then the lock is free. -/
theorem spinlock_exclusive (h : Runs s) :
    (∀ lk c c', Has s c lk → Has s c' lk → c = c') ∧ (∀ lk, (s.lock lk).locked = true ↔ ∃ c, Has s c lk) ∧
    ∀ a s' c lk, step s a = some s' → Has s c lk → Has s' c lk ∨ c = a.cpu ∧ (s'.lock lk).locked = false := by
  have hx : Inv s ∧ Excl s := by
    refine Reach.inv (P := fun s => Inv s ∧ Excl s) ?_ (fun s a s' hs _ he => ?_) h
    · rintro _ rfl
      exact ⟨inv_init, excl_init⟩
    · exact ⟨hs.1.step he, (hs.2.step hs.1 he).excl⟩
  refine ⟨fun _ _ _ => hx.2.exclusive, fun lk => ⟨fun hl => ?_, ?_⟩, fun a s' c lk he => (hx.2.step hx.1 he).keeps c lk⟩
  · cases hs : s.lock lk with
    | mk locked cpu =>
      obtain rfl : locked = true := by rw [hs] at hl; exact hl
      cases cpu with
      | some c => exact ⟨c, .inl hs⟩
      | none => exact (hx.2.owner lk hs).imp fun c hc => .inr ⟨hs, hc⟩
  · rintro ⟨c, hc | ⟨hc, -⟩⟩ <;> rw [hc]

/-- Processor 1 finds the lock taken, whatever it does. -/
theorem spinlock_exclusive_spins : ∃ s, Runs s ∧ Has s 0 0 ∧ (s.current 1).code.head? = some (.xchg 0) ∧
    ∀ a s', step s a = some s' → a.cpu = 1 → Has s' 0 0 ∧ ¬ Has s' 1 0 := by
  obtain ⟨s, hr, h1, h2, hc⟩ := Reach.of_runs
    (.call 0 (.acquire 0) :: .replicate 9 (.exec 0) ++ .call 1 (.acquire 0) :: .replicate 7 (.exec 1))
    (fun s => (s.lock 0).locked = true ∧ (s.lock 0).cpu = some 0 ∧ (s.current 1).code.head? = some (.xchg 0))
    (Reach.init rfl : Runs init) (by decide +kernel)
  replace hr : Runs s := hr
  have hl : s.lock 0 = ⟨true, some 0⟩ := by rw [← h1, ← h2]
  refine ⟨s, hr, .inl hl, hc, fun a s' he ha => ?_⟩
  have hs' : Runs s' := .step hr trivial he
  rcases (spinlock_exclusive hr).2.2 a s' 0 0 he (.inl hl) with h | ⟨h, -⟩
  · exact ⟨h, fun h1 => absurd ((spinlock_exclusive hs').1 0 0 1 h h1) Nat.zero_ne_one⟩
  · exact absurd (h.trans ha) Nat.zero_ne_one

end Xv6.Cli
