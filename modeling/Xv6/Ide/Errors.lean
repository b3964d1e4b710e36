import Xv6.Ide.Theorems

/-!
# Disk errors (`ide.c`)

A command may fail: then nothing is known about what the device has read, or about the block that it was to write.
-/

namespace Xv6.Ide

open Xv6.Lib Function Option State

def IDE_DF : BitVec 8 := 0x20#8

def IDE_ERR : BitVec 8 := 0x01#8

variable {P B : Type}

/-- Wait for IDE disk to become ready; `r` is the status then. -/
def idewait (checkerr : Bool) (r : BitVec 8) : Int :=
  if checkerr ∧ r &&& (IDE_DF ||| IDE_ERR) ≠ 0 then -1 else 0

structure Machine (P B : Type) where
  sys : State P B
  status : BitVec 8

def finishWith (r : BitVec 8) (x : Buf P) (out : Block) : Buf P :=
  { x with data := if x.dirty = false ∧ 0 ≤ idewait true r then out else x.data, valid := true, dirty := false }

namespace Machine

variable [DecidableEq P] [DecidableEq B] (m : Machine P B)

def ideintr : Option (Machine P B) :=
  match m.sys.device with
  | .ready _ out =>
    let s := { m.sys with device := .idle }
    match s.idequeue with
    | [] => some { m with sys := s }
    | b :: rest =>
      let s := { s with
        idequeue := rest
        completed := s.completed ++ [b]
        buf := update s.buf b (finishWith m.status (s.buf b) out)
        pc := wakeup s.pc b }
      match rest with
      | [] => some { m with sys := s }
      | b :: _ => some { m with sys := idestart s b }
  | _ => none

/-- The device completes its command with status `r`. If it has failed, `blk` is what it has read or written instead. -/
def complete (r : BitVec 8) (blk : Block) : Option (Machine P B) :=
  match m.sys.device with
  | .busy c =>
    if r &&& (IDE_DF ||| IDE_ERR) = 0 then (Ide.complete m.sys).map fun s => ⟨s, r⟩
    else
      let disk := if c.write then update m.sys.disk c.drive (update (m.sys.disk c.drive) c.sector blk) else m.sys.disk
      some ⟨{ m.sys with disk := disk, device := .ready c blk }, r⟩
  | _ => none

end Machine

inductive Event (P B : Type) where
  | own (p : P) (b : B) (x : Buf P)
  | iderw (p : P) (b : B)
  | resume (p : P)
  | complete (r : BitVec 8) (blk : Block)
  | ideintr

variable [DecidableEq P] [DecidableEq B]

def Machine.step (m : Machine P B) (e : Event P B) : Option (Machine P B) :=
  if m.sys.panicked = none then
    match e with
    | .own p b x => (Ide.own m.sys p b x).map fun s => { m with sys := s }
    | .iderw p b => (Ide.iderw m.sys p b).map fun s => { m with sys := s }
    | .resume p => (Ide.resume m.sys p).map fun s => { m with sys := s }
    | .complete r blk => m.complete r blk
    | .ideintr => m.ideintr
  else none

/-! ## The state without the errors -/

variable {s s' : State P B} {m m' : Machine P B} {p : P} {b : B} {x : Buf P} (disk : Nat → Nat → Block) (d : Device B) {c : Command B}
  {out : Block} {rest : List B}

def failed (r : BitVec 8) : Prop := r &&& (IDE_DF ||| IDE_ERR) ≠ 0

instance (r : BitVec 8) : Decidable (failed r) := inferInstanceAs (Decidable (_ ≠ _))

/-- With a device and a disk that have done what the failed command says. -/
def Machine.ideal (m : Machine P B) : State P B :=
  match m.sys.device with
  | .ready c _ => if failed m.status then (Ide.complete { m.sys with device := .busy c }).getD m.sys else m.sys
  | _ => m.sys

omit [DecidableEq P] [DecidableEq B] in
theorem ideal_eq (h : ∀ c out, m.sys.device = .ready c out → ¬ failed m.status) : m.ideal = m.sys := by
  unfold Machine.ideal
  split
  · rename_i c out hd
    rw [if_neg (h c out hd)]
  · rfl

omit [DecidableEq P] [DecidableEq B] in
theorem ideal_ready (hd : m.sys.device = .ready c out) : ∃ disk out', m.ideal = { m.sys with disk := disk, device := .ready c out' } := by
  by_cases hf : failed m.status
  · simp only [Machine.ideal, hd, if_pos hf, Ide.complete]
    split
    · exact ⟨_, _, rfl⟩
    · exact ⟨_, _, rfl⟩
  · refine ⟨m.sys.disk, out, ?_⟩
    rw [ideal_eq fun _ _ _ => hf, ← hd]

omit [DecidableEq P] [DecidableEq B] in
theorem ideal_same (hd : s.device = m.sys.device) (hk : s.disk = m.sys.disk) :
    Machine.ideal ⟨s, m.status⟩ = { s with disk := m.ideal.disk, device := m.ideal.device } := by
  unfold Machine.ideal
  simp only [hd]
  cases hdev : m.sys.device with
  | idle | busy c => simp only [← hk, ← hd]
  | ready c out =>
    simp only [Ide.complete, hk]
    split
    · split
      · rfl
      · rfl
    · simp [← hk, ← hd]

omit [DecidableEq P] [DecidableEq B] in
theorem Machine.complete_ideal {r : BitVec 8} {blk : Block} (h : m.complete r blk = some m') : Ide.complete m.sys = some m'.ideal := by
  unfold Machine.complete at h
  split at h
  · rename_i c hd
    split at h
    · rename_i hr
      obtain ⟨s, hs, rfl⟩ := map_eq_some_iff.mp h
      rw [hs, ideal_eq fun _ _ _ hf => hf hr]
    · rename_i hr
      cases h
      have hf : failed r := hr
      simp only [Machine.ideal, Ide.complete, hd, if_pos hf]
      split
      · simp
      · simp
  · cases h

/-! ## Steps that do not use the device -/

theorem own_device (h : Ide.own s p b x = some s') :
    Ide.own { s with disk := disk, device := d } p b x = some { s' with disk := disk, device := d } ∧
      s'.device = s.device ∧ s'.disk = s.disk := by
  unfold Ide.own at h ⊢
  split at h
  · rename_i hc
    cases h
    rw [if_pos hc]
    exact ⟨rfl, rfl, rfl⟩
  · cases h

omit [DecidableEq B] in
theorem resume_device (h : Ide.resume s p = some s') :
    Ide.resume { s with disk := disk, device := d } p = some { s' with disk := disk, device := d } ∧
      s'.device = s.device ∧ s'.disk = s.disk := by
  unfold Ide.resume at h ⊢
  split at h
  · rename_i b hp
    cases h
    simp only [hp]
    exact ⟨rfl, rfl, rfl⟩
  · cases h

theorem iderw_locked (h : Ide.iderw s p b = some s') (hn : s'.panicked = none) : s.pc p = .outside ∧ (s.buf b).lock = some p := by
  unfold Ide.iderw at h
  split at h
  · cases h
  · rename_i hp
    split at h
    · cases h
      cases hn
    · rename_i hl
      exact ⟨not_not.mp hp, not_not.mp hl⟩

theorem iderw_idle (hq : s.idequeue = []) (hd : s.device = .idle) (h : Ide.iderw s p b = some s') (hn : s'.panicked = none) :
    ∃ c, s'.device = .busy c := by
  unfold Ide.iderw at h
  split at h
  · cases h
  · split at h
    · cases h
      cases hn
    · split at h
      · cases h
        cases hn
      · split at h
        · cases h
          cases hn
        · simp only [hq, List.nil_append, List.head?_cons, if_true] at h
          obtain ⟨-, he⟩ | he := idestart_idle (s := { s with idequeue := [b], calls := s.calls ++ [b] }) hd b
          · rw [he] at h
            split at h
            all_goals
              cases h
              exact ⟨_, rfl⟩
          · rw [he] at h
            cases h
            cases hn

theorem iderw_device (hq : s.idequeue ≠ []) (hb : b ∉ s.idequeue) (h : Ide.iderw s p b = some s') :
    Ide.iderw { s with disk := disk, device := d } p b = some { s' with disk := disk, device := d } ∧
      s'.device = s.device ∧ s'.disk = s.disk := by
  have hhead : (s.idequeue ++ [b]).head? ≠ some b := by
    cases hs : s.idequeue with
    | nil => exact absurd hs hq
    | cons b0 rest =>
      rintro he
      cases he
      exact hb (hs ▸ List.mem_cons_self)
  unfold Ide.iderw at h ⊢
  simp only [if_neg hhead] at h ⊢
  by_cases hp : s.pc p ≠ .outside
  · rw [if_pos hp] at h
    cases h
  · rw [if_neg hp] at h ⊢
    by_cases hl : (s.buf b).lock ≠ some p
    · rw [if_pos hl] at h ⊢
      cases h
      exact ⟨rfl, rfl, rfl⟩
    · rw [if_neg hl] at h ⊢
      by_cases hs : (s.buf b).synced = true
      · rw [if_pos hs] at h ⊢
        cases h
        exact ⟨rfl, rfl, rfl⟩
      · rw [if_neg hs] at h ⊢
        by_cases hv : (s.buf b).dev ≠ 0 ∧ s.havedisk1 = false
        · rw [if_pos hv] at h ⊢
          cases h
          exact ⟨rfl, rfl, rfl⟩
        · rw [if_neg hv] at h ⊢
          by_cases hn : s.panicked = none
          · rw [if_pos hn] at h ⊢
            cases h
            exact ⟨rfl, rfl, rfl⟩
          · rw [if_neg hn] at h ⊢
            cases h
            exact ⟨rfl, rfl, rfl⟩

omit [DecidableEq P] in
theorem idestart_other {b' : B} (hne : b' ≠ b) : idestart { s with disk := disk, buf := update s.buf b x } b' =
    { idestart s b' with disk := disk, buf := update s.buf b x } := by
  unfold idestart
  simp only [update_of_ne hne]
  by_cases hb : (s.buf b').blockno ≥ FSSIZE
  · rw [if_pos hb, if_pos hb]
  · rw [if_neg hb, if_neg hb]
    cases s.device with
    | idle => rfl
    | busy c => rfl
    | ready c out => rfl

/-! ## The invariant -/

omit [DecidableEq P] in
theorem Inv.setData (h : Inv s) (hd : ∀ c out, s.device ≠ .ready c out) (hb : b ∉ s.idequeue) (disk : Nat → Nat → Block) (data : Block) :
    Inv { s with disk := disk, buf := update s.buf b { s.buf b with data := data } } := by
  have hbuf (b' : B) : ∃ data', update s.buf b { s.buf b with data := data } b' = { s.buf b' with data := data' } := by
    by_cases he : b' = b
    · subst he
      exact ⟨data, update_self ..⟩
    · exact ⟨(s.buf b').data, update_of_ne he ..⟩
  refine ⟨h.nodup, fun b' hb' => ?_, h.asleep, fun q b' hq => ?_, fun q b' hq => ?_, ?_, h.fifo⟩
  · obtain ⟨data', he⟩ := hbuf b'
    simp only [he]
    exact h.queued b' hb'
  · obtain ⟨data', he⟩ := hbuf b'
    simp only [he]
    exact h.awake q b' hq
  · obtain ⟨data', he⟩ := hbuf b'
    simp only [he]
    exact h.lock q b' hq
  · have hok := h.device
    unfold DeviceOk at hok ⊢
    cases hq : s.idequeue with
    | nil =>
      rw [hq] at hok
      exact hok
    | cons b' rest =>
      have hne : b' ≠ b := by
        rintro rfl
        exact hb (hq ▸ List.mem_cons_self)
      simp only [hq] at hok
      simp only [update_of_ne hne]
      obtain ⟨hlt, he | ⟨out, he, -⟩⟩ := hok
      · exact ⟨hlt, .inl he⟩
      · exact absurd he (hd _ _)

def State.dequeue (s : State P B) (b : B) (rest : List B) (x : Buf P) : State P B :=
  { s with
    device := .idle
    idequeue := rest
    completed := s.completed ++ [b]
    buf := update s.buf b x
    pc := wakeup s.pc b }

def State.restart (s : State P B) : State P B :=
  match s.idequeue with
  | [] => s
  | b :: _ => idestart s b

omit [DecidableEq P] in
theorem ideintr_cons (hd : s.device = .ready c out) (hq : s.idequeue = b :: rest) :
    Ide.ideintr s = some (s.dequeue b rest (finish (s.buf b) out)).restart := by
  simp only [Ide.ideintr, hd, hq]
  cases rest with
  | nil => rfl
  | cons b' rest => rfl

omit [DecidableEq P] in
theorem Machine.ideintr_cons (hd : m.sys.device = .ready c out) (hq : m.sys.idequeue = b :: rest) :
    m.ideintr = some { m with sys := (m.sys.dequeue b rest (finishWith m.status (m.sys.buf b) out)).restart } := by
  simp only [Machine.ideintr, hd, hq]
  cases rest with
  | nil => rfl
  | cons b' rest => rfl

omit [DecidableEq P] in
theorem restart_dequeue (hb : b ∉ rest) (x x' : Buf P) :
    ({ s with disk := disk, device := d }.dequeue b rest x').restart =
      { (s.dequeue b rest x).restart with disk := disk, buf := update s.buf b x' } := by
  have he : { s with disk := disk, device := d }.dequeue b rest x' =
      { s.dequeue b rest x with disk := disk, buf := update (s.dequeue b rest x).buf b x' } := by
    simp [dequeue]
  rw [he]
  cases rest with
  | nil => simp only [restart, dequeue, update_idem]
  | cons b' rest =>
    have hne : b' ≠ b := by
      rintro rfl
      exact hb List.mem_cons_self
    refine (idestart_other _ hne).trans ?_
    simp [restart, dequeue]

omit [DecidableEq P] [DecidableEq B] in
theorem restart_idle (hd : s.device = .idle) : (∀ c out, s.restart.device ≠ .ready c out) ∧ s.restart.buf = s.buf ∧
    s.restart.idequeue = s.idequeue ∧ s.restart.disk = s.disk := by
  unfold restart
  split
  · exact ⟨fun c out => by rw [hd]; nofun, rfl, rfl, rfl⟩
  · rename_i b rest hq
    obtain ⟨-, he⟩ | he := idestart_idle hd b
    · rw [he]
      exact ⟨nofun, rfl, rfl, rfl⟩
    · rw [he]
      exact ⟨fun c out => by rw [show _ = Device.idle from hd]; nofun, rfl, rfl, rfl⟩

omit [DecidableEq P] in
theorem Inv.handled (h : Inv m.ideal) (hn : m.sys.panicked = none) (hst : m.ideintr = some m') :
    (m'.sys.panicked = none → Inv m'.ideal) ∧ ∃ c out b rest, m.sys.device = .ready c out ∧ m.sys.idequeue = b :: rest ∧
      m'.sys.disk = m.sys.disk ∧
      m'.sys.buf b = finishWith m.status (m.sys.buf b) out ∧
      (¬ failed m.status → m.sys.disk ((m.sys.buf b).dev % 2) (m.sys.buf b).blockno =
        if (m.sys.buf b).dirty then (m.sys.buf b).data else out) := by
  cases hd : m.sys.device with
  | idle | busy c => simp [Machine.ideintr, hd] at hst
  | ready c out =>
    obtain ⟨disk, out', hideal⟩ := ideal_ready hd
    have hdev : m.ideal.device = .ready c out' := by rw [hideal]
    have hsys : m.sys = { m.ideal with disk := m.sys.disk, device := m.sys.device } := by rw [hideal]
    obtain ⟨b, rest, hq, -⟩ := h.ready hdev
    have hnd := List.nodup_cons.mp (hq ▸ h.nodup)
    have hqs : m.sys.idequeue = b :: rest := by rw [hsys]; exact hq
    have hbuf : m.sys.buf = m.ideal.buf := by rw [hideal]
    rw [Machine.ideintr_cons hd hqs, Option.some.injEq] at hst
    subst hst
    have hσ := ideintr_cons hdev hq
    -- The two handlers leave the same state, but for the disk and the data of the buffer.
    generalize hx : finish (m.ideal.buf b) out' = x at hσ
    generalize hx' : finishWith m.status (m.sys.buf b) out = x'
    have hdata : x' = { x with data := x'.data } := by
      rw [← hx, ← hx', hbuf]
      rfl
    obtain ⟨hready, hb, hrest, hdisk⟩ := restart_idle (s := m.ideal.dequeue b rest x) rfl
    have hnew : (m.sys.dequeue b rest x').restart = { (m.ideal.dequeue b rest x).restart with
        disk := m.sys.disk
        buf := update (m.ideal.dequeue b rest x).restart.buf b { (m.ideal.dequeue b rest x).restart.buf b with data := x'.data } } := by
      conv_lhs => rw [hsys]
      rw [restart_dequeue _ _ hnd.1 x, hb]
      simp [State.dequeue, ← hdata]
    refine ⟨fun hn' => ?_, c, out, b, rest, rfl, hqs, ?_, ?_, fun hf => ?_⟩
    · have hpan : (m.ideal.dequeue b rest x).restart.panicked = none := by
        dsimp only at hn'
        rwa [hnew] at hn'
      have hinv := ((h.ideintr (by rw [hideal]; exact hn) hσ).2 hpan).1
      rw [ideal_eq]
      · simp only [hnew]
        exact hinv.setData hready (by rw [hrest]; exact hnd.1) m.sys.disk x'.data
      · intro c out hd'
        simp only [hnew] at hd'
        exact absurd hd' (hready c out)
    · simp [hnew]
    · rw [hx']
      exact (congrFun (restart_idle (s := m.sys.dequeue b rest x') rfl).2.1 b).trans (update_self ..)
    · have hid : m.ideal = m.sys := ideal_eq fun _ _ _ => hf
      rw [hid] at h
      obtain ⟨b1, rest1, hq1, -, -, hdisk1⟩ := h.ready hd
      cases hqs.symm.trans hq1
      exact hdisk1

def MachineRuns : Machine P B → Prop := Reach (fun m => Booted m.sys) Machine.step fun _ _ => True

theorem Inv.event {e : Event P B} (h : Inv m.ideal) (hn : m.sys.panicked = none) (hst : m.step e = some m') (hn' : m'.sys.panicked = none) :
    Inv m'.ideal := by
  have hself : m.ideal = { m.sys with disk := m.ideal.disk, device := m.ideal.device } := ideal_same rfl rfl
  have hq : m.sys.idequeue = m.ideal.idequeue := by rw [hself]
  have hpan : m.ideal.panicked = none := by rw [hself]; exact hn
  unfold Machine.step at hst
  rw [if_pos hn] at hst
  cases e with
  | own p b x =>
    obtain ⟨s, hs, rfl⟩ := map_eq_some_iff.mp hst
    obtain ⟨ho, hd, hk⟩ := own_device m.ideal.disk m.ideal.device hs
    rw [← hself] at ho
    rw [ideal_same hd hk]
    exact (h.own ho).1
  | iderw p b =>
    obtain ⟨s, hs, rfl⟩ := map_eq_some_iff.mp hst
    by_cases hempty : m.sys.idequeue = []
    · have hidle : m.ideal.device = .idle := by
        have hok := h.device
        unfold DeviceOk at hok
        rwa [← hq, hempty] at hok
      have hid : m.ideal = m.sys := ideal_eq fun c out hd => by
        obtain ⟨disk, out', he⟩ := ideal_ready hd
        rw [he] at hidle
        cases hidle
      rw [hid] at h hidle
      obtain ⟨-, -, -, d, hi, -⟩ := (h.iderw hn hs).2 hn'
      obtain ⟨c, hc⟩ := iderw_idle hempty hidle hs hn'
      rw [ideal_eq fun c' out hd => by rw [hc] at hd; cases hd]
      exact hi
    · have hlock := iderw_locked hs hn'
      have hb : b ∉ m.sys.idequeue := by
        rw [hq]
        refine h.not_queued (h.free (p := p) ?_ (.inr ?_))
        · rw [hself]
          exact hlock.1
        · rw [hself]
          exact hlock.2
      obtain ⟨ho, hd, hk⟩ := iderw_device m.ideal.disk m.ideal.device hempty hb hs
      rw [← hself] at ho
      rw [ideal_same hd hk]
      obtain ⟨-, -, -, d, hi, -⟩ := (h.iderw hpan ho).2 hn'
      exact hi
  | resume p =>
    obtain ⟨s, hs, rfl⟩ := map_eq_some_iff.mp hst
    obtain ⟨ho, hd, hk⟩ := resume_device m.ideal.disk m.ideal.device hs
    rw [← hself] at ho
    rw [ideal_same hd hk]
    exact (h.resume ho).1
  | complete r blk =>
    have hc := Machine.complete_ideal hst
    have hid : m.ideal = m.sys := ideal_eq fun c out hd => by
      simp [Machine.complete, hd] at hst
    rw [hid] at h
    exact (h.complete hc).1
  | ideintr => exact (h.handled hn hst).1 hn'

theorem MachineRuns.inv (h : MachineRuns m) (hn : m.sys.panicked = none) : Inv m.ideal := by
  refine Reach.inv (P := fun m => m.sys.panicked = none → Inv m.ideal) (fun m hb _ => ?_) (fun m e m' hi _ hst hn' => ?_) h hn
  · rw [ideal_eq fun c out hd => by rw [hb.device] at hd; cases hd]
    exact inv_boot hb
  · have hrun : m.sys.panicked = none := by
      unfold Machine.step at hst
      split at hst
      · assumption
      · cases hst
    exact (hi hrun).event hrun hst hn'

/-- The buffer of a command that has not failed agrees with its block when the handler has marked it valid and clean. -/
theorem ideintr_agrees (h : MachineRuns m) (hst : m.step .ideintr = some m') (hok : idewait true m.status = 0) :
    ∃ b rest, m.sys.idequeue = b :: rest ∧ (m'.sys.buf b).valid = true ∧ (m'.sys.buf b).dirty = false ∧
      m'.sys.disk ((m'.sys.buf b).dev % 2) (m'.sys.buf b).blockno = (m'.sys.buf b).data ∧
      ((m.sys.buf b).dirty = true → (m'.sys.buf b).data = (m.sys.buf b).data) := by
  unfold Machine.step at hst
  split at hst
  · rename_i hrun
    have hf : ¬ failed m.status := by
      intro hf
      simp only [idewait, true_and] at hok
      rw [if_pos (show m.status &&& (IDE_DF ||| IDE_ERR) ≠ 0 from hf)] at hok
      cases hok
    obtain ⟨-, c, out, b, rest, -, hq, hdisk, hbuf, hagree⟩ := (h.inv hrun).handled hrun hst
    refine ⟨b, rest, hq, ?_, ?_, ?_, ?_⟩
    · rw [hbuf]
      rfl
    · rw [hbuf]
      rfl
    · rw [hdisk, hbuf]
      refine (hagree hf).trans ?_
      cases hd : (m.sys.buf b).dirty with
      | true => simp [finishWith, hd]
      | false => simp [finishWith, hd, hok]
    · intro hd
      rw [hbuf]
      simp [finishWith, hd]
  · cases hst

def IDE_DRDY : BitVec 8 := 0x40#8

theorem runs_boot : MachineRuns (⟨boot, IDE_DRDY⟩ : Machine (Fin 2) (Fin 2)) := .init booted_boot

/-- A recycled buffer: it is to be read, and holds the bytes of another block. -/
def recycled : Buf (Fin 2) := { dirtyBuf 0 1 7 9 with valid := false, dirty := false }

theorem ideintr_agrees_read : ∃ m m' : Machine (Fin 2) (Fin 2), m.step .ideintr = some m' ∧ ∃ b rest, m.sys.idequeue = b :: rest ∧
    (m'.sys.buf b).valid = true ∧ m'.sys.disk ((m'.sys.buf b).dev % 2) (m'.sys.buf b).blockno = (m'.sys.buf b).data := by
  obtain ⟨m, hr, hok, hsome⟩ := Reach.of_runs [.own 0 0 recycled, .iderw 0 0, .complete IDE_DRDY (Bytes.fill BSIZE 0)]
    (fun m => idewait true m.status = 0 ∧ (m.step .ideintr).isSome) runs_boot (by decide +kernel)
  obtain ⟨m', hst⟩ := isSome_iff_exists.mp hsome
  obtain ⟨b, rest, hq, hv, -, hd, -⟩ := ideintr_agrees hr hst hok
  exact ⟨m, m', hst, b, rest, hq, hv, hd⟩

def Deceived (m : Machine (Fin 2) (Fin 2)) : Prop := m.sys.panicked = none ∧ m.sys.pc 0 = .outside ∧ m.sys.completed = [0] ∧
  (m.sys.buf 0).valid = true ∧ (m.sys.buf 0).dirty = false ∧ (m.sys.disk 1 7).get 0 ≠ (m.sys.buf 0).data.get 0

instance (m : Machine (Fin 2) (Fin 2)) : Decidable (Deceived m) := inferInstanceAs (Decidable (_ ∧ _))

/-- A read fails, and what was in the buffer is taken for the block. A write fails, and the buffer is taken to be on disk. -/
theorem ideintr_hides_errors : (∃ m, MachineRuns m ∧ Deceived m ∧ (m.sys.buf 0).data.get 0 = recycled.data.get 0) ∧
    ∃ m, MachineRuns m ∧ Deceived m ∧ (m.sys.buf 0).data.get 0 = (dirtyBuf 0 1 7 9).data.get 0 := by
  refine ⟨?_, ?_⟩
  · exact Reach.of_runs
      [.own 0 0 recycled, .iderw 0 0, .complete (IDE_DRDY ||| IDE_ERR) (Bytes.fill BSIZE 0), .ideintr, .resume 0]
      (fun m => Deceived m ∧ (m.sys.buf 0).data.get 0 = recycled.data.get 0) runs_boot (by decide +kernel)
  · exact Reach.of_runs
      [.own 0 0 (dirtyBuf 0 1 7 9), .iderw 0 0, .complete (IDE_DRDY ||| IDE_DF) (Bytes.fill BSIZE 0), .ideintr, .resume 0]
      (fun m => Deceived m ∧ (m.sys.buf 0).data.get 0 = (dirtyBuf 0 1 7 9).data.get 0) runs_boot (by decide +kernel)

end Xv6.Ide
