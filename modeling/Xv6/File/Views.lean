import Xv6.File.Lemmas

/-!
# What each process sees of the file table

What a process sees through its descriptors changes only by its own calls, and by the `fork` that creates it.
-/

open Xv6.Lib List

namespace Xv6.Ftable

open Option State Except

open Function

open Xv6.Ptable (Slot)

inductive Desc where
  | none
  | pipe (k : Nat) (writable : Bool)
  | inode (ip : Nat) (readable writable : Bool)
deriving DecidableEq

def File.desc (x : File) : Desc :=
  match x.type with
  | .FD_NONE => .none
  | .FD_PIPE => .pipe x.pipe x.writable
  | .FD_INODE => .inode x.ip x.readable x.writable

abbrev Table := Fd → Option Desc

def State.views (s : State) (p : Slot) : Table := fun fd => (s.ofile (p, fd)).map fun f => (s.file f).desc

def lowest {α : Type} (t : Fd → Option α) : Option Fd := (finRange NOFILE).find? fun fd => (t fd).isNone

variable {s s' : State} {f g : FileIx} {p q np : Slot} {fd : Fd} {hand : FileIx → ℤ} {held : Nat → Prop} {n : Int} {r : Int} {mem : Bool}

theorem views_eq_none : s.views p fd = none ↔ s.ofile (p, fd) = none := by simp [views]

theorem views_congr (ho : s'.ofile = s.ofile) (hf : ∀ i f, s.ofile i = some f → (s'.file f).desc = (s.file f).desc) :
    s'.views = s.views := by
  funext q fd
  simp only [views, ho]
  cases hq : s.ofile (q, fd) with
  | none => rfl
  | some f => simp [hf _ f hq]

theorem views_setFd (x : Option FileIx) : (s.setFd p fd x).views =
    update s.views p (update (s.views p) fd (x.map fun f => (s.file f).desc)) := by
  funext q fd'
  by_cases hq : q = p
  · subst hq
    by_cases hfd : fd' = fd
    · subst hfd
      simp [views, setFd]
    · simp [views, setFd, hfd]
  · simp [views, setFd, hq]

theorem views_setRef (r : Nat) : (s.setFile f { s.file f with ref := r }).views = s.views := by
  refine views_congr rfl fun _ g _ => ?_
  rw [setFile_file]
  split
  · subst g; rfl
  · rfl

theorem views_unheld (ho : s'.ofile = s.ofile) (hf : ∀ i, s.ofile i ≠ some f) (hg : ∀ g, g ≠ f → s'.file g = s.file g) :
    s'.views = s.views := by
  refine views_congr ho fun i g hi => ?_
  rw [hg g]
  rintro rfl
  exact hf i hi

theorem filealloc_views (hs : s.filealloc = some (f, s')) : s'.views = s.views := by
  unfold filealloc at hs
  split at hs
  · cases hs
    exact views_setRef 1
  · cases hs

theorem filedup_eq (hs : s.filedup f = .ok s') : s' = s.setFile f { s.file f with ref := (s.file f).ref + 1 } := by
  unfold filedup at hs
  split at hs
  · cases hs
  · cases hs
    rfl

theorem filedup_views (hs : s.filedup f = .ok s') : s'.views = s.views := by
  rw [filedup_eq hs]
  exact views_setRef _

theorem Inv.fileclose_views (h : Inv s hand held) (hh : hand f = 1) (hs : s.fileclose f = .ok s') : s'.views = s.views := by
  have hr := h.refs.ref f
  by_cases hone : (s.file f).ref = 1
  · have hn : ∀ i, s.ofile i ≠ some f := by
      intro i hi
      have := holders_pos.mpr ⟨i, hi⟩
      omega
    obtain ⟨s1, hs1, -, ho, -, hg⟩ := h.fileclose (f := f) (by omega)
    cases hs.symm.trans hs1
    exact views_unheld ho hn hg
  · unfold State.fileclose at hs
    dsimp only at hs
    rw [if_neg (by omega), if_pos (by omega)] at hs
    cases hs
    exact views_setRef _

theorem fdalloc_lowest (hs : s.fdalloc f p = some (fd, s')) : lowest (s.views p) = some fd := by
  unfold fdalloc at hs
  split at hs
  · cases hs
    rename_i hf
    rw [lowest, ← hf]
    congr 1
    funext fd
    rw [Bool.eq_iff_iff, isNone_iff_eq_none, views_eq_none, decide_eq_true_iff]
  · cases hs

theorem argfd_views {fd : Fd} (h : s.argfd p n = some (fd, f)) : n = fd ∧ s.views p fd = some (s.file f).desc := by
  have ho := argfd_some h
  unfold argfd at h
  split at h
  · rename_i hn
    obtain ⟨g, -, he⟩ := map_eq_some_iff.mp h
    cases he
    refine ⟨?_, by simp [views, ho]⟩
    simp only
    omega
  · cases h

theorem fileclose_npipe (hs : s.fileclose f = .ok s') : s'.npipe = s.npipe := by
  unfold fileclose at hs
  dsimp only at hs
  split at hs
  · cases hs
  · split at hs
    · cases hs
      rfl
    · cases hs
      unfold closed
      split
      · exact (pipeclose_rest _ _).2.2.2.1
      · rfl
      · rfl

/-! ## The calls -/

/-- A call of `p` that has changed what it sees to `t`. -/
structure Sees (s : State) (p : Slot) (t : Table) (s' : State) : Prop where
  inv : Inv₀ s'
  views : s'.views = update s.views p t
  life : s'.life = s.life

theorem Sees.same (hi : Inv₀ s') (hv : s'.views = s.views) (hl : s'.life = s.life) : Sees s p (s.views p) s' :=
  ⟨hi, by rw [hv, update_eq_self], hl⟩

theorem Inv₀.sysDup_sees (h : Inv₀ s) (hu : s.life p = .used) (hx : s.sysDup p n = .ok (r, s')) :
    s'.npipe = s.npipe ∧ (r = -1 ∧ Sees s p (s.views p) s' ∨ ∃ fd fd' : Fd, ∃ d, n = fd ∧ r = fd' ∧ s.views p fd = some d ∧
      lowest (s.views p) = some fd' ∧ Sees s p (update (s.views p) fd' (some d)) s') := by
  have hinv : Inv₀ s' := (h.sysDup hu n).of_ok hx
  unfold State.sysDup at hx
  split at hx
  · cases hx
    exact ⟨rfl, .inl ⟨rfl, .same h rfl rfl⟩⟩
  · rename_i fd f hf
    split at hx
    · cases hx
      exact ⟨rfl, .inl ⟨rfl, .same h rfl rfl⟩⟩
    · rename_i fd' s1 hs1
      obtain ⟨hn, hd⟩ := argfd_views hf
      obtain ⟨-, rfl, -⟩ := h.fdalloc hu hs1
      obtain ⟨s2, hs2, hx⟩ := of_bind_ok hx
      cases hx
      have hv := filedup_views hs2
      obtain rfl := filedup_eq hs2
      exact ⟨rfl, .inr ⟨fd, fd', _, hn, rfl, hd, fdalloc_lowest hs1, hinv, by rw [hv, views_setFd]; rfl, rfl⟩⟩

theorem Inv₀.sysClose_sees (h : Inv₀ s) (hx : s.sysClose p n = .ok (r, s')) :
    s'.npipe = s.npipe ∧ (r = -1 ∧ Sees s p (s.views p) s' ∨
      ∃ fd : Fd, ∃ d, n = fd ∧ r = 0 ∧ s.views p fd = some d ∧ Sees s p (update (s.views p) fd none) s') := by
  have hinv : Inv₀ s' := (h.sysClose n).of_ok hx
  unfold State.sysClose at hx
  split at hx
  · cases hx
    exact ⟨rfl, .inl ⟨rfl, .same h rfl rfl⟩⟩
  · rename_i fd f hf
    obtain ⟨hn, hd⟩ := argfd_views hf
    have hof := argfd_some hf
    have h1 : Inv (s.setFd p fd none) _ _ := h.setFd nofun
    have hone : (0 : ℤ) + (if s.ofile (p, fd) = some f then 1 else 0) - (if (none : Option FileIx) = some f then 1 else 0) = 1 := by
      simp [hof]
    obtain ⟨s1, hs1, -, -, hl, -⟩ := h1.fileclose (f := f) (h.ref_pos_of_fd hof le_rfl)
    rw [hs1] at hx
    cases hx
    exact ⟨(fileclose_npipe hs1).trans rfl, .inr ⟨fd, _, hn, rfl, hd, hinv, by rw [h1.fileclose_views hone hs1, views_setFd]; rfl, hl⟩⟩

theorem views_install (hn : ∀ i, s.ofile i ≠ some f) (x : File) : ((s.setFd p fd (some f)).setFile f x).views =
    update s.views p (update (s.views p) fd (some x.desc)) := by
  have hcomm : (s.setFd p fd (some f)).setFile f x = (s.setFile f x).setFd p fd (some f) := rfl
  have hv : (s.setFile f x).views = s.views := views_unheld rfl hn fun g hg => by rw [setFile_file, if_neg hg]
  rw [hcomm, views_setFd, hv, map_some, setFile_file, if_pos rfl]

theorem Inv.filealloc_unheld (h : Inv s hand held) (hf : 0 ≤ hand f) (hs : s.filealloc = some (f, s')) : ∀ i, s'.ofile i ≠ some f := by
  obtain ⟨-, -, ho, -, hr, -⟩ := h.filealloc hs
  intro i hi
  rw [ho] at hi
  have := h.ref_pos_of_fd hi hf
  omega

theorem filealloc_npipe (hs : s.filealloc = some (f, s')) : s'.npipe = s.npipe := by
  unfold filealloc at hs
  split at hs
  · cases hs
    rfl
  · cases hs

def opened (ip : Nat) (omode : BitVec 32) : Desc :=
  .inode ip (omode &&& O_WRONLY = 0) (omode &&& O_WRONLY ≠ 0 ∨ omode &&& O_RDWR ≠ 0)

theorem Inv₀.sysOpen_sees (h : Inv₀ s) (hu : s.life p = .used) {found : Option Bool} {omode : BitVec 32}
    (hx : s.sysOpen p found omode = .ok (r, s')) :
    s'.npipe = s.npipe ∧ (r = -1 ∧ Sees s p (s.views p) s' ∨ ∃ fd : Fd, r = fd ∧ lowest (s.views p) = some fd ∧
      Sees s p (update (s.views p) fd (some (opened s.nip omode))) s') := by
  have hinv : Inv₀ s' := (h.sysOpen hu found omode).of_ok hx
  have hip := Inv.takeIp h
  unfold State.sysOpen at hx
  split at hx
  · cases hx
    exact ⟨rfl, .inl ⟨rfl, .same h rfl rfl⟩⟩
  · dsimp only at hx
    split at hx
    · cases hx
      exact ⟨rfl, .inl ⟨rfl, .same hinv rfl rfl⟩⟩
    · split at hx
      · cases hx
        exact ⟨rfl, .inl ⟨rfl, .same hinv rfl rfl⟩⟩
      · rename_i f s1 hs1
        obtain ⟨h1, -, ho1, hl1, -, -⟩ := hip.filealloc hs1
        have hv1 : s1.views = s.views := (filealloc_views hs1).trans rfl
        have hn1 : s1.npipe = s.npipe := (filealloc_npipe hs1).trans rfl
        have hpos : 0 < (s1.file f).ref := h1.ref_pos (by simp)
        split at hx
        · obtain ⟨s2, hs2, h2, -, hl2, -⟩ := h1.fileclose hpos
          rw [hs2] at hx
          cases hx
          have hv2 := h1.fileclose_views (f := f) (by simp) hs2
          exact ⟨(fileclose_npipe hs2).trans hn1, .inl ⟨rfl, .same hinv (hv2.trans hv1) (hl2.trans hl1)⟩⟩
        · rename_i fd s2 hs2
          obtain ⟨-, rfl, -⟩ := h1.fdalloc (by rw [hl1]; exact hu) hs2
          cases hx
          have hlow := fdalloc_lowest hs2
          rw [hv1] at hlow
          refine ⟨hn1, .inr ⟨fd, rfl, hlow, hinv, ?_, hl1⟩⟩
          rw [views_install (hip.filealloc_unheld le_rfl hs1), hv1]
          rfl

/-! ### `pipe` -/

structure Piped (s : State) (o : Option (FileIx × FileIx)) (s' : State) : Prop where
  views : s'.views = s.views
  life : s'.life = s.life
  some : ∀ rf wf, o = some (rf, wf) → s'.npipe = s.npipe + 1 ∧ rf ≠ wf ∧ (s'.file rf).desc = .pipe s.npipe false ∧
    (s'.file wf).desc = .pipe s.npipe true
  none : o = none → s'.npipe = s.npipe

theorem Inv₀.pipealloc_piped (h : Inv₀ s) {o : Option (FileIx × FileIx)} (hx : s.pipealloc mem = .ok (o, s')) : Piped s o s' := by
  unfold State.pipealloc at hx
  split at hx
  · cases hx
    exact ⟨rfl, rfl, nofun, fun _ => rfl⟩
  · rename_i f0 s0 hs0
    obtain ⟨h0, ht0, ho0, hl0, hr0, -⟩ := h.filealloc hs0
    have hv0 := filealloc_views hs0
    have hn0 := filealloc_npipe hs0
    have hp0 : 0 < (s0.file f0).ref := h0.ref_pos (by simp)
    split at hx
    · obtain ⟨s1, hs1, -, -, hl1, -⟩ := h0.fileclose hp0
      rw [hs1] at hx
      cases hx
      have hv1 := h0.fileclose_views (f := f0) (by simp) hs1
      exact ⟨hv1.trans hv0, hl1.trans hl0, nofun, fun _ => (fileclose_npipe hs1).trans hn0⟩
    · rename_i f1 s1 hs1
      obtain ⟨h1, ht1, ho1, hl1, hr1, hf1⟩ := h0.filealloc hs1
      have hv1 := (filealloc_views hs1).trans hv0
      have hn1 := (filealloc_npipe hs1).trans hn0
      have hne : f0 ≠ f1 := by rintro rfl; omega
      have hp1 : 0 < (s1.file f1).ref := h1.ref_pos (by simp; split <;> omega)
      rw [← hf1 f0 hne] at hp0
      split at hx
      · cases hx
        have hu0 := h.filealloc_unheld le_rfl hs0
        have hu1 := h0.filealloc_unheld (by simp; split <;> omega) hs1
        rw [← ho1] at hu0
        refine ⟨?_, hl1.trans hl0, ?_, nofun⟩
        · rw [← hv1]
          refine views_congr rfl fun i g hi => ?_
          rw [pipeends_file hne, if_neg (by rintro rfl; exact hu1 i hi), if_neg (by rintro rfl; exact hu0 i hi)]
        · intro rf wf he
          cases he
          refine ⟨congrArg (· + 1) hn1, hne, ?_, ?_⟩
          · rw [pipeends_file hne, if_neg hne, if_pos rfl, ← hn1]
            rfl
          · rw [pipeends_file hne, if_pos rfl, ← hn1]
            rfl
      · obtain ⟨s2, hs2, h2, ho2, hl2, hf2⟩ := h1.fileclose hp0
        rw [← hf2 f1 hne.symm] at hp1
        obtain ⟨s3, hs3, h3, ho3, hl3, -⟩ := h2.fileclose hp1
        rw [hs2, ok_bind, hs3] at hx
        cases hx
        have hv2 := h1.fileclose_views (f := f0) (by simp [hne]) hs2
        have hv3 := h2.fileclose_views (f := f1) (by simp [hne.symm]) hs3
        exact ⟨hv3.trans (hv2.trans hv1), hl3.trans (hl2.trans (hl1.trans hl0)), nofun,
          fun _ => (fileclose_npipe hs3).trans ((fileclose_npipe hs2).trans hn1)⟩

theorem Inv.closeBoth_views {rf wf : FileIx} (hne : rf ≠ wf)
    (h : Inv s (fun g => (if g = rf then 1 else 0) + if g = wf then 1 else 0) fun _ => False)
    (hx : (do let s ← s.fileclose rf; let s ← s.fileclose wf; return (-1, s)) = (.ok (r, s') : Except Panic (Int × State))) :
    r = -1 ∧ s'.views = s.views ∧ s'.life = s.life ∧ s'.npipe = s.npipe := by
  obtain ⟨s1, hs1, h1, -, hl1, -⟩ := h.fileclose (f := rf) (h.ref_pos (by simp [hne]))
  obtain ⟨s2, hs2, h2, -, hl2, -⟩ := h1.fileclose (f := wf) (h1.ref_pos (by simp))
  rw [hs1, ok_bind, hs2] at hx
  cases hx
  have hv1 := h.fileclose_views (f := rf) (by simp [hne]) hs1
  have hv2 := h1.fileclose_views (f := wf) (by simp [hne.symm]) hs2
  exact ⟨rfl, hv2.trans hv1, hl2.trans hl1, (fileclose_npipe hs2).trans (fileclose_npipe hs1)⟩

structure Ends2 (s : State) (p : Slot) (fd0 fd1 : Fd) (s' : State) : Prop where
  low : lowest (s.views p) = some fd0
  next : lowest (update (s.views p) fd0 (some (.pipe s.npipe false))) = some fd1
  npipe : s'.npipe = s.npipe + 1
  sees : Sees s p (update (update (s.views p) fd0 (some (.pipe s.npipe false))) fd1 (some (.pipe s.npipe true))) s'

theorem Inv₀.sysPipe_sees (h : Inv₀ s) (hu : s.life p = .used) {ptr : Bool} (hx : s.sysPipe p ptr mem = .ok (r, s')) :
    s.npipe ≤ s'.npipe ∧ (r = -1 ∧ Sees s p (s.views p) s' ∨
      r = 0 ∧ ∃ fd0 fd1, s.pipeFds p mem = some (fd0, fd1) ∧ Ends2 s p fd0 fd1 s') := by
  have hinv : Inv₀ s' := (h.sysPipe hu ptr mem).of_ok hx
  unfold State.sysPipe at hx
  split at hx
  · cases hx
    exact ⟨le_rfl, .inl ⟨rfl, .same h rfl rfl⟩⟩
  · cases ha : s.pipealloc mem with
    | error e => simp [ha, bind, Except.bind] at hx
    | ok v =>
      obtain ⟨o, s1⟩ := v
      have hp := h.pipealloc_piped ha
      obtain ⟨-, -, h1⟩ := (h.pipealloc mem).of_ok ha
      rw [ha, ok_bind] at hx
      cases o with
      | none =>
        cases hx
        exact ⟨(hp.none rfl).ge, .inl ⟨rfl, .same hinv hp.views hp.life⟩⟩
      | some ends =>
        obtain ⟨rf, wf⟩ := ends
        obtain ⟨hn1, hne, hrd, hwd⟩ := hp.some rf wf rfl
        have hu1 : s1.life p = .used := (congrFun hp.life p).trans hu
        dsimp only at hx h1
        split at hx
        · obtain ⟨rfl, hv, hl, hn⟩ := h1.closeBoth_views hne hx
          exact ⟨by omega, .inl ⟨rfl, .same hinv (hv.trans hp.views) (hl.trans hp.life)⟩⟩
        · rename_i fd0 s2 hs2
          have hlow := fdalloc_lowest hs2
          obtain ⟨h2, rfl, hfree⟩ := h1.fdalloc hu1 hs2
          have hv2 : (s1.setFd p fd0 (some rf)).views = update s.views p
              (update (s.views p) fd0 (some (.pipe s.npipe false))) := by
            rw [views_setFd, hp.views, map_some, hrd]
          split at hx
          · have h3 : Inv ((s1.setFd p fd0 (some rf)).setFd p fd0 none) _ _ := h2.setFd nofun
            have h4 : Inv _ (fun g => (if g = rf then 1 else 0) + if g = wf then 1 else 0) _ := h3.congr fun g => by
              simp [setFd, eq_comm]
              exact add_comm _ _
            obtain ⟨rfl, hv, hl, hn⟩ := h4.closeBoth_views hne hx
            have hback : ((s1.setFd p fd0 (some rf)).setFd p fd0 none).views = s.views := by
              rw [views_setFd, hv2]
              simp [← hp.views, views_eq_none.mpr hfree]
            exact ⟨by rw [hn]; exact (by omega : s.npipe ≤ s1.npipe), .inl ⟨rfl, .same hinv (hv.trans hback) (hl.trans hp.life)⟩⟩
          · rename_i fd1 s3 hs3
            have hnext := fdalloc_lowest hs3
            obtain ⟨h3, rfl, -⟩ := h2.fdalloc hu1 hs3
            cases hx
            rw [hp.views] at hlow
            rw [hv2, update_self] at hnext
            have hfds : s.pipeFds p mem = some (fd0, fd1) := by
              unfold pipeFds
              rw [ha]
              simp only [hs2, bind_eq_bind, bind_some, hs3]
              rfl
            refine ⟨hn1 ▸ Nat.le_succ _, .inr ⟨rfl, fd0, fd1, hfds, hlow, hnext, hn1, hinv, ?_, hp.life⟩⟩
            rw [views_setFd, hv2, update_idem, update_self, map_some]
            rw [show (s1.setFd p fd0 (some rf)).file wf = s1.file wf from rfl, hwd]

/-! ### `fork`, `exit` and `wait` -/

structure Forked (s : State) (p np : Slot) (s' : State) : Prop where
  inv : Inv₀ s'
  free : s.life np = .unused
  views : s'.views = update s.views np (s.views p)
  life : s'.life = update s.life np .used
  npipe : s'.npipe = s.npipe

theorem forkFd_views {v : Slot → Table} {done : List Fd} (h : Inv₀ s) (hp : p ≠ np)
    (hv : s.views = update v np fun fd => if fd ∈ done then v p fd else none) :
    Ends (fun _ => False) (fun s' => s'.npipe = s.npipe ∧
      s'.views = update v np fun fd' => if fd' ∈ done ++ [fd] then v p fd' else none) (s.forkFd p np fd) := by
  have hvp : s.views p fd = v p fd := by rw [hv, update_of_ne hp]
  unfold forkFd
  split
  · rename_i f hf
    obtain ⟨s1, hs1, -⟩ := h.filedup (h.ref_pos_of_fd hf le_rfl)
    have hn1 : s1.npipe = s.npipe := by
      rw [filedup_eq hs1]
      rfl
    have hfile : (s1.file f).desc = (s.file f).desc := by
      rw [filedup_eq hs1, setFile_file, if_pos rfl]
      rfl
    have hd : v p fd = some (s.file f).desc := by rw [← hvp]; simp [views, hf]
    rw [hs1]
    refine ⟨hn1, ?_⟩
    rw [views_setFd, filedup_views hs1, hv, update_idem, update_self, map_some, hfile, ← hd]
    congr 1
    funext fd'
    by_cases he : fd' = fd
    · simp [he]
    · simp [he, update_of_ne]
  · rename_i hf
    have hd : v p fd = none := by rw [← hvp]; exact views_eq_none.mpr hf
    refine ⟨rfl, hv.trans ?_⟩
    congr 1
    funext fd'
    by_cases he : fd' = fd
    · simp [he, hd]
    · simp [he]

theorem Inv₀.fork_forked (h : Inv₀ s) (hu : s.life p = .used) (hx : s.fork p mem = .ok (r, s')) :
    r = -1 ∧ s' = s ∨ ∃ np : Slot, r = np ∧ Forked s p np s' := by
  have hinv : Inv₀ s' := (h.fork mem).of_ok hx
  unfold State.fork at hx
  split at hx
  · cases hx
    exact .inl ⟨rfl, rfl⟩
  · rename_i np hnp
    have hnp : s.life np = .unused := by simpa using find?_some hnp
    have hne : p ≠ np := by rintro rfl; rw [hnp] at hu; cases hu
    split at hx
    · have hclosed (fd : Fd) : s.ofile (np, fd) = none := h.refs.closed np (by rw [hnp]; nofun) fd
      have hfold : Ends (fun _ => False) (fun s' => Inv₀ s' ∧ s'.life = update s.life np .used ∧ s'.npipe = s.npipe ∧
          s'.views = update s.views np fun fd => if fd ∈ finRange NOFILE then s.views p fd else none)
          ((finRange NOFILE).foldlM (fun s fd => s.forkFd p np fd) { s with life := update s.life np .used }) := by
        refine Ends.foldlM (I := fun done s' => Inv₀ s' ∧ s'.life = update s.life np .used ∧ s'.npipe = s.npipe ∧
          s'.views = update s.views np fun fd => if fd ∈ done then s.views p fd else none) ⟨h.born np, rfl, rfl, ?_⟩ ?_
        · have hnone : s.views np = fun _ => none := funext fun fd => views_eq_none.mpr (hclosed fd)
          simp only [not_mem_nil, if_false]
          rw [← hnone, update_eq_self]
          rfl
        · intro done fd rest s1 hl ⟨h1, hl1, hn1, hv1⟩
          have hu1 : s1.life np = .used := by rw [hl1, update_self]
          have hfree : s1.ofile (np, fd) = none := by
            apply views_eq_none.mp
            rw [hv1]
            simp [not_mem_done hl]
          refine ((h1.forkFd hu1 hfree).and (forkFd_views h1 hne hv1)).imp ?_
          rintro s2 ⟨⟨h2, hl2, -⟩, hn2, hv2⟩
          exact ⟨h2, hl2.trans hl1, hn2.trans hn1, hv2⟩
      obtain ⟨s1, hf, hx⟩ := of_bind_ok hx
      cases hx
      obtain ⟨-, hl, hn, hv⟩ := hfold.of_ok hf
      simp only [mem_finRange, if_true] at hv
      exact .inr ⟨np, rfl, hinv, hnp, hv, hl, hn⟩
    · cases hx
      exact .inl ⟨rfl, rfl⟩

theorem closed_setFd (x : Option FileIx) (ff : File) : (s.setFd p fd x).closed ff = (s.closed ff).setFd p fd x := by
  unfold closed
  cases ff.type with
  | FD_NONE => rfl
  | FD_INODE => rfl
  | FD_PIPE =>
    change (if ((s.pipe ff.pipe).close ff.writable).readopen = false ∧ ((s.pipe ff.pipe).close ff.writable).writeopen = false
      then _ else _) = setFd (if _ then _ else _) p fd x
    split
    · rfl
    · rfl

theorem fileclose_setFd (x : Option FileIx) (hs : s.fileclose f = .ok s') : (s.setFd p fd x).fileclose f = .ok (s'.setFd p fd x) := by
  have hcomm (y : File) : (s.setFd p fd x).setFile f y = (s.setFile f y).setFd p fd x := rfl
  unfold fileclose at hs ⊢
  dsimp only at hs ⊢
  rw [show (s.setFd p fd x).file f = s.file f from rfl]
  split at hs
  · cases hs
  · rename_i hr
    rw [if_neg hr]
    split at hs
    · rename_i hr'
      cases hs
      rw [if_pos hr', hcomm]
    · rename_i hr'
      cases hs
      rw [if_neg hr', hcomm, closed_setFd]

theorem exitFd_eq (h : Inv₀ s) (hf : s.ofile (p, fd) = some f) : ∃ s', s.exitFd p fd = .ok s' ∧ s.sysClose p fd = .ok (0, s') := by
  obtain ⟨s1, hs1, -⟩ := h.fileclose (h.ref_pos_of_fd hf le_rfl)
  have harg : s.argfd p fd = some (fd, f) := by
    unfold argfd
    rw [dif_pos ⟨by omega, by omega⟩]
    simp [hf]
  refine ⟨s1.setFd p fd none, ?_, ?_⟩
  · simp only [exitFd, hf, hs1]
    rfl
  · simp only [sysClose, harg, fileclose_setFd none hs1]
    rfl

structure Exited (s : State) (p : Slot) (s' : State) : Prop where
  inv : Inv₀ s'
  views : s'.views = update s.views p fun _ => none
  life : s'.life = update s.life p .zombie
  npipe : s'.npipe = s.npipe

theorem Inv₀.exit_exited (h : Inv₀ s) (hx : s.exit p = .ok (r, s')) : Exited s p s' := by
  have hinv : Inv₀ s' := (h.exit).of_ok hx
  unfold State.exit at hx
  have hfold : Ends (fun _ => False) (fun s' => Inv₀ s' ∧ s'.life = s.life ∧ s'.npipe = s.npipe ∧
      s'.views = update s.views p fun fd => if fd ∈ finRange NOFILE then none else s.views p fd)
      ((finRange NOFILE).foldlM (fun s fd => s.exitFd p fd) s) := by
    refine Ends.foldlM (I := fun done s' => Inv₀ s' ∧ s'.life = s.life ∧ s'.npipe = s.npipe ∧
      s'.views = update s.views p fun fd => if fd ∈ done then none else s.views p fd) ⟨h, rfl, rfl, ?_⟩ ?_
    · simp [update_eq_self]
    · intro done fd rest s1 _ ⟨h1, hl1, hn1, hv1⟩
      have hnew {s2 : State} (hv : s2.views = update s1.views p (update (s1.views p) fd none)) :
          s2.views = update s.views p fun fd' => if fd' ∈ done ++ [fd] then none else s.views p fd' := by
        rw [hv, hv1, update_idem, update_self]
        congr 1
        funext fd'
        by_cases he : fd' = fd
        · simp [he]
        · simp [he]
      cases hf : s1.ofile (p, fd) with
      | none =>
        have hnone : s1.views p fd = none := views_eq_none.mpr hf
        simp only [State.exitFd, hf]
        refine ⟨h1, hl1, hn1, hnew ?_⟩
        rw [← hnone, update_eq_self, update_eq_self]
      | some f =>
        obtain ⟨s2, hs2, hc⟩ := exitFd_eq h1 hf
        rw [hs2]
        obtain ⟨hn2, hr | ⟨fd', d, hfd, -, -, hsee⟩⟩ := h1.sysClose_sees hc
        · exact absurd hr.1 (by decide)
        · obtain rfl : fd = fd' := by
            apply Fin.ext
            omega
          exact ⟨hsee.inv, hsee.life.trans hl1, hn2.trans hn1, hnew hsee.views⟩
  obtain ⟨s1, hf, hx⟩ := of_bind_ok hx
  cases hx
  obtain ⟨-, hl, hn, hv⟩ := hfold.of_ok hf
  simp only [mem_finRange, if_true] at hv
  exact ⟨hinv, hv, by rw [← hl], hn⟩

theorem Inv₀.wait_same (h : Inv₀ s) (hx : s.wait q = .ok (r, s')) :
    Inv₀ s' ∧ s'.views = s.views ∧ s'.npipe = s.npipe ∧ (r = -1 ∧ s' = s ∨ r = q ∧ s.life q = .zombie ∧
      s'.life = update s.life q .unused) := by
  have hinv : Inv₀ s' := (h.wait q).of_ok hx
  unfold State.wait at hx
  split at hx
  · rename_i hz
    cases hx
    exact ⟨hinv, rfl, rfl, .inr ⟨rfl, hz, rfl⟩⟩
  · cases hx
    exact ⟨hinv, rfl, rfl, .inl ⟨rfl, rfl⟩⟩

/-! ### Any call -/

theorem views_unused (h : Inv₀ s) (hq : s.life q ≠ .used) : s.views q = fun _ => none :=
  funext fun fd => views_eq_none.mpr (h.refs.closed q hq fd)

theorem views_pipe_lt (h : Inv₀ s) {k : Nat} {w : Bool} (hv : s.views p fd = some (.pipe k w)) : k < s.npipe := by
  obtain ⟨f, -, hd⟩ := map_eq_some_iff.mp hv
  unfold File.desc at hd
  split at hd
  · cases hd
  · cases hd
    exact h.pipes.lt f _ _ ⟨‹_›, rfl, rfl⟩
  · cases hd

/-- What a call of `p` may change. The pipe ends in a new descriptor are those of a descriptor that `p` had, or of a new pipe. -/
structure Moves (s : State) (p : Slot) (s' : State) : Prop where
  inv : Inv₀ s'
  npipe : s.npipe ≤ s'.npipe
  frame : ∀ q, q ≠ p → s.life q = .used → s'.views q = s.views q
  gain : ∀ q fd k w, s'.views q fd = some (.pipe k w) → q = p ∨ s.life q ≠ .used →
    (∃ fd', s.views p fd' = some (.pipe k w)) ∨ s.npipe ≤ k

theorem Sees.moves {t : Table} (h : Inv₀ s) (hx : Sees s p t s') (hn : s.npipe ≤ s'.npipe)
    (ht : ∀ fd k w, t fd = some (.pipe k w) → (∃ fd', s.views p fd' = some (.pipe k w)) ∨ s.npipe ≤ k) : Moves s p s' := by
  refine ⟨hx.inv, hn, fun q hq _ => by rw [hx.views, update_of_ne hq], fun q fd k w hv hq => ?_⟩
  rw [hx.views] at hv
  by_cases he : q = p
  · subst he
    rw [update_self] at hv
    exact ht fd k w hv
  · rw [update_of_ne he, views_unused h (hq.resolve_left he)] at hv
    cases hv

theorem Sees.moves_same (h : Inv₀ s) (hx : Sees s p (s.views p) s') (hn : s.npipe ≤ s'.npipe) : Moves s p s' :=
  hx.moves h hn fun fd _ _ hv => .inl ⟨fd, hv⟩

theorem Inv₀.exec_moves (h : Inv₀ s) (hu : s.life p = .used) {c : Call} (hx : Ftable.exec s p c = .ok (r, s')) : Moves s p s' := by
  have hput {t : Table} {fd0 : Fd} {o : Option Desc}
      (hd : ∀ k w, o = some (.pipe k w) → (∃ fd', s.views p fd' = some (.pipe k w)) ∨ s.npipe ≤ k)
      (ht : ∀ fd k w, t fd = some (.pipe k w) → (∃ fd', s.views p fd' = some (.pipe k w)) ∨ s.npipe ≤ k) (fd : Fd) (k : Nat) (w : Bool)
      (hv : update t fd0 o fd = some (.pipe k w)) : (∃ fd', s.views p fd' = some (.pipe k w)) ∨ s.npipe ≤ k := by
    by_cases he : fd = fd0
    · subst he
      rw [update_self] at hv
      exact hd k w hv
    · rw [update_of_ne he] at hv
      exact ht fd k w hv
  have hown (fd : Fd) (k : Nat) (w : Bool) (hv : s.views p fd = some (.pipe k w)) :
      (∃ fd', s.views p fd' = some (.pipe k w)) ∨ s.npipe ≤ k := .inl ⟨fd, hv⟩
  cases c with
  | dup n =>
    obtain ⟨hn, ⟨-, hsee⟩ | ⟨fd, fd', d, -, -, hd, -, hsee⟩⟩ := h.sysDup_sees hu hx
    · exact hsee.moves_same h hn.ge
    · exact hsee.moves h hn.ge (hput (fun k w he => .inl ⟨fd, hd.trans he⟩) hown)
  | close n =>
    obtain ⟨hn, ⟨-, hsee⟩ | ⟨fd, d, -, -, -, hsee⟩⟩ := h.sysClose_sees hx
    · exact hsee.moves_same h hn.ge
    · exact hsee.moves h hn.ge (hput nofun hown)
  | «open» found omode =>
    obtain ⟨hn, ⟨-, hsee⟩ | ⟨fd, -, -, hsee⟩⟩ := h.sysOpen_sees hu hx
    · exact hsee.moves_same h hn.ge
    · exact hsee.moves h hn.ge (hput nofun hown)
  | pipe ptr mem =>
    obtain ⟨hn, ⟨-, hsee⟩ | ⟨-, fd0, fd1, -, hends⟩⟩ := h.sysPipe_sees hu hx
    · exact hsee.moves_same h hn
    · have hnew (w' : Bool) (k : Nat) (w : Bool) (he : some (Desc.pipe s.npipe w') = some (.pipe k w)) :
          (∃ fd', s.views p fd' = some (.pipe k w)) ∨ s.npipe ≤ k := by
        cases he
        exact .inr le_rfl
      exact hends.sees.moves h hn (hput (hnew true) (hput (hnew false) hown))
  | fork mem =>
    obtain ⟨-, rfl⟩ | ⟨np, -, hf⟩ := h.fork_forked hu hx
    · exact (Sees.same h rfl rfl).moves_same h le_rfl
    · refine ⟨hf.inv, hf.npipe.ge, fun q _ hq => ?_, fun q fd k w hv hq => ?_⟩
      · rw [hf.views, update_of_ne]
        rintro rfl
        rw [hf.free] at hq
        cases hq
      · rw [hf.views] at hv
        by_cases he : q = np
        · subst he
          rw [update_self] at hv
          exact .inl ⟨fd, hv⟩
        · rw [update_of_ne he] at hv
          obtain rfl | hq := hq
          · exact .inl ⟨fd, hv⟩
          · rw [views_unused h hq] at hv
            cases hv
  | exit =>
    have he := h.exit_exited hx
    refine ⟨he.inv, he.npipe.ge, fun q hq _ => by rw [he.views, update_of_ne hq], fun q fd k w hv hq => ?_⟩
    rw [he.views] at hv
    by_cases hqp : q = p
    · subst hqp
      rw [update_self] at hv
      cases hv
    · rw [update_of_ne hqp, views_unused h (hq.resolve_left hqp)] at hv
      cases hv
  | wait q =>
    obtain ⟨hi, hv, hn, -⟩ := h.wait_same hx
    refine ⟨hi, hn.ge, fun q _ _ => by rw [hv], fun q' fd k w hv' hq => ?_⟩
    rw [hv] at hv'
    obtain rfl | hq := hq
    · exact .inl ⟨fd, hv'⟩
    · rw [views_unused h hq] at hv'
      cases hv'

end Xv6.Ftable
