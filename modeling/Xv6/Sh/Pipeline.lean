import Xv6.File.Theorems
import Xv6.Sh.Plumbing

/-! # All processes of a running command -/

open Xv6.Lib

namespace Xv6.Sh

open Function

open Xv6.Ftable (State Call Fd Desc Table NOFILE Inv₀ lowest Sees Moves)
open Xv6.Ptable (Slot)

variable {L : List Leaf} {t0 t : Table} {n0 : Nat} {y y' : Sys} {p q : Slot} {home m : Node} {prog prog' : Prog} {a : Sources}
  {new : Node → Prop} {d : Desc} {fd : Fd} {s : State} {n r : Int} {node : Node} {mem : Bool}

def Proc.makes (m : Node) : Proc → Prop
  | .shell _ prog => prog.makes m
  | _ => False

def Shows (y : Sys) (t0 : Table) (a : Sources) (t : Table) : Prop :=
  ∀ fd, Option.Rel (fun src d => y.desc t0 src = some d) (a fd) (t fd)

theorem Shows.update (h : Shows y t0 a t) (fd : Fd) {o : Option Source} {o' : Option Desc}
    (ho : Option.Rel (fun src d => y.desc t0 src = some d) o o') : Shows y t0 (update a fd o) (update t fd o') := by
  intro fd'
  by_cases he : fd' = fd
  · subst he
    rw [update_self, update_self]
    exact ho
  · rw [update_of_ne he, update_of_ne he]
    exact h fd'

theorem Shows.some (h : Shows y t0 a t) (hd : t fd = some d) : ∃ src, a fd = some src ∧ y.desc t0 src = some d := by
  have := h fd
  rw [hd] at this
  cases ha : a fd with
  | none => rw [ha] at this; cases this
  | some src =>
    rw [ha] at this
    cases this with
    | some h => exact ⟨src, rfl, h⟩

theorem Shows.lowest_eq (h : Shows y t0 a t) : lowest a = lowest t := by
  unfold lowest
  congr 1
  funext fd
  have := h fd
  revert this
  cases a fd <;> cases t fd <;> intro h
  · rfl
  · cases h
  · cases h
  · rfl

def Fits (L : List Leaf) (t0 : Table) (y : Sys) (p : Slot) : Prop :=
  match y.procs p with
  | .shell home prog => prog.Once ∧ (∀ m, prog.makes m → y.pipes m = none ∧ y.files m = none) ∧
    ∃ a, Safe L prog home a ∧ Shows y t0 a (y.kernel.views p)
  | proc => ∀ fd m k, y.pipes m = some k → y.kernel.views p fd = some (.pipe k true) → proc.within (m ++ [.left])

structure Wired (L : List Leaf) (t0 : Table) (n0 : Nat) (y : Sys) : Prop where
  inv : Inv₀ y.kernel
  old : ∀ fd k w, t0 fd = some (.pipe k w) → k < n0
  npipe : n0 ≤ y.kernel.npipe
  pipes : ∀ m k, y.pipes m = some k → n0 ≤ k ∧ k < y.kernel.npipe
  inj : ∀ m m' k, y.pipes m = some k → y.pipes m' = some k → m = m'
  fits : ∀ p, y.kernel.life p = .used → Fits L t0 y p
  apart : ∀ p q, p ≠ q → y.kernel.life p = .used → y.kernel.life q = .used → ∀ m, (y.procs p).makes m → ¬ (y.procs q).makes m

theorem Fits.shell (h : Fits L t0 y p) (hp : y.procs p = .shell home prog) : prog.Once ∧
    (∀ m, prog.makes m → y.pipes m = none ∧ y.files m = none) ∧ ∃ a, Safe L prog home a ∧ Shows y t0 a (y.kernel.views p) := by
  unfold Fits at h
  rw [hp] at h
  exact h

theorem fits_shell (hp : y.procs p = .shell home prog) (ho : prog.Once) (hm : ∀ m, prog.makes m → y.pipes m = none ∧ y.files m = none)
    (hs : Safe L prog home a) (hv : Shows y t0 a (y.kernel.views p)) : Fits L t0 y p := by
  unfold Fits
  rw [hp]
  exact ⟨ho, hm, a, hs, hv⟩

theorem fits_other (hn : ∀ home prog, y.procs p ≠ .shell home prog) : Fits L t0 y p ↔
    ∀ fd m k, y.pipes m = some k → y.kernel.views p fd = some (.pipe k true) → (y.procs p).within (m ++ [.left]) := by
  unfold Fits
  split
  · rename_i hp
    exact absurd hp (hn _ _)
  · exact Iff.rfl

/-! ## One step -/

structure Adds (y : Sys) (new : Node → Prop) (y' : Sys) : Prop where
  npipe : y.kernel.npipe ≤ y'.kernel.npipe
  pipes : ∀ m, y'.pipes m = y.pipes m ∨
    new m ∧ y.pipes m = none ∧ y'.pipes m = some y.kernel.npipe ∧ y.kernel.npipe < y'.kernel.npipe
  files : ∀ m, y'.files m = y.files m ∨ new m ∧ y.files m = none
  one : ∀ m m', new m → new m' → m = m'

theorem Adds.same (hn : y.kernel.npipe ≤ y'.kernel.npipe) (hp : y'.pipes = y.pipes) (hf : y'.files = y.files) :
    Adds y (fun _ => False) y' :=
  ⟨hn, fun m => .inl (by rw [hp]), fun m => .inl (by rw [hf]), nofun⟩

theorem Adds.desc (h : Adds y new y') {src : Source} (hd : y.desc t0 src = some d) : y'.desc t0 src = some d := by
  cases src with
  | inherited fd => exact hd
  | file node mode =>
    obtain he | ⟨-, hn⟩ := h.files node
    · simpa only [Sys.desc, he] using hd
    · simp [Sys.desc, hn] at hd
  | pipe node writable =>
    obtain he | ⟨-, hn, -⟩ := h.pipes node
    · simpa only [Sys.desc, he] using hd
    · simp [Sys.desc, hn] at hd

theorem Adds.shows (h : Adds y new y') (hs : Shows y t0 a t) : Shows y' t0 a t := by
  intro fd
  have := hs fd
  revert this
  cases a fd <;> cases t fd <;> intro h'
  · exact .none
  · cases h'
  · cases h'
  · cases h' with
    | some hd => exact .some (h.desc hd)

theorem Adds.unmade (h : Adds y new y') (hn : ¬ new m) (hm : y.pipes m = none ∧ y.files m = none) :
    y'.pipes m = none ∧ y'.files m = none := by
  refine ⟨?_, ?_⟩
  · obtain he | ⟨hm', -⟩ := h.pipes m
    · exact he.trans hm.1
    · exact absurd hm' hn
  · obtain he | ⟨hm', -⟩ := h.files m
    · exact he.trans hm.2
    · exact absurd hm' hn

theorem Fits.frame (h : Fits L t0 y q) (ha : Adds y new y') (hi : Inv₀ y.kernel) (hp : y'.procs q = y.procs q)
    (hv : y'.kernel.views q = y.kernel.views q) (hn : ∀ m, new m → ¬ (y.procs q).makes m) : Fits L t0 y' q := by
  by_cases hq : ∃ home prog, y.procs q = .shell home prog
  · obtain ⟨home, prog, hq⟩ := hq
    obtain ⟨ho, hm, a, hs, hsh⟩ := h.shell hq
    rw [hq] at hn
    refine fits_shell (hp.trans hq) ho (fun m hmk => ha.unmade (fun hnew => hn m hnew hmk) (hm m hmk)) hs ?_
    rw [hv]
    exact ha.shows hsh
  · have hq' (home : Node) (prog : Prog) : y.procs q ≠ .shell home prog := fun he => hq ⟨home, prog, he⟩
    refine (fits_other (hp ▸ hq')).mpr fun fd m k hk hfd => ?_
    rw [hp]
    rw [hv] at hfd
    obtain he | ⟨-, -, he, -⟩ := ha.pipes m
    · exact (fits_other hq').mp h fd m k (he.symm.trans hk) hfd
    · -- The pipe is new, so that nobody has had it.
      cases he.symm.trans hk
      exact absurd (Ftable.views_pipe_lt hi hfd) (lt_irrefl _)

section

variable (h : Wired L t0 n0 y) (hu : y.kernel.life p = .used)
include h hu

theorem Wired.next (hi : Inv₀ y'.kernel) (ha : Adds y new y') (hsub : ∀ m, new m → (y.procs p).makes m)
    (hframe : ∀ q, q ≠ p → y.kernel.life q = .used → y'.procs q = y.procs q ∧ y'.kernel.views q = y.kernel.views q)
    (hnew : ∀ q, y'.kernel.life q = .used → q = p ∨ y.kernel.life q ≠ .used →
      Fits L t0 y' q ∧ ∀ m, (y'.procs q).makes m → (y.procs p).makes m ∧ ¬ new m)
    (hsplit : ∀ q q', q ≠ q' → y'.kernel.life q = .used → y'.kernel.life q' = .used → q = p ∨ y.kernel.life q ≠ .used →
      q' = p ∨ y.kernel.life q' ≠ .used → ∀ m, (y'.procs q).makes m → ¬ (y'.procs q').makes m) : Wired L t0 n0 y' := by
  have hkeep (q : Slot) (hq : y'.kernel.life q = .used) : (q = p ∨ y.kernel.life q ≠ .used) ∨ q ≠ p ∧ y.kernel.life q = .used := by
    tauto
  refine ⟨hi, h.old, h.npipe.trans ha.npipe, fun m k hk => ?_, fun m m' k hk hk' => ?_, fun q hq => ?_, fun q q' hne hq hq' m hm hm' => ?_⟩
  · obtain he | ⟨-, -, he, hlt⟩ := ha.pipes m
    · have := h.pipes m k (he.symm.trans hk)
      exact ⟨this.1, this.2.trans_le ha.npipe⟩
    · cases he.symm.trans hk
      exact ⟨h.npipe, hlt⟩
  · obtain he | ⟨hn, -, he, -⟩ := ha.pipes m
    · obtain he' | ⟨hn', -, he', -⟩ := ha.pipes m'
      · exact h.inj m m' k (he.symm.trans hk) (he'.symm.trans hk')
      · cases he'.symm.trans hk'
        exact absurd (h.pipes m _ (he.symm.trans hk)).2 (lt_irrefl _)
    · obtain he' | ⟨hn', -, he', -⟩ := ha.pipes m'
      · cases he.symm.trans hk
        exact absurd (h.pipes m' _ (he'.symm.trans hk')).2 (lt_irrefl _)
      · exact ha.one m m' hn hn'
  · obtain hq' | ⟨hqp, hqu⟩ := hkeep q hq
    · exact (hnew q hq hq').1
    · obtain ⟨hp, hv⟩ := hframe q hqp hqu
      exact (h.fits q hqu).frame ha h.inv hp hv fun m hm => h.apart p q hqp.symm hu hqu m (hsub m hm)
  · -- What a new process may make was left to `p`.
    obtain hn | ⟨hqp, hqu⟩ := hkeep q hq
    · obtain hn' | ⟨hqp', hqu'⟩ := hkeep q' hq'
      · exact hsplit q q' hne hq hq' hn hn' m hm hm'
      · rw [(hframe q' hqp' hqu').1] at hm'
        exact h.apart p q' hqp'.symm hu hqu' m ((hnew q hq hn).2 m hm).1 hm'
    · rw [(hframe q hqp hqu).1] at hm
      obtain hn' | ⟨hqp', hqu'⟩ := hkeep q' hq'
      · exact h.apart q p hqp hqu hu m hm ((hnew q' hq' hn').2 m hm').1
      · rw [(hframe q' hqp' hqu').1] at hm'
        exact h.apart q q' hne hqu hqu' m hm hm'

/-! ## The calls of the shell -/

theorem Wired.advance (hp : y.procs p = .shell home prog) (hi : Inv₀ y'.kernel) (hv : y'.kernel.views = update y.kernel.views p t)
    (hl : ∀ q, y'.kernel.life q = .used → y.kernel.life q = .used) (hq : y'.procs = update y.procs p (.shell home prog'))
    (ha : Adds y new y') (hsub : ∀ m, new m → prog.makes m) (hmk : ∀ m, prog'.makes m → prog.makes m ∧ ¬ new m) (ho : prog'.Once)
    (hs : Safe L prog' home a) (hsh : Shows y' t0 a t) : Wired L t0 n0 y' := by
  have hp' : y'.procs p = .shell home prog' := by rw [hq, update_self]
  have hm := (h.fits p hu).shell hp |>.2.1
  have hself {q : Slot} (hq' : y'.kernel.life q = .used) (hqn : q = p ∨ y.kernel.life q ≠ .used) : q = p :=
    hqn.resolve_right fun hn => hn (hl q hq')
  refine h.next hu hi ha (fun m hm => by rw [hp]; exact hsub m hm) (fun q hqp _ => ?_) (fun q hq' hqn => ?_)
    (fun q q' hne hq hq' hn hn' => absurd ((hself hq hn).trans (hself hq' hn').symm) hne)
  · rw [hq, hv, update_of_ne hqp, update_of_ne hqp]
    exact ⟨rfl, rfl⟩
  · obtain rfl := hself hq' hqn
    refine ⟨fits_shell hp' ho (fun m hmk' => ha.unmade (hmk m hmk').2 (hm m (hmk m hmk').1)) hs ?_, fun m hmk' => ?_⟩
    · rw [hv, update_self]
      exact hsh
    · rw [hp'] at hmk'
      rw [hp]
      exact hmk m hmk'

theorem Wired.goOn (hp : y.procs p = .shell home prog)
    (hi : Inv₀ s) (hv : s.views = update y.kernel.views p t) (hl : ∀ q, s.life q = .used → y.kernel.life q = .used)
    (hn : s.npipe = y.kernel.npipe) (hmk : ∀ m, prog'.makes m → prog.makes m) (ho : prog'.Once) (hs : Safe L prog' home a)
    (hsh : Shows y t0 a t) : Wired L t0 n0 { y with kernel := s, procs := update y.procs p (.shell home prog') } := by
  have ha : Adds y (fun _ => False) { y with kernel := s, procs := update y.procs p (.shell home prog') } := .same hn.ge rfl rfl
  exact h.advance hu hp hi hv hl rfl ha nofun (fun m hm => ⟨hmk m hm, id⟩) ho hs (ha.shows hsh)

theorem Wired.close (hp : y.procs p = .shell home (.close n prog)) (hx : Ftable.exec y.kernel p (.close n) = .ok (r, s)) (hr : 0 ≤ r) :
    Wired L t0 n0 { y with kernel := s, procs := update y.procs p (.shell home prog) } := by
  obtain ⟨ho, -, a, hs, hsh⟩ := (h.fits p hu).shell hp
  obtain ⟨hn, ⟨rfl, -⟩ | ⟨fd, d, rfl, -, hd, hsee⟩⟩ := h.inv.sysClose_sees hx
  · omega
  · obtain ⟨src, hsrc, -⟩ := hsh.some hd
    exact h.goOn hu hp hsee.inv hsee.views (fun q hq => hsee.life ▸ hq) hn (fun _ => id) ho (hs.2 fd rfl (by rw [hsrc]; nofun))
      (hsh.update fd .none)

theorem Wired.dup (hp : y.procs p = .shell home (.dup n prog)) (hx : Ftable.exec y.kernel p (.dup n) = .ok (r, s)) (hr : 0 ≤ r) :
    Wired L t0 n0 { y with kernel := s, procs := update y.procs p (.shell home prog) } := by
  obtain ⟨ho, -, a, hs, hsh⟩ := (h.fits p hu).shell hp
  obtain ⟨hn, ⟨rfl, -⟩ | ⟨fd, fd', d, rfl, -, hd, hlow, hsee⟩⟩ := h.inv.sysDup_sees hu hx
  · omega
  · obtain ⟨src, hsrc, hdesc⟩ := hsh.some hd
    exact h.goOn hu hp hsee.inv hsee.views (fun q hq => hsee.life ▸ hq) hn (fun _ => id) ho
      (hs.2 fd fd' src rfl hsrc (hsh.lowest_eq.trans hlow)) (hsh.update fd' (.some hdesc))

theorem Wired.wait {q : Slot} (hp : y.procs p = .shell home (.wait prog)) (hx : Ftable.exec y.kernel p (.wait q) = .ok (r, s))
    (hr : 0 ≤ r) : Wired L t0 n0 { y with kernel := s, procs := update y.procs p (.shell home prog) } := by
  obtain ⟨ho, -, a, hs, hsh⟩ := (h.fits p hu).shell hp
  obtain ⟨hi, hv, hn, ⟨rfl, -⟩ | ⟨-, hz, hl⟩⟩ := h.inv.wait_same hx
  · omega
  · refine h.goOn hu hp hi (hv.trans (update_eq_self ..).symm) (fun q' hq' => ?_) hn (fun _ => id) ho hs.2 hsh
    rw [hl] at hq'
    by_cases he : q' = q
    · subst he
      rw [update_self] at hq'
      cases hq'
    · rwa [update_of_ne he] at hq'

theorem Wired.open {file : Nat} {mode : BitVec 32} {next : Int → Prog} {found : Option Bool}
    (hp : y.procs p = .shell home (.open node file mode next)) (hx : Ftable.exec y.kernel p (.open found mode) = .ok (r, s)) (hr : 0 ≤ r) :
    Wired L t0 n0 { y with
      kernel := s
      procs := update y.procs p (.shell home (next r))
      files := update y.files node (some y.kernel.nip) } := by
  obtain ⟨ho, hm, a, hs, hsh⟩ := (h.fits p hu).shell hp
  obtain ⟨hn, ⟨rfl, -⟩ | ⟨fd, rfl, hlow, hsee⟩⟩ := h.inv.sysOpen_sees hu hx
  · omega
  · set y' : Sys := { y with
      kernel := s
      procs := update y.procs p (.shell home (next fd))
      files := update y.files node (some y.kernel.nip) } with hy'
    have ha : Adds y (· = node) y' := by
      refine ⟨hn.ge, fun m => .inl rfl, fun m => ?_, fun m m' he he' => he.trans he'.symm⟩
      by_cases he : m = node
      · exact .inr ⟨he, he ▸ (hm node (.inl rfl)).2⟩
      · exact .inl (update_of_ne he ..)
    refine h.advance hu hp hsee.inv hsee.views (fun q hq => by rwa [← hsee.life]) rfl ha (fun m he => .inl he) (fun m hmk => ?_) (ho.2 _)
      (hs.2 fd (hsh.lowest_eq.trans hlow)) ((ha.shows hsh).update fd (.some ?_))
    · exact ⟨.inr ⟨_, hmk⟩, fun he => ho.1 _ (he ▸ hmk)⟩
    · simp [Sys.desc, hy']

theorem Wired.pipe {next : Option (Fd × Fd) → Prog} (hp : y.procs p = .shell home (.pipe node next))
    (hx : Ftable.exec y.kernel p (.pipe true mem) = .ok (r, s)) (hr : 0 ≤ r) :
    Wired L t0 n0 { y with
      kernel := s
      procs := update y.procs p (.shell home (next (y.kernel.pipeFds p mem)))
      pipes := update y.pipes node (some y.kernel.npipe) } := by
  obtain ⟨ho, hm, a, hs, hsh⟩ := (h.fits p hu).shell hp
  obtain ⟨hn, ⟨rfl, -⟩ | ⟨-, fd0, fd1, hfds, hends⟩⟩ := h.inv.sysPipe_sees hu hx
  · omega
  · rw [hfds]
    set y' : Sys := { y with
      kernel := s
      procs := update y.procs p (.shell home (next (some (fd0, fd1))))
      pipes := update y.pipes node (some y.kernel.npipe) } with hy'
    have ha : Adds y (· = node) y' := by
      refine ⟨hn, fun m => ?_, fun m => .inl rfl, fun m m' he he' => he.trans he'.symm⟩
      by_cases he : m = node
      · subst he
        exact .inr ⟨rfl, (hm m (.inl rfl)).1, update_self .., hends.npipe ▸ Nat.lt_succ_self _⟩
      · exact .inl (update_of_ne he ..)
    have hdesc (w : Bool) : y'.desc t0 (.pipe node w) = some (.pipe y.kernel.npipe w) := by simp [Sys.desc, hy']
    have hsh' := (ha.shows hsh).update fd0 (.some (hdesc false))
    have hlow := hsh.lowest_eq.trans hends.low
    have hnext := hsh'.lowest_eq.trans hends.next
    refine h.advance hu hp hends.sees.inv hends.sees.views (fun q hq => by rwa [← hends.sees.life]) rfl ha (fun m he => .inl he)
      (fun m hmk => ?_) (ho.2 _) (hs.2 fd0 fd1 hlow hnext) (hsh'.update fd1 (.some (hdesc true)))
    exact ⟨.inr ⟨_, hmk⟩, fun he => ho.1 _ (he ▸ hmk)⟩

theorem Wired.fork {child : Node} {next : Int → Prog} {pid : Int} (hp : y.procs p = .shell home (.fork child next))
    (hx : Ftable.exec y.kernel p (.fork mem) = .ok (r, s)) (hr : 0 ≤ r) (hpid : 0 < pid) :
    Wired L t0 n0 { y with
      kernel := s
      procs := update (y.starts s (.shell child (next 0))) p (.shell home (next pid)) } := by
  obtain ⟨ho, hm, a, hs, hsh⟩ := (h.fits p hu).shell hp
  obtain ⟨rfl, -⟩ | ⟨np, -, hf⟩ := h.inv.fork_forked hu hx
  · omega
  · set y' : Sys := { y with
      kernel := s
      procs := update (y.starts s (.shell child (next 0))) p (.shell home (next pid)) } with hy'
    have hne : np ≠ p := by
      rintro rfl
      rw [hf.free] at hu
      cases hu
    have ha : Adds y (fun _ => False) y' := .same hf.npipe.ge rfl rfl
    have hpp : y'.procs p = .shell home (next pid) := update_self ..
    have hpn : y'.procs np = .shell child (next 0) := by
      have hl : y.kernel.life np ≠ .used ∧ s.life np = .used := ⟨by rw [hf.free]; nofun, by rw [hf.life, update_self]⟩
      simp [hy', hne, Sys.starts, hl]
    have hvn : s.views np = y.kernel.views p := by rw [hf.views, update_self]
    have hvo (q : Slot) (hq : q ≠ np) : s.views q = y.kernel.views q := by rw [hf.views, update_of_ne hq]
    have hfresh {q : Slot} (hq : s.life q = .used) (hn : q = p ∨ y.kernel.life q ≠ .used) : q = p ∨ q = np := by
      refine hn.imp_right fun hn => ?_
      by_contra he
      rw [hf.life, update_of_ne he] at hq
      exact hn hq
    refine h.next hu hf.inv ha nofun (fun q hqp hqu => ?_) (fun q hq hqn => ?_) (fun q q' hne' hq hq' hn hn' m hm hm' => ?_)
    · have hqn : q ≠ np := by
        rintro rfl
        rw [hf.free] at hqu
        cases hqu
      exact ⟨by simp [hy', hqp, Sys.starts, hqu], hvo q hqn⟩
    · obtain rfl | rfl := hfresh hq hqn
      · refine ⟨fits_shell hpp (ho.2 _) (fun m hmk => hm m ⟨pid, hmk⟩) (hs.2.2 pid hpid) ?_, fun m hmk => ⟨?_, id⟩⟩
        · rw [show y'.kernel.views q = _ from hvo q hne.symm]
          exact ha.shows hsh
        · rw [hpp] at hmk
          rw [hp]
          exact ⟨pid, hmk⟩
      · refine ⟨fits_shell hpn (ho.2 _) (fun m hmk => hm m ⟨0, hmk⟩) hs.2.1 ?_, fun m hmk => ⟨?_, id⟩⟩
        · rw [show y'.kernel.views q = _ from hvn]
          exact ha.shows hsh
        · rw [hpn] at hmk
          rw [hp]
          exact ⟨0, hmk⟩
    · have hpid' : pid ≠ 0 := by omega
      obtain rfl | rfl := hfresh hq hn
      · obtain rfl | rfl := hfresh hq' hn'
        · exact hne' rfl
        · rw [hpp] at hm
          rw [hpn] at hm'
          exact ho.1 pid m hpid' hm' hm
      · obtain rfl | rfl := hfresh hq' hn'
        · rw [hpn] at hm
          rw [hpp] at hm'
          exact ho.1 pid m hpid' hm hm'
        · exact hne' rfl

theorem Wired.owner {k : Nat} (hp : y.procs p = .shell home prog)
    (hk : y.pipes m = some k) (hv : y.kernel.views p fd = some (.pipe k true)) : m ++ [.left] <+: home ∨ prog.closes fd := by
  obtain ⟨-, -, a, hs, hsh⟩ := (h.fits p hu).shell hp
  obtain ⟨src, hsrc, hd⟩ := hsh.some hv
  cases src with
  | inherited fd' =>
    -- It would be older than the command.
    simp only [Sys.desc] at hd
    split at hd
    · have := h.old _ _ _ hd
      have := (h.pipes m k hk).1
      omega
    · cases hd
  | file node mode =>
    obtain ⟨ip, -, he⟩ := Option.map_eq_some_iff.mp hd
    cases he
  | pipe m' w =>
    obtain ⟨k', hk', he⟩ := Option.map_eq_some_iff.mp hd
    cases he
    obtain rfl := h.inj m m' k hk hk'
    exact hs.tidy fd m hsrc

theorem Wired.exec {args : List (Nat × Nat)} (hp : y.procs p = .shell home (.exec node args prog)) :
    Wired L t0 n0 { y with procs := update y.procs p (.program home args) } := by
  set y' : Sys := { y with procs := update y.procs p (.program home args) } with hy'
  have hpp : y'.procs p = .program home args := update_self ..
  have hself {q : Slot} (hq' : y'.kernel.life q = .used) (hqn : q = p ∨ y.kernel.life q ≠ .used) : q = p :=
    hqn.resolve_right fun hn => hn hq'
  have ha : Adds y (fun _ => False) y' := .same le_rfl rfl rfl
  refine h.next hu h.inv ha nofun (fun q hqp _ => ?_) (fun q hq hqn => ?_)
    (fun q q' hne hq hq' hn hn' => absurd ((hself hq hn).trans (hself hq' hn').symm) hne)
  · exact ⟨update_of_ne hqp .., rfl⟩
  · obtain rfl := hself hq hqn
    refine ⟨?_, fun m hm => ?_⟩
    · rw [fits_other (by rw [hpp]; nofun), hpp]
      exact fun fd m k hk hv => (h.owner hu hp hk hv).resolve_right id
    · rw [hpp] at hm
      cases hm

theorem Wired.exit (hx : Ftable.exec y.kernel p .exit = .ok (r, s)) : Wired L t0 n0 { y with kernel := s } := by
  have he := h.inv.exit_exited hx
  have hnone {q : Slot} (hq : s.life q = .used) (hqn : q = p ∨ y.kernel.life q ≠ .used) : False := by
    rw [he.life] at hq
    by_cases hqp : q = p
    · subst hqp
      rw [update_self] at hq
      cases hq
    · rw [update_of_ne hqp] at hq
      exact hqn.resolve_left hqp hq
  have ha : Adds y (fun _ => False) { y with kernel := s } := .same he.npipe.ge rfl rfl
  refine h.next hu he.inv ha nofun (fun q hqp _ => ⟨rfl, ?_⟩) (fun q hq hqn => (hnone hq hqn).elim)
    (fun q q' _ hq _ hqn _ => (hnone hq hqn).elim)
  exact (congrFun he.views q).trans (update_of_ne hqp ..)

/-! ## The calls of other processes -/

theorem Wired.other {proc : Proc} {c : Call} (hp : y.procs p = proc) (hn : ∀ home prog, proc ≠ .shell home prog)
    (hx : Ftable.exec y.kernel p c = .ok (r, s)) : Wired L t0 n0 { y with kernel := s, procs := y.starts s proc } := by
  have hm := h.inv.exec_moves hu hx
  set y' : Sys := { y with kernel := s, procs := y.starts s proc } with hy'
  have hmakes (m : Node) : ¬ proc.makes m := by
    cases proc with
    | shell home prog => exact absurd rfl (hn home prog)
    | outside => exact id
    | program home args => exact id
  have hproc {q : Slot} (hq : s.life q = .used) (hqn : q = p ∨ y.kernel.life q ≠ .used) : y'.procs q = proc := by
    by_cases hqu : y.kernel.life q = .used
    · obtain rfl := hqn.resolve_right fun hn => hn hqu
      simp [hy', Sys.starts, hqu, hp]
    · simp [hy', Sys.starts, hqu, hq]
  have ha : Adds y (fun _ => False) y' := .same hm.npipe rfl rfl
  refine h.next hu hm.inv ha nofun (fun q hqp hqu => ⟨?_, hm.frame q hqp hqu⟩) (fun q hq hqn => ?_)
    (fun q q' _ hq _ hqn _ m hmk => absurd (hproc hq hqn ▸ hmk) (hmakes m))
  · simp [hy', Sys.starts, hqu]
  · refine ⟨?_, fun m hmk => absurd (hproc hq hqn ▸ hmk) (hmakes m)⟩
    rw [fits_other (by rw [hproc hq hqn]; exact hn), hproc hq hqn]
    intro fd m k hk hv
    obtain ⟨fd', hfd'⟩ | hlt := hm.gain q fd k true hv hqn
    · exact hp ▸ (fits_other (by rw [hp]; exact hn)).mp (h.fits p hu) fd' m k hk hfd'
    · exact absurd (h.pipes m k hk).2 (not_lt.mpr hlt)

end

/-! ## Whole runs -/

theorem toOption_bind {ε α β : Type} {x : Except ε α} {f : α → Option β} {b : β} (h : x.toOption.bind f = some b) :
    ∃ v, x = .ok v ∧ f v = some b := by
  obtain ⟨v, hv, h⟩ := Option.bind_eq_some_iff.mp h
  exact ⟨v, of_toOption hv, h⟩

theorem Wired.step {c : Choice} (h : Wired L t0 n0 y) (hok : y.succeeds (p, c)) (hs : y.step (p, c) = some y') : Wired L t0 n0 y' := by
  unfold Sys.step at hs
  split at hs
  · rename_i hu
    obtain ⟨⟨r, y1⟩, hc, rfl⟩ := Option.map_eq_some_iff.mp hs
    have hr : 0 ≤ r := by
      unfold Sys.succeeds at hok
      rw [hc] at hok
      exact of_decide_eq_true hok
    dsimp only at hu hc ⊢
    unfold Sys.call at hc
    split at hc
    · rename_i home prog hp
      split at hc
      · obtain ⟨⟨r', s⟩, hx, he⟩ := toOption_bind hc
        cases he
        exact h.close hu hp hx hr
      · obtain ⟨⟨r', s⟩, hx, he⟩ := toOption_bind hc
        cases he
        exact h.dup hu hp hx hr
      · obtain ⟨⟨r', s⟩, hx, he⟩ := toOption_bind hc
        cases he
        rw [if_neg (by omega)]
        exact h.open hu hp hx hr
      · obtain ⟨⟨r', s⟩, hx, he⟩ := toOption_bind hc
        cases he
        rw [if_neg (by omega), if_neg (by omega)]
        exact h.pipe hu hp hx hr
      · obtain ⟨⟨r', s⟩, hx, he⟩ := toOption_bind hc
        cases he
        rw [if_neg (by omega)]
        exact h.fork hu hp hx hr (by omega)
      · obtain ⟨⟨r', s⟩, hx, he⟩ := toOption_bind hc
        cases he
        exact h.wait hu hp hx hr
      · split at hc
        · cases hc
          exact h.exec hu hp
        · cases hc
          omega
      · obtain ⟨-, -, a, hsafe, -⟩ := (h.fits p hu).shell hp
        cases hsafe
      · obtain ⟨⟨r', s⟩, hx, he⟩ := toOption_bind hc
        cases he
        exact h.exit hu hx
    · rename_i hn
      obtain ⟨⟨r', s⟩, hx, he⟩ := toOption_bind hc
      cases he
      exact h.other hu rfl (fun home prog he => hn home prog he) hx
  · cases hs

theorem Starts.wired {cmd : Cmd} (h : Starts cmd p y) : Wired (leaves [] .inherited cmd) (y.kernel.views p) y.kernel.npipe y := by
  have hi : Inv₀ y.kernel := .reach h.kernel
  have hp : y.procs p = .shell [] (runcmd [] cmd) := by rw [h.procs, update_self]
  have hother {q : Slot} (hq : q ≠ p) : y.procs q = .outside := by rw [h.procs, update_of_ne hq]
  refine ⟨hi, fun fd k w hv => Ftable.views_pipe_lt hi hv, le_rfl, fun m k hk => ?_, fun m m' k hk => ?_, fun q _ => ?_,
    fun q q' hne _ _ m hm hm' => ?_⟩
  · rw [h.pipes] at hk
    cases hk
  · rw [h.pipes] at hk
    cases hk
  · by_cases hq : q = p
    · subst hq
      refine fits_shell hp (runcmd_once cmd []) (fun m _ => by rw [h.pipes, h.files]; exact ⟨rfl, rfl⟩)
        (runcmd_safe cmd (fun _ hl => hl) (fun fd m he => ?_) List.prefix_rfl) fun fd => ?_
      · unfold stdio at he
        split at he <;> cases he
      · have hfd := h.fds fd
        unfold stdio
        split
        · rename_i hlt
          obtain ⟨f, hf⟩ := Option.isSome_iff_exists.mp (hfd.mpr hlt)
          have hv : y.kernel.views q fd = some (y.kernel.file f).desc := by simp [State.views, hf]
          rw [hv]
          refine .some ?_
          simp [Sys.desc, hv]
        · rename_i hge
          have hv : y.kernel.views q fd = none := by
            rw [Ftable.views_eq_none]
            simpa using mt hfd.mp hge
          rw [hv]
          exact .none
    · rw [fits_other (by rw [hother hq]; rintro _ _ ⟨⟩)]
      intro fd m k hk
      rw [h.pipes] at hk
      cases hk
  · by_cases hq : q = p
    · rw [hother fun he => hne (hq.trans he.symm)] at hm'
      exact hm'
    · rw [hother hq] at hm
      exact hm

/-- Every program is run with the descriptors that the pipes and redirections around it assign. The write end of a pipe is open only in
processes of its left side, apart from those that are about to close it. -/
theorem runcmd_plumbs {cmd : Cmd} {y0 : Sys} (h0 : Starts cmd p y0) (hr : Reach (· = y0) Sys.step Sys.succeeds y) :
    (∀ q home node args next, y.kernel.life q = .used → y.procs q = .shell home (.exec node args next) →
      ∃ std, ⟨node, args, std⟩ ∈ leaves [] .inherited cmd ∧ ∀ fd : Fd,
        (fd.val < 3 → ∃ d, y.desc (y0.kernel.views p) (std fd) = some d ∧ y.kernel.views q fd = some d) ∧
        (3 ≤ fd.val → y.kernel.views q fd = none)) ∧
    (∀ m k q fd, y.pipes m = some k → y.kernel.views q fd = some (.pipe k true) →
      (y.procs q).within (m ++ [.left]) ∨ (y.procs q).closes fd) ∧
    ∀ m k, y.pipes m = some k → (y.kernel.pipe k).writeopen = true →
      ∃ q fd, y.kernel.life q = .used ∧ y.kernel.views q fd = some (.pipe k true) := by
  have h : Wired (leaves [] .inherited cmd) (y0.kernel.views p) y0.kernel.npipe y :=
    hr.inv (fun _ he => he ▸ h0.wired) fun y a y' hy hok hs => hy.step hok hs
  refine ⟨fun q home node args next hu hq => ?_, fun m k q fd hk hv => ?_, fun m k hk ho => ?_⟩
  · obtain ⟨-, -, a, ⟨-, std, hl, rfl⟩, hsh⟩ := (h.fits q hu).shell hq
    refine ⟨std, hl, fun fd => ⟨fun hlt => ?_, fun hge => ?_⟩⟩
    · have hfd := hsh fd
      rw [show stdio std fd = some (std fd) from if_pos hlt] at hfd
      cases hv : y.kernel.views q fd with
      | none => rw [hv] at hfd; cases hfd
      | some d =>
        rw [hv] at hfd
        cases hfd with
        | some hd => exact ⟨d, hd, rfl⟩
    · have hfd := hsh fd
      rw [show stdio std fd = none from if_neg (by omega)] at hfd
      cases hv : y.kernel.views q fd with
      | none => rfl
      | some d => rw [hv] at hfd; cases hfd
  · have hu : y.kernel.life q = .used := by
      by_contra hu
      rw [Ftable.views_unused h.inv hu] at hv
      cases hv
    by_cases hq : ∃ home prog, y.procs q = .shell home prog
    · obtain ⟨home, prog, hq⟩ := hq
      rw [hq]
      exact h.owner hu hq hk hv
    · exact .inl ((fits_other fun home prog he => hq ⟨home, prog, he⟩).mp (h.fits q hu) fd m k hk hv)
  · have hlt := (h.pipes m k hk).2
    obtain ⟨f, hf⟩ := (h.inv.pipes.isOpen k true hlt).mp ho
    obtain ⟨⟨q, fd⟩, hfd⟩ := h.inv.descriptor (f := f) (by rw [hf.1]; nofun)
    refine ⟨q, fd, ?_, ?_⟩
    · by_contra hu
      rw [h.inv.refs.closed q hu fd] at hfd
      cases hfd
    · simp [State.views, hfd, Ftable.File.desc, hf.1, hf.2.1, hf.2.2]

def console : Option State :=
  runs Ftable.step (fun _ _ => True) Ftable.init
    [(Ptable.initproc, .open (some false) Ftable.O_RDWR), (Ptable.initproc, .dup 0), (Ptable.initproc, .dup 0)]

theorem console_isSome : console.isSome := by decide +kernel

def pipeline : Sys where
  kernel := console.get console_isSome
  procs := update (fun _ => .outside) Ptable.initproc (.shell [] (runcmd [] (.pipe (.exec [(0, 1)]) (.exec [(2, 3)]))))
  pipes _ := none
  files _ := none

theorem starts_pipeline : Starts (.pipe (.exec [(0, 1)]) (.exec [(2, 3)])) Ptable.initproc pipeline where
  kernel := by
    have hc : console = some pipeline.kernel := (Option.some_get console_isSome).symm
    exact Reach.runs (.init rfl) hc
  used := by decide +kernel
  fds := by decide +kernel
  procs := rfl
  pipes := rfl
  files := rfl

def Proc.next : Proc → Option Node
  | .shell _ (.exec node _ _) => some node
  | _ => none

/-- The left program is about to start, and writes to the pipe. -/
theorem runcmd_plumbs_left : ∃ y, Reach (· = pipeline) Sys.step Sys.succeeds y ∧
    (y.procs Ptable.child).within [.left] ∧ (y.procs Ptable.child).next = some [.left] ∧
    y.kernel.views Ptable.child 1 = some (.pipe 0 true) ∧ y.kernel.views Ptable.child 3 = none := by
  obtain ⟨y, hr, hu, hn, hk, hv⟩ : ∃ y, Reach (· = pipeline) Sys.step Sys.succeeds y ∧
      y.kernel.life Ptable.child = .used ∧ (y.procs Ptable.child).next = some [.left] ∧ y.pipes [] = some 0 ∧
        y.kernel.views Ptable.child 1 = some (.pipe 0 true) :=
    Reach.of_runs [(Ptable.initproc, {}), (Ptable.initproc, {}), (Ptable.child, {}), (Ptable.child, {}), (Ptable.child, {}),
      (Ptable.child, {})] _ (.init rfl) (by decide +kernel)
  obtain ⟨hleaf, hends, -⟩ := runcmd_plumbs starts_pipeline hr
  cases hp : y.procs Ptable.child with
  | outside | program home args => rw [hp] at hn; cases hn
  | shell home prog =>
    cases prog with
    | exec node args next =>
      obtain ⟨std, -, hfd⟩ := hleaf Ptable.child home node args next hu hp
      have hw := hends [] 0 Ptable.child 1 hk hv
      rw [hp] at hw hn
      exact ⟨y, hr, hp ▸ hw.resolve_right id, hp ▸ hn, hv, (hfd 3).2 (by decide)⟩
    | _ => rw [hp] at hn; cases hn

end Xv6.Sh
