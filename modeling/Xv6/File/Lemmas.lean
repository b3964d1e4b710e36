import Mathlib.Data.Fintype.Prod
import Xv6.File.Model
import Xv6.Lib.Count
import Xv6.Lib.Ends

/-!
# Reference counts of open files

`Inv s hand held` says how many references a call has in hand for each file, and which inode references it has still to put somewhere.
-/

open Xv6.Lib List

namespace Xv6.Ftable

open State

open Function

variable {s s' : State} {f g : FileIx} {p : Ptable.Slot} {hand hand' : FileIx → ℤ} {held : Nat → Prop} {x y : File} {t : FileIx → File}
  {fd : Fd} {r : Nat}

/-! ## The invariant -/

structure Refs (s : State) (hand : FileIx → ℤ) : Prop where
  ref : ∀ f, ((s.file f).ref : ℤ) = holders s.ofile f + hand f
  free : ∀ f, (s.file f).ref = 0 → (s.file f).type = .FD_NONE
  closed : ∀ p, s.life p ≠ .used → ∀ fd, s.ofile (p, fd) = none

def Pipe.isOpen (pi : Pipe) (writable : Bool) : Bool := if writable then pi.writeopen else pi.readopen

def File.isEnd (x : File) (k : Nat) (writable : Bool) : Prop := x.type = .FD_PIPE ∧ x.pipe = k ∧ x.writable = writable

def File.holds (x : File) (r : Nat) : Prop := x.type = .FD_INODE ∧ x.ip = r

structure Pipes (s : State) : Prop where
  lt : ∀ f k w, (s.file f).isEnd k w → k < s.npipe
  inj : ∀ f g k w, (s.file f).isEnd k w → (s.file g).isEnd k w → f = g
  isOpen : ∀ k w, k < s.npipe → ((s.pipe k).isOpen w = true ↔ ∃ f, (s.file f).isEnd k w)
  freed : ∀ k, k ∈ s.freed ↔ k < s.npipe ∧ ∀ w, (s.pipe k).isOpen w = false
  nodup : s.freed.Nodup

structure Inodes (s : State) (held : Nat → Prop) : Prop where
  lt : ∀ f r, (s.file f).holds r → r < s.nip
  inj : ∀ f g r, (s.file f).holds r → (s.file g).holds r → f = g
  inHand : ∀ r, held r → r < s.nip ∧ ∀ f, ¬ (s.file f).holds r
  iputs : ∀ r, r ∈ s.iputs ↔ r < s.nip ∧ ¬ held r ∧ ∀ f, ¬ (s.file f).holds r
  nodup : s.iputs.Nodup

structure Inv (s : State) (hand : FileIx → ℤ) (held : Nat → Prop) : Prop where
  refs : Refs s hand
  pipes : Pipes s
  inodes : Inodes s held

abbrev Inv₀ (s : State) : Prop := Inv s (fun _ => 0) fun _ => False

theorem Inv.congr (h : Inv s hand held) (hh : ∀ f, hand f = hand' f) : Inv s hand' held := funext hh ▸ h

/-! ## Changes that leave the objects as they are -/

def File.same (x y : File) : Prop := x.type = y.type ∧ x.pipe = y.pipe ∧ x.writable = y.writable ∧ x.ip = y.ip

theorem File.same.isEnd (h : x.same y) (k : Nat) (w : Bool) : x.isEnd k w ↔ y.isEnd k w := by
  simp [File.isEnd, h.1, h.2.1, h.2.2.1]

theorem File.same.holds (h : x.same y) (r : Nat) : x.holds r ↔ y.holds r := by
  simp [File.holds, h.1, h.2.2.2]

theorem State.setFile_file (g : FileIx) : (s.setFile f x).file g = if g = f then x else s.file g := by
  simp [setFile, update_apply]

theorem same_setFile (h : x.same (s.file f)) (g : FileIx) : ((s.setFile f x).file g).same (s.file g) := by
  rw [setFile_file]
  split
  · subst g; exact h
  · exact ⟨rfl, rfl, rfl, rfl⟩

theorem Pipes.same (h : Pipes s) (ht : ∀ f, (t f).same (s.file f)) : Pipes { s with file := t } := by
  refine ⟨fun f k w hf => ?_, fun f g k w hf hg => ?_, fun k w hk => (h.isOpen k w hk).trans ?_, h.freed, h.nodup⟩
  · exact h.lt f k w (((ht f).isEnd k w).mp hf)
  · exact h.inj f g k w (((ht f).isEnd k w).mp hf) (((ht g).isEnd k w).mp hg)
  · exact exists_congr fun f => ((ht f).isEnd k w).symm

theorem Inodes.same (h : Inodes s held) (ht : ∀ f, (t f).same (s.file f)) : Inodes { s with file := t } held := by
  have hn (r : Nat) : (∀ f, ¬ (t f).holds r) ↔ ∀ f, ¬ (s.file f).holds r :=
    forall_congr' fun f => not_congr ((ht f).holds r)
  refine ⟨fun f r hf => ?_, fun f g r hf hg => ?_, fun r hr => ?_, fun r => (h.iputs r).trans ?_, h.nodup⟩
  · exact h.lt f r (((ht f).holds r).mp hf)
  · exact h.inj f g r (((ht f).holds r).mp hf) (((ht g).holds r).mp hg)
  · exact ⟨(h.inHand r hr).1, (hn r).mpr (h.inHand r hr).2⟩
  · simp [hn]

/-! ## Descriptors -/

theorem Inv.setFd (h : Inv s hand held) {x : Option FileIx} (hx : x ≠ none → s.life p = .used) :
    Inv (s.setFd p fd x)
      (fun g => hand g + (if s.ofile (p, fd) = some g then 1 else 0) - if x = some g then 1 else 0) held := by
  refine ⟨⟨fun g => ?_, h.refs.free, fun q hq fd' => ?_⟩, { h.pipes with }, { h.inodes with }⟩
  · have hr := h.refs.ref g
    have hu := holders_update (g := s.ofile) (i := (p, fd)) (a := g) x
    simp only [State.setFd]
    rw [hr]
    by_cases h1 : s.ofile (p, fd) = some g <;> by_cases h2 : x = some g <;>
      simp only [h1, h2, if_true, if_false] at hu ⊢ <;> omega
  · simp only [State.setFd, update_apply]
    split
    · rename_i he
      cases he
      cases x with
      | none => rfl
      | some g => exact absurd (hx (by rintro ⟨⟩)) hq
    · exact h.refs.closed q hq fd'

theorem Inv.setRef (h : Inv s hand held) {n : Nat} (hn : n = 0 → (s.file f).type = .FD_NONE) :
    Inv (s.setFile f { s.file f with ref := n }) (fun g => hand g + if g = f then (n : ℤ) - (s.file f).ref else 0) held := by
  have hs := same_setFile (s := s) (f := f) (x := { s.file f with ref := n }) ⟨rfl, rfl, rfl, rfl⟩
  refine ⟨⟨fun g => ?_, fun g => ?_, h.refs.closed⟩, h.pipes.same hs, h.inodes.same hs⟩
  all_goals rw [setFile_file]; split
  · subst g
    have := h.refs.ref f
    simp only [setFile]
    omega
  · rw [add_zero]; exact h.refs.ref g
  · subst g; exact hn
  · exact h.refs.free g

theorem Inv.filealloc (h : Inv s hand held) (hs : s.filealloc = some (f, s')) :
    Inv s' (fun g => hand g + if g = f then 1 else 0) held ∧ (s'.file f).type = .FD_NONE ∧ s'.ofile = s.ofile ∧
      s'.life = s.life ∧ (s.file f).ref = 0 ∧ ∀ g, g ≠ f → s'.file g = s.file g := by
  unfold State.filealloc at hs
  split at hs
  · cases hs
    rename_i hf
    have hr : (s.file f).ref = 0 := by simpa using find?_some hf
    refine ⟨(h.setRef (f := f) (n := 1) nofun).congr fun g => ?_, ?_, rfl, rfl, hr, fun g hg => ?_⟩
    · simp [hr]
    · rw [setFile_file, if_pos rfl]; exact h.refs.free f hr
    · rw [setFile_file, if_neg hg]
  · cases hs

theorem Inv.filedup (h : Inv s hand held) (hr : 0 < (s.file f).ref) :
    ∃ s', s.filedup f = .ok s' ∧ Inv s' (fun g => hand g + if g = f then 1 else 0) held ∧ s'.ofile = s.ofile ∧
      s'.life = s.life := by
  refine ⟨_, if_neg (by omega), (h.setRef (n := (s.file f).ref + 1) nofun).congr fun g => ?_, rfl, rfl⟩
  split <;> omega

/-! ## `fileclose` -/

theorem Pipe.isOpen_close (pi : Pipe) (w w' : Bool) : (pi.close w).isOpen w' = if w' = w then false else pi.isOpen w' := by
  cases w <;> cases w' <;> rfl

theorem State.pipeclose_pipe (k : Nat) (w : Bool) : (s.pipeclose k w).pipe = update s.pipe k ((s.pipe k).close w) := by
  unfold pipeclose
  dsimp only
  split <;> rfl

theorem State.pipeclose_isOpen (k : Nat) (w : Bool) (k' : Nat) (w' : Bool) :
    ((s.pipeclose k w).pipe k').isOpen w' = if k' = k ∧ w' = w then false else (s.pipe k').isOpen w' := by
  rw [pipeclose_pipe, update_apply]
  by_cases hk : k' = k
  · subst hk; simp [Pipe.isOpen_close]
  · simp [hk]

theorem State.pipeclose_freed (k : Nat) (w : Bool) :
    (s.pipeclose k w).freed = if ∀ w', ((s.pipeclose k w).pipe k).isOpen w' = false then k :: s.freed else s.freed := by
  have he : (∀ w', ((s.pipeclose k w).pipe k).isOpen w' = false) ↔
      ((s.pipe k).close w).readopen = false ∧ ((s.pipe k).close w).writeopen = false := by
    rw [pipeclose_pipe, update_self]
    exact ⟨fun h => ⟨h false, h true⟩, fun h w' => by cases w' <;> simp [Pipe.isOpen, h]⟩
  simp only [he]
  unfold pipeclose
  dsimp only
  split <;> rfl

theorem State.pipeclose_rest (k : Nat) (w : Bool) : (s.pipeclose k w).file = s.file ∧ (s.pipeclose k w).ofile = s.ofile ∧
    (s.pipeclose k w).life = s.life ∧ (s.pipeclose k w).npipe = s.npipe ∧ (s.pipeclose k w).nip = s.nip ∧
      (s.pipeclose k w).iputs = s.iputs := by
  unfold pipeclose
  dsimp only
  split <;> exact ⟨rfl, rfl, rfl, rfl, rfl, rfl⟩

def State.dropFile (s : State) (f : FileIx) : State := s.setFile f { s.file f with ref := 0, type := .FD_NONE }

theorem dropFile_isEnd (k : Nat) (w : Bool) : ((s.dropFile f).file g).isEnd k w ↔ g ≠ f ∧ (s.file g).isEnd k w := by
  rw [dropFile, setFile_file]
  by_cases hg : g = f
  · subst hg; simp [File.isEnd]
  · simp [hg]

theorem dropFile_holds (r : Nat) : ((s.dropFile f).file g).holds r ↔ g ≠ f ∧ (s.file g).holds r := by
  rw [dropFile, setFile_file]
  by_cases hg : g = f
  · subst hg; simp [File.holds]
  · simp [hg]

theorem Refs.dropFile (h : Refs s hand) (hr : (s.file f).ref = 1) : Refs (s.dropFile f) fun g => hand g - if g = f then 1 else 0 := by
  refine ⟨fun g => ?_, fun g => ?_, h.closed⟩
  all_goals rw [State.dropFile, State.setFile_file]; split
  · subst g
    have := h.ref f
    simp only [setFile]
    omega
  · rw [sub_zero]; exact h.ref g
  · exact fun _ => rfl
  · exact h.free g

theorem Pipes.dropFile (h : Pipes s) (hf : (s.file f).type ≠ .FD_PIPE) : Pipes (s.dropFile f) := by
  have he (g : FileIx) (k : Nat) (w : Bool) : ((s.dropFile f).file g).isEnd k w ↔ (s.file g).isEnd k w := by
    rw [dropFile_isEnd]
    exact ⟨And.right, fun hg => ⟨by rintro rfl; exact hf hg.1, hg⟩⟩
  refine ⟨fun g k w hg => h.lt g k w ((he g k w).mp hg), fun g g' k w hg hg' => ?_, fun k w hk => ?_, h.freed, h.nodup⟩
  · exact h.inj g g' k w ((he g k w).mp hg) ((he g' k w).mp hg')
  · exact (h.isOpen k w hk).trans (exists_congr fun g => (he g k w).symm)

theorem Pipes.pipeclose (h : Pipes s) {k : Nat} {w : Bool} (hf : (s.file f).isEnd k w) : Pipes ((s.dropFile f).pipeclose k w) := by
  have hk := h.lt f k w hf
  have hfr : k ∉ s.freed := by
    intro hm
    have := ((h.freed k).mp hm).2 w
    rw [(h.isOpen k w hk).mpr ⟨f, hf⟩] at this
    cases this
  obtain ⟨hfile, -, -, hn, -⟩ := pipeclose_rest (s := s.dropFile f) k w
  refine ⟨fun g k' w' hg => ?_, fun g g' k' w' hg hg' => ?_, fun k' w' hk' => ?_, fun k' => ?_, ?_⟩
  · rw [hn]
    rw [hfile, dropFile_isEnd] at hg
    exact h.lt g k' w' hg.2
  · rw [hfile, dropFile_isEnd] at hg hg'
    exact h.inj g g' k' w' hg.2 hg'.2
  · rw [hn] at hk'
    simp only [pipeclose_isOpen, hfile, dropFile_isEnd]
    split
    · rename_i he
      obtain ⟨rfl, rfl⟩ := he
      simp only [Bool.false_eq_true, false_iff, not_exists, not_and]
      exact fun g hg hg' => hg (h.inj g f k' w' hg' hf)
    · rename_i he
      refine (h.isOpen k' w' hk').trans (exists_congr fun g => ?_)
      refine ⟨fun hg => ⟨?_, hg⟩, And.right⟩
      rintro rfl
      exact he ⟨hg.2.1.symm.trans hf.2.1, hg.2.2.symm.trans hf.2.2⟩
  · rw [pipeclose_freed, hn]
    have hne : k ≠ k' → ((((s.dropFile f).pipeclose k w).pipe k').isOpen = (s.pipe k').isOpen) := by
      intro hne
      rw [pipeclose_pipe, update_of_ne hne.symm]
      rfl
    by_cases hkk : k = k'
    · subst hkk
      have : k ∉ s.freed := hfr
      split
      · rename_i ha
        exact ⟨fun _ => ⟨hk, ha⟩, fun _ => mem_cons_self⟩
      · rename_i ha
        exact ⟨fun hm => absurd hm hfr, fun hm => absurd hm.2 ha⟩
    · rw [hne hkk]
      refine Iff.trans ?_ (h.freed k')
      split
      · simp [Ne.symm hkk, State.dropFile, State.setFile]
      · rfl
  · rw [State.pipeclose_freed]
    split
    · exact nodup_cons.mpr ⟨hfr, h.nodup⟩
    · exact h.nodup

/-! ### Inode references -/

theorem Inodes.dropFile (h : Inodes s held) (hf : (s.file f).type ≠ .FD_INODE) : Inodes (s.dropFile f) held := by
  have he (g : FileIx) (r : Nat) : ((s.dropFile f).file g).holds r ↔ (s.file g).holds r := by
    rw [dropFile_holds]
    exact ⟨And.right, fun hg => ⟨by rintro rfl; exact hf hg.1, hg⟩⟩
  refine ⟨fun g r hg => h.lt g r ((he g r).mp hg), fun g g' r hg hg' => ?_, fun r hr => ?_, fun r => ?_, h.nodup⟩
  · exact h.inj g g' r ((he g r).mp hg) ((he g' r).mp hg')
  · simp only [he]; exact h.inHand r hr
  · simp only [he]; exact h.iputs r

theorem Inodes.iput (h : Inodes s held) (hf : (s.file f).holds r) : Inodes ((s.dropFile f).iput r) held := by
  have hr := h.lt f r hf
  have hni : r ∉ s.iputs := fun hm => ((h.iputs r).mp hm).2.2 f hf
  have he (g : FileIx) (r' : Nat) : (((s.dropFile f).iput r).file g).holds r' ↔ g ≠ f ∧ (s.file g).holds r' := dropFile_holds r'
  refine ⟨fun g r' hg => h.lt g r' ((he g r').mp hg).2, fun g g' r' hg hg' => ?_, fun r' hr' => ?_, fun r' => ?_, ?_⟩
  · exact h.inj g g' r' ((he g r').mp hg).2 ((he g' r').mp hg').2
  · exact ⟨(h.inHand r' hr').1, fun g hg => (h.inHand r' hr').2 g ((he g r').mp hg).2⟩
  · simp only [he]
    by_cases hrr : r' = r
    · subst hrr
      refine ⟨fun _ => ⟨hr, fun hh => (h.inHand r' hh).2 f hf, ?_⟩, fun _ => mem_cons_self⟩
      exact fun g hg => hg.1 (h.inj g f r' hg.2 hf)
    · refine Iff.trans (by simp [State.iput, hrr, State.dropFile, State.setFile]) ((h.iputs r').trans ?_)
      have hfr : ¬ (s.file f).holds r' := fun hg => hrr (hg.2.symm.trans hf.2)
      refine and_congr_right fun _ => and_congr_right fun _ => forall_congr' fun g => not_congr ?_
      exact ⟨fun hg => ⟨by rintro rfl; exact hfr hg, hg⟩, And.right⟩
  · exact nodup_cons.mpr ⟨hni, h.nodup⟩

theorem Inv.fileclose (h : Inv s hand held) (hr : 0 < (s.file f).ref) :
    ∃ s', s.fileclose f = .ok s' ∧ Inv s' (fun g => hand g - if g = f then 1 else 0) held ∧ s'.ofile = s.ofile ∧
      s'.life = s.life ∧ ∀ g, g ≠ f → s'.file g = s.file g := by
  have hother (g : FileIx) (hg : g ≠ f) : (s.dropFile f).file g = s.file g := by rw [State.dropFile, State.setFile_file, if_neg hg]
  unfold State.fileclose
  dsimp only
  rw [if_neg (by omega)]
  split
  · refine ⟨_, rfl, (h.setRef (n := (s.file f).ref - 1) (by omega)).congr fun g => ?_, rfl, rfl, fun g hg => ?_⟩
    · split <;> omega
    · rw [setFile_file, if_neg hg]
  · have hd := h.refs.dropFile (f := f) (by omega)
    refine ⟨_, rfl, ?_⟩
    change Inv ((s.dropFile f).closed (s.file f)) _ _ ∧ ((s.dropFile f).closed (s.file f)).ofile = _ ∧ _
    unfold closed
    cases ht : (s.file f).type with
    | FD_NONE =>
      exact ⟨⟨hd, h.pipes.dropFile (by rw [ht]; nofun), h.inodes.dropFile (by rw [ht]; nofun)⟩, rfl, rfl, hother⟩
    | FD_PIPE =>
      obtain ⟨hf, ho, hl, hn, hni, hi⟩ := pipeclose_rest (s := s.dropFile f) (s.file f).pipe (s.file f).writable
      have hin := h.inodes.dropFile (f := f) (by rw [ht]; nofun)
      refine ⟨⟨⟨?_, ?_, ?_⟩, h.pipes.pipeclose ⟨ht, rfl, rfl⟩, ⟨?_, ?_, ?_, ?_, ?_⟩⟩, ho, hl, fun g hg => ?_⟩
      · rw [hf, ho]; exact hd.ref
      · rw [hf]; exact hd.free
      · rw [hl, ho]; exact hd.closed
      · rw [hf, hni]; exact hin.lt
      · rw [hf]; exact hin.inj
      · rw [hf, hni]; exact hin.inHand
      · rw [hf, hni, hi]; exact hin.iputs
      · rw [hi]; exact hin.nodup
      · exact (congrFun hf g).trans (hother g hg)
    | FD_INODE =>
      exact ⟨⟨{ hd with }, { h.pipes.dropFile (f := f) (by rw [ht]; nofun) with }, h.inodes.iput ⟨ht, rfl⟩⟩, rfl, rfl, hother⟩

/-! ## The calls -/

abbrev Done (x : Except Panic (Int × State)) : Prop := Ends (fun _ => False) (fun r => Inv₀ r.2) x

theorem Inv.ref_pos (h : Inv s hand held) (hp : 0 < hand f) : 0 < (s.file f).ref := by
  have := h.refs.ref f
  omega

theorem Inv.ref_pos_of_fd (h : Inv s hand held) {i : Ptable.Slot × Fd} (hf : s.ofile i = some f) (hh : 0 ≤ hand f) :
    0 < (s.file f).ref := by
  have := holders_pos.mpr ⟨i, hf⟩
  have := h.refs.ref f
  omega

theorem Inv.fdalloc (h : Inv s hand held) (hu : s.life p = .used) (hs : s.fdalloc f p = some (fd, s')) :
    Inv s' (fun g => hand g - if g = f then 1 else 0) held ∧ s' = s.setFd p fd (some f) ∧ s.ofile (p, fd) = none := by
  unfold State.fdalloc at hs
  split at hs
  · cases hs
    rename_i hf
    have hn : s.ofile (p, fd) = none := by simpa using find?_some hf
    refine ⟨(h.setFd fun _ => hu).congr fun g => ?_, rfl, hn⟩
    simp [hn, eq_comm]
  · cases hs

theorem State.argfd_some {n : Int} (h : s.argfd p n = some (fd, f)) : s.ofile (p, fd) = some f := by
  unfold argfd at h
  split at h
  · obtain ⟨g, hg, he⟩ := Option.map_eq_some_iff.mp h
    cases he
    exact hg
  · cases h

theorem Inv₀.sysDup (h : Inv₀ s) (hu : s.life p = .used) (n : Int) : Done (s.sysDup p n) := by
  unfold State.sysDup
  split
  · exact h
  · rename_i fd' f hf
    split
    · exact h
    · rename_i fd s' hs
      obtain ⟨h', rfl, hn⟩ := h.fdalloc hu hs
      have hpos := h.ref_pos_of_fd (argfd_some hf) le_rfl
      obtain ⟨s', hs', h'', -⟩ := h'.filedup (f := f) hpos
      rw [hs']
      exact h''.congr fun g => by simp

theorem Inv₀.sysClose (h : Inv₀ s) (n : Int) : Done (s.sysClose p n) := by
  unfold State.sysClose
  split
  · exact h
  · rename_i fd f hf
    have hf := argfd_some hf
    have h' : Inv (s.setFd p fd none) _ _ := h.setFd nofun
    have hpos := h.ref_pos_of_fd hf le_rfl
    obtain ⟨s', hs', h'', -⟩ := h'.fileclose (f := f) hpos
    rw [hs']
    exact h''.congr fun g => by simp [hf, eq_comm]

/-! ### `open` -/

theorem Inv.takeIp (h : Inv₀ s) : Inv { s with nip := s.nip + 1 } (fun _ => 0) (· = s.nip) := by
  have hnot (f : FileIx) (r : Nat) (hr : (s.file f).holds r) : r < s.nip := h.inodes.lt f r hr
  refine ⟨{ h.refs with }, { h.pipes with }, ⟨fun f r hf => ?_, h.inodes.inj, fun r hr => ?_, fun r => ?_, h.inodes.nodup⟩⟩
  · exact Nat.lt_succ_of_lt (h.inodes.lt f r hf)
  · subst hr
    exact ⟨Nat.lt_succ_self _, fun f hf => lt_irrefl _ (hnot f _ hf)⟩
  · refine (h.inodes.iputs r).trans ?_
    constructor
    · rintro ⟨hr, -, hn⟩
      exact ⟨Nat.lt_succ_of_lt hr, ne_of_lt hr, hn⟩
    · rintro ⟨hr, hne, hn⟩
      exact ⟨lt_of_le_of_ne (Nat.le_of_lt_succ hr) hne, id, hn⟩

/-- `iunlockput`. -/
theorem Inv.putIp (h : Inv s hand (· = r)) : Inv (s.iput r) hand fun _ => False := by
  obtain ⟨hr, hn⟩ := h.inodes.inHand r rfl
  have hni : r ∉ s.iputs := fun hm => ((h.inodes.iputs r).mp hm).2.1 rfl
  refine ⟨{ h.refs with }, { h.pipes with }, ⟨h.inodes.lt, h.inodes.inj, nofun, fun r' => ?_, nodup_cons.mpr ⟨hni, h.inodes.nodup⟩⟩⟩
  by_cases hrr : r' = r
  · subst hrr
    exact ⟨fun _ => ⟨hr, id, hn⟩, fun _ => mem_cons_self⟩
  · refine Iff.trans (by simp [iput, hrr]) ((h.inodes.iputs r').trans ?_)
    simp [hrr, iput]

theorem Inv.storeIp (h : Inv s hand (· = r)) (ht : (s.file f).type = .FD_NONE) (hr : 0 < (s.file f).ref)
    (hx : x.holds r) (href : x.ref = (s.file f).ref) : Inv (s.setFile f x) hand fun _ => False := by
  obtain ⟨hlt, hn⟩ := h.inodes.inHand r rfl
  have hfree (r' : Nat) : ¬ (s.file f).holds r' := fun hf => by cases ht.symm.trans hf.1
  have hholds (g : FileIx) (r' : Nat) : ((s.setFile f x).file g).holds r' ↔ g = f ∧ r' = r ∨ (s.file g).holds r' := by
    rw [setFile_file]
    split
    · subst g
      exact ⟨fun hh => .inl ⟨rfl, hh.2.symm.trans hx.2⟩, fun hh => hh.elim (fun he => he.2 ▸ hx) fun hf => absurd hf (hfree r')⟩
    · simp [*]
  have hends (g : FileIx) (k : Nat) (w : Bool) : ((s.setFile f x).file g).isEnd k w ↔ (s.file g).isEnd k w := by
    rw [setFile_file]
    split
    · subst g
      exact ⟨fun hh => (by cases hx.1.symm.trans hh.1), fun hh => (by cases ht.symm.trans hh.1)⟩
    · rfl
  refine ⟨⟨fun g => ?_, fun g hg => ?_, h.refs.closed⟩, ⟨?_, ?_, ?_, h.pipes.freed, h.pipes.nodup⟩, ⟨?_, ?_, nofun, ?_, h.inodes.nodup⟩⟩
  · rw [setFile_file]
    split
    · subst g; rw [href]; exact h.refs.ref f
    · exact h.refs.ref g
  · rw [setFile_file] at hg ⊢
    split at hg
    · omega
    · rename_i hgf
      rw [if_neg hgf]
      exact h.refs.free g hg
  · intro g k w hg; exact h.pipes.lt g k w ((hends g k w).mp hg)
  · intro g g' k w hg hg'; exact h.pipes.inj g g' k w ((hends g k w).mp hg) ((hends g' k w).mp hg')
  · intro k w hk; exact (h.pipes.isOpen k w hk).trans (exists_congr fun g => (hends g k w).symm)
  · intro g r' hg
    rcases (hholds g r').mp hg with ⟨-, rfl⟩ | hg
    · exact hlt
    · exact h.inodes.lt g r' hg
  · intro g g' r' hg hg'
    rcases (hholds g r').mp hg with ⟨rfl, rfl⟩ | h1 <;> rcases (hholds g' r').mp hg' with ⟨rfl, hr'⟩ | h2
    · rfl
    · exact absurd h2 (hn g')
    · subst hr'; exact absurd h1 (hn g)
    · exact h.inodes.inj g g' r' h1 h2
  · intro r'
    refine (h.inodes.iputs r').trans ?_
    simp only [hholds]
    constructor
    · rintro ⟨hr', hne, hg⟩
      exact ⟨hr', id, fun g hh => hh.elim (fun he => hne he.2) (hg g)⟩
    · rintro ⟨hr', -, hg⟩
      exact ⟨hr', fun he => hg f (.inl ⟨rfl, he⟩), fun g hh => hg g (.inr hh)⟩

theorem Inv₀.sysOpen (h : Inv₀ s) (hu : s.life p = .used) (found : Option Bool) (omode : BitVec 32) : Done (s.sysOpen p found omode) := by
  have hip := Inv.takeIp h
  unfold State.sysOpen
  split
  · exact h
  · dsimp only
    split
    · exact hip.putIp
    · split
      · exact hip.putIp
      · rename_i f s1 hs1
        obtain ⟨h1, ht1, ho1, hl1, hr1, -⟩ := hip.filealloc hs1
        have hpos : 0 < (s1.file f).ref := h1.ref_pos (by simp)
        split
        · obtain ⟨s2, hs2, h2, -⟩ := h1.fileclose hpos
          rw [hs2]
          exact (h2.congr fun g => by simp).putIp
        · rename_i fd s2 hs2
          obtain ⟨h2, rfl, hn⟩ := h1.fdalloc (by rw [hl1]; exact hu) hs2
          refine Ends.pure (Inv.congr (h2.storeIp ht1 hpos ⟨?_, ?_⟩ ?_) fun g => ?_)
          · rfl
          · rfl
          · rfl
          · simp

/-! ### `pipe` -/

section Ends

variable {f0 f1 : FileIx} (hne : f0 ≠ f1) (h0 : (s.file f0).type = .FD_NONE) (h1 : (s.file f1).type = .FD_NONE)
include hne

theorem pipeends_file (g : FileIx) : (s.pipeends f0 f1).file g =
    if g = f1 then { s.file g with type := .FD_PIPE, readable := false, writable := true, pipe := s.npipe }
    else if g = f0 then { s.file g with type := .FD_PIPE, readable := true, writable := false, pipe := s.npipe }
    else s.file g := by
  simp only [pipeends, setFile_file, if_neg hne.symm]
  split
  · subst g; rfl
  · split
    · subst g; rfl
    · rfl

include h0 h1

theorem pipeends_isEnd (g : FileIx) (k : Nat) (w : Bool) : ((s.pipeends f0 f1).file g).isEnd k w ↔
    k = s.npipe ∧ g = (if w then f1 else f0) ∨ (s.file g).isEnd k w := by
  rw [pipeends_file hne]
  split
  · subst g
    cases w with
    | false => simp [File.isEnd, h1, hne.symm]
    | true => simpa [File.isEnd, h1] using eq_comm
  · split
    · subst g
      cases w with
      | false => simpa [File.isEnd, h0] using eq_comm
      | true => simp [File.isEnd, h0, hne]
    · cases w <;> simp [*]

theorem pipeends_holds (g : FileIx) (r : Nat) : ((s.pipeends f0 f1).file g).holds r ↔ (s.file g).holds r := by
  rw [pipeends_file hne]
  split
  · subst g; simp [File.holds, h1]
  · split
    · subst g; simp [File.holds, h0]
    · rfl

theorem Pipes.pipeends (h : Pipes s) : Pipes (s.pipeends f0 f1) := by
  have hold {g : FileIx} {k : Nat} {w : Bool} (hg : (s.file g).isEnd k w) : k ≠ s.npipe := ne_of_lt (h.lt g k w hg)
  have hpipe (k : Nat) (w : Bool) : ((s.pipeends f0 f1).pipe k).isOpen w = if k = s.npipe then true else (s.pipe k).isOpen w := by
    simp only [State.pipeends, State.setFile, update_apply]
    split
    · cases w <;> rfl
    · rfl
  refine ⟨fun g k w hg => ?_, fun g g' k w hg hg' => ?_, fun k w hk => ?_, fun k => ?_, h.nodup⟩
  · rw [pipeends_isEnd hne h0 h1] at hg
    rcases hg with ⟨rfl, -⟩ | hg
    · exact Nat.lt_succ_self _
    · exact Nat.lt_succ_of_lt (h.lt g k w hg)
  · rw [pipeends_isEnd hne h0 h1] at hg hg'
    rcases hg with ⟨hk, hg⟩ | hg <;> rcases hg' with ⟨hk', hg'⟩ | hg'
    · exact hg.trans hg'.symm
    · exact absurd hk (hold hg')
    · exact absurd hk' (hold hg)
    · exact h.inj g g' k w hg hg'
  · simp only [hpipe, pipeends_isEnd hne h0 h1]
    by_cases hkn : k = s.npipe
    · exact ⟨fun _ => ⟨_, .inl ⟨hkn, rfl⟩⟩, fun _ => if_pos hkn⟩
    · rw [if_neg hkn]
      refine (h.isOpen k w (lt_of_le_of_ne (Nat.le_of_lt_succ hk) hkn)).trans (exists_congr fun g => ?_)
      simp [hkn]
  · simp only [hpipe]
    refine (h.freed k).trans ?_
    constructor
    · rintro ⟨hk, hw⟩
      refine ⟨Nat.lt_succ_of_lt hk, fun w => ?_⟩
      rw [if_neg (ne_of_lt hk)]
      exact hw w
    · rintro ⟨hk, hw⟩
      have hkn : k ≠ s.npipe := fun hkn => by have := hw true; rw [if_pos hkn] at this; cases this
      refine ⟨lt_of_le_of_ne (Nat.le_of_lt_succ hk) hkn, fun w => ?_⟩
      have := hw w
      rwa [if_neg hkn] at this

theorem Inv.pipeends (h : Inv s hand held) (hr0 : 0 < (s.file f0).ref) (hr1 : 0 < (s.file f1).ref) : Inv (s.pipeends f0 f1) hand held := by
  have href (g : FileIx) : ((s.pipeends f0 f1).file g).ref = (s.file g).ref := by
    rw [pipeends_file hne]
    split
    · rfl
    · split <;> rfl
  have hholds := pipeends_holds hne h0 h1
  refine ⟨⟨fun g => by rw [href]; exact h.refs.ref g, fun g hg => ?_, h.refs.closed⟩, h.pipes.pipeends hne h0 h1,
    ⟨fun g r => ?_, fun g g' r => ?_, fun r => ?_, fun r => ?_, h.inodes.nodup⟩⟩
  · rw [href] at hg
    rw [pipeends_file hne, if_neg (by rintro rfl; omega), if_neg (by rintro rfl; omega)]
    exact h.refs.free g hg
  · rw [hholds]; exact h.inodes.lt g r
  · rw [hholds, hholds]; exact h.inodes.inj g g' r
  · simp only [hholds]; exact h.inodes.inHand r
  · simp only [hholds]; exact h.inodes.iputs r

end Ends

theorem Inv₀.pipealloc (h : Inv₀ s) (mem : Bool) : Ends (fun _ => False)
    (fun r : Option (FileIx × FileIx) × State => r.2.life = s.life ∧ r.2.ofile = s.ofile ∧ match r.1 with
      | none => Inv₀ r.2
      | some (rf, wf) => Inv r.2 (fun g => (if g = rf then 1 else 0) + if g = wf then 1 else 0) fun _ => False)
    (s.pipealloc mem) := by
  unfold State.pipealloc
  split
  · exact ⟨rfl, rfl, h⟩
  · rename_i f0 s0 hs0
    obtain ⟨h0, ht0, ho0, hl0, hr0, -⟩ := h.filealloc hs0
    have hp0 : 0 < (s0.file f0).ref := h0.ref_pos (by simp)
    split
    · obtain ⟨s', hs', h', ho', hl', -⟩ := h0.fileclose hp0
      rw [hs']
      exact ⟨hl'.trans hl0, ho'.trans ho0, h'.congr fun g => by simp⟩
    · rename_i f1 s1 hs1
      obtain ⟨h1, ht1, ho1, hl1, hr1, hf1⟩ := h0.filealloc hs1
      have hne : f0 ≠ f1 := by rintro rfl; omega
      have hp1 : 0 < (s1.file f1).ref := h1.ref_pos (by simp; split <;> omega)
      rw [← hf1 f0 hne] at hp0 ht0
      split
      · refine ⟨hl1.trans hl0, ho1.trans ho0, ?_⟩
        exact (h1.pipeends hne ht0 ht1 hp0 hp1).congr fun g => by simp
      · obtain ⟨s2, hs2, h2, ho2, hl2, hf2⟩ := h1.fileclose hp0
        rw [← hf2 f1 hne.symm] at hp1
        obtain ⟨s3, hs3, h3, ho3, hl3, -⟩ := h2.fileclose hp1
        rw [hs2]
        change Ends _ _ (s2.fileclose f1 >>= _)
        rw [hs3]
        exact ⟨hl3.trans (hl2.trans (hl1.trans hl0)), ho3.trans (ho2.trans (ho1.trans ho0)), h3.congr fun g => by simp⟩

theorem Inv.closeBoth {rf wf : FileIx} (h : Inv s (fun g => (if g = rf then 1 else 0) + if g = wf then 1 else 0) fun _ => False) :
    Done (do let s ← s.fileclose rf; let s ← s.fileclose wf; return (-1, s)) := by
  obtain ⟨s1, hs1, h1, -⟩ := h.fileclose (f := rf) (h.ref_pos (by simp; split <;> omega))
  obtain ⟨s2, hs2, h2, -⟩ := h1.fileclose (f := wf) (h1.ref_pos (by simp))
  rw [hs1]
  change Ends _ _ (s1.fileclose wf >>= _)
  rw [hs2]
  exact h2.congr fun g => by simp

theorem Inv₀.sysPipe (h : Inv₀ s) (hu : s.life p = .used) (ptr mem : Bool) : Done (s.sysPipe p ptr mem) := by
  unfold State.sysPipe
  split
  · exact h
  · refine (h.pipealloc mem).bind ?_
    rintro ⟨_ | ⟨rf, wf⟩, s1⟩ ⟨hl1, -, h1⟩
    · exact h1
    dsimp only at hl1 h1 ⊢
    have hu1 : s1.life p = .used := (congrFun hl1 p).trans hu
    split
    · exact h1.closeBoth
    · rename_i fd0 s2 hs2
      obtain ⟨h2, rfl, hn⟩ := h1.fdalloc hu1 hs2
      split
      · -- the descriptor of the read end is given back
        have h3 : Inv ((s1.setFd p fd0 (some rf)).setFd p fd0 none) _ _ := h2.setFd nofun
        refine (h3.congr fun g => ?_).closeBoth
        simp [setFd, eq_comm]
        exact add_comm _ _
      · rename_i fd1 s3 hs3
        obtain ⟨h3, rfl, -⟩ := h2.fdalloc hu1 hs3
        exact h3.congr fun g => by simp

/-! ### `fork` and `exit` -/

theorem Inv₀.forkFd (h : Inv₀ s) {np : Ptable.Slot} (hu : s.life np = .used) (hn : s.ofile (np, fd) = none) :
    Ends (fun _ => False) (fun s' => Inv₀ s' ∧ s'.life = s.life ∧ ∀ fd', fd' ≠ fd → s'.ofile (np, fd') = s.ofile (np, fd'))
      (s.forkFd p np fd) := by
  unfold State.forkFd
  split
  · rename_i f hf
    obtain ⟨s', hs', h', ho', hl'⟩ := h.filedup (h.ref_pos_of_fd hf le_rfl)
    rw [hs']
    have h'' : Inv (s'.setFd np fd (some f)) _ _ := h'.setFd fun _ => (congrFun hl' np).trans hu
    refine ⟨h''.congr fun g => ?_, hl', fun fd' hfd => ?_⟩
    · simp [ho', hn, eq_comm]
    · simp [setFd, ho', hfd]
  · exact ⟨h, rfl, fun _ _ => rfl⟩

theorem Inv₀.born (h : Inv₀ s) (np : Ptable.Slot) : Inv₀ { s with life := update s.life np .used } := by
  refine ⟨⟨h.refs.ref, h.refs.free, fun q hq fd => h.refs.closed q (fun hu => hq ?_) fd⟩, { h.pipes with }, { h.inodes with }⟩
  by_cases hqn : q = np
  · subst hqn; exact update_self ..
  · simpa [hqn] using hu

theorem not_mem_done {done rest : List Fd} (hl : finRange NOFILE = done ++ fd :: rest) : fd ∉ done := by
  have := nodup_finRange NOFILE
  rw [hl] at this
  exact fun hm => (nodup_append.mp this).2.2 fd hm fd mem_cons_self rfl

theorem Inv₀.fork (h : Inv₀ s) (mem : Bool) : Done (s.fork p mem) := by
  unfold State.fork
  split
  · exact h
  · rename_i np hnp
    have hnp : s.life np = .unused := by simpa using find?_some hnp
    split
    · refine Ends.bind (Ends.foldlM (I := fun done s' => Inv₀ s' ∧ s'.life np = .used ∧ ∀ fd, fd ∉ done → s'.ofile (np, fd) = none)
        ⟨h.born np, update_self .., fun fd _ => ?_⟩ ?_) ?_
      · exact h.refs.closed np (by rw [hnp]; nofun) fd
      · intro done fd rest s' hl hi
        obtain ⟨h', hu', hn'⟩ := hi
        refine (h'.forkFd hu' (hn' fd (not_mem_done hl))).imp ?_
        rintro s'' ⟨h'', hl'', ho''⟩
        refine ⟨h'', (congrFun hl'' np).trans hu', fun fd' hfd' => ?_⟩
        rw [mem_append, mem_singleton, not_or] at hfd'
        rw [ho'' fd' hfd'.2]
        exact hn' fd' hfd'.1
      · rintro s' ⟨h', -⟩
        exact h'
    · exact h

theorem Inv₀.exitFd (h : Inv₀ s) : Ends (fun _ => False)
    (fun s' => Inv₀ s' ∧ s'.life = s.life ∧ s'.ofile (p, fd) = none ∧ ∀ fd', fd' ≠ fd → s'.ofile (p, fd') = s.ofile (p, fd'))
    (s.exitFd p fd) := by
  unfold State.exitFd
  split
  · rename_i f hf
    obtain ⟨s', hs', h', ho', hl', -⟩ := h.fileclose (h.ref_pos_of_fd hf le_rfl)
    rw [hs']
    have h'' : Inv (s'.setFd p fd none) _ _ := h'.setFd nofun
    refine ⟨h''.congr fun g => ?_, hl', ?_, fun fd' hfd => ?_⟩
    · simp [ho', hf, eq_comm]
    · simp [setFd]
    · simp [setFd, ho', hfd]
  · exact ⟨h, rfl, ‹_›, fun _ _ => rfl⟩

theorem Inv₀.exit (h : Inv₀ s) : Done (s.exit p) := by
  unfold State.exit
  refine Ends.bind (Ends.foldlM (I := fun done s' => Inv₀ s' ∧ s'.life = s.life ∧ ∀ fd, fd ∈ done → s'.ofile (p, fd) = none)
    ⟨h, rfl, nofun⟩ ?_) ?_
  · intro done fd rest s' _ hi
    obtain ⟨h', hl', hn'⟩ := hi
    refine h'.exitFd.imp ?_
    rintro s'' ⟨h'', hl'', hfd, ho''⟩
    refine ⟨h'', hl''.trans hl', fun fd' hfd' => ?_⟩
    by_cases he : fd' = fd
    · rw [he]; exact hfd
    · rw [ho'' fd' he]
      exact hn' fd' ((mem_append.mp hfd').resolve_right fun hm => he (mem_singleton.mp hm))
  · rintro s' ⟨h', hl', hn'⟩
    refine Ends.ret (Q := fun r : Int × State => Inv₀ r.2)
      ⟨⟨h'.refs.ref, h'.refs.free, fun q hq fd => ?_⟩, { h'.pipes with }, { h'.inodes with }⟩
    by_cases hqp : q = p
    · subst hqp; exact hn' fd (mem_finRange fd)
    · refine h'.refs.closed q (fun hu => hq ?_) fd
      simpa [hqp] using hu

theorem Inv₀.wait (h : Inv₀ s) (q : Ptable.Slot) : Done (s.wait q) := by
  unfold State.wait
  split
  · rename_i hz
    refine ⟨⟨h.refs.ref, h.refs.free, fun r hr fd => h.refs.closed r (fun hu => hr ?_) fd⟩, { h.pipes with }, { h.inodes with }⟩
    by_cases hrq : r = q
    · subst hrq; rw [hz] at hu; cases hu
    · simpa [hrq] using hu
  · exact h

theorem Inv₀.exec (h : Inv₀ s) (hu : s.life p = .used) (c : Call) : Done (exec s p c) := by
  cases c with
  | dup fd => exact h.sysDup hu fd
  | close fd => exact h.sysClose fd
  | «open» found omode => exact h.sysOpen hu found omode
  | pipe ptr mem => exact h.sysPipe hu ptr mem
  | fork mem => exact h.fork mem
  | exit => exact h.exit
  | wait q => exact h.wait q

theorem inv_init : Inv₀ init where
  refs := ⟨fun f => by simp [init, holders_none], fun _ _ => rfl, fun _ _ _ => rfl⟩
  pipes := ⟨nofun, nofun, nofun, fun k => ⟨nofun, nofun⟩, nodup_nil⟩
  inodes := ⟨nofun, nofun, nofun, fun r => ⟨nofun, nofun⟩, nodup_nil⟩

end Xv6.Ftable
