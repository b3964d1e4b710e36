import Xv6.Sysfile.Theorems

/-!
# The blocks that a call changes

The log holds back the writes of the blocks that it is told of. A block that is changed and not passed to `log_write` would
be lost when its buffer is recycled, or be on disk without the rest of its transaction.
-/

namespace Xv6.Fs

open Xv6.Lib Function

variable {L : Type}

/-- Some blocks `bs` have been passed to `log_write` since `d0`, and no other block has changed. -/
def Told (lw : LogWrite L) (d0 d : Disk L) : Prop :=
  ∃ bs : List Nat, bs.foldlM lw d0.log = some d.log ∧ ∀ b, b ∉ bs → d.blk b = d0.blk b

abbrev Logs {α : Type} (lw : LogWrite L) (d0 : Disk L) : Except Panic (α × State L) → Prop :=
  Ends Any fun r => Told lw d0 r.2.disk

abbrev Leaves (lw : LogWrite L) (d0 : Disk L) : Except Panic (State L) → Prop := Ends Any fun s => Told lw d0 s.disk

variable {lw : LogWrite L} {d0 d : Disk L} {s : State L} {i : Fin NINODE} {b k off n : Nat} {v : Block}

/-- What follows a change of a buffer everywhere. -/
theorem Told.logWrite (h : Told lw d0 d) : Ends Any (Told lw d0) (logWrite lw (d.setBlk b v) b) := by
  obtain ⟨bs, hbs, hd⟩ := h
  unfold Fs.logWrite
  split
  · rename_i l hl
    refine ⟨bs ++ [b], ?_, fun x hx => ?_⟩
    · rw [List.foldlM_append, hbs]
      change (lw d.log b >>= pure) = some l
      rw [show lw d.log b = some l from hl]
      rfl
    · rw [List.mem_append, List.mem_singleton, not_or] at hx
      exact (update_of_ne hx.2 ..).trans (hd x hx.1)
  · trivial

theorem Told.balloc (h : Told lw d0 d) : Ends Any (fun r => Told lw d0 r.2) (balloc lw d) := by
  unfold Fs.balloc
  split
  · exact h.logWrite.bind fun _ h => h.logWrite.bind fun _ h => h
  · trivial

theorem Told.bfree (h : Told lw d0 d) : Ends Any (Told lw d0) (bfree lw d b) :=
  .ite trivial (Told.logWrite (d := { d with sb := readsb (d.blk 1) }) h)

/-! ## Inodes -/

theorem Told.iget (h : Told lw d0 s.disk) : Logs lw d0 (iget s n) :=
  (gets_iget s n).imp fun _ hg => by rw [hg.disk]; exact h

theorem Told.ilock (h : Told lw d0 s.disk) : Leaves lw d0 (ilock s i) :=
  (locks_ilock s i).imp fun _ hk => by rw [hk.disk]; exact h

theorem Told.ialloc (h : Told lw d0 s.disk) {type : BitVec 16} : Logs lw d0 (ialloc lw s type) := by
  unfold Fs.ialloc
  split
  · exact h.logWrite.bind fun d hd => Told.iget (s := { s with disk := d }) hd
  · trivial

theorem Told.iupdate (h : Told lw d0 s.disk) : Leaves lw d0 (iupdate lw s i) := h.logWrite.bind fun _ hd => hd

theorem Told.bmapAddr (h : Told lw d0 s.disk) {k : Fin (NDIRECT + 1)} : Logs lw d0 (bmapAddr lw s i k) :=
  .ite (h.balloc.bind fun _ hd => hd) h

theorem Told.bmap (h : Told lw d0 s.disk) : Logs lw d0 (bmap lw s i n) := by
  unfold Fs.bmap
  split
  · exact h.bmapAddr
  · refine .ite (h.bmapAddr.bind fun r hr => ?_) trivial
    exact .ite (Ends.bind (Told.balloc hr) fun _ hd => hd.logWrite.bind fun _ hd => hd) hr

theorem Told.itrunc (h : Told lw d0 s.disk) : Leaves lw d0 (itrunc lw s i) := by
  have hdirect : Leaves lw d0 ((List.finRange NDIRECT).foldlM (truncDirect lw i) s) := by
    refine Ends.foldlM (I := fun _ (s : State L) => Told lw d0 s.disk) h fun _ k _ s _ hs => ?_
    exact .ite hs (hs.bfree.bind fun _ hd => hd)
  refine hdirect.bind fun s hs => ?_
  have hblock : Leaves lw d0 (truncBlock lw s i) := by
    refine .ite hs (Ends.bind (Ends.foldlM (I := fun _ => Told lw d0) hs fun _ j _ d _ hd => ?_) fun d hd => hd.bfree.bind fun _ hd => hd)
    exact .ite hd hd.bfree
  exact hblock.bind fun s hs => Told.iupdate (s := s.setInode i _) hs

theorem Told.iput (h : Told lw d0 s.disk) : Leaves lw d0 (iput lw s i) := by
  have hfree : Leaves lw d0 (ifree lw s i) :=
    h.itrunc.bind fun s hs => (Told.iupdate (s := s.setInode i _) hs).bind fun _ hs => hs
  exact .ite (hfree.bind fun _ hs => hs) h

theorem Told.readLoop (h : Told lw d0 s.disk) : Logs lw d0 (readLoop lw i k s off n) := by
  induction k generalizing s off n with
  | zero => exact h
  | succ k ih =>
    rw [Fs.readLoop]
    exact .ite h (h.bmap.bind fun _ hr => (ih hr).bind fun _ hr => hr)

theorem Told.readi (h : Told lw d0 s.disk) {off n : BitVec 32} : Ends Any (fun r => Told lw d0 r.2.2.disk) (readi lw s i off n) := by
  refine .ite (.ite h ?_) (.ite h (h.readLoop.bind fun _ hr => hr))
  split <;> exact h

theorem Told.writeLoop {src : Nat → BitVec 8} (h : Told lw d0 s.disk) : Leaves lw d0 (writeLoop lw i k s src off n) := by
  induction k generalizing s src off n with
  | zero => exact h
  | succ k ih =>
    rw [Fs.writeLoop]
    exact .ite h (h.bmap.bind fun r hr => (Told.logWrite hr).bind fun d hd => ih (s := { r.2 with disk := d }) hd)

theorem Told.writei {src : Nat → BitVec 8} {off n : BitVec 32} (h : Told lw d0 s.disk) : Logs lw d0 (writei lw s i src off n) := by
  refine .ite (.ite h ?_) (.ite h (.ite h (h.writeLoop.bind fun s hs => ?_)))
  · split <;> exact h
  · exact .ite ((Told.iupdate (s := s.setInode i _) hs).bind fun _ hs => hs) hs

theorem Told.exec (h : Told lw d0 s.disk) (c : Call) : Leaves lw d0 (exec lw s c) := by
  cases c with
  | idup i => exact h
  | iget n => exact h.iget.bind fun _ hr => hr
  | ialloc type => exact h.ialloc.bind fun _ hr => hr
  | ilock i => exact h.ilock
  | update i major minor nlink => exact Told.iupdate (s := s.setInode i _) h
  | bmap i bn => exact h.bmap.bind fun _ hr => hr
  | readi i off n => exact h.readi.bind fun _ hr => hr
  | writei i src off n => exact h.writei.bind fun _ hr => hr
  | itrunc i => exact h.itrunc
  | iput i => exact h.iput

theorem Told.dirlookupLoop {off : BitVec 32} {name : Dir.Str} (h : Told lw d0 s.disk) :
    Ends Any (fun r => Told lw d0 r.2.disk) (dirlookupLoop lw i name k s off) := by
  induction k generalizing s off with
  | zero => exact h
  | succ k ih =>
    rw [Fs.dirlookupLoop]
    split
    · refine (h.readi.mapError fun _ _ => trivial).bind fun r hr => ?_
      simp only
      split
      · trivial
      · split
        · exact ih hr
        · split
          · exact ((Told.iget hr).mapError fun _ _ => trivial).bind fun _ hr => hr
          · exact ih hr
    · exact h

end Xv6.Fs

namespace Xv6.Sysfile

open Xv6.Lib Xv6.Fs Stable
open Xv6.Dir (Str Dirent)
open Xv6.Ptable (Slot)

variable {L α : Type} {lw : LogWrite L} {d0 : Disk L} {dp ip cwd : Fin NINODE} {name path : Str} {p : Slot}

/-! ## Commands -/

abbrev LogsFs (lw : LogWrite L) (d0 : Disk L) : M L α → Prop := Stable fun s => Told lw d0 s.disk

theorem logs_iput : LogsFs lw d0 (iput lw ip) := Triple.inode fun _ h => h.iput.bind fun _ h => h

theorem logs_ilock : LogsFs lw d0 (ilock ip) := Triple.inode fun _ h => h.ilock.bind fun _ h => h

theorem logs_fields : LogsFs lw d0 (fields ip) := fun _ h => h

theorem logs_inum : LogsFs lw d0 (inum ip) := fun _ h => h

theorem logs_assign {f : Dinode → Dinode} : LogsFs lw d0 (assign ip f) := fun _ h => h

theorem logs_iupdate : LogsFs lw d0 (iupdate lw ip) := Triple.inode fun _ h => h.iupdate.bind fun _ h => h

theorem logs_dirlookup : LogsFs lw d0 (dirlookup lw dp name) := by
  intro s h
  simp only [dirlookup, Fs.dirlookup]
  split
  · trivial
  · exact h.dirlookupLoop

theorem logs_findEntry {e : DirPanic} {f : Dirent → Bool} {k : Nat} {off : BitVec 32} : LogsFs lw d0 (findEntry lw e f dp k off) := by
  induction k generalizing off with
  | zero => exact ret _
  | succ k ih =>
    have hread : LogsFs lw d0 (readi lw dp off 16) := Triple.inode fun _ h => h.readi.bind fun _ h => h
    rw [findEntry]
    exact logs_fields.bind fun _ => ite (hread.bind fun _ => ite (throw _) (ite (ret _) ih)) (ret _)

theorem logs_writeEntry {de : Dirent} {off : BitVec 32} {e : DirPanic} : LogsFs lw d0 (writeEntry lw dp de off e) :=
  bind (Triple.inode fun _ h => h.writei) fun _ => ite (throw _) (ret _)

theorem logs_dirlink {n : Nat} : LogsFs lw d0 (dirlink lw dp name n) := by
  refine logs_dirlookup.bind fun r => ?_
  cases r with
  | some r => exact logs_iput.bind fun _ => ret _
  | none => exact logs_fields.bind fun _ => logs_findEntry.bind fun _ => logs_writeEntry.bind fun _ => ret _

theorem logs_namexLoop {parent : Bool} {k : Nat} : LogsFs lw d0 (namexLoop lw parent k ip path name) := by
  induction k generalizing ip path name with
  | zero => exact ret _
  | succ k ih =>
    rw [namexLoop]
    split
    · exact ite (logs_iput.bind fun _ => ret _) (ret _)
    · refine logs_ilock.bind fun _ => logs_fields.bind fun _ => ite (logs_iput.bind fun _ => ret _) (ite (ret _) ?_)
      refine logs_dirlookup.bind fun r => ?_
      cases r with
      | none => exact logs_iput.bind fun _ => ret _
      | some r => exact logs_iput.bind fun _ => ih

theorem logs_namex {parent : Bool} : LogsFs lw d0 (namex lw cwd path parent) :=
  ite (bind (Triple.inode fun _ h => h.iget) fun _ => logs_namexLoop) (bind (fun _ h => h) fun _ => logs_namexLoop)

theorem logs_mustLink {e : DirPanic} : LogsFs lw d0 (mustLink lw dp name ip e) :=
  logs_inum.bind fun _ => logs_dirlink.bind fun _ => ite (throw _) (ret _)

theorem logs_createNew {type major minor : BitVec 16} : LogsFs lw d0 (createNew lw dp name ip type major minor) := by
  have hdots : LogsFs lw d0 (createDots lw dp ip type) :=
    ite (logs_assign.bind fun _ => logs_iupdate.bind fun _ => logs_mustLink.bind fun _ => logs_mustLink) (ret _)
  refine logs_ilock.bind fun _ => logs_assign.bind fun _ => logs_iupdate.bind fun _ => hdots.bind fun _ => ?_
  exact logs_mustLink.bind fun _ => logs_iput.bind fun _ => ret _

theorem logs_create {type major minor : BitVec 16} : LogsFs lw d0 (create lw cwd path type major minor) := by
  refine logs_namex.bind fun r => ?_
  cases r with
  | none => exact ret _
  | some r =>
    refine logs_ilock.bind fun _ => logs_dirlookup.bind fun q => ?_
    cases q with
    | none => exact bind (Triple.inode fun _ h => h.ialloc) fun _ => logs_createNew
    | some q =>
      refine logs_iput.bind fun _ => logs_ilock.bind fun _ => logs_fields.bind fun _ => ?_
      exact ite (ret _) (logs_iput.bind fun _ => ret _)

/-! ## System calls -/

abbrev LogsSys (lw : LogWrite L) (d0 : Disk L) : SysM L α → Prop := Stable fun t => Told lw d0 t.fs.disk

theorem logs_onFs {x : M L α} (h : LogsFs lw d0 x) : LogsSys lw d0 (onFs x) := by
  refine Triple.zoom fun t ht => ?_
  rintro _ rfl
  exact h t.fs ht

theorem logs_getCwd : LogsSys lw d0 (getCwd p) := fun _ h => h

theorem logs_end {r : Int} : LogsSys lw d0 (do endOp; return r) := bind (fun _ h => h) fun _ => ret _

theorem logs_put {x : SysM L α} (h : LogsSys lw d0 x) : LogsSys lw d0 (do onFs (iput lw ip); x) :=
  (logs_onFs logs_iput).bind fun _ => h

theorem logs_nlinkDown : LogsSys lw d0 (nlinkDown lw ip) := (logs_onFs logs_assign).bind fun _ => logs_onFs logs_iupdate

theorem logs_linkBad : LogsSys lw d0 (linkBad lw ip) :=
  (logs_onFs logs_ilock).bind fun _ => logs_nlinkDown.bind fun _ => logs_put logs_end

theorem logs_sysLink {old new : Option Str} : LogsSys lw d0 (sysLink lw p old new) := by
  cases old with
  | none => exact ret _
  | some old =>
    cases new with
    | none => exact ret _
    | some new =>
      refine bind (fun _ h => h) fun _ => logs_getCwd.bind fun c => ?_
      refine (logs_onFs (logs_namex.bind fun _ => ret _)).bind fun r => ?_
      cases r with
      | none => exact logs_end
      | some ip =>
        refine (logs_onFs logs_ilock).bind fun _ => (logs_onFs logs_fields).bind fun _ => ite (logs_put logs_end) ?_
        refine (logs_onFs logs_assign).bind fun _ => (logs_onFs logs_iupdate).bind fun _ => ?_
        refine logs_getCwd.bind fun c => (logs_onFs logs_namex).bind fun r => ?_
        cases r with
        | none => exact logs_linkBad
        | some r =>
          refine (logs_onFs logs_ilock).bind fun _ => (logs_onFs logs_inum).bind fun _ => (logs_onFs logs_dirlink).bind fun _ => ?_
          exact ite (logs_put logs_linkBad) (logs_put (logs_put logs_end))

theorem logs_unlinkEntry {off : BitVec 32} {dir : Bool} : LogsSys lw d0 (unlinkEntry lw dp ip off dir) :=
  (logs_onFs logs_writeEntry).bind fun _ => (ite logs_nlinkDown (ret _)).bind fun _ => logs_put
    (logs_nlinkDown.bind fun _ => logs_put logs_end)

theorem logs_sysUnlink {path : Option Str} : LogsSys lw d0 (sysUnlink lw p path) := by
  cases path with
  | none => exact ret _
  | some path =>
    have hbad : ∀ dp, LogsSys lw d0 (unlinkBad lw dp) := fun _ => logs_put logs_end
    refine bind (fun _ h => h) fun _ => logs_getCwd.bind fun c => (logs_onFs logs_namex).bind fun r => ?_
    cases r with
    | none => exact logs_end
    | some r =>
      refine (logs_onFs logs_ilock).bind fun _ => ite (hbad _) ((logs_onFs logs_dirlookup).bind fun q => ?_)
      cases q with
      | none => exact hbad _
      | some q =>
        refine (logs_onFs logs_ilock).bind fun _ => (logs_onFs logs_fields).bind fun _ => ite (throw _) (ite ?_ logs_unlinkEntry)
        have hempty : LogsFs lw d0 (isdirempty lw q.2) := logs_fields.bind fun _ => logs_findEntry.bind fun _ => ret _
        exact (logs_onFs hempty).bind fun _ => ite logs_unlinkEntry (logs_put (hbad _))

theorem Op.logs (o : Op) : LogsSys lw d0 (o.cmd lw) := by
  cases o with
  | call c => exact logs_onFs (Triple.inode fun _ h => (h.exec c).bind fun _ h => h)
  | dirlink dp name inum => exact (logs_onFs logs_dirlink).bind fun _ => ret _
  | create p path type major minor => exact logs_getCwd.bind fun _ => (logs_onFs logs_create).bind fun _ => ret _
  | link p old new => exact logs_sysLink.bind fun _ => ret _
  | unlink p path => exact logs_sysUnlink.bind fun _ => ret _

variable {t0 t : Sys L}

theorem Reach.told {ok : Sys L → Op → Prop} (h : Reach (· = t0) (step lw) ok t) : Told lw t0.fs.disk t.fs.disk := by
  refine Reach.inv (P := fun t => Told lw t0.fs.disk t.fs.disk) ?_ ?_ h
  · rintro _ rfl
    exact ⟨[], rfl, fun _ _ => rfl⟩
  · intro t o t' ht _ hst
    simp only [step, Option.map_eq_some_iff] at hst
    obtain ⟨r, hr, rfl⟩ := hst
    cases he : o.cmd lw t with
    | ok a =>
      rw [he] at hr
      cases hr
      exact (o.logs t ht).of_ok he
    | error e =>
      rw [he] at hr
      cases hr

/-- The callers keep to nothing, and the disk may hold anything: every block that the calls have changed has been passed to `log_write`
in one of them. -/
theorem changes_logged {t0 t : Sys (List Nat)} (h : Reach (· = t0) (step record) (fun _ _ => True) t) :
    ∃ bs, t.fs.disk.log = t0.fs.disk.log ++ bs ∧ ∀ b, t.fs.blk b ≠ t0.fs.blk b → b ∈ bs := by
  obtain ⟨bs, hbs, hd⟩ := Reach.told h
  rw [foldlM_record, Option.some.injEq] at hbs
  exact ⟨bs, hbs.symm, fun b hb => not_not.mp (mt (hd b) hb)⟩

/-- The block of a new file. -/
theorem changes_logged_new_file : ∃ t, Reach (· = started) (step record) (fun _ _ => True) t ∧
    t.fs.blk 84 ≠ started.fs.blk 84 ∧ 84 ∈ t.fs.disk.log := by
  obtain ⟨t, ht, hb⟩ := Reach.of_runs (fiveBytes.map Op.call) (fun t => (t.fs.blk 84).get 0 ≠ (started.fs.blk 84).get 0)
    (show Reach (· = started) (step record) (fun _ _ => True) started from .init rfl) (by decide +kernel)
  have hne : t.fs.blk 84 ≠ started.fs.blk 84 := fun he => hb (by rw [he])
  obtain ⟨bs, hbs, hall⟩ := changes_logged ht
  exact ⟨t, ht, hne, by rw [hbs]; exact List.mem_append_right _ (hall 84 hne)⟩

end Xv6.Sysfile
