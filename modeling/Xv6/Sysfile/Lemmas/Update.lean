import Xv6.Sysfile.Lemmas.Refs

/-!
# Calls that write

Each change of a field is followed by `iupdate`, and entries of directories are written at multiples of their size.
-/

namespace Xv6.Sysfile

open Xv6.Lib Xv6.Fs Triple Multiset
open Xv6.Dir (Dirent Str namecmp strncpy DIRSIZ ROOTINO)
open Xv6.Ptable (Slot)

variable {L : Type} {lw : LogWrite L} {b : Fin NINODE → Nat} {l v : Multiset (Fin NINODE)} {s : Fs.State L}
variable {i dp ip : Fin NINODE} {f : Nat → BitVec 8} {z off : Nat} {de : Dirent}

theorem keeps_synced (lw : LogWrite L) (b : Fin NINODE → Nat) : Keeps lw Synced (· < Mkfs.NINODES) b where
  synced _ h := h
  root := by decide
  names _ h n off ht ho hz _ := h.names n ht off ho hz
  gets _ _ _ _ h hn hg := h.gets hn hg
  dup _ _ h hr := h.count hr _
  locks _ _ _ h hk := h.locks hk
  puts _ _ h hr := h.iput (Nat.zero_lt_of_lt hr)

abbrev Is (b : Fin NINODE → Nat) (l v : Multiset (Fin NINODE)) : Fs.State L → Prop := At Synced b l v

/-! ## Entries -/

theorem slot_inum (f : Nat → BitVec 8) (off : Nat) : (slot f off).inum = f (off + 1) ++ f (off + 0) := rfl

theorem slot_splice_self : (slot (splice f (de.bytes.getD · 0) off 16) off).inum = de.inum := by
  have h0 : splice f (de.bytes.getD · 0) off 16 (off + 0) = de.inum.extractLsb' 0 8 := by
    rw [splice, if_pos (by omega), Nat.add_sub_cancel_left]
    rfl
  have h1 : splice f (de.bytes.getD · 0) off 16 (off + 1) = de.inum.extractLsb' 8 8 := by
    rw [splice, if_pos (by omega), Nat.add_sub_cancel_left]
    rfl
  rw [slot_inum, h0, h1, Bytes.half_split]

theorem slot_splice_ne {o : Nat} {src : Nat → BitVec 8} (h : o % 16 = 0) (hoff : off % 16 = 0) (hne : o ≠ off) :
    slot (splice f src off 16) o = slot f o := by
  refine congrArg Dirent.ofBytes (tabulate_congr fun k hk => ?_)
  rw [splice, if_neg (by omega)]

theorem Names.splice (h : Names f z) (hoff : off % 16 = 0) (hz : off ≤ z) (hde : de.inum.toNat < Mkfs.NINODES) :
    Names (splice f (de.bytes.getD · 0) off 16) (max z (off + 16)) := by
  intro o ho hin
  by_cases hne : o = off
  · subst hne
    rw [slot_splice_self]
    exact hde
  · rw [slot_splice_ne ho hoff hne]
    exact h o ho (by omega)

theorem writeEntry_spec {off : BitVec 32} (hd : dp ∈ v) (hoff : off.toNat % 16 = 0) (hde : de.inum.toNat < Mkfs.NINODES)
    (e : DirPanic) : Triple (Is b l v) (writeEntry lw dp de off e) fun _ => Is b l v := by
  rw [writeEntry]
  have hw : Triple (Is b l v) (writei lw dp (de.bytes.getD · 0) off 16) fun _ => Is b l v := by
    refine Triple.inode fun s h => ?_
    refine (h.1.writei (h.2.live h.1 hd) fun ht hz => ?_).imp fun r hr => ⟨hr.1, h.2.steady hr.2⟩
    exact Names.splice (h.1.names _ ht) hoff hz hde
  refine hw.bind fun r => ?_
  exact ite (fun _ => throw) fun _ => ret fun _ h => h

/-! ## Fields -/

/-- Fields of entry `i` have been assigned and not stored yet. -/
def Assigned (b : Fin NINODE → Nat) (l v : Multiset (Fin NINODE)) (i : Fin NINODE) (g : Dinode → Dinode)
    (s : Fs.State L) : Prop :=
  ∃ s0, Is b l v s0 ∧ s = s0.setInode i { s0.inode i with d := g (s0.inode i).d }

theorem assign_spec (i : Fin NINODE) (g : Dinode → Dinode) : Triple (Is b l v) (assign (L := L) i g) fun _ => Assigned b l v i g :=
  fun s h => ⟨s, h, rfl⟩

theorem iupdate_spec {g : Dinode → Dinode} (hi : i ∈ v) (hg : ∀ d, (g d).addrs = d.addrs ∧ (g d).size = d.size ∧ (g d).type = d.type) :
    Triple (Assigned b l v i g) (iupdate lw i) fun _ => Is b l v := by
  refine Triple.inode ?_
  rintro _ ⟨s, h, rfl⟩
  obtain ⟨ha, hz, ht⟩ := hg (s.inode i).d
  have hl := h.2.live h.1 hi
  exact (h.1.save hl ha).to_any.bind fun s' hs => ⟨h.1.saves hl hs hz ht, h.2.steady hs.steady⟩

theorem ialloc_spec (type : BitVec 16) : Triple (Is b l v) (ialloc lw type) fun i => Is b (i ::ₘ l) v := by
  refine Triple.inode fun s h => (h.1.ialloc type).imp ?_
  rintro r ⟨hs, s1, inum, hi, hg⟩
  have hh : Held b l v s1 := h.2.steady fun j => by rw [hi]
  exact ⟨hs, hh.gets hg⟩

/-! ## `dirlink` and `create` -/

theorem dirlink_spec (hd : dp ∈ v) (name : Str) {n : Nat} (hn : n < Mkfs.NINODES) :
    Triple (Is b l v) (dirlink lw dp name n) fun _ => Is b l v := by
  have K := keeps_synced lw b
  have hmod : (BitVec.ofNat 16 n).toNat < Mkfs.NINODES := lt_of_le_of_lt (Nat.mod_le ..) hn
  refine of_pre fun s0 h0 => pre (P := Is b l v) ?_ (by rintro _ rfl; exact h0)
  rw [dirlink]
  refine (K.dirlookup hd name).bind fun r => ?_
  cases r with
  | some r => exact ((K.iput h0.2.sub).pre fun s h => h.2).bind fun _ => ret fun _ h => h
  | none =>
    refine of_pre fun s h => (fields_spec dp).bind fun d => of_pre ?_
    rintro s ⟨rfl, -⟩
    refine (K.findEntry h hd rfl .dirlinkRead _).bind fun r => ?_
    refine of_pre ?_
    rintro s ⟨rfl, hoff⟩
    refine ((writeEntry_spec hd hoff hmod .dirlink).pre ?_).bind fun _ => ret fun _ h => h
    rintro _ rfl
    exact h

theorem inum_lt (hi : i ∈ l) : Triple (Is b l v) (inum (L := L) i) fun n s => n < Mkfs.NINODES ∧ Is b l v s :=
  fun _ h => ⟨h.1.inum i (h.2.pos hi), h⟩

theorem mustLink_spec (hd : dp ∈ v) (hi : i ∈ l) (name : Str) (e : DirPanic) :
    Triple (Is b l v) (mustLink lw dp name i e) fun _ => Is b l v := by
  rw [mustLink]
  refine (inum_lt hi).bind fun n => of_and fun hn => ?_
  refine (dirlink_spec hd name hn).bind fun _ => ?_
  exact ite (fun _ => throw) fun _ => ret fun _ h => h

theorem createDots_spec (hd : dp ∈ v) (hi : ip ∈ v) (hvl : v ≤ l) (type : BitVec 16) :
    Triple (Is b l v) (createDots lw dp ip type) fun _ => Is b l v := by
  rw [createDots]
  refine ite (fun _ => ?_) fun _ => ret fun _ h => h
  refine (assign_spec dp _).bind fun _ => ?_
  refine (iupdate_spec hd (by exact fun _ => ⟨rfl, rfl, rfl⟩)).bind fun _ => ?_
  refine (mustLink_spec hi (mem_of_le hvl hi) _ _).bind fun _ => ?_
  exact mustLink_spec hi (mem_of_le hvl hd) _ _

theorem createNew_spec (hvl : v ≤ l) (name : Str) (type major minor : BitVec 16) :
    Triple (Is b (ip ::ₘ dp ::ₘ l) (dp ::ₘ v)) (createNew lw dp name ip type major minor) (Got Synced b l v) := by
  have K := keeps_synced lw b
  have hsub : ip ::ₘ dp ::ₘ v ≤ ip ::ₘ dp ::ₘ l :=
    (cons_le_cons_iff ip).mpr ((cons_le_cons_iff dp).mpr hvl)
  have hip : ip ∈ ip ::ₘ dp ::ₘ v := mem_cons_self ip _
  have hdp : dp ∈ ip ::ₘ dp ::ₘ v := mem_cons_of_mem (mem_cons_self dp v)
  rw [createNew]
  refine (K.ilock hsub).bind fun _ => ?_
  refine (assign_spec ip _).bind fun _ => ?_
  refine (iupdate_spec hip (by exact fun _ => ⟨rfl, rfl, rfl⟩)).bind fun _ => ?_
  refine (createDots_spec hdp hip hsub type).bind fun _ => ?_
  refine (mustLink_spec hdp (mem_of_le hsub hip) _ _).bind fun _ => ?_
  refine (K.iunlockput.pre fun s h => h.unlock.swap).bind fun _ => ret fun _ h => h

theorem create_spec {cwd : Fin NINODE} (hc : 0 < b cwd) (hvl : v ≤ l) (path : Str) (type major minor : BitVec 16) :
    Triple (Is b l v) (create lw cwd path type major minor) (Got Synced b l v) := by
  have K := keeps_synced lw b
  rw [create]
  refine (K.nameiparent hc hvl path).bind fun r => ?_
  cases r with
  | none => exact ret fun _ h => h
  | some r =>
    obtain ⟨dp, name⟩ := r
    refine (K.ilock ((cons_le_cons_iff dp).mpr hvl)).bind fun _ => ?_
    refine (K.dirlookup (mem_cons_self dp v) name).bind fun r => ?_
    cases r with
    | none => exact (ialloc_spec type).bind fun ip => createNew_spec hvl name type major minor
    | some r =>
      obtain ⟨off, ip⟩ := r
      refine (K.iunlockput.pre fun s h => h.2.swap).bind fun _ => ?_
      refine (K.ilock ((cons_le_cons_iff ip).mpr hvl)).bind fun _ => ?_
      refine (fields_keep ip).bind fun d => ?_
      refine ite (fun _ => ret fun _ h => h.unlock) fun _ => ?_
      exact K.iunlockput.bind fun _ => ret fun _ h => h

/-! ## `link` and `unlink` -/

variable {t0 : Sys L} {k : Nat} {p : Slot}

theorem nlinkDown_spec (hi : i ∈ v) : Triple (On t0 k (Is b l v)) (nlinkDown lw i) fun _ => On t0 k (Is b l v) :=
  (onFs_spec (assign_spec i _)).bind fun _ => onFs_spec (iupdate_spec hi fun _ => ⟨rfl, rfl, rfl⟩)

theorem linkBad_spec : Triple (On t0 (k + 1) (Is b {ip} 0)) (linkBad lw ip) fun _ => On t0 k (Is b 0 0) := by
  have K := keeps_synced lw b
  rw [linkBad]
  refine (onFs_spec (K.ilock le_rfl)).bind fun _ => ?_
  refine (nlinkDown_spec (mem_singleton_self ip)).bind fun _ => ?_
  refine (onFs_spec (K.iunlockput (l := 0) (v := 0))).bind fun _ => ?_
  exact endOp_spec.bind fun _ => ret fun _ h => h

theorem sysLink_spec (hc : 0 < b (t0.cwd p)) (old new : Option Str) :
    Triple (On t0 k (Is b 0 0)) (sysLink lw p old new) fun _ => On t0 k (Is b 0 0) := by
  have K := keeps_synced lw b
  cases old with
  | none => exact ret fun _ h => h
  | some old =>
    cases new with
    | none => exact ret fun _ h => h
    | some new =>
      simp only [sysLink]
      refine beginOp_spec.bind fun _ => ?_
      refine (getCwd_spec p).bind fun c => of_and ?_
      rintro rfl
      refine (onFs_spec (K.namei hc le_rfl old)).bind fun r => ?_
      cases r with
      | none => exact endOp_spec.bind fun _ => ret fun _ h => h
      | some ip =>
        refine (onFs_spec (K.ilock le_rfl)).bind fun _ => ?_
        refine (onFs_spec (fields_keep ip)).bind fun d => ?_
        refine ite (fun _ => ?_) fun _ => ?_
        · refine (onFs_spec K.iunlockput).bind fun _ => ?_
          exact endOp_spec.bind fun _ => ret fun _ h => h
        · refine (onFs_spec (assign_spec ip _)).bind fun _ => ?_
          refine (onFs_spec (iupdate_spec (mem_singleton_self ip) (by exact fun _ => ⟨rfl, rfl, rfl⟩))).bind fun _ => ?_
          refine (getCwd_spec p).bind fun c => of_and ?_
          rintro rfl
          refine (onFs_spec (K.nameiparent hc le_rfl new)).bind fun r => ?_
          cases r with
          | none => exact linkBad_spec.pre fun t h => ⟨h.1.unlock, h.2⟩
          | some r =>
            obtain ⟨dp, name⟩ := r
            have hip : ip ∈ dp ::ₘ {ip} := mem_cons_of_mem (mem_singleton_self ip)
            refine (onFs_spec (K.ilock le_rfl)).bind fun _ => ?_
            refine (onFs_spec (inum_lt hip)).bind fun n => On.of_and fun hn => ?_
            refine (onFs_spec (dirlink_spec (mem_cons_self dp _) name hn)).bind fun r => ?_
            refine ite (fun _ => ?_) fun _ => ?_
            · refine (onFs_spec K.iunlockput).bind fun _ => ?_
              exact linkBad_spec.pre fun t h => ⟨h.1.unlock, h.2⟩
            · refine (onFs_spec K.iunlockput).bind fun _ => ?_
              refine (onFs_spec K.iunlockput).bind fun _ => ?_
              exact endOp_spec.bind fun _ => ret fun _ h => h

theorem unlinkBad_spec : Triple (On t0 (k + 1) (Is b {dp} {dp})) (unlinkBad lw dp) fun _ => On t0 k (Is b 0 0) := by
  rw [unlinkBad]
  refine (onFs_spec ((keeps_synced lw b).iunlockput (l := 0) (v := 0))).bind fun _ => ?_
  exact endOp_spec.bind fun _ => ret fun _ h => h

theorem unlinkEntry_spec {off : BitVec 32} (hoff : off.toNat % 16 = 0) (dir : Bool) :
    Triple (On t0 (k + 1) (Is b (ip ::ₘ {dp}) (ip ::ₘ {dp}))) (unlinkEntry lw dp ip off dir) fun _ => On t0 k (Is b 0 0) := by
  have K := keeps_synced lw b
  have hdp : dp ∈ ip ::ₘ {dp} := mem_cons_of_mem (mem_singleton_self dp)
  rw [unlinkEntry]
  refine (onFs_spec (writeEntry_spec hdp hoff (by decide) _)).bind fun _ => ?_
  refine bind (Q := fun _ => On t0 (k + 1) (Is b (ip ::ₘ {dp}) (ip ::ₘ {dp}))) ?_ fun _ => ?_
  · exact ite (fun _ => nlinkDown_spec hdp) fun _ => ret fun _ h => h
  · have hswap : ip ::ₘ {dp} = dp ::ₘ {ip} := cons_swap ip dp 0
    rw [hswap]
    refine (onFs_spec K.iunlockput).bind fun _ => ?_
    refine (nlinkDown_spec (mem_singleton_self ip)).bind fun _ => ?_
    refine (onFs_spec (K.iunlockput (l := 0) (v := 0))).bind fun _ => ?_
    exact endOp_spec.bind fun _ => ret fun _ h => h

theorem sysUnlink_spec (hc : 0 < b (t0.cwd p)) (path : Option Str) :
    Triple (On t0 k (Is b 0 0)) (sysUnlink lw p path) fun _ => On t0 k (Is b 0 0) := by
  have K := keeps_synced lw b
  cases path with
  | none => exact ret fun _ h => h
  | some path =>
    simp only [sysUnlink]
    refine beginOp_spec.bind fun _ => ?_
    refine (getCwd_spec p).bind fun c => of_and ?_
    rintro rfl
    refine (onFs_spec (K.nameiparent hc le_rfl path)).bind fun r => ?_
    cases r with
    | none => exact endOp_spec.bind fun _ => ret fun _ h => h
    | some r =>
      obtain ⟨dp, name⟩ := r
      refine (onFs_spec (K.ilock le_rfl)).bind fun _ => ?_
      refine ite (fun _ => unlinkBad_spec) fun _ => ?_
      refine (onFs_spec (K.dirlookup (mem_singleton_self dp) name)).bind fun r => ?_
      cases r with
      | none => exact unlinkBad_spec
      | some r =>
        obtain ⟨off, ip⟩ := r
        refine On.of_and fun hoff => ?_
        refine (onFs_spec (K.ilock le_rfl)).bind fun _ => ?_
        refine (onFs_spec (fields_keep ip)).bind fun d => ?_
        refine ite (fun _ => throw) fun _ => ite (fun _ => ?_) fun _ => unlinkEntry_spec hoff false
        refine (onFs_spec (K.isdirempty (mem_cons_self ip _))).bind fun r => ?_
        refine ite (fun _ => unlinkEntry_spec hoff true) fun _ => ?_
        exact (onFs_spec K.iunlockput).bind fun _ => unlinkBad_spec

end Xv6.Sysfile
