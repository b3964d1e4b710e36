import Mathlib.Data.Multiset.Count
import Xv6.Fs.Lemmas.Synced
import Xv6.Sysfile.Model

/-!
# References that a call holds

The assertions say which references a call holds on top of those of others, with a property `P` that the operations keep.
-/

namespace Xv6.Sysfile

open Xv6.Lib Xv6.Fs
open Xv6.Dir (Dirent Str namecmp skipelem slash ROOTINO)
open Xv6.Ptable (Slot)

variable {L : Type} {lw : LogWrite L} {P : Fs.State L → Prop} {N : Nat → Prop} {b : Fin NINODE → Nat}
variable {l v w : Multiset (Fin NINODE)} {s s' : Fs.State L} {i j dp ip : Fin NINODE}

/-- The call holds the references `l` and has locked `v`; `b` counts the references of the others. -/
structure Held (b : Fin NINODE → Nat) (l v : Multiset (Fin NINODE)) (s : Fs.State L) : Prop where
  ref : ∀ i, (s.inode i).ref = b i + l.count i
  sub : v ≤ l
  valid : ∀ i ∈ v, (s.inode i).valid = true

def At (P : Fs.State L → Prop) (b : Fin NINODE → Nat) (l v : Multiset (Fin NINODE)) (s : Fs.State L) : Prop :=
  P s ∧ Held b l v s

/-! ## Counting -/

theorem Held.pos (h : Held b l v s) (hi : i ∈ l) : 0 < (s.inode i).ref := by
  have := Multiset.one_le_count_iff_mem.mpr hi
  rw [h.ref]
  omega

theorem Held.pos_of_locked (h : Held b l v s) (hi : i ∈ v) : 0 < (s.inode i).ref := h.pos (Multiset.mem_of_le h.sub hi)

theorem Held.live (h : Held b l v s) (hs : Synced s) (hi : i ∈ v) :
    Live s i ⟨(s.inode i).inum, hs.inum i (h.pos_of_locked hi)⟩ := ⟨h.pos_of_locked hi, h.valid i hi, rfl⟩

theorem At.weaken (h : At P b l v s) (hw : w ≤ v) : At P b l w s :=
  ⟨h.1, h.2.ref, hw.trans h.2.sub, fun i hi => h.2.valid i (Multiset.mem_of_le hw hi)⟩

theorem At.unlock (h : At P b l (i ::ₘ v) s) : At P b l v s := h.weaken (Multiset.le_cons_self v i)

theorem Held.gets {inum : Nat} (h : Held b l v s) (hg : Gets s inum i s') : Held b (i ::ₘ l) v s' := by
  cases hg with
  | old hr hn =>
    refine ⟨fun j => ?_, h.sub.trans (Multiset.le_cons_self l i), fun j hj => ?_⟩
    · by_cases hji : j = i
      · subst hji
        rw [inode_setInode_self, Multiset.count_cons_self, h.ref]
        rfl
      · rw [inode_setInode_ne hji, Multiset.count_cons_of_ne hji, h.ref]
    · by_cases hji : j = i
      · subst hji
        rw [inode_setInode_self]
        exact h.valid j hj
      · rw [inode_setInode_ne hji]
        exact h.valid j hj
  | new hr hno =>
    refine ⟨fun j => ?_, h.sub.trans (Multiset.le_cons_self l i), fun j hj => ?_⟩
    · by_cases hji : j = i
      · subst hji
        have := h.ref j
        rw [inode_setInode_self, Multiset.count_cons_self]
        change 1 = _
        omega
      · rw [inode_setInode_ne hji, Multiset.count_cons_of_ne hji, h.ref]
    · have hji : j ≠ i := by
        rintro rfl
        have := h.pos_of_locked hj
        omega
      rw [inode_setInode_ne hji]
      exact h.valid j hj

theorem Held.locks (h : Held b l v s) (hk : Locks s i s') (hi : i ::ₘ v ≤ l) : Held b l (i ::ₘ v) s' := by
  have he := hk.entry
  refine ⟨fun j => ?_, hi, fun j hj => ?_⟩
  · by_cases hji : j = i
    · subst hji
      rw [he, inode_setInode_self]
      exact h.ref j
    · rw [he, inode_setInode_ne hji]
      exact h.ref j
  · by_cases hji : j = i
    · subst hji
      exact hk.valid
    · rw [he, inode_setInode_ne hji]
      exact h.valid j ((Multiset.mem_cons.mp hj).resolve_left hji)

theorem Held.drops (h : Held b (i ::ₘ l) v s) (hd : Drops s i s') (hw : w ≤ l) (hv : ∀ j ∈ w, j ∈ v) : Held b l w s' := by
  refine ⟨fun j => ?_, hw, fun j hj => ?_⟩
  · by_cases hji : j = i
    · subst hji
      have := h.ref j
      rw [Multiset.count_cons_self] at this
      rw [hd.ref]
      omega
    · rw [hd.other j hji, h.ref, Multiset.count_cons_of_ne hji]
  · by_cases hji : j = i
    · subst hji
      -- another reference is left, so that the inode is not freed
      have hn : ¬ Frees s j := by
        rintro ⟨_, _, h1⟩
        have h2 := h.ref j
        have h3 := Multiset.one_le_count_iff_mem.mpr (Multiset.mem_of_le hw hj)
        rw [Multiset.count_cons_self] at h2
        omega
      rw [hd.keep hn, inode_setInode_self]
      exact h.valid j (hv j hj)
    · rw [hd.other j hji]
      exact h.valid j (hv j hj)

theorem Held.steady (h : Held b l v s) (hs : Steady s s') : Held b l v s' :=
  ⟨fun j => by rw [hs j]; exact h.ref j, h.sub, fun j hj => by rw [hs j]; exact h.valid j hj⟩

/-! ## What the operations on references keep -/

/-- The property `P` survives the operations that look for a file; `N` holds of the inode numbers that they find. -/
structure Keeps (lw : LogWrite L) (P : Fs.State L → Prop) (N : Nat → Prop) (b : Fin NINODE → Nat) : Prop where
  synced : ∀ s, P s → Synced s
  root : N ROOTINO
  names : ∀ s, P s → ∀ n off, (view s n).type = T_DIR → off % 16 = 0 → off + 16 ≤ (view s n).size.toNat →
    (slot (byteAt s n) off).inum ≠ 0 → N (slot (byteAt s n) off).inum.toNat
  gets : ∀ s s' n i, P s → N n → Gets s n i s' → P s'
  dup : ∀ s i, P s → 0 < (s.inode i).ref → P (Fs.idup s i)
  locks : ∀ s s' i, P s → Locks s i s' → P s'
  puts : ∀ s i, P s → b i < (s.inode i).ref → Ends Any (fun s' => P s' ∧ Drops s i s') (Fs.iput lw s i)

theorem Triple.inode {α : Type} {f : Fs.State L → Except Fs.Panic (α × Fs.State L)} {A : Fs.State L → Prop}
    {B : α → Fs.State L → Prop} (h : ∀ s, A s → Ends Any (fun r => B r.1 r.2) (f s)) : Triple A (inode f) B :=
  fun s hs => (h s hs).mapError fun _ _ => trivial

section

variable (K : Keeps lw P N b) {off : BitVec 32} {name path : Str} {cwd : Fin NINODE}

include K

theorem Keeps.iget {n : Nat} (hn : N n) : Triple (At P b l v) (iget n) fun i => At P b (i ::ₘ l) v :=
  Triple.inode fun s h => (gets_iget s n).imp fun _ hr => ⟨K.gets s _ n _ h.1 hn hr, h.2.gets hr⟩

theorem Keeps.idup (hi : 0 < b i + l.count i) : Triple (At P b l v) (idup i) fun _ => At P b (i ::ₘ l) v := by
  refine Triple.inode fun s h => ?_
  have hr : 0 < (s.inode i).ref := by rw [h.2.ref]; exact hi
  exact ⟨K.dup s i h.1 hr, h.2.gets (.old hr rfl)⟩

theorem Keeps.ilock (hi : i ::ₘ v ≤ l) : Triple (At P b l v) (ilock i) fun _ => At P b l (i ::ₘ v) :=
  Triple.inode fun s h => (locks_ilock s i).bind fun s' hk => ⟨K.locks s s' i h.1 hk, h.2.locks hk hi⟩

theorem Keeps.iputAny (hw : w ≤ l) (hv : ∀ j ∈ w, j ∈ v) : Triple (At P b (i ::ₘ l) v) (iput lw i) fun _ => At P b l w := by
  refine Triple.inode fun s h => ?_
  have hr := h.2.ref i
  rw [Multiset.count_cons_self] at hr
  exact (K.puts s i h.1 (by omega)).bind fun s' hs => ⟨hs.1, h.2.drops hs.2 hw hv⟩

theorem Keeps.iput (hv : v ≤ l) : Triple (At P b (i ::ₘ l) v) (iput lw i) fun _ => At P b l v := K.iputAny hv fun _ => id

theorem Keeps.iunlockput : Triple (At P b (i ::ₘ l) (i ::ₘ v)) (Sysfile.iput lw i) fun _ => At P b l v := by
  intro s h
  have hv : v ≤ l := (Multiset.cons_le_cons_iff i).mp h.2.sub
  exact K.iputAny (v := i ::ₘ v) hv (fun _ hj => Multiset.mem_cons_of_mem hj) s h

/-! ## Directories -/

omit K in
theorem fields_keep {A : Fs.State L → Prop} (i : Fin NINODE) : Triple A (fields i) fun _ => A := fun _ h => h

omit K in
theorem fields_spec (i : Fin NINODE) : Triple (· = s) (fields i) fun d s' => s' = s ∧ d = (s.inode i).d := by
  rintro _ rfl
  exact ⟨rfl, rfl⟩

def Looked (P : Fs.State L → Prop) (b : Fin NINODE → Nat) (l v : Multiset (Fin NINODE)) :
    Option (BitVec 32 × Fin NINODE) → Fs.State L → Prop
  | none, s => At P b l v s
  | some (off, ip), s => off.toNat % 16 = 0 ∧ At P b (ip ::ₘ l) v s

omit K in
theorem add_sixteen_mod (h : off.toNat % 16 = 0) : (off + 16).toNat % 16 = 0 := by
  have : (16 : BitVec 32).toNat = 16 := rfl
  rw [BitVec.toNat_add]
  omega

theorem Keeps.entry (h : At P b l v s) (hd : dp ∈ v) (ht : (s.inode dp).d.type = T_DIR)
    (hoff : off.toNat % 16 = 0) : ∃ r bytes, Fs.readi lw s dp off 16 = .ok (r, bytes, s) ∧
      (r = 16 → (Dirent.ofBytes bytes).inum ≠ 0 → N (Dirent.ofBytes bytes).inum.toNat) := by
  have hs := K.synced s h.1
  have hl := h.2.live hs hd
  have hview := hs.view_live hl
  obtain ⟨r, bytes, he, hb⟩ := hs.readi lw hl off 16
  refine ⟨r, bytes, he, fun hr hne => ?_⟩
  obtain ⟨hin, rfl⟩ := hb (by rw [hview]; exact ht) (by rw [hr]; rfl) (by decide)
  exact K.names s h.1 _ _ (by rw [hview]; exact ht) hoff hin hne

theorem Keeps.dirlookupLoop {k : Nat} (h : At P b l v s) (hd : dp ∈ v) (ht : (s.inode dp).d.type = T_DIR) (hoff : off.toNat % 16 = 0) :
    Ends Any (fun r => Looked P b l v r.1 r.2) (dirlookupLoop lw dp name k s off) := by
  induction k generalizing off with
  | zero => exact h
  | succ k ih =>
    rw [Fs.dirlookupLoop]
    split
    · obtain ⟨r, bytes, he, hn⟩ := K.entry h hd ht hoff
      simp only [he, Except.mapError, bind, Except.bind]
      split
      · trivial
      · rename_i hr
        rw [not_not] at hr
        split
        · exact ih (add_sixteen_mod hoff)
        · rename_i hz
          split
          · have hg := K.iget (n := (Dirent.ofBytes bytes).inum.toNat) (hn hr hz) s h
            exact hg.bind fun r hr => ⟨hoff, hr⟩
          · exact ih (add_sixteen_mod hoff)
    · exact h

theorem Keeps.dirlookup (hd : dp ∈ v) (name : Str) : Triple (At P b l v) (dirlookup lw dp name) (Looked P b l v) := by
  intro s h
  simp only [Sysfile.dirlookup, Fs.dirlookup]
  split
  · trivial
  · rename_i ht
    exact K.dirlookupLoop h hd (not_not.mp ht) rfl

theorem Keeps.findEntry {k : Nat} (h : At P b l v s) (hd : dp ∈ v) (hoff : off.toNat % 16 = 0) (e : DirPanic) (f : Dirent → Bool) :
    Triple (· = s) (findEntry lw e f dp k off) fun r s' => s' = s ∧ r.2.toNat % 16 = 0 := by
  have hs := K.synced s h.1
  induction k generalizing off with
  | zero => exact Triple.ret fun _ he => ⟨he, hoff⟩
  | succ k ih =>
    rw [Sysfile.findEntry]
    refine (fields_spec dp).bind fun d => Triple.of_pre ?_
    rintro s ⟨rfl, -⟩
    refine Triple.ite (fun _ => ?_) fun _ => Triple.ret fun _ he => ⟨he, hoff⟩
    have hread : Triple (· = s) (Sysfile.readi lw dp off 16) fun _ s' => s' = s := by
      obtain ⟨r, bytes, he, -⟩ := hs.readi lw (h.2.live hs hd) off 16
      rintro _ rfl
      simp only [Sysfile.readi, inode, he]
      rfl
    refine hread.bind fun r => ?_
    refine Triple.ite (fun _ => Triple.throw) fun _ => ?_
    exact Triple.ite (fun _ => Triple.ret fun _ he => ⟨he, hoff⟩) fun _ => ih (add_sixteen_mod hoff)

theorem Keeps.isdirempty (hd : dp ∈ v) : Triple (At P b l v) (isdirempty lw dp) fun _ => At P b l v := by
  refine Triple.of_pre fun s h => ?_
  rw [Sysfile.isdirempty]
  refine (fields_spec dp).bind fun d => Triple.of_pre ?_
  rintro _ ⟨rfl, -⟩
  refine (K.findEntry h hd rfl .isdirempty _).bind fun r => Triple.ret ?_
  rintro _ ⟨rfl, -⟩
  exact h

/-! ## Paths -/

omit K in
theorem skipelem_length {rest : Str} (h : skipelem path = some (name, rest)) : rest.length < path.length := by
  simp only [skipelem] at h
  split at h
  · cases h
  · rename_i hne
    simp only [Option.some.injEq, Prod.mk.injEq] at h
    obtain ⟨-, rfl⟩ := h
    generalize hs : path.dropWhile (· = slash) = t at hne
    have ht : t.length ≤ path.length := hs ▸ (List.dropWhile_sublist _).length_le
    refine lt_of_le_of_lt (List.dropWhile_sublist _).length_le ?_
    cases t with
    | nil => exact absurd rfl hne
    | cons c t =>
      have hc : c ≠ slash := by
        have := List.head_dropWhile_not (fun c : BitVec 8 => decide (c = slash)) (by rw [hs]; exact List.cons_ne_nil _ _)
        simpa [hs] using this
      have : 0 < ((c :: t).takeWhile fun c => c ≠ slash ∧ c ≠ 0).length := by
        rw [List.takeWhile_cons, if_pos (by simpa using ⟨hc, hne⟩)]
        exact Nat.succ_pos _
      rw [List.length_drop]
      simp only [List.length_cons] at ht ⊢
      omega

def Walked (P : Fs.State L → Prop) (b : Fin NINODE → Nat) (l v : Multiset (Fin NINODE)) {α : Type} :
    Option (Fin NINODE × α) → Fs.State L → Prop
  | none, s => At P b l v s
  | some (ip, _), s => At P b (ip ::ₘ l) v s

omit K in
theorem At.swap (h : At P b (i ::ₘ j ::ₘ l) v s) : At P b (j ::ₘ i ::ₘ l) v s := by
  rwa [Multiset.cons_swap] at h

theorem Keeps.namexLoop (parent : Bool) {k : Nat} (hv : v ≤ l) (hk : path.length < k) :
    Triple (At P b (ip ::ₘ l) v) (namexLoop lw parent k ip path name) (Walked P b l v) := by
  induction k generalizing ip path name with
  | zero => exact absurd hk (Nat.not_lt_zero _)
  | succ k ih =>
    rw [Sysfile.namexLoop]
    cases hp : skipelem path with
    | none =>
      refine Triple.ite (fun _ => ?_) fun _ => Triple.ret fun _ h => h
      exact (K.iput hv).bind fun _ => Triple.ret fun _ h => h
    | some r =>
      obtain ⟨elem, rest⟩ := r
      have hrest := skipelem_length hp
      refine (K.ilock ((Multiset.cons_le_cons_iff ip).mpr hv)).bind fun _ => ?_
      refine (fields_keep ip).bind fun d => ?_
      refine Triple.ite (fun _ => ?_) fun _ => Triple.ite (fun _ => ?_) fun _ => ?_
      · exact K.iunlockput.bind fun _ => Triple.ret fun _ h => h
      · exact Triple.ret fun _ h => h.unlock
      · refine (K.dirlookup (Multiset.mem_cons_self ip v) elem).bind fun r => ?_
        cases r with
        | none => exact K.iunlockput.bind fun _ => Triple.ret fun _ h => h
        | some r =>
          obtain ⟨off, next⟩ := r
          refine (K.iunlockput.pre fun s h => h.2.swap).bind fun _ => ?_
          exact ih (lt_of_lt_of_le hrest (Nat.lt_succ_iff.mp hk))

theorem Keeps.namex (hc : 0 < b cwd) (hv : v ≤ l) (path : Str) (parent : Bool) :
    Triple (At P b l v) (namex lw cwd path parent) (Walked P b l v) := by
  rw [Sysfile.namex]
  refine Triple.ite (fun _ => ?_) fun _ => ?_
  · exact (K.iget K.root).bind fun _ => K.namexLoop parent hv (Nat.lt_succ_self _)
  · exact (K.idup (Nat.add_pos_left hc _)).bind fun _ => K.namexLoop parent hv (Nat.lt_succ_self _)

def Got (P : Fs.State L → Prop) (b : Fin NINODE → Nat) (l v : Multiset (Fin NINODE)) :
    Option (Fin NINODE) → Fs.State L → Prop
  | none, s => At P b l v s
  | some ip, s => At P b (ip ::ₘ l) v s

theorem Keeps.namei (hc : 0 < b cwd) (hv : v ≤ l) (path : Str) : Triple (At P b l v) (namei lw cwd path) (Got P b l v) := by
  refine (K.namex hc hv path false).bind fun r => Triple.ret fun s h => ?_
  cases r with
  | none => exact h
  | some r => exact h

theorem Keeps.nameiparent (hc : 0 < b cwd) (hv : v ≤ l) (path : Str) :
    Triple (At P b l v) (nameiparent lw cwd path) (Walked P b l v) := K.namex hc hv path true

end

/-! ## System calls -/

section

variable {α : Type} {A : Fs.State L → Prop} {t0 : Sys L} {k : Nat} {p : Slot}

/-- Everything but the file system and `log.outstanding` is as in `t0`. -/
def On (t0 : Sys L) (k : Nat) (A : Fs.State L → Prop) (t : Sys L) : Prop :=
  A t.fs ∧ t = { t0 with fs := t.fs, outstanding := k }

theorem onFs_spec {x : M L α} {B : α → Fs.State L → Prop} (h : Triple A x B) : Triple (On t0 k A) (onFs x) fun a => On t0 k (B a) := by
  refine Triple.zoom fun t ht => ?_
  rintro _ rfl
  refine (h t.fs ht.1).imp fun r hr => ⟨hr, ?_⟩
  rw [ht.2]

theorem On.of_and {c : Prop} {x : SysM L α} {B : α → Sys L → Prop} (h : c → Triple (On t0 k A) x B) :
    Triple (On t0 k fun s => c ∧ A s) x B := fun t ht => h ht.1.1 t ⟨ht.1.2, ht.2⟩

theorem beginOp_spec : Triple (On t0 k A) beginOp fun _ => On t0 (k + 1) A := by
  intro t ht
  refine ⟨ht.1, ?_⟩
  rw [ht.2]

theorem endOp_spec : Triple (On t0 (k + 1) A) endOp fun _ => On t0 k A := by
  intro t ht
  refine ⟨ht.1, ?_⟩
  rw [ht.2]
  rfl

theorem getCwd_spec (p : Slot) : Triple (On t0 k A) (getCwd p) fun c t => c = t0.cwd p ∧ On t0 k A t := by
  intro t ht
  refine ⟨?_, ht⟩
  rw [ht.2]

end

end Xv6.Sysfile
