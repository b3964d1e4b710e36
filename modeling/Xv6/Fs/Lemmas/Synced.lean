import Xv6.Fs.Lemmas.Lookup
import Xv6.Fs.Lemmas.Run

/-!
# The cache and the disk agree

`bmap` changes addresses in the cache only, but only those of blocks beyond the size of the file, and then `writei` stores the inode.
-/

namespace Xv6.Fs

open Xv6.Lib Function BitVec Fs Dinode
open Xv6.Dir (Dirent)

variable {L : Type} {lw : LogWrite L} {s s' s1 : State L} {i j : Fin NINODE} {n m : Inum}
variable {src : Nat → BitVec 8}

def Names (f : Nat → BitVec 8) (z : Nat) : Prop :=
  ∀ off, off % 16 = 0 → off + 16 ≤ z → (slot f off).inum.toNat < Mkfs.NINODES

structure Synced (s : State L) : Prop extends Inv s where
  same : ∀ i n, Live s i n → (s.inode i).d = s.disk.dinode n
  type : ∀ i n, Live s i n → (s.inode i).d.type ≠ 0
  full : ∀ n bn, bn * BSIZE < (view s n).size.toNat → dataRef s n bn ≠ 0
  names : ∀ n, (view s n).type = T_DIR → Names (byteAt s n) (view s n).size.toNat

/-- Every inode has all blocks of its first `size` bytes, and directories name inodes. -/
structure Whole (s : State L) : Prop where
  full : ∀ n bn, bn * BSIZE < (view s n).size.toNat → dataRef s n bn ≠ 0
  names : ∀ n, (view s n).type = T_DIR → Names (byteAt s n) (view s n).size.toNat

theorem synced_of_unused (hi : Inv s) (hw : Whole s) (h : ∀ i, (s.inode i).ref = 0) : Synced s :=
  ⟨hi, fun i _ hl => absurd hl.ref (by rw [h i]; exact lt_irrefl 0),
    fun i _ hl => absurd hl.ref (by rw [h i]; exact lt_irrefl 0), hw.full, hw.names⟩

theorem names_iff (f : Nat → BitVec 8) (z : Nat) : Names f z ↔ ∀ k, k < z / 16 → (slot f (16 * k)).inum.toNat < Mkfs.NINODES := by
  refine ⟨fun h k hk => h (16 * k) (Nat.mul_mod_right ..) (by omega), fun h off hoff hz => ?_⟩
  have := h (off / 16) (by omega)
  rwa [Nat.mul_div_cancel' (Nat.dvd_of_mod_eq_zero hoff)] at this

instance (f : Nat → BitVec 8) (z : Nat) : Decidable (Names f z) := decidable_of_iff _ (names_iff f z).symm

theorem view_of_same (h : ∀ i, Live s i n → (s.inode i).d = s.disk.dinode n) : view s n = s.disk.dinode n := by
  unfold view
  split
  · rename_i i hi
    exact h i (of_decide_eq_true (List.find?_some hi :))
  · rfl

theorem Synced.view (h : Synced s) (n : Inum) : view s n = s.disk.dinode n :=
  view_of_same fun i => h.same i n

def Kept (s s' : State L) (n : Inum) : Prop :=
  (view s' n).size = 0 ∨ ((view s' n).size = (view s n).size ∧ (view s' n).type = (view s n).type ∧
    (∀ bn, dataRef s n bn ≠ 0 → dataRef s' n bn ≠ 0) ∧ byteAt s' n = byteAt s n)

theorem kept_of_view (h : Core s) (hv : view s' n = view s n) (hblk : ∀ x, Mkfs.nmeta ≤ x → s'.blk x = s.blk x) : Kept s s' n := by
  obtain ⟨hr, hb⟩ := byteAt_congr h (congrArg addrs hv) hblk
  exact .inr ⟨by rw [hv], by rw [hv], fun bn => by rw [hr]; exact id, hb⟩

theorem Synced.kept (h : Synced s) (hinv : Inv s') (hsame : ∀ i n, Live s' i n → (s'.inode i).d = s'.disk.dinode n)
    (htype : ∀ i n, Live s' i n → (s'.inode i).d.type ≠ 0) (hk : ∀ n, Kept s s' n) : Synced s' := by
  refine ⟨hinv, hsame, htype, fun n bn hbn => ?_, fun n ht => ?_⟩
  · rcases hk n with hz | ⟨hz, _, hr, _⟩
    · rw [hz] at hbn
      exact absurd hbn (Nat.not_lt_zero _)
    · rw [hz] at hbn
      exact hr bn (h.full n bn hbn)
  · rcases hk n with hz | ⟨hz, ht', _, hb⟩
    · rw [hz]
      exact fun off _ ho => absurd ho (Nat.not_succ_le_zero _)
    · rw [hz, hb]
      exact h.names n (ht' ▸ ht)

/-! ## Entries of the cache -/

theorem Synced.setInode {ip : Inode} (h : Synced s) (hinv : Inv (s.setInode i ip))
    (hi : ∀ m, Live (s.setInode i ip) i m → ip.d = s.disk.dinode m ∧ ip.d.type ≠ 0) : Synced (s.setInode i ip) := by
  have hlive : ∀ j m, Live (s.setInode i ip) j m → ((s.setInode i ip).inode j).d = s.disk.dinode m ∧
      ((s.setInode i ip).inode j).d.type ≠ 0 := by
    intro j m hj
    by_cases hji : j = i
    · subst hji
      rw [inode_setInode_self]
      exact hi m hj
    · have hj' := (live_setInode_ne hji).mp hj
      rw [inode_setInode_ne hji]
      exact ⟨h.same j m hj', h.type j m hj'⟩
  have hview : Fs.view (s.setInode i ip) = Fs.view s := by
    funext m
    rw [h.view, view_of_same fun j hj => (hlive j m hj).1]
    rfl
  exact h.kept hinv (fun j m hj => (hlive j m hj).1) (fun j m hj => (hlive j m hj).2) fun m =>
    kept_of_view h.toCore (congrFun hview m) fun _ _ => rfl

theorem Synced.count (h : Synced s) (hr : 0 < (s.inode i).ref) (k : Nat) : Synced (s.setInode i { s.inode i with ref := k }) := by
  have ht := h.touch hr { s.inode i with ref := k } rfl id rfl
  refine h.setInode ht.1 fun m hm => ?_
  have hl : Live s i m := by
    have h1 := hm.valid
    have h2 := hm.inum
    rw [inode_setInode_self] at h1 h2
    exact ⟨hr, h1, h2⟩
  exact ⟨h.same i m hl, h.type i m hl⟩

/-- An entry of the cache after `iget`: it was the inode's entry, or not in use. -/
inductive Gets (s : State L) (inum : Nat) (i : Fin NINODE) : State L → Prop where
  | old : 0 < (s.inode i).ref → (s.inode i).inum = inum →
      Gets s inum i (s.setInode i { s.inode i with ref := (s.inode i).ref + 1 })
  | new : (s.inode i).ref = 0 → (∀ j, 0 < (s.inode j).ref → (s.inode j).inum ≠ inum) →
      Gets s inum i (s.setInode i { s.inode i with inum, ref := 1, valid := false })

theorem gets_iget (s : State L) (inum : Nat) : Ends Any (fun r => Gets s inum r.1 r.2) (iget s inum) := by
  unfold iget
  split
  · rename_i i hi
    obtain ⟨hr, hn⟩ := of_decide_eq_true (List.find?_some hi :)
    exact .old hr hn
  · rename_i hnone
    rw [List.find?_eq_none] at hnone
    split
    · rename_i i hi
      refine .new (of_decide_eq_true (List.find?_some hi :)) fun j hr hn => ?_
      exact hnone j (List.mem_finRange j) (decide_eq_true ⟨hr, hn⟩)
    · trivial

theorem iget_returns (inum : Nat) (h : ∃ j, (s.inode j).ref = 0 ∨ (s.inode j).inum = inum) :
    ∃ ip s1, iget s inum = .ok (ip, s1) ∧ Gets s inum ip s1 := by
  obtain ⟨r, hr, hg⟩ := (gets_iget s inum).returns fun e _ he => by
    unfold iget at he
    split at he
    · cases he
    · rename_i hno
      split at he
      · cases he
      · rename_i hnone
        obtain ⟨j, hj⟩ := h
        rw [List.find?_eq_none] at hno hnone
        have hfree : (s.inode j).ref ≠ 0 := fun hz => hnone j (List.mem_finRange j) (decide_eq_true hz)
        exact hno j (List.mem_finRange j) (decide_eq_true ⟨Nat.pos_of_ne_zero hfree, hj.resolve_left hfree⟩)
  exact ⟨r.1, r.2, hr, hg⟩

theorem iget_full {inum : Nat} (h : ¬ ∃ j, (s.inode j).ref = 0 ∨ (s.inode j).inum = inum) : iget s inum = .error .iget := by
  have hno : (List.finRange NINODE).find? (fun i => decide ((s.inode i).ref > 0 ∧ (s.inode i).inum = inum)) = none :=
    List.find?_eq_none.mpr fun j _ hj => h ⟨j, .inr (of_decide_eq_true hj).2⟩
  have hnone : (List.finRange NINODE).find? (fun i => decide ((s.inode i).ref = 0)) = none :=
    List.find?_eq_none.mpr fun j _ hj => h ⟨j, .inl (of_decide_eq_true hj)⟩
  rw [iget, hno, hnone]

theorem Gets.disk {inum : Nat} (h : Gets s inum i s') : s'.disk = s.disk := by
  cases h with
  | old => rfl
  | new => rfl

theorem Gets.inum {inum : Nat} (h : Gets s inum i s') : 0 < (s'.inode i).ref ∧ (s'.inode i).inum = inum := by
  cases h with
  | old hr hn =>
    rw [inode_setInode_self]
    exact ⟨Nat.succ_pos _, hn⟩
  | new =>
    rw [inode_setInode_self]
    exact ⟨one_pos, rfl⟩

theorem Gets.keep {inum : Nat} (h : Gets s inum i s') (hr : 0 < (s.inode j).ref) : (s'.inode j).inum = (s.inode j).inum := by
  by_cases hji : j = i
  · subst hji
    cases h with
    | old => rw [inode_setInode_self]
    | new hz => omega
  · cases h with
    | old | new => rw [inode_setInode_ne hji]

theorem Gets.inum_eq {inum : Nat} (h : Gets s inum i s') (hl : Live s i n) : n.val = inum := by
  cases h with
  | old _ hn => rw [← hl.inum, hn]
  | new hr => exact absurd hl.ref (by rw [hr]; exact lt_irrefl 0)

theorem Gets.self {inum : Nat} {ip : Fin NINODE} (h : Gets s inum ip s') (hu : Uniq s) (hl : Live s i n) (hn : n.val = inum) : ip = i := by
  cases h with
  | old hr hi => exact hu ip i hr hl.ref (by rw [hi, hl.inum, hn])
  | new _ hno => exact absurd (hl.inum.trans hn) (hno i hl.ref)

theorem Synced.gets (h : Synced s) {inum : Nat} (hn : inum < Mkfs.NINODES) (hg : Gets s inum i s') : Synced s' := by
  cases hg with
  | old hr => exact h.count hr _
  | new hr hno =>
    refine h.setInode (h.toInv.setInode (fun _ => ⟨hn, fun j _ => hno j⟩) fun m hm => ?_).1 fun m hm => ?_
    all_goals
      have := hm.valid
      rw [inode_setInode_self] at this
      cases this

structure Locks (s : State L) (i : Fin NINODE) (s' : State L) : Prop where
  ref : 0 < (s.inode i).ref
  entry : s' = s.setInode i { s.inode i with d := (s'.inode i).d, valid := true }
  old : (s.inode i).valid = true → s' = s
  new : (s.inode i).valid = false → (s'.inode i).d = s.disk.dinode (s.inode i).inum
  type : (s.inode i).valid = false → (s'.inode i).d.type ≠ 0

theorem setInode_self (s : State L) (i : Fin NINODE) : s.setInode i (s.inode i) = s := by
  simp [State.setInode]

theorem locks_ilock (s : State L) (i : Fin NINODE) : Ends Any (Locks s i) (ilock s i) := by
  simp only [ilock]
  split
  · trivial
  · rename_i hr
    split
    · rename_i hv
      refine ⟨by omega, ?_, fun _ => rfl, fun hf => ?_, fun hf => ?_⟩
      · rw [← hv, setInode_self]
      · rw [hv] at hf; cases hf
      · rw [hv] at hf; cases hf
    · rename_i hv
      split
      · trivial
      · rename_i ht
        refine ⟨by omega, ?_, fun h => absurd h hv, fun _ => ?_, fun _ => ht⟩
        all_goals rw [inode_setInode_self]

theorem Locks.valid (h : Locks s i s') : (s'.inode i).valid = true := by
  rw [h.entry, inode_setInode_self]

theorem Locks.disk (h : Locks s i s') : s'.disk = s.disk := by
  rw [h.entry]
  rfl

theorem Locks.live (h : Locks s i s') (hn : (s.inode i).inum = n) : Live s' i n := by
  rw [h.entry]
  exact Live.setInode h.ref rfl hn

theorem Synced.locks (h : Synced s) (hk : Locks s i s') : Synced s' := by
  by_cases hv : (s.inode i).valid = true
  · rw [hk.old hv]
    exact h
  · rw [Bool.not_eq_true] at hv
    have hd := hk.new hv
    have ht := hk.type hv
    rw [hd] at ht
    rw [hk.entry, hd]
    have hno : ∀ j m, Live s j m → (s.inode i).inum ≠ m := by
      intro j m hj he
      have := h.uniq j i hj.ref hk.ref (by rw [hj.inum, he])
      subst this
      rw [hj.valid] at hv
      cases hv
    have hf : Fits s i { s.inode i with d := s.disk.dinode (s.inode i).inum, valid := true } := h.fits hk.ref rfl
    refine h.setInode (h.toInv.setInode hf fun m hm => ?_).1 fun m hm => ?_
    · have hn := hm.inum
      rw [inode_setInode_self] at hn
      rw [view_of_not_live fun j hj => hno j m hj hn, ← hn]
    · have hn := hm.inum
      rw [inode_setInode_self] at hn
      exact ⟨by rw [← hn], ht⟩

/-! ## The inode on disk changes -/

theorem Synced.saves {di : Dinode} (h : Synced s) (hl : Live s i n) (hs : Saves s i n di s')
    (hz : di.size = (s.inode i).d.size) (ht : di.type = (s.inode i).d.type) : Synced s' := by
  have hlive : ∀ j m, Live s' j m → (s'.inode j).d = s'.disk.dinode m ∧ (s'.inode j).d.type ≠ 0 := by
    intro j m hj
    by_cases hji : j = i
    · subst hji
      obtain rfl : m = n := Fin.ext (by rw [← hj.inum, (hs.live hl).inum])
      rw [hs.self, hs.inode, update_self]
      exact ⟨rfl, ht ▸ h.type j m hl⟩
    · have he : s'.inode j = s.inode j := by rw [hs.inode, update_of_ne hji]
      have hj' : Live s j m := ⟨he ▸ hj.ref, he ▸ hj.valid, he ▸ hj.inum⟩
      have hm : m ≠ n := by rintro rfl; exact hji (h.uniq.live hj' hl)
      rw [he, hs.other m hm]
      exact ⟨h.same j m hj', h.type j m hj'⟩
  refine h.kept hs.inv (fun j m hj => (hlive j m hj).1) (fun j m hj => (hlive j m hj).2) fun m => .inr ?_
  rw [hs.view, hs.alloc, hs.byte]
  by_cases hm : m = n
  · subst hm
    rw [update_self, h.view_live hl]
    exact ⟨hz, ht, fun _ => id, rfl⟩
  · rw [update_of_ne hm]
    exact ⟨rfl, rfl, fun _ => id, rfl⟩

theorem Truncs.live_iff (h : Truncs lw s i n s') : Live s' j m ↔ Live s j m := by
  by_cases hj : j = i
  · subst hj
    exact live_congr h.entry
  · exact live_congr (h.other j hj)

theorem Truncs.kept (h : Truncs lw s i n s') (hc : Core s) (hl : Live s i n) (m : Inum) : Kept s s' m := by
  by_cases hm : m = n
  · subst hm
    refine .inl ?_
    rw [h.inv.view_live h.live, h.entry]
  · have hview : view s' m = view s m :=
      view_congr (fun j => h.live_iff) (fun j hj => by
        rw [h.other j (by rintro rfl; exact hm (Fin.ext (by rw [← hj.inum, hl.inum])))]) (fun _ => h.dinode m hm)
    exact kept_of_view hc hview h.frame

theorem Synced.truncs (h : Synced s) (hl : Live s i n) (ht : Truncs lw s i n s') : Synced s' := by
  have hlive : ∀ j m, Live s' j m → (s'.inode j).d = s'.disk.dinode m ∧ (s'.inode j).d.type ≠ 0 := by
    intro j m hj
    have hj' := ht.live_iff.mp hj
    by_cases hji : j = i
    · subst hji
      obtain rfl : m = n := Fin.ext (by rw [← hj.inum, ht.live.inum])
      refine ⟨ht.self.symm, ?_⟩
      rw [ht.entry]
      exact h.type j m hl
    · have hm : m ≠ n := by rintro rfl; exact hji (h.uniq.live hj' hl)
      rw [ht.other j hji, ht.dinode m hm]
      exact ⟨h.same j m hj', h.type j m hj'⟩
  exact h.kept ht.inv (fun j m hj => (hlive j m hj).1) (fun j m hj => (hlive j m hj).2) (ht.kept h.toCore hl)

/-- `ialloc` takes an inode that is free on disk, so that it is in no entry. -/
theorem Synced.puts {d : Disk L} {type : BitVec 16} (h : Synced s) (hp : Puts lw s.disk n { zero with type } d)
    (hfree : (s.disk.dinode n).type = 0) : Synced { s with disk := d } := by
  have hno : ∀ j, ¬ Live s j n := fun j hj => h.type j n hj (by rw [h.same j n hj, hfree])
  have hne : ∀ j m, Live { s with disk := d } j m → Live s j m ∧ m ≠ n := fun j m hj =>
    ⟨live_disk.mp hj, by rintro rfl; exact hno j (live_disk.mp hj)⟩
  have hframe : ∀ x, Mkfs.nmeta ≤ x → d.blk x = s.blk x := fun x hx =>
    hp.frame x (by have := iblock_lt_nmeta n; omega)
  refine h.kept (h.put_zero hp fun _ => rfl).1 (fun j m hj => ?_) (fun j m hj => h.type j m (hne j m hj).1) fun m => ?_
  · exact (h.same j m (hne j m hj).1).trans (hp.other m (hne j m hj).2).symm
  · by_cases hm : m = n
    · subst hm
      refine .inl ?_
      rw [view_of_not_live fun j hj => hno j (live_disk.mp hj)]
      exact congrArg size hp.self
    · exact kept_of_view h.toCore (view_congr (fun _ => live_disk) (fun _ _ => rfl) fun _ => hp.other m hm) hframe

theorem Synced.ialloc (h : Synced s) (type : BitVec 16) :
    Ends Any (fun r => Synced r.2 ∧ ∃ s1 inum, s1.inode = s.inode ∧ Gets s1 inum r.1 r.2) (ialloc lw s type) :=
  ends_ialloc h.sb (fun _ _ => trivial) fun n d hfree hd => (gets_iget _ n).imp fun _ hr =>
    ⟨(h.puts hd hfree).gets n.2 hr, { s with disk := d }, n, rfl, hr⟩

/-! ## `iput` -/

structure Drops (s : State L) (i : Fin NINODE) (s' : State L) : Prop where
  ref : (s'.inode i).ref = (s.inode i).ref - 1
  inum : (s'.inode i).inum = (s.inode i).inum
  other : ∀ j, j ≠ i → s'.inode j = s.inode j
  keep : ¬ Frees s i → s' = s.setInode i { s.inode i with ref := (s.inode i).ref - 1 }

theorem Synced.ifree {s2 : State L} {k : Nat} (h : Synced s) (hl : Live s i n) (ht : Truncs lw s i n s1)
    (hs : Saves s1 i n { (s1.inode i).d with type := 0 } s2) : Synced (s2.setInode i { s2.inode i with valid := false, ref := k }) := by
  have h1 := h.truncs hl ht
  have hinv := (hs.inv.touch (hs.live ht.live).ref { s2.inode i with valid := false, ref := k } rfl (fun hv => by cases hv) rfl).1
  have hother : ∀ j, j ≠ i → s2.inode j = s1.inode j := fun j hj => by rw [hs.inode, update_of_ne hj]
  have hlive : ∀ j m, Live (s2.setInode i { s2.inode i with valid := false, ref := k }) j m ↔ j ≠ i ∧ Live s1 j m := by
    intro j m
    by_cases hj : j = i
    · subst hj
      refine ⟨fun hc => ?_, fun hc => absurd rfl hc.1⟩
      have := hc.valid
      rw [inode_setInode_self] at this
      cases this
    · have he := hother j hj
      rw [live_setInode_ne hj]
      exact ⟨fun ⟨a, b, c⟩ => ⟨hj, he ▸ a, he ▸ b, he ▸ c⟩, fun ⟨_, a, b, c⟩ => ⟨he ▸ a, he ▸ b, he ▸ c⟩⟩
  have hne : ∀ j m, j ≠ i → Live s1 j m → m ≠ n := fun j m hj hjl => by
    rintro rfl
    exact hj (h1.uniq.live hjl ht.live)
  refine h1.kept hinv (fun j m hj => ?_) (fun j m hj => ?_) fun m => ?_
  · obtain ⟨hji, hj⟩ := (hlive j m).mp hj
    rw [inode_setInode_ne hji, hother j hji]
    exact (h1.same j m hj).trans (hs.other m (hne j m hji hj)).symm
  · obtain ⟨hji, hj⟩ := (hlive j m).mp hj
    rw [inode_setInode_ne hji, hother j hji]
    exact h1.type j m hj
  · by_cases hm : m = n
    · subst hm
      refine .inl ?_
      rw [view_of_not_live fun j hj => hne j m ((hlive j m).mp hj).1 ((hlive j m).mp hj).2 rfl]
      refine (congrArg size hs.self).trans ?_
      rw [ht.entry]
    · refine kept_of_view h1.toCore (view_congr (fun j => ?_) (fun j hj => ?_) fun _ => hs.other m hm) hs.frame
      · rw [hlive]
        refine ⟨And.right, fun hj => ⟨?_, hj⟩⟩
        rintro rfl
        exact hm (Fin.ext (by rw [← hj.inum, ht.live.inum]))
      · have hji : j ≠ i := by
          rintro rfl
          exact hm (Fin.ext (by rw [← hj.inum, ht.live.inum]))
        rw [inode_setInode_ne hji, hother j hji]

theorem Inv.ifree_steps (h : Inv s) (hl : Live s i n) :
    Ends Any (fun s' => ∃ s1 s2, Truncs lw s i n s1 ∧ Saves s1 i n { (s1.inode i).d with type := 0 } s2 ∧
      s' = s2.setInode i { s2.inode i with valid := false }) (Fs.ifree lw s i) := by
  unfold Fs.ifree
  refine (h.itrunc hl).to_any.bind fun s1 ht => ?_
  have hsave : Ends (LogFull lw) (Saves s1 i n { (s1.inode i).d with type := 0 })
    (iupdate lw (s1.setInode i { s1.inode i with d := { (s1.inode i).d with type := 0 } }) i) := ht.inv.save ht.live rfl
  exact hsave.to_any.bind fun s2 hs => ⟨s1, s2, ht, hs, rfl⟩

theorem setInode_setInode (s : State L) (i : Fin NINODE) (a b : Inode) : (s.setInode i a).setInode i b = s.setInode i b := by
  simp [State.setInode]

theorem iput_keep (hf : ¬ Frees s i) : iput lw s i = .ok (s.setInode i { s.inode i with ref := (s.inode i).ref - 1 }) := by
  simp only [iput]
  rw [if_neg hf]
  rfl

theorem Synced.iput (h : Synced s) (hr : 0 < (s.inode i).ref) : Ends Any (fun s' => Synced s' ∧ Drops s i s') (iput lw s i) := by
  by_cases hf : Frees s i
  · have hl : Live s i ⟨_, h.inum i hr⟩ := ⟨hr, hf.1, rfl⟩
    simp only [Fs.iput]
    rw [if_pos hf]
    refine (h.toInv.ifree_steps hl).bind ?_
    rintro _ ⟨s1, s2, ht, hs, rfl⟩
    have he : s2.inode i = { s.inode i with d := (s2.inode i).d } := by rw [hs.inode, update_self, ht.entry]
    refine ⟨?_, ?_, ?_, fun j hj => ?_, fun hn => absurd hf hn⟩
    · rw [setInode_setInode, inode_setInode_self]
      exact h.ifree hl ht hs
    · rw [inode_setInode_self, inode_setInode_self, he]
    · rw [inode_setInode_self, inode_setInode_self, he]
    · rw [inode_setInode_ne hj, inode_setInode_ne hj, hs.inode, update_of_ne hj, ht.other j hj]
  · rw [iput_keep hf]
    refine ⟨h.count hr _, ?_, ?_, fun j hj => inode_setInode_ne hj, fun _ => rfl⟩
    · rw [inode_setInode_self]
    · rw [inode_setInode_self]

/-! ## `readi` -/

/-- Reading changes nothing: every block up to the size is there. -/
theorem Synced.readi (lw : LogWrite L) (h : Synced s) (hl : Live s i n) (off len : BitVec 32) :
    ∃ r bytes, readi lw s i off len = .ok (r, bytes, s) ∧
      ((Fs.view s n).type = T_DIR → r = len.toNat → 0 < len.toNat →
        off.toNat + len.toNat ≤ (Fs.view s n).size.toNat ∧ bytes = tabulate len.toNat fun k => byteAt s n (off.toNat + k)) := by
  by_cases ht : (Fs.view s n).type = T_DEV
  · have hd : (Fs.view s n).type ≠ T_DIR := by rw [ht]; decide
    simp only [Fs.readi]
    rw [if_pos (by rw [← h.view_live hl]; exact ht)]
    split
    · exact ⟨_, _, rfl, fun h => absurd h hd⟩
    · split
      all_goals exact ⟨_, _, rfl, fun h => absurd h hd⟩
  · by_cases hr : InRange s n off len
    · refine ⟨_, _, readi_eq h.toCore hl ht (h.full n) hr, fun _ hlen hpos => ?_⟩
      have hmin : min len.toNat ((Fs.view s n).size.toNat - off.toNat) = len.toNat := by exact_mod_cast hlen
      have := hr.1
      refine ⟨by omega, ?_⟩
      rw [content, readAt_tabulate, hmin]
    · refine ⟨_, _, readi_refuses h.toCore hl ht hr, fun _ hlen => ?_⟩
      omega

/-! ## `writei` -/

def splice (f src : Nat → BitVec 8) (off len k : Nat) : BitVec 8 := if off ≤ k ∧ k < off + len then src (k - off) else f k

def Steady (s s' : State L) : Prop := ∀ j, s'.inode j = { s.inode j with d := (s'.inode j).d }

theorem Steady.refl (s : State L) : Steady s s := fun _ => rfl

variable {off len : Nat}

theorem Writes.steady (h : Writes s i n src off len s') : Steady s s' := by
  intro j
  by_cases hj : j = i
  · subst hj; rw [h.entry]
  · rw [h.other j hj]

theorem Saves.steady {di : Dinode} (h : Saves s i n di s') : Steady s s' := by
  intro j
  rw [h.inode]
  by_cases hj : j = i
  · subst hj; rw [update_self]
  · rw [update_of_ne hj]

theorem Steady.trans (h : Steady s s1) (h' : Steady s1 s') : Steady s s' := fun j => by rw [h' j, h j]

theorem Steady.live (h : Steady s s') : Live s' j m ↔ Live s j m := live_congr (h j)

theorem writeLoop_inode {fuel : Nat} (h : Inv s) (hl : Live s i n) (hf : len ≤ fuel) (hmax : off + len ≤ MAXFILE * BSIZE)
    (hfull : ∀ k, k * BSIZE < off + len → dataRef s n k ≠ 0) :
    Ends Any (fun s' => s'.inode = s.inode) (writeLoop lw i fuel s src off len) := by
  induction fuel generalizing s src off len with
  | zero => exact rfl
  | succ fuel ih =>
    rw [writeLoop]
    split
    · exact rfl
    · rename_i hz
      have hbn := pass_lt (Nat.pos_of_ne_zero hz) hmax
      have hmod := mod_lt_BSIZE off
      have hr : dataRef s n (off / BSIZE) ≠ 0 := hfull _ (by have := Nat.div_mul_le_self off BSIZE; omega)
      have href : s.ref (n, dataIdx (off / BSIZE) hbn) = dataRef s n (off / BSIZE) := by rw [dataRef_of_lt hbn]
      rw [h.bmap_eq hl hr]
      refine Ends.bind (Q := fun r => r = (dataRef s n (off / BSIZE), s)) rfl ?_
      rintro _ rfl
      refine (ends_logWrite (E := Any) (fun _ _ => trivial) _ _).bind ?_
      rintro d ⟨hsb, hblk, _⟩
      have hw : Writes s i n src off (min len (BSIZE - off % BSIZE)) { s with disk := d } :=
        (Grows.refl h hl href hr).writes hbn (by omega) (by omega) hsb hblk
      exact ih hw.inv hw.live (by omega) (by omega) fun k hk => (hw.alloc k).mpr (.inl (hfull k (by omega)))

section

variable (h : Writes s i n src off len s')
include h

theorem Writes.view_ne (hl : Live s i n) (hm : m ≠ n) : view s' m = view s m :=
  view_congr (fun _ => h.live_iff) (fun j hj => by
    rw [h.other j (by rintro rfl; exact hm (Fin.ext (by rw [← hj.inum, hl.inum])))]) fun _ => h.dinode m

theorem Writes.byteAt_self : byteAt s' n = splice (byteAt s n) src off len := by
  funext k
  rw [h.byte]
  simp [splice]

theorem Writes.byteAt_ne (hm : m ≠ n) : byteAt s' m = byteAt s m := by
  funext k
  rw [h.byte, if_neg fun hc => hm hc.1]

theorem Writes.dataRef_keep {k : Nat} (hr : dataRef s m k ≠ 0) : dataRef s' m k ≠ 0 := by
  obtain ⟨hk, he⟩ := dataRef_pos hr
  rw [he] at hr
  rw [dataRef_of_lt hk, h.keep _ hr]
  exact hr

end

theorem Synced.writes_in (h : Synced s) (hw : Writes s i n src off len s') (hi : s'.inode = s.inode)
    (hn : (Fs.view s n).type = T_DIR → Names (splice (byteAt s n) src off len) (Fs.view s n).size.toNat) : Synced s' := by
  have hlive : ∀ j m, Live s' j m → Live s j m := fun j m => hw.live_iff.mp
  have hview : ∀ m, Fs.view s' m = Fs.view s m := fun m =>
    view_congr (fun _ => hw.live_iff) (fun j _ => by rw [hi]) fun _ => hw.dinode m
  refine ⟨hw.inv, fun j m hj => ?_, fun j m hj => ?_, fun m bn hbn => ?_, fun m ht => ?_⟩
  · rw [hi, hw.dinode]; exact h.same j m (hlive j m hj)
  · rw [hi]; exact h.type j m (hlive j m hj)
  · rw [hview] at hbn; exact hw.dataRef_keep (h.full m bn hbn)
  · rw [hview] at ht ⊢
    by_cases hm : m = n
    · subst hm; rw [hw.byteAt_self]; exact hn ht
    · rw [hw.byteAt_ne hm]; exact h.names m ht

theorem Synced.writes_beyond {size : BitVec 32} (h : Synced s) (hl : Live s i n) (hw : Writes s i n src off len s1)
    (hs : Saves s1 i n { (s1.inode i).d with size } s') (hsize : size.toNat = off + len)
    (hoff : off ≤ (Fs.view s n).size.toNat) (hgt : (Fs.view s n).size.toNat < off + len)
    (hn : (Fs.view s n).type = T_DIR → Names (splice (byteAt s n) src off len) (off + len)) : Synced s' := by
  have htype : (s1.inode i).d.type = (Fs.view s n).type := by rw [hw.entry, h.view_live hl]
  refine ⟨hs.inv, fun j m hj => ?_, fun j m hj => ?_, fun m bn hbn => ?_, fun m ht => ?_⟩
  · have hj' := hw.live_iff.mp (hs.steady.live.mp hj)
    by_cases hji : j = i
    · subst hji
      obtain rfl : m = n := Fin.ext (by rw [← hj'.inum, hl.inum])
      rw [hs.inode, update_self, hs.self]
    · have hm : m ≠ n := by rintro rfl; exact hji (h.uniq.live hj' hl)
      rw [hs.inode, update_of_ne hji, hw.other j hji, hs.other m hm, hw.dinode]
      exact h.same j m hj'
  · have hj' := hw.live_iff.mp (hs.steady.live.mp hj)
    by_cases hji : j = i
    · subst hji
      rw [hs.inode, update_self, hw.entry]
      exact h.type j m hj'
    · rw [hs.inode, update_of_ne hji, hw.other j hji]
      exact h.type j m hj'
  · rw [hs.view] at hbn
    rw [hs.alloc]
    by_cases hm : m = n
    · subst hm
      rw [update_self] at hbn
      have hlt : bn * BSIZE < off + len := hsize ▸ hbn
      rw [hw.alloc]
      by_cases hin : bn * BSIZE < (Fs.view s m).size.toNat
      · exact .inl (h.full m bn hin)
      · refine .inr ⟨by omega, hlt, ?_⟩
        simp only [BSIZE] at hin ⊢
        omega
    · rw [update_of_ne hm, hw.view_ne hl hm] at hbn
      exact hw.dataRef_keep (h.full m bn hbn)
  · rw [hs.view] at ht ⊢
    rw [hs.byte]
    by_cases hm : m = n
    · subst hm
      rw [update_self] at ht ⊢
      rw [hw.byteAt_self, hsize]
      exact hn (htype ▸ ht)
    · rw [update_of_ne hm, hw.view_ne hl hm] at ht ⊢
      rw [hw.byteAt_ne hm]
      exact h.names m ht

theorem Synced.writei {off len : BitVec 32} (h : Synced s) (hl : Live s i n)
    (hn : (Fs.view s n).type = T_DIR → off.toNat ≤ (Fs.view s n).size.toNat →
      Names (splice (byteAt s n) src off.toNat len.toNat) (max (Fs.view s n).size.toNat (off.toNat + len.toNat))) :
    Ends Any (fun r => Synced r.2 ∧ Steady s r.2) (writei lw s i src off len) := by
  by_cases ht : (Fs.view s n).type = T_DEV
  · simp only [Fs.writei]
    rw [if_pos (by rw [← h.view_live hl]; exact ht)]
    split
    · exact ⟨h, .refl s⟩
    · split
      · exact ⟨h, .refl s⟩
      · exact ⟨h, .refl s⟩
  · by_cases hr : InRange s n off len ∧ off.toNat + len.toNat ≤ MAXFILE * BSIZE
    · obtain ⟨hin, hmax⟩ := hr
      have hsum := hin.toNat_add
      have hsize : (s.inode i).d.size = (Fs.view s n).size := by rw [h.view_live hl]
      simp only [Fs.writei]
      rw [if_neg (by rw [← h.view_live hl]; exact ht), if_neg ((inRange_iff h.toCore hl off len).not_left.mpr hin),
        if_neg (by rw [gt_iff_lt, BitVec.lt_def, hsum, toNat_maxBytes]; omega)]
      have hloop : Ends (NoSpace lw) (Writes s i n src off.toNat len.toNat)
        (writeLoop lw i len.toNat s src off.toNat len.toNat) := ends_writeLoop h.toInv hl le_rfl hmax
      by_cases hgt : off.toNat + len.toNat ≤ (Fs.view s n).size.toNat
      · have hinode : Ends Any (fun s' => s'.inode = s.inode) (writeLoop lw i len.toNat s src off.toNat len.toNat) :=
          writeLoop_inode h.toInv hl le_rfl hmax fun k hk => h.full n k (by omega)
        refine (hloop.to_any.and hinode).bind ?_
        rintro s1 ⟨hw, hi⟩
        have hsz : (s1.inode i).d.size.toNat = (Fs.view s n).size.toNat := by rw [hi, hsize]
        rw [if_neg (by rw [gt_iff_lt, gt_iff_lt, BitVec.lt_def (y := off + len), hsum]; omega)]
        refine ⟨h.writes_in hw hi fun htd => ?_, hw.steady⟩
        have := hn htd hin.1
        rwa [Nat.max_eq_left hgt] at this
      · rw [not_le] at hgt
        refine hloop.to_any.bind fun s1 hw => ?_
        have hsz : (s1.inode i).d.size.toNat = (Fs.view s n).size.toNat := by rw [hw.entry, hsize]
        have hlen : (0#32) < len := by
          rw [BitVec.lt_def]
          have := hin.1
          change 0 < len.toNat
          omega
        rw [if_pos ⟨hlen, by rw [gt_iff_lt, lt_def, hsum]; omega⟩]
        have hsave : Ends (LogFull lw) (Saves s1 i n { (s1.inode i).d with size := off + len })
          (iupdate lw (s1.setInode i { s1.inode i with d := { (s1.inode i).d with size := off + len } }) i) :=
          hw.inv.save hw.live rfl
        refine hsave.to_any.bind fun s2 hs => ⟨h.writes_beyond hl hw hs hsum hin.1 hgt fun htd => ?_, hw.steady.trans hs.steady⟩
        have := hn htd hin.1
        rwa [Nat.max_eq_right hgt.le] at this
    · rw [writei_refuses h.toCore hl ht hr]
      exact ⟨h, .refl s⟩

/-! ## Runs -/

/-- The entries that a write leaves in a directory name inodes. -/
def WritesNames (s : State L) (i : Fin NINODE) (src : Nat → BitVec 8) (off len : BitVec 32) : Prop :=
  (s.inode i).d.type = T_DIR → ∀ h : (s.inode i).inum < Mkfs.NINODES,
    Names (splice (byteAt s ⟨(s.inode i).inum, h⟩) src off.toNat len.toNat)
      (max (s.inode i).d.size.toNat (off.toNat + len.toNat))

theorem Synced.exec (h : Synced s) {c : Call} (hc : c.Allowed s) (hb : ∀ i bn, c ≠ .bmap i bn)
    (hw : ∀ i src off len, c = .writei i src off len → WritesNames s i src off len) : Ends Any Synced (exec lw s c) := by
  cases c with
  | iget inum =>
    have hn : inum < Mkfs.NINODES := by
      have : inum < s.disk.sb.ninodes := hc
      rw [h.sb] at this
      exact this
    exact (gets_iget s inum).bind fun _ hr => h.gets hn hr
  | idup i => exact h.count hc _
  | ialloc type => exact (h.ialloc type).bind fun _ hr => hr.1
  | ilock i => exact (locks_ilock s i).imp fun _ hk => h.locks hk
  | update i major minor nlink =>
    have hl := h.live hc.1 hc.2
    have hsave : Ends (LogFull lw) (Saves s i _ { (s.inode i).d with major, minor, nlink })
      (iupdate lw (s.setInode i { s.inode i with d := { (s.inode i).d with major, minor, nlink } }) i) := h.save hl rfl
    exact hsave.to_any.imp fun s' hs => h.saves hl hs rfl rfl
  | bmap i bn => exact absurd rfl (hb i bn)
  | readi i off n =>
    obtain ⟨r, bytes, he, -⟩ := h.readi lw (h.live hc.1 hc.2) off n
    simp only [Fs.exec, he]
    exact h
  | writei i src off n =>
    have hl := h.live hc.1 hc.2
    have hview := h.view_live hl
    have hnames := hw i src off n rfl
    refine (h.writei hl fun ht _ => ?_).bind fun r hr => hr.1
    rw [hview] at ht ⊢
    exact hnames ht (h.inum i hc.1)
  | itrunc i => exact (h.itrunc (h.live hc.1 hc.2)).to_any.imp fun s' ht => h.truncs (h.live hc.1 hc.2) ht
  | iput i => exact (h.iput hc).imp fun s' hs => hs.1

end Xv6.Fs
