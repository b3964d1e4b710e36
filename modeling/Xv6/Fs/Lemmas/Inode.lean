import Xv6.Fs.Lemmas.Owner

/-!
# Inodes on disk and in the cache

An inode is what its valid cache entry holds, or what is on disk if it has none.
-/

namespace Xv6.Fs

open Xv6.Lib Function List Mkfs

variable {L : Type} {lw : LogWrite L}

structure Live (s : State L) (i : Fin NINODE) (n : Inum) : Prop where
  ref : 0 < (s.inode i).ref
  valid : (s.inode i).valid = true
  inum : (s.inode i).inum = n

instance (s : State L) (i : Fin NINODE) (n : Inum) : Decidable (Live s i n) :=
  decidable_of_iff (0 < (s.inode i).ref ∧ (s.inode i).valid = true ∧ (s.inode i).inum = n)
    ⟨fun h => ⟨h.1, h.2.1, h.2.2⟩, fun h => ⟨h.1, h.2, h.3⟩⟩

def view (s : State L) (n : Inum) : Dinode :=
  match (finRange NINODE).find? fun i => Live s i n with
  | some i => (s.inode i).d
  | none => s.disk.dinode n

def State.ref (s : State L) : Pos → Nat := refOf (view s) s.blk

def Uniq (s : State L) : Prop :=
  ∀ i j, 0 < (s.inode i).ref → 0 < (s.inode j).ref → (s.inode i).inum = (s.inode j).inum → i = j

structure Core (s : State L) : Prop where
  sb : s.disk.sb = Mkfs.sb
  super : readsb (s.blk 1) = Mkfs.sb
  inum : ∀ i, 0 < (s.inode i).ref → (s.inode i).inum < Mkfs.NINODES
  uniq : Uniq s
  owns : Owns s.blk s.ref

/-- The inode on disk has no address that its cache entry does not have. -/
def Behind (s : State L) (i : Fin NINODE) : Prop :=
  ∀ n, Live s i n → ∀ k, (s.disk.dinode n).addrs k = 0 ∨ (s.disk.dinode n).addrs k = (s.inode i).d.addrs k

structure Inv (s : State L) : Prop extends Core s where
  behind : ∀ i, Behind s i

variable {s s' : State L} {i j : Fin NINODE} {n m : Inum}

/-! ## The view -/

theorem Uniq.live (hu : Uniq s) (hi : Live s i n) (hj : Live s j n) : i = j :=
  hu i j hi.ref hj.ref (by rw [hi.inum, hj.inum])

theorem Uniq.view (hu : Uniq s) (h : Live s i n) : view s n = (s.inode i).d := by
  unfold Fs.view
  split
  · rename_i j hj
    rw [hu.live (of_decide_eq_true (find?_some hj :)) h]
  · rename_i hn
    rw [find?_eq_none] at hn
    exact absurd (decide_eq_true h) (hn i (mem_finRange i))

theorem view_of_not_live (h : ∀ i, ¬ Live s i n) : view s n = s.disk.dinode n := by
  unfold view
  split
  · rename_i j hj
    exact absurd (of_decide_eq_true (find?_some hj :)) (h j)
  · rfl

theorem Core.view_live (h : Core s) (hi : Live s i n) : view s n = (s.inode i).d := h.uniq.view hi

theorem view_congr (hl : ∀ i, Live s' i n ↔ Live s i n) (hi : ∀ i, Live s i n → (s'.inode i).d = (s.inode i).d)
    (hd : (∀ i, ¬ Live s i n) → s'.disk.dinode n = s.disk.dinode n) : view s' n = view s n := by
  unfold view
  simp only [hl]
  split
  · rename_i i hf
    exact hi i (of_decide_eq_true (find?_some hf :))
  · rename_i hn
    rw [find?_eq_none] at hn
    exact hd fun i hi => hn i (mem_finRange i) (decide_eq_true hi)

theorem live_congr {s' : State L} {d : Dinode} (he : s'.inode i = { s.inode i with d := d }) : Live s' i n ↔ Live s i n := by
  refine ⟨fun ⟨a, b, c⟩ => ?_, fun ⟨a, b, c⟩ => ⟨?_, ?_, ?_⟩⟩
  · rw [he] at a b c
    exact ⟨a, b, c⟩
  all_goals rwa [he]

theorem live_setInode_ne {ip : Inode} (hj : j ≠ i) : Live (s.setInode i ip) j n ↔ Live s j n := live_congr (update_of_ne hj _ _)

theorem live_disk {d : Disk L} : Live { s with disk := d } i n ↔ Live s i n :=
  ⟨fun ⟨a, b, c⟩ => ⟨a, b, c⟩, fun ⟨a, b, c⟩ => ⟨a, b, c⟩⟩

/-! ## Areas of the disk -/

/-- The inode blocks hold more inodes than `NINODES`. -/
instance : Fact (Mkfs.NINODES ≤ Mkfs.ninodeblocks * IPB) := ⟨by decide⟩

theorem iblock_lt {N : Nat} [h : Fact (N ≤ Mkfs.ninodeblocks * IPB)] (n : Fin N) : 2 ≤ iblock sb n ∧ iblock sb n < sb.bmapstart := by
  have h1 : sb.inodestart = 32 := rfl
  have h2 : sb.bmapstart = 58 := rfl
  have h3 : Mkfs.ninodeblocks * IPB = 208 := rfl
  have h4 : IPB = 8 := rfl
  have := n.isLt
  have := h.out
  rw [iblock, h1, h2, h4]
  omega

theorem iblock_not_inMap (n : Inum) : ¬ InMap (iblock sb n) :=
  fun h => by have := (iblock_lt n).2; have := h.1; omega

theorem iblock_lt_nmeta {N : Nat} [Fact (N ≤ Mkfs.ninodeblocks * IPB)] (n : Fin N) : iblock sb n < nmeta :=
  lt_trans (iblock_lt n).2 (by decide)

theorem one_not_inMap : ¬ InMap 1 := by unfold InMap; decide

theorem dinode_congr {d d' : Disk L} (hsb : d.sb = sb) (hsb' : d'.sb = sb)
    (hb : d'.blk (iblock sb n) = d.blk (iblock sb n)) : d'.dinode n = d.dinode n := by
  rw [Disk.dinode, Disk.dinode, hsb, hsb', hb]

theorem Core.indirect_ge (h : Core s) (hn : (view s n).addrs indirect ≠ 0) : Mkfs.nmeta ≤ ((view s n).addrs indirect).toNat :=
  (h.owns.range (n, .inl indirect) (by rw [State.ref, refOf_inl]; exact mt toNat_eq_zero.mp hn)).1

/-! ## Changing a cache entry -/

theorem Live.setInode {ip : Inode} (hr : 0 < ip.ref) (hv : ip.valid = true) (hn : ip.inum = n) : Live (s.setInode i ip) i n := by
  have he : (s.setInode i ip).inode i = ip := update_self ..
  exact ⟨by rw [he]; exact hr, by rw [he]; exact hv, by rw [he]; exact hn⟩

theorem inode_setInode_self {ip : Inode} : (s.setInode i ip).inode i = ip := update_self ..

theorem inode_setInode_ne {ip : Inode} (hj : j ≠ i) : (s.setInode i ip).inode j = s.inode j :=
  update_of_ne hj _ _

def Fits (s : State L) (i : Fin NINODE) (ip : Inode) : Prop :=
  0 < ip.ref → ip.inum < Mkfs.NINODES ∧ ∀ j, j ≠ i → 0 < (s.inode j).ref → (s.inode j).inum ≠ ip.inum

variable {ip : Inode}

theorem Core.fits (h : Core s) (hr : 0 < (s.inode i).ref) (hn : ip.inum = (s.inode i).inum) : Fits s i ip := by
  refine fun _ => ⟨by rw [hn]; exact h.inum i hr, fun j hj hjr he => hj (h.uniq j i hjr hr ?_)⟩
  rw [he, hn]

theorem Fits.inum (hf : Fits s i ip) (h : ∀ j, 0 < (s.inode j).ref → (s.inode j).inum < Mkfs.NINODES) (j : Fin NINODE)
    (hj : 0 < ((s.setInode i ip).inode j).ref) : ((s.setInode i ip).inode j).inum < Mkfs.NINODES := by
  by_cases hji : j = i
  · subst hji; rw [inode_setInode_self] at hj ⊢; exact (hf hj).1
  · rw [inode_setInode_ne hji] at hj ⊢; exact h j hj

theorem Fits.uniq (hf : Fits s i ip) (hu : Uniq s) : Uniq (s.setInode i ip) := by
  intro a b ha hb hab
  by_cases hai : a = i
  · subst hai
    by_cases hba : b = a
    · exact hba.symm
    · rw [inode_setInode_self, inode_setInode_ne hba] at hab
      rw [inode_setInode_self] at ha
      rw [inode_setInode_ne hba] at hb
      exact absurd hab.symm ((hf ha).2 b hba hb)
  · rw [inode_setInode_ne hai] at ha hab
    by_cases hbi : b = i
    · subst hbi
      rw [inode_setInode_self] at hb hab
      exact absurd hab ((hf hb).2 a hai ha)
    · rw [inode_setInode_ne hbi] at hb hab
      exact hu a b ha hb hab

theorem view_setInode (hu : Uniq s) (hf : Fits s i ip) (m : Inum) :
    view (s.setInode i ip) m = if Live (s.setInode i ip) i m then ip.d else
      if Live s i m then s.disk.dinode m else view s m := by
  have hu' := hf.uniq hu
  split
  · rename_i hl
    rw [hu'.view hl, inode_setInode_self]
  · rename_i hl
    split
    · rename_i hold
      refine view_of_not_live fun j hj => ?_
      by_cases hji : j = i
      · subst hji; exact hl hj
      · exact hji (hu.live ((live_setInode_ne hji).mp hj) hold)
    · rename_i hold
      refine view_congr (fun j => ?_) (fun j hj => ?_) (fun _ => rfl)
      · by_cases hji : j = i
        · subst hji; exact ⟨fun h => absurd h hl, fun h => absurd h hold⟩
        · exact live_setInode_ne hji
      · rw [inode_setInode_ne (by rintro rfl; exact hold hj)]

theorem view_setInode_live (hu : Uniq s) (hf : Fits s i ip) (hl : Live s i n) (hr : 0 < ip.ref) (hv : ip.valid = true)
    (hn : ip.inum = n) : view (s.setInode i ip) = update (view s) n ip.d := by
  funext m
  rw [view_setInode hu hf]
  by_cases hm : m = n
  · subst hm; rw [if_pos (Live.setInode hr hv hn), update_self]
  · have h1 : ¬ Live (s.setInode i ip) i m := fun h => hm (Fin.ext (by rw [← h.inum, inode_setInode_self, hn]))
    have h2 : ¬ Live s i m := fun h => hm (Fin.ext (by rw [← h.inum, hl.inum]))
    rw [if_neg h1, if_neg h2, update_of_ne hm]

theorem Inv.setInode (h : Inv s) (hf : Fits s i ip) (hs : ∀ m, Live (s.setInode i ip) i m → ip.d.addrs = (view s m).addrs) :
    Inv (s.setInode i ip) ∧ ∀ p, (s.setInode i ip).ref p = 0 ∨ (s.setInode i ip).ref p = s.ref p := by
  have hsub : ∀ p, (s.setInode i ip).ref p = 0 ∨ (s.setInode i ip).ref p = s.ref p := by
    refine refOf_sub fun m k => ?_
    rw [view_setInode h.uniq hf]
    split
    · rename_i hl; exact .inr (by rw [hs m hl])
    · split
      · rename_i hl; rw [h.view_live hl]; exact h.behind i m hl k
      · exact .inr rfl
  refine ⟨⟨⟨h.sb, h.super, hf.inum h.inum, hf.uniq h.uniq, h.owns.sub hsub⟩, fun j m hj k => ?_⟩, hsub⟩
  by_cases hji : j = i
  · subst hji
    rw [inode_setInode_self, hs m hj]
    by_cases hl : Live s j m
    · rw [h.view_live hl]; exact h.behind j m hl k
    · refine .inr ?_
      rw [view_of_not_live fun a ha => ?_]
      · rfl
      · by_cases haj : a = j
        · subst haj; exact hl ha
        · have hr := hj.ref
          have hn := hj.inum
          rw [inode_setInode_self] at hr hn
          exact (hf hr).2 a haj ha.ref (by rw [ha.inum, hn])
  · rw [inode_setInode_ne hji]
    exact h.behind j m ((live_setInode_ne hji).mp hj) k

/-! ## Changing the disk -/

structure SameRefs (s : State L) (d : Disk L) : Prop where
  sb : d.sb = sb
  super : d.blk 1 = s.blk 1
  dinode : ∀ n : Inum, d.dinode n = s.disk.dinode n
  ind : ∀ n, (view s n).addrs indirect ≠ 0 →
    d.blk ((view s n).addrs indirect).toNat = s.blk ((view s n).addrs indirect).toNat

variable {d : Disk L}

section

variable (h : SameRefs s d)
include h

theorem SameRefs.view : view { s with disk := d } = Fs.view s := by
  funext n
  exact view_congr (fun _ => live_disk) (fun _ _ => rfl) (fun _ => h.dinode n)

theorem SameRefs.ref : ({ s with disk := d } : State L).ref = s.ref := by
  rw [State.ref, h.view]; exact refOf_congr h.ind

theorem SameRefs.behind (hb : Behind s i) : Behind { s with disk := d } i := by
  intro n hl k
  have := hb n (live_disk.mp hl) k
  rwa [← h.dinode n] at this

theorem SameRefs.core (hc : Core s) (hu : ∀ x, x < FSSIZE → used s.blk x = true → used d.blk x = true) :
    Core { s with disk := d } :=
  ⟨h.sb, by rw [State.blk, h.super]; exact hc.super, hc.inum, hc.uniq, by
    rw [h.ref]; exact hc.owns.mono hu (by decide)⟩

theorem SameRefs.inv (hc : Inv s) (hu : ∀ x, x < FSSIZE → used s.blk x = true → used d.blk x = true) :
    Inv { s with disk := d } :=
  ⟨h.core hc.toCore hu, fun i => h.behind (hc.behind i)⟩

end

theorem Core.sameRefs (h : Core s) (hsb : d.sb = s.disk.sb) {b : Nat} (hb : Mkfs.nmeta ≤ b)
    (hind : ∀ n, (view s n).addrs indirect ≠ 0 → ((view s n).addrs indirect).toNat ≠ b)
    (hblk : ∀ x, x ≠ b → ¬ InMap x → d.blk x = s.blk x) : SameRefs s d := by
  have hsb' : d.sb = Mkfs.sb := hsb.trans h.sb
  have hmeta : 1 < Mkfs.nmeta := by decide
  refine ⟨hsb', hblk 1 (by omega) one_not_inMap, fun n => ?_, fun n hn => ?_⟩
  · exact dinode_congr h.sb hsb' (hblk _ (by have := iblock_lt_nmeta n; omega) (iblock_not_inMap n))
  · exact hblk _ (hind n hn) fun hm => by have := h.indirect_ge hn; have := hm.2; omega

end Xv6.Fs
