import Xv6.Fs.Lemmas.Inode

/-!
# Allocation by `bmap`

`bmap` adds at most two blocks to its inode. Each of them was free and becomes owned by one position.
-/

namespace Xv6.Fs

open Xv6.Lib Function State

variable {L : Type} {lw : LogWrite L} {s s' : State L} {i j : Fin NINODE} {n : Inum} {b : Nat}
variable {d d1 d2 : Disk L} {k : Fin (NDIRECT + 1)} {p : Pos}

theorem Core.meta_used (h : Core s) (x : Nat) (hx : x < Mkfs.nmeta) : used s.blk x = true := h.owns.reserved x hx

theorem Ballocs.pos (hb : Ballocs d b d1) : b ≠ 0 := by
  have h1 := hb.ge
  have h2 : 0 < Mkfs.nmeta := by decide
  omega

section

variable (h : Core s) (hb : Ballocs s.disk b d)
include h hb

theorem Core.fresh (p : Pos) : s.ref p ≠ b :=
  h.owns.fresh (by decide) hb.free p

theorem Core.fresh_indirect (n : Inum) :
    ((view s n).addrs indirect).toNat ≠ b := h.fresh hb (n, .inl indirect)

theorem Core.balloc_sameRefs : SameRefs s d :=
  h.sameRefs hb.sb hb.ge (fun n _ => h.fresh_indirect hb n) hb.frame

end

theorem Inv.balloc (h : Inv s) (hb : Ballocs s.disk b d) : Inv { s with disk := d } :=
  (h.balloc_sameRefs hb).inv h fun x hx hu => by rw [hb.used x hx, hu, Bool.true_or]

/-! ## A new address -/

/-- A block that is taken, zero and referenced nowhere. -/
structure Spare (s : State L) (b : Nat) : Prop where
  ge : Mkfs.nmeta ≤ b
  lt : b < FSSIZE
  used : used s.blk b = true
  unowned : ∀ p, s.ref p ≠ b
  zero : s.blk b = Bytes.fill BSIZE 0#8

theorem Inv.balloc_spare (h : Inv s) (hb : Ballocs s.disk b d) : Spare { s with disk := d } b :=
  ⟨hb.ge, hb.lt, by rw [blk, hb.used b hb.lt]; simp, fun p => by
    rw [(h.balloc_sameRefs hb).ref]; exact h.fresh hb p, hb.zero⟩

theorem setAddr_eq (s : State L) (i : Fin NINODE) (k : Fin (NDIRECT + 1)) (b : Nat) :
    s.setAddr i k b = s.setInode i { s.inode i with d := (s.inode i).d.setAddr k b } := rfl

theorem Live.setAddr (hl : Live s i n) : Live (s.setAddr i k b) i n :=
  Live.setInode hl.ref hl.valid hl.inum

theorem Core.view_setAddr (h : Core s) (hl : Live s i n) (k : Fin (NDIRECT + 1)) (b : Nat) :
    view (s.setAddr i k b) = update (view s) n ((view s n).setAddr k b) := by
  rw [h.view_live hl]
  exact view_setInode_live h.uniq (h.fits hl.ref rfl) hl hl.ref hl.valid hl.inum

theorem Inv.setAddr (h : Inv s) (hl : Live s i n) (hz : (s.inode i).d.addrs k = 0) (hb : Spare s b) :
    Inv (s.setAddr i k b) ∧ (s.setAddr i k b).ref = update s.ref (n, .inl k) b := by
  have href : (s.setAddr i k b).ref = update s.ref (n, .inl k) b := by
    rw [ref, h.view_setAddr hl]
    refine refOf_setAddr _ hb.lt fun hk => ⟨?_, hb.zero⟩
    rw [h.view_live hl, ← hk]; exact hz
  have hf : Fits s i { s.inode i with d := (s.inode i).d.setAddr k b } := h.fits hl.ref rfl
  refine ⟨⟨⟨h.sb, h.super, hf.inum h.inum, hf.uniq h.uniq, ?_⟩, fun j m hj k' => ?_⟩, href⟩
  · rw [href]
    exact h.owns.own hb.unowned hb.used hb.ge hb.lt
  · by_cases hji : j = i
    · subst hji
      obtain rfl : m = n := Fin.ext (by rw [← hj.inum, ← hl.inum]; simp [setAddr, inode_setInode_self])
      have := h.behind j m hl k'
      simp only [setAddr, inode_setInode_self]
      by_cases hk : k' = k
      · subst hk; rw [hz, or_self] at this; exact .inl this
      · rw [update_of_ne hk]; exact this
    · have := h.behind j m ((live_setInode_ne hji).mp hj) k'
      rw [setAddr_eq, inode_setInode_ne hji]
      exact this

/-! ## A new entry of the indirect block -/

def Disk.setEntry (d : Disk L) (ind e b : Nat) : Disk L := d.setBlk ind ((d.blk ind).setWord (4 * e) (.ofNat 32 b))

theorem Inv.setEntry (h : Inv s) (hl : Live s i n) (hz : (s.inode i).d.addrs indirect ≠ 0) (e : Fin NINDIRECT) (hb : Spare s b) :
    Inv { s with disk := s.disk.setEntry ((s.inode i).d.addrs indirect).toNat e b } ∧
    ({ s with disk := s.disk.setEntry ((s.inode i).d.addrs indirect).toNat e b } : State L).ref =
      update s.ref (n, .inr e) b := by
  have hvl := h.view_live hl
  have hz' : (view s n).addrs indirect ≠ 0 := by rw [hvl]; exact hz
  have hge := h.indirect_ge hz'
  rw [hvl] at hge
  have hne : ∀ x, x < Mkfs.nmeta → (s.disk.setEntry ((s.inode i).d.addrs indirect).toNat e b).blk x = s.blk x :=
    fun x hx => update_of_ne (by omega) _ _
  have hdin : ∀ m : Inum,
      (s.disk.setEntry ((s.inode i).d.addrs indirect).toNat e b).dinode m = s.disk.dinode m :=
    fun m => dinode_congr h.sb h.sb (hne _ (iblock_lt_nmeta m))
  have hview : view { s with disk := s.disk.setEntry ((s.inode i).d.addrs indirect).toNat e b } = view s := by
    funext m
    exact view_congr (fun _ => live_disk) (fun _ _ => rfl) (fun _ => hdin m)
  have href : ({ s with disk := s.disk.setEntry ((s.inode i).d.addrs indirect).toNat e b } : State L).ref =
      update s.ref (n, .inr e) b := by
    rw [ref, hview]
    have := refOf_setEntry (v := view s) (j := e) s.blk hb.lt hz' (indirect_inj h.owns hz')
    rwa [hvl] at this
  have hused : ∀ x, x < FSSIZE →
      used (s.disk.setEntry ((s.inode i).d.addrs indirect).toNat e b).blk x = used s.blk x := by
    intro x hx
    rw [used, hne _ (bblock_inMap hx).2, used]
  refine ⟨⟨⟨h.sb, ?_, h.inum, h.uniq, ?_⟩, fun j m hj k => ?_⟩, href⟩
  · rw [blk, hne 1 (by decide)]; exact h.super
  · rw [href]
    refine (h.owns.own hb.unowned hb.used hb.ge hb.lt).mono (fun x hx hu => ?_) (by decide)
    rw [blk, hused x hx]; exact hu
  · have := h.behind j m (live_disk.mp hj) k
    rwa [← hdin m] at this

/-! ## `bmap` -/

def dataIdx (bn : Nat) (h : bn < MAXFILE) : Idx :=
  if hd : bn < NDIRECT then .inl ⟨bn, Nat.lt_succ_of_lt hd⟩
  else .inr ⟨bn - NDIRECT, by have : MAXFILE = NDIRECT + NINDIRECT := rfl; omega⟩

/-- Position `p` of inode `n` owns block `b` now. It may be new, and then the indirect block may be new too; what was
owned before keeps its owner, and its data if it is a data block. -/
structure Grows (s : State L) (i : Fin NINODE) (n : Inum) (p : Pos) (b : Nat) (s' : State L) : Prop where
  inv : Inv s'
  live : Live s' i n
  ref : s'.ref p = b
  pos : b ≠ 0
  keep : ∀ q, s.ref q ≠ 0 → s'.ref q = s.ref q
  only : ∀ q, s'.ref q ≠ 0 → s.ref q ≠ 0 ∨ q = p ∨ q = (n, .inl indirect)
  data : ∀ q, q.2 ≠ .inl indirect → s.ref q ≠ 0 → s'.blk (s.ref q) = s.blk (s.ref q)
  new : s.ref p = 0 → s'.blk b = Bytes.fill BSIZE 0#8
  entry : s'.inode i = { s.inode i with d := { (s.inode i).d with addrs := (s'.inode i).d.addrs } }
  other : ∀ j, j ≠ i → s'.inode j = s.inode j
  dinode : ∀ m : Inum, s'.disk.dinode m = s.disk.dinode m

theorem Grows.refl (h : Inv s) (hl : Live s i n) (hp : s.ref p = b) (hb : b ≠ 0) : Grows s i n p b s :=
  ⟨h, hl, hp, hb, fun _ _ => rfl, fun _ => .inl, fun _ _ _ => rfl, fun hz => absurd (hp.symm.trans hz) hb, rfl,
    fun _ _ => rfl, fun _ => rfl⟩

theorem Grows.trans {s1 : State L} {c : Nat} (h1 : Grows s i n (n, .inl indirect) c s1)
    (h2 : Grows s1 i n p b s') (hp : p ≠ (n, .inl indirect)) : Grows s i n p b s' := by
  refine ⟨h2.inv, h2.live, h2.ref, h2.pos, fun q hq => ?_, fun q hq => ?_, fun q hi hq => ?_, fun hz => ?_, ?_,
    fun j hj => ?_, fun m => ?_⟩
  · have := h1.keep q hq
    rw [h2.keep q (this ▸ hq), this]
  · rcases h2.only q hq with hq | hq
    · rcases h1.only q hq with hq | rfl | rfl
      · exact .inl hq
      · exact .inr (.inr rfl)
      · exact .inr (.inr rfl)
    · exact .inr hq
  · have hk := h1.keep q hq
    have := h2.data q hi (hk ▸ hq)
    rw [hk] at this
    rw [this, h1.data q hi hq]
  · refine h2.new ?_
    by_contra hc
    rcases h1.only p hc with h | h | h
    · exact h hz
    · exact hp h
    · exact hp h
  · rw [h2.entry, h1.entry]
  · rw [h2.other j hj, h1.other j hj]
  · rw [h2.dinode m, h1.dinode m]

theorem Inv.balloc_frame (h : Inv s) (hb : Ballocs s.disk b d) {q : Pos} (hq : s.ref q ≠ 0) : d.blk (s.ref q) = s.blk (s.ref q) :=
  hb.frame _ (h.fresh hb q) fun hm => by have := (h.owns.range q hq).1; have := hm.2; omega

theorem Inv.grows_addr (h : Inv s) (hl : Live s i n) (hz : (s.inode i).d.addrs k = 0)
    (hb : Ballocs s.disk b d) : Grows s i n (n, .inl k) b ({ s with disk := d }.setAddr i k b) := by
  have hsame := h.balloc_sameRefs hb
  obtain ⟨hinv, href⟩ := (h.balloc hb).setAddr (live_disk.mpr hl) hz (h.balloc_spare hb)
  rw [hsame.ref] at href
  have hpz : s.ref (n, .inl k) = 0 := by
    rw [ref, refOf_inl, h.view_live hl, hz]; rfl
  refine ⟨hinv, (live_disk.mpr hl).setAddr, by rw [href, update_self], hb.pos, fun q hq => ?_, fun q hq => ?_,
    fun q _ hq => h.balloc_frame hb hq, fun _ => hb.zero, ?_, fun j hj => ?_, hsame.dinode⟩
  · rw [href, update_of_ne (by rintro rfl; exact hq hpz)]
  · by_cases he : q = (n, .inl k)
    · exact .inr (.inl he)
    · rw [href, update_of_ne he] at hq; exact .inl hq
  · simp [State.setAddr, inode_setInode_self]
  · rw [setAddr_eq, inode_setInode_ne hj]

theorem sameRefs_of_eq (h : Core s) (hsb : d.sb = s.disk.sb) (hblk : d.blk = s.blk) : SameRefs s d :=
  ⟨hsb.trans h.sb, by rw [hblk], fun n => dinode_congr h.sb (hsb.trans h.sb) (by rw [hblk]), fun n _ => by rw [hblk]⟩

theorem Grows.relog (h : Grows s i n p b s') (hsb : d.sb = s'.disk.sb) (hblk : d.blk = s'.blk) : Grows s i n p b { s' with disk := d } := by
  have hs := sameRefs_of_eq h.inv.toCore hsb hblk
  have hb : ∀ x, ({ s' with disk := d } : State L).blk x = s'.blk x := fun x => by rw [blk, hblk]
  refine ⟨hs.inv h.inv fun x _ hu => ?_, live_disk.mpr h.live, ?_, h.pos, ?_, ?_, ?_, ?_, h.entry, h.other, ?_⟩
  · rw [hblk]; exact hu
  · rw [hs.ref]; exact h.ref
  · rw [hs.ref]; exact h.keep
  · rw [hs.ref]; exact h.only
  · simp only [hb]; exact h.data
  · simp only [hb]; exact h.new
  · intro m; exact (hs.dinode m).trans (h.dinode m)

section

variable (h : Inv s) (hl : Live s i n)
include h hl

theorem Inv.grows_entry (hz : (s.inode i).d.addrs indirect ≠ 0) {e : Fin NINDIRECT}
    (he : (s.blk ((s.inode i).d.addrs indirect).toNat).word (4 * e) = 0) (hb : Ballocs s.disk b d) :
    Grows s i n (n, .inr e) b { s with disk := d.setEntry ((s.inode i).d.addrs indirect).toNat e b } := by
  have hsame := h.balloc_sameRefs hb
  have hvl := h.view_live hl
  have hz' : (view s n).addrs indirect ≠ 0 := by rw [hvl]; exact hz
  have hind : s.ref (n, .inl indirect) = ((s.inode i).d.addrs indirect).toNat := by rw [ref, refOf_inl, hvl]
  have hpz : s.ref (n, .inr e) = 0 := by
    rw [ref, refOf_inr hz', hvl, he]; rfl
  obtain ⟨hinv, href⟩ := (h.balloc hb).setEntry (live_disk.mpr hl) hz e (h.balloc_spare hb)
  rw [hsame.ref] at href
  have hne : b ≠ ((s.inode i).d.addrs indirect).toNat := fun hc => h.fresh hb _ (hind.trans hc.symm)
  refine ⟨hinv, live_disk.mpr hl, ?_, hb.pos, fun q hq => ?_, fun q hq => ?_, fun q hqi hq => ?_, fun _ => ?_, rfl,
    fun j _ => rfl, fun m => ?_⟩
  · exact (congrFun href _).trans (update_self ..)
  · exact (congrFun href q).trans (update_of_ne (by rintro rfl; exact hq hpz) _ _)
  · by_cases hqe : q = (n, .inr e)
    · exact .inr (.inl hqe)
    · rw [(congrFun href q).trans (update_of_ne hqe _ _)] at hq
      exact .inl hq
  · have hqn : s.ref q ≠ ((s.inode i).d.addrs indirect).toNat := by
      intro hc
      rw [← hind] at hc
      exact hqi (by rw [h.owns.inj q _ hq hc])
    exact (update_of_ne hqn _ _).trans (h.balloc_frame hb hq)
  · exact (update_of_ne hne _ _).trans hb.zero
  · have hge : iblock Mkfs.sb m < ((s.inode i).d.addrs indirect).toNat := by
      have h1 := h.indirect_ge hz'
      have h2 := iblock_lt_nmeta m
      rw [hvl] at h1
      omega
    rw [← hsame.dinode m]
    exact dinode_congr hsame.sb hsame.sb (update_of_ne (by omega) _ _)

theorem ends_bmapAddr (k : Fin (NDIRECT + 1)) :
    Ends (NoSpace lw) (fun r => Grows s i n (n, .inl k) r.1 r.2) (bmapAddr lw s i k) := by
  unfold bmapAddr
  split
  · rename_i hz
    exact (ends_balloc h.sb h.meta_used).bind fun r hr => h.grows_addr hl hz hr
  · rename_i hz
    exact Grows.refl h hl (by rw [ref, refOf_inl, h.view_live hl]) (mt toNat_eq_zero.mp hz)

theorem ends_bmapEntry (hz : (s.inode i).d.addrs indirect ≠ 0) (e : Fin NINDIRECT) :
    Ends (NoSpace lw) (fun r => Grows s i n (n, .inr e) r.1 r.2)
      (bmapEntry lw s ((s.inode i).d.addrs indirect).toNat e) := by
  unfold bmapEntry
  split
  · rename_i he
    refine (ends_balloc h.sb h.meta_used).bind fun r hr => ?_
    refine (ends_logWrite (fun _ => .inl) _ _).bind fun d2 ⟨hs, hb, _⟩ => ?_
    exact (h.grows_entry hl hz he hr).relog hs hb
  · rename_i he
    refine Grows.refl h hl ?_ (mt toNat_eq_zero.mp he)
    have hvl := h.view_live hl
    rw [ref, refOf_inr (by rw [hvl]; exact hz), hvl]

theorem ends_bmap {bn : Nat} (hbn : bn < MAXFILE) :
    Ends (NoSpace lw) (fun r => Grows s i n (n, dataIdx bn hbn) r.1 r.2) (bmap lw s i bn) := by
  unfold bmap
  by_cases hd : bn < NDIRECT
  · rw [dif_pos hd, dataIdx, dif_pos hd]
    exact ends_bmapAddr h hl _
  · have hlt : bn - NDIRECT < NINDIRECT := by have : MAXFILE = NDIRECT + NINDIRECT := rfl; omega
    rw [dif_neg hd, if_pos hlt, dataIdx, dif_neg hd]
    refine (ends_bmapAddr h hl indirect).bind fun ⟨ind, s1⟩ h1 => ?_
    dsimp only at h1
    have hind : ((s1.inode i).d.addrs indirect).toNat = ind := by
      rw [← h1.ref, ref, refOf_inl, h1.inv.view_live h1.live]
    have hz1 : (s1.inode i).d.addrs indirect ≠ 0 := fun hz => h1.pos (by rw [← hind, hz]; rfl)
    subst hind
    exact (ends_bmapEntry h1.inv h1.live hz1 ⟨bn - NDIRECT, hlt⟩).imp fun r hr => h1.trans hr (by simp)

end

end Xv6.Fs
