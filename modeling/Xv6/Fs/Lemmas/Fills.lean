import Mathlib.Data.Finset.Card
import Mathlib.Data.Finset.Union
import Mathlib.Algebra.Order.BigOperators.Group.Finset
import Xv6.Fs.Lemmas.ReadWrite

/-!
# What an allocation takes

A write needs a set of positions: those of its data blocks, and the indirect block if one of them hangs below it.
-/

namespace Xv6.Fs

open Xv6.Lib Function List

variable {L : Type} {lw : LogWrite L} {s s1 s' : State L} {i : Fin NINODE} {n : Inum}
variable {d d' : Disk L} {b bn off len a c : Nat} {N N' : Finset Idx} {src : Nat → BitVec 8} {blk : Nat → Block} {f : Idx → Nat} {y : Nat}
  {p : Panic} {x : Idx}

/-! ## Free blocks -/

def spare (blk : Nat → Block) : Nat := ((Finset.range FSSIZE).filter fun b => used blk b = false).card

theorem spare_congr {blk' : Nat → Block} (h : ∀ x, x < FSSIZE → used blk' x = used blk x) : spare blk' = spare blk := by
  refine congrArg Finset.card (Finset.filter_congr fun x hx => ?_)
  rw [h x (Finset.mem_range.mp hx)]

theorem spare_balloc (h : Ballocs d b d') : spare d.blk = spare d'.blk + 1 := by
  have hmem : b ∈ (Finset.range FSSIZE).filter fun x => used d.blk x = false := by simp [h.lt, h.free]
  have herase : ((Finset.range FSSIZE).filter fun x => used d'.blk x = false) =
      ((Finset.range FSSIZE).filter fun x => used d.blk x = false).erase b := by
    ext x
    simp only [Finset.mem_filter, Finset.mem_range, Finset.mem_erase]
    refine ⟨fun ⟨hx, hu⟩ => ?_, fun ⟨hne, hx, hu⟩ => ⟨hx, ?_⟩⟩
    · rw [h.used x hx, Bool.or_eq_false_iff] at hu
      exact ⟨of_decide_eq_false hu.2, hx, hu.1⟩
    · rw [h.used x hx, hu, decide_eq_false hne]
      rfl
  rw [spare, spare, herase, Finset.card_erase_add_one hmem]

theorem le_spare {z : Nat} (ha : a + z ≤ FSSIZE) (h : ∀ j, j < z → used blk (a + j) = false) : z ≤ spare blk := by
  have hsub : (Finset.range z).image (a + ·) ⊆ (Finset.range FSSIZE).filter fun b => used blk b = false := by
    intro b hb
    obtain ⟨j, hj, rfl⟩ := Finset.mem_image.mp hb
    have hlt := Finset.mem_range.mp hj
    exact Finset.mem_filter.mpr ⟨Finset.mem_range.mpr (by omega), h j hlt⟩
  have hcard := Finset.card_le_card hsub
  rwa [Finset.card_image_of_injective _ fun _ _ => Nat.add_left_cancel, Finset.card_range] at hcard

theorem balloc_outOfBlocks (hsb : d.sb = Mkfs.sb) (h : balloc lw d = .error .outOfBlocks) : spare d.blk = 0 := by
  by_contra hne
  obtain ⟨b, hb⟩ := Finset.card_pos.mp (Nat.pos_of_ne_zero hne)
  simp only [Finset.mem_filter, Finset.mem_range] at hb
  exact balloc_ne_outOfBlocks hsb hb.1 hb.2 h

theorem log_balloc (hsb : d.sb = Mkfs.sb) :
    Ends (fun p => p = .log ∧ (∃ b, lw d.log (bblock Mkfs.sb b) = none ∨ ∃ l, lw d.log (bblock Mkfs.sb b) = some l ∧ lw l b = none) ∨
        p = .outOfBlocks)
      (fun r => [bblock Mkfs.sb r.1, r.1].foldlM lw d.log = some r.2.log) (balloc lw d) := by
  unfold balloc
  split
  · rename_i b bi hf
    obtain ⟨hb, hbi, _, _⟩ := findFree_some (by rfl) hf
    rw [hsb, (findFree_place hb hbi).2]
    refine Ends.bind ((ends_logWrite_at _ _).mono (fun p ⟨hp, hn⟩ => .inl ⟨hp, b + bi, .inl hn⟩) fun _ => id)
      fun d1 ⟨_, _, h1⟩ => ?_
    refine Ends.bind ((ends_logWrite_at _ _).mono (fun p ⟨hp, hn⟩ => .inl ⟨hp, b + bi, .inr ⟨d1.log, h1, hn⟩⟩) fun _ => id)
      fun d2 ⟨_, _, h2⟩ => ?_
    dsimp only [Disk.setBlk] at h1 h2
    change [bblock Mkfs.sb (b + bi), b + bi].foldlM lw d.log = some d2.log
    rw [foldlM_cons, h1]
    change [b + bi].foldlM lw d1.log = some d2.log
    rw [foldlM_cons, h2]
    rfl
  · exact .inr rfl

/-! ## Positions -/

def missing (s : State L) (n : Inum) (N : Finset Idx) : Finset Idx := N.filter fun x => s.ref (n, x) = 0

/-- Block `y` is that of the inode, or the one that `f` has for one of the positions, or the bitmap block of a new one. -/
def Logged (s : State L) (n : Inum) (N : Finset Idx) (f : Idx → Nat) (y : Nat) : Prop :=
  y = iblock Mkfs.sb n ∨ ∃ x ∈ N, y = f x ∨ s.ref (n, x) = 0 ∧ y = bblock Mkfs.sb (f x)

structure Fills (lw : LogWrite L) (s : State L) (n : Inum) (N : Finset Idx) (s' : State L) : Prop where
  ref : ∀ x, s'.ref (n, x) ≠ 0 ↔ s.ref (n, x) ≠ 0 ∨ x ∈ N
  keep : ∀ x, s.ref (n, x) ≠ 0 → s'.ref (n, x) = s.ref (n, x)
  spare : spare s.blk = spare s'.blk + (missing s n N).card
  log : ∃ bs : List Nat, bs.foldlM lw s.disk.log = some s'.disk.log ∧ ∀ y ∈ bs, Logged s n N (fun x => s'.ref (n, x)) y

/-- The log has refused a block after it had accepted some. `f` has the blocks of the positions at that point. -/
def Refused (lw : LogWrite L) (s : State L) (n : Inum) (N : Finset Idx) : Prop :=
  ∃ (f : Idx → Nat) (bs : List Nat) (l : L) (b : Nat), (∀ x, s.ref (n, x) ≠ 0 → f x = s.ref (n, x)) ∧
    bs.foldlM lw s.disk.log = some l ∧ lw l b = none ∧ ∀ y ∈ bs ++ [b], Logged s n N f y

def Short (lw : LogWrite L) (s : State L) (n : Inum) (N : Finset Idx) (p : Panic) : Prop :=
  p = .log ∧ Refused lw s n N ∨ p = .outOfBlocks ∧ spare s.blk < (missing s n N).card

theorem Logged.first (h : Logged s n N f y) (N' : Finset Idx) : Logged s n (N ∪ N') f y :=
  h.imp id fun ⟨x, hx, he⟩ => ⟨x, Finset.mem_union_left _ hx, he⟩

theorem Fills.refl (lw : LogWrite L) (s : State L) (n : Inum) : Fills lw s n ∅ s :=
  ⟨by simp, fun _ _ => rfl, by simp [missing], [], rfl, by simp⟩

theorem Fills.same (hd : s'.disk = s.disk) (hv : view s' n = view s n) : Fills lw s n ∅ s' := by
  have hr : ∀ x, s'.ref (n, x) = s.ref (n, x) := fun x => by
    rw [State.ref, State.ref, refOf, refOf, State.blk, State.blk, hd, hv]
  refine ⟨fun x => by simp [hr], fun x _ => hr x, ?_, [], by rw [hd]; rfl, by simp⟩
  rw [State.blk, State.blk, hd]
  simp [missing]

theorem Fills.logged_before (h : Fills lw s n N s1) (hf : ∀ x, s1.ref (n, x) ≠ 0 → f x = s1.ref (n, x))
    (hy : Logged s n N (fun x => s1.ref (n, x)) y) : Logged s n (N ∪ N') f y := by
  refine hy.imp id fun ⟨x, hx, he⟩ => ⟨x, Finset.mem_union_left _ hx, ?_⟩
  rw [hf x ((h.ref x).mpr (.inr hx))]
  exact he

theorem Fills.logged_after (h : Fills lw s n N s1) (hy : Logged s1 n N' f y) : Logged s n (N ∪ N') f y := by
  refine hy.imp id fun ⟨x, hx, he⟩ => ⟨x, Finset.mem_union_right _ hx, he.imp id fun ⟨hz, he⟩ => ⟨?_, he⟩⟩
  by_contra hne
  exact (h.ref x).mpr (.inl hne) hz

/-- What is missing for both is missing for the one or, after that, for the other. -/
theorem Fills.card_union (h : Fills lw s n N s1) (N' : Finset Idx) :
    (missing s n (N ∪ N')).card = (missing s n N).card + (missing s1 n N').card := by
  rw [← Finset.card_union_of_disjoint]
  · congr 1
    ext x
    have := h.ref x
    simp only [missing, Finset.mem_filter, Finset.mem_union] at this ⊢
    tauto
  · refine Finset.disjoint_left.mpr fun x hx hx' => ?_
    simp only [missing, Finset.mem_filter] at hx hx'
    exact (h.ref x).mpr (.inr hx.1) hx'.2

theorem Fills.trans (h1 : Fills lw s n N s1) (h2 : Fills lw s1 n N' s') : Fills lw s n (N ∪ N') s' := by
  refine ⟨fun x => ?_, fun x hx => ?_, ?_, ?_⟩
  · rw [h2.ref, h1.ref, Finset.mem_union, or_assoc]
  · have := h1.keep x hx
    rw [h2.keep x (this ▸ hx), this]
  · have := h1.spare
    have := h2.spare
    rw [h1.card_union]
    omega
  · obtain ⟨bs, hbs, hb⟩ := h1.log
    obtain ⟨bs', hbs', hb'⟩ := h2.log
    refine ⟨bs ++ bs', by rw [foldlM_append, hbs]; exact hbs', fun y hy => ?_⟩
    rcases mem_append.mp hy with hy | hy
    · exact h1.logged_before h2.keep (hb y hy)
    · exact h1.logged_after (hb' y hy)

theorem Short.first (h : Short lw s n N p) (N' : Finset Idx) : Short lw s n (N ∪ N') p := by
  refine h.imp (fun ⟨hp, f, bs, l, b, hf, hbs, hb, hlog⟩ => ?_) fun ⟨hp, hlt⟩ => ⟨hp, lt_of_lt_of_le hlt ?_⟩
  · exact ⟨hp, f, bs, l, b, hf, hbs, hb, fun y hy => (hlog y hy).first N'⟩
  · exact Finset.card_le_card (Finset.filter_subset_filter _ Finset.subset_union_left)

theorem Fills.short (h : Fills lw s n N s1) (hp : Short lw s1 n N' p) : Short lw s n (N ∪ N') p := by
  refine hp.imp (fun ⟨hp, f, bs, l, b, hf, hbs, hb, hlog⟩ => ?_) fun ⟨hp, hlt⟩ => ⟨hp, ?_⟩
  · obtain ⟨bs1, hbs1, hlog1⟩ := h.log
    refine ⟨hp, f, bs1 ++ bs, l, b, fun x hx => ?_, by rw [foldlM_append, hbs1]; exact hbs, hb, fun y hy => ?_⟩
    · have := h.keep x hx
      rw [hf x (this ▸ hx), this]
    · rw [append_assoc] at hy
      rcases mem_append.mp hy with hy | hy
      · exact h.logged_before hf (hlog1 y hy)
      · exact h.logged_after (hlog y hy)
  · have := h.spare
    rw [h.card_union]
    omega

theorem Fills.refused (h : Fills lw s n N s1) (hb : b = iblock Mkfs.sb n ∨ ∃ x ∈ N, b = s1.ref (n, x))
    (hp : p = .log ∧ lw s1.disk.log b = none) : Short lw s n N p := by
  obtain ⟨bs, hbs, hmem⟩ := h.log
  refine .inl ⟨hp.1, _, bs, _, b, h.keep, hbs, hp.2, fun y hy => ?_⟩
  rcases mem_append.mp hy with hy | hy
  · exact hmem y hy
  · rw [mem_singleton.mp hy]
    exact hb.imp id fun hx => hx.imp fun x hx => ⟨hx.1, .inl hx.2⟩

theorem Fills.store (h : Fills lw s n N s1) (href : s'.ref = s1.ref) (hu : ∀ x, x < FSSIZE → used s'.blk x = used s1.blk x)
    (hlog : lw s1.disk.log b = some s'.disk.log) (hb : b = iblock Mkfs.sb n ∨ ∃ x ∈ N, b = s1.ref (n, x)) : Fills lw s n N s' := by
  obtain ⟨bs, hbs, hmem⟩ := h.log
  refine ⟨by rw [href]; exact h.ref, by rw [href]; exact h.keep, ?_, bs ++ [b], ?_, fun y hy => ?_⟩
  · rw [h.spare, State.blk, State.blk, spare_congr hu]
  · rw [foldlM_append, hbs]
    change [b].foldlM lw s1.disk.log = _
    rw [foldlM_cons, hlog]
    rfl
  · rw [href]
    rcases mem_append.mp hy with hy | hy
    · exact hmem y hy
    · rw [mem_singleton.mp hy]
      exact hb.imp id fun hx => hx.imp fun x hx => ⟨hx.1, .inl hx.2⟩

/-! ## `bmap` -/

theorem Ballocs.fills (hb : Ballocs s.disk b d) (hl : [bblock Mkfs.sb b, b].foldlM lw s.disk.log = some d.log)
    (hx : s.ref (n, x) = 0) (hblk : ∀ y, y < FSSIZE → Fs.used s'.blk y = Fs.used d.blk y) (hlog : s'.disk.log = d.log)
    (href : s'.ref = update s.ref (n, x) b) : Fills lw s n {x} s' := by
  have hself : s'.ref (n, x) = b := by rw [href, update_self]
  have hne : ∀ y, y ≠ x → s'.ref (n, y) = s.ref (n, y) := fun y hy => by
    rw [href, update_of_ne (by simpa using hy)]
  refine ⟨fun y => ?_, fun y hy => hne y (by rintro rfl; exact hy hx), ?_, _, hlog ▸ hl, fun y hy => .inr ⟨x, by simp, ?_⟩⟩
  · by_cases hy : y = x
    · subst hy
      simp [hself, hb.pos]
    · simp [hne y hy, hy]
  · have hm : missing s n {x} = {x} := by simp [missing, Finset.filter_singleton, hx]
    rw [hm, Finset.card_singleton, State.blk, spare_balloc hb, State.blk, spare_congr hblk]
  · dsimp only
    rw [hself]
    simp only [mem_cons, not_mem_nil, or_false] at hy
    exact hy.symm.imp id fun he => ⟨hx, he⟩

theorem ends_balloc_short (h : Inv s) (hx : s.ref (n, x) = 0) :
    Ends (Short lw s n {x}) (fun r => Ballocs s.disk r.1 r.2 ∧ [bblock Mkfs.sb r.1, r.1].foldlM lw s.disk.log = some r.2.log)
      (balloc lw s.disk) := by
  have hends : Ends (NoSpace lw) _ (balloc lw s.disk) := ends_balloc h.sb h.meta_used
  cases he : balloc lw s.disk with
  | ok r => exact ⟨hends.of_ok he, (log_balloc h.sb).of_ok he⟩
  | error e =>
    rcases (log_balloc h.sb).of_error he with ⟨hp, b, hb⟩ | rfl
    · refine .inl ⟨hp, ?_⟩
      have hf : ∀ y, s.ref (n, y) ≠ 0 → update (fun y => s.ref (n, y)) x b y = s.ref (n, y) := fun y hy =>
        update_of_ne (by rintro rfl; exact hy hx) _ _
      have hmap : Logged s n {x} (update (fun y => s.ref (n, y)) x b) (bblock Mkfs.sb b) :=
        .inr ⟨x, by simp, .inr ⟨hx, by rw [update_self]⟩⟩
      have hnew : Logged s n {x} (update (fun y => s.ref (n, y)) x b) b :=
        .inr ⟨x, by simp, .inl (by rw [update_self])⟩
      rcases hb with hb | ⟨l, hl, hb⟩
      · exact ⟨_, [], _, _, hf, rfl, hb, by simpa using hmap⟩
      · exact ⟨_, [bblock Mkfs.sb b], l, b, hf, by rw [foldlM_cons, hl]; rfl, hb, by simpa using ⟨hmap, hnew⟩⟩
    · have hm : missing s n {x} = {x} := by simp [missing, Finset.filter_singleton, hx]
      refine .inr ⟨rfl, ?_⟩
      rw [State.blk, balloc_outOfBlocks h.sb he, hm, Finset.card_singleton]
      exact Nat.zero_lt_one

theorem Fills.there (hx : s.ref (n, x) ≠ 0) : Fills lw s n {x} s := by
  refine ⟨fun y => ?_, fun _ _ => rfl, ?_, [], rfl, by simp⟩
  · rw [Finset.mem_singleton]
    exact ⟨.inl, fun hy => hy.elim id fun he => he ▸ hx⟩
  · simp [missing, Finset.filter_singleton, hx]

theorem fills_bmapAddr (h : Inv s) (hl : Live s i n) (k : Fin (NDIRECT + 1)) :
    Ends (Short lw s n {.inl k}) (fun r => Fills lw s n {.inl k} r.2) (bmapAddr lw s i k) := by
  have href : s.ref (n, .inl k) = ((s.inode i).d.addrs k).toNat := by rw [State.ref, refOf_inl, h.view_live hl]
  unfold bmapAddr
  split
  · rename_i hz
    have hx : s.ref (n, .inl k) = 0 := by rw [href, hz]; rfl
    refine (ends_balloc_short h hx).bind ?_
    rintro ⟨b, d⟩ ⟨hb, hlog⟩
    obtain ⟨_, hr⟩ := (h.balloc hb).setAddr (live_disk.mpr hl) hz (h.balloc_spare hb)
    rw [(h.balloc_sameRefs hb).ref] at hr
    exact hb.fills hlog hx (fun _ _ => rfl) rfl hr
  · rename_i hz
    exact .there (by rw [href]; exact mt toNat_eq_zero.mp hz)

theorem fills_bmapEntry (h : Inv s) (hl : Live s i n) (hz : (s.inode i).d.addrs indirect ≠ 0) (e : Fin NINDIRECT) :
    Ends (Short lw s n {.inl indirect, .inr e}) (fun r => Fills lw s n {.inl indirect, .inr e} r.2)
      (bmapEntry lw s ((s.inode i).d.addrs indirect).toNat e) := by
  have hvl := h.view_live hl
  have hind : s.ref (n, .inl indirect) = ((s.inode i).d.addrs indirect).toNat := by rw [State.ref, refOf_inl, hvl]
  have hthere : Fills lw s n {.inl indirect} s := .there (by rw [hind]; exact mt toNat_eq_zero.mp hz)
  have href : s.ref (n, .inr e) = ((s.blk ((s.inode i).d.addrs indirect).toNat).word (4 * e)).toNat := by
    rw [State.ref, refOf_inr (by rw [hvl]; exact hz), hvl]
  rw [show ({.inl indirect, .inr e} : Finset Idx) = {.inl indirect} ∪ {.inr e} from rfl]
  unfold bmapEntry
  split
  · rename_i he
    have hx : s.ref (n, .inr e) = 0 := by rw [href, he]; rfl
    refine Ends.bind ((ends_balloc_short h hx).mono (fun _ hp => hthere.short hp) fun _ => id) ?_
    rintro ⟨b, d⟩ ⟨hb, hlog⟩
    have hsame := h.balloc_sameRefs hb
    obtain ⟨hinv, hr⟩ := (h.balloc hb).setEntry (live_disk.mpr hl) hz e (h.balloc_spare hb)
    rw [hsame.ref] at hr
    have hfill : Fills lw s n {.inr e} { s with disk := d.setEntry ((s.inode i).d.addrs indirect).toNat e b } := by
      refine hb.fills hlog hx (fun y hy => ?_) rfl hr
      have hge := h.indirect_ge (n := n) (by rw [hvl]; exact hz)
      rw [hvl] at hge
      have hlt := (bblock_inMap hy).2
      change used (update d.blk _ _) y = _
      rw [used, update_of_ne (by omega), used]
    have hind2 : update s.ref (n, .inr e) b (n, .inl indirect) = ((s.inode i).d.addrs indirect).toNat := by
      rw [update_of_ne (by simp), hind]
    have hboth := hthere.trans hfill
    have hblock : ∃ x ∈ ({.inl indirect} ∪ {.inr e} : Finset Idx), ((s.inode i).d.addrs indirect).toNat =
        ({ s with disk := d.setEntry ((s.inode i).d.addrs indirect).toNat e b } : State L).ref (n, x) :=
      ⟨.inl indirect, by simp, by rw [hr, hind2]⟩
    refine Ends.bind ((ends_logWrite_at _ _).mono (fun _ hp => hboth.refused (.inr hblock) hp) fun _ => id) ?_
    rintro d2 ⟨hs, hblk, hl2⟩
    exact hboth.store (sameRefs_of_eq hinv.toCore hs hblk).ref (fun y _ => congrArg (used · y) hblk) hl2 (.inr hblock)
  · rename_i he
    exact hthere.trans (.there (by rw [href]; exact mt toNat_eq_zero.mp he))

def needs (bn : Nat) : Finset Idx :=
  if h : bn < NDIRECT then {.inl ⟨bn, Nat.lt_succ_of_lt h⟩}
  else if h : bn - NDIRECT < NINDIRECT then {.inl indirect, .inr ⟨bn - NDIRECT, h⟩}
  else ∅

theorem fills_bmap (h : Inv s) (hl : Live s i n) (hbn : bn < MAXFILE) :
    Ends (Short lw s n (needs bn)) (fun r => Fills lw s n (needs bn) r.2) (bmap lw s i bn) := by
  unfold bmap needs
  by_cases hd : bn < NDIRECT
  · rw [dif_pos hd, dif_pos hd]
    exact fills_bmapAddr h hl _
  · have hlt : bn - NDIRECT < NINDIRECT := by have : MAXFILE = NDIRECT + NINDIRECT := rfl; omega
    rw [dif_neg hd, if_pos hlt, dif_neg hd, dif_pos hlt]
    have hunion : ({.inl indirect, .inr ⟨bn - NDIRECT, hlt⟩} : Finset Idx) =
        {.inl indirect} ∪ {.inl indirect, .inr ⟨bn - NDIRECT, hlt⟩} := by
      rw [Finset.insert_eq, ← Finset.union_assoc, Finset.union_self]
    rw [hunion]
    have hgrows : Ends (NoSpace lw) _ (bmapAddr lw s i indirect) := ends_bmapAddr h hl indirect
    refine Ends.bind (((fills_bmapAddr h hl indirect).and hgrows).mono (fun _ hp => hp.first _) fun _ => id) ?_
    rintro ⟨ind, s1⟩ ⟨hf, h1⟩
    dsimp only at hf h1 ⊢
    have hind : ((s1.inode i).d.addrs indirect).toNat = ind := by
      rw [← h1.ref, State.ref, refOf_inl, h1.inv.view_live h1.live]
    have hz1 : (s1.inode i).d.addrs indirect ≠ 0 := fun hz => h1.pos (by rw [← hind, hz]; rfl)
    subst hind
    exact (fills_bmapEntry h1.inv h1.live hz1 ⟨bn - NDIRECT, hlt⟩).mono (fun _ hp => hf.short hp) fun _ hr => hf.trans hr

/-! ## `writei` -/

def Touch (off len bn : Nat) : Prop := 0 < len ∧ bn * BSIZE < off + len ∧ off < (bn + 1) * BSIZE

instance (off len bn : Nat) : Decidable (Touch off len bn) := by unfold Touch; infer_instance

def touched (off len : Nat) : Finset Nat := (Finset.range MAXFILE).filter fun bn => Touch off len bn

theorem mem_touched : bn ∈ touched off len ↔ bn < MAXFILE ∧ Touch off len bn := by
  simp [touched]

def range (off len : Nat) : Finset Idx := (touched off len).biUnion needs

theorem range_add (off a c : Nat) : range off (a + c) = range off a ∪ range (off + a) c := by
  rw [range, range, range, ← Finset.union_biUnion, touched, touched, touched, ← Finset.filter_or]
  congr 1
  refine Finset.filter_congr fun bn _ => ?_
  simp only [Touch, BSIZE]
  omega

theorem range_zero (off : Nat) : range off 0 = ∅ := by
  simp [range, touched, Touch]

theorem range_pass (hlen : 0 < len) (hfit : off % BSIZE + len ≤ BSIZE) (hbn : off / BSIZE < MAXFILE) :
    range off len = needs (off / BSIZE) := by
  have : touched off len = {off / BSIZE} := by
    ext bn
    simp only [touched, Finset.mem_filter, Finset.mem_range, Finset.mem_singleton]
    have := pass_block (k := bn) hlen hfit
    simp only [Touch] at this ⊢
    rw [← this]
    exact ⟨fun h => h.2, fun h => ⟨h ▸ hbn, h⟩⟩
  rw [range, this, Finset.singleton_biUnion]

theorem dataIdx_mem_needs (hbn : bn < MAXFILE) : dataIdx bn hbn ∈ needs bn := by
  unfold dataIdx needs
  have : MAXFILE = NDIRECT + NINDIRECT := rfl
  split
  · simp
  · rw [dif_pos (by omega)]
    simp

theorem missing_range_full (h : ∀ bn, bn * BSIZE < off + len → dataRef s n bn ≠ 0) : missing s n (range off len) = ∅ := by
  refine Finset.filter_eq_empty_iff.mpr fun x hx => ?_
  obtain ⟨bn, hbn, hx⟩ := Finset.mem_biUnion.mp hx
  obtain ⟨hM, ht⟩ := mem_touched.mp hbn
  have hr := h bn ht.2.1
  rw [dataRef_of_lt hM] at hr
  unfold needs at hx
  unfold dataIdx at hr
  split at hx
  · rename_i hd
    rw [dif_pos hd] at hr
    rw [Finset.mem_singleton.mp hx]
    exact hr
  · rename_i hd
    rw [dif_neg hd] at hr
    rw [dif_pos (by have : MAXFILE = NDIRECT + NINDIRECT := rfl; omega)] at hx
    rcases Finset.mem_insert.mp hx with rfl | hx
    · exact fun hz => hr (refOf_inr_zero (toNat_eq_zero.mp hz) _)
    · rw [Finset.mem_singleton.mp hx]
      exact hr

theorem fills_writeLoop {fuel : Nat} (h : Inv s) (hl : Live s i n) (hf : len ≤ fuel) (hmax : off + len ≤ MAXFILE * BSIZE) :
    Ends (Short lw s n (range off len)) (Fills lw s n (range off len)) (writeLoop lw i fuel s src off len) := by
  induction fuel generalizing s src off len with
  | zero =>
    obtain rfl : len = 0 := by omega
    rw [range_zero]
    exact .refl lw s n
  | succ fuel ih =>
    rw [writeLoop]
    split
    · rename_i hz
      subst hz
      rw [range_zero]
      exact .refl lw s n
    · rename_i hz
      have hbn := pass_lt (Nat.pos_of_ne_zero hz) hmax
      have hmod := mod_lt_BSIZE off
      have hlen : len = min len (BSIZE - off % BSIZE) + (len - min len (BSIZE - off % BSIZE)) := by omega
      have hrange : range off len = needs (off / BSIZE) ∪
          range (off + min len (BSIZE - off % BSIZE)) (len - min len (BSIZE - off % BSIZE)) := by
        conv_lhs => rw [hlen]
        rw [range_add, range_pass (by omega) (by omega) hbn]
      rw [hrange]
      have hgrows : Ends (NoSpace lw) _ (bmap lw s i (off / BSIZE)) := ends_bmap h hl hbn
      refine Ends.bind (((fills_bmap h hl hbn).and hgrows).mono (fun _ hp => hp.first _) fun _ => id) ?_
      rintro ⟨b, s1⟩ ⟨hfill, h1⟩
      have hblock : ∃ x ∈ needs (off / BSIZE), b = s1.ref (n, x) := ⟨_, dataIdx_mem_needs hbn, h1.ref.symm⟩
      refine Ends.bind ((ends_logWrite_at _ _).mono (fun _ hp => (hfill.refused (.inr hblock) hp).first _) fun _ => id) ?_
      rintro d ⟨hsb, hblk, hlog⟩
      have hw : Writes s i n src off (min len (BSIZE - off % BSIZE)) { s1 with disk := d } :=
        h1.writes hbn (by omega) (by omega) hsb hblk
      -- storing the data does not change the positions
      have hdata : dataRef s1 n (off / BSIZE) = b := by rw [dataRef_of_lt hbn]; exact h1.ref
      have hne : dataRef s1 n (off / BSIZE) ≠ 0 := by rw [hdata]; exact h1.pos
      have hstore : Fills lw s n (needs (off / BSIZE)) { s1 with disk := d } := by
        refine hfill.store (h1.inv.sameRefs_data hne hsb (by rw [hdata]; exact hblk)).ref (fun x hx => ?_) hlog (.inr hblock)
        rw [State.blk, hblk, ← hdata]
        exact used_data h1.inv.toCore hne hx
      exact (ih hw.inv hw.live (by omega) (by omega)).mono (fun _ hp => hstore.short hp) fun _ hs' => hstore.trans hs'

theorem log_iupdate (hsb : s.disk.sb = Mkfs.sb) (hn : (s.inode i).inum = n) :
    Ends (fun p => p = .log ∧ lw s.disk.log (iblock Mkfs.sb n) = none) (fun _ => True) (iupdate lw s i) := by
  unfold iupdate putDinode
  rw [hn, hsb]
  exact (ends_logWrite_at _ _).bind fun _ _ => trivial

theorem Fills.resize (hf : Fills lw s n N s1) (h : Inv s1) (hl : Live s1 i n) (size : BitVec 32) :
    Ends (Short lw s n N) (Fills lw s n N)
      (iupdate lw (s1.setInode i { s1.inode i with d := { (s1.inode i).d with size } }) i) := by
  have hinv := (h.touch hl.ref { s1.inode i with d := { (s1.inode i).d with size } } rfl id rfl).1
  have hlive : Live (s1.setInode i { s1.inode i with d := { (s1.inode i).d with size } }) i n :=
    Live.setInode hl.ref hl.valid hl.inum
  have hview : view (s1.setInode i { s1.inode i with d := { (s1.inode i).d with size } }) =
      update (view s1) n { (s1.inode i).d with size } :=
    view_setInode_live h.uniq (h.fits hl.ref rfl) hl hl.ref hl.valid hl.inum
  have href : (s1.setInode i { s1.inode i with d := { (s1.inode i).d with size } }).ref = s1.ref := by
    refine refOf_addrs (fun m => ?_) s1.blk
    rw [hview]
    by_cases hm : m = n
    · subst hm; rw [update_self, h.view_live hl]
    · rw [update_of_ne hm]
  have hends : Ends (LogFull lw) _ (iupdate lw (s1.setInode i { s1.inode i with d := { (s1.inode i).d with size } }) i) :=
    hinv.iupdate hlive fun j _ => hinv.behind j
  refine ((log_iupdate hinv.sb hlive.inum).and hends).mono (fun p hp => hf.refused (.inl rfl) hp) fun s' ⟨_, hs, hp⟩ => ?_
  exact hf.store (hs.ref.trans href) (fun x hx => hp.used hx) hp.log (.inl rfl)

theorem fills_writei {off len : BitVec 32} (h : Inv s) (hl : Live s i n) (ht : (view s n).type ≠ T_DEV)
    (hr : InRange s n off len) (hmax : off.toNat + len.toNat ≤ MAXFILE * BSIZE) :
    Ends (Short lw s n (range off.toNat len.toNat)) (fun r => Fills lw s n (range off.toNat len.toNat) r.2)
      (writei lw s i src off len) := by
  simp only [writei]
  rw [if_neg (by rw [← h.view_live hl]; exact ht), if_neg ((inRange_iff h.toCore hl off len).not_left.mpr hr),
    if_neg (by rw [gt_iff_lt, BitVec.lt_def, hr.toNat_add, toNat_maxBytes]; omega)]
  have hwrites : Ends (NoSpace lw) _ (writeLoop lw i len.toNat s src off.toNat len.toNat) :=
    ends_writeLoop h hl le_rfl hmax
  refine ((fills_writeLoop h hl le_rfl hmax).and hwrites).bind ?_
  rintro s1 ⟨hf, hw⟩
  split
  · exact (hf.resize hw.inv hw.live (off + len)).bind fun s2 h2 => h2
  · exact hf

/-! ## Counting -/

theorem card_le_of_logged {T : Finset Nat} (h : ∀ y ∈ T, Logged s n N f y) : T.card ≤ N.card + (missing s n N).card + 1 := by
  have hsub : T ⊆ insert (iblock Mkfs.sb n) (N.image f ∪ (missing s n N).image fun x => bblock Mkfs.sb (f x)) := by
    intro y hy
    simp only [Finset.mem_insert, Finset.mem_union, Finset.mem_image, missing, Finset.mem_filter]
    refine (h y hy).imp id fun ⟨x, hx, he⟩ => he.imp (fun he => ⟨x, hx, he.symm⟩) fun ⟨hz, he⟩ => ⟨x, ⟨hx, hz⟩, he.symm⟩
  calc T.card ≤ (N.image f ∪ (missing s n N).image fun x => bblock Mkfs.sb (f x)).card + 1 :=
        (Finset.card_le_card hsub).trans (Finset.card_insert_le _ _)
    _ ≤ (N.image f).card + ((missing s n N).image fun x => bblock Mkfs.sb (f x)).card + 1 :=
        Nat.add_le_add_right (Finset.card_union_le _ _) 1
    _ ≤ N.card + (missing s n N).card + 1 :=
        Nat.add_le_add_right (Nat.add_le_add Finset.card_image_le Finset.card_image_le) 1

theorem mem_needs_erase (hx : x ∈ (needs bn).erase (.inl indirect)) : ∃ h : bn < MAXFILE, x = dataIdx bn h := by
  obtain ⟨hne, hx⟩ := Finset.mem_erase.mp hx
  have hM : MAXFILE = NDIRECT + NINDIRECT := rfl
  unfold needs at hx
  unfold dataIdx
  split at hx
  · rename_i h
    exact ⟨by omega, by rw [dif_pos h]; simpa using hx⟩
  · rename_i h
    split at hx
    · refine ⟨by omega, ?_⟩
      rw [dif_neg h]
      simpa [hne] using hx
    · simp at hx

theorem card_needs_erase (bn : Nat) : ((needs bn).erase (.inl indirect)).card ≤ 1 := by
  refine Finset.card_le_one.mpr fun x hx y hy => ?_
  obtain ⟨h, rfl⟩ := mem_needs_erase hx
  obtain ⟨_, rfl⟩ := mem_needs_erase hy
  rfl

theorem card_missing_le (s : State L) (n : Inum) (N : Finset Idx) : (missing s n N).card ≤ N.card :=
  Finset.card_le_card (Finset.filter_subset _ _)

theorem card_touched_le (off len : Nat) : (touched off len).card ≤ MAXFILE :=
  (Finset.card_le_card (Finset.filter_subset _ _)).trans_eq (Finset.card_range MAXFILE)

theorem card_range (off len : Nat) : (range off len).card ≤ (touched off len).card + 1 := by
  have he : (range off len).erase (.inl indirect) = (touched off len).biUnion fun bn => (needs bn).erase (.inl indirect) :=
    Finset.erase_biUnion ..
  have hcard := Finset.card_biUnion_le_card_mul (touched off len) _ 1 fun bn _ => card_needs_erase bn
  rw [← he, mul_one] at hcard
  exact Nat.le_add_of_sub_le (Finset.pred_card_le_card_erase.trans hcard)

/-- If the file has its blocks up to `off`, only those that begin there or later can be missing. -/
theorem card_missing_range (h : ∀ bn, bn * BSIZE < off → dataRef s n bn ≠ 0) :
    (missing s n (range off len)).card ≤ ((touched off len).filter (off ≤ · * BSIZE)).card + 1 := by
  have hsub : (missing s n (range off len)).erase (.inl indirect) ⊆
      ((touched off len).filter (off ≤ · * BSIZE)).biUnion fun bn => (needs bn).erase (.inl indirect) := by
    intro x hx
    obtain ⟨hne, hx⟩ := Finset.mem_erase.mp hx
    obtain ⟨hx, hz⟩ := Finset.mem_filter.mp hx
    obtain ⟨bn, hbn, hx⟩ := Finset.mem_biUnion.mp hx
    have hx' := Finset.mem_erase.mpr ⟨hne, hx⟩
    refine Finset.mem_biUnion.mpr ⟨bn, Finset.mem_filter.mpr ⟨hbn, le_of_not_gt fun hlt => h bn hlt ?_⟩, hx'⟩
    obtain ⟨hM, rfl⟩ := mem_needs_erase hx'
    rw [dataRef_of_lt hM, hz]
  have hcard := (Finset.card_le_card hsub).trans (Finset.card_biUnion_le_card_mul _ _ 1 fun bn _ => card_needs_erase bn)
  rw [mul_one] at hcard
  exact Nat.le_add_of_sub_le (Finset.pred_card_le_card_erase.trans hcard)

end Xv6.Fs
