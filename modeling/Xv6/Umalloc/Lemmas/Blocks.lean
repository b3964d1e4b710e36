import Mathlib.Data.List.Chain
import Xv6.Lib.Circle
import Xv6.Umalloc.Model

/-!
# Free and live blocks

The list of free blocks starts with `base`, which has no memory of its own.
-/

namespace Xv6.Umalloc

open Xv6.Lib Function List

def spans (sz : Nat → Nat) (l : List Nat) : List Span := l.map fun p => (p, 8 * sz p)

def Gaps (sz : Nat → Nat) (c : List Nat) : Prop := c.IsChain fun p q => p + 8 * sz p < q

structure Blocks (base brk : Nat) (segs : List Span) (nx sz : Nat → Nat) (c live : List Nat) : Prop where
  head : c.head? = some base
  circle : Circle nx c
  sorted : c.Pairwise (· < ·)
  size_base : sz base = 0
  base_live : base ∉ live
  pos : ∀ p ∈ c ++ live, p ≠ base → 0 < sz p
  tile : ∀ a, cover (spans sz (c ++ live)) a = cover segs a
  one : ∀ a, cover segs a ≤ 1
  low : ∀ x ∈ segs, base + 8 ≤ x.1
  high : ∀ x ∈ segs, x.1 + x.2 ≤ brk
  below : base + 8 ≤ brk
  room : brk ≤ KERNBASE

variable {base brk : Nat} {segs : List Span} {nx sz : Nat → Nat} {c c1 c2 live : List Nat} {p q b n : Nat}

theorem spans_append (l l' : List Nat) : spans sz (l ++ l') = spans sz l ++ spans sz l' := map_append

theorem cover_spans_perm {l l' : List Nat} (h : l.Perm l') (a : Nat) : cover (spans sz l) a = cover (spans sz l') a :=
  cover_perm (h.map _)

theorem spans_congr {sz' : Nat → Nat} {l : List Nat} (h : ∀ p ∈ l, sz' p = sz p) : spans sz' l = spans sz l :=
  map_congr_left fun p hp => by rw [h p hp]

theorem spans_update {l : List Nat} (h : p ∉ l) : spans (update sz p n) l = spans sz l := by
  refine spans_congr fun q hq => ?_
  rw [update_of_ne]
  rintro rfl
  exact h hq

theorem head?_append_cons (c1 : List Nat) (p : Nat) (c2 c3 : List Nat) : (c1 ++ p :: c2).head? = (c1 ++ p :: c3).head? := by
  cases c1 <;> rfl

namespace Blocks

section

variable (h : Blocks base brk segs nx sz c live)
include h

theorem base_mem : base ∈ c := mem_of_mem_head? h.head

theorem nodup_circle : c.Nodup := h.sorted.imp ne_of_lt

theorem bounds (hp : p ∈ c ++ live) (hb : p ≠ base) : base + 8 ≤ p ∧ p + 8 * sz p ≤ brk := by
  have hpos := h.pos p hp hb
  have hin : ∀ a, p ≤ a → a < p + 8 * sz p → ∃ x ∈ segs, x.1 ≤ a ∧ a < x.1 + x.2 := by
    intro a h1 h2
    rw [← cover_pos, ← h.tile, cover_pos]
    exact ⟨_, mem_map_of_mem hp, h1, h2⟩
  constructor
  · obtain ⟨x, hx, hlo, -⟩ := hin p le_rfl (by omega)
    exact (h.low x hx).trans hlo
  · obtain ⟨x, hx, -, hhi⟩ := hin (p + 8 * sz p - 1) (by omega) (by omega)
    have := h.high x hx
    omega

theorem le_brk (hp : p ∈ c ++ live) : p + 8 * sz p ≤ brk := by
  by_cases hb : p = base
  · rw [hb, h.size_base]
    have := h.below
    omega
  · exact (h.bounds hp hb).2

theorem pairwise :
    (spans sz ((c ++ live).filter (· ≠ base))).Pairwise fun x y => x.Disjoint y ∧ 0 < x.2 := by
  have hle : ∀ a, cover (spans sz ((c ++ live).filter (· ≠ base))) a ≤ 1 := fun a => by
    refine le_trans ?_ (h.one a)
    rw [← h.tile]
    exact (List.Sublist.map _ filter_sublist).countP_le
  have hpos : ∀ x ∈ spans sz ((c ++ live).filter (· ≠ base)), 0 < x.2 := by
    intro x hx
    obtain ⟨y, hy, rfl⟩ := mem_map.mp hx
    obtain ⟨hy, hyb⟩ := mem_filter.mp hy
    exact Nat.mul_pos (by decide) (h.pos y hy (by simpa using hyb))
  exact (pairwise_disjoint hle hpos).imp_of_mem fun hx _ hd => ⟨hd, hpos _ hx⟩

theorem apart (hp : p ∈ c ++ live) (hq : q ∈ c ++ live) (hpb : p ≠ base)
    (hqb : q ≠ base) (hne : p ≠ q) : p + 8 * sz p ≤ q ∨ q + 8 * sz q ≤ p := by
  have hmem : ∀ x ∈ c ++ live, x ≠ base → (x, 8 * sz x) ∈ spans sz ((c ++ live).filter (· ≠ base)) :=
    fun x hx hxb => mem_map_of_mem (mem_filter.mpr ⟨hx, by simpa using hxb⟩)
  exact (h.pairwise.imp And.left).forall (hmem p hp hpb) (hmem q hq hqb) fun he => hne (congrArg Prod.fst he)

theorem nodup : (c ++ live).Nodup := by
  have hf : ((c ++ live).filter (· ≠ base)).Nodup := by
    refine (pairwise_map.mp h.pairwise).imp fun hd he => ?_
    obtain ⟨hd, hpos⟩ := hd
    rw [he] at hd hpos
    simp only [Span.Disjoint] at hd
    omega
  rw [nodup_iff_count_le_one] at hf ⊢
  intro x
  by_cases hx : x = base
  · rw [hx, count_append, count_eq_zero_of_not_mem h.base_live]
    exact nodup_iff_count_le_one.mp h.nodup_circle base
  · exact (count_filter (by simpa using hx)).symm.trans_le (hf x)

theorem far (hp : p ∈ c ++ live) (hq : q ∈ c ++ live) (hne : p ≠ q) : p + 8 ≤ q ∨ q + 8 ≤ p := by
  by_cases hpb : p = base
  · exact .inl (hpb ▸ (h.bounds hq fun he => hne (hpb.trans he.symm)).1)
  · by_cases hqb : q = base
    · exact .inr (hqb ▸ (h.bounds hp hpb).1)
    · have := h.pos p hp hpb
      have := h.pos q hq hqb
      have := h.apart hp hq hpb hqb hne
      omega

end

theorem notMem (h : Blocks base brk segs nx sz c (b :: live)) : b ∉ c ++ live :=
  (nodup_middle.mp h.nodup).notMem

theorem congr {nx' sz' : Nat → Nat} (h : Blocks base brk segs nx sz c live) (hn : ∀ p ∈ c, nx' p = nx p)
    (hs : ∀ p ∈ c ++ live, sz' p = sz p) : Blocks base brk segs nx' sz' c live :=
  { h with
    circle := h.circle.congr hn
    size_base := (hs base (mem_append_left _ h.base_mem)).trans h.size_base
    pos := fun p hp hb => (hs p hp).symm ▸ h.pos p hp hb
    tile := fun a => spans_congr hs ▸ h.tile a }

theorem perm {live' : List Nat} (h : Blocks base brk segs nx sz c live) (hp : live.Perm live') : Blocks base brk segs nx sz c live' :=
  { h with
    base_live := fun hb => h.base_live (hp.mem_iff.mpr hb)
    pos := fun p hm => h.pos p ((hp.append_left c).mem_iff.mpr hm)
    tile := fun a => (cover_spans_perm (hp.append_left c) a).symm.trans (h.tile a) }

/-! ## Moving, joining and splitting -/

theorem insert (h : Blocks base brk segs nx sz (c1 ++ p :: c2) (b :: live)) (h1 : ∀ x ∈ c1 ++ [p], x < b) (h2 : ∀ x ∈ c2, b < x) :
    Blocks base brk segs (update (update nx b (nx p)) p b) sz (c1 ++ p :: b :: c2) live := by
  have hperm : (c1 ++ p :: c2 ++ b :: live).Perm (c1 ++ p :: b :: c2 ++ live) := by
    simp only [append_assoc, cons_append]
    refine List.Perm.append_left _ (.cons _ ?_)
    exact perm_middle
  have hb : b ∉ c1 ++ p :: c2 := fun hb => h.notMem (mem_append_left _ hb)
  exact
    { h with
      head := (head?_append_cons ..).trans h.head
      circle := h.circle.insert hb h.nodup_circle
      sorted := by
        have hs := h.sorted
        simp only [pairwise_append, pairwise_cons, mem_cons, forall_eq_or_imp] at hs ⊢
        refine ⟨hs.1, ⟨⟨h1 p (by simp), hs.2.1.1⟩, h2, hs.2.1.2⟩, fun x hx => ?_⟩
        exact ⟨(hs.2.2 x hx).1, h1 x (by simp [hx]), (hs.2.2 x hx).2⟩
      base_live := fun hm => h.base_live (.tail _ hm)
      pos := fun x hx => h.pos x (hperm.mem_iff.mpr hx)
      tile := fun a => (cover_spans_perm hperm a).symm.trans (h.tile a) }

theorem remove (h : Blocks base brk segs nx sz (c1 ++ p :: q :: c2) live) :
    Blocks base brk segs (update nx p (nx q)) sz (c1 ++ p :: c2) (q :: live) := by
  have hperm : (c1 ++ p :: q :: c2 ++ live).Perm (c1 ++ p :: c2 ++ q :: live) := by
    simp only [append_assoc, cons_append]
    refine List.Perm.append_left _ (.cons _ ?_)
    exact perm_middle.symm
  have hsub : (c1 ++ p :: c2).Sublist (c1 ++ p :: q :: c2) :=
    List.Sublist.append_left (.cons_cons _ (.cons _ (.refl _))) _
  have hhead : (c1 ++ p :: c2).head? = some base := (head?_append_cons ..).trans h.head
  have hq : q ∉ c1 ++ p :: c2 := by
    have hn := h.nodup_circle
    rw [show c1 ++ p :: q :: c2 = (c1 ++ [p]) ++ q :: c2 by simp] at hn
    simpa using (nodup_middle.mp hn).notMem
  exact
    { h with
      head := hhead
      circle := h.circle.remove h.nodup_circle
      sorted := h.sorted.sublist hsub
      base_live := by
        rintro (_ | ⟨_, hb⟩)
        · exact hq (mem_of_mem_head? hhead)
        · exact h.base_live hb
      pos := fun x hx => h.pos x (hperm.mem_iff.mpr hx)
      tile := fun a => (cover_spans_perm hperm a).symm.trans (h.tile a) }

theorem perm_mid {s t : List Nat} : (s ++ p :: t ++ live).Perm ([p] ++ (s ++ (t ++ live))) := by
  simp only [append_assoc, cons_append, nil_append]
  exact perm_middle

theorem perm_mid₂ {s t : List Nat} : (s ++ p :: t ++ q :: live).Perm ([p, q] ++ (s ++ (t ++ live))) := by
  simp only [append_assoc, cons_append, nil_append]
  refine perm_middle.trans (.cons _ ?_)
  rw [← append_assoc, ← append_assoc]
  exact perm_middle

theorem absorb (h : Blocks base brk segs nx sz c (q :: live)) (hp : p ∈ c) (hb : p ≠ base) (hq : p + 8 * sz p = q) :
    Blocks base brk segs nx (update sz p (sz p + sz q)) c live := by
  obtain ⟨s, t, rfl⟩ := append_of_mem hp
  have hn : (s ++ p :: (t ++ q :: live)).Nodup := by simpa using h.nodup
  have hout : p ∉ s ++ (t ++ live) := by
    refine mt (fun hm => ?_) (nodup_middle.mp hn).notMem
    simp only [mem_append, mem_cons] at hm ⊢
    tauto
  exact
    { h with
      size_base := by rw [update_of_ne hb.symm]; exact h.size_base
      base_live := fun hm => h.base_live (.tail _ hm)
      pos := by
        intro x hx hxb
        have hpos := h.pos x (by simp only [mem_append, mem_cons] at hx ⊢; tauto) hxb
        by_cases hxp : x = p
        · rw [hxp, update_self]
          rw [hxp] at hpos
          omega
        · rw [update_of_ne hxp]
          exact hpos
      tile := by
        intro a
        rw [← h.tile, cover_spans_perm perm_mid, cover_spans_perm perm_mid₂, spans_append [p], spans_append [p, q], cover_append,
          cover_append]
        refine congrArg₂ _ ?_ (congrArg (cover · a) (spans_update hout))
        simp only [spans, map_cons, map_nil, update_self, mul_add, ← hq]
        exact (cover_join p _ _).symm }

theorem join (h : Blocks base brk segs nx sz (c1 ++ p :: q :: c2) live) (hb : p ≠ base) (hq : p + 8 * sz p = q) :
    Blocks base brk segs (update nx p (nx q)) (update sz p (sz p + sz q)) (c1 ++ p :: c2) live :=
  h.remove.absorb (by simp) hb hq

section

variable (h : Blocks base brk segs nx sz c live)
include h

theorem split (hp : p ∈ c) (hn : 0 < n) (hlt : n < sz p) (hq : p + 8 * (sz p - n) = q) :
    Blocks base brk segs nx (update (update sz p (sz p - n)) q n) c (q :: live) := by
  have hb : p ≠ base := fun he => by
    rw [he, h.size_base] at hlt
    omega
  have hqb := (h.bounds (mem_append_left _ hp) hb)
  have hout : q ∉ c ++ live := by
    intro hm
    have hm' := h.apart (mem_append_left _ hp) hm hb (by omega) (by omega)
    have := h.pos q hm (by omega)
    omega
  obtain ⟨s, t, rfl⟩ := append_of_mem hp
  have hnd : (s ++ p :: (t ++ live)).Nodup := by simpa using h.nodup
  have hpout : p ∉ s ++ (t ++ live) := (nodup_middle.mp hnd).notMem
  have hqout : q ∉ s ++ (t ++ live) := by
    simp only [mem_append, mem_cons] at hout ⊢
    tauto
  have hqp : p ≠ q := by omega
  exact
    { h with
      size_base := by
        rw [update_of_ne (by omega), update_of_ne hb.symm]
        exact h.size_base
      base_live := by
        rintro (_ | ⟨_, hm⟩)
        · omega
        · exact h.base_live hm
      pos := by
        intro x hx hxb
        by_cases hxq : x = q
        · rw [hxq, update_self]
          exact hn
        · rw [update_of_ne hxq]
          by_cases hxp : x = p
          · rw [hxp, update_self]
            omega
          · rw [update_of_ne hxp]
            refine h.pos x ?_ hxb
            simp only [mem_append, mem_cons] at hx ⊢
            tauto
      tile := by
        intro a
        rw [← h.tile, cover_spans_perm perm_mid₂, cover_spans_perm perm_mid, spans_append [p], spans_append [p, q], cover_append,
          cover_append]
        refine congrArg₂ _ ?_ (congrArg (cover · a) ((spans_update hqout).trans (spans_update hpout)))
        simp only [spans, map_cons, map_nil, update_self, update_of_ne hqp]
        rw [← hq, cover_join, ← mul_add, Nat.sub_add_cancel hlt.le] }

theorem grow (hn : 0 < n) (hp : brk ≤ p) (hr : p + 8 * n ≤ KERNBASE) :
    Blocks base (p + 8 * n) ((p, 8 * n) :: segs) nx (update sz p n) c (p :: live) := by
  have hbelow := h.below
  have hout : p ∉ c ++ live := by
    intro hm
    have := h.le_brk hm
    have := h.pos p hm (by omega)
    omega
  have hseg : ∀ a, p ≤ a → cover segs a = 0 := by
    intro a ha
    by_contra hc
    obtain ⟨x, hx, -, hlt⟩ := cover_pos.mp (Nat.pos_of_ne_zero hc)
    have := h.high x hx
    omega
  exact
    { h with
      size_base := by rw [update_of_ne (by omega)]; exact h.size_base
      base_live := by
        rintro (_ | ⟨_, hm⟩)
        · omega
        · exact h.base_live hm
      pos := by
        intro x hx hxb
        by_cases hxp : x = p
        · rw [hxp, update_self]
          exact hn
        · rw [update_of_ne hxp]
          refine h.pos x ?_ hxb
          simp only [mem_append, mem_cons] at hx ⊢
          tauto
      tile := by
        intro a
        rw [cover_spans_perm perm_middle, spans, map_cons, cover_cons, cover_cons, ← h.tile,
          update_self]
        exact congrArg (· + _) (congrArg (cover · a) (spans_update hout))
      one := by
        intro a
        have := h.one a
        rw [cover_cons]
        split
        · rename_i ha
          rw [hseg a ha.1]
        · exact this
      low := by
        rintro x (_ | ⟨_, hx⟩)
        · simp only
          omega
        · exact h.low x hx
      high := by
        rintro x (_ | ⟨_, hx⟩)
        · exact le_rfl
        · have := h.high x hx
          omega
      below := by omega
      room := hr }

/-! ## The length of the list -/

theorem length_le : 8 * c.length ≤ brk := by
  suffices hl : ∀ (l : List Nat) (lo : Nat), lo ≤ brk → l.Pairwise (fun p q => p + 8 ≤ q) →
      (∀ p ∈ l, lo ≤ p ∧ p + 8 ≤ brk) → lo + 8 * l.length ≤ brk by
    refine (Nat.zero_add _).symm.le.trans (hl c 0 (Nat.zero_le _) ?_ fun p hp => ⟨Nat.zero_le _, ?_⟩)
    · refine h.sorted.imp_of_mem fun hp hq hlt => ?_
      have := h.far (mem_append_left _ hp) (mem_append_left _ hq) hlt.ne
      omega
    · by_cases hb : p = base
      · rw [hb]
        exact h.below
      · have := h.bounds (mem_append_left _ hp) hb
        have := h.pos p (mem_append_left _ hp) hb
        omega
  intro l
  induction l with
  | nil => exact fun lo hlo _ _ => hlo
  | cons p l ih =>
    intro lo _ hs hb
    obtain ⟨hp, hs⟩ := pairwise_cons.mp hs
    obtain ⟨hlo, hhi⟩ := hb p (.head _)
    have := ih (p + 8) hhi hs fun q hq => ⟨hp q hq, (hb q (.tail _ hq)).2⟩
    simp only [length_cons]
    omega

end

end Blocks

end Xv6.Umalloc
