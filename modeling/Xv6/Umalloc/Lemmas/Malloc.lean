import Xv6.Umalloc.Lemmas.Free

/-!
# `malloc`

If nothing fits, the memory that `morecore` adds makes the second round succeed.
-/

namespace Xv6.Umalloc

open Xv6.Lib Function List Prod Umalloc

variable {base brk n k nb : Nat} {segs : List Span} {nx sz : Nat → Nat} {c c1 c2 live : List Nat} {p q b x y v : Nat}
  {m m' : Mem} {s : State} {gaps : List (Option Nat)}

theorem Blocks.same (h : Blocks base brk segs nx m.size c live) (hp : p ∈ c) (hq : q ∈ live)
    (hm : ∀ i, i < p ∨ p + 8 ≤ i ∧ p + 8 * m.size p ≤ i → m'.get i = m.get i) : Same m m' q := by
  intro i hlo hhi
  have hqm := mem_append_right c hq
  have hpm := mem_append_left live hp
  have hqb : q ≠ base := fun he => h.base_live (he ▸ hq)
  refine hm i ?_
  by_cases hpb : p = base
  · have := (h.bounds hqm hqb).1
    rw [hpb, h.size_base]
    omega
  · have hpq : p ≠ q := fun he => disjoint_of_nodup_append h.nodup hp (he ▸ hq)
    have := h.apart hpm hqm hpb hqb hpq
    have := h.pos p hpm hpb
    omega

theorem Same.trans {m'' : Mem} (h : Same m m' q) (h' : Same m' m'' q) (hs : m'.size q = m.size q) : Same m m'' q :=
  fun i hlo hhi => (h' i hlo (hs ▸ hhi)).trans (h i hlo hhi)

namespace Heap

theorem pos (h : Heap base s c) {z : Nat × Nat} (hz : z ∈ s.live) : 0 < s.mem.size z.1 :=
  h.blocks.pos z.1 (mem_append_right _ (mem_map_of_mem hz)) fun he =>
    h.blocks.base_live (he ▸ mem_map_of_mem hz)

theorem freep_pos (h : Heap base s c) (hb : 0 < base) : s.freep ≠ 0 := by
  obtain ⟨l, rfl⟩ := head?_eq_some_iff.mp h.blocks.head
  rcases mem_cons.mp h.freep with he | hm
  · omega
  · have := rel_of_pairwise_cons h.blocks.sorted hm
    omega

theorem perm (h : Heap base s c) {l : List (Nat × Nat)} (hp : s.live.Perm l) : Heap base { s with live := l } c :=
  ⟨h.blocks.perm (hp.map _), h.gaps, h.freep, fun x hx => h.payload x (hp.mem_iff.mpr hx)⟩

/-! ## The block that is found -/

theorem exists_prev (h : Heap base s c) (hx : x ∈ c) (hb : s.mem.ptr x ≠ base) : ∃ c1 c2, c = c1 ++ x :: s.mem.ptr x :: c2 := by
  obtain ⟨a, c2, he⟩ := append_of_mem (h.blocks.circle.next_mem hx)
  rcases eq_nil_or_concat' a with rfl | ⟨c1, z, rfl⟩
  · have hh := h.blocks.head
    rw [he] at hh
    exact absurd (Option.some.inj hh) hb
  · have he' : c = c1 ++ z :: s.mem.ptr x :: c2 := by simpa using he
    have hz : s.mem.ptr z = s.mem.ptr x := Circle.next (he' ▸ h.blocks.circle)
    have hinj : z = x := by
      refine inj_on_of_nodup_map ?_ (by rw [he']; simp) hx hz
      rw [h.blocks.circle]
      exact nodup_rotate.mpr h.blocks.nodup_circle
    exact ⟨c1, c2, hinj ▸ he'⟩

theorem take_exact (h : Heap base s (c1 ++ x :: y :: c2)) (hnb : nb + 8 ≤ 8 * s.mem.size y) :
    Heap base { s with mem := s.mem.setPtr x (s.mem.ptr y), freep := x, live := (y, nb) :: s.live } (c1 ++ x :: c2) ∧
    ∀ q ∈ s.live.map fst, Same s.mem (s.mem.setPtr x (s.mem.ptr y)) q := by
  have hr := h.blocks.remove
  have hH := hr.heads
  have hx : x ∈ c1 ++ x :: c2 ++ y :: s.live.map fst := by simp
  have hsz : ∀ q ∈ c1 ++ x :: c2 ++ y :: s.live.map fst, (s.mem.setPtr x (s.mem.ptr y)).size q = s.mem.size q :=
    fun q hq => hH.size_setPtr hx hq
  refine ⟨⟨hr.congr (fun q hq => ?_) hsz, ?_, by simp, ?_⟩, fun q hq => ?_⟩
  · exact hH.ptr_setPtr hx (Mem.ptr_lt ..) (mem_append_left _ hq)
  · refine Gaps.congr ?_ fun q hq => hsz q (mem_append_left _ hq)
    obtain ⟨h1, hxy, h2⟩ := isChain_append_cons_cons.mp h.gaps
    refine isChain_split.mpr ⟨h1, isChain_cons.mpr ⟨fun z hz => ?_, h2.tail⟩⟩
    have := (isChain_cons.mp h2).1 z hz
    omega
  · rintro z (_ | ⟨_, hz⟩)
    · exact (hsz y (by simp)).symm ▸ hnb
    · have hm : z.1 ∈ s.live.map fst := mem_map_of_mem hz
      exact (hsz z.1 (mem_append_right _ (.tail _ hm))).symm ▸ h.payload z hz
  · refine h.blocks.same (p := x) (by simp) hq fun i hi => Mem.get_setPtr (by omega)

theorem take_split (h : Heap base s c) (hy : y ∈ c) (hn : 0 < n) (hlt : n < s.mem.size y)
    (hq : y + 8 * (s.mem.size y - n) = q) (hnb : nb + 8 ≤ 8 * n) (hx : x ∈ c) :
    Heap base
      { s with mem := (s.mem.setSize y (s.mem.size y - n)).setSize q n, freep := x, live := (q, nb) :: s.live } c ∧
    ∀ p ∈ s.live.map fst, Same s.mem ((s.mem.setSize y (s.mem.size y - n)).setSize q n) p := by
  have hr := h.blocks.split hy hn hlt hq
  have hH := hr.heads
  have hym : y ∈ c ++ q :: s.live.map fst := mem_append_left _ hy
  have hqm : q ∈ c ++ q :: s.live.map fst := by simp
  have hle := h.blocks.le_brk (mem_append_left (s.live.map fst) hy)
  have hroom := h.blocks.room
  have hK := KERNBASE_lt
  have hsz : ∀ p ∈ c ++ q :: s.live.map fst, ((s.mem.setSize y (s.mem.size y - n)).setSize q n).size p =
      update (update s.mem.size y (s.mem.size y - n)) q n p := by
    intro p hp
    rw [hH.size_setSize hqm (by omega) hp]
    by_cases he : p = q
    · rw [he, update_self, update_self]
    · rw [update_of_ne he, update_of_ne he, hH.size_setSize hym (by omega) hp]
  refine ⟨⟨hr.congr (fun p hp => ?_) hsz, ?_, hx, ?_⟩, fun p hp => ?_⟩
  · have hpm : p ∈ c ++ q :: s.live.map fst := mem_append_left _ hp
    rw [hH.ptr_setSize hqm hpm, hH.ptr_setSize hym hpm]
  · refine List.IsChain.imp_of_mem_imp (fun p z hp _ hpz => ?_) h.gaps
    have hpq : p ≠ q := fun he => hr.notMem (he ▸ mem_append_left _ hp)
    rw [hsz p (mem_append_left _ hp), update_of_ne hpq]
    by_cases hpy : p = y
    · rw [hpy, update_self]
      rw [hpy] at hpz
      omega
    · rw [update_of_ne hpy]
      exact hpz
  · rintro z (_ | ⟨_, hz⟩)
    · have := hsz q hqm
      rw [update_self] at this
      exact this.symm ▸ hnb
    · have hm : z.1 ∈ s.live.map fst := mem_map_of_mem hz
      have hzq : z.1 ≠ q := fun he => hr.notMem (he ▸ mem_append_right _ hm)
      have hzy : z.1 ≠ y := fun he => disjoint_of_nodup_append h.blocks.nodup hy (he ▸ hm)
      have := hsz z.1 (mem_append_right _ (.tail _ hm))
      rw [update_of_ne hzq, update_of_ne hzy] at this
      exact this.symm ▸ h.payload z hz
  · refine h.blocks.same hy hp fun i hi => ?_
    rw [Mem.get_setSize (by omega), Mem.get_setSize (by omega)]

theorem take (h : Heap base s c) (hx : x ∈ c) (hn : 0 < n) (hfit : n ≤ s.mem.size (s.mem.ptr x)) (hnb : nb + 8 ≤ 8 * n) :
    ∃ s' q c', take s n x (s.mem.ptr x) = (s', q + 8) ∧ s'.live = s.live ∧
      Heap base { s' with live := (q, nb) :: s.live } c' ∧ ∀ p ∈ s.live.map fst, Same s.mem s'.mem p := by
  have hb : s.mem.ptr x ≠ base := fun he => by
    rw [he, h.blocks.size_base] at hfit
    omega
  have hym : s.mem.ptr x ∈ c := h.blocks.circle.next_mem hx
  have hle := h.blocks.le_brk (mem_append_left (s.live.map fst) hym)
  have hroom := h.blocks.room
  have hK := KERNBASE_lt
  rw [Umalloc.take]
  split
  · rename_i hex
    obtain ⟨c1, c2, rfl⟩ := h.exists_prev hx hb
    have hnb' : nb + 8 ≤ 8 * s.mem.size (s.mem.ptr x) := by omega
    obtain ⟨hh, hs⟩ := h.take_exact hnb'
    refine ⟨{ s with mem := s.mem.setPtr x (s.mem.ptr (s.mem.ptr x)), freep := x }, s.mem.ptr x, _, ?_, ?_, hh, hs⟩
    · rw [plus, Nat.mod_eq_of_lt (by omega)]
    · rfl
  · rename_i hex
    have hsize : (s.mem.setSize (s.mem.ptr x) (s.mem.size (s.mem.ptr x) - n)).size (s.mem.ptr x) =
        s.mem.size (s.mem.ptr x) - n := by
      rw [h.blocks.heads.size_setSize (mem_append_left _ hym) (by omega) (mem_append_left _ hym),
        update_self]
    have hplus : plus (s.mem.ptr x) (s.mem.size (s.mem.ptr x) - n) = s.mem.ptr x + 8 * (s.mem.size (s.mem.ptr x) - n) := by
      rw [plus, Nat.mod_eq_of_lt (by omega)]
    obtain ⟨hh, hs⟩ := h.take_split hym hn (by omega) rfl hnb hx
    dsimp only
    rw [hsize, hplus]
    refine ⟨{ s with mem := (s.mem.setSize (s.mem.ptr x) (s.mem.size (s.mem.ptr x) - n)).setSize _ n, freep := x }, _, c,
      ?_, ?_, hh, hs⟩
    · rw [plus, Nat.mod_eq_of_lt (by omega)]
    · rfl

/-! ## `morecore` -/

theorem grow (h : Heap base s c) (hn : 0 < n) (hp : s.brk ≤ p) (hr : p + 8 * n ≤ KERNBASE) :
    Heap base
      { s with brk := p + 8 * n, segs := (p, 8 * n) :: s.segs, mem := s.mem.setSize p n, live := (p, 0) :: s.live } c ∧
    ∀ q ∈ s.live.map fst, Same s.mem (s.mem.setSize p n) q ∧ (s.mem.setSize p n).size q = s.mem.size q := by
  have hg := h.blocks.grow hn hp hr
  have hH := hg.heads
  have hpm : p ∈ c ++ p :: s.live.map fst := by simp
  have hK := KERNBASE_lt
  have hsz : ∀ q ∈ c ++ p :: s.live.map fst, (s.mem.setSize p n).size q = update s.mem.size p n q :=
    fun q hq => hH.size_setSize hpm (by omega) hq
  have hold : ∀ q ∈ c ++ s.live.map fst, (s.mem.setSize p n).size q = s.mem.size q := by
    intro q hq
    have hqp : q ≠ p := fun he => hg.notMem (he ▸ hq)
    have hq' : q ∈ c ++ p :: s.live.map fst := by
      simp only [mem_append, mem_cons] at hq ⊢
      tauto
    rw [hsz q hq', update_of_ne hqp]
  refine ⟨⟨hg.congr (fun q hq => ?_) hsz, ?_, h.freep, ?_⟩, fun q hq => ⟨fun i hlo hhi => ?_, ?_⟩⟩
  · exact hH.ptr_setSize hpm (mem_append_left _ hq)
  · exact Gaps.congr h.gaps fun q hq => hold q (mem_append_left _ hq)
  · rintro z (_ | ⟨_, hz⟩)
    · have := hsz p hpm
      rw [update_self] at this
      simp only [this]
      omega
    · exact (hold z.1 (mem_append_right _ (mem_map_of_mem hz))).symm ▸ h.payload z hz
  · have := h.blocks.le_brk (mem_append_right c hq)
    exact Mem.get_setSize (by omega)
  · exact hold q (mem_append_right _ hq)

theorem morecore (h : Heap base s c) (hn : 8 * n < 2 ^ 31) (gap : Option Nat) :
    morecore s n gap = some (s, 0) ∨
    ∃ s' c', morecore s n gap = some (s', s'.freep) ∧ Heap base s' c' ∧ s'.live = s.live ∧
      (∃ y ∈ c', n ≤ s'.mem.size y) ∧ c'.length ≤ c.length + 1 ∧
      ∀ q ∈ s.live.map fst, Same s.mem s'.mem q ∧ s'.mem.size q = s.mem.size q := by
  obtain ⟨nu, hnu⟩ : ∃ nu, nu = if n < 4096 then 4096 else n := ⟨_, rfl⟩
  have hle : n ≤ nu := by
    split at hnu <;> omega
  have hlt : nu * 8 < 2 ^ 32 := by
    split at hnu <;> omega
  rw [Umalloc.morecore]
  simp only [← hnu, Nat.mod_eq_of_lt hlt]
  cases gap with
  | none => exact .inl rfl
  | some gap =>
    rw [sbrk]
    by_cases hroom : s.brk + gap + nu * 8 ≤ KERNBASE
    · right
      rw [if_pos hroom]
      rw [mul_comm] at hroom
      have hK := KERNBASE_lt
      have hpos : 0 < nu := by
        split at hnu <;> omega
      obtain ⟨hg, hs⟩ := h.grow hpos (Nat.le_add_right s.brk gap) hroom
      let s1 : State :=
        { s with
          brk := s.brk + gap + 8 * nu
          segs := (s.brk + gap, 8 * nu) :: s.segs
          mem := s.mem.setSize (s.brk + gap) nu }
      have hg1 : Heap base { s1 with live := (s.brk + gap, 0) :: s.live } c := hg
      obtain ⟨p, c', hf, hh, ⟨y, hy, hyle⟩, hlen, hsame⟩ := hg1.free
      have hplus : plus (s.brk + gap) 1 - 8 = s.brk + gap := by
        rw [plus, Nat.mod_eq_of_lt (by omega), mul_one, Nat.add_sub_cancel]
      have hnew : s1.mem.size (s.brk + gap) = nu := by
        have hm : s.brk + gap ∈ c ++ (s.brk + gap) :: s.live.map fst := by simp
        exact (hg1.blocks.heads.size_setSize hm (by omega) hm).trans (update_self ..)
      refine ⟨_, c', ?_, hh, rfl, ⟨y, hy, ?_⟩, hlen, fun q hq => ?_⟩
      · rw [mul_comm nu 8]
        simp only [Umalloc.free, hplus]
        rw [hf]
        rfl
      · exact hle.trans (hnew.ge.trans hyle)
      · obtain ⟨hs1, hs2⟩ := hs q hq
        have hpos : 0 < s1.mem.size q := by
          obtain ⟨z, hz, rfl⟩ := mem_map.mp hq
          exact hs2.symm ▸ h.pos hz
        exact ⟨hs1.trans (hsame q hq) hs2, ((hsame q hq).size hpos).trans hs2⟩
    · rw [if_neg hroom]
      exact .inl rfl

end Heap

/-! ## The search -/

/-- One round from `prevp` to `freep`, over the blocks `v`: either a block fits, or `morecore` is called at the end. -/
theorem mallocLoop_round {prevp : Nat} {v : List Nat} (hv : (prevp :: v).map s.mem.ptr = v ++ [s.freep])
    (hf : s.freep ∉ v) (hk : v.length < k) :
    (∃ x ∈ prevp :: v, n ≤ s.mem.size (s.mem.ptr x) ∧
      mallocLoop n k s prevp (s.mem.ptr prevp) gaps = some (take s n x (s.mem.ptr x))) ∨
    (∀ y ∈ v ++ [s.freep], s.mem.size y < n) ∧
      mallocLoop n k s prevp (s.mem.ptr prevp) gaps = (morecore s n gaps.head?.join).bind fun (s, p) =>
        if p = 0 then some (s, 0) else mallocLoop n (k - v.length - 1) s p (s.mem.ptr p) gaps.tail := by
  induction v generalizing prevp k with
  | nil =>
    obtain ⟨k, rfl⟩ := Nat.exists_eq_add_one.mpr hk
    have hp : s.mem.ptr prevp = s.freep := (cons.inj hv).1
    rw [mallocLoop, hp]
    by_cases hfit : s.mem.size s.freep ≥ n
    · exact .inl ⟨prevp, .head _, by rw [hp]; exact hfit, by rw [if_pos hfit, hp]⟩
    · right
      rw [if_neg hfit, if_pos rfl]
      exact ⟨by simpa using hfit, rfl⟩
  | cons y v ih =>
    obtain ⟨k, rfl⟩ := Nat.exists_eq_add_one.mpr (Nat.zero_lt_of_lt hk)
    obtain ⟨hp, hrest⟩ := cons.inj hv
    have hne : y ≠ s.freep := fun he => hf (he ▸ .head _)
    rw [mallocLoop, hp]
    by_cases hfit : s.mem.size y ≥ n
    · exact .inl ⟨prevp, .head _, by rw [hp]; exact hfit, by rw [if_pos hfit, hp]⟩
    · rw [if_neg hfit, if_neg hne]
      have hround := ih hrest (fun hm => hf (.tail _ hm)) (Nat.lt_of_succ_lt_succ hk)
      rcases hround with ⟨x, hx, hxfit, hxe⟩ | ⟨hall, he⟩
      · exact .inl ⟨x, .tail _ hx, hxfit, hxe⟩
      · refine .inr ⟨?_, ?_⟩
        · rintro z (_ | ⟨_, hz⟩)
          · exact lt_of_not_ge hfit
          · exact hall z hz
        · rw [he, length_cons, Nat.add_sub_add_right]

namespace Heap

theorem round (h : Heap base s c) : ∃ v, (s.freep :: v).Perm c ∧ (s.freep :: v).map s.mem.ptr = v ++ [s.freep] ∧ s.freep ∉ v := by
  obtain ⟨c1, c2, he⟩ := append_of_mem h.freep
  have hc : Circle s.mem.ptr (s.freep :: (c2 ++ c1)) := Circle.turn (he ▸ h.blocks.circle)
  have hp : (s.freep :: (c2 ++ c1)).Perm c := by
    rw [he]
    exact (perm_append_comm.cons _).trans perm_middle.symm
  exact ⟨c2 ++ c1, hp, Circle.cons_iff.mp hc, (nodup_cons.mp (hp.nodup_iff.mpr h.blocks.nodup_circle)).1⟩

theorem search (h : Heap base s c) (hk : c.length ≤ k) (hn : 0 < n) (hnb : nb + 8 ≤ 8 * n) :
    (∃ s' q c', mallocLoop n k s s.freep (s.mem.ptr s.freep) gaps = some (s', q + 8) ∧ s'.live = s.live ∧
      Heap base { s' with live := (q, nb) :: s.live } c' ∧ ∀ p ∈ s.live.map Prod.fst, Same s.mem s'.mem p) ∨
    (∀ y ∈ c, s.mem.size y < n) ∧
      mallocLoop n k s s.freep (s.mem.ptr s.freep) gaps = (Umalloc.morecore s n gaps.head?.join).bind fun (s, p) =>
        if p = 0 then some (s, 0) else mallocLoop n (k - c.length) s p (s.mem.ptr p) gaps.tail := by
  obtain ⟨v, hp, hv, hf⟩ := h.round
  have hlen : v.length + 1 = c.length := hp.length_eq
  rcases mallocLoop_round hv hf (show v.length < k by omega) with ⟨x, hx, hfit, he⟩ | ⟨hall, he⟩
  · obtain ⟨s', q, c', ht, hl, hh, hs⟩ := h.take (hp.mem_iff.mp hx) hn hfit hnb
    exact .inl ⟨s', q, c', by rw [he, ht], hl, hh, hs⟩
  · refine .inr ⟨fun y hy => hall y ?_, ?_⟩
    · have := hp.mem_iff.mpr hy
      simp only [mem_append, mem_cons, not_mem_nil, or_false] at this ⊢
      tauto
    · rw [he, Nat.sub_sub, hlen]

theorem malloc (h : Heap base s c) (hb : 0 < base) (hn : 0 < n) (hlt : 8 * n < 2 ^ 31) (hnb : nb + 8 ≤ 8 * n) (gaps : List (Option Nat)) :
    mallocLoop n s.brk s s.freep (s.mem.ptr s.freep) gaps = some (s, 0) ∨
    ∃ s' q c', mallocLoop n s.brk s s.freep (s.mem.ptr s.freep) gaps = some (s', q + 8) ∧ s'.live = s.live ∧
      Heap base { s' with live := (q, nb) :: s.live } c' ∧ ∀ p ∈ s.live.map fst, Same s.mem s'.mem p := by
  have hlen := h.blocks.length_le
  have hpos : 0 < c.length := length_pos_of_mem h.freep
  rcases h.search (k := s.brk) (by omega) hn hnb with hfound | ⟨hnone, he⟩
  · exact .inr hfound
  · rw [he]
    rcases h.morecore hlt gaps.head?.join with hrefuse | ⟨s1, c1, hm, hh, hl, ⟨y, hy, hyn⟩, hlen1, hsame⟩
    · rw [hrefuse]
      exact .inl rfl
    · right
      rw [hm, Option.bind_some]
      simp only [if_neg (hh.freep_pos hb)]
      rcases hh.search (k := s.brk - c.length) (by omega) hn hnb with ⟨s', q, c', hs', hl', hh', hsame'⟩ | ⟨hno, -⟩
      · refine ⟨s', q, c', hs', hl'.trans hl, hl ▸ hh', fun p hp => ?_⟩
        exact (hsame p hp).1.trans (hsame' p (hl ▸ hp)) (hsame p hp).2
      · exact absurd hyn (Nat.not_le_of_lt (hno y hy))

end Heap

end Xv6.Umalloc
