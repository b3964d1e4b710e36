import Xv6.Umalloc.Lemmas.Blocks

/-! # `free` -/

namespace Xv6.Umalloc

open Xv6.Lib Function List Bytes

variable {base brk : Nat} {segs : List Span} {nx sz : Nat → Nat} {c c1 c2 live : List Nat} {p q b n v : Nat} {m : Mem} {i k x : Nat}
  {a r : List Nat}

/-! ## Headers in memory -/

def Heads (H : List Nat) : Prop := ∀ p ∈ H, p + 8 ≤ KERNBASE ∧ ∀ q ∈ H, p ≠ q → p + 8 ≤ q ∨ q + 8 ≤ p

theorem Blocks.heads (h : Blocks base brk segs nx sz c live) : Heads (c ++ live) := by
  intro p hp
  refine ⟨le_trans ?_ h.room, fun q hq hne => h.far hp hq hne⟩
  by_cases hb : p = base
  · rw [hb]
    exact h.below
  · have := h.bounds hp hb
    have := h.pos p hp hb
    omega

theorem KERNBASE_lt : KERNBASE < 2 ^ 32 := by decide

namespace Mem

theorem ptr_lt (m : Mem) (p : Nat) : m.ptr p < 2 ^ 32 := by
  rw [ptr]
  exact BitVec.isLt _

theorem get_setPtr (h : i < p ∨ p + 8 ≤ i) : (m.setPtr p v).get i = m.get i :=
  get_setWord_ne m _ (by omega)

theorem get_setSize (h : i < p ∨ p + 8 ≤ i) : (m.setSize p v).get i = m.get i :=
  get_setWord_ne m _ (by omega)

end Mem

namespace Heads

variable {H : List Nat} (h : Heads H) (hp : p ∈ H)

include h hp

theorem ptr_setPtr (hv : v < 2 ^ 32) (hq : q ∈ H) : (m.setPtr p v).ptr q = update m.ptr p v q := by
  have := (h p hp).1
  have := KERNBASE_lt
  by_cases he : q = p
  · rw [he, update_self, Mem.ptr, Mem.setPtr, word_setWord_self _ _ (by omega), BitVec.toNat_ofNat,
      Nat.mod_eq_of_lt hv]
  · have := (h p hp).2 q hq (Ne.symm he)
    rw [update_of_ne he, Mem.ptr, Mem.ptr, Mem.setPtr, word_setWord_ne _ _ (by omega)]

theorem size_setPtr (hq : q ∈ H) : (m.setPtr p v).size q = m.size q := by
  by_cases he : q = p
  · rw [he, Mem.size, Mem.size, Mem.setPtr, word_setWord_ne _ _ (by omega)]
  · have := (h p hp).2 q hq (Ne.symm he)
    rw [Mem.size, Mem.size, Mem.setPtr, word_setWord_ne _ _ (by omega)]

theorem size_setSize (hv : v < 2 ^ 32) (hq : q ∈ H) : (m.setSize p v).size q = update m.size p v q := by
  have := (h p hp).1
  have := KERNBASE_lt
  by_cases he : q = p
  · rw [he, update_self, Mem.size, Mem.setSize, word_setWord_self _ _ (by omega), BitVec.toNat_ofNat,
      Nat.mod_eq_of_lt hv]
  · have := (h p hp).2 q hq (Ne.symm he)
    rw [update_of_ne he, Mem.size, Mem.size, Mem.setSize, word_setWord_ne _ _ (by omega)]

theorem ptr_setSize (hq : q ∈ H) : (m.setSize p v).ptr q = m.ptr q := by
  by_cases he : q = p
  · rw [he, Mem.ptr, Mem.ptr, Mem.setSize, word_setWord_ne _ _ (by omega)]
  · have := (h p hp).2 q hq (Ne.symm he)
    rw [Mem.ptr, Mem.ptr, Mem.setSize, word_setWord_ne _ _ (by omega)]

end Heads

theorem Blocks.plus_eq (h : Blocks base brk segs nx sz c live) (hp : p ∈ c ++ live) : plus p (sz p) = p + 8 * sz p := by
  have := h.le_brk hp
  have := h.room
  have := KERNBASE_lt
  rw [plus, Nat.mod_eq_of_lt (by omega)]

/-! ## Joining -/

theorem Gaps.congr {sz' : Nat → Nat} (h : Gaps sz c) (he : ∀ p ∈ c, sz' p = sz p) : Gaps sz' c :=
  List.IsChain.imp_of_mem_imp (fun p _ hp _ hpq => (he p hp).symm ▸ hpq) h

def nextOf (nx sz : Nat → Nat) (p b : Nat) : Nat := if b + 8 * sz b = nx p then nx (nx p) else nx p

def joinedNext (nx sz : Nat → Nat) (p b : Nat) : Nat → Nat :=
  if b + 8 * sz b = nx p then update sz b (sz b + sz (nx p)) else sz

def joinedPrev (sz : Nat → Nat) (p b : Nat) : Nat → Nat :=
  if p + 8 * sz p = b then update sz p (sz p + sz b) else sz

structure Place (c1 : List Nat) (p : Nat) (c2 : List Nat) (b : Nat) : Prop where
  lt : ∀ x ∈ c1 ++ [p], x < b
  gt : ∀ x ∈ c2, b < x

theorem Blocks.base_lt (h : Blocks base brk segs nx sz (c1 ++ p :: c2) live) (hb : Place c1 p c2 b) : base < b := by
  refine hb.lt base ?_
  have hm := mem_of_mem_head? ((head?_append_cons c1 p [] c2).trans h.head)
  exact hm

theorem Blocks.next_last (h : Blocks base brk segs nx sz (c1 ++ [p]) live) : nx p = base := by
  have hh := h.head
  cases c1 with
  | nil =>
    obtain rfl := Option.some.inj hh
    have hc := Circle.cons_iff.mp h.circle
    exact (cons.inj hc).1
  | cons x c1 =>
    obtain rfl := Option.some.inj hh
    exact h.circle.next_last

theorem Blocks.insert_next (h : Blocks base brk segs nx sz (c1 ++ p :: c2) (b :: live)) (hg : Gaps sz (c1 ++ p :: c2))
    (hb : Place c1 p c2 b) :
    ∃ c2', Blocks base brk segs (update (update nx b (nextOf nx sz p b)) p b) (joinedNext nx sz p b)
        (c1 ++ p :: b :: c2') live ∧
      Gaps (joinedNext nx sz p b) (c1 ++ [p]) ∧ Gaps (joinedNext nx sz p b) (b :: c2') ∧ sz b ≤ joinedNext nx sz p b b ∧
      c2'.Sublist c2 := by
  have hi := h.insert hb.lt hb.gt
  have hbase := h.base_lt hb
  obtain ⟨hg1, hg2⟩ := isChain_split.mp hg
  have hpb : b ≠ p := (hb.lt p (by simp)).ne'
  by_cases hadj : b + 8 * sz b = nx p
  · cases c2 with
    | nil =>
      -- the block after `p` would be `base`
      have := h.next_last
      omega
    | cons y c2 =>
      have hy : nx p = y := h.circle.next
      have hbl : b ∉ c1 ++ p :: y :: c2 := fun hm => h.notMem (mem_append_left _ hm)
      have hyb : y ≠ b := fun he => hbl (by simp [he])
      have hyp : y ≠ p := ((hb.lt p (by simp)).trans (hb.gt y (.head _))).ne'
      have hj := (show Blocks base brk segs _ sz ((c1 ++ [p]) ++ b :: y :: c2) live by simpa using hi).join
        hbase.ne' (hadj.trans hy)
      have hs : joinedNext nx sz p b = update sz b (sz b + sz y) := by
        rw [joinedNext, if_pos hadj, hy]
      refine ⟨c2, ?_, ?_, ?_, ?_, sublist_cons_self ..⟩
      · have hn : nextOf nx sz p b = nx y := by rw [nextOf, if_pos hadj, hy]
        rw [hs, hn]
        rw [update_of_ne hyp, update_of_ne hyb, update_comm hpb, update_idem] at hj
        rw [update_comm hpb]
        simpa using hj
      · rw [hs]
        refine Gaps.congr hg1 fun x hx => update_of_ne ?_ ..
        exact (hb.lt x hx).ne
      · rw [hs]
        have hgy := (isChain_cons_cons.mp hg2).2
        refine isChain_cons.mpr ⟨fun z hz => ?_, ?_⟩
        · have := (isChain_cons.mp hgy).1 z hz
          rw [update_self]
          omega
        · refine Gaps.congr hgy.tail fun x hx => update_of_ne ?_ ..
          rintro rfl
          exact hbl (by simp [hx])
      · rw [hs, update_self]
        exact Nat.le_add_right _ _
  · have hs : joinedNext nx sz p b = sz := if_neg hadj
    have hn : nextOf nx sz p b = nx p := if_neg hadj
    rw [hs, hn]
    refine ⟨c2, hi, hg1, ?_, le_rfl, .refl _⟩
    refine isChain_cons.mpr ⟨fun y hy => ?_, hg2.tail⟩
    have hmem := mem_of_mem_head? hy
    have hlt := hb.gt y hmem
    have hle := h.apart (p := b) (q := y) (by simp) (by simp [hmem]) (by omega) (by omega) (by omega)
    have hpy : nx p = y := by
      obtain ⟨t, rfl⟩ := head?_eq_some_iff.mp hy
      exact h.circle.next
    rw [hpy] at hadj
    omega

theorem Blocks.insert_prev (h : Blocks base brk segs (update nx p b) sz (c1 ++ p :: b :: c2) live)
    (hg1 : Gaps sz (c1 ++ [p])) (hg2 : Gaps sz (b :: c2)) :
    ∃ c', Blocks base brk segs (update nx p (if p + 8 * sz p = b then nx b else b)) (joinedPrev sz p b) c' live ∧
      Gaps (joinedPrev sz p b) c' ∧ p ∈ c' ∧ (∃ y ∈ c', sz b ≤ joinedPrev sz p b y) ∧
      c'.Sublist (c1 ++ p :: b :: c2) := by
  have hgt : ∀ x ∈ b :: c2, p < x := by
    have hs := h.sorted
    rw [pairwise_append, pairwise_cons] at hs
    exact hs.2.1.1
  have hlt : p < b := hgt b (.head _)
  by_cases hadj : p + 8 * sz p = b
  · have hpb : p ≠ base := by
      rintro rfl
      rw [h.size_base] at hadj
      omega
    have hs : joinedPrev sz p b = update sz p (sz p + sz b) := if_pos hadj
    have hj := h.join hpb hadj
    rw [update_of_ne hlt.ne', update_idem] at hj
    rw [if_pos hadj, hs]
    refine ⟨c1 ++ p :: c2, hj, ?_, by simp, ⟨p, by simp, ?_⟩,
      List.Sublist.append_left (.cons_cons _ (sublist_cons_self ..)) _⟩
    · have hn := h.nodup_circle
      have hlow : ∀ x ∈ c1, update sz p (sz p + sz b) x = sz x := by
        intro x hx
        refine update_of_ne ?_ ..
        rintro rfl
        exact (nodup_middle.mp hn).notMem (mem_append_left _ hx)
      refine isChain_split.mpr ⟨?_, isChain_cons.mpr ⟨fun y hy => ?_, ?_⟩⟩
      · -- the size of `p` does not matter for the blocks below it
        obtain ⟨h1, h2, h3⟩ := isChain_append.mp hg1
        refine isChain_append.mpr ⟨Gaps.congr h1 hlow, .singleton _, fun x hx y hy => ?_⟩
        rw [hlow x (mem_of_mem_getLast? hx)]
        exact h3 x hx y hy
      · have := (isChain_cons.mp hg2).1 y hy
        rw [update_self]
        omega
      · exact Gaps.congr hg2.tail fun x hx => update_of_ne (hgt x (.tail _ hx)).ne' ..
    · rw [update_self]
      exact Nat.le_add_left _ _
  · have hs : joinedPrev sz p b = sz := if_neg hadj
    rw [if_neg hadj, hs]
    refine ⟨c1 ++ p :: b :: c2, h, ?_, by simp, ⟨b, by simp, le_rfl⟩, .refl _⟩
    refine isChain_append_cons_cons.mpr ⟨hg1, ?_, hg2⟩
    by_cases hpb : p = base
    · subst hpb
      rw [h.size_base]
      omega
    · have := (h.bounds (p := p) (by simp) hpb).1
      have := h.apart (p := p) (q := b) (by simp) (by simp) hpb (by omega) hlt.ne
      omega

/-! ## The code -/

theorem joinNext_header (h : Blocks base brk segs m.ptr m.size (c1 ++ p :: c2) (b :: live)) (hq : q ∈ c1 ++ p :: c2 ++ b :: live) :
    (joinNext m p b).ptr q = update m.ptr b (nextOf m.ptr m.size p b) q ∧
    (joinNext m p b).size q = joinedNext m.ptr m.size p b q := by
  have hH := h.heads
  have hb : b ∈ c1 ++ p :: c2 ++ b :: live := by simp
  have hn : m.ptr p ∈ c1 ++ p :: c2 ++ b :: live := mem_append_left _ (h.circle.next_mem (by simp))
  rw [joinNext, h.plus_eq hb, nextOf, joinedNext]
  split
  · rename_i hadj
    have hsum : m.size b + m.size (m.ptr p) < 2 ^ 32 := by
      have := h.le_brk hn
      have := h.room
      have := KERNBASE_lt
      omega
    dsimp only
    rw [hH.ptr_setPtr hb (Mem.ptr_lt ..) hq, hH.size_setPtr hb hq, hH.size_setSize hb hsum hq]
    refine ⟨?_, rfl⟩
    have hpp : (m.setSize b (m.size b + m.size (m.ptr p))).ptr p = m.ptr p := hH.ptr_setSize hb (by simp)
    rw [hpp, hH.ptr_setSize hb hn]
    by_cases he : q = b
    · rw [he, update_self, update_self]
    · rw [update_of_ne he, update_of_ne he, hH.ptr_setSize hb hq]
  · exact ⟨hH.ptr_setPtr hb (Mem.ptr_lt ..) hq, hH.size_setPtr hb hq⟩

theorem joinPrev_header {H : List Nat} (hH : Heads H) (hp : p ∈ H) (hb : b ∈ H) (hq : q ∈ H)
    (hr : p + 8 * m.size p ≤ KERNBASE) (hs : p + 8 * m.size p = b → b + 8 * m.size b ≤ KERNBASE) :
    (joinPrev m p b).ptr q = update m.ptr p (if p + 8 * m.size p = b then m.ptr b else b) q ∧
    (joinPrev m p b).size q = joinedPrev m.size p b q := by
  have hlt := KERNBASE_lt
  have hplus : plus p (m.size p) = p + 8 * m.size p := by
    rw [plus, Nat.mod_eq_of_lt (by omega)]
  rw [joinPrev, hplus, joinedPrev]
  split
  · rename_i hadj
    have hsum : m.size p + m.size b < 2 ^ 32 := by
      have := hs hadj
      omega
    dsimp only
    rw [hH.ptr_setPtr hp (Mem.ptr_lt ..) hq, hH.size_setPtr hp hq, hH.size_setSize hp hsum hq]
    refine ⟨?_, rfl⟩
    rw [hH.ptr_setSize hp hb]
    by_cases he : q = p
    · rw [he, update_self, update_self]
    · rw [update_of_ne he, update_of_ne he, hH.ptr_setSize hp hq]
  · have := (hH b hb).1
    exact ⟨hH.ptr_setPtr hp (by omega) hq, hH.size_setPtr hp hq⟩

theorem get_join (hb : i < b ∨ b + 8 ≤ i) (hp : i < p ∨ p + 8 ≤ i) : (joinPrev (joinNext m p b) p b).get i = m.get i := by
  have hn : (joinNext m p b).get i = m.get i := by
    rw [joinNext]
    split
    · rw [Mem.get_setPtr hb, Mem.get_setSize hb]
    · rw [Mem.get_setPtr hb]
  rw [joinPrev, ← hn]
  split
  · rw [Mem.get_setPtr hp, Mem.get_setSize hp]
  · rw [Mem.get_setPtr hp]

theorem Blocks.join_code (h : Blocks base brk segs m.ptr m.size (c1 ++ p :: c2) (b :: live))
    (hg : Gaps m.size (c1 ++ p :: c2)) (hb : Place c1 p c2 b) :
    ∃ c', Blocks base brk segs (joinPrev (joinNext m p b) p b).ptr (joinPrev (joinNext m p b) p b).size c' live ∧
      Gaps (joinPrev (joinNext m p b) p b).size c' ∧ p ∈ c' ∧
      (∃ y ∈ c', m.size b ≤ (joinPrev (joinNext m p b) p b).size y) ∧ c'.length ≤ (c1 ++ p :: c2).length + 1 := by
  obtain ⟨c2', hN, hg1, hg2, hle, hsub⟩ := h.insert_next hg hb
  have hH := h.heads
  have hhead : ∀ q ∈ c1 ++ p :: c2 ++ b :: live, (joinNext m p b).ptr q =
      update m.ptr b (nextOf m.ptr m.size p b) q ∧ (joinNext m p b).size q = joinedNext m.ptr m.size p b q :=
    fun q hq => joinNext_header h hq
  have hin : ∀ q ∈ c1 ++ p :: b :: c2' ++ live, q ∈ c1 ++ p :: c2 ++ b :: live := by
    intro q hq
    simp only [append_assoc, cons_append, mem_append, mem_cons] at hq ⊢
    rcases hq with hq | hq | hq | hq | hq
    · exact .inl hq
    · exact .inr (.inl hq)
    · exact .inr (.inr (.inr (.inl hq)))
    · exact .inr (.inr (.inl (hsub.subset hq)))
    · exact .inr (.inr (.inr (.inr hq)))
  have hp' : p ∈ c1 ++ p :: c2 ++ b :: live := by simp
  have hb' : b ∈ c1 ++ p :: c2 ++ b :: live := by simp
  -- the functions after `joinNext` are those of its memory
  have hM : Blocks base brk segs (update (joinNext m p b).ptr p b) (joinNext m p b).size
      (c1 ++ p :: b :: c2') live := by
    refine hN.congr (fun q hq => ?_) fun q hq => (hhead q (hin q hq)).2
    by_cases he : q = p
    · rw [he, update_self, update_self]
    · rw [update_of_ne he, update_of_ne he, (hhead q (hin q (mem_append_left _ hq))).1]
  have hs1 : ∀ q ∈ c1 ++ [p], (joinNext m p b).size q = joinedNext m.ptr m.size p b q := fun q hq =>
    (hhead q (by simp only [mem_append, mem_cons, not_mem_nil, or_false] at hq ⊢; tauto)).2
  have hs2 : ∀ q ∈ b :: c2', (joinNext m p b).size q = joinedNext m.ptr m.size p b q := fun q hq =>
    (hhead q (hin q (by simp only [mem_append, mem_cons] at hq ⊢; tauto))).2
  obtain ⟨c', hP, hg', hpc, ⟨y, hy, hyle⟩, hsub'⟩ := hM.insert_prev (hg1.congr hs1) (hg2.congr hs2)
  have hprev : ∀ q ∈ c1 ++ p :: c2 ++ b :: live, (joinPrev (joinNext m p b) p b).ptr q =
      update (joinNext m p b).ptr p
        (if p + 8 * (joinNext m p b).size p = b then (joinNext m p b).ptr b else b) q ∧
      (joinPrev (joinNext m p b) p b).size q = joinedPrev (joinNext m p b).size p b q := by
    intro q hq
    refine joinPrev_header hH hp' hb' hq ?_ fun _ => ?_
    all_goals exact (hM.le_brk (by simp)).trans hM.room
  have hin' : ∀ q ∈ c' ++ live, q ∈ c1 ++ p :: c2 ++ b :: live := fun q hq =>
    hin q (mem_append.mpr ((mem_append.mp hq).imp_left fun hq => hsub'.subset hq))
  refine ⟨c', hP.congr (fun q hq => ?_) fun q hq => (hprev q (hin' q hq)).2, hg'.congr fun q hq => ?_, hpc,
    ⟨y, hy, ?_⟩, ?_⟩
  · exact (hprev q (hin' q (mem_append_left _ hq))).1
  · exact (hprev q (hin' q (mem_append_left _ hq))).2
  · rw [(hprev y (hin' y (mem_append_left _ hy))).2]
    refine le_trans ?_ hyle
    rw [(hhead b hb').2]
    exact hle
  · have := hsub'.length_le
    have := hsub.length_le
    simp only [length_append, length_cons] at *
    omega

/-! ## The search -/

section

variable (h : Blocks base brk segs m.ptr sz (c1 ++ p :: c2) live) (hb : Place c1 p c2 b)
include h hb

theorem Blocks.findPlace_low
    (he : c1 ++ [p] = a ++ x :: r) (hk : r.length < k) : findPlace m b k x = some p := by
  induction r generalizing x a k with
  | nil =>
    obtain ⟨k, rfl⟩ := Nat.exists_eq_add_one.mpr hk
    obtain ⟨-, hx⟩ := append_inj' he rfl
    obtain rfl : p = x := singleton_inj.mp hx
    have hpb := hb.lt p (by simp)
    rw [findPlace]
    cases c2 with
    | nil =>
      have hn : m.ptr p = base := h.next_last
      have hbase := h.base_lt hb
      have hle : base ≤ p := by
        have hm : base ∈ c1 ++ [p] := h.base_mem
        rcases mem_append.mp hm with hm | hm
        · have hs := h.sorted
          rw [pairwise_append] at hs
          exact (hs.2.2 base hm p (by simp)).le
        · rw [mem_singleton.mp hm]
      rw [if_neg (by omega), if_pos (by omega)]
    | cons y c2 =>
      have hn : m.ptr p = y := h.circle.next
      have := hb.gt y (.head _)
      rw [if_pos (by omega)]
  | cons y r ih =>
    obtain ⟨k, rfl⟩ := Nat.exists_eq_add_one.mpr (Nat.zero_lt_of_lt hk)
    have hc : c1 ++ p :: c2 = a ++ x :: y :: (r ++ c2) := by
      have := congrArg (· ++ c2) he
      simpa using this
    have hn : m.ptr x = y := Circle.next (hc ▸ h.circle)
    have hy : y < b := hb.lt y (by rw [he]; simp)
    have hxy : x < y := by
      have hs := h.sorted
      rw [hc, pairwise_append, pairwise_cons] at hs
      exact hs.2.1.1 y (by simp)
    have hrest : c1 ++ [p] = (a ++ [x]) ++ y :: r := by simpa using he
    rw [findPlace, if_neg (by omega), if_neg (by omega), hn]
    exact ih hrest (Nat.lt_of_succ_lt_succ hk)

theorem Blocks.findPlace_high (he : c2 = a ++ x :: r)
    (hk : r.length + (c1.length + 1) < k) : findPlace m b k x = some p := by
  have hx : b < x := hb.gt x (by rw [he]; simp)
  have hbase := h.base_lt hb
  induction r generalizing x a k with
  | nil =>
    obtain ⟨k, rfl⟩ := Nat.exists_eq_add_one.mpr (Nat.zero_lt_of_lt hk)
    have hn : m.ptr x = base := by
      have hl : c1 ++ p :: c2 = (c1 ++ p :: a) ++ [x] := by simp [he]
      exact Blocks.next_last (hl ▸ h)
    rw [findPlace, if_neg (by omega), if_neg (by omega), hn]
    obtain ⟨r, hr⟩ := head?_eq_some_iff.mp ((head?_append_cons c1 p [] c2).trans h.head)
    have hlen := congrArg length hr
    simp only [length_append, length_cons, length_nil] at hlen hk
    exact h.findPlace_low hb (show c1 ++ [p] = [] ++ base :: r from hr) (by omega)
  | cons y r ih =>
    obtain ⟨k, rfl⟩ := Nat.exists_eq_add_one.mpr (Nat.zero_lt_of_lt hk)
    have hc : c1 ++ p :: c2 = (c1 ++ p :: a) ++ x :: y :: r := by simp [he]
    have hn : m.ptr x = y := Circle.next (hc ▸ h.circle)
    have hxy : x < y := by
      have hs := h.sorted
      rw [hc, pairwise_append, pairwise_cons] at hs
      exact hs.2.1.1 y (by simp)
    have hrest : c2 = (a ++ [x]) ++ y :: r := by simpa using he
    rw [findPlace, if_neg (by omega), if_neg (by omega), hn]
    refine ih hrest ?_ (hx.trans hxy)
    simp only [length_cons] at hk
    omega

theorem Blocks.findPlace_eq {f : Nat}
    (hf : f ∈ c1 ++ p :: c2) (hk : (c1 ++ p :: c2).length < k) : findPlace m b k f = some p := by
  simp only [length_append, length_cons] at hk
  have hcases : f ∈ c1 ++ [p] ∨ f ∈ c2 := by
    simp only [mem_append, mem_cons, not_mem_nil, or_false] at hf ⊢
    tauto
  rcases hcases with hf | hf
  · obtain ⟨a, r, he⟩ := append_of_mem hf
    have hlen := congrArg length he
    simp only [length_append, length_cons, length_nil] at hlen
    exact h.findPlace_low hb he (by omega)
  · obtain ⟨a, r, he⟩ := append_of_mem hf
    have hlen := congrArg length he
    simp only [length_append, length_cons] at hlen
    exact h.findPlace_high hb he (by omega)

end

theorem Blocks.exists_place (h : Blocks base brk segs nx sz c (b :: live)) : ∃ c1 p c2, c = c1 ++ p :: c2 ∧ Place c1 p c2 b := by
  have hbb : b ≠ base := fun he => h.base_live (he ▸ .head _)
  have hlt : base < b := by
    have := (h.bounds (p := b) (by simp) hbb).1
    omega
  have hb : b ∉ c := fun hm => h.notMem (mem_append_left _ hm)
  suffices hs : ∀ (l : List Nat) (x : Nat), (x :: l).Pairwise (· < ·) → x < b → b ∉ x :: l →
      ∃ c1 p c2, x :: l = c1 ++ p :: c2 ∧ Place c1 p c2 b by
    obtain ⟨l, rfl⟩ := head?_eq_some_iff.mp h.head
    exact hs l base h.sorted hlt hb
  intro l
  induction l with
  | nil => exact fun x _ hx _ => ⟨[], x, [], rfl, by simpa using hx, by simp⟩
  | cons y l ih =>
    intro x hs hx hbl
    obtain ⟨hxl, hs⟩ := pairwise_cons.mp hs
    rcases Nat.lt_trichotomy y b with hy | rfl | hy
    · obtain ⟨c1, p, c2, he, hp⟩ := ih y hs hy fun hm => hbl (.tail _ hm)
      refine ⟨x :: c1, p, c2, by rw [he]; rfl, ?_, hp.gt⟩
      rintro z (_ | ⟨_, hz⟩)
      · exact hx
      · exact hp.lt z hz
    · exact absurd (by simp) hbl
    · refine ⟨[], x, y :: l, rfl, by simpa using hx, ?_⟩
      rintro z (_ | ⟨_, hz⟩)
      · exact hy
      · exact hy.trans (rel_of_pairwise_cons hs hz)

/-! ## The heap -/

structure Heap (base : Nat) (s : State) (c : List Nat) : Prop where
  blocks : Blocks base s.brk s.segs s.mem.ptr s.mem.size c (s.live.map Prod.fst)
  gaps : Gaps s.mem.size c
  freep : s.freep ∈ c
  payload : ∀ x ∈ s.live, x.2 + 8 ≤ 8 * s.mem.size x.1

def Same (m m' : Mem) (q : Nat) : Prop := ∀ i, q ≤ i → i < q + 8 * m.size q → m'.get i = m.get i

theorem size_congr {m' : Mem} (hg : ∀ i, i < 8 → m'.get (q + i) = m.get (q + i)) : m'.size q = m.size q := by
  have h4 := hg 4 (by decide)
  have h5 := hg 5 (by decide)
  have h6 := hg 6 (by decide)
  have h7 := hg 7 (by decide)
  simp [Mem.size, word, half, add_assoc, Nat.reduceAdd, h4, h5, h6, h7]

theorem Same.size {m' : Mem} (h : Same m m' q) (hq : 0 < m.size q) : m'.size q = m.size q :=
  size_congr fun i hi => h _ (by omega) (by omega)

/-- `free` changes no block but the one that is freed and free ones. -/
theorem Blocks.same_join (h : Blocks base brk segs m.ptr m.size (c1 ++ p :: c2) (b :: live)) (hq : q ∈ live) :
    Same m (joinPrev (joinNext m p b) p b) q := by
  intro i hlo hhi
  have hqm : q ∈ c1 ++ p :: c2 ++ b :: live := by simp [hq]
  have hpm : p ∈ c1 ++ p :: c2 ++ b :: live := by simp
  have hbm : b ∈ c1 ++ p :: c2 ++ b :: live := by simp
  have hqb : q ≠ base := fun he => h.base_live (he ▸ .tail _ hq)
  have hbb : b ≠ base := fun he => h.base_live (he ▸ .head _)
  have hbq : b ≠ q := fun he => h.notMem (he ▸ mem_append_right _ hq)
  refine get_join ?_ ?_
  · have := h.apart hbm hqm hbb hqb hbq
    have := h.pos b hbm hbb
    omega
  · by_cases hpb : p = base
    · have := (h.bounds hqm hqb).1
      omega
    · have hpq : p ≠ q := by
        rintro rfl
        exact disjoint_of_nodup_append h.nodup (by simp) (.tail _ hq)
      have := h.apart hpm hqm hpb hqb hpq
      have := h.pos p hpm hpb
      omega

theorem Heap.free {s : State} {rest : List (Nat × Nat)} (h : Heap base { s with live := (b, x) :: rest } c) :
    ∃ p c', Umalloc.findPlace s.mem b s.brk s.freep = some p ∧
      Heap base { s with mem := joinPrev (joinNext s.mem p b) p b, freep := p, live := rest } c' ∧
      (∃ y ∈ c', s.mem.size b ≤ (joinPrev (joinNext s.mem p b) p b).size y) ∧ c'.length ≤ c.length + 1 ∧
      ∀ q ∈ rest.map Prod.fst, Same s.mem (joinPrev (joinNext s.mem p b) p b) q := by
  have hbl : Blocks base s.brk s.segs s.mem.ptr s.mem.size c (b :: rest.map Prod.fst) := h.blocks
  obtain ⟨c1, p, c2, rfl, hp⟩ := hbl.exists_place
  have hk : (c1 ++ p :: c2).length < s.brk := by
    have := hbl.length_le
    have := hbl.below
    omega
  obtain ⟨c', hB, hg, hpc, hy, hlen⟩ := hbl.join_code h.gaps hp
  refine ⟨p, c', hbl.findPlace_eq hp h.freep hk, ⟨hB, hg, hpc, fun z hz => ?_⟩, hy, hlen, fun q hq => hbl.same_join hq⟩
  have hz' : z.1 ∈ rest.map Prod.fst := mem_map_of_mem hz
  have hpos := hbl.pos z.1 (mem_append_right _ (.tail _ hz')) fun he => hbl.base_live (he ▸ .tail _ hz')
  have hsz := (hbl.same_join hz').size hpos
  have hpay : z.2 + 8 ≤ 8 * s.mem.size z.1 := h.payload z (.tail _ hz)
  rwa [← hsz] at hpay

end Xv6.Umalloc
