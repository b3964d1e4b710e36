import Xv6.Lib.Trans
import Xv6.Umalloc.Lemmas.Malloc

/-! # Theorems about the allocator -/

namespace Xv6.Umalloc

open Xv6.Lib List Bytes Prod Umalloc

variable {base : Nat} {m : Mem} {s : State} {c : List Nat} {nbytes a p : Nat} {v : BitVec 8}

structure Fresh (base : Nat) (s : State) : Prop where
  freep : s.freep = 0
  segs : s.segs = []
  live : s.live = []
  below : base + 8 ≤ s.brk
  room : s.brk ≤ KERNBASE

def Inv (base : Nat) (s : State) : Prop := Fresh base s ∨ ∃ c, Heap base s c

/-! ## Calls -/

theorem Fresh.initBase (h : Fresh base s) : Heap base (initBase base s) [base] ∧ (initBase base s).live = [] := by
  have hH : Heads [base] := by
    intro p hp
    rw [mem_singleton.mp hp]
    refine ⟨h.below.trans h.room, fun q hq hne => absurd (mem_singleton.mp hq).symm hne⟩
  have hm : base ∈ [base] := .head _
  have hlt : base < 2 ^ 32 := by
    have := h.below
    have := h.room
    have := KERNBASE_lt
    omega
  have hptr : ((s.mem.setPtr base base).setSize base 0).ptr base = base := by
    rw [hH.ptr_setSize hm hm, hH.ptr_setPtr hm hlt hm, Function.update_self]
  have hsize : ((s.mem.setPtr base base).setSize base 0).size base = 0 := by
    rw [hH.size_setSize hm (by decide) hm, Function.update_self]
  rw [Umalloc.initBase, if_pos h.freep]
  refine ⟨⟨?_, .singleton _, hm, by simp [h.live]⟩, h.live⟩
  simp only [h.live, h.segs, map_nil]
  constructor
  case head => rfl
  case circle => exact Circle.cons_iff.mpr (congrArg (fun x => [x]) hptr)
  case sorted => exact pairwise_singleton ..
  case size_base => exact hsize
  case base_live => exact not_mem_nil
  case pos => exact fun p hp hb => absurd (mem_singleton.mp hp) hb
  case tile => simp [spans, hsize, cover_cons]
  case one => simp
  case low => simp
  case high => simp
  case below => exact h.below
  case room => exact h.room

theorem nunits_eq (hn : 8 * ((nbytes + 8 - 1) / 8 + 1) < 2 ^ 31) : nunits nbytes = (nbytes + 8 - 1) / 8 + 1 := by
  rw [nunits, Nat.mod_eq_of_lt (by omega)]

theorem Heap.step_malloc (h : Heap base s c) (hb : 0 < base) (hn : 8 * ((nbytes + 8 - 1) / 8 + 1) < 2 ^ 31) (gaps : List (Option Nat)) :
    ∃ s' c', step base s (.malloc nbytes gaps) = some s' ∧ Heap base s' c' ∧
      ∀ x ∈ s.live, Same s.mem s'.mem x.1 := by
  have hinit : Umalloc.initBase base s = s := if_neg (h.freep_pos hb)
  have hnb : nbytes + 8 ≤ 8 * ((nbytes + 8 - 1) / 8 + 1) := by omega
  rw [Umalloc.step, Umalloc.malloc, hinit, nunits_eq hn]
  rcases h.malloc hb (Nat.succ_pos _) hn hnb gaps with he | ⟨s', q, c', he, hl, hh, hs⟩
  · exact ⟨s, c, by rw [he]; rfl, h, fun x _ i _ _ => rfl⟩
  · refine ⟨{ s' with live := (q, nbytes) :: s.live }, c', ?_, hh, fun x hx => hs x.1 (mem_map_of_mem hx)⟩
    rw [he]
    simp [hl]

theorem Fresh.step_malloc (h : Fresh base s) (hb : 0 < base) (hn : 8 * ((nbytes + 8 - 1) / 8 + 1) < 2 ^ 31) (gaps : List (Option Nat)) :
    ∃ s' c', step base s (.malloc nbytes gaps) = some s' ∧ Heap base s' c' := by
  obtain ⟨hi, -⟩ := h.initBase
  have hagain : Umalloc.initBase base (Umalloc.initBase base s) = Umalloc.initBase base s := if_neg (hi.freep_pos hb)
  obtain ⟨s', c', he, hh, -⟩ := hi.step_malloc hb hn gaps
  refine ⟨s', c', ?_, hh⟩
  rwa [step, malloc, hagain] at he

theorem Heap.step_free (h : Heap base s c) {x : Nat × Nat} (hx : x ∈ s.live) :
    ∃ s' c', step base s (.free (x.1 + 8)) = some s' ∧ Heap base s' c' ∧
      ∀ y ∈ s'.live, Same s.mem s'.mem y.1 := by
  have hperm : s.live.Perm (x :: s.live.filter (·.1 ≠ x.1)) := by
    have hn : (s.live.map fst).Nodup := (nodup_append.mp h.blocks.nodup).2.1
    obtain ⟨l1, l2, he⟩ := append_of_mem hx
    rw [he, map_append, map_cons] at hn
    have hout : ∀ y ∈ l1 ++ l2, y.1 ≠ x.1 := fun y hy hyx =>
      (nodup_middle.mp hn).notMem (hyx ▸ map_append ▸ mem_map_of_mem hy)
    have hfilter : s.live.filter (·.1 ≠ x.1) = l1 ++ l2 := by
      rw [he, filter_append, filter_cons_of_neg (by simp), ← filter_append, filter_eq_self]
      exact fun y hy => by simpa using hout y hy
    rw [hfilter, he]
    exact perm_middle
  have hh : Heap base { s with live := (x.1, x.2) :: s.live.filter (·.1 ≠ x.1) } c := h.perm hperm
  obtain ⟨p, c', hf, hh', -, -, hs⟩ := hh.free
  refine ⟨_, c', ?_, hh', fun y hy => hs y.1 (mem_map_of_mem hy)⟩
  rw [Umalloc.step, Umalloc.free, Nat.add_sub_cancel, hf]
  rfl

/-! ## Stores -/

theorem ptr_set (v : BitVec 8) (h : a < p ∨ p + 8 ≤ a) : Mem.ptr (m.set a v) p = m.ptr p := by
  have hg : ∀ i, i < 4 → (set m a v).get (p + i) = m.get (p + i) := fun i hi => get_set_ne m v (by omega)
  have h0 := hg 0 (by decide)
  have h1 := hg 1 (by decide)
  have h2 := hg 2 (by decide)
  have h3 := hg 3 (by decide)
  rw [add_zero] at h0
  simp [Mem.ptr, word, half, add_assoc, Nat.reduceAdd, h0, h1, h2, h3]

theorem size_set (v : BitVec 8) (h : a < p ∨ p + 8 ≤ a) : Mem.size (m.set a v) p = m.size p :=
  size_congr fun i hi => get_set_ne m v (by omega)

theorem Heap.off_headers (h : Heap base s c) (hf : Fair base s (.store a v)) (hp : p ∈ c ++ s.live.map fst) : a < p ∨ p + 8 ≤ a := by
  have hpos : p ≠ base → 0 < s.mem.size p := h.blocks.pos p hp
  rcases hf with ⟨x, hx, hlo, hhi⟩ | ⟨hbase, hcov⟩
  · have hxm : x.1 ∈ c ++ s.live.map fst := mem_append_right _ (mem_map_of_mem hx)
    have hxb : x.1 ≠ base := fun he => h.blocks.base_live (he ▸ mem_map_of_mem hx)
    by_cases hpx : p = x.1
    · rw [hpx]
      exact .inr hlo
    · by_cases hpb : p = base
      · have := (h.blocks.bounds hxm hxb).1
        omega
      · have := h.blocks.apart hp hxm hpb hxb hpx
        have := hpos hpb
        omega
  · by_cases hpb : p = base
    · rw [hpb]
      exact hbase
    · by_contra hin
      have hpos := hpos hpb
      have : 0 < cover s.segs a := by
        rw [← h.blocks.tile, cover_pos]
        exact ⟨_, mem_map_of_mem hp, by simp only; omega, by simp only; omega⟩
      omega

theorem Heap.store (h : Heap base s c) (hf : Fair base s (.store a v)) : Heap base { s with mem := s.mem.set a v } c := by
  have hsz : ∀ p ∈ c ++ s.live.map fst, Mem.size (s.mem.set a v) p = s.mem.size p :=
    fun p hp => size_set v (h.off_headers hf hp)
  refine ⟨h.blocks.congr (fun p hp => ?_) hsz, ?_, h.freep, fun x hx => ?_⟩
  · exact ptr_set v (h.off_headers hf (mem_append_left _ hp))
  · exact Gaps.congr h.gaps fun p hp => hsz p (mem_append_left _ hp)
  · have := h.payload x hx
    rwa [← hsz x.1 (mem_append_right _ (mem_map_of_mem hx))] at this

/-! ## Runs -/

theorem Inv.step {a : Act} (hb : 0 < base) (h : Inv base s) (hf : Fair base s a) :
    ∃ s', step base s a = some s' ∧ Inv base s' ∧
      ((∀ i v, a ≠ .store i v) → ∀ x ∈ s.live, x ∈ s'.live → Same s.mem s'.mem x.1) := by
  cases a with
  | malloc nbytes gaps =>
    rcases h with h | ⟨c, h⟩
    · obtain ⟨s', c', he, hh⟩ := h.step_malloc hb hf gaps
      exact ⟨s', he, .inr ⟨c', hh⟩, fun _ x hx => by simp [h.live] at hx⟩
    · obtain ⟨s', c', he, hh, hs⟩ := h.step_malloc hb hf gaps
      exact ⟨s', he, .inr ⟨c', hh⟩, fun _ x hx _ => hs x hx⟩
  | free ap =>
    obtain ⟨x, hx, rfl⟩ := hf
    rcases h with h | ⟨c, h⟩
    · simp [h.live] at hx
    · obtain ⟨s', c', he, hh, hs⟩ := h.step_free hx
      exact ⟨s', he, .inr ⟨c', hh⟩, fun _ y _ hy => hs y hy⟩
  | store i v =>
    refine ⟨{ s with mem := s.mem.set i v }, rfl, ?_, fun hn => absurd rfl (hn i v)⟩
    rcases h with h | ⟨c, h⟩
    · exact .inl { h with }
    · exact .inr ⟨c, h.store hf⟩

theorem Inv.reach {brk : Nat} (hb : 0 < base) (hlo : base + 8 ≤ brk) (hhi : brk ≤ KERNBASE)
    (h : Reach (· = start m brk) (Umalloc.step base) (Fair base) s) : Inv base s := by
  refine Reach.inv ?_ (fun s a s' hs hf hst => ?_) h
  · rintro _ rfl
    exact .inl ⟨rfl, rfl, rfl, hlo, hhi⟩
  · obtain ⟨t, ht, hi, -⟩ := hs.step hb hf
    rw [hst] at ht
    exact Option.some.inj ht ▸ hi

theorem Heap.pairwise_gaps (h : Heap base s c) : c.Pairwise fun p q => p + 8 * s.mem.size p < q := by
  let R : Nat → Nat → Prop := fun p q => p + 8 * s.mem.size p < q
  have : Trans R R R := ⟨fun hpq hqr => lt_trans hpq (lt_of_le_of_lt (Nat.le_add_right _ _) hqr)⟩
  exact List.IsChain.pairwise h.gaps

theorem Heap.filter_base (h : Heap base s c) : (c ++ s.live.map fst).filter (· ≠ base) = c.tail ++ s.live.map fst := by
  obtain ⟨l, rfl⟩ := head?_eq_some_iff.mp h.blocks.head
  have hl : base ∉ l := (nodup_cons.mp h.blocks.nodup_circle).1
  rw [cons_append, filter_cons_of_neg (by simp), tail_cons, filter_eq_self]
  intro p hp
  have hne : p ≠ base := by
    rintro rfl
    rcases mem_append.mp hp with hp | hp
    · exact hl hp
    · exact h.blocks.base_live hp
  simpa using hne

/-- For programs that keep the rules: the free blocks and `base` form a circular list, in the order of the addresses, in which no block
ends where another one starts. Free and live blocks are disjoint and make up the memory obtained from `sbrk`, and live blocks have
room for what was asked for. Every call returns, and leaves alone the blocks that are live before and after it. -/
theorem heap_integrity {brk : Nat} (hb : 0 < base) (hlo : base + 8 ≤ brk) (hhi : brk ≤ KERNBASE)
    (h : Reach (· = start m brk) (step base) (Fair base) s) :
    (s.freep = 0 ∧ s.segs = [] ∧ s.live = [] ∨ ∃ c, c.head? = some base ∧ s.freep ∈ c ∧ Circle s.mem.ptr c ∧
      c.Pairwise (· < ·) ∧ c.Pairwise (fun p q => p + 8 * s.mem.size p < q) ∧
      (spans s.mem.size (c.tail ++ s.live.map fst)).Pairwise Span.Disjoint ∧
      (∀ a, (∃ x ∈ spans s.mem.size (c.tail ++ s.live.map fst), x.1 ≤ a ∧ a < x.1 + x.2) ↔
        ∃ x ∈ s.segs, x.1 ≤ a ∧ a < x.1 + x.2) ∧
      ∀ x ∈ s.live, 8 + x.2 ≤ 8 * s.mem.size x.1) ∧
    ∀ a, Fair base s a → ∃ s', step base s a = some s' ∧
      ((∀ i v, a ≠ .store i v) → ∀ x ∈ s.live, x ∈ s'.live → Same s.mem s'.mem x.1) := by
  have hi := Inv.reach hb hlo hhi h
  constructor
  · rcases hi with hf | ⟨c, hh⟩
    · exact .inl ⟨hf.freep, hf.segs, hf.live⟩
    · refine .inr ⟨c, hh.blocks.head, hh.freep, hh.blocks.circle, hh.blocks.sorted, hh.pairwise_gaps, ?_, fun a => ?_,
        fun x hx => ?_⟩
      · rw [← hh.filter_base]
        exact hh.blocks.pairwise.imp And.left
      · rw [← cover_pos, ← cover_pos, ← hh.blocks.tile]
        obtain ⟨l, rfl⟩ := head?_eq_some_iff.mp hh.blocks.head
        have hnone : ¬ (base ≤ a ∧ a < base) := by omega
        simp [spans, cover_cons, hh.blocks.size_base, hnone]
      · rw [add_comm]
        exact hh.payload x hx
  · intro a hf
    obtain ⟨s', hs', -, hsame⟩ := hi.step hb hf
    exact ⟨s', hs', hsame⟩

/-- Two blocks are allocated and the first one is freed; then another is asked for. -/
theorem heap_integrity_two_blocks :
    ∃ s, Reach (· = start (fill _ 0) 8192) (step 4096) (Fair 4096) s ∧ s.live = [(40840, 5000)] ∧
      ∃ s', step 4096 s (.malloc 20 []) = some s' := by
  have h0 : Reach (· = start (fill _ 0) 8192) (step 4096) (Fair 4096) (start (fill _ 0) 8192) := .init rfl
  obtain ⟨s, hs, hp⟩ := Reach.of_runs [.malloc 100 [some 5000], .malloc 5000 [], .free 45856, .store 40848 7]
    (fun s => s.live = [(40840, 5000)]) h0 (by decide +kernel)
  obtain ⟨s', hs', -⟩ := (heap_integrity (by decide) (by decide) (by decide) hs).2 (.malloc 20 [])
    (by change (_ : Nat) < _; decide)
  exact ⟨s, hs, hp, s', hs'⟩

end Xv6.Umalloc
