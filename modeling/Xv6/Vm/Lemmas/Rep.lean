import Xv6.Vm.Lemmas.Delete

/-!
# The links of the LRU list

After `n` insertions the list is empty (`n = 0`), or it is `pages[0]` alone with a counter of `n`, or `pages[0]` has been
taken out while `page_lru_head` still points to it. In the last state no operation returns.
-/

namespace Xv6.Vm

open Xv6.Lib

attribute [local irreducible] V2P P2V

variable {L : Type} {lw : Fs.LogWrite L} {s s' : Mem L} {e e' : Swap L} {n pgdir va : Nat} {ps : List Nat}

/-- The list is a ring of the pages `ps`, with the right counter, and no other page has links. -/
structure Rep (e : Swap L) (ps : List Nat) : Prop where
  ring : Ring e ps
  count : e.num_lru_pages = ps.length
  off : ∀ i, i ∉ ps → (e.pages i).next = none ∧ (e.pages i).prev = none

structure Linked (e : Swap L) : Prop where
  next : (e.pages 0).next = some 0
  prev : (e.pages 0).prev = some 0
  head : e.page_lru_head = some 0

structure Unlinked (e : Swap L) : Prop where
  next : (e.pages 0).next = none
  prev : (e.pages 0).prev = none
  head : e.page_lru_head = some 0

structure After (n : Nat) (e : Swap L) : Prop where
  others : ∀ i, i ≠ 0 → (e.pages i).next = none ∧ (e.pages i).prev = none
  first : (n = 0 ∧ Rep e []) ∨ (0 < n ∧ Linked e ∧ e.num_lru_pages = n) ∨ (0 < n ∧ Unlinked e)

/-! ## Insertion -/

theorem Linked.lruLink (h : Linked e) :
    lruLink e 0 = .ok ((((e.setNext 0 (some 0)).setPrev 0 (some 0)).setNext 0 (some 0)).setPrev 0 (some 0)) := by
  have hs : scan (fun i => (e.pages i).next.isSome) NPAGES 0 = some 0 := by
    have hn : NPAGES = (NPAGES - 1).succ := rfl
    rw [hn, scan, if_pos (by simp [h.next])]
  simp [Vm.lruLink, hs, h.prev]

theorem Unlinked.lruLink (h : Unlinked e) (ho : ∀ i, i ≠ 0 → (e.pages i).next = none ∧ (e.pages i).prev = none) :
    lruLink e 0 = .error .fullPageArray := by
  have hs : scan (fun i => (e.pages i).next.isSome) NPAGES 0 = none := by
    cases hc : scan (fun i => (e.pages i).next.isSome) NPAGES 0 with
    | none => rfl
    | some i =>
      have hi := (scan_some hc).2.2
      by_cases h0 : i = 0
      · subst h0; simp [h.next] at hi
      · simp [(ho i h0).1] at hi
  simp [Vm.lruLink, hs]

theorem lru_insert_some {p : Nat} (hh : s.ext.page_lru_head = some p) : lru_insert s pgdir va true =
    (lruLink { s.ext with num_lru_pages := s.ext.num_lru_pages + 1 } p).map fun e => { s with ext := e } := by
  simp only [lru_insert, if_true]
  split
  · rename_i h
    cases hh.symm.trans h
  · rename_i q h
    cases hh.symm.trans h
    rfl

theorem After.lru_insert (h : After n s.ext) (hs : lru_insert s pgdir va true = .ok s') :
    After (n + 1) s'.ext ∧ (n = 0 → (s'.ext.pages 0).pgdir = pgdir ∧ (s'.ext.pages 0).vaddr = va) := by
  rcases h.first with ⟨rfl, hr⟩ | ⟨hn, hl, hc⟩ | ⟨hn, hu⟩
  · have hh : s.ext.page_lru_head = none := hr.ring.head
    have hc : s.ext.num_lru_pages = 0 := hr.count
    simp only [Vm.lru_insert, if_true, hh] at hs
    cases hs
    refine ⟨⟨fun i hi => ?_, .inr (.inl ⟨by omega, ⟨?_, ?_, rfl⟩, ?_⟩)⟩, fun _ => ⟨?_, ?_⟩⟩
    · simp [Swap.setPage, Function.update_of_ne hi, h.others i hi]
    all_goals simp [Swap.setPage, hc]
  · have hl' : Linked { s.ext with num_lru_pages := s.ext.num_lru_pages + 1 } := ⟨hl.next, hl.prev, hl.head⟩
    rw [lru_insert_some hl.head, hl'.lruLink] at hs
    cases hs
    refine ⟨⟨fun i hi => ?_, .inr (.inl ⟨by omega, ⟨?_, ?_, ?_⟩, ?_⟩)⟩, fun h0 => absurd h0 (by omega)⟩
    · simp [pages_setNext_ne _ _ hi, pages_setPrev_ne _ _ hi, h.others i hi]
    · simp [pages_setPrev, pages_setNext]
    · simp [pages_setPrev]
    · exact hl.head
    · simp [Swap.setNext, Swap.setPrev, Swap.setPage, hc]
  · have hu' : Unlinked { s.ext with num_lru_pages := s.ext.num_lru_pages + 1 } := ⟨hu.next, hu.prev, hu.head⟩
    rw [lru_insert_some hu.head, hu'.lruLink h.others] at hs
    cases hs

/-! ## Removal -/

theorem After.unlink (h : After n e) (hu : unlink e 0 = .ok e') : After n e' ∧ 0 < n ∧ Unlinked e' := by
  rcases h.first with ⟨_, hr⟩ | ⟨hn, hl, _⟩ | ⟨_, hl⟩
  · simp only [Vm.unlink, (hr.off 0 (by simp)).1] at hu
    cases hu
  · simp only [Vm.unlink, hl.next, hl.prev, Except.ok.injEq] at hu
    subst hu
    have hun : Unlinked ({ (((e.setPrev 0 (some 0)).setNext 0 (some 0)).setNext 0 none).setPrev 0 none with
        num_lru_pages := ((e.setPrev 0 (some 0)).setNext 0 (some 0)).num_lru_pages - 1 } : Swap L) :=
      ⟨by simp only [pages_setPrev, pages_setNext], by simp only [pages_setPrev], hl.head⟩
    refine ⟨⟨fun i hi => ?_, .inr (.inr ⟨hn, hun⟩)⟩, hn, hun⟩
    simp [pages_setNext_ne _ _ hi, pages_setPrev_ne _ _ hi, h.others i hi]
  · simp only [Vm.unlink, hl.next] at hu
    cases hu

theorem Unlinked.same (h : Unlinked e) (hs : SameList e e') : Unlinked e' :=
  ⟨hs.pages ▸ h.next, hs.pages ▸ h.prev, hs.head ▸ h.head⟩

theorem After.same (h : After n e) (hn : 0 < n) (hu : Unlinked e) (hs : SameList e e') : After n e' :=
  ⟨fun i hi => hs.pages ▸ h.others i hi, .inr (.inr ⟨hn, hu.same hs⟩)⟩

theorem After.lru_delete (h : After n s.ext) (hs : lru_delete s pgdir va = .ok s') : After n s'.ext ∧ (0 < n → Unlinked s'.ext) := by
  rcases h.first with ⟨hn, hr⟩ | ⟨hn, hl, _⟩ | ⟨_, hu⟩
  · have hh : s.ext.page_lru_head = none := hr.ring.head
    simp only [Vm.lru_delete, hh, Except.ok.injEq] at hs
    subst hs
    exact ⟨h, fun h0 => absurd h0 (by omega)⟩
  · by_cases hv : (s.ext.pages 0).vaddr = va
    · cases hu : Vm.unlink s.ext 0 with
      | error e =>
        simp only [Vm.unlink, hl.next, hl.prev] at hu
        cases hu
      | ok e =>
        simp only [Vm.lru_delete, hl.head, lruFind, hv, hl.next, Option.isSome_some, and_self, if_true, bind,
          Except.bind, hu] at hs
        cases hs
        obtain ⟨ha, _, hun⟩ := h.unlink hu
        exact ⟨ha.same hn hun ⟨rfl, rfl⟩, fun _ => hun.same ⟨rfl, rfl⟩⟩
    · simp only [Vm.lru_delete, hl.head, lruFind_hang hl.next hv] at hs
      cases hs
  · cases (lru_delete_null hu.head hu.next).symm.trans hs

theorem After.pick (h : After n s.ext) : Ends Any (fun r => After n r.2.ext ∧ ∀ p ∈ r.1, p = 0) (pick s) := by
  unfold Vm.pick
  rcases h.first with ⟨_, hr⟩ | ⟨hn, hl, hc⟩ | ⟨_, hu⟩
  · have hh : s.ext.page_lru_head = none := hr.ring.head
    simp only [hh]
    exact ⟨h, by simp⟩
  · simp only [hl.head, hl.prev]
    refine (Ends.any _).bind fun a _ => ?_
    cases a with
    | false => exact ⟨h, by simp⟩
    | true =>
      refine (ext_pteUpdate _ s _ _).bind fun s1 h1 => ?_
      have hh : s1.ext.page_lru_head = some 0 := h1 ▸ hl.head
      have hx : (s1.ext.pages 0).next = some 0 := h1 ▸ hl.next
      simp only [nextHead, hh, hx, bind, Except.bind, if_true]
      refine ⟨⟨fun i hi => ?_, .inr (.inl ⟨hn, ⟨hx, ?_, rfl⟩, ?_⟩)⟩, by simp⟩
      · exact h1 ▸ h.others i hi
      · exact h1 ▸ hl.prev
      · exact h1 ▸ hc
  · simp only [hu.head, hu.prev]
    refine (Ends.any _).bind fun a _ => ?_
    cases a with
    | false => exact ⟨h, by simp⟩
    | true =>
      refine (ext_pteUpdate _ s _ _).bind fun s1 h1 => (ends_nextHead s1).bind fun s2 ⟨_, h2⟩ => ?_
      have hx : (s2.ext.pages 0).next = none := by rw [h2, h1]; exact hu.next
      simp only [reduceCtorEq, if_false, hx]
      trivial

theorem After.reclaim (h : After n s.ext) : Ends Any (fun r => After n r.2.ext) (reclaim lw s) := by
  refine h.pick.bind ?_
  rintro ⟨victim, s1⟩ ⟨h1, hv⟩
  cases victim with
  | none => exact h1
  | some p =>
    obtain rfl := hv p rfl
    refine (ends_evict s1 0).bind fun s2 ⟨_, e, hu, he⟩ => .ret ?_
    obtain ⟨ha, hn, hun⟩ := h1.unlink hu
    exact ha.same hn hun he

/-! ## Rings -/

theorem Linked.rep (h : After n e) (hl : Linked e) (hc : e.num_lru_pages = 1) : Rep e [0] where
  ring := Shape.ring_one ⟨fun i hi => (h.others i hi).1, .inl ⟨hl.next, hl.prev, hl.head⟩⟩ hl.next
  count := hc
  off i hi := h.others i (by simpa using hi)

theorem After.rep_iff (h : After n e) : (∃ ps, Rep e ps) ↔ n = 0 ∨ (n = 1 ∧ (e.pages 0).next = some 0) := by
  have hs : Shape e := by
    refine ⟨fun i hi => (h.others i hi).1, ?_⟩
    rcases h.first with ⟨_, hr⟩ | ⟨_, hl, _⟩ | ⟨_, hu⟩
    · obtain ⟨h1, h2⟩ := hr.off 0 (by simp)
      exact .inr ⟨h1, h2, .inl hr.ring.head⟩
    · exact .inl ⟨hl.next, hl.prev, hl.head⟩
    · exact .inr ⟨hu.next, hu.prev, .inr hu.head⟩
  constructor
  · rintro ⟨ps, hr⟩
    rcases h.first with ⟨hn, _⟩ | ⟨_, hl, hc⟩ | ⟨_, hu⟩
    · exact .inl hn
    · rcases hs.ring hr.ring with ⟨_, hh⟩ | ⟨rfl, _⟩
      · rw [hl.head] at hh; cases hh
      · have := hc.symm.trans hr.count
        simp only [List.length_singleton] at this
        exact .inr ⟨by omega, hl.next⟩
    · rcases hs.ring hr.ring with ⟨_, hh⟩ | ⟨rfl, hx⟩
      · rw [hu.head] at hh; cases hh
      · rw [hu.next] at hx; cases hx
  · rintro (rfl | ⟨rfl, hx⟩)
    · rcases h.first with ⟨_, hr⟩ | ⟨hn, _⟩ | ⟨hn, _⟩
      · exact ⟨[], hr⟩
      · omega
      · omega
    · rcases h.first with ⟨hn, _⟩ | ⟨_, hl, hc⟩ | ⟨_, hu⟩
      · omega
      · exact ⟨[0], hl.rep h hc⟩
      · rw [hu.next] at hx; cases hx

end Xv6.Vm
