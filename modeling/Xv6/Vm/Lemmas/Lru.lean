import Xv6.Vm.Lemmas.Swap

/-!
# The shape of the LRU list

`lru_insert` looks for a page of the array with a link instead of one without, and so it only ever takes `pages[0]` into the list.
-/

namespace Xv6.Vm

open Xv6.Lib Function List Ends

variable {L : Type} {lw : Fs.LogWrite L} {s : Mem L} {e e' : Swap L} {p : Nat}

/-- `pages[0]` is a ring of its own, or without links. -/
structure Shape (e : Swap L) : Prop where
  others : ∀ i, i ≠ 0 → (e.pages i).next = none
  first : ((e.pages 0).next = some 0 ∧ (e.pages 0).prev = some 0 ∧ e.page_lru_head = some 0) ∨
    ((e.pages 0).next = none ∧ (e.pages 0).prev = none ∧ (e.page_lru_head = none ∨ e.page_lru_head = some 0))

theorem Shape.same (h : Shape e) (hs : SameList e e') : Shape e' :=
  ⟨fun i hi => hs.pages ▸ h.others i hi, by rw [hs.pages, hs.head]; exact h.first⟩

theorem Shape.eq_zero (h : Shape e) {q : Nat} (hn : (e.pages p).next = some q) : p = 0 := by
  by_contra hp
  rw [h.others p hp] at hn
  cases hn

theorem Shape.head_eq (h : Shape e) (hp : e.page_lru_head = some p) : p = 0 := by
  rcases h.first with ⟨_, _, h⟩ | ⟨_, _, h | h⟩ <;> rw [h] at hp <;> cases hp
  · rfl
  · rfl

theorem pages_setNext_ne (e : Swap L) {i j : Nat} (q : Option Nat) (h : j ≠ i) :
    (e.setNext i q).pages j = e.pages j := update_of_ne h _ _

theorem pages_setPrev_ne (e : Swap L) {i j : Nat} (q : Option Nat) (h : j ≠ i) :
    (e.setPrev i q).pages j = e.pages j := update_of_ne h _ _

theorem pages_setNext (e : Swap L) (i : Nat) (q : Option Nat) :
    (e.setNext i q).pages i = { e.pages i with next := q } := update_self ..

theorem pages_setPrev (e : Swap L) (i : Nat) (q : Option Nat) :
    (e.setPrev i q).pages i = { e.pages i with prev := q } := update_self ..

theorem Shape.unlink (h : Shape e) (hu : unlink e p = .ok e') : Shape e' := by
  unfold Vm.unlink at hu
  split at hu
  · rename_i next prev hn hp
    cases hu
    obtain rfl := h.eq_zero hn
    rcases h.first with ⟨h1, h2, h3⟩ | ⟨h1, _⟩
    · rw [h1] at hn; cases hn
      rw [h2] at hp; cases hp
      refine ⟨fun i hi => ?_, .inr ⟨?_, ?_, .inr h3⟩⟩
      · simp [pages_setNext_ne _ _ hi, pages_setPrev_ne _ _ hi, h.others i hi]
      · simp [pages_setPrev, pages_setNext]
      · simp [pages_setPrev]
    · rw [h1] at hn; cases hn
  · cases hu

theorem Shape.nextHead (h : Shape s.ext) : Ends Any (fun s' => Shape s'.ext) (nextHead s) := by
  unfold Vm.nextHead
  split
  · trivial
  · rename_i p hp
    obtain rfl := h.head_eq hp
    refine ⟨h.others, ?_⟩
    rcases h.first with ⟨h1, h2, _⟩ | ⟨h1, h2, _⟩
    · exact .inl ⟨h1, h2, h1⟩
    · exact .inr ⟨h1, h2, .inl h1⟩

theorem Shape.pickLoop (h : Shape s.ext) (tail : Option Nat) (k p : Nat) : Keep Shape (pickLoop tail k s p) := by
  induction k generalizing s p with
  | zero => trivial
  | succ k ih =>
    refine (Ends.any _).bind fun b _ => ?_
    cases b with
    | false => exact h
    | true =>
      refine (ext_pteUpdate _ s _ _).bind fun s1 h1 => (Shape.nextHead (h1 ▸ h)).bind fun s2 h2 => ?_
      split
      · exact h2
      · split
        · trivial
        · exact ih h2 _

theorem Shape.reclaim (h : Shape s.ext) : Keep Shape (reclaim lw s) := by
  refine bind (Q := fun r => Shape r.2.ext) ?_ ?_
  · unfold pick
    split
    · exact h
    · exact h.pickLoop _ _ _
  · rintro ⟨victim, s1⟩ h1
    cases victim with
    | none => exact h1
    | some p => exact (ends_evict s1 p).bind fun s2 ⟨_, e, hu, he⟩ => .ret ((h1.unlink hu).same he)

theorem Shape.kalloc (h : Shape s.ext) : Keep Shape (kalloc lw s) := by
  suffices hl : ∀ k s, Shape s.ext → Keep Shape (kallocLoop lw k s) from hl (NPAGES + 1) s h
  intro k
  induction k with
  | zero => intros; trivial
  | succ k ih =>
    intro s h
    simp only [kallocLoop]
    split
    · exact (Ends.any _).bind fun _ _ => h
    · refine h.reclaim.bind ?_
      rintro ⟨ok, s1⟩ h1
      cases ok with
      | true => exact ih s1 h1
      | false => exact h1

theorem Shape.lruLink (h : Shape e) : Ends Any Shape (lruLink e 0) := by
  simp only [Vm.lruLink]
  split
  · trivial
  · rename_i i hi
    obtain ⟨q, hq⟩ := Option.isSome_iff_exists.mp (scan_some hi).2.2
    obtain rfl := h.eq_zero hq
    rcases h.first with ⟨h1, h2, h3⟩ | ⟨h1, _⟩
    · simp only [h2]
      refine ⟨fun i hi => ?_, .inl ⟨?_, ?_, h3⟩⟩
      · simp [pages_setNext_ne _ _ hi, pages_setPrev_ne _ _ hi, h.others i hi]
      · simp [pages_setPrev, pages_setNext]
      · simp [pages_setPrev]
    · rw [h1] at hq; cases hq

theorem Shape.lru_insert (h : Shape s.ext) (pgdir va : Nat) (u : Bool) : Keep' Shape (lru_insert s pgdir va u) := by
  unfold Vm.lru_insert
  cases u with
  | false => exact h
  | true =>
    simp only [if_true]
    split
    · refine ⟨fun i hi => ?_, .inl ⟨?_, ?_, rfl⟩⟩
      · simp [Swap.setPage, update_of_ne hi, h.others i hi]
      · simp [Swap.setPage]
      · simp [Swap.setPage]
    · rename_i head hh
      obtain rfl := h.head_eq hh
      have h' : Shape { s.ext with num_lru_pages := s.ext.num_lru_pages + 1 } := ⟨h.others, h.first⟩
      exact h'.lruLink.bind fun e he => he

theorem Shape.lru_delete (h : Shape s.ext) (pgdir va : Nat) : Keep' Shape (lru_delete s pgdir va) := by
  unfold Vm.lru_delete
  split
  · exact h
  · refine (Ends.any _).bind fun p _ => ?_
    cases hu : Vm.unlink s.ext p with
    | error e => trivial
    | ok e => exact (h.unlink hu).same ⟨rfl, rfl⟩

theorem keeps_shape : Keeps Shape (hooks lw) where
  kalloc _ h := h.kalloc
  lru_insert _ pgdir va u h := h.lru_insert pgdir va u
  lru_delete _ pgdir va h := h.lru_delete pgdir va

theorem Shape.swapin (h : Shape s.ext) (pgdir va : Nat) : Keep Shape (swapin lw s pgdir va) := by
  refine h.kalloc.bind ?_
  rintro ⟨np, s1⟩ h1
  dsimp only
  split
  · exact h1
  · refine bind (Q := fun s => Shape s.ext) ?_ fun s2 h2 => bind (Q := fun s => Shape s.ext) ?_ fun s3 h3 => .ret h3
    · unfold swapread
      split
      · trivial
      · exact keep_storePage (s := setSwapbitmap s1 _ 0) (h1.same ⟨rfl, rfl⟩) _ _
    · exact (Ends.any _).bind fun pte _ => (Ends.any _).bind fun w _ => keep_store h2 _ _

/-! ## The list that has this shape -/

theorem Shape.ring (h : Shape e) {ps : List Nat} (hr : Ring e ps) :
    (ps = [] ∧ e.page_lru_head = none) ∨ (ps = [0] ∧ (e.pages 0).next = some 0) := by
  have hz : ∀ p ∈ ps, p = 0 := by
    intro p hp
    obtain ⟨i, hi, rfl⟩ := getElem_of_mem hp
    have hn := hr.next i _ (getElem?_eq_getElem hi)
    rw [getElem?_eq_getElem (Nat.mod_lt _ (by omega))] at hn
    exact h.eq_zero hn
  cases ps with
  | nil => exact .inl ⟨rfl, hr.head⟩
  | cons p ps =>
    obtain rfl := hz p (by simp)
    have : ps = [] := by
      rw [eq_nil_iff_forall_not_mem]
      intro q hq
      obtain rfl := hz q (mem_cons_of_mem _ hq)
      exact (nodup_cons.mp hr.nodup).1 hq
    subst this
    exact .inr ⟨rfl, hr.next 0 0 rfl⟩

theorem ring_nil (h : e.page_lru_head = none) : Ring e [] where
  head := h
  nodup := nodup_nil
  next _ _ h := by simp at h
  prev _ _ _ h := by simp at h

theorem Shape.ring_one (h : Shape e) (hn : (e.pages 0).next = some 0) : Ring e [0] := by
  rcases h.first with ⟨_, h2, h3⟩ | ⟨h1, _⟩
  · refine ⟨h3, nodup_singleton 0, fun i p hi => ?_, fun i p hi hl => ?_⟩
    · obtain ⟨rfl, rfl⟩ : i = 0 ∧ p = 0 := by cases i <;> simp_all
      exact hn
    · have : i = 0 := by simpa using hl
      subst this
      obtain rfl : p = 0 := by simpa using hi.symm
      exact h2
  · rw [h1] at hn; cases hn

end Xv6.Vm
