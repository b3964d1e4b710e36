import Xv6.Vm.Lemmas.Alloc

/-! # The allocator for user pages -/

namespace Xv6.Vm

open Xv6.Lib

attribute [local irreducible] V2P P2V NPDENTRIES

variable {L : Type} {s s' : Mem L} {e e' : Swap L} {d p va : Nat} {M O : Nat → Prop}

/-! ## Addresses in the list -/

structure SameAddr (e e' : Swap L) : Prop where
  pgdir : ∀ i, (e'.pages i).pgdir = (e.pages i).pgdir
  vaddr : ∀ i, (e'.pages i).vaddr = (e.pages i).vaddr
  head : e'.page_lru_head = e.page_lru_head

theorem SameAddr.trans {e1 : Swap L} (h1 : SameAddr e e1) (h2 : SameAddr e1 e') : SameAddr e e' :=
  ⟨fun i => (h2.pgdir i).trans (h1.pgdir i), fun i => (h2.vaddr i).trans (h1.vaddr i), h2.head.trans h1.head⟩

theorem sameAddr_setNext (e : Swap L) (i : Nat) (q : Option Nat) : SameAddr e (e.setNext i q) := by
  have h (j : Nat) : ((e.setNext i q).pages j).pgdir = (e.pages j).pgdir ∧ ((e.setNext i q).pages j).vaddr = (e.pages j).vaddr := by
    by_cases hj : j = i
    · subst hj
      rw [pages_setNext]
      exact ⟨rfl, rfl⟩
    · rw [pages_setNext_ne _ _ hj]
      exact ⟨rfl, rfl⟩
  exact ⟨fun j => (h j).1, fun j => (h j).2, rfl⟩

theorem sameAddr_setPrev (e : Swap L) (i : Nat) (q : Option Nat) : SameAddr e (e.setPrev i q) := by
  have h (j : Nat) : ((e.setPrev i q).pages j).pgdir = (e.pages j).pgdir ∧ ((e.setPrev i q).pages j).vaddr = (e.pages j).vaddr := by
    by_cases hj : j = i
    · subst hj
      rw [pages_setPrev]
      exact ⟨rfl, rfl⟩
    · rw [pages_setPrev_ne _ _ hj]
      exact ⟨rfl, rfl⟩
  exact ⟨fun j => (h j).1, fun j => (h j).2, rfl⟩

theorem sameAddr_unlink (h : unlink e p = .ok e') : SameAddr e e' := by
  unfold unlink at h
  split at h
  · rename_i next prev _ _
    cases h
    have h' := (((sameAddr_setPrev e next (some prev)).trans (sameAddr_setNext _ prev (some next))).trans
      (sameAddr_setNext _ p none)).trans (sameAddr_setPrev _ p none)
    exact ⟨h'.pgdir, h'.vaddr, h'.head⟩
  · cases h

def ListStops (e : Stop) : Prop := e = .fullPageArray ∨ e = .null ∨ e = .hang

theorem ends_lruLink (e : Swap L) (head : Nat) : Ends ListStops (SameAddr e) (lruLink e head) := by
  unfold lruLink
  dsimp only
  split
  · exact .inl rfl
  · split
    · exact .inr (.inl rfl)
    · exact ((((sameAddr_setNext e _ _).trans (sameAddr_setPrev _ _ _)).trans (sameAddr_setNext _ _ _)).trans
        (sameAddr_setPrev _ _ _))

theorem ends_lruFind (e : Swap L) (va k p : Nat) : Ends ListStops (fun _ => True) (lruFind e va k p) := by
  induction k generalizing p with
  | zero => exact .inr (.inr rfl)
  | succ k ih =>
    unfold lruFind
    split
    · trivial
    · split
      · exact .inr (.inl rfl)
      · exact ih _

theorem ends_unlink (e : Swap L) (p : Nat) : Ends ListStops (SameAddr e) (unlink e p) := by
  cases h : unlink e p with
  | ok e' => exact sameAddr_unlink h
  | error x =>
    unfold unlink at h
    split at h
    · cases h
    · cases h
      exact .inr (.inl rfl)

/-! ## The contract -/

theorem Lru.sameAddr (h : Lru O M s) (hs : Shape s'.ext) (ha : SameAddr s.ext s'.ext) (hm : s'.mem = s.mem) : Lru O M s' := by
  refine ⟨hs, ?_⟩
  rw [ha.pgdir, ha.vaddr, ha.head, hm]
  exact h.entry

theorem ends_lru_insert (s : Mem L) (pgdir va : Nat) (u : Bool) :
    Ends ListStops (fun s' => SameMem s s' ∧ (SameAddr s.ext s'.ext ∨ (s'.ext.pages 0).pgdir = pgdir))
      (Vm.lru_insert s pgdir va u) := by
  unfold Vm.lru_insert
  split
  · dsimp only
    split
    · refine ⟨⟨rfl, rfl, rfl⟩, .inr ?_⟩
      simp [Swap.setPage]
    · exact (ends_lruLink _ _).bind fun e he => ⟨⟨rfl, rfl, rfl⟩, .inl ⟨he.pgdir, he.vaddr, he.head⟩⟩
  · exact ⟨⟨rfl, rfl, rfl⟩, .inl ⟨fun _ => rfl, fun _ => rfl, rfl⟩⟩

theorem Lru.lru_insert (h : Lru O M s) (hd : d < NFRAMES) (hO : O d) (va : Nat) (u : Bool) :
    Ends ListStops (fun s' => SameMem s s' ∧ Lru O M s') (Vm.lru_insert s (kva d) va u) := by
  refine ((ends_lru_insert s (kva d) va u).and (h.shape.lru_insert (kva d) va u)).imp fun s' ⟨⟨hm, ha⟩, hs⟩ => ⟨hm, ?_⟩
  rcases ha with ha | hp
  · exact h.sameAddr hs ha hm.mem
  · exact ⟨hs, .inr ⟨d, hp, hd, .inl hO⟩⟩

theorem Lru.lru_delete (h : Lru O M s) (pgdir va : Nat) :
    Ends ListStops (fun s' => SameMem s s' ∧ Lru O M s') (Vm.lru_delete s pgdir va) := by
  unfold Vm.lru_delete
  split
  · exact ⟨⟨rfl, rfl, rfl⟩, h⟩
  · refine (ends_lruFind s.ext va _ _).bind fun p _ => ?_
    cases hu : unlink s.ext p with
    | error e => exact (ends_unlink s.ext p).of_error hu
    | ok e =>
      have ha := sameAddr_unlink hu
      exact ⟨⟨rfl, rfl, rfl⟩, h.sameAddr ((h.shape.unlink hu).same ⟨rfl, rfl⟩) ⟨ha.pgdir, ha.vaddr, ha.head⟩ rfl⟩

def AllocStops (L : Type) (e : Stop) : Prop := KallocStops L e ∨ ListStops e

theorem takes_user (hd : d < NFRAMES) :
    Takes Locked.hooks d M (· = d) (Lru (L := L) (· = d) M) (fun s s' => Lru (· = d) M s' ∧ Wiped (· = d) M s s') (AllocStops L)
      True fun _ => True where
  own _ h := h
  stable _ _ hj hm _ he := hj.stable hm he
  kalloc _ _ _ hj hne hpop := (hj.kalloc hne hpop).mono (fun _ => .inl) fun _ => id
  empty _ _ hj hO hf := (hj.kalloc_empty hO hf).mono (fun _ => .inl) fun _ => id
  lru_insert _ va u hj _ := (hj.lru_insert hd rfl va u).mono (fun _ => .inr) fun _ => id

theorem drops_user : Drops Locked.hooks M M (Lru (L := L) O M) (AllocStops L) where
  sub _ := id
  stable _ _ hj hm _ he := hj.stable hm he
  lru_delete _ pgdir f hj _ := (hj.lru_delete pgdir (kva f)).mono (fun _ => .inr) fun _ => id

theorem ages_user : Ages d M (Lru (L := L) (· = d) M) fun s s' => Lru (· = d) M s' ∧ Wiped (· = d) M s s' := by
  rintro K s s' T ⟨hj, hw⟩ hl hM
  have hMd : M d := hM d (.inr (.inl rfl))
  rcases hw.mem with hm | ⟨t, i, hi, hm, ht⟩
  · exact ⟨hj, by rw [hm], fun x => .inl (pte_congr (d := d) (fun g _ => by rw [hm]) x), fun g _ _ => by rw [hm], hw.freelist, hw.cr3⟩
  · -- the entry is in a frame outside, or in a page table of the directory
    have hown : ¬ M t ∨ ∃ k, T k = some t := by
      refine ht.imp id ?_
      rintro ⟨d', k, hd', hk, hp, he⟩
      refine ⟨k, ?_⟩
      subst hd'
      cases hT : T k with
      | none => rw [hl.absent k hk hT] at hp; cases hp
      | some t' => rw [(hl.present k t' hT).2] at he; rw [he]
    have htd : d ≠ t := by
      rintro rfl
      exact hown.elim (fun h => h hMd) fun h => h.elim hl.ne
    refine ⟨hj, ?_, fun x => ?_, fun g hg ho => ?_, hw.freelist, hw.cr3⟩
    · rw [hm, clearA, mem_setPage_ne _ htd]
    · cases hT : T (PDX x) with
      | none => rw [pte_none hT, pte_none hT]; exact .inl rfl
      | some t' =>
        rw [pte_some hT, pte_some hT, hm]
        exact word_clearA_cases s hi t' (PTX x)
    · rw [hm, clearA, mem_setPage_ne]
      rintro rfl
      exact hown.elim (fun h => h hg) fun h => ho (.inr h)

end Xv6.Vm
