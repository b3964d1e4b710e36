import Xv6.Vm.Lemmas.Lru

/-!
# Searching the LRU list

`deallocuvm` passes the kernel address of a frame, while `mappages` has put user addresses into the list.
-/

namespace Xv6.Vm

open Xv6.Lib

attribute [local irreducible] V2P P2V NPDENTRIES

variable {L : Type} {lw : Fs.LogWrite L} {K : Kernel} {s : Mem L} {e : Swap L} {d t pgdir va oldsz : Nat}
  {w : BitVec 32}

/-! ## One entry -/

theorem lruFind_hang (hn : (e.pages 0).next = some 0) (hv : (e.pages 0).vaddr ≠ va) (k : Nat) : lruFind e va k 0 = .error .hang := by
  induction k with
  | zero => rfl
  | succ k ih => simp [lruFind, hv, hn, ih]

theorem Shape.lru_delete_hang (h : Shape s.ext) (hn : (s.ext.pages 0).next = some 0) (hv : (s.ext.pages 0).vaddr ≠ va) :
    Vm.lru_delete s pgdir va = .error .hang := by
  rcases h.first with ⟨_, _, hh⟩ | ⟨h1, _⟩
  · simp only [Vm.lru_delete, hh, lruFind_hang hn hv]
    rfl
  · rw [h1] at hn; cases hn

theorem lru_delete_null (hh : s.ext.page_lru_head = some 0) (hn : (s.ext.pages 0).next = none) :
    Vm.lru_delete s pgdir va = .error .null := by
  simp only [Vm.lru_delete, hh, lruFind, hn, Option.isSome_none, Bool.false_eq_true, and_false, if_false]
  rfl

theorem Shape.lru_delete_found (h : Shape s.ext) (hn : (s.ext.pages 0).next = some 0) (hv : (s.ext.pages 0).vaddr = va) :
    ∃ s', Vm.lru_delete s pgdir va = .ok s' := by
  rcases h.first with ⟨_, hp, hh⟩ | ⟨h1, _⟩
  · have hu : ∃ e', Vm.unlink s.ext 0 = .ok e' := by
      simp only [Vm.unlink, hn, hp]
      exact ⟨_, rfl⟩
    obtain ⟨e', hu⟩ := hu
    simp only [Vm.lru_delete, hh, lruFind, hv, hn, Option.isSome_some, and_self, if_true, bind, Except.bind, hu]
    exact ⟨_, rfl⟩
  · rw [h1] at hn; cases hn

theorem Shape.lru_delete_ok_iff (h : Shape s.ext) (pgdir va : Nat) :
    (∃ s', Vm.lru_delete s pgdir va = .ok s') ↔
      s.ext.page_lru_head = none ∨ ((s.ext.pages 0).next = some 0 ∧ (s.ext.pages 0).vaddr = va) := by
  constructor
  · rintro ⟨s', hs⟩
    rcases h.first with ⟨hn, _, _⟩ | ⟨hn, _, hh | hh⟩
    · refine .inr ⟨hn, ?_⟩
      by_contra hv
      cases (h.lru_delete_hang hn hv).symm.trans hs
    · exact .inl hh
    · cases (lru_delete_null hh hn).symm.trans hs
  · rintro (hh | ⟨hn, hv⟩)
    · exact ⟨s, by simp [Vm.lru_delete, hh]⟩
    · exact h.lru_delete_found hn hv

/-! ## Address spaces -/

structure UserRing (e : Swap L) : Prop where
  shape : Shape e
  next : (e.pages 0).next = some 0
  user : (e.pages 0).vaddr < KERNBASE

abbrev Stuck {α : Type} (x : Except Stop α) : Prop := Ends Any (fun _ => False) x

theorem Stuck.ne_ok {α : Type} {x : Except Stop α} (h : Stuck x) (a : α) : x ≠ .ok a := fun hx => h.of_ok hx

theorem ends_kfree_addr (s : Mem L) (v : Nat) : Ends Any (fun _ => K.end_ ≤ v) (kfree K s v) := by
  unfold kfree
  split
  · trivial
  · rename_i hc
    simp only [not_or] at hc
    exact (Ends.any _).bind fun _ _ => (Ends.any _).bind fun _ _ => .ret (by omega)

theorem UserRing.freePte (h : UserRing s.ext) (pgdir pte : Nat) (w : BitVec 32) : Stuck (freePte K (hooks lw) s pgdir pte w) := by
  unfold Vm.freePte
  split
  · trivial
  · refine ((ext_kfree s _).and (ends_kfree_addr s _)).bind fun s1 ⟨h1, hv⟩ => ?_
    have hne : (s1.ext.pages 0).vaddr ≠ P2V (PTE_ADDR w) := by
      have := K.data_ge
      have := K.end_ge
      have := h.user
      simp only [KERNLINK, EXTMEM] at *
      rw [h1]
      omega
    have hd : lru_delete s1 pgdir (P2V (PTE_ADDR w)) = .error .hang :=
      Shape.lru_delete_hang (h1 ▸ h.shape) (h1 ▸ h.next) hne
    simp only [hooks, hd]
    trivial

section

variable (hm : Maps s d t va w) (h : UserRing s.ext) (hw : has w PTE_P)
include hm h hw

/-- Going up from `a`, the loop reaches the page at `va` with memory as it was, or it does not return. -/
theorem Maps.deallocPage {a : Nat} (ha : a % PGSIZE = 0) (hv : va % PGSIZE = 0) (hle : a ≤ va) (hlt : va < 2 ^ 32) :
    Ends Any (fun r => r.2 = s ∧ r.1 % PGSIZE = 0 ∧ a < r.1 ∧ r.1 ≤ va) (deallocPage K (hooks lw) s (kva d) a) := by
  simp only [Vm.deallocPage, walk_kva hm.dir, bind, Except.bind]
  simp only [PGSIZE] at ha hv
  by_cases hx : PDX a = PDX va
  · have hne : kva t + 4 * PTX a ≠ 0 := by simp [kva, KERNBASE]
    rw [hx, if_pos hm.present, hm.pde, P2V_frame hm.table, if_neg hne]
    have hl := ptx_lt a
    rw [load_kva hm.table (by omega)]
    dsimp only
    split
    · exact (h.freePte (kva d) _ _).bind fun _ hf => hf.elim
    · rename_i hnp
      refine .ret ⟨rfl, by simp only [PGSIZE]; omega, by simp only [PGSIZE]; omega, ?_⟩
      have hav : a ≠ va := by
        rintro rfl
        rw [hm.pte] at hnp
        exact hnp hw
      simp only [PGSIZE]
      omega
  · have hlt' : (PDX a + 1) * 2 ^ 22 ≤ va := by
      simp only [PDX] at hx ⊢
      omega
    generalize (if has ((s.mem d).word (4 * PDX a)) PTE_P then _ else 0) = pte
    split
    · simp only [PDX] at hlt' ⊢
      refine .ret ⟨rfl, ?_, ?_, ?_⟩ <;> simp only [PGSIZE] <;> omega
    · cases Vm.load s pte with
      | error e => trivial
      | ok v =>
        dsimp only
        split
        · exact (h.freePte (kva d) _ _).bind fun _ hf => hf.elim
        · refine .ret ⟨rfl, by simp only [PGSIZE]; omega, by simp only [PGSIZE]; omega, ?_⟩
          simp only [PGSIZE, PDX] at hlt' ⊢
          omega

theorem Maps.deallocLoop (hv : va % PGSIZE = 0) (hlt : va < 2 ^ 32) (ho : va < oldsz) {k a : Nat} (ha : a % PGSIZE = 0) (hle : a ≤ va)
    (hk : (va - a) / PGSIZE < k) : Stuck (deallocLoop K (hooks lw) (kva d) oldsz k s a) := by
  induction k generalizing a with
  | zero => exact absurd hk (Nat.not_lt_zero _)
  | succ k ih =>
    rw [Vm.deallocLoop, if_pos (by omega)]
    refine (hm.deallocPage h hw ha hv hle hlt).bind ?_
    rintro ⟨b, s1⟩ ⟨rfl, hb, hab, hbv⟩
    refine ih hb hbv ?_
    simp only [PGSIZE] at *
    omega

theorem Maps.deallocuvm (hv : va % PGSIZE = 0) {newsz : Nat} (hn : PGROUNDUP newsz ≤ va) (ho : va < oldsz) (hle : newsz < oldsz)
    (hk : oldsz ≤ KERNBASE) : Stuck (deallocuvm K (hooks lw) s (kva d) oldsz newsz) := by
  rw [Vm.deallocuvm, if_neg (by omega)]
  have hlt : va < 2 ^ 32 := by simp only [KERNBASE] at hk; omega
  refine (hm.deallocLoop h hw hv hlt ho (Nat.mul_mod_left _ _) hn ?_).bind fun _ hf => hf.elim
  simp only [PGSIZE] at *
  omega

theorem Maps.freevm (hv : va % PGSIZE = 0) (hk : va < KERNBASE) : Stuck (freevm K (hooks lw) s (kva d)) := by
  rw [Vm.freevm, if_neg kva_ne_zero]
  exact (hm.deallocuvm h hw hv (Nat.zero_le _) hk (by decide) (Nat.le_refl _)).bind fun _ hf => hf.elim

end

end Xv6.Vm
