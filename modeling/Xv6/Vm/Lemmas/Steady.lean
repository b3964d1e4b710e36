import Xv6.Vm.Lemmas.Clock
import Xv6.Vm.Lemmas.Locks
import Xv6.Vm.Lemmas.Release

/-!
# The allocator with its lock

A `kalloc` that finds neither a free page nor a victim may have cleared `PTE_A` of the page in the LRU list.
-/

namespace Xv6.Vm

open Xv6.Lib Locked

attribute [local irreducible] V2P P2V NPDENTRIES

variable {L : Type} {s s' : Mem L} {d f t va : Nat} {M O N : Nat → Prop} {w : BitVec 32}

/-! ## Entries without `PTE_A` -/

theorem has_PTE_P_clearA (w : BitVec 32) : has (w &&& ~~~PTE_A) PTE_P = has w PTE_P := by
  rw [has_PTE_P, has_PTE_P, BitVec.getLsbD_and]
  simp [PTE_A]

theorem frame_clearA (w : BitVec 32) : frame (w &&& ~~~PTE_A) = frame w := frame_and rfl w

theorem word_clearA_cases (s : Mem L) {t i : Nat} (hi : 4 * i + 3 < PGSIZE) (g j : Nat) :
    ((clearA s t i).mem g).word (4 * j) = (s.mem g).word (4 * j) ∨
      ((clearA s t i).mem g).word (4 * j) = (s.mem g).word (4 * j) &&& ~~~PTE_A := by
  by_cases h : t = g ∧ i = j
  · obtain ⟨rfl, rfl⟩ := h
    exact .inr (word_clearA_self s t hi)
  · exact .inl (word_clearA_ne s fun ht hj => h ⟨ht, hj⟩)

theorem clearA_P_frame (s : Mem L) {t i : Nat} (hi : 4 * i + 3 < PGSIZE) (g j : Nat) :
    has (((clearA s t i).mem g).word (4 * j)) PTE_P = has ((s.mem g).word (4 * j)) PTE_P ∧
      frame (((clearA s t i).mem g).word (4 * j)) = frame ((s.mem g).word (4 * j)) := by
  rcases word_clearA_cases s hi g j with h | h
  · rw [h]
    exact ⟨rfl, rfl⟩
  · rw [h]
    exact ⟨has_PTE_P_clearA _, frame_clearA _⟩

/-! ## The page in the list -/

/-- The page in the list is one of a directory `O`, or its directory and page table are not written. -/
structure Lru (O M : Nat → Prop) (s : Mem L) : Prop where
  shape : Shape s.ext
  entry : s.ext.page_lru_head = none ∨ ∃ d, (s.ext.pages 0).pgdir = kva d ∧ d < NFRAMES ∧
    (O d ∨ ¬ M d ∧ (has ((s.mem d).word (4 * PDX (s.ext.pages 0).vaddr)) PTE_P = true →
      frame ((s.mem d).word (4 * PDX (s.ext.pages 0).vaddr)) < NFRAMES ∧
        ¬ M (frame ((s.mem d).word (4 * PDX (s.ext.pages 0).vaddr)))))

/-- At most one bit has been cleared, in a frame that is not written or in a page table of a directory `O`. -/
structure Wiped (O M : Nat → Prop) (s s' : Mem L) : Prop where
  freelist : s'.freelist = s.freelist
  cr3 : s'.cr3 = s.cr3
  mem : s'.mem = s.mem ∨ ∃ t i, 4 * i + 3 < PGSIZE ∧ s'.mem = (clearA s t i).mem ∧
    (¬ M t ∨ ∃ d k, O d ∧ k < NPDENTRIES ∧ has ((s.mem d).word (4 * k)) PTE_P = true ∧ frame ((s.mem d).word (4 * k)) = t)

theorem Lru.stable (h : Lru O M s) (hm : ∀ g, ¬ M g → s'.mem g = s.mem g) (he : s'.ext = s.ext) : Lru O M s' := by
  refine ⟨he ▸ h.shape, ?_⟩
  rw [he]
  refine h.entry.imp id fun ⟨d, hd, hlt, ho⟩ => ⟨d, hd, hlt, ho.imp id fun hf => ⟨hf.1, ?_⟩⟩
  rw [hm d hf.1]
  exact hf.2

theorem a_clear_kva (hd : d < NFRAMES)
    (ht : has ((s.mem d).word (4 * PDX va)) PTE_P = true → frame ((s.mem d).word (4 * PDX va)) < NFRAMES) :
    pte_pte_a_clear s (kva d) va = .ok (if has ((s.mem d).word (4 * PDX va)) PTE_P then
      clearA s (frame ((s.mem d).word (4 * PDX va))) (PTX va) else s) := by
  have hp := ptx_lt va
  have hwalk := walk_kva (s := s) hd va
  cases hP : has ((s.mem d).word (4 * PDX va)) PTE_P with
  | false =>
    rw [hP] at hwalk
    simp only [pte_pte_a_clear, Vm.pteUpdate, hwalk, Bool.false_eq_true, if_false, bind, Except.bind]
    rfl
  | true =>
    have hlt := ht hP
    have hne : kva (frame ((s.mem d).word (4 * PDX va))) + 4 * PTX va ≠ 0 := by simp [kva, KERNBASE]
    rw [if_pos hP, P2V_frame hlt] at hwalk
    simp only [pte_pte_a_clear, Vm.pteUpdate, hwalk, bind, Except.bind, if_neg hne, load_kva hlt (show 4 * PTX va < PGSIZE by omega),
      if_true]
    rw [store_kva hlt (by omega), clearA]

theorem Lru.a_clear (h : Lru O M s) (hO : ∀ d, O d → Tabled s d) (hh : s.ext.page_lru_head ≠ none) :
    ∃ s', pte_pte_a_clear s (s.ext.pages 0).pgdir (s.ext.pages 0).vaddr = .ok s' ∧ s'.ext = s.ext ∧ Lru O M s' ∧ Wiped O M s s' := by
  obtain ⟨d, hd, hlt, ho⟩ := h.entry.resolve_left hh
  have hpd := pdx_lt_npdentries (s.ext.pages 0).vaddr
  have hp := ptx_lt (s.ext.pages 0).vaddr
  generalize hva : (s.ext.pages 0).vaddr = va at *
  have ht : has ((s.mem d).word (4 * PDX va)) PTE_P = true → frame ((s.mem d).word (4 * PDX va)) < NFRAMES :=
    fun hP => ho.elim (fun ho => hO d ho _ hpd hP) fun hf => (hf.2 hP).1
  rw [hd, a_clear_kva hlt ht]
  cases hP : has ((s.mem d).word (4 * PDX va)) PTE_P with
  | false => exact ⟨s, rfl, rfl, h, rfl, rfl, .inl rfl⟩
  | true =>
    refine ⟨_, rfl, rfl, ⟨h.shape, .inr ⟨d, hd, hlt, ho.imp id fun hf => ⟨hf.1, ?_⟩⟩⟩, rfl, rfl, .inr ⟨_, _, hp, rfl, ?_⟩⟩
    · have hw := clearA_P_frame s (t := frame ((s.mem d).word (4 * PDX va))) hp d (PDX va)
      simp only [if_true]
      rw [show ((clearA s (frame ((s.mem d).word (4 * PDX va))) (PTX va)).ext.pages 0).vaddr = va from hva, hw.1, hw.2]
      exact hf.2
    · exact ho.elim (fun ho => .inr ⟨d, _, ho, hpd, hP, rfl⟩) fun hf => .inl (hf.2 hP).2

theorem Lru.moved (h : Lru O M s) (hd : Option Nat) (hs : Shape (moved s hd).ext) (hh : s.ext.page_lru_head ≠ none) :
    Lru O M (moved s hd) :=
  ⟨hs, .inr (h.entry.resolve_left hh)⟩

theorem Lru.pick (h : Lru O M s) (hO : ∀ d, O d → Tabled s d) : Ends Any (fun r => Lru O M r.2 ∧ Wiped O M s r.2) (pick s) := by
  have hn : 2 * NPAGES + 1 = (2 * NPAGES).succ := rfl
  unfold Vm.pick
  split
  · exact ⟨h, rfl, rfl, .inl rfl⟩
  · rename_i p hp
    obtain rfl := h.shape.head_eq hp
    have hh : s.ext.page_lru_head ≠ none := by rw [hp]; nofun
    rw [hn, Vm.pickLoop]
    refine (Ends.any _).bind fun a _ => ?_
    cases a with
    | false => exact ⟨h, rfl, rfl, .inl rfl⟩
    | true =>
      obtain ⟨s1, hs1, he, hl1, hw⟩ := h.a_clear hO hh
      have hnext : nextHead s1 = .ok (Vm.moved s1 (s1.ext.pages 0).next) := by
        simp only [nextHead, show s1.ext.page_lru_head = some 0 by rw [he]; exact hp]
        rfl
      have hs2 : Shape (Vm.moved s1 (s1.ext.pages 0).next).ext := (Shape.nextHead hl1.shape).of_ok hnext
      have hl2 := hl1.moved _ hs2 (by rw [he]; exact hh)
      have hw2 : Wiped O M s (Vm.moved s1 (s1.ext.pages 0).next) := ⟨hw.freelist, hw.cr3, hw.mem⟩
      rw [if_pos rfl, hs1]
      simp only [bind, Except.bind, hnext]
      rcases h.shape.first with ⟨h1, h2, _⟩ | ⟨h1, h2, _⟩
      · rw [h2, if_pos rfl]
        exact ⟨hl2, hw2⟩
      · rw [h2, if_neg nofun]
        simp only [Vm.moved, he, h1]
        trivial

/-! ## The contract -/

def KallocStops (L : Type) (e : Stop) : Prop := ∃ s : Mem L, kallocMem s = .error e

theorem popFree_same {p : Nat} (hpop : popFree s = .ok (p, s')) : s'.mem = s.mem ∧ s'.ext = s.ext := by
  simp only [popFree, bind, Except.bind] at hpop
  split at hpop
  · cases hpop
  · cases hpop; exact ⟨rfl, rfl⟩

theorem kalloc_free {p : Nat} {E : Stop → Prop} {P : Swap L → Prop} (hP : P s.ext) (hne : s.freelist ≠ 0)
    (hpop : popFree s = .ok (p, s')) : Ends E (fun r => r.1 = p ∧ SameMem s' r.2 ∧ P r.2.ext) (kallocMem s) := by
  rw [kallocMem, if_pos hne, hpop]
  exact ⟨rfl, ⟨rfl, rfl, rfl⟩, (popFree_same hpop).2 ▸ hP⟩

theorem Lru.kalloc {p : Nat} (hj : Lru O M s) (hne : s.freelist ≠ 0) (hpop : popFree s = .ok (p, s')) :
    Ends (KallocStops L) (fun r => r.1 = p ∧ SameMem s' r.2 ∧ Lru O M r.2) (kallocMem s) := by
  obtain ⟨hm, he⟩ := popFree_same hpop
  rw [kallocMem, if_pos hne, hpop]
  exact ⟨rfl, ⟨rfl, rfl, rfl⟩, hj.stable (fun g _ => by rw [hm]) he⟩

theorem Lru.kalloc_empty (hj : Lru O M s) (hO : ∀ d, O d → Tabled s d) (hf : s.freelist = 0) :
    Ends (KallocStops L) (fun r => r.1 = 0 ∧ Lru O M r.2 ∧ Wiped O M s r.2) (kallocMem s) := by
  have hp := hj.pick hO
  cases hk : kallocMem s with
  | error e => exact ⟨s, hk⟩
  | ok r =>
    rw [kallocMem, if_neg (not_not_intro hf)] at hk
    obtain ⟨⟨victim, s1⟩, hc, hk⟩ := of_bind_ok hk
    cases victim with
    | none => cases hk; exact ⟨rfl, hp.of_ok hc⟩
    | some p => cases hk

theorem takes_kernel (hO : ∀ d', O d' → d' = d) :
    Takes Locked.hooks d M O (Lru (L := L) O M) (fun s s' => Lru O M s' ∧ Wiped O M s s') (KallocStops L) True (· = false) where
  own := hO
  stable _ _ hj hm _ he := hj.stable hm he
  kalloc _ _ _ hj hne hpop := hj.kalloc hne hpop
  empty _ _ hj hO hf := hj.kalloc_empty hO hf
  lru_insert s va u hj hu := by
    subst hu
    exact ⟨⟨rfl, rfl, rfl⟩, hj⟩

end Xv6.Vm
