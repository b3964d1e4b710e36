import Xv6.Vm.KvmTheorems
import Xv6.Vm.LruTheorems
import Xv6.Vm.Lemmas.Contract

/-! # `mappages` changes the entries of its range -/

namespace Xv6.Vm

open Xv6.Lib

attribute [local irreducible] V2P P2V NPDENTRIES

variable {L : Type} {K : Kernel} {s s' : Mem L} {d va size pa : Nat} {T : Nat → Option Nat} {fl : List Nat} {perm : BitVec 32}

theorem entryFor_spec {q : Nat} (hq : q % PGSIZE = 0) (hp : perm.toNat < PGSIZE) :
    PTE_ADDR (entryFor q perm) = q % 2 ^ 32 ∧ PTE_FLAGS (entryFor q perm) = perm ||| PTE_P := by
  have hlt : (perm ||| PTE_P).toNat < PGSIZE := by
    rw [BitVec.toNat_or]
    exact Nat.or_lt_two_pow (n := 12) hp (by decide)
  obtain ⟨f, hf⟩ : ∃ f, q % 2 ^ 32 = PGSIZE * f := by
    refine ⟨q % 2 ^ 32 / PGSIZE, ?_⟩
    simp only [PGSIZE] at hq ⊢
    omega
  have hw : BitVec.ofNat 32 q = .ofNat 32 (PGSIZE * f) := BitVec.eq_of_toNat_eq (by rw [← hf]; simp)
  have hfl : PTE_FLAGS (perm ||| PTE_P) = perm ||| PTE_P := by
    apply BitVec.eq_of_toNat_eq
    rw [PTE_FLAGS, BitVec.toNat_and]
    exact (Nat.and_two_pow_sub_one_eq_mod _ 12).trans (Nat.mod_eq_of_lt hlt)
  constructor
  · rw [pte_addr, entryFor, BitVec.or_assoc, hw, frame_or ?_ hlt, hf]
    simp only [PGSIZE] at hf
    omega
  · have h := PTE_FLAGS_entryFor f (w := perm ||| PTE_P) (by rw [has_PTE_P]; simp [PTE_P])
    rw [hfl, entryFor, BitVec.or_assoc, BitVec.or_assoc, BitVec.or_self] at h
    rwa [entryFor, hw, BitVec.or_assoc]

/-- A `mappages` that returns 0 has made the entries of its range and changed no other one. One that returns -1 has made those of a first
part of the range, and the accessed bit of another one may have been cleared. -/
theorem mappages_exact {ok : Bool} (hl : Layout K s d T fl) (hs : 0 < size) (hlt : va + size ≤ 2 ^ 32) (hpa : pa % PGSIZE = 0)
    (hn : ∀ x, PGROUNDDOWN va ≤ x → x < PGROUNDDOWN (va + size - 1) + PGSIZE → has (pteAt s (kva d) x) PTE_P = false)
    (hx : mappages Locked.hooks s (kva d) va size pa perm = .ok (ok, s')) :
    (ok = true → ∀ x, x < 2 ^ 32 → pteAt s' (kva d) x =
      if PGROUNDDOWN va ≤ x ∧ x < PGROUNDDOWN (va + size - 1) + PGSIZE then entryFor (pa + (PGROUNDDOWN x - PGROUNDDOWN va)) perm
      else pteAt s (kva d) x) ∧
    (ok = false → Lru (· = d) (fun g => g ∈ fl ∨ Owns d T g) s →
      ∃ b, PGROUNDDOWN va ≤ b ∧ b ≤ PGROUNDDOWN (va + size - 1) + PGSIZE ∧ ∀ x, x < 2 ^ 32 →
        Aged (if PGROUNDDOWN va ≤ x ∧ x < b then entryFor (pa + (PGROUNDDOWN x - PGROUNDDOWN va)) perm else pteAt s (kva d) x)
          (pteAt s' (kva d) x)) ∧
    (perm.toNat < PGSIZE → ∀ q, q % PGSIZE = 0 →
      PTE_ADDR (entryFor q perm) = q % 2 ^ 32 ∧ PTE_FLAGS (entryFor q perm) = perm ||| PTE_P) := by
  have hpte (x : Nat) : pteAt s (kva d) x = pte s T x := hl.toPagedir.pteAt x
  simp only [hpte] at hn ⊢
  refine ⟨?_, ?_, fun hp q hq => entryFor_spec hq hp⟩
  · rintro rfl x hlt'
    have h := ((pops_or_stops.takes d).mappages hl (fun _ _ => trivial) trivial (c := 0) (S := fun _ => true) (.inl fun _ => trivial)
      hs hlt (fun _ _ _ => rfl) hn hpa fun _ _ => trivial).of_ok hx
    obtain ⟨-, T', fl', hm⟩ := h.resolve_left fun h => nomatch h.1
    rw [hm.grows.layout.toPagedir.pteAt, hm.pte x hlt']
  · rintro rfl hj
    have h := ((takes_user hl.dir.lt).mappages hl (fun _ hg => hg) hj (c := 0) (S := fun _ => true) (.inl trivial) hs hlt
      (fun _ _ _ => rfl) hn hpa fun _ _ => trivial).of_ok hx
    obtain ⟨-, -, s1, T1, b, hb1, hb2, hm, hX⟩ := h.resolve_right fun h => nomatch h.1
    obtain ⟨-, hd, hage, -⟩ := ages_user K s1 s' T1 hX hm.grows.layout (hm.grows.within fun _ hg => hg)
    refine ⟨b, hb1, hb2, fun x hlt' => ?_⟩
    rw [(hm.grows.layout.toPagedir.congr hd).pteAt, ← hm.pte x hlt']
    exact hage x

/-! The process of `oneAccessed` has one page table. -/

def oneTable (k : Nat) : Option Nat := if k = 0 then some 1025 else none

theorem oneTable_some {k t : Nat} (h : oneTable k = some t) : k = 0 ∧ t = 1025 := by
  unfold oneTable at h
  split at h
  · cases h
    exact ⟨‹_›, rfl⟩
  · cases h

theorem layout_oneAccessed : Layout kernel oneAccessed 1024 oneTable [] where
  dir := usable_frame (by decide) (by decide)
  table i t h := by
    obtain ⟨rfl, rfl⟩ := oneTable_some h
    exact ⟨by unfold NPDENTRIES; decide, usable_frame (by decide) (by decide)⟩
  inj i j t hi hj := (oneTable_some hi).1.trans (oneTable_some hj).1.symm
  ne i h := nomatch (oneTable_some h).2
  absent i _ hi := by
    have h0 : i ≠ 0 := by rintro rfl; cases hi
    have hm : oneAccessed.mem 1024 = (Bytes.fill PGSIZE 0#8).setWord 0 (.ofNat 32 (PGSIZE * 1025 + 7)) := rfl
    rw [hm, Bytes.word_setWord_ne _ _ (by omega), Bytes.word_fill_zero]
    exact has_zero _
  present i t h := by
    obtain ⟨rfl, rfl⟩ := oneTable_some h
    decide
  free := ⟨rfl, nofun, List.nodup_nil⟩
  apart := nofun

theorem pte_oneAccessed {x : Nat} (hp : ¬ (PDX x = 0 ∧ PTX x = 1)) : pte oneAccessed oneTable x = 0#32 := by
  by_cases hx : PDX x = 0
  · have hm : oneAccessed.mem 1025 = (Bytes.fill PGSIZE 0#8).setWord 4 (.ofNat 32 (PGSIZE * 1026 + 0x27)) := rfl
    rw [pte_some (t := 1025) (by rw [hx]; rfl), hm, Bytes.word_setWord_ne _ _ (by omega), Bytes.word_fill_zero]
  · exact pte_none (if_neg hx)

theorem absent_oneAccessed {a x : Nat} (ha : PGSIZE * 2 ≤ a) (hb : a ≤ 0x10000000) (h1 : PGROUNDDOWN a ≤ x)
    (h2 : x < PGROUNDDOWN (a + PGSIZE - 1) + PGSIZE) : has (pteAt oneAccessed (kva 1024) x) PTE_P = false := by
  rw [layout_oneAccessed.toPagedir.pteAt, pte_oneAccessed, has_zero]
  simp only [PDX, PTX, PGROUNDDOWN, PGSIZE] at *
  omega

theorem mappages_exact_second_page :
    ∃ s', mappages Locked.hooks oneAccessed (kva 1024) 0x2000 PGSIZE 0x5000 PTE_W = .ok (true, s') ∧
      pteAt s' (kva 1024) 0x1000 = pteAt oneAccessed (kva 1024) 0x1000 := by
  obtain ⟨⟨ok, s'⟩, hx, hok⟩ := returns_of_eval (fun r : Bool × Mem Unit => r.1)
    (x := mappages Locked.hooks oneAccessed (kva 1024) 0x2000 PGSIZE 0x5000 PTE_W) (by decide +kernel)
  obtain rfl : ok = true := hok
  exact ⟨s', hx, (mappages_exact layout_oneAccessed (by decide) (by decide) (by decide)
    (fun x => absent_oneAccessed (by decide) (by decide)) hx).1 rfl 0x1000 (by decide)⟩

/-- The page table for the second range is missing, there is no free page, and the search for a victim clears the accessed
bit of the page at `0x1000`. -/
theorem mappages_ages : ∃ s', Lru (· = 1024) (fun g => g ∈ [] ∨ Owns 1024 oneTable g) oneAccessed ∧
    Layout kernel oneAccessed 1024 oneTable [] ∧
    (∀ x, PGROUNDDOWN 0x400000 ≤ x → x < PGROUNDDOWN (0x400000 + PGSIZE - 1) + PGSIZE →
      has (pteAt oneAccessed (kva 1024) x) PTE_P = false) ∧
    mappages Locked.hooks oneAccessed (kva 1024) 0x400000 PGSIZE 0x5000 PTE_W = .ok (false, s') ∧
    pteAt s' (kva 1024) 0x1000 ≠ pteAt oneAccessed (kva 1024) 0x1000 := by
  obtain ⟨⟨ok, s'⟩, hx, h⟩ := returns_of_eval
    (fun r : Bool × Mem Unit => r.1 = false ∧ pteAt r.2 (kva 1024) 0x1000 ≠ pteAt oneAccessed (kva 1024) 0x1000)
    (x := mappages Locked.hooks oneAccessed (kva 1024) 0x400000 PGSIZE 0x5000 PTE_W) (by decide +kernel)
  obtain ⟨rfl, hne⟩ := of_decide_eq_true h
  exact ⟨s', ⟨⟨fun i hi => by simp [oneAccessed, twoProcs, State.setPage, hi], .inl ⟨rfl, rfl, rfl⟩⟩,
    .inr ⟨1024, rfl, by decide, .inl rfl⟩⟩, layout_oneAccessed,
    fun x => absent_oneAccessed (by decide) (by decide), hx, hne⟩

end Xv6.Vm
