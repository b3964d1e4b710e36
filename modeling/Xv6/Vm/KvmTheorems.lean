import Xv6.Vm.CopyTheorems
import Xv6.Vm.Lemmas.Steady

/-! # Theorems about new address spaces -/

namespace Xv6.Vm

open Xv6.Lib List

attribute [local irreducible] V2P P2V NPDENTRIES

variable {L : Type} {K : Kernel} {s s' : Mem L} {d x va p : Nat} {T : Nat → Option Nat} {fl fl' : List Nat} {k : Kmap} {pa i dp : Nat}
  {fl1 : List Nat} {Tp : Nat → Option Nat} {sz : Nat}

/-! ## What `kalloc` stops with -/

theorem translate_ne_remap (s : Mem L) (a : Nat) : Ends (· ≠ .remap) (fun _ => True) (translate s a) := by
  unfold translate
  split
  · trivial
  · dsimp only
    split
    · split
      · trivial
      · exact nofun
    · exact nofun

theorem load_ne_remap (s : Mem L) (a : Nat) : Ends (· ≠ .remap) (fun _ => True) (load s a) :=
  (translate_ne_remap s a).bind fun _ _ => trivial

theorem walk_ne_remap (s : Mem L) (pgdir va : Nat) : Ends (· ≠ .remap) (fun _ => True) (walk s pgdir va) :=
  (load_ne_remap s _).bind fun _ _ => trivial

theorem pteUpdate_ne_remap (f : BitVec 32 → BitVec 32) (s : Mem L) (pgdir va : Nat) :
    Ends (· ≠ .remap) (fun _ => True) (pteUpdate f s pgdir va) := by
  refine (walk_ne_remap s pgdir va).bind fun pte _ => ?_
  split
  · trivial
  · exact (load_ne_remap s pte).bind fun w _ => (translate_ne_remap s pte).bind fun _ _ => trivial

theorem logical_and_ne_remap (s : Mem L) (pgdir va : Nat) (flag : BitVec 32) :
    Ends (· ≠ .remap) (fun _ => True) (pte_logical_and s pgdir va flag) := by
  refine (walk_ne_remap s pgdir va).bind fun pte _ => ?_
  split
  · trivial
  · exact (load_ne_remap s pte).bind fun _ _ => trivial

theorem pickLoop_ne_remap (tail : Option Nat) (k : Nat) (s : Mem L) (p : Nat) :
    Ends (· ≠ .remap) (fun _ => True) (pickLoop tail k s p) := by
  induction k generalizing s p with
  | zero => exact nofun
  | succ k ih =>
    refine (logical_and_ne_remap s _ _ _).bind fun a _ => ?_
    cases a with
    | false => trivial
    | true =>
      refine (pteUpdate_ne_remap _ s _ _).bind fun s1 _ => ?_
      refine Ends.bind (Q := fun _ => True) ?_ fun s2 _ => ?_
      · unfold nextHead
        split
        · exact nofun
        · trivial
      · split
        · trivial
        · split
          · exact nofun
          · exact ih _ _

theorem KallocStops.ne_remap {e : Stop} (h : KallocStops L e) : e ≠ .remap := by
  obtain ⟨s, hs⟩ := h
  refine Ends.of_error (E := (· ≠ .remap)) (Q := fun _ => True) ?_ hs
  unfold Locked.kallocMem
  split
  · exact (load_ne_remap s _).bind fun _ _ => trivial
  · refine Ends.bind (Q := fun _ => True) ?_ fun ⟨victim, s1⟩ _ => ?_
    · unfold pick
      split
      · trivial
      · exact pickLoop_ne_remap _ _ _ _
    · cases victim with
      | none => trivial
      | some p => exact nofun

/-! ## The entries of `kmap` -/

def kernelMap (va : Nat) : Option Nat :=
  if KERNBASE ≤ va ∧ va < KERNBASE + PHYSTOP then some (va - KERNBASE)
  else if DEVSPACE ≤ va then some va
  else none

def phys (s : Mem L) (pgdir va : Nat) : Option Nat :=
  if has (pteAt s pgdir va) PTE_P then some (PTE_ADDR (pteAt s pgdir va) + va % PGSIZE) else none

def kernelPerm (K : Kernel) (va : Nat) : BitVec 32 := if KERNLINK ≤ va ∧ va < K.data then 0 else PTE_W

theorem covers_eq {lo hi : Nat} (h1 : k.virt = lo) (h2 : k.virt + k.size = hi) :
    k.covers x = decide (lo ≤ x ∧ x < hi) := by rw [Kmap.covers, h2, h1]

theorem Kmap.pte_eq (hv : k.virt % PGSIZE = 0) (hp : k.phys_start % PGSIZE = 0) (hx : k.virt ≤ x)
    (hpa : k.phys_start + (x - k.virt) = pa) : k.pte x = entryFor (PGROUNDDOWN pa) k.perm := by
  have h : k.phys_start + (PGROUNDDOWN x - k.virt) = PGROUNDDOWN pa := by
    simp only [PGROUNDDOWN, PGSIZE] at *
    omega
  rw [Kmap.pte, h]

theorem kernelPte_kmap (K : Kernel) (hx : x < 2 ^ 32) :
    kernelPte (kmap K) x = (kernelMap x).map fun pa => entryFor (PGROUNDDOWN pa) (kernelPerm K x) := by
  have h1 := K.data_ge
  have h2 := K.data_page
  have h3 := K.data_lt
  have hlink : KERNBASE < KERNLINK := by decide
  have hdev : KERNBASE + PHYSTOP ≤ DEVSPACE := by decide
  have hlinkpage : KERNLINK % PGSIZE = 0 := by decide
  simp only [kernelPte, kmap, V2P_data, V2P_kernlink, kernelMap, kernelPerm]
  generalize K.data = data at *
  have c1 : Kmap.covers ⟨KERNBASE, 0, EXTMEM, PTE_W⟩ x = decide (KERNBASE ≤ x ∧ x < KERNLINK) := covers_eq rfl (by decide)
  have c2 : Kmap.covers ⟨KERNLINK, EXTMEM, data - KERNBASE, 0⟩ x = decide (KERNLINK ≤ x ∧ x < data) := by
    refine covers_eq rfl ?_
    simp only [Kmap.size, KERNLINK, KERNBASE, EXTMEM, PHYSTOP] at *
    omega
  have c3 : Kmap.covers ⟨data, data - KERNBASE, PHYSTOP, PTE_W⟩ x = decide (data ≤ x ∧ x < KERNBASE + PHYSTOP) := by
    refine covers_eq rfl ?_
    simp only [Kmap.size, KERNLINK, KERNBASE, EXTMEM, PHYSTOP] at *
    omega
  have c4 : Kmap.covers ⟨DEVSPACE, DEVSPACE, 0, PTE_W⟩ x = decide (DEVSPACE ≤ x) := by
    rw [covers_eq rfl (show DEVSPACE + _ = 2 ^ 32 by decide)]
    simp only [hx, and_true]
  simp only [find?_cons, find?_nil, c1, c2, c3, c4]
  rcases lt_or_ge x KERNBASE with hr | hr
  · simp [show ¬ KERNBASE ≤ x by omega, show ¬ KERNLINK ≤ x by omega, show ¬ data ≤ x by omega, show ¬ DEVSPACE ≤ x by omega]
  rcases lt_or_ge x KERNLINK with hr2 | hr2
  · have he : Kmap.pte ⟨KERNBASE, 0, EXTMEM, PTE_W⟩ x = entryFor (PGROUNDDOWN (x - KERNBASE)) PTE_W :=
      Kmap.pte_eq (by decide) (by decide) hr (zero_add _)
    simp [hr, hr2, show x < KERNBASE + PHYSTOP by omega, show ¬ KERNLINK ≤ x by omega, he]
  rcases lt_or_ge x data with hr3 | hr3
  · have he : Kmap.pte ⟨KERNLINK, EXTMEM, data - KERNBASE, 0#32⟩ x = entryFor (PGROUNDDOWN (x - KERNBASE)) 0#32 := by
      refine Kmap.pte_eq hlinkpage (show EXTMEM % PGSIZE = 0 by decide) hr2 ?_
      simp only [KERNLINK] at hr2 ⊢
      omega
    simp [hr, hr2, hr3, show ¬ x < KERNLINK by omega, show x < KERNBASE + PHYSTOP by omega, he]
  rcases lt_or_ge x (KERNBASE + PHYSTOP) with hr4 | hr4
  · have he : Kmap.pte ⟨data, data - KERNBASE, PHYSTOP, PTE_W⟩ x = entryFor (PGROUNDDOWN (x - KERNBASE)) PTE_W := by
      refine Kmap.pte_eq h2 ?_ hr3 ?_
      · simp only [KERNBASE, PGSIZE] at *
        omega
      · dsimp only
        omega
    simp [hr, hr3, hr4, show ¬ x < KERNLINK by omega, show ¬ x < data by omega, he]
  rcases lt_or_ge x DEVSPACE with hr5 | hr5
  · simp [show ¬ x < KERNLINK by omega, show ¬ x < data by omega, show ¬ x < KERNBASE + PHYSTOP by omega,
      show ¬ DEVSPACE ≤ x by omega]
  · have he : Kmap.pte ⟨DEVSPACE, DEVSPACE, 0, PTE_W⟩ x = entryFor (PGROUNDDOWN x) PTE_W := by
      refine Kmap.pte_eq (by decide) (by decide) hr5 ?_
      dsimp only
      omega
    simp [hr5, show ¬ x < KERNLINK by omega, show ¬ x < data by omega, show ¬ x < KERNBASE + PHYSTOP by omega, he]

theorem kernelPerm_bits (K : Kernel) (x : Nat) : (kernelPerm K x).toNat < 4 ∧ (kernelPerm K x).getLsbD 2 = false := by
  unfold kernelPerm
  split <;> decide

theorem has_PTE_W (w : BitVec 32) : has w PTE_W = w.getLsbD 1 := has_twoPow w (i := 1) (by decide)

theorem entryFor_kernel (K : Kernel) (x : Nat) (hpa : pa < 2 ^ 32) :
    has (entryFor (PGROUNDDOWN pa) (kernelPerm K x)) PTE_P = true ∧
      PTE_ADDR (entryFor (PGROUNDDOWN pa) (kernelPerm K x)) = PGROUNDDOWN pa ∧
      has (entryFor (PGROUNDDOWN pa) (kernelPerm K x)) PTE_W = has (kernelPerm K x) PTE_W := by
  have hq : PGROUNDDOWN pa = PGSIZE * (pa / PGSIZE) := mul_comm _ _
  have hbit : PGROUNDDOWN pa / 2 ^ 1 % 2 = 0 := by
    simp only [PGROUNDDOWN, PGSIZE]
    omega
  have hP : PTE_P.getLsbD 1 = false := by decide
  refine ⟨has_PTE_P_or _ _, ?_, ?_⟩
  · have hflags : (kernelPerm K x ||| PTE_P).toNat < PGSIZE := by
      unfold kernelPerm
      split <;> decide
    rw [pte_addr, entryFor, BitVec.or_assoc, hq, frame_or _ hflags]
    simp only [PGSIZE]
    omega
  · rw [has_PTE_W, has_PTE_W, entryFor, BitVec.getLsbD_or, BitVec.getLsbD_or, hP, BitVec.getLsbD_ofNat,
      Nat.testBit_eq_decide_div_mod_eq, hbit]
    simp

theorem kernelMap_offset (hva : va < 2 ^ 32) (h : kernelMap va = some pa) : pa < 2 ^ 32 ∧ pa % PGSIZE = va % PGSIZE := by
  unfold kernelMap at h
  split at h
  · rename_i hr
    have h1 := hr.1
    have h2 := Option.some.inj h
    simp only [KERNBASE, PGSIZE] at h1 h2 ⊢
    omega
  · split at h
    · cases h
      exact ⟨hva, rfl⟩
    · cases h

theorem Pagedir.kernel (hd : Pagedir K s d T) (hva : va < 2 ^ 32) (hk : pte s T va = (kernelPte (kmap K) va).getD 0#32) :
    phys s (kva d) va = kernelMap va ∧
      ((kernelMap va).isSome → has (Vm.pteAt s (kva d) va) PTE_W = decide ¬ (KERNLINK ≤ va ∧ va < K.data)) ∧
      has (Vm.pteAt s (kva d) va) PTE_U = false := by
  have hpte : Vm.pteAt s (kva d) va = (kernelPte (kmap K) va).getD 0#32 := (hd.pteAt va).trans hk
  rw [phys, hpte, kernelPte_kmap K hva]
  cases hm : kernelMap va with
  | none => exact ⟨by simp [has_zero], nofun, has_zero _⟩
  | some pa =>
    obtain ⟨hpa, hoff⟩ := kernelMap_offset hva hm
    obtain ⟨hP, hA, hW⟩ := entryFor_kernel K va hpa
    have hdown : PGROUNDDOWN pa + va % PGSIZE = pa := by
      rw [← hoff, PGROUNDDOWN]
      exact Nat.div_add_mod' pa PGSIZE
    have hmod : PGROUNDDOWN pa % PGSIZE = 0 := Nat.mul_mod_left _ _
    simp only [Option.map_some, Option.getD_some, hP, if_true, hA, hdown, hW]
    refine ⟨trivial, fun _ => ?_, has_PTE_U_entryFor hmod (kernelPerm_bits K va).2⟩
    unfold kernelPerm
    split
    · rename_i h
      simp only [h, and_self, not_true_eq_false, decide_false]
      decide
    · rename_i h
      simp only [h, not_false_eq_true, decide_true]
      decide

/-! ## Failure -/

theorem vacant_add_tables (T : Nat → Option Nat) (n : Nat) :
    ((Finset.range n).filter fun i => T i = none).card + ((range n).filterMap T).length = n := by
  induction n with
  | zero => rfl
  | succ n ih =>
    rw [range_succ, filterMap_append, length_append, Finset.range_add_one, Finset.filter_insert]
    cases ht : T n with
    | none =>
      rw [if_pos rfl, Finset.card_insert_of_notMem (by simp)]
      simp [ht]
      omega
    | some t =>
      rw [if_neg nofun]
      simp [ht]
      omega

theorem Fresh.perm (hr : Fresh K s (d :: fl1) s' d T [])
    (hc : fl1.length + vacant T = NPDENTRIES) (hn : fl'.Nodup) (hm : ∀ g, g ∈ fl' ↔ Owns d T g) : fl'.Perm (d :: fl1) := by
  have htab : ∀ g, g ∈ (range NPDENTRIES).filterMap T ↔ ∃ i, T i = some g := fun g => by
    rw [mem_filterMap]
    exact ⟨fun ⟨i, _, hi⟩ => ⟨i, hi⟩, fun ⟨i, hi⟩ => ⟨i, mem_range.mpr (hr.layout.table i g hi).1, hi⟩⟩
  have hnd : (d :: (range NPDENTRIES).filterMap T).Nodup := by
    refine nodup_cons.mpr ⟨fun hd => ?_, nodup_range.filterMap fun i j t hi hj => hr.layout.inj i j t hi hj⟩
    obtain ⟨i, hi⟩ := (htab d).mp hd
    exact hr.layout.ne i hi
  have hperm : fl'.Perm (d :: (range NPDENTRIES).filterMap T) :=
    (perm_ext_iff_of_nodup hn hnd).mpr fun g => by rw [hm g, Owns, mem_cons, htab g]
  have hlen : fl'.length = (d :: fl1).length := by
    have hcount := vacant_add_tables T NPDENTRIES
    rw [hperm.length_eq, length_cons, length_cons]
    rw [vacant] at hc
    omega
  exact (hn.subperm fun g hg => hr.owns g ((hm g).mp hg)).perm_of_length_le hlen.ge

theorem Wiped.mem_eq {O M : Nat → Prop} (hw : Wiped O M s s') (hO : ∀ d, ¬ O d) {g : Nat} (hg : M g) : s'.mem g = s.mem g := by
  rcases hw.mem with h | ⟨t, i, _, h, ht | ⟨d, _, hd, _⟩⟩
  · rw [h]
  · rw [h, clearA, mem_setPage_ne]
    rintro rfl
    exact ht hg
  · exact (hO d hd).elim

theorem users_none {N : Nat → Prop} (hn : ∀ x, x < KERNBASE → has (pte s T x) PTE_P = false) : Users K N s d T fl 0 KERNBASE :=
  ⟨fun x _ _ hx hp => absurd hp (by rw [hn x hx]; rintro ⟨⟩), fun x _ _ _ _ hx _ _ hp => absurd hp (by rw [hn x hx]; rintro ⟨⟩)⟩

theorem Fresh.freevm {s1 : Mem L} (hr : Fresh K s (d :: fl1) s1 d T [])
    (hc : fl1.length + vacant T = NPDENTRIES) (hz : ∀ x, x < KERNBASE → pte s1 T x = 0#32)
    (hj : Lru (fun _ => False) (· ∈ d :: fl1) s') (hw : Wiped (fun _ => False) (· ∈ d :: fl1) s1 s') :
    Ends (KallocStops L) (fun s'' => ∃ fl', fl'.Perm (d :: fl1) ∧ Free K s'' fl') (freevm K Locked.hooks s' (kva d)) := by
  have hmem : ∀ g, Owns d T g → s'.mem g = s1.mem g := fun g hg => hw.mem_eq (fun _ => id) (hr.owns g hg)
  have hl : Layout K s' d T [] :=
    ⟨hr.layout.toPagedir.congr (hmem d (.inl rfl)), hr.layout.free.congr (by simp) hw.freelist, by simp⟩
  have hnone : ∀ x, x < KERNBASE → has (pte s' T x) PTE_P = false := fun x hx => by
    rw [pte_congr hmem, hz x hx]
    exact has_zero _
  have hd : Drops (Locked.hooks (L := L)) (· ∈ d :: fl1) (fun _ => False) (Lru (fun _ => False) (· ∈ d :: fl1)) (KallocStops L) :=
    ⟨fun _ => False.elim, fun _ _ hj hm _ he => hj.stable hm he, fun _ _ _ _ => False.elim⟩
  have hM : Within (· ∈ d :: fl1) d T [] := fun g hg => hr.owns g (hg.resolve_left not_mem_nil)
  refine (hd.freevm hl hM hj (users_none hnone)).imp ?_
  rintro s'' ⟨fl', hfree, hmem', _⟩
  refine ⟨fl', hr.perm hc hfree.nodup fun g => ?_, hfree⟩
  rw [hmem' g]
  refine ⟨fun h => ?_, fun h => .inr (.inr h)⟩
  rcases h with h | ⟨x, _, _, hx, hp, _⟩ | h
  · cases h
  · rw [hnone x hx] at hp
    cases hp
  · exact h

/-! ## `setupkvm` -/

def kernelEntries : List Nat := (range 56).map (512 + ·) ++ (range 8).map (1016 + ·)

theorem kernelMap_entry (hi : i ∈ kernelEntries) : i < 1024 ∧ (kernelMap (2 ^ 22 * i)).isSome = true := by
  revert i
  decide

theorem Fresh.length_le (hr : Fresh K s fl s' d T fl')
    (hk : ∀ x, x < 2 ^ 32 → pte s' T x = (kernelPte (kmap K) x).getD 0#32) : 65 ≤ fl.length := by
  have hsome : ∀ i ∈ kernelEntries, (T i).isSome = true := fun i hi => by
    obtain ⟨hlt, hm⟩ := kernelMap_entry hi
    obtain ⟨pa, hpa⟩ := Option.isSome_iff_exists.mp hm
    have hx : 2 ^ 22 * i < 2 ^ 32 := by omega
    have hpdx : PDX (2 ^ 22 * i) = i := by simp only [PDX]; omega
    cases ht : T i with
    | some t => rfl
    | none =>
      have hP := (entryFor_kernel K (2 ^ 22 * i) (kernelMap_offset hx hpa).1).1
      have hpte := hk _ hx
      rw [pte_none (by rw [hpdx]; exact ht), kernelPte_kmap K hx, hpa] at hpte
      rw [← show 0#32 = entryFor (PGROUNDDOWN pa) (kernelPerm K (2 ^ 22 * i)) from hpte, has_zero] at hP
      cases hP
  have hnd : (d :: kernelEntries.filterMap T).Nodup := by
    refine nodup_cons.mpr ⟨fun hd => ?_, ?_⟩
    · obtain ⟨i, _, hi⟩ := mem_filterMap.mp hd
      exact hr.layout.ne i hi
    · exact (show kernelEntries.Nodup by decide).filterMap fun i j t hi hj => hr.layout.inj i j t hi hj
  have hsub : d :: kernelEntries.filterMap T ⊆ fl := by
    intro g hg
    rcases mem_cons.mp hg with rfl | hg
    · exact hr.owns g (.inl rfl)
    · obtain ⟨i, _, hi⟩ := mem_filterMap.mp hg
      exact hr.owns g (.inr ⟨i, hi⟩)
  have hlen := (hnd.subperm hsub).length_le
  rw [length_cons, filterMap_length_eq_length.mpr hsome] at hlen
  exact hlen

theorem ends_setupkvm (hf : Free K s fl) (hl : Lru (fun _ => False) (· ∈ fl) s) :
    Ends (KallocStops L) (fun r => (r.1 = 0 ∧ True ∧ ∃ fl', fl'.Perm fl ∧ Free K r.2 fl') ∨
      ∃ d T fl', r.1 = kva d ∧ Fresh K s fl r.2 d T fl' ∧ Lru (fun _ => False) (· ∈ fl) r.2 ∧ Room True (fun _ => true) T fl' 0 ∧
        (∀ x, x < 2 ^ 32 → pte r.2 T x = (kernelPte (kmap K) x).getD 0#32) ∧
        ∀ i, (∀ k ∈ kmap K, ∀ x, k.covers x → PDX x ≠ i) → T i = none) (setupkvm K Locked.hooks s) :=
  Takes.setupkvm (c := 0) (Q := fun s' => ∃ fl', fl'.Perm fl ∧ Free K s' fl')
    (fun d => takes_kernel (d := d) (M := (· ∈ fl)) fun _ => False.elim) hf (fun _ => id) hl (fun _ => id) rfl (fun _ _ _ _ => rfl)
    (.inl trivial)
    (fun _ hfl s' hx => ⟨fl, .refl fl, hf.congr (by rw [hfl]; nofun) hx.2.freelist⟩)
    fun _ d fl1 s1 T1 s' hfl hr hc hz hx => by
      subst hfl
      exact hr.freevm hc (fun x hx => hz x (hx.trans (by decide)) fun k hk => decide_eq_false (by have := kmap_ge hk; omega)) hx.1 hx.2

/-- `setupkvm` makes exactly the kernel's map, or it returns 0 and leaves all frames on the free list; with fewer than 65 free frames a
`kalloc` fails. It stops only if `kalloc` itself does. -/
theorem setupkvm_maps (hf : Free K s fl) (hl : Lru (fun _ => False) (· ∈ fl) s) :
    (∀ e, setupkvm K Locked.hooks s = .error e → e ≠ .remap ∧ KallocStops L e) ∧
    ∀ p s', setupkvm K Locked.hooks s = .ok (p, s') →
      (p ≠ 0 → ∀ va, va < 2 ^ 32 → phys s' p va = kernelMap va ∧
        ((kernelMap va).isSome → has (pteAt s' p va) PTE_W = decide ¬ (KERNLINK ≤ va ∧ va < K.data)) ∧
        has (pteAt s' p va) PTE_U = false) ∧
      (fl.length < 65 → p = 0) ∧ (p = 0 → ∃ fl', fl'.Perm fl ∧ Free K s' fl') := by
  have h := ends_setupkvm hf hl
  refine ⟨fun e he => ?_, fun p s' hp => ?_⟩
  · have := h.of_error he
    exact ⟨this.ne_remap, this⟩
  · rcases h.of_ok hp with ⟨rfl, _, hQ⟩ | ⟨d, T, fl', hpd, hr, _, _, hk, _⟩
    · exact ⟨fun h0 => absurd rfl h0, fun _ => rfl, fun _ => hQ⟩
    · obtain rfl : p = kva d := hpd
      refine ⟨fun _ va hva => hr.layout.toPagedir.kernel hva (hk va hva), fun hlt => ?_, fun h0 => absurd h0 kva_ne_zero⟩
      exact absurd (hr.length_le hk) (by omega)

theorem pops_locked : Pops (Locked.hooks (L := L)) Ready fun _ => False where
  kalloc _ _ _ hi hne hpop := kalloc_free hi hne hpop
  empty hE := (hE .null).elim
  lru_insert _ pgdir va u hi := hi.lru_insert pgdir va u

theorem lru_onePage (w : BitVec 32) (O M : Nat → Prop) : Lru O M (onePage w) :=
  ⟨⟨fun _ _ => rfl, .inr ⟨rfl, rfl, .inl rfl⟩⟩, .inl rfl⟩

theorem setupkvm_returns (hf : Free K s fl) (hi : Ready s.ext) (hb : 65 ≤ fl.length) :
    ∃ d T s' fl', setupkvm K Locked.hooks s = .ok (kva d, s') ∧ Fresh K s fl s' d T fl' ∧
      (∀ x, x < 2 ^ 32 → pte s' T x = (kernelPte (kmap K) x).getD 0#32) ∧
      ∀ i, (∀ k ∈ kmap K, ∀ x, k.covers x → PDX x ≠ i) → T i = none := by
  have hroom := lacking_needed 0
  obtain ⟨⟨p, s'⟩, hx, hr⟩ := ((pops_locked (L := L)).setupkvm (c := 0) hf hi (fun k hk x hx => needed_kernel (n := 0) hk hx)
    (.inr (by omega))).returns fun _ => False.elim
  obtain ⟨d, T, fl', hp, hfr, -, -, hk, ht⟩ := hr.resolve_left fun h => h.2 .null
  obtain rfl : p = kva d := hp
  exact ⟨d, T, s', fl', hx, hfr, hk, ht⟩

theorem frames_onePage : 65 ≤ (framesBelow 57000).length := by
  rw [length_framesBelow]
  decide

theorem setupkvm_maps_at_boot : ∃ p s', setupkvm kernel Locked.hooks (onePage 0) = .ok (p, s') ∧ p ≠ 0 ∧
    phys s' p (KERNBASE + 0x1234) = some 0x1234 := by
  obtain ⟨d, T, s', fl', hx, -⟩ := setupkvm_returns (free_onePage 0#32) (.inl rfl) frames_onePage
  exact ⟨kva d, s', hx, kva_ne_zero, (((setupkvm_maps (free_onePage 0) (lru_onePage 0 _ _)).2 _ s' hx).1 kva_ne_zero _ (by decide)).1⟩

/-! ## `copyuvm` -/

theorem PTE_FLAGS_entryFor (f : Nat) {w : BitVec 32} (hw : has w PTE_P = true) :
    PTE_FLAGS (entryFor (PGSIZE * f) (PTE_FLAGS w)) = PTE_FLAGS w := by
  rw [has_PTE_P] at hw
  apply BitVec.eq_of_getLsbD_eq
  intro i hi
  have hP : PTE_P.getLsbD i = decide (i = 0) := by simp [PTE_P]
  have hf : i < 12 → (BitVec.ofNat 32 (PGSIZE * f)).getLsbD i = false := fun h12 => by
    rw [BitVec.getLsbD_ofNat, show PGSIZE = 2 ^ 12 from rfl, Nat.testBit_two_pow_mul]
    simp [show ¬ 12 ≤ i by omega]
  simp only [PTE_FLAGS, entryFor, BitVec.getLsbD_and, BitVec.getLsbD_or, getLsbD_mask hi, hP]
  by_cases h12 : i < 12
  · rw [hf h12]
    by_cases h0 : i = 0
    · subst h0
      simp [hw]
    · simp [h0, h12]
  · simp [h12]

theorem Copy.page {T : Nat → Option Nat} {cs : List Nat} (hc : Copy K s Tp fl s' d T fl' cs)
    (hp : Parent K s dp Tp fl cs.length) (hf : Free K s fl) (ha : AllPresent s Tp 0 cs.length) (hi : i / PGSIZE < cs.length) :
    frame (Vm.pte s' T i) ∈ cs ∧ cs[i / PGSIZE]? = some (frame (Vm.pte s' T i)) ∧
      PTE_FLAGS (Vm.pte s' T i) = PTE_FLAGS (Vm.pte s Tp i) ∧ s'.mem (frame (Vm.pte s' T i)) = s.mem (frame (Vm.pte s Tp i)) := by
  have hlt : i < 2 ^ 32 := by
    have := hp.bound
    simp only [PGSIZE, KERNBASE] at this hi
    omega
  have hget : cs[i / PGSIZE]? = some cs[i / PGSIZE] := getElem?_eq_getElem hi
  have hmem := getElem_mem hi
  have hu : Usable K cs[i / PGSIZE] := hf.usable _ (hc.frames _ hmem).1
  have hpte := hc.pte i hlt
  simp only [hget] at hpte
  rw [← pte_page] at hpte
  have hF := (frame_entryFor hu.lt (Vm.pte s Tp i)).2
  rw [hpte, hF]
  refine ⟨hmem, hget, PTE_FLAGS_entryFor _ (ha.at hi), ?_⟩
  rw [hc.copied _ _ hget, ← pte_page]

theorem sameMem_lru_insert (s : Mem L) (pgdir va : Nat) (u : Bool) : Ends Any (SameMem s) (lru_insert s pgdir va u) := by
  unfold lru_insert
  split
  · dsimp only
    split
    · exact ⟨rfl, rfl, rfl⟩
    · exact (Ends.any _).bind fun _ _ => ⟨rfl, rfl, rfl⟩
  · exact ⟨rfl, rfl, rfl⟩

theorem pops_or_stops : Pops (Locked.hooks (L := L)) (fun _ => True) Any where
  kalloc _ _ _ hi hne hpop := kalloc_free (P := fun _ => True) hi hne hpop
  empty _ s hf := by
    simp only [Locked.hooks, Locked.kallocMem, hf, ne_eq, not_true_eq_false, if_false]
    refine (Ends.any _).bind ?_
    rintro ⟨victim, s1⟩ _
    cases victim with
    | none => rfl
    | some p => trivial
  lru_insert s pgdir va u _ := (sameMem_lru_insert s pgdir va u).imp fun _ hs => ⟨hs, trivial⟩

/-- `copyuvm` copies every page below `sz`, flags and bytes, to a frame of its own; there is no other user page, the
kernel's map is complete, and the parent's page table is as before. -/
theorem copyuvm_faithful {Tp : Nat → Option Nat} {dp sz : Nat} (hp : Parent K s dp Tp fl ((sz + PGSIZE - 1) / PGSIZE))
    (hf : Free K s fl) (hx : copyuvm K Locked.hooks s (kva dp) sz = .ok (p, s')) (hne : p ≠ 0) :
    (∀ i, i % PGSIZE = 0 → i < sz →
      PTE_FLAGS (pteAt s' p i) = PTE_FLAGS (pteAt s (kva dp) i) ∧
      s'.mem (frame (pteAt s' p i)) = s.mem (frame (pteAt s (kva dp) i)) ∧
      (¬ Owns dp Tp (frame (pteAt s' p i)) ∧ ∀ j, j < sz → frame (pteAt s' p i) ≠ frame (pteAt s (kva dp) j)) ∧
      ∀ j, j % PGSIZE = 0 → j < sz → j ≠ i → frame (pteAt s' p i) ≠ frame (pteAt s' p j)) ∧
    (∀ va, sz ≤ PGROUNDDOWN va → va < KERNBASE → has (pteAt s' p va) PTE_P = false) ∧
    (∀ va, KERNBASE ≤ va → va < 2 ^ 32 → phys s' p va = kernelMap va ∧
      ((kernelMap va).isSome → has (pteAt s' p va) PTE_W = decide ¬ (KERNLINK ≤ va ∧ va < K.data)) ∧
      has (pteAt s' p va) PTE_U = false) ∧
    ∀ g, Owns dp Tp g → s'.mem g = s.mem g := by
  have hends := pops_or_stops.copyuvm hp hf trivial (.inl fun _ => trivial)
  rw [hx] at hends
  obtain ⟨ha, d, T, fl', cs, hpd, hlen, hc⟩ := hends.resolve_left fun h => hne h.1
  obtain rfl : p = kva d := hpd
  have hbound := hp.bound
  have hpage (i : Nat) (hi : i < sz) : i / PGSIZE < (sz + PGSIZE - 1) / PGSIZE := by
    simp only [PGSIZE]
    omega
  rw [← hlen] at hp ha hbound hpage
  have hd := hc.fresh.layout.toPagedir
  simp only [hd.pteAt, hp.dir.pteAt]
  refine ⟨fun i hi hlt => ?_, fun va h1 h2 => ?_, fun va h1 h2 => ?_, fun g hg => hc.fresh.mem g (hp.tables g hg)⟩
  · obtain ⟨hm, hget, hflags, hbytes⟩ := hc.page hp hf ha (hpage i hlt)
    have hfl := (hc.frames _ hm).1
    refine ⟨hflags, hbytes, ⟨fun ho => hp.tables _ ho hfl, fun j hj he => ?_⟩, fun j hj hlt' hji he => ?_⟩
    · have := hp.page _ (hpage j hj) (ha _ (Nat.zero_le _) (hpage j hj))
      rw [← pte_page] at this
      exact this.2 (he ▸ hfl)
    · have hget' := (hc.page hp hf ha (hpage j hlt')).2.1
      rw [← he] at hget'
      have := (getElem?_inj (hpage i hlt) hc.nodup).mp (hget.trans hget'.symm)
      simp only [PGSIZE] at hi hj this
      omega
  · have hout : cs.length ≤ va / PGSIZE := by
      rw [hlen]
      simp only [PGROUNDDOWN, PGSIZE] at h1 ⊢
      omega
    rw [hc.pte va (h2.trans (by decide)), getElem?_eq_none hout, kernelPte_user h2]
    exact has_zero _
  · have hout : cs.length ≤ va / PGSIZE := by
      simp only [PGSIZE] at hbound ⊢
      omega
    have hk := hc.pte va h2
    rw [getElem?_eq_none hout] at hk
    have := hd.kernel h2 hk
    rwa [hd.pteAt] at this

/-- With frames for the page directory, the 64 page tables of the kernel, the pages and their page tables. -/
theorem copyuvm_returns_iff (sz : Nat) (hp : Parent K s dp Tp fl ((sz + PGSIZE - 1) / PGSIZE)) (hf : Free K s fl) (hi : Ready s.ext)
    (hb : 65 + ((sz + PGSIZE - 1) / PGSIZE + 1023) / 1024 + (sz + PGSIZE - 1) / PGSIZE ≤ fl.length) :
    ((∃ r, copyuvm K Locked.hooks s (kva dp) sz = .ok r) ↔ AllPresent s Tp 0 ((sz + PGSIZE - 1) / PGSIZE)) ∧
      ∀ r, copyuvm K Locked.hooks s (kva dp) sz = .ok r → r.1 ≠ 0 := by
  have hends := pops_locked.copyuvm hp hf hi (.inr hb)
  have hok (r) (hx : copyuvm K Locked.hooks s (kva dp) sz = .ok r) := (hends.of_ok hx).resolve_left fun h => h.2 .null
  refine ⟨⟨?_, fun ha => ?_⟩, fun r hx => ?_⟩
  · rintro ⟨r, hx⟩
    exact (hok r hx).1
  · obtain ⟨r, hx, -⟩ := hends.returns fun e he _ => (he.resolve_left id).2 ha
    exact ⟨r, hx⟩
  · obtain ⟨-, d, _, _, _, hd, _⟩ := hok r hx
    rw [hd]
    exact kva_ne_zero

theorem copyuvm_faithful_one_page : ∃ p s',
    copyuvm kernel Locked.hooks (onePage (.ofNat 32 (PGSIZE * 57277 + 7))) (kva 57343) PGSIZE = .ok (p, s') ∧ p ≠ 0 ∧
      s'.mem (frame (pteAt s' p 0)) = Bytes.fill PGSIZE 0x5A#8 := by
  let w : BitVec 32 := .ofNat 32 (PGSIZE * 57277 + 7)
  have hw : frame w = 57277 := frame_ofNat (by decide) (by decide)
  have hP : has w PTE_P = true := has_PTE_P_seven _
  have hpar : Parent kernel (onePage w) 57343 onePageTables (framesBelow 57000) ((PGSIZE + PGSIZE - 1) / PGSIZE) :=
    parent_onePage fun _ => hw
  obtain ⟨hiff, hne⟩ := copyuvm_returns_iff PGSIZE hpar (free_onePage w) (.inl rfl) room_onePage
  obtain ⟨⟨p, s'⟩, hx⟩ := hiff.mpr ((allPresent_onePage w).mpr hP)
  have hp := hne _ hx
  refine ⟨p, s', hx, hp, ?_⟩
  rw [((copyuvm_faithful hpar (free_onePage w) hx hp).1 0 rfl (by decide)).2.1, (pagedir_onePage w).pteAt, pte_onePage, hw]
  rfl

/-! ## `copyuvm` of a process with swapped pages

`copyuvm` panics at the first page that is not in memory. -/

theorem drops_empty : Drops Locked.hooks (fun _ => True) (fun _ => True) (fun s : Mem L => s.ext.page_lru_head = none) fun _ => False where
  sub _ := id
  stable _ _ h _ _ he := he ▸ h
  lru_delete s pgdir f h _ := by
    simp only [Locked.hooks, lru_delete, h]
    exact ⟨⟨rfl, rfl, rfl⟩, h⟩

/-- The child reads the parent's bytes, and so does the parent. -/
def Forked (s : Mem L) (dp sz : Nat) (r : Nat × Mem L) : Prop :=
  ∀ va, va < sz → (userByte s (kva dp) va).isSome ∧ userByte r.2 r.1 va = userByte s (kva dp) va ∧
    userByte r.2 (kva dp) va = userByte s (kva dp) va

end Xv6.Vm
