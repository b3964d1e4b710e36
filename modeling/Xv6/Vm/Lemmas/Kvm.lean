import Xv6.Vm.Lemmas.Tables

/-! # The kernel part of an address space -/

namespace Xv6.Vm

open Xv6.Lib List Option

attribute [local irreducible] V2P P2V

variable {σ : Type} {K : Kernel} {h : Hooks σ} {I : σ → Prop} {E : Stop → Prop} {M O : Nat → Prop} {J : State σ → Prop}
  {X : State σ → State σ → Prop} {F : Prop} {U : Bool → Prop}
variable {s s' s1 : State σ} {d x : Nat} {T T' : Nat → Option Nat} {fl fl' : List Nat} {k : Kmap} {ks : List Kmap} {c : Nat}
  {T1 : Nat → Option Nat} {fl1 : List Nat} {Q : State σ → Prop} {S : Nat → Bool}

/-! ## Ranges -/

def Kmap.size (k : Kmap) : Nat := (k.phys_end + 2 ^ 32 - k.phys_start) % 2 ^ 32

def Kmap.covers (k : Kmap) (x : Nat) : Bool := k.virt ≤ x ∧ x < k.virt + k.size

def Kmap.pte (k : Kmap) (x : Nat) : BitVec 32 := entryFor (k.phys_start + (PGROUNDDOWN x - k.virt)) k.perm

def kernelPte (ks : List Kmap) (x : Nat) : Option (BitVec 32) := (ks.find? (·.covers x)).map (·.pte x)

structure Kmap.Ok (k : Kmap) : Prop where
  virt : k.virt % PGSIZE = 0
  size : k.size % PGSIZE = 0
  pos : 0 < k.size
  phys : k.phys_start % PGSIZE = 0
  virt_le : k.virt + k.size ≤ 2 ^ 32
  phys_le : k.phys_start + k.size ≤ 2 ^ 32
  user : ∀ q, q % PGSIZE = 0 → has (entryFor q k.perm) PTE_U = false

def Kmap.Apart (k k' : Kmap) : Prop := k.virt + k.size ≤ k'.virt

theorem V2P_data (K : Kernel) : V2P K.data = K.data - KERNBASE := by
  have h1 := K.data_ge
  have h2 := K.data_lt
  simp only [KERNLINK, KERNBASE, EXTMEM, PHYSTOP] at h1 h2
  unfold V2P
  simp only [KERNBASE]
  omega

theorem V2P_kernlink : V2P KERNLINK = EXTMEM := by unfold V2P; decide

theorem has_PTE_U_entryFor {q : Nat} (hq : q % PGSIZE = 0) {perm : BitVec 32} (hp : perm.getLsbD 2 = false) :
    has (entryFor q perm) PTE_U = false := by
  have hbit : q / 2 ^ 2 % 2 = 0 := by simp only [PGSIZE] at hq; omega
  have hP : PTE_P.getLsbD 2 = false := by decide
  rw [has_PTE_U, entryFor, BitVec.getLsbD_or, BitVec.getLsbD_or, hp, hP, BitVec.getLsbD_ofNat,
    Nat.testBit_eq_decide_div_mod_eq, hbit]
  rfl

theorem kmap_ok (K : Kernel) : (∀ k ∈ kmap K, k.Ok) ∧ (kmap K).Pairwise Kmap.Apart := by
  have h1 := K.data_ge
  have h2 := K.data_page
  have h3 := K.data_lt
  simp only [KERNLINK, KERNBASE, EXTMEM, PHYSTOP, PGSIZE] at h1 h2 h3
  simp only [kmap, V2P_data, V2P_kernlink]
  generalize K.data = data at *
  constructor
  · intro k hk
    simp only [mem_cons, not_mem_nil, or_false] at hk
    have huser : k.perm.getLsbD 2 = false := by
      rcases hk with rfl | rfl | rfl | rfl <;> dsimp only <;> decide
    rcases hk with rfl | rfl | rfl | rfl <;> refine ⟨?_, ?_, ?_, ?_, ?_, ?_, fun q hq => has_PTE_U_entryFor hq huser⟩ <;>
      simp only [Kmap.size, KERNLINK, KERNBASE, EXTMEM, PHYSTOP, DEVSPACE, PGSIZE] <;> omega
  · simp only [pairwise_cons, mem_cons, not_mem_nil, or_false, forall_eq_or_imp, forall_eq, Kmap.Apart,
      Kmap.size, KERNLINK, KERNBASE, EXTMEM, PHYSTOP, DEVSPACE]
    refine ⟨⟨?_, ?_, ?_⟩, ⟨?_, ?_⟩, ?_, ?_, ?_⟩ <;> first | omega | simp

/-! ## `setupkvm` -/

structure Adds (K : Kernel) (J : State σ → Prop) (s : State σ) (d : Nat) (T : Nat → Option Nat) (fl : List Nat) (ks : List Kmap)
    (s' : State σ) (T' : Nat → Option Nat) (fl' : List Nat) : Prop where
  grows : Extends K s d T fl s' T' fl'
  pte : ∀ x, x < 2 ^ 32 → Vm.pte s' T' x = (kernelPte ks x).getD (Vm.pte s T x)
  tables : ∀ i, T i = none → (∀ k ∈ ks, ∀ x, k.covers x → PDX x ≠ i) → T' i = none
  inv : J s'

structure Cut (K : Kernel) (X : State σ → State σ → Prop) (s : State σ) (d : Nat) (T : Nat → Option Nat) (fl : List Nat)
    (ks : List Kmap) (s1 : State σ) (T1 : Nat → Option Nat) (s' : State σ) : Prop where
  grows : Extends K s d T fl s1 T1 []
  pte : ∀ x, x < 2 ^ 32 → (∀ k ∈ ks, k.covers x = false) → Vm.pte s1 T1 x = Vm.pte s T x
  left : X s1 s'

theorem Kmap.Ok.mappages (hk : k.Ok) (hp : Takes h d M O J X E F U) (hl : Layout K s d T fl) (hM : Within M d T fl)
    (hj : J s) (hr : Room F S T fl c) (hS : ∀ x, k.covers x → S (PDX x) = true) (hU : U false)
    (hn : ∀ x, k.covers x → has (Vm.pte s T x) PTE_P = false) :
    Ends E (fun r => (r.1 = false ∧ F ∧ ∃ s1 T1, Cut K X s d T fl [k] s1 T1 r.2) ∨
      (r.1 = true ∧ ∃ T' fl', Adds K J s d T fl [k] r.2 T' fl'))
      (mappages h s (kva d) k.virt k.size k.phys_start k.perm) := by
  have h1 := hk.virt
  have h2 := hk.size
  have h3 := hk.pos
  have hlow : PGROUNDDOWN k.virt = k.virt := by
    simp only [PGROUNDDOWN, PGSIZE] at h1 ⊢
    omega
  have hhigh : PGROUNDDOWN (k.virt + k.size - 1) + PGSIZE = k.virt + k.size := by
    simp only [PGROUNDDOWN, PGSIZE] at h1 h2 ⊢
    omega
  have hU' : ∀ q, q % PGSIZE = 0 → U (has (entryFor q k.perm) PTE_U) := fun q hq => by rw [hk.user q hq]; exact hU
  have hcov (x : Nat) (hx1 : PGROUNDDOWN k.virt ≤ x) (hx2 : x < PGROUNDDOWN (k.virt + k.size - 1) + PGSIZE) : k.covers x := by
    rw [hlow] at hx1
    rw [hhigh] at hx2
    exact decide_eq_true ⟨hx1, hx2⟩
  refine (hp.mappages hl hM hj hr h3 hk.virt_le (fun x hx1 hx2 => hS x (hcov x hx1 hx2)) (fun x hx1 hx2 => hn x (hcov x hx1 hx2))
    hk.phys hU').imp fun r hr => hr.imp ?_ ?_
  · rintro ⟨hok, hF, s1, T1, b, -, hb, hst⟩
    rw [hhigh] at hb
    rw [hlow] at hst
    refine ⟨hok, hF, s1, T1, hst.mapped.grows, fun x hx hc => ?_, hst.left⟩
    have hout : ¬ (k.virt ≤ x ∧ x < k.virt + k.size) := of_decide_eq_false (hc k (by simp))
    rw [hst.mapped.pte x hx, if_neg (by omega)]
  · rintro ⟨hok, T', fl', hm⟩
    refine ⟨hok, T', fl', hm.grows, fun x hx => ?_, fun i hi hk => ?_, hm.inv⟩
    swap
    · rw [hlow, hhigh] at hm
      exact hm.tables i hi fun x hx1 hx2 => hk k (by simp) x (decide_eq_true ⟨hx1, hx2⟩)
    rw [hm.pte x hx, hlow, hhigh]
    by_cases hc : k.covers x
    · rw [if_pos (of_decide_eq_true hc)]
      simp only [kernelPte, find?_cons, hc, map_some, getD_some]
      rfl
    · rw [if_neg fun hx => hc (decide_eq_true hx)]
      simp [kernelPte, hc]

theorem Adds.pte_of_not_covers (ha : Adds K J s d T fl [k] s' T' fl') (hx : x < 2 ^ 32) (hc : k.covers x = false) :
    Vm.pte s' T' x = Vm.pte s T x := by
  rw [ha.pte x hx]
  simp [kernelPte, hc]

theorem Adds.room (ha : Adds K J s d T fl ks s' T' fl') (hS : ∀ k ∈ ks, ∀ x, k.covers x → S (PDX x) = true)
    (hr : Room F S T fl c) : Room F S T' fl' c :=
  ha.grows.room (fun i hi hs => ha.tables i hi fun k hk x hx he => by
    rw [← he, hS k hk x hx] at hs
    cases hs) hr

theorem Adds.cons (h1 : Adds K J s d T fl [k] s1 T1 fl1)
    (h2 : Adds K J s1 d T1 fl1 ks s' T' fl') (ha : ∀ k' ∈ ks, k.Apart k') : Adds K J s d T fl (k :: ks) s' T' fl' := by
  refine ⟨h1.grows.trans h2.grows, fun x hx => ?_, fun i hi hk => ?_, h2.inv⟩
  swap
  · refine h2.tables i (h1.tables i hi fun k' hk' => hk k' ?_) fun k' hk' => hk k' (by simp [hk'])
    rw [mem_singleton.mp hk']
    simp
  rw [h2.pte x hx, h1.pte x hx]
  by_cases hc : k.covers x
  · have hnone : kernelPte ks x = none := by
      simp only [kernelPte, map_eq_none_iff, find?_eq_none]
      intro k' hk' hc'
      have h1 := of_decide_eq_true hc
      have h2 := of_decide_eq_true hc'
      have h3 := ha k' hk'
      simp only [Kmap.Apart] at h3
      omega
    rw [hnone]
    simp [kernelPte, hc]
  · simp [kernelPte, hc]

theorem Cut.cons {s2 : State σ} {T2 : Nat → Option Nat} (h1 : Adds K J s d T fl [k] s1 T1 fl1)
    (h2 : Cut K X s1 d T1 fl1 ks s2 T2 s') : Cut K X s d T fl (k :: ks) s2 T2 s' := by
  refine ⟨h1.grows.trans h2.grows, fun x hx hc => ?_, h2.left⟩
  rw [h2.pte x hx fun k' hk' => hc k' (by simp [hk']), h1.pte_of_not_covers hx (hc k (by simp))]

theorem Takes.setupLoop (hp : Takes h d M O J X E F U) (hl : Layout K s d T fl)
    (hM : Within M d T fl) (hj : J s) (hr : Room F S T fl c) (hS : ∀ k ∈ ks, ∀ x, k.covers x → S (PDX x) = true) (hU : U false)
    (hok : ∀ k ∈ ks, k.Ok) (ha : ks.Pairwise Kmap.Apart)
    (hn : ∀ k ∈ ks, ∀ x, k.covers x → has (Vm.pte s T x) PTE_P = false)
    (hcut : F → ∀ s1 T1 s', Cut K X s d T fl ks s1 T1 s' → Ends E Q (freevm K h s' (kva d))) :
    Ends E (fun r => (r.1 = 0 ∧ F ∧ Q r.2) ∨ (r.1 = kva d ∧ ∃ T' fl', Adds K J s d T fl ks r.2 T' fl'))
      (setupLoop K h (kva d) ks s) := by
  induction ks generalizing s T fl with
  | nil => exact .inr ⟨rfl, T, fl, .refl hl, fun _ _ => rfl, fun _ hi _ => hi, hj⟩
  | cons k ks ih =>
    rw [Vm.setupLoop]
    refine ((hok k (by simp)).mappages hp hl hM hj hr (hS k (by simp)) hU (hn k (by simp))).bind fun ⟨ok, s1⟩ h1 => ?_
    dsimp only at h1 ⊢
    rcases h1 with ⟨rfl, hF, s2, T2, hst⟩ | ⟨rfl, T1, fl1, hm⟩
    · rw [if_neg Bool.false_ne_true]
      have hst' : Cut K X s d T fl (k :: ks) s2 T2 s1 :=
        ⟨hst.grows, fun x hx hc => hst.pte x hx fun k' hk' => hc k' (by simp [mem_singleton.mp hk']), hst.left⟩
      exact (hcut hF _ _ _ hst').bind fun s3 hs => .inl ⟨rfl, hF, hs⟩
    · rw [if_pos rfl]
      obtain ⟨hk, hks⟩ := pairwise_cons.mp ha
      have hr1 := hm.room (fun k' hk' => by rw [mem_singleton.mp hk']; exact hS k (by simp)) hr
      refine (ih hm.grows.layout (hm.grows.within hM) hm.inv hr1 (fun k' hk' => hS k' (by simp [hk']))
        (fun k' hk' => hok k' (by simp [hk'])) hks (fun k' hk' x hx => ?_) fun hF s2 T2 s' hst => hcut hF _ _ _ (hst.cons hm)).imp
        fun ⟨p, s2⟩ hr => hr.imp id fun ⟨hpd, T2, fl2, hm2⟩ => ⟨hpd, T2, fl2, hm.cons hm2 hk⟩
      have hlt : x < 2 ^ 32 := by
        have := (hok k' (by simp [hk'])).virt_le
        have := of_decide_eq_true hx
        omega
      cases hc : k.covers x with
      | false =>
        rw [hm.pte_of_not_covers hlt hc]
        exact hn k' (by simp [hk']) x hx
      | true =>
        have h1 := of_decide_eq_true hc
        have h2 := of_decide_eq_true hx
        have h3 := hk k' hk'
        simp only [Kmap.Apart] at h3
        omega

structure Fresh (K : Kernel) (s : State σ) (fl : List Nat) (s' : State σ) (d : Nat) (T : Nat → Option Nat) (fl' : List Nat) :
    Prop where
  layout : Layout K s' d T fl'
  owns : ∀ g, Owns d T g → g ∈ fl
  suffix : fl' <:+ fl
  mem : ∀ g, g ∉ fl → s'.mem g = s.mem g
  cr3 : s'.cr3 = s.cr3

theorem Free.layout {fl : List Nat} (hf : Free K s (d :: fl)) (hf1 : Free K s1 fl) :
    Layout K (s1.setPage d (Bytes.fill PGSIZE 0#8)) d (fun _ => none) fl := by
  have hd : d ∉ fl := (nodup_cons.mp hf.nodup).1
  refine ⟨⟨hf.usable d (by simp), ?_, ?_, ?_, fun i _ _ => ?_, ?_⟩, hf1.setPage hd _, fun f hf' ho => ?_⟩
  · intro i t ht; cases ht
  · intro i j t ht; cases ht
  · intro i ht; cases ht
  · rw [mem_setPage_self, Bytes.word_fill_zero, has_zero]
  · intro i t ht; cases ht
  · rcases ho with rfl | ⟨i, hi⟩
    · exact hd hf'
    · cases hi

theorem vacant_none : vacant (fun _ => none) = NPDENTRIES := by simp [vacant]

theorem Extends.fresh (hm : s1.mem = s.mem) (hc : s1.cr3 = s.cr3)
    (hx : Extends K (s1.setPage d (Bytes.fill PGSIZE 0#8)) d (fun _ => none) fl1 s' T' fl') : Fresh K s (d :: fl1) s' d T' fl' := by
  have hno : ∀ g, Owns d (fun _ => none) g → g = d := by
    rintro g (he | ⟨i, hi⟩)
    · exact he
    · cases hi
  refine ⟨hx.layout, fun g hg => ?_, hx.suffix.trans (suffix_cons d fl1), fun g hg => ?_, hx.cr3.trans hc⟩
  · rcases hx.owns hg with ho | hg
    · simp [hno g ho]
    · simp [hg]
  · have hgd : g ≠ d := by rintro rfl; exact hg (by simp)
    rw [hx.mem g (fun hm' => hg (by simp [hm'])) fun ho => hgd (hno g ho), mem_setPage_ne _ hgd, hm]

/-- `setupkvm` makes an address space with the entries of `kmap`. If `kalloc` fails, it ends with what `freevm` makes of the
frames that it has taken. -/
theorem Takes.setupkvm (hp : ∀ d, Takes h d M O J X E F U) (hf : Free K s fl) (hM : ∀ g ∈ fl, M g)
    (hj : J s) (hO : ∀ d, ¬ O d) (hU : U false) (hS : ∀ k ∈ kmap K, ∀ x, k.covers x → S (PDX x) = true)
    (hb : F ∨ 1 + lacking S (fun _ => none) + c ≤ fl.length) (hnil : F → fl = [] → ∀ s', X s s' → Q s')
    (hcut : F → ∀ d fl1 s1 T1 s', fl = d :: fl1 → Fresh K s fl s1 d T1 [] → fl1.length + vacant T1 = NPDENTRIES →
      (∀ x, x < 2 ^ 32 → (∀ k ∈ kmap K, k.covers x = false) → pte s1 T1 x = 0#32) → X s1 s' → Ends E Q (freevm K h s' (kva d))) :
    Ends E (fun r => (r.1 = 0 ∧ F ∧ Q r.2) ∨ ∃ d T fl', r.1 = kva d ∧ Fresh K s fl r.2 d T fl' ∧ J r.2 ∧ Room F S T fl' c ∧
      (∀ x, x < 2 ^ 32 → pte r.2 T x = (kernelPte (kmap K) x).getD 0#32) ∧
      ∀ i, (∀ k ∈ kmap K, ∀ x, k.covers x → PDX x ≠ i) → T i = none) (setupkvm K h s) := by
  obtain ⟨hok, ha⟩ := kmap_ok K
  unfold Vm.setupkvm
  generalize kmap K = ks at *
  refine ((hp 0).take hf hj (fun d hd => (hO d hd).elim) (hb.imp id fun hb => by omega)).bind fun ⟨p, s1⟩ hr => ?_
  dsimp only at hr ⊢
  rcases hr with ⟨rfl, hF, hfl, hX⟩ | ⟨d, fl1, rfl, rfl, hm, hc, hf1, hj1⟩
  · rw [if_pos rfl]
    exact .inl ⟨rfl, hF, hnil hF hfl _ hX⟩
  · rw [if_neg kva_ne_zero, storePage_kva (hf.usable d (by simp)).lt]
    have hl := hf.layout hf1
    have hM1 : Within M d (fun _ => none) fl1 := by
      rintro g (hg | rfl | ⟨i, hi⟩)
      · exact hM g (by simp [hg])
      · exact hM g (by simp)
      · cases hi
    have hj2 : J (s1.setPage d (Bytes.fill PGSIZE 0#8)) := by
      refine (hp d).stable s1 _ hj1 (fun g hg => mem_setPage_ne _ ?_) rfl rfl
      rintro rfl
      exact hg (hM g (by simp))
    have hroom : Room F S (fun _ => none) fl1 c := hb.imp id fun hb => by
      rw [length_cons] at hb
      omega
    refine ((hp d).setupLoop hl hM1 hj2 hroom hS hU hok ha (fun k _ x _ => has_zero _) fun hF s2 T2 s' hst => ?_).imp
      fun ⟨p, s2⟩ hr => hr.imp id ?_
    · refine hcut hF d fl1 s2 T2 s' rfl (hst.grows.fresh hm hc) ?_ (fun x hx hcov => (hst.pte x hx hcov).trans rfl) hst.left
      have hcount := hst.grows.count
      rw [vacant_none, length_nil] at hcount
      omega
    · rintro ⟨hpd, T, fl2, hm2⟩
      exact ⟨d, T, fl2, hpd, hm2.grows.fresh hm hc, hm2.inv, hm2.room hS hroom, hm2.pte, fun i => hm2.tables i rfl⟩

theorem Pops.setupkvm (hp : Pops h I E) (hf : Free K s fl) (hi : I s.ext) (hS : ∀ k ∈ kmap K, ∀ x, k.covers x → S (PDX x) = true)
    (hb : (∀ e, E e) ∨ 1 + lacking S (fun _ => none) + c ≤ fl.length) :
    Ends E (fun r => (r.1 = 0 ∧ ∀ e, E e) ∨ ∃ d T fl', r.1 = kva d ∧ Fresh K s fl r.2 d T fl' ∧ I r.2.ext ∧
      Room (∀ e, E e) S T fl' c ∧ (∀ x, x < 2 ^ 32 → pte r.2 T x = (kernelPte (kmap K) x).getD 0#32) ∧
      ∀ i, (∀ k ∈ kmap K, ∀ x, k.covers x → PDX x ≠ i) → T i = none) (setupkvm K h s) := by
  refine (Takes.setupkvm hp.takes hf (fun _ _ => trivial) hi (fun _ => id) trivial hS hb (fun _ _ _ _ => trivial)
    fun hE _ _ _ _ _ _ _ _ _ _ =>
    Ends.fails (Q := fun _ => True) hE fun _ => trivial).imp fun r hr => hr.imp (fun h => ⟨h.1, h.2.1⟩) id

end Xv6.Vm
