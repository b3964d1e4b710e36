import Xv6.Vm.Lemmas.Kvm

/-! # Releasing memory -/

namespace Xv6.Vm

open Xv6.Lib List Vm

-- Numbers as large as these must not be unfolded when a computation is matched with the rules for it.
attribute [local irreducible] V2P P2V NPDENTRIES

variable {σ : Type} {K : Kernel} {h : Hooks σ} {E : Stop → Prop} {M N : Nat → Prop} {J : State σ → Prop}
variable {s s' s1 : State σ} {d f t a b m x : Nat} {T : Nat → Option Nat} {fl fl' : List Nat} {w : BitVec 32}

/-- `lru_delete` does not touch memory. It is called for pages in the frames `N`; `M` and `J` are as in `Takes`. -/
structure Drops (h : Hooks σ) (M N : Nat → Prop) (J : State σ → Prop) (E : Stop → Prop) : Prop where
  sub : ∀ f, N f → M f
  stable : ∀ s s', J s → (∀ g, ¬ M g → s'.mem g = s.mem g) → s'.cr3 = s.cr3 → s'.ext = s.ext → J s'
  lru_delete : ∀ s pgdir f, J s → N f → Ends E (fun s' => SameMem s s' ∧ J s') (h.lru_delete s pgdir (kva f))

/-! ## One page -/

theorem Usable.pos (hu : Usable K f) : 0 < f := by
  have h1 := hu.ge
  have h2 := K.end_ge
  have h3 := K.data_ge
  simp only [kva, KERNLINK, KERNBASE, EXTMEM, PGSIZE] at h1 h3
  omega

theorem Layout.kfree (hl : Layout K s d T fl) (hu : Usable K f) (hf : f ∉ fl) (ho : ¬ Owns d T f) :
    ∃ s', kfree K s (kva f) = .ok s' ∧ Layout K s' d T (f :: fl) ∧ (∀ g, g ≠ f → s'.mem g = s.mem g) ∧ s'.cr3 = s.cr3 ∧
      s'.ext = s.ext := by
  obtain ⟨s', hs, hfree, hmem, hc, he⟩ := hl.free.kfree hu hf
  have hdf : d ≠ f := fun he => ho (.inl he.symm)
  refine ⟨s', hs, ⟨hl.toPagedir.congr (hmem d hdf), hfree, fun g hg => ?_⟩, hmem, hc, he⟩
  rcases mem_cons.mp hg with rfl | hg
  · exact ho
  · exact hl.apart g hg

theorem Drops.freePte (hd : Drops h M N J E) (hl : Layout K s d T fl) (hM : Within M d T fl) (hj : J s)
    (ht : T (PDX a) = some t) (hu : Usable K (frame w)) (hf : frame w ∉ fl) (ho : ¬ Owns d T (frame w)) (hN : N (frame w)) :
    Ends E (fun s' => Layout K s' d T (frame w :: fl) ∧ (∀ x, pte s' T x = if SamePage x a then 0#32 else pte s T x) ∧
      (∀ g, g ≠ frame w → ¬ Owns d T g → s'.mem g = s.mem g) ∧ s'.cr3 = s.cr3 ∧ J s')
      (freePte K h s (kva d) (kva t + 4 * PTX a) w) := by
  have hne : PTE_ADDR w ≠ 0 := by
    have := hu.pos
    rw [pte_addr]
    exact (Nat.mul_pos (by decide) this).ne'
  obtain ⟨s1, hs1, hl1, hm1, hc1, he1⟩ := hl.kfree hu hf ho
  have hj1 : J s1 := hd.stable s s1 hj (fun g hg => hm1 g (by rintro rfl; exact hg (hd.sub _ hN))) hc1 he1
  rw [Vm.freePte, if_neg hne, pte_addr, P2V_frame hu.lt, hs1]
  refine (hd.lru_delete s1 (kva d) (frame w) hj1 hN).bind fun s2 ⟨hsame, hj2⟩ => ?_
  have hl2 : Layout K s2 d T (frame w :: fl) :=
    ⟨hl1.toPagedir.congr (by rw [hsame.mem]), hl1.free.congr (fun g _ => by rw [hsame.mem]) hsame.freelist, hl1.apart⟩
  obtain ⟨s3, hs3, he3, hm3, hx, hpte⟩ := hl2.setEntry ht 0#32
  rw [show store s2 (kva t + 4 * PTX a) 0 = .ok s3 from hs3]
  refine ⟨hx.layout, fun x => ?_, fun g hg hgo => ?_, hx.cr3.trans (hsame.cr3.trans hc1), ?_⟩
  · have hpte2 : pte s2 T x = pte s T x := pte_congr (d := d) (fun g hg => by
      rw [hsame.mem]
      exact hm1 g (by rintro rfl; exact ho hg)) x
    rw [hpte, hpte2]
  · rw [hm3 g (by rintro rfl; exact hgo (.inr ⟨_, ht⟩)), hsame.mem, hm1 g hg]
  · refine hd.stable s2 s3 hj2 (fun g hg => hm3 g ?_) hx.cr3 he3
    rintro rfl
    exact hg (hM g (.inr (.inr ⟨_, ht⟩)))

/-! ## `deallocuvm` -/

structure Users (K : Kernel) (N : Nat → Prop) (s : State σ) (d : Nat) (T : Nat → Option Nat) (fl : List Nat) (a b : Nat) :
    Prop where
  own : ∀ x, x % PGSIZE = 0 → a ≤ x → x < b → has (pte s T x) PTE_P = true →
    Usable K (frame (pte s T x)) ∧ frame (pte s T x) ∉ fl ∧ ¬ Owns d T (frame (pte s T x)) ∧ N (frame (pte s T x))
  inj : ∀ x y, x % PGSIZE = 0 → y % PGSIZE = 0 → a ≤ x → x < b → a ≤ y → y < b → has (pte s T x) PTE_P = true →
    has (pte s T y) PTE_P = true → frame (pte s T x) = frame (pte s T y) → x = y

def Holds (s : State σ) (T : Nat → Option Nat) (a b g : Nat) : Prop :=
  ∃ x, x % PGSIZE = 0 ∧ a ≤ x ∧ x < b ∧ has (pte s T x) PTE_P = true ∧ frame (pte s T x) = g

structure Released (K : Kernel) (J : State σ → Prop) (s : State σ) (d : Nat) (T : Nat → Option Nat) (fl : List Nat) (a b : Nat)
    (s' : State σ) (fl' : List Nat) : Prop where
  layout : Layout K s' d T fl'
  frames : ∀ g, g ∈ fl' ↔ g ∈ fl ∨ Holds s T a b g
  pte : ∀ x, x < 2 ^ 32 → pte s' T x = if a ≤ x ∧ PGROUNDDOWN x < b ∧ has (pte s T x) PTE_P then 0#32 else pte s T x
  mem : ∀ g, g ∉ fl' → ¬ Owns d T g → s'.mem g = s.mem g
  cr3 : s'.cr3 = s.cr3
  inv : J s'

theorem Released.refl (hl : Layout K s d T fl) (hj : J s) (hab : b ≤ a) (ha : a % PGSIZE = 0) : Released K J s d T fl a b s fl := by
  refine ⟨hl, fun g => ⟨.inl, fun hg => hg.resolve_right ?_⟩, fun x _ => ?_, fun _ _ _ => rfl, rfl, hj⟩
  · rintro ⟨x, _, h1, h2, _⟩
    omega
  · have hout : ¬ (a ≤ x ∧ PGROUNDDOWN x < b) := by
      simp only [PGROUNDDOWN, PGSIZE] at *
      omega
    rw [if_neg fun hx => hout ⟨hx.1, hx.2.1⟩]

theorem Released.widen (hr : Released K J s d T fl m b s' fl') (ham : a ≤ m)
    (hn : ∀ x, a ≤ x → x < m → has (Vm.pte s T x) PTE_P = false) : Released K J s d T fl a b s' fl' := by
  refine ⟨hr.layout, fun g => (hr.frames g).trans (or_congr_right ?_), fun x hx => ?_, hr.mem, hr.cr3, hr.inv⟩
  · constructor
    · rintro ⟨x, h0, h1, h2, h3⟩
      exact ⟨x, h0, by omega, h2, h3⟩
    · rintro ⟨x, h0, h1, h2, h3⟩
      refine ⟨x, h0, le_of_not_gt fun hlt => ?_, h2, h3⟩
      rw [hn x h1 hlt] at h3
      cases h3.1
  · rw [hr.pte x hx]
    by_cases hm : m ≤ x
    · have ha : a ≤ x := by omega
      simp [hm, ha]
    · rw [if_neg fun h => hm h.1]
      by_cases ha : a ≤ x
      · rw [if_neg fun h => by rw [hn x ha (by omega)] at h; cases h.2.2]
      · rw [if_neg fun h => ha h.1]

theorem Released.cons (hr : Released K J s1 d T (f :: fl) (a + PGSIZE) b s' fl') (ha : a % PGSIZE = 0) (hab : a < b)
    (hb : b ≤ 2 ^ 32) (hp : has (Vm.pte s T a) PTE_P = true) (hf : frame (Vm.pte s T a) = f)
    (hpte : ∀ x, Vm.pte s1 T x = if SamePage x a then 0#32 else Vm.pte s T x)
    (hm : ∀ g, g ≠ f → ¬ Owns d T g → s1.mem g = s.mem g) (hc : s1.cr3 = s.cr3) : Released K J s d T fl a b s' fl' := by
  have hsame (x : Nat) (hx : x < 2 ^ 32) : SamePage x a ↔ a ≤ x ∧ x < a + PGSIZE := samePage_aligned hx (by omega) ha
  have hlater (x : Nat) (h1 : a + PGSIZE ≤ x) (h2 : x < 2 ^ 32) : Vm.pte s1 T x = Vm.pte s T x := by
    rw [hpte, if_neg fun hs => absurd ((hsame x h2).mp hs).2 (by omega)]
  refine ⟨hr.layout, fun g => ?_, fun x hx => ?_, fun g hg ho => ?_, hr.cr3.trans hc, hr.inv⟩
  · rw [hr.frames g, mem_cons]
    constructor
    · rintro ((rfl | hg) | ⟨x, h0, h1, h2, h3, h4⟩)
      · exact .inr ⟨a, ha, le_refl a, hab, hp, hf⟩
      · exact .inl hg
      · rw [hlater x h1 (by omega)] at h3 h4
        exact .inr ⟨x, h0, by omega, h2, h3, h4⟩
    · rintro (hg | ⟨x, h0, h1, h2, h3, h4⟩)
      · exact .inl (.inr hg)
      · by_cases hxa : x = a
        · subst hxa
          exact .inl (.inl (h4.symm.trans hf))
        · have hx : a + PGSIZE ≤ x := by
            simp only [PGSIZE] at *
            omega
          rw [← hlater x hx (by omega)] at h3 h4
          exact .inr ⟨x, h0, hx, h2, h3, h4⟩
  · rw [hr.pte x hx, hpte]
    by_cases hs : SamePage x a
    · have hxa := (hsame x hx).mp hs
      have hdown : PGROUNDDOWN x = a := by
        simp only [PGROUNDDOWN, PGSIZE] at *
        omega
      rw [if_pos hs, ite_self, if_pos ⟨hxa.1, by rw [hdown]; exact hab, by rw [pte_samePage hs]; exact hp⟩]
    · have hxa : a + PGSIZE ≤ x ↔ a ≤ x := by
        have hno : ¬ (a ≤ x ∧ x < a + PGSIZE) := fun hx' => hs ((hsame x hx).mpr hx')
        omega
      simp [if_neg hs, hxa]
  · have hgf : g ≠ f := by
      rintro rfl
      exact hg ((hr.frames g).mpr (.inl (by simp)))
    rw [hr.mem g hg ho, hm g hgf ho]

theorem Users.mono (hu : Users K N s d T fl a b) (ham : a ≤ m) : Users K N s d T fl m b :=
  ⟨fun x h0 h1 => hu.own x h0 (ham.trans h1), fun x y hx hy h1 h2 h3 => hu.inj x y hx hy (ham.trans h1) h2 (ham.trans h3)⟩

theorem Users.next (hu : Users K N s d T fl a b) (ha : a % PGSIZE = 0) (hab : a < b) (hb : b ≤ 2 ^ 32) (hp : has (pte s T a) PTE_P = true)
    (hpte : ∀ x, pte s1 T x = if SamePage x a then 0#32 else pte s T x) : Users K N s1 d T (frame (pte s T a) :: fl) (a + PGSIZE) b := by
  have hpos : 0 < PGSIZE := by decide
  have hlater (x : Nat) (h1 : a + PGSIZE ≤ x) (h2 : x < b) : pte s1 T x = pte s T x := by
    rw [hpte, if_neg fun hs => absurd ((samePage_aligned (by omega) (by omega) ha).mp hs).2 (by omega)]
  refine ⟨fun x h0 h1 h2 h3 => ?_, fun x y hx hy h1 h2 h3 h4 h5 h6 he => ?_⟩
  · rw [hlater x h1 h2] at h3 ⊢
    obtain ⟨hus, hfl, ho, hN⟩ := hu.own x h0 (by omega) h2 h3
    refine ⟨hus, fun hm => ?_, ho, hN⟩
    rcases mem_cons.mp hm with he | hm
    · have := hu.inj x a h0 ha (by omega) h2 (le_refl a) hab h3 hp he
      omega
    · exact hfl hm
  · rw [hlater x h1 h2] at h5 he
    rw [hlater y h3 h4] at h6 he
    exact hu.inj x y hx hy (by omega) h2 (by omega) h4 h5 h6 he

theorem pdx_next (ha : a < KERNBASE) (hp : a % PGSIZE = 0) :
    (PDX a + 1) * 2 ^ 22 % 2 ^ 32 % PGSIZE = 0 ∧ a + PGSIZE ≤ (PDX a + 1) * 2 ^ 22 % 2 ^ 32 ∧
      ∀ x, a ≤ x → x < (PDX a + 1) * 2 ^ 22 % 2 ^ 32 → PDX x = PDX a := by
  simp only [KERNBASE] at ha
  simp only [PGSIZE] at hp
  simp only [PDX, PGSIZE]
  have hd : a / 2 ^ 22 % 1024 = a / 2 ^ 22 := by omega
  rw [hd]
  refine ⟨by omega, by omega, fun x h1 h2 => ?_⟩
  omega

/-- One pass: nothing is present up to the next address, or page `a` is released. -/
theorem Drops.deallocPage (hd : Drops h M N J E) (hl : Layout K s d T fl) (hM : Within M d T fl) (hj : J s)
    (hu : Users K N s d T fl a b) (ha : a % PGSIZE = 0) (hab : a < b) (hb : b ≤ KERNBASE) :
    Ends E (fun r => r.1 % PGSIZE = 0 ∧ a + PGSIZE ≤ r.1 ∧
      ((r.2 = s ∧ ∀ x, a ≤ x → x < r.1 → has (pte s T x) PTE_P = false) ∨
        (r.1 = a + PGSIZE ∧ has (pte s T a) PTE_P = true ∧ Layout K r.2 d T (frame (pte s T a) :: fl) ∧
          (∀ x, pte r.2 T x = if SamePage x a then 0#32 else pte s T x) ∧
          (∀ g, g ≠ frame (pte s T a) → ¬ Owns d T g → r.2.mem g = s.mem g) ∧ r.2.cr3 = s.cr3 ∧ J r.2)))
      (deallocPage K h s (kva d) a) := by
  have hK : KERNBASE + PGSIZE ≤ 2 ^ 32 := by decide
  have ha' : (a + PGSIZE) % PGSIZE = 0 := by rw [Nat.add_mod_right]; exact ha
  rw [Vm.deallocPage, hl.toPagedir.walk]
  cases ht : T (PDX a) with
  | none =>
    -- no page table: the rest of the 4 megabytes is skipped
    obtain ⟨h1, h2, h3⟩ := pdx_next (a := a) (by omega) ha
    refine ⟨h1, h2, .inl ⟨rfl, fun x hx1 hx2 => ?_⟩⟩
    rw [pte_none (by rw [h3 x hx1 hx2]; exact ht)]
    exact has_zero _
  | some t =>
    simp only [bind, Except.bind]
    rw [if_neg (by simp [kva, KERNBASE]), hl.toPagedir.load ht]
    cases hp : has (pte s T a) PTE_P with
    | false =>
      simp only [hp, Bool.false_eq_true, if_false]
      refine ⟨ha', le_rfl, .inl ⟨rfl, fun x hx1 hx2 => ?_⟩⟩
      dsimp only at hx2
      rw [pte_samePage ((samePage_aligned (by omega) (by omega) ha).mpr ⟨hx1, hx2⟩)]
      exact hp
    | true =>
      simp only [hp, if_true]
      obtain ⟨hus, hfl, ho, hN⟩ := hu.own a ha (le_refl a) hab hp
      exact (hd.freePte hl hM hj ht hus hfl ho hN).bind fun s' hs => ⟨ha', le_rfl, .inr ⟨rfl, trivial, hs⟩⟩

theorem Drops.deallocLoop (hd : Drops h M N J E) (k : Nat) (hl : Layout K s d T fl) (hM : Within M d T fl) (hj : J s)
    (hu : Users K N s d T fl a b) (ha : a % PGSIZE = 0) (hb : b ≤ KERNBASE) (hk : b ≤ a + PGSIZE * k) :
    Ends E (fun s' => ∃ fl', Released K J s d T fl a b s' fl') (deallocLoop K h (kva d) b k s a) := by
  have hK : KERNBASE ≤ 2 ^ 32 := by decide
  induction k generalizing s fl a with
  | zero => exact ⟨fl, .refl hl hj (by omega) ha⟩
  | succ k ih =>
    rw [deallocLoop]
    by_cases hab : a < b
    · have hmul : PGSIZE * (k + 1) = PGSIZE * k + PGSIZE := rfl
      rw [if_pos hab]
      refine (hd.deallocPage hl hM hj hu ha hab hb).bind fun ⟨a1, s1⟩ hr => ?_
      dsimp only at hr ⊢
      rcases hr with ⟨ha1, hlt, ⟨rfl, hn⟩ | ⟨rfl, hp, hl1, hpte, hm, hc, hj1⟩⟩
      · exact (ih hl hM hj (hu.mono (by omega)) ha1 (by omega)).imp fun s' ⟨fl', hr⟩ => ⟨fl', hr.widen (by omega) hn⟩
      · have hM1 : Within M d T (frame (pte s T a) :: fl) := by
          rintro g (hg | hg)
          · rcases mem_cons.mp hg with rfl | hg
            · exact hd.sub _ (hu.own a ha (le_refl a) hab hp).2.2.2
            · exact hM g (.inl hg)
          · exact hM g (.inr hg)
        exact (ih hl1 hM1 hj1 (hu.next ha hab (by omega) hp hpte) ha1 (by omega)).imp
          fun s' ⟨fl', hr⟩ => ⟨fl', hr.cons ha hab (by omega) hp rfl hpte hm hc⟩
    · rw [if_neg hab]
      exact ⟨fl, .refl hl hj (by omega) ha⟩

theorem pgroundup_spec {sz : Nat} (h : sz < KERNBASE) :
    PGROUNDUP sz % PGSIZE = 0 ∧ sz ≤ PGROUNDUP sz ∧ PGROUNDUP sz < sz + PGSIZE ∧ PGROUNDUP sz ≤ KERNBASE := by
  simp only [PGROUNDUP, PGSIZE, KERNBASE] at *
  omega

theorem Drops.deallocuvm {oldsz newsz : Nat} (hd : Drops h M N J E) (hl : Layout K s d T fl) (hM : Within M d T fl) (hj : J s)
    (hu : Users K N s d T fl (PGROUNDUP newsz) oldsz) (hlt : newsz < oldsz) (hb : oldsz ≤ KERNBASE) :
    Ends E (fun r => r.1 = newsz ∧ ∃ fl', Released K J s d T fl (PGROUNDUP newsz) oldsz r.2 fl')
      (deallocuvm K h s (kva d) oldsz newsz) := by
  rw [Vm.deallocuvm, if_neg (by omega)]
  have hk : oldsz ≤ PGROUNDUP newsz + PGSIZE * (oldsz / PGSIZE + 1) := by
    simp only [PGSIZE]
    omega
  exact (hd.deallocLoop _ hl hM hj hu (pgroundup_spec (by omega)).1 hb hk).bind fun s' hs => ⟨rfl, hs⟩

/-! ## `freevm` -/

structure Freed (K : Kernel) (s : State σ) (d : Nat) (T : Nat → Option Nat) (fl done : List Nat) (s' : State σ) (fl' : List Nat) :
    Prop where
  free : Free K s' fl'
  frames : ∀ g, g ∈ fl' ↔ g ∈ fl ∨ ∃ i ∈ done, T i = some g
  mem : ∀ g, g ∉ fl' → s'.mem g = s.mem g
  cr3 : s'.cr3 = s.cr3

theorem Freed.next {i : Nat} {done : List Nat} (hl : Layout K s d T fl) (hr : Freed K s d T fl done s1 fl') (hi : i < NPDENTRIES)
    (hn : i ∉ done) : Ends E (fun s' => ∃ fl', Freed K s d T fl (done ++ [i]) s' fl') (freeTable K (kva d) s1 i) := by
  have hdf : d ∉ fl' := fun hm => by
    rcases (hr.frames d).mp hm with hm | ⟨j, _, hj⟩
    · exact hl.apart d hm (.inl rfl)
    · exact hl.ne j hj
  have hlt : 4 * i < PGSIZE := by simp only [NPDENTRIES, PGSIZE] at *; omega
  rw [freeTable, load_kva hl.dir.lt hlt, hr.mem d hdf]
  simp only [bind, Except.bind]
  cases ht : T i with
  | none =>
    rw [if_neg (by rw [hl.absent i hi ht]; exact Bool.false_ne_true)]
    refine ⟨fl', hr.free, fun g => (hr.frames g).trans (or_congr_right ?_), hr.mem, hr.cr3⟩
    simp [or_and_right, exists_or, ht]
  | some t =>
    obtain ⟨hp, hf⟩ := hl.present i t ht
    have htf : t ∉ fl' := fun hm => by
      rcases (hr.frames t).mp hm with hm | ⟨j, hj, hjt⟩
      · exact hl.apart t hm (.inr ⟨i, ht⟩)
      · exact hn (hl.inj j i t hjt ht ▸ hj)
    have hu := (hl.table i t ht).2
    rw [if_pos hp, pte_addr, hf, P2V_frame hu.lt]
    obtain ⟨s', hs, hfree, hmem, hc, -⟩ := hr.free.kfree hu htf
    rw [hs]
    refine ⟨t :: fl', hfree, fun g => ?_, fun g hg => ?_, hc.trans hr.cr3⟩
    · rw [mem_cons, hr.frames g]
      simp only [mem_append, mem_singleton, or_and_right, exists_or, exists_eq_left, ht, Option.some.injEq]
      constructor
      · rintro (rfl | hg | hg)
        · exact .inr (.inr rfl)
        · exact .inl hg
        · exact .inr (.inl hg)
      · rintro (hg | hg | rfl)
        · exact .inr (.inl hg)
        · exact .inr (.inr hg)
        · exact .inl rfl
    · rw [mem_cons, not_or] at hg
      rw [hmem g hg.1, hr.mem g hg.2]

theorem Layout.freeTables (hl : Layout K s d T fl) :
    Ends E (fun s' => ∃ fl', Freed K s d T fl (range NPDENTRIES) s' fl')
      ((range NPDENTRIES).foldlM (freeTable K (kva d)) s) := by
  refine Ends.foldlM (I := fun done s' => ∃ fl', Freed K s d T fl done s' fl')
    ⟨fl, hl.free, fun g => by simp, fun _ _ => rfl, rfl⟩ fun done i rest s1 he ⟨fl', hr⟩ => ?_
  have hnd := nodup_append.mp (he ▸ nodup_range (n := NPDENTRIES))
  refine hr.next hl (mem_range.mp (by rw [he]; simp)) fun hi => hnd.2.2 i hi i (by simp) rfl

theorem Drops.freevm (hd : Drops h M N J E) (hl : Layout K s d T fl) (hM : Within M d T fl) (hj : J s)
    (hu : Users K N s d T fl 0 KERNBASE) :
    Ends E (fun s' => ∃ fl', Free K s' fl' ∧ (∀ g, g ∈ fl' ↔ g ∈ fl ∨ Holds s T 0 KERNBASE g ∨ Owns d T g) ∧
      (∀ g, g ∉ fl' → s'.mem g = s.mem g) ∧ s'.cr3 = s.cr3) (freevm K h s (kva d)) := by
  have h0 : PGROUNDUP 0 = 0 := by decide
  rw [Vm.freevm, if_neg kva_ne_zero]
  refine (hd.deallocuvm hl hM hj (h0.symm ▸ hu) (by decide) le_rfl).bind fun ⟨n, s1⟩ ⟨_, fl1, hr⟩ => ?_
  rw [h0] at hr
  refine (hr.layout.freeTables).bind fun s2 ⟨fl2, hf⟩ => ?_
  have hdf : d ∉ fl2 := fun hm => by
    rcases (hf.frames d).mp hm with hm | ⟨j, _, hj⟩
    · exact hr.layout.apart d hm (.inl rfl)
    · exact hl.ne j hj
  obtain ⟨s3, hs, hfree, hmem, hc, -⟩ := hf.free.kfree hl.dir hdf
  rw [hs]
  have hmem3 : ∀ g, g ∈ d :: fl2 ↔ g ∈ fl ∨ Holds s T 0 KERNBASE g ∨ Owns d T g := fun g => by
    rw [mem_cons, hf.frames g, hr.frames g, Owns]
    have hex : (∃ i ∈ range NPDENTRIES, T i = some g) ↔ ∃ i, T i = some g :=
      ⟨fun ⟨i, _, hi⟩ => ⟨i, hi⟩, fun ⟨i, hi⟩ => ⟨i, mem_range.mpr (hl.table i g hi).1, hi⟩⟩
    rw [hex, or_assoc, or_left_comm, or_left_comm (a := g = d)]
  refine ⟨d :: fl2, hfree, hmem3, fun g hg => ?_, hc.trans (hf.cr3.trans hr.cr3)⟩
  have hgo : ¬ Owns d T g := fun ho => hg ((hmem3 g).mpr (.inr (.inr ho)))
  rw [mem_cons, not_or] at hg
  have hg1 : g ∉ fl1 := fun hm => hg.2 ((hf.frames g).mpr (.inl hm))
  rw [hmem g hg.1, hf.mem g hg.2, hr.mem g hg1 hgo]

end Xv6.Vm
