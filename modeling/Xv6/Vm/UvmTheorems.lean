import Xv6.Vm.KvmTheorems
import Xv6.Vm.Lemmas.Contract
import Xv6.Vm.Sbrk

/-! # Theorems about the memory of processes -/

namespace Xv6.Vm

open Xv6.Lib List Bytes Except Locked Vm

attribute [local irreducible] V2P P2V NPDENTRIES

variable {L : Type} {K : Kernel} {s s' : Mem L} {d x va p r sz oldsz newsz : Nat} {T T' : Nat → Option Nat} {fl fl' : List Nat}
  {a b g : Nat} {M : Nat → Prop} {n : BitVec 32} {J : Mem L → Prop}

/-! ## `deallocuvm` -/

theorem drops_any : Drops Locked.hooks (fun _ => True) (fun _ => True) (fun _ : Mem L => True) Any where
  sub _ := id
  stable _ _ _ _ _ _ := trivial
  lru_delete s pgdir f _ _ := by
    refine Ends.imp (Q := SameMem s) ?_ fun _ h => ⟨h, trivial⟩
    simp only [Locked.hooks, lru_delete]
    split
    · exact ⟨rfl, rfl, rfl⟩
    · exact (Ends.any _).bind fun _ _ => (Ends.any _).bind fun _ _ => ⟨rfl, rfl, rfl⟩

def pagesIn (a b : Nat) : List Nat := (range ((b - a + PGSIZE - 1) / PGSIZE)).map fun i => a + PGSIZE * i

theorem mem_pagesIn (ha : a % PGSIZE = 0) : x ∈ pagesIn a b ↔ x % PGSIZE = 0 ∧ a ≤ x ∧ x < b := by
  simp only [pagesIn, mem_map, mem_range]
  constructor
  · rintro ⟨i, hi, rfl⟩
    simp only [PGSIZE] at *
    omega
  · rintro ⟨hx, h1, h2⟩
    refine ⟨(x - a) / PGSIZE, ?_, ?_⟩ <;> simp only [PGSIZE] at * <;> omega

theorem nodup_pagesIn (a b : Nat) : (pagesIn a b).Nodup :=
  nodup_range.map fun i j h => Nat.eq_of_mul_eq_mul_left (by decide : 0 < PGSIZE) (Nat.add_left_cancel h)

def framesIn (s : Mem L) (pgdir a b : Nat) : List Nat :=
  (pagesIn a b).filterMap fun x => if has (pteAt s pgdir x) PTE_P then some (frame (pteAt s pgdir x)) else none

theorem mem_framesIn {pgdir : Nat} (ha : a % PGSIZE = 0) :
    g ∈ framesIn s pgdir a b ↔ ∃ x, x % PGSIZE = 0 ∧ a ≤ x ∧ x < b ∧ has (pteAt s pgdir x) PTE_P = true ∧ frame (pteAt s pgdir x) = g := by
  simp [framesIn, mem_pagesIn ha, and_assoc]

theorem nodup_framesIn (hd : Pagedir K s d T) {N : Nat → Prop} (hu : Users K N s d T fl a b) (ha : a % PGSIZE = 0) :
    (framesIn s (kva d) a b).Nodup := by
  rw [framesIn, List.Nodup, pairwise_filterMap]
  refine (nodup_pagesIn a b).imp_of_mem fun {x y} hx hy hne f hf g hg he => hne ?_
  obtain ⟨hx0, hx1, hx2⟩ := (mem_pagesIn ha).mp hx
  obtain ⟨hy0, hy1, hy2⟩ := (mem_pagesIn ha).mp hy
  simp only [hd.pteAt, Option.ite_none_right_eq_some, Option.some.injEq] at hf hg
  exact hu.inj x y hx0 hy0 hx1 hx2 hy1 hy2 hf.1 hg.1 (hf.2.trans (he.trans hg.2.symm))

/-- `deallocuvm` clears the entries of the range exactly if those that are not present are clear before, leaves all other entries
alone, and puts the frames of the range on the free list, each of them once. -/
theorem deallocuvm_exact (hl : Layout K s d T fl) (hu : Users K (fun _ => True) s d T fl 0 KERNBASE) (hlt : newsz < oldsz)
    (hb : oldsz ≤ KERNBASE) (hx : deallocuvm K Locked.hooks s (kva d) oldsz newsz = .ok (r, s')) :
    r = newsz ∧
    ((∀ x, x % PGSIZE = 0 → PGROUNDUP newsz ≤ x → x < oldsz → pteAt s' (kva d) x = 0#32) ↔
      ∀ x, x % PGSIZE = 0 → PGROUNDUP newsz ≤ x → x < oldsz → has (pteAt s (kva d) x) PTE_P = false → pteAt s (kva d) x = 0#32) ∧
    (∀ x, x < 2 ^ 32 → ¬ (PGROUNDUP newsz ≤ x ∧ PGROUNDDOWN x < oldsz) → pteAt s' (kva d) x = pteAt s (kva d) x) ∧
    ∃ fl', Free K s' fl' ∧ fl'.Perm (framesIn s (kva d) (PGROUNDUP newsz) oldsz ++ fl) := by
  have hK : KERNBASE < 2 ^ 32 := by decide
  have hup := pgroundup_spec (show newsz < KERNBASE by omega)
  have hur : Users K (fun _ => True) s d T fl (PGROUNDUP newsz) oldsz :=
    ⟨fun x h0 h1 h2 => hu.own x h0 (Nat.zero_le x) (by omega),
      fun x y hx hy _ hxb _ hyb => hu.inj x y hx hy (Nat.zero_le x) (by omega) (Nat.zero_le y) (by omega)⟩
  obtain ⟨hr, fl', hrel⟩ := (drops_any.deallocuvm hl (fun _ _ => trivial) trivial hur hlt hb).of_ok hx
  have hpte (x : Nat) : pteAt s (kva d) x = pte s T x := hl.toPagedir.pteAt x
  have hpte' (x : Nat) : pteAt s' (kva d) x = pte s' T x := hrel.layout.toPagedir.pteAt x
  refine ⟨hr, ?_, fun x hx hout => ?_, fl', hrel.layout.free, ?_⟩
  · refine forall_congr' fun x => forall_congr' fun h0 => forall_congr' fun h1 => forall_congr' fun h2 => ?_
    have hdown : PGROUNDDOWN x = x := by
      simp only [PGROUNDDOWN, PGSIZE] at *
      omega
    rw [hpte', hpte, hrel.pte x (by omega)]
    by_cases hp : has (pte s T x) PTE_P
    · simp [h1, hdown, h2, hp]
    · simp [hp]
  · rw [hpte', hpte, hrel.pte x hx, if_neg fun h => hout ⟨h.1, h.2.1⟩]
  · have hnd : (framesIn s (kva d) (PGROUNDUP newsz) oldsz ++ fl).Nodup := by
      refine nodup_append.mpr ⟨nodup_framesIn hl.toPagedir hur hup.1, hl.free.nodup, ?_⟩
      rintro g hg _ hg' rfl
      obtain ⟨x, h0, h1, h2, h3, h4⟩ := (mem_framesIn hup.1).mp hg
      rw [hpte] at h3 h4
      exact (hur.own x h0 h1 h2 h3).2.1 (h4 ▸ hg')
    refine (perm_ext_iff_of_nodup hrel.layout.free.nodup hnd).mpr fun g => ?_
    rw [hrel.frames g, mem_append, mem_framesIn hup.1, Holds]
    simp only [hpte]
    exact or_comm

/-! A process with one page. -/

theorem pte_onePage_user (w : BitVec 32) (hx : x < KERNBASE) : pte (onePage w) onePageTables x = if x < PGSIZE then w else 0#32 := by
  have hlt := ptx_lt x
  by_cases hd : PDX x = 0
  · have hm : (onePage w).mem 57278 = (fill PGSIZE 0#8).setWord 0 w := rfl
    rw [pte_some (t := 57278) (by rw [hd]; rfl), hm]
    by_cases hp : PTX x = 0
    · rw [hp, if_pos (by simp only [PDX, PTX, PGSIZE, KERNBASE] at *; omega)]
      exact word_setWord_self _ _ (by decide)
    · rw [word_setWord_ne _ _ (by omega), word_fill_zero, if_neg]
      simp only [PTX, PGSIZE] at *
      omega
  · have hn : onePageTables (PDX x) = none := by
      have hlt : PDX x < 512 := by simp only [PDX, KERNBASE] at *; omega
      simp only [onePageTables]
      rw [if_neg hd, if_neg (by omega), if_neg (by omega)]
    rw [pte_none hn, if_neg]
    simp only [PDX, PGSIZE] at *
    omega

theorem apart_onePage (hg : g ∈ framesBelow 57000) : ¬ Owns 57343 onePageTables g := by
  have hlt := (mem_framesBelow.mp hg).2
  rintro (rfl | ⟨i, hi⟩)
  · omega
  · have := onePageTables_cases hi
    omega

theorem image_onePage {w : BitVec 32} (hw : has w PTE_P = true → frame w = 57277) :
    Image kernel (onePage w) 57343 onePageTables (framesBelow 57000) := by
  have hone (x : Nat) (hx : x < KERNBASE) (hp : has (pte (onePage w) onePageTables x) PTE_P = true) :
      x < PGSIZE ∧ frame (pte (onePage w) onePageTables x) = 57277 := by
    rw [pte_onePage_user w hx] at hp ⊢
    split at hp
    · rename_i hlt
      rw [if_pos hlt]
      exact ⟨hlt, hw hp⟩
    · rw [has_zero] at hp
      cases hp
  refine { pagedir_onePage w with
    free := free_onePage w, apart := fun g hg => apart_onePage hg, user := ?_, single := ?_, kernel := ?_, busy := ?_ }
  · intro x hx hp
    rw [(hone x hx hp).2]
    refine ⟨usable_frame (by decide) (by decide), ?_⟩
    rintro (h | ⟨i, hi⟩)
    · cases h
    · have := onePageTables_cases hi
      omega
  · intro x y hx hy hp hq _
    have h1 := (hone x hx hp).1
    have h2 := (hone y hy hq).1
    rw [Nat.div_eq_of_lt h1, Nat.div_eq_of_lt h2]
  · intro x h1 h2
    cases ht : onePageTables (PDX x) with
    | none => rw [pte_none ht]; exact has_zero _
    | some t =>
      have hc := onePageTables_cases ht
      have hge : 512 ≤ PDX x := by simp only [PDX, KERNBASE] at *; omega
      have hm : (onePage w).mem t = ofWords (bootTable t) := by
        simp only [onePage, bootFree]
        rw [if_neg (by omega), if_neg (by omega), if_neg (by omega), if_neg (by omega), bootMem, if_neg (by omega), if_pos (by omega)]
      rw [pte_some ht, hm, word_ofWords _ (ptx_lt x)]
      exact has_PTE_U_bootTable _ _
  · intro x hx hp hfl
    rw [(hone x hx hp).2] at hfl
    exact absurd (mem_framesBelow.mp hfl).2 (by decide)

theorem deallocuvm_onePage {w : BitVec 32} (hi : Image kernel (onePage w) 57343 onePageTables (framesBelow 57000)) :
    ∃ s' fl', deallocuvm kernel Locked.hooks (onePage w) (kva 57343) PGSIZE 0 = .ok (0, s') ∧
      Released kernel (·.ext.page_lru_head = none) (onePage w) 57343 onePageTables (framesBelow 57000) (PGROUNDUP 0) PGSIZE s' fl' := by
  have hu := hi.users (N := fun _ => True) (a := PGROUNDUP 0) (b := PGSIZE) (by decide) fun _ _ _ => trivial
  have hends : Ends (fun _ => False) _ (deallocuvm kernel Locked.hooks (onePage w) (kva 57343) PGSIZE 0) :=
    drops_empty.deallocuvm hi.toLayout (fun _ _ => trivial) rfl hu (by decide) (by decide)
  obtain ⟨⟨r, s'⟩, hx, hr, fl', hrel⟩ := hends.returns fun _ => False.elim
  obtain rfl : r = 0 := hr
  exact ⟨s', fl', hx, hrel⟩

theorem deallocuvm_exact_one_page : ∃ s', deallocuvm kernel Locked.hooks (onePage (.ofNat 32 (PGSIZE * 57277 + 7))) (kva 57343) PGSIZE 0 =
    .ok (0, s') ∧ pteAt s' (kva 57343) 0 = 0#32 := by
  have hi := image_onePage (w := .ofNat 32 (PGSIZE * 57277 + 7)) fun _ => frame_ofNat (by decide) (by decide)
  have hu := hi.users (N := fun _ => True) (a := 0) (le_refl KERNBASE) fun _ _ _ => trivial
  obtain ⟨s', -, hx, -⟩ := deallocuvm_onePage hi
  refine ⟨s', hx, (deallocuvm_exact hi.toLayout hu (by decide) (by decide) hx).2.1.mpr (fun x h0 _ h2 hp => ?_)
    0 rfl (by decide) (by decide)⟩
  obtain rfl : x = 0 := by rw [Nat.mod_eq_of_lt h2] at h0; exact h0
  rw [(pagedir_onePage _).pteAt, pte_onePage, has_PTE_P_seven] at hp
  cases hp

/-- The entry of a page that has been evicted stays. -/
theorem deallocuvm_keeps_absent : ¬ ∀ (s s' : Mem Unit) d T fl oldsz newsz r, Layout kernel s d T fl →
    Users kernel (fun _ => True) s d T fl 0 KERNBASE → newsz < oldsz → oldsz ≤ KERNBASE →
    deallocuvm kernel Locked.hooks s (kva d) oldsz newsz = .ok (r, s') →
    ∀ x, x % PGSIZE = 0 → PGROUNDUP newsz ≤ x → x < oldsz → pteAt s' (kva d) x = 0#32 := by
  intro hall
  have hi := image_onePage (w := PTE_SWAP) fun h => absurd h (by decide)
  have hu := hi.users (N := fun _ => True) (a := 0) (le_refl KERNBASE) fun _ _ _ => trivial
  obtain ⟨s', fl', hx, hrel⟩ := deallocuvm_onePage hi
  have hz := hall _ s' _ _ _ _ _ 0 hi.toLayout hu (by decide) (by decide) hx 0 rfl (by decide) (by decide)
  rw [hrel.layout.toPagedir.pteAt, hrel.pte 0 (by decide), pte_onePage, if_neg (by decide)] at hz
  exact absurd hz (by decide)

/-! ## `copyout` -/

/-- The page directories that `setupkvm`, `allocuvm` and `clearpteu` build, with the size that they have been given. -/
inductive Built (K : Kernel) : Mem L → Nat → Nat → Prop
  | setupkvm {s s' : Mem L} {fl : List Nat} {p : Nat} : Free K s fl → Lru (fun _ => False) (· ∈ fl) s →
      Vm.setupkvm K Locked.hooks s = .ok (p, s') → p ≠ 0 → Built K s' p 0
  | allocuvm {s s' : Mem L} {p sz newsz r : Nat} : Built K s p sz → Vm.allocuvm K Locked.hooks s p sz newsz = .ok (r, s') →
      Built K s' p (if r = 0 then sz else r)
  | clearpteu {s s' : Mem L} {p sz uva : Nat} : Built K s p sz → Vm.clearpteu s p uva = .ok s' → Built K s' p sz

/-- An address space with pages up to `sz`, in frames `M`. -/
structure Sized (K : Kernel) (s : Mem L) (d : Nat) (T : Nat → Option Nat) (fl : List Nat) (M : Nat → Prop) (sz : Nat) : Prop where
  image : Image K s d T fl
  inside : Inside M s d T fl
  lru : Lru (· = d) M s
  below : ∀ x, PGROUNDDOWN x < sz → has (pte s T x) PTE_P = true
  above : ∀ x, PGROUNDUP sz ≤ x → x < KERNBASE → has (pte s T x) PTE_P = false
  size : sz < KERNBASE

theorem has_PTE_U_kernelPte (K : Kernel) (x : Nat) : has ((kernelPte (kmap K) x).getD 0#32) PTE_U = false := by
  unfold kernelPte
  cases hf : (kmap K).find? (·.covers x) with
  | none => exact has_zero _
  | some k =>
    have hk := (kmap_ok K).1 k (mem_of_find?_eq_some hf)
    have hc : k.covers x = true := find?_some (p := fun k : Kmap => k.covers x) hf
    have hv := hk.virt
    have hp := hk.phys
    apply hk.user
    simp only [PGROUNDDOWN, PGSIZE] at *
    omega

theorem Lru.mono {O O' : Nat → Prop} (h : Lru O M s) (hO : ∀ d, O d → O' d) : Lru O' M s :=
  ⟨h.shape, h.entry.imp id fun ⟨d, hd, hlt, ho⟩ => ⟨d, hd, hlt, ho.imp (hO d) id⟩⟩

theorem Fresh.sized (hr : Fresh K s fl s' d T fl') (hj : Lru (fun _ => False) (· ∈ fl) s')
    (hk : ∀ x, x < 2 ^ 32 → pte s' T x = (kernelPte (kmap K) x).getD 0#32) : Sized K s' d T fl' (· ∈ fl) 0 := by
  have hK : KERNBASE < 2 ^ 32 := by decide
  have hz (x : Nat) (hx : x < KERNBASE) : has (pte s' T x) PTE_P = false := by
    rw [hk x (by omega), kernelPte_user hx]
    exact has_zero _
  have hno {P : Prop} (x : Nat) (hx : x < KERNBASE) (hp : has (pte s' T x) PTE_P = true) : P := by
    rw [hz x hx] at hp
    cases hp
  have himg : Image K s' d T fl' :=
    { hr.layout with
      user := fun x hx hp => hno x hx hp
      single := fun x y hx _ hp => hno x hx hp
      kernel := fun x _ hx => by rw [hk x hx]; exact has_PTE_U_kernelPte K x
      busy := fun x hx hp => hno x hx hp }
  refine ⟨himg, ⟨?_, fun x hx hp => hno x hx hp⟩, hj.mono fun _ => False.elim, fun x hx => by omega, fun x _ hx => hz x hx, by decide⟩
  rintro g (hg | ho)
  · exact hr.suffix.mem hg
  · exact hr.owns g ho

theorem below_size (hsz : sz < KERNBASE) (hx : PGROUNDDOWN x < sz) : ¬ PGROUNDUP sz ≤ x ∧ x < 2 ^ 32 := by
  simp only [PGROUNDUP, PGROUNDDOWN, PGSIZE, KERNBASE] at *
  omega

theorem above_size (hsz : sz < KERNBASE) (hx : sz ≤ PGROUNDDOWN x) : PGROUNDUP sz ≤ x := by
  simp only [PGROUNDUP, PGROUNDDOWN, PGSIZE, KERNBASE] at *
  omega

theorem Sized.grown (h : Sized K s d T fl M sz) (hle : sz ≤ newsz) (hb : newsz < KERNBASE)
    (hg : Grown K (Lru (· = d) M) s d T fl (PGROUNDUP sz) (max (PGROUNDUP sz) (PGROUNDUP newsz)) s' T' fl') :
    Sized K s' d T' fl' M newsz := by
  have hK : KERNBASE + PGSIZE < 2 ^ 32 := by decide
  have h1 := pgroundup_spec h.size
  have h2 := pgroundup_spec hb
  refine ⟨hg.image, hg.inside h.inside, hg.inv, fun x hx => ?_, fun x hx1 hx2 => ?_, hb⟩
  · by_cases hin : PGROUNDUP sz ≤ x ∧ x < max (PGROUNDUP sz) (PGROUNDUP newsz)
    · obtain ⟨f, -, hu, hpte, -⟩ := hg.page x hin.1 hin.2
      rw [hpte]
      exact (user_entry hu.lt).1
    · have hlow : PGROUNDDOWN x < sz := lt_of_not_ge fun hle => hin ⟨above_size h.size hle, by
        have := below_size hb hx
        omega⟩
      rw [hg.old x (below_size hb hx).2 hin]
      exact h.below x hlow
  · have hup : PGROUNDUP sz ≤ PGROUNDUP newsz := by
      simp only [PGROUNDUP, PGSIZE, KERNBASE] at hb ⊢
      omega
    rw [hg.old x (by omega) (by omega)]
    exact h.above x (by omega) hx2

theorem Sized.undone (h : Sized K s d T fl M sz) (hu : Undone K (Lru (· = d) M) M s d T s' T' fl') : Sized K s' d T' fl' M sz := by
  have hK : KERNBASE + PGSIZE < 2 ^ 32 := by decide
  have hsz := h.size
  refine ⟨hu.image, hu.inside, hu.inv, fun x hx => ?_, fun x hx1 hx2 => ?_, h.size⟩
  · rw [hu.present x (below_size hsz hx).2]
    exact h.below x hx
  · rw [hu.present x (by omega)]
    exact h.above x hx1 hx2

theorem clearU_flags (w : BitVec 32) :
    has (w &&& ~~~PTE_U) PTE_P = has w PTE_P ∧ has (w &&& ~~~PTE_U) PTE_U = false ∧ frame (w &&& ~~~PTE_U) = frame w := by
  refine ⟨?_, ?_, ?_⟩
  · rw [has_PTE_P, has_PTE_P, BitVec.getLsbD_and]
    simp [PTE_U]
  · rw [has_PTE_U, BitVec.getLsbD_and]
    simp [PTE_U]
  · exact frame_and rfl w

theorem Sized.clearpteu {uva : Nat} (h : Sized K s d T fl M sz) (hx : clearpteu s (kva d) uva = .ok s') : Sized K s' d T fl M sz := by
  have hi := h.image
  simp only [Vm.clearpteu, hi.toPagedir.walk, bind, Except.bind] at hx
  cases ht : T (PDX uva) with
  | none =>
    rw [ht] at hx
    cases hx
  | some t =>
    obtain ⟨s1, hst, he, hm, hgr, hpte⟩ := hi.toLayout.setEntry ht (pte s T uva &&& ~~~PTE_U)
    rw [ht] at hx
    simp only [show kva t + 4 * PTX uva ≠ 0 by simp [kva, KERNBASE], if_false, hi.toPagedir.load ht, hst] at hx
    obtain rfl : s1 = s' := ok.inj hx
    have hflags (x : Nat) : has (pte s1 T x) PTE_P = has (pte s T x) PTE_P ∧ frame (pte s1 T x) = frame (pte s T x) := by
      rw [hpte]
      split
      · rename_i hs
        rw [pte_samePage hs]
        exact ⟨(clearU_flags _).1, (clearU_flags _).2.2⟩
      · exact ⟨rfl, rfl⟩
    have hP (x : Nat) := (hflags x).1
    have hF (x : Nat) := (hflags x).2
    have himg : Image K s1 d T fl :=
      { hgr.layout with
        user := by simp only [hP, hF]; exact hi.user
        single := by simp only [hP, hF]; exact hi.single
        kernel := fun x h1 h2 => by
          rw [hpte]
          split
          · exact (clearU_flags _).2.1
          · exact hi.kernel x h1 h2
        busy := by simp only [hP, hF]; exact hi.busy }
    refine ⟨himg, ⟨h.inside.1, by simp only [hP, hF]; exact h.inside.2⟩, h.lru.stable (fun g hg => hm g ?_) he,
      by simp only [hP]; exact h.below, by simp only [hP]; exact h.above, h.size⟩
    rintro rfl
    exact hg (h.inside.1 g (.inr (.inr ⟨_, ht⟩)))

theorem Sized.allocuvm (h : Sized K s d T fl M sz) (hx : allocuvm K Locked.hooks s (kva d) sz newsz = .ok (r, s')) :
    ∃ T' fl', Sized K s' d T' fl' M (if r = 0 then sz else r) := by
  have hd := h.image.dir.lt
  by_cases hb : newsz ≥ KERNBASE
  · rw [Vm.allocuvm, if_pos hb] at hx
    cases hx
    exact ⟨T, fl, by rw [if_pos rfl]; exact h⟩
  by_cases hlt : newsz < sz
  · rw [Vm.allocuvm, if_neg hb, if_pos hlt] at hx
    cases hx
    refine ⟨T, fl, ?_⟩
    split
    · exact h
    · exact h
  have hends : Ends _ _ (Vm.allocuvm K Locked.hooks s (kva d) sz newsz) :=
    (takes_user hd).allocuvm drops_user ages_user trivial trivial h.image h.inside h.lru (by omega) (by omega) h.above
  rcases hends.of_ok hx with ⟨hr, T', fl', hu⟩ | ⟨hr, T', fl', hg⟩
  · exact ⟨T', fl', by rw [if_pos hr]; exact h.undone hu⟩
  · have hs := h.grown (by omega) (by omega) hg
    refine ⟨T', fl', ?_⟩
    split
    · rename_i h0
      obtain rfl : newsz = 0 := by rw [← hr]; exact h0
      obtain rfl : sz = 0 := by omega
      exact hs
    · rw [show r = newsz from hr]
      exact hs

theorem Built.sized (h : Built K s p sz) : ∃ d T fl M, p = kva d ∧ Sized K s d T fl M sz := by
  induction h with
  | setupkvm hf hl hx hne =>
    rename_i s s' fl p
    rcases (ends_setupkvm hf hl).of_ok hx with ⟨h0, _⟩ | ⟨d, T, fl', hp, hr, hj, _, hk, _⟩
    · exact absurd h0 hne
    · exact ⟨d, T, fl', (· ∈ fl), hp, hr.sized hj hk⟩
  | allocuvm _ hx ih =>
    obtain ⟨d, T, fl, M, rfl, hs⟩ := ih
    obtain ⟨T', fl', hs'⟩ := hs.allocuvm hx
    exact ⟨d, T', fl', M, rfl, hs'⟩
  | clearpteu _ hx ih =>
    obtain ⟨d, T, fl, M, rfl, hs⟩ := ih
    exact ⟨d, T, fl, M, rfl, hs.clearpteu hx⟩

def UserAt (s : Mem L) (pgdir va : Nat) : Prop := has (pteAt s pgdir va) PTE_P = true ∧ has (pteAt s pgdir va) PTE_U = true

def TableAt (s : Mem L) (pgdir va : Nat) : Prop := has (s.word (V2P pgdir + 4 * PDX va)) PTE_P = true

theorem Pagedir.userAt (hd : Pagedir K s d T) (va : Nat) : UserAt s (kva d) va ↔ UserPage s T va := by
  rw [UserAt, UserPage, hd.pteAt]

theorem Pagedir.tableAt (hd : Pagedir K s d T) (va : Nat) : TableAt s (kva d) va ↔ T (PDX va) ≠ none := by
  have h1 := pdx_lt va
  rw [TableAt, V2P_kva hd.dir.lt, State.word, div_page (by omega), mod_page (by omega)]
  cases ht : T (PDX va) with
  | none => simp [hd.absent _ (pdx_lt_npdentries va) ht]
  | some t => simp [(hd.present _ t ht).1]

theorem Uvm.copied_owns {m len : Nat} {buf : Nat → BitVec 8} (hu : Uvm K s d T) (hc : Copied s T va len m buf s')
    (hK : ∀ x, va ≤ x → x < m → x < KERNBASE) (hg : Owns d T g) : s'.mem g = s.mem g := by
  apply ext'
  intro i
  have := hc.wrote.other g i.val i.isLt fun x hx1 hx2 he _ =>
    (hu.user x (hK x hx1 hx2) (hc.pages x hx1 hx2).1).2 (by rw [he]; exact hg)
  rwa [get_of_lt _ i.isLt, get_of_lt _ i.isLt] at this

/-- `copyout` stops at the first address `m` that is not on a user page: the bytes before `m` are written, no other byte changes, and the
result is 0 if `m` is the end of the range. It does so exactly if the directory has a page table for `m`. -/
theorem copyout_respects {len : Nat} (hb : Built K s p sz) (buf : Nat → BitVec 8) (hva : va < 2 ^ 32) :
    (∃ m s', copyout p (len / PGSIZE + 2) s va buf len = .ok (decide (m = va + len), s') ∧
      (m = va + len ↔ ∀ x, va ≤ x → x < va + len → UserAt s p x) ∧ va ≤ m ∧ m ≤ va + len ∧
      (∀ x, va ≤ x → x < m → UserAt s p x ∧ pteAt s' p x = pteAt s p x ∧ userByte s' p x = some (buf (x - va))) ∧
      (∀ g o, o < PGSIZE → (∀ x, va ≤ x → x < m → frame (pteAt s p x) = g → x % PGSIZE ≠ o) →
        (s'.mem g).get o = (s.mem g).get o) ∧ s'.freelist = s.freelist ∧ s'.cr3 = s.cr3 ∧ s'.ext = s.ext) ↔
    ∀ x, va ≤ x → x < va + len → (∀ y, va ≤ y → y < x → UserAt s p y) → TableAt s p x := by
  obtain ⟨d, T, fl, M, rfl, hs⟩ := hb.sized
  have hu : Uvm K s d T := hs.image.toUvm
  have hd := hu.toPagedir
  have hfuel : va % PGSIZE + len ≤ PGSIZE * (len / PGSIZE + 2) := by
    simp only [PGSIZE]
    omega
  simp only [hd.userAt, hd.tableAt]
  rcases hu.copyout buf (len / PGSIZE + 2) hfuel hva with ⟨m, s', hx, hc⟩ | ⟨hx, hn⟩
  swap
  · refine ⟨?_, fun h => absurd h hn⟩
    rintro ⟨m, s', h, -⟩
    cases hx.symm.trans h
  refine ⟨fun _ => hc.walkable, fun _ => ?_⟩
  have hend : m = va + len ↔ ∀ x, va ≤ x → x < va + len → UserPage s T x := by
    refine ⟨fun he x h1 h2 => hc.pages x h1 (by omega), fun h => ?_⟩
    apply Classical.byContradiction
    intro hne
    have hle := hc.le_end
    exact hc.stop (by omega) (h m hc.le (by omega))
  have hlow (x : Nat) (h1 : va ≤ x) (h2 : x < m) : x < KERNBASE := by
    have hK := hu.lt_kernbase hva (hc.pages va (le_refl va) (by omega))
    have := hu.le_kernbase hK.le hc.pages
    omega
  have howns {g : Nat} (hg : Owns d T g) : s'.mem g = s.mem g := hu.copied_owns hc hlow hg
  have hd' : Pagedir K s' d T := hd.congr (howns (.inl rfl))
  have hpte := pte_congr fun g (hg : Owns d T g) => howns hg
  refine ⟨m, s', hx, hend, hc.le, hc.le_end, fun x h1 h2 => ⟨hc.pages x h1 h2, ?_, ?_⟩, ?_, hc.wrote.freelist, hc.wrote.cr3, hc.wrote.ext⟩
  · rw [hd'.pteAt, hd.pteAt, hpte]
  · rw [hd'.userByte (by rw [hpte]; exact (hc.pages x h1 h2).1), hpte, hc.wrote.bytes x h1 h2]
  · simp only [hd.pteAt]
    exact hc.wrote.other

theorem copyout_respects_kernel_page : ∃ s p, Built kernel (L := Unit) s p 0 ∧
    ∃ s', copyout p 2 s KERNBASE (fun _ => 0x41#8) 4 = .ok (false, s') := by
  obtain ⟨d, T, s', fl', hx, hf, hk, -⟩ := setupkvm_returns (free_onePage 0#32) (.inl rfl) frames_onePage
  have hb : Built kernel s' (kva d) 0 := .setupkvm (free_onePage 0#32) (lru_onePage 0 _ _) hx kva_ne_zero
  have hd := hf.layout.toPagedir
  have hP : has (pteAt s' (kva d) KERNBASE) PTE_P = true := by
    rw [hd.pteAt, hk _ (by decide), kernelPte_kmap kernel (by decide)]
    decide
  have hU : ¬ UserAt s' (kva d) KERNBASE := by
    rw [UserAt, hd.pteAt, hk _ (by decide), has_PTE_U_kernelPte]
    simp
  have htab : TableAt s' (kva d) KERNBASE := by
    apply Classical.byContradiction
    intro hn
    rw [TableAt] at hn
    rw [pteAt, if_neg hn] at hP
    exact absurd hP (by decide)
  have htabs (x : Nat) (h1 : KERNBASE ≤ x) (h2 : x < KERNBASE + 4) (_ : ∀ y, KERNBASE ≤ y → y < x → UserAt s' (kva d) y) :
      TableAt s' (kva d) x := by
    have hpd : PDX x = PDX KERNBASE := by
      simp only [PDX, KERNBASE] at *
      omega
    rw [TableAt, hpd]
    exact htab
  obtain ⟨m, s'', hc, hend, -⟩ := (copyout_respects hb (fun _ => 0x41#8) (by decide)).mpr htabs
  have hm : decide (m = KERNBASE + 4) = false := decide_eq_false fun he => hU (hend.mp he _ le_rfl (by omega))
  rw [hm] at hc
  exact ⟨s', kva d, hb, s'', hc⟩

theorem kmap_hole {k : Kmap} (hk : k ∈ kmap K) (hc : k.covers x) : PDX x ≠ 960 := by
  have hle := ((kmap_ok K).1 k hk).virt_le
  have hlt := of_decide_eq_true hc
  have hsome : kernelPte (kmap K) x ≠ none := by
    simp only [kernelPte, ne_eq, Option.map_eq_none_iff, find?_eq_none]
    exact fun h => h k hk hc
  rw [kernelPte_kmap K (by omega), kernelMap] at hsome
  intro hp
  simp only [PDX] at hp
  split at hsome
  · rename_i h
    simp only [KERNBASE, PHYSTOP] at h
    omega
  · split at hsome
    · rename_i h
      simp only [DEVSPACE] at h
      omega
    · exact hsome rfl

/-- Above the kernel's memory, and below the devices, there is no page table, and `uva2ka` follows the null pointer. -/
theorem copyout_reads_null : ¬ ∀ (K : Kernel) (s : Mem Unit) (p sz va len : Nat) (buf : Nat → BitVec 8), Built K s p sz → va < 2 ^ 32 →
    copyout p (len / PGSIZE + 2) s va buf len ≠ .error .null := by
  intro hall
  obtain ⟨d, T, s', fl', hx, hf, -, hT⟩ := setupkvm_returns (free_onePage 0#32) (.inl rfl) frames_onePage
  have hb : Built kernel s' (kva d) 0 := .setupkvm (free_onePage 0#32) (lru_onePage 0 _ _) hx kva_ne_zero
  have hn : T (PDX 0xF0000000) = none := hT 960 fun k hk x hc => kmap_hole hk hc
  have hw := hf.layout.toPagedir.walk 0xF0000000
  rw [hn] at hw
  refine hall kernel s' (kva d) 0 0xF0000000 4 (fun _ => 0#8) hb (by decide) ?_
  rw [Vm.copyout, if_neg (by decide), Vm.uva2ka, show PGROUNDDOWN 0xF0000000 = 0xF0000000 from by decide, hw]
  rfl

/-! ## `growproc` -/

theorem addInt_pos (hsz : sz < KERNBASE) (hn : n.toInt > 0) : (addInt sz n : Int) = sz + n.toInt := by
  have hlt := n.isLt
  rw [BitVec.toInt_eq_toNat_cond] at hn ⊢
  simp only [addInt, KERNBASE] at *
  omega

theorem addInt_neg (hsz : sz < KERNBASE) (hn : n.toInt < 0) :
    if 0 ≤ sz + n.toInt then (addInt sz n : Int) = sz + n.toInt else sz < addInt sz n := by
  have hlt := n.isLt
  have hval : n.toInt = (n.toNat : Int) - 2 ^ 32 ∧ 2 ^ 31 ≤ n.toNat := by
    rw [BitVec.toInt_eq_toNat_cond] at hn ⊢
    omega
  simp only [addInt, KERNBASE] at *
  split <;> omega

theorem userByte_congr (hd : Pagedir K s d T) (hd' : Pagedir K s' d T') (hP : has (pte s' T' x) PTE_P = has (pte s T x) PTE_P)
    (hm : has (pte s T x) PTE_P = true → frame (pte s' T' x) = frame (pte s T x) ∧
      s'.mem (frame (pte s T x)) = s.mem (frame (pte s T x))) : userByte s' (kva d) x = userByte s (kva d) x := by
  cases hp : has (pte s T x) PTE_P with
  | false => rw [userByte, userByte, hd.pteAt, hd'.pteAt, hP, hp, if_neg Bool.false_ne_true, if_neg Bool.false_ne_true]
  | true =>
    obtain ⟨hf, hmem⟩ := hm hp
    rw [hd.userByte hp, hd'.userByte (by rw [hP, hp]), hf, hmem]

theorem Grown.userByte_old (hi : Image K s d T fl) (hg : Grown K J s d T fl a b s' T' fl')
    (hx : x < KERNBASE) (hout : ¬ (a ≤ x ∧ x < b)) : userByte s' (kva d) x = userByte s (kva d) x := by
  have hpte := hg.old x (hx.trans (by decide)) hout
  refine userByte_congr hi.toPagedir hg.image.toPagedir (by rw [hpte]) fun hp => ⟨by rw [hpte], hg.mem _ (hi.busy x hx hp) ?_⟩
  exact (hi.user x hx hp).2

theorem Grown.userByte_new (hg : Grown K J s d T fl a b s' T' fl') (h1 : a ≤ x) (h2 : x < b) : userByte s' (kva d) x = some 0#8 := by
  obtain ⟨f, -, hu, hpte, hm⟩ := hg.page x h1 h2
  obtain ⟨hP, -, hF⟩ := user_entry hu.lt
  rw [hg.image.toPagedir.userByte (by rw [hpte]; exact hP), hpte, hF, hm, get_fill_zero]

theorem Undone.userByte (hi : Image K s d T fl) (hu : Undone K J M s d T s' T' fl')
    (hx : x < KERNBASE) : userByte s' (kva d) x = userByte s (kva d) x := by
  have hlt := hx.trans (show KERNBASE < 2 ^ 32 by decide)
  exact userByte_congr hi.toPagedir hu.image.toPagedir (hu.present x hlt) fun hp => ⟨(hu.aged x hlt hp).flags.2.2, hu.mem x hx hp⟩

theorem Released.userByte (hi : Image K s d T fl) (hr : Released K J s d T fl a b s' fl')
    (hx : x < KERNBASE) (hxa : x < a) (ha : a % PGSIZE = 0) (hb : b ≤ KERNBASE) : Vm.userByte s' (kva d) x = userByte s (kva d) x := by
  have hpte : Vm.pte s' T x = Vm.pte s T x := by
    rw [hr.pte x (hx.trans (by decide)), if_neg fun h => absurd h.1 (by omega)]
  refine userByte_congr hi.toPagedir hr.layout.toPagedir (by rw [hpte]) fun hp => ⟨by rw [hpte], hr.mem _ (fun hfl => ?_) ?_⟩
  · rcases (hr.frames _).mp hfl with hfl | ⟨y, -, hy1, hy2, hyp, he⟩
    · exact hi.busy x hx hp hfl
    · have := hi.single y x (by omega) hx hyp hp he
      simp only [PGSIZE] at *
      omega
  · exact (hi.user x hx hp).2

theorem Sized.released (h : Sized K s d T fl M sz) (hle : newsz ≤ sz)
    (hr : Released K (Lru (· = d) M) s d T fl (PGROUNDUP newsz) sz s' fl') : Sized K s' d T fl' M newsz := by
  have hK : KERNBASE + PGSIZE < 2 ^ 32 := by decide
  have hsz := h.size
  have hup := pgroundup_spec (show newsz < KERNBASE by omega)
  have hp (x : Nat) (hx : x < 2 ^ 32) (hp : has (pte s' T x) PTE_P = true) : pte s' T x = pte s T x := by
    rw [hr.pte x hx] at hp ⊢
    split at hp
    · rw [has_zero] at hp
      cases hp
    · rw [if_neg (by assumption)]
  refine ⟨h.image.released hr hup.1 hsz.le, ⟨?_, fun x hx hpx => ?_⟩, hr.inv, fun x hx => ?_, fun x h1 h2 => ?_, by omega⟩
  · rintro g (hg | hg)
    · rcases (hr.frames g).mp hg with hg | ⟨x, -, -, hx, hpx, he⟩
      · exact h.inside.1 g (.inl hg)
      · rw [← he]
        exact h.inside.2 x (by omega) hpx
    · exact h.inside.1 g (.inr hg)
  · have he := hp x (by omega) hpx
    rw [he] at hpx ⊢
    exact h.inside.2 x hx hpx
  · obtain ⟨hlow, hlt⟩ : ¬ PGROUNDUP newsz ≤ x ∧ x < 2 ^ 32 := below_size (by omega) hx
    rw [hr.pte x hlt, if_neg fun hc => hlow hc.1]
    exact h.below x (by omega)
  · rw [hr.pte x (by omega)]
    split
    · exact has_zero _
    · rename_i hn
      by_cases hin : PGROUNDDOWN x < sz
      · exact Bool.eq_false_iff.mpr fun hpx => hn ⟨h1, hin, hpx⟩
      · exact h.above x (above_size hsz (by omega)) h2

theorem Sized.switchuvm (h : Sized K s d T fl M sz) (c : Nat) : Sized K { s with cr3 := c } d T fl M sz := by
  have hi := h.image
  have himg : Image K { s with cr3 := c } d T fl := hi.aged rfl (fun _ => .inl rfl) (fun _ _ => rfl) rfl
  exact ⟨himg, h.inside, h.lru.stable (fun _ _ => rfl) rfl, h.below, h.above, h.size⟩

/-- What `growproc` does to the memory of a process of size `sz` when it returns 0 with size `newsz`. -/
structure Resized (s : Mem L) (pgdir sz newsz : Nat) (s' : Mem L) : Prop where
  lt : newsz < KERNBASE
  mapped : ∀ x, PGROUNDDOWN x < newsz → has (pteAt s' pgdir x) PTE_P = true
  zeroed : ∀ x, PGROUNDUP sz ≤ x → x < newsz → userByte s' pgdir x = some 0#8
  kept : ∀ x, x < min sz newsz → userByte s' pgdir x = userByte s pgdir x

/-- What it does when it returns -1: `PTE_A` may have been cleared in a search for a victim. -/
structure Unchanged (s : Mem L) (pgdir : Nat) (s' : Mem L) : Prop where
  present : ∀ x, x < KERNBASE → has (pteAt s' pgdir x) PTE_P = has (pteAt s pgdir x) PTE_P
  entry : ∀ x, x < KERNBASE → has (pteAt s pgdir x) PTE_P = true → Aged (pteAt s pgdir x) (pteAt s' pgdir x)
  bytes : ∀ x, x < KERNBASE → userByte s' pgdir x = userByte s pgdir x

theorem Resized.switchuvm (h : Resized s p sz newsz s') (c : Nat) : Resized s p sz newsz { s' with cr3 := c } :=
  ⟨h.lt, h.mapped, h.zeroed, h.kept⟩

theorem Undone.unchanged (hi : Image K s d T fl) (hu : Undone K J M s d T s' T' fl') : Unchanged s (kva d) s' := by
  have hK (x : Nat) (hx : x < KERNBASE) : x < 2 ^ 32 := hx.trans (by decide)
  have hpte (x : Nat) := hi.toPagedir.pteAt x
  have hpte' (x : Nat) := hu.image.toPagedir.pteAt x
  refine ⟨fun x hx => ?_, fun x hx => ?_, fun x hx => hu.userByte hi hx⟩
  · rw [hpte, hpte']
    exact hu.present x (hK x hx)
  · rw [hpte, hpte']
    exact hu.aged x (hK x hx)

theorem Grown.resized (h : Sized K s d T fl M sz) (hle : sz ≤ newsz) (hb : newsz < KERNBASE)
    (hg : Grown K (Lru (· = d) M) s d T fl (PGROUNDUP sz) (max (PGROUNDUP sz) (PGROUNDUP newsz)) s' T' fl') :
    Resized s (kva d) sz newsz s' := by
  have h1 := pgroundup_spec h.size
  have h2 := pgroundup_spec hb
  refine ⟨hb, fun x hx => ?_, fun x hx1 hx2 => hg.userByte_new hx1 (by omega), fun x hx => ?_⟩
  · rw [hg.image.toPagedir.pteAt]
    exact (h.grown hle hb hg).below x hx
  · have hsz := h.size
    exact hg.userByte_old h.image (by omega) (by omega)

theorem Sized.resized_refl (h : Sized K s d T fl M sz) : Resized s (kva d) sz sz s := by
  have hup := pgroundup_spec h.size
  refine ⟨h.size, fun x hx => ?_, fun x h1 h2 => ?_, fun _ _ => rfl⟩
  · rw [h.image.toPagedir.pteAt]
    exact h.below x hx
  · omega

theorem Released.resized (h : Sized K s d T fl M sz) (hle : newsz ≤ sz)
    (hr : Released K (Lru (· = d) M) s d T fl (PGROUNDUP newsz) sz s' fl') : Resized s (kva d) sz newsz s' := by
  have hsz := h.size
  have hup := pgroundup_spec hsz
  have hup' := pgroundup_spec (show newsz < KERNBASE by omega)
  refine ⟨by omega, fun x hx => ?_, fun x h1 h2 => ?_, fun x hx => ?_⟩
  · rw [hr.layout.toPagedir.pteAt]
    exact (h.released hle hr).below x hx
  · omega
  · exact hr.userByte h.image (by omega) (by omega) hup'.1 hsz.le

theorem Sized.growproc {M : Nat → Prop} {rc : Int} {p' : Task} (h : Sized K s d T fl M sz) (n : BitVec 32)
    (hn : ¬ (n.toInt < 0 ∧ 0 < sz ∧ sz + n.toInt ≤ 0)) (hx : growproc K Locked.hooks s ⟨kva d, sz⟩ n = .ok (rc, p', s')) :
    p'.pgdir = kva d ∧ (∃ T' fl', Sized K s' d T' fl' M p'.sz) ∧
    (rc = 0 ∧ (p'.sz : Int) = sz + n.toInt ∧ Resized s (kva d) sz p'.sz s' ∨
      rc = -1 ∧ p'.sz = sz ∧ Unchanged s (kva d) s') := by
  have hsz := h.size
  have hd := h.image.dir.lt
  have hsame : Unchanged s (kva d) s := ⟨fun _ _ => rfl, fun _ _ _ => .inl rfl, fun _ _ => rfl⟩
  rw [Vm.growproc] at hx
  by_cases hpos : n.toInt > 0
  · have hadd := addInt_pos hsz hpos
    rw [if_pos hpos] at hx
    by_cases hb : addInt sz n ≥ KERNBASE
    · rw [Vm.allocuvm, if_pos hb] at hx
      cases hx
      exact ⟨rfl, ⟨T, fl, h⟩, .inr ⟨rfl, rfl, hsame⟩⟩
    · have hends : Ends _ _ (Vm.allocuvm K Locked.hooks s (kva d) sz (addInt sz n)) :=
        (takes_user hd).allocuvm drops_user ages_user trivial trivial h.image h.inside h.lru (by omega) (by omega) h.above
      obtain ⟨⟨r, s1⟩, ha, hx⟩ := of_bind_ok hx
      dsimp only at hx
      rcases hends.of_ok ha with ⟨hr, T', fl', hu⟩ | ⟨hr, T', fl', hg⟩
      · rw [if_pos hr] at hx
        cases hx
        exact ⟨rfl, ⟨T', fl', h.undone hu⟩, .inr ⟨rfl, rfl, hu.unchanged h.image⟩⟩
      · obtain rfl : r = addInt sz n := hr
        rw [if_neg (by omega)] at hx
        cases hx
        exact ⟨rfl, ⟨T', fl', (h.grown (by omega) (by omega) hg).switchuvm _⟩,
          .inl ⟨rfl, hadd, (hg.resized h (by omega) (by omega)).switchuvm _⟩⟩
  · rw [if_neg hpos] at hx
    by_cases hneg : n.toInt < 0
    · have hadd := addInt_neg hsz hneg
      rw [if_pos hneg] at hx
      by_cases hge : addInt sz n ≥ sz
      · -- the size is 0, since the sum has wrapped
        obtain rfl : sz = 0 := by
          split at hadd <;> omega
        rw [Vm.deallocuvm, if_pos hge] at hx
        cases hx
        exact ⟨rfl, ⟨T, fl, h⟩, .inr ⟨rfl, rfl, hsame⟩⟩
      · have hsum : (addInt sz n : Int) = sz + n.toInt := by
          split at hadd <;> omega
        have hends : Ends _ _ (Vm.deallocuvm K Locked.hooks s (kva d) sz (addInt sz n)) :=
          drops_user.deallocuvm h.image.toLayout h.inside.1 h.lru (h.image.users hsz.le h.inside.2) (by omega) hsz.le
        obtain ⟨⟨r, s1⟩, ha, hx⟩ := of_bind_ok hx
        dsimp only at hx
        obtain ⟨hr, fl', hrel⟩ := hends.of_ok ha
        obtain rfl : r = addInt sz n := hr
        rw [if_neg (by omega)] at hx
        cases hx
        exact ⟨rfl, ⟨T, fl', (h.released (by omega) hrel).switchuvm _⟩,
          .inl ⟨rfl, hsum, (hrel.resized h (by omega)).switchuvm _⟩⟩
    · rw [if_neg hneg] at hx
      cases hx
      exact ⟨rfl, ⟨T, fl, h.switchuvm _⟩, .inl ⟨rfl, by dsimp only; omega, h.resized_refl.switchuvm _⟩⟩

end Xv6.Vm
