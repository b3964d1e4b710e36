import Xv6.Vm.Lemmas.Release

/-! # Address spaces of processes -/

namespace Xv6.Vm

open Xv6.Lib

attribute [local irreducible] V2P P2V NPDENTRIES

variable {σ : Type} {K : Kernel} {s s' s1 : State σ} {d t va m n x y len : Nat} {T : Nat → Option Nat} {buf : Nat → BitVec 8}

structure Uvm (K : Kernel) (s : State σ) (d : Nat) (T : Nat → Option Nat) : Prop extends Pagedir K s d T where
  user : ∀ x, x < KERNBASE → has (pte s T x) PTE_P = true → Usable K (frame (pte s T x)) ∧ ¬ Owns d T (frame (pte s T x))
  single : ∀ x y, x < KERNBASE → y < KERNBASE → has (pte s T x) PTE_P = true → has (pte s T y) PTE_P = true →
    frame (pte s T x) = frame (pte s T y) → x / PGSIZE = y / PGSIZE
  kernel : ∀ x, KERNBASE ≤ x → x < 2 ^ 32 → has (pte s T x) PTE_U = false

def UserPage (s : State σ) (T : Nat → Option Nat) (x : Nat) : Prop :=
  has (pte s T x) PTE_P = true ∧ has (pte s T x) PTE_U = true

instance (s : State σ) (T : Nat → Option Nat) (x : Nat) : Decidable (UserPage s T x) := by unfold UserPage; infer_instance

theorem Uvm.lt_kernbase (hu : Uvm K s d T) (hx : x < 2 ^ 32) (hp : UserPage s T x) : x < KERNBASE := by
  apply lt_of_not_ge
  intro hle
  have hU := hp.2
  rw [hu.kernel x hle hx] at hU
  cases hU

theorem Uvm.congr (hu : Uvm K s d T) (hm : ∀ g, Owns d T g → s'.mem g = s.mem g) : Uvm K s' d T := by
  have hpte := pte_congr hm
  refine ⟨hu.toPagedir.congr (hm d (.inl rfl)), ?_, ?_, ?_⟩
  · simp only [hpte]; exact hu.user
  · simp only [hpte]; exact hu.single
  · simp only [hpte]; exact hu.kernel

/-! ## `uva2ka` -/

theorem samePage_rounddown (va : Nat) : SamePage (PGROUNDDOWN va) va := by
  simp only [SamePage, PDX, PTX, PGROUNDDOWN, PGSIZE]
  omega

theorem Uvm.uva2ka (hu : Uvm K s d T) (hva : va < 2 ^ 32) (ht : T (PDX va) = some t) :
    uva2ka s (kva d) (PGROUNDDOWN va) = .ok (if UserPage s T va then kva (frame (pte s T va)) else 0) := by
  have hs := samePage_rounddown va
  have ht' : T (PDX (PGROUNDDOWN va)) = some t := by rw [hs.1]; exact ht
  have hwalk := hu.toPagedir.walk (PGROUNDDOWN va)
  rw [ht'] at hwalk
  have hne : kva t + 4 * PTX (PGROUNDDOWN va) ≠ 0 := by simp [kva, KERNBASE]
  simp only [Vm.uva2ka, readPte, hwalk, if_neg hne, hu.toPagedir.load ht', pte_samePage hs, bind, Except.bind, pure, Except.pure]
  by_cases hp : UserPage s T va
  · rw [if_pos hp, if_pos ⟨hp.1, hp.2⟩, pte_addr, P2V_frame (hu.user va (hu.lt_kernbase hva hp) hp.1).1.lt]
  · rw [if_neg hp, if_neg fun h => hp ⟨h.1, h.2⟩]

theorem Uvm.uva2ka_null (hu : Uvm K s d T) (ht : T (PDX va) = none) : Vm.uva2ka s (kva d) (PGROUNDDOWN va) = .error .null := by
  have hwalk := hu.toPagedir.walk (PGROUNDDOWN va)
  rw [(samePage_rounddown va).1, ht] at hwalk
  simp [Vm.uva2ka, readPte, hwalk, bind, Except.bind]

/-! ## `copyout` -/

/-- The bytes of `buf` are at the addresses from `va` to `m`, and nothing else has changed. -/
structure Wrote (s : State σ) (T : Nat → Option Nat) (va m : Nat) (buf : Nat → BitVec 8) (s' : State σ) : Prop where
  bytes : ∀ x, va ≤ x → x < m → (s'.mem (frame (pte s T x))).get (x % PGSIZE) = buf (x - va)
  other : ∀ g o, o < PGSIZE → (∀ x, va ≤ x → x < m → frame (pte s T x) = g → x % PGSIZE ≠ o) →
    (s'.mem g).get o = (s.mem g).get o
  freelist : s'.freelist = s.freelist
  cr3 : s'.cr3 = s.cr3
  ext : s'.ext = s.ext

theorem Wrote.refl (s : State σ) (T : Nat → Option Nat) (va : Nat) (buf : Nat → BitVec 8) : Wrote s T va va buf s :=
  ⟨fun x h1 h2 => by omega, fun _ _ _ _ => rfl, rfl, rfl, rfl⟩

theorem wrote_page (hn : va % PGSIZE + n ≤ PGSIZE) (hlt : va + n ≤ 2 ^ 32) :
    Wrote s T va (va + n) buf
      (s.setPage (frame (pte s T va)) ((s.mem (frame (pte s T va))).write (va % PGSIZE) n buf)) := by
  have hpage (x : Nat) (h1 : va ≤ x) (h2 : x < va + n) : x / PGSIZE = va / PGSIZE ∧ x % PGSIZE = va % PGSIZE + (x - va) := by
    simp only [PGSIZE] at *
    omega
  have hmod (x : Nat) : x % PGSIZE < PGSIZE := Nat.mod_lt x (by decide)
  have hpte (x : Nat) (h1 : va ≤ x) (h2 : x < va + n) : pte s T x = pte s T va :=
    pte_samePage ((samePage_iff (by omega) (by omega)).mpr (hpage x h1 h2).1)
  refine ⟨fun x h1 h2 => ?_, fun g o ho hx => ?_, rfl, rfl, rfl⟩
  · have hoff := (hpage x h1 h2).2
    rw [hpte x h1 h2, mem_setPage_self, Bytes.get_write _ _ _ _ (hmod x), if_pos (by omega), hoff, Nat.add_sub_cancel_left]
  · by_cases hg : g = frame (pte s T va)
    · subst hg
      rw [mem_setPage_self, Bytes.get_write _ _ _ _ ho, if_neg]
      intro hr
      have hxo := hx (va + (o - va % PGSIZE)) (by omega) (by omega) (by rw [hpte _ (by omega) (by omega)])
      apply hxo
      have := hpage (va + (o - va % PGSIZE)) (by omega) (by omega)
      omega
    · rw [mem_setPage_ne _ hg]

theorem Uvm.wrote_trans (hu : Uvm K s d T) (h1 : Wrote s T va m buf s1) (h2 : Wrote s1 T m n (fun j => buf (m - va + j)) s')
    (hT : ∀ g, Owns d T g → s1.mem g = s.mem g) (hvm : va ≤ m) (hmn : m ≤ n) (hm : m % PGSIZE = 0)
    (hp : ∀ x, va ≤ x → x < n → x < KERNBASE ∧ has (pte s T x) PTE_P = true) : Wrote s T va n buf s' := by
  have hpte := pte_congr hT
  refine ⟨fun x hx1 hx2 => ?_, fun g o ho hg => ?_, h2.freelist.trans h1.freelist, h2.cr3.trans h1.cr3, h2.ext.trans h1.ext⟩
  · by_cases hlow : x < m
    · rw [h2.other _ _ (Nat.mod_lt x (by decide)), h1.bytes x hx1 hlow]
      intro y hy1 hy2 he
      rw [hpte] at he
      obtain ⟨hyK, hyP⟩ := hp y (by omega) hy2
      obtain ⟨hxK, hxP⟩ := hp x hx1 hx2
      have := hu.single y x hyK hxK hyP hxP he
      simp only [PGSIZE] at *
      omega
    · have hb := h2.bytes x (by omega) hx2
      rw [hpte] at hb
      rw [hb]
      congr 1
      omega
  · rw [h2.other g o ho fun x hx1 hx2 he => hg x (by omega) hx2 (by rw [← hpte]; exact he)]
    exact h1.other g o ho fun x hx1 hx2 => hg x hx1 (by omega)

/-- What `copyout` has done when it ends at `m`: all pages before are user pages, and they have the bytes. -/
structure Copied (s : State σ) (T : Nat → Option Nat) (va len m : Nat) (buf : Nat → BitVec 8) (s' : State σ) : Prop where
  le : va ≤ m
  le_end : m ≤ va + len
  pages : ∀ x, va ≤ x → x < m → UserPage s T x
  stop : m < va + len → ¬ UserPage s T m
  table : m < va + len → T (PDX m) ≠ none
  wrote : Wrote s T va m buf s'

theorem Uvm.le_kernbase (hu : Uvm K s d T) (hva : va ≤ KERNBASE) (hp : ∀ x, va ≤ x → x < m → UserPage s T x) : m ≤ KERNBASE := by
  apply le_of_not_gt
  intro hlt
  exact lt_irrefl _ (hu.lt_kernbase (by decide) (hp KERNBASE hva hlt))

theorem Copied.refl (hp : 0 < len → ¬ UserPage s T va ∧ T (PDX va) ≠ none) : Copied s T va len va buf s :=
  ⟨le_refl va, Nat.le_add_right va len, fun x h1 h2 => by omega, fun h => (hp (by omega)).1, fun h => (hp (by omega)).2, .refl ..⟩

/-- The directory has a page table for the first address of the range that is not on a user page. -/
def Walkable (s : State σ) (T : Nat → Option Nat) (va len : Nat) : Prop :=
  ∀ x, va ≤ x → x < va + len → (∀ y, va ≤ y → y < x → UserPage s T y) → T (PDX x) ≠ none

theorem UserPage.table (hp : UserPage s T x) : T (PDX x) ≠ none := by
  intro hn
  have hP := hp.1
  rw [pte_none hn, has_zero] at hP
  cases hP

theorem Copied.walkable (hc : Copied s T va len m buf s') : Walkable s T va len := by
  intro x h1 h2 hy
  rcases Nat.lt_trichotomy x m with hx | rfl | hx
  · exact (hc.pages x h1 hx).table
  · exact hc.table h2
  · exact absurd (hy m hc.le hx) (hc.stop (by omega))

theorem userPage_of_page (hp : UserPage s T va) (hva : va < KERNBASE) (hn : va % PGSIZE + n ≤ PGSIZE) :
    ∀ x, va ≤ x → x < va + n → UserPage s T x := by
  intro x h1 h2
  have hs : SamePage x va := by
    rw [samePage_iff] <;> simp only [PGSIZE, KERNBASE] at * <;> omega
  rw [UserPage, pte_samePage hs]
  exact hp

theorem Uvm.copied_cons (hu : Uvm K s d T) (hlt : va < KERNBASE) (hp : UserPage s T va) (hn : va % PGSIZE + n = PGSIZE)
    (hle : n ≤ len) (hw : Wrote s T va (va + n) buf s1) (hT : ∀ g, Owns d T g → s1.mem g = s.mem g)
    (hc : Copied s1 T (va + n) (len - n) m (fun j => buf (n + j)) s') : Copied s T va len m buf s' := by
  have hpte := pte_congr hT
  have hpages (x : Nat) (h1 : va ≤ x) (h2 : x < m) : UserPage s T x := by
    by_cases hx : x < va + n
    · exact userPage_of_page hp hlt hn.le x h1 hx
    · have := hc.pages x (by omega) h2
      rwa [UserPage, hpte] at this
  have hm := hu.le_kernbase (le_of_lt hlt) hpages
  have hle' := hc.le
  have hle_end := hc.le_end
  have hpage : (va + n) % PGSIZE = 0 := by
    simp only [PGSIZE] at *
    omega
  refine ⟨by omega, by omega, hpages, fun h => ?_, fun h => hc.table (by omega), ?_⟩
  · have := hc.stop (by omega)
    rwa [UserPage, hpte] at this
  · refine hu.wrote_trans hw ?_ hT (Nat.le_add_right va n) hle' hpage fun x h1 h2 => ⟨by omega, (hpages x h1 h2).1⟩
    rw [Nat.add_sub_cancel_left]
    exact hc.wrote

theorem copyout_zero (pgdir k : Nat) (s : State σ) (va : Nat) (buf : Nat → BitVec 8) : copyout pgdir k s va buf 0 = .ok (true, s) := by
  cases k with
  | zero => rfl
  | succ k => rw [Vm.copyout, if_pos rfl]

theorem Uvm.copyout (hu : Uvm K s d T) (buf : Nat → BitVec 8) (k : Nat) (hk : va % PGSIZE + len ≤ PGSIZE * k) (hva : va < 2 ^ 32) :
    (∃ m s', copyout (kva d) k s va buf len = .ok (decide (m = va + len), s') ∧ Copied s T va len m buf s') ∨
      (copyout (kva d) k s va buf len = .error .null ∧ ¬ Walkable s T va len) := by
  have h0 : 0 < PGSIZE := by decide
  have hK : KERNBASE + PGSIZE ≤ 2 ^ 32 := by decide
  induction k generalizing s va buf len with
  | zero =>
    obtain rfl : len = 0 := by omega
    exact .inl ⟨va, s, by simp [copyout_zero], .refl fun h => absurd h (lt_irrefl 0)⟩
  | succ k ih =>
    by_cases hlen : len = 0
    · subst hlen
      exact .inl ⟨va, s, by simp [copyout_zero], .refl fun h => absurd h (lt_irrefl 0)⟩
    rcases Option.eq_none_or_eq_some (T (PDX va)) with ht | ⟨t, ht⟩
    · refine .inr ⟨?_, fun hT => hT va (le_refl va) (by omega) (fun y h1 h2 => by omega) ht⟩
      rw [Vm.copyout, if_neg hlen, hu.uva2ka_null ht]
      rfl
    rw [Vm.copyout, if_neg hlen, hu.uva2ka hva ht]
    simp only [bind, Except.bind]
    by_cases hp : UserPage s T va
    · have hlt := hu.lt_kernbase hva hp
      obtain ⟨hus, ho⟩ := hu.user va hlt hp.1
      have hmod : va % PGSIZE < PGSIZE := Nat.mod_lt va h0
      rw [if_pos hp, if_neg kva_ne_zero, loadPage_kva hus.lt]
      simp only [storePage_kva hus.lt]
      rcases lt_or_ge (va % PGSIZE + len) PGSIZE with hfit | hfit
      · -- the last page
        rw [Nat.min_eq_right (by omega), Nat.sub_self, copyout_zero]
        exact .inl ⟨va + len, _, by simp, Nat.le_add_right va len, le_rfl, userPage_of_page hp hlt hfit.le,
          fun h => absurd h (lt_irrefl _), fun h => absurd h (lt_irrefl _), wrote_page hfit.le (by omega)⟩
      · have hn : va % PGSIZE + (PGSIZE - va % PGSIZE) = PGSIZE := by omega
        have hnext : PGROUNDDOWN va + PGSIZE = va + (PGSIZE - va % PGSIZE) := by
          simp only [PGROUNDDOWN, PGSIZE]
          omega
        have hfirst : (va + (PGSIZE - va % PGSIZE)) % PGSIZE = 0 := by
          simp only [PGSIZE]
          omega
        have hmul : PGSIZE * (k + 1) = PGSIZE * k + PGSIZE := rfl
        rw [min_eq_left (by omega), hnext]
        generalize hN : PGSIZE - va % PGSIZE = n at *
        have hw : Wrote s T va (va + n) buf _ := wrote_page hn.le (by omega)
        have hm (g : Nat) (hg : Owns d T g) : (s.setPage (frame (pte s T va))
            ((s.mem (frame (pte s T va))).write (va % PGSIZE) n buf)).mem g = s.mem g :=
          mem_setPage_ne _ (by rintro rfl; exact ho hg)
        generalize s.setPage (frame (pte s T va)) ((s.mem (frame (pte s T va))).write (va % PGSIZE) n buf) = s1 at *
        have hT1 (hT : Walkable s T va len) : Walkable s1 T (va + n) (len - n) := by
          intro x h1 h2 hy
          refine hT x (by omega) (by omega) fun y hy1 hy2 => ?_
          by_cases hyn : y < va + n
          · exact userPage_of_page hp hlt hn.le y hy1 hyn
          · have := hy y (by omega) hy2
            rwa [UserPage, pte_congr hm] at this
        have hrec : (∃ m s', Vm.copyout (kva d) k s1 (va + n) (fun j => buf (n + j)) (len - n) =
              .ok (decide (m = va + n + (len - n)), s') ∧ Copied s1 T (va + n) (len - n) m (fun j => buf (n + j)) s') ∨
            (Vm.copyout (kva d) k s1 (va + n) (fun j => buf (n + j)) (len - n) = .error .null ∧ ¬ Walkable s1 T (va + n) (len - n)) :=
          ih (hu.congr hm) _ (by omega) (by omega)
        rcases hrec with ⟨m, s', hs, hc⟩ | ⟨hs, hn'⟩
        · refine .inl ⟨m, s', ?_, hu.copied_cons hlt hp hn (by omega) hw hm hc⟩
          rw [hs, show va + n + (len - n) = va + len by omega]
        · exact .inr ⟨hs, fun hT => hn' (hT1 hT)⟩
    · rw [if_neg hp, if_pos rfl]
      exact .inl ⟨va, s, by simp [hlen]; rfl, .refl fun _ => ⟨hp, by rw [ht]; exact Option.some_ne_none t⟩⟩

end Xv6.Vm
