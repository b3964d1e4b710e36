import Mathlib.Order.Interval.Finset.Nat
import Xv6.Vm.Lemmas.Kvm

/-!
# Copying an address space

The frames of the parent are not free, and so they do not change.
-/

namespace Xv6.Vm

open Xv6.Lib List

attribute [local irreducible] V2P P2V

variable {σ : Type} {K : Kernel} {h : Hooks σ} {I : σ → Prop} {E : Stop → Prop} {J : State σ → Prop}
variable {s s0 s' s1 : State σ} {d dp n x sz : Nat} {T T' Tp : Nat → Option Nat} {fl fl0 fl' cs : List Nat} {S : Nat → Bool}

/-- The address space to be copied: page tables for the `n` pages, and nothing of it in free frames. -/
structure Parent (K : Kernel) (s : State σ) (dp : Nat) (Tp : Nat → Option Nat) (fl : List Nat) (n : Nat) : Prop where
  dir : Pagedir K s dp Tp
  bound : PGSIZE * n ≤ KERNBASE
  table : ∀ j, j < n → ∃ t, Tp (PDX (PGSIZE * j)) = some t
  tables : ∀ g, Owns dp Tp g → g ∉ fl
  page : ∀ j, j < n → has (pte s Tp (PGSIZE * j)) PTE_P = true →
    frame (pte s Tp (PGSIZE * j)) < NFRAMES ∧ frame (pte s Tp (PGSIZE * j)) ∉ fl

/-- The pages before page `cs.length` have been copied to the frames `cs`. -/
structure Copy (K : Kernel) (s0 : State σ) (Tp : Nat → Option Nat) (fl0 : List Nat) (s : State σ) (d : Nat)
    (T : Nat → Option Nat) (fl cs : List Nat) : Prop where
  fresh : Fresh K s0 fl0 s d T fl
  nodup : cs.Nodup
  frames : ∀ f ∈ cs, f ∈ fl0 ∧ f ∉ fl ∧ ¬ Owns d T f
  copied : ∀ j f, cs[j]? = some f → s.mem f = s0.mem (frame (pte s0 Tp (PGSIZE * j)))
  pte : ∀ x, x < 2 ^ 32 → Vm.pte s T x =
    match cs[x / PGSIZE]? with
    | some f => entryFor (PGSIZE * f) (PTE_FLAGS (Vm.pte s0 Tp (PGSIZE * (x / PGSIZE))))
    | none => (kernelPte (kmap K) x).getD 0#32

theorem kmap_ge {k : Kmap} (hk : k ∈ kmap K) : KERNBASE ≤ k.virt := by
  have := K.data_ge
  simp only [kmap, mem_cons, not_mem_nil, or_false] at hk
  simp only [KERNLINK] at this
  rcases hk with rfl | rfl | rfl | rfl
  · exact le_rfl
  · exact Nat.le_add_right _ _
  · dsimp only
    omega
  · decide

theorem kernelPte_user (hx : x < KERNBASE) : kernelPte (kmap K) x = none := by
  simp only [kernelPte, Option.map_eq_none_iff, find?_eq_none]
  intro k hk hc
  have h1 := kmap_ge hk
  have h2 := of_decide_eq_true hc
  omega

/-! ## The parent during the copy -/

theorem Parent.pte (hp : Parent K s0 dp Tp fl0 n) (hm : ∀ g, g ∉ fl0 → s.mem g = s0.mem g) (x : Nat) :
    Vm.pte s Tp x = Vm.pte s0 Tp x := pte_congr (fun g hg => hm g (hp.tables g hg)) x

theorem Parent.pagedir (hp : Parent K s0 dp Tp fl0 n) (hm : ∀ g, g ∉ fl0 → s.mem g = s0.mem g) : Pagedir K s dp Tp :=
  hp.dir.congr (hm dp (hp.tables dp (.inl rfl)))

/-! ## One page -/

theorem Copy.unmapped (hc : Copy K s0 Tp fl0 s d T fl cs) (h1 : PGSIZE * cs.length ≤ x)
    (h2 : x < PGSIZE * cs.length + PGSIZE) (hx : x < KERNBASE) : has (Vm.pte s T x) PTE_P = false := by
  have hlt : x < 2 ^ 32 := lt_trans hx (by decide)
  have hdiv : x / PGSIZE = cs.length := by
    simp only [PGSIZE] at h1 h2 ⊢
    omega
  rw [hc.pte x hlt, hdiv, getElem?_eq_none le_rfl, kernelPte_user hx]
  exact has_zero _

theorem Copy.snoc {f : Nat} {fl1 : List Nat} (hc : Copy K s0 Tp fl0 s d T (f :: fl1) cs) (hmem : ∀ g, g ≠ f → s1.mem g = s.mem g)
    (hcr : s1.cr3 = s.cr3) (hpage : s1.mem f = s0.mem (frame (Vm.pte s0 Tp (PGSIZE * cs.length))))
    (hm : Mapped K J s1 d T fl1 (PGSIZE * cs.length) (PGSIZE * cs.length + PGSIZE) (PGSIZE * f)
      (PTE_FLAGS (Vm.pte s0 Tp (PGSIZE * cs.length))) s' T' fl') : Copy K s0 Tp fl0 s' d T' fl' (cs ++ [f]) := by
  have hx := hm.grows
  have hf0 : f ∈ fl0 := hc.fresh.suffix.mem (by simp)
  have hf1 : f ∉ fl1 := (nodup_cons.mp hc.fresh.layout.free.nodup).1
  have hfo : ¬ Owns d T f := hc.fresh.layout.apart f (by simp)
  have hsuf : fl1 <:+ fl0 := (suffix_cons f fl1).trans hc.fresh.suffix
  -- Frames that are neither free nor part of the page table are not touched.
  have hkeep : ∀ g, g ∉ fl1 → ¬ Owns d T g → ¬ Owns d T' g := fun g hg ho ho' => (hx.owns ho').elim ho hg
  refine ⟨⟨hx.layout, fun g hg => ?_, hx.suffix.trans hsuf, fun g hg => ?_, hx.cr3.trans (hcr.trans hc.fresh.cr3)⟩, ?_,
    fun g hg => ?_, fun j g hj => ?_, fun x hx' => ?_⟩
  · exact (hx.owns hg).elim (hc.fresh.owns g) fun hg => hsuf.mem hg
  · have hgf : g ≠ f := by rintro rfl; exact hg hf0
    have hgo : ¬ Owns d T g := fun ho => hg (hc.fresh.owns g ho)
    rw [hx.mem g (fun h => hg (hsuf.mem h)) hgo, hmem g hgf, hc.fresh.mem g hg]
  · refine nodup_append.mpr ⟨hc.nodup, nodup_singleton f, fun g hg g' hg' he => ?_⟩
    rw [mem_singleton] at hg'
    exact (hc.frames g hg).2.1 (by simp [he, hg'])
  · rcases mem_append.mp hg with hg | hg
    · obtain ⟨h1, h2, h3⟩ := hc.frames g hg
      have h2' : g ∉ fl1 := fun h => h2 (by simp [h])
      exact ⟨h1, fun h => h2' (hx.suffix.mem h), hkeep g h2' h3⟩
    · obtain rfl := mem_singleton.mp hg
      exact ⟨hf0, fun h => hf1 (hx.suffix.mem h), hkeep g hf1 hfo⟩
  · rw [getElem?_append] at hj
    split at hj
    · have hg := hc.frames g (mem_of_getElem? hj)
      have hgf : g ≠ f := by rintro rfl; exact hg.2.1 (by simp)
      rw [hx.mem g (fun h => hg.2.1 (by simp [h])) hg.2.2, hmem g hgf, hc.copied j g hj]
    · rename_i hjl
      obtain ⟨hjl', rfl⟩ : j = cs.length ∧ g = f := by
        rw [getElem?_singleton] at hj
        split at hj
        · cases hj
          exact ⟨by omega, rfl⟩
        · cases hj
      rw [hjl', hx.mem g hf1 hfo, hpage]
  · rw [hm.pte x hx', pte_congr (d := d) (fun g hg => hmem g (by rintro rfl; exact hfo hg)) x, hc.pte x hx']
    by_cases hr : PGSIZE * cs.length ≤ x ∧ x < PGSIZE * cs.length + PGSIZE
    · have hdiv : x / PGSIZE = cs.length := by
        simp only [PGSIZE] at hr ⊢
        omega
      have hdown : PGROUNDDOWN x - PGSIZE * cs.length = 0 := by
        rw [PGROUNDDOWN, hdiv, Nat.mul_comm, Nat.sub_self]
      rw [if_pos hr, hdiv, getElem?_concat_length, hdown, add_zero]
    · rw [if_neg hr]
      have hne : x / PGSIZE ≠ cs.length := by
        simp only [PGSIZE] at hr ⊢
        omega
      have hget : (cs ++ [f])[x / PGSIZE]? = cs[x / PGSIZE]? := by
        rw [getElem?_append]
        split
        · rfl
        · rw [getElem?_eq_none (by simp; omega), getElem?_eq_none (by omega)]
      rw [hget]

theorem Pops.mapCopy {c f : Nat} {fl1 : List Nat} (hp : Pops h I E) (hc : Copy K s0 Tp fl0 s d T (f :: fl1) cs)
    (hlt : PGSIZE * cs.length + PGSIZE ≤ KERNBASE) (hmem : ∀ g, g ≠ f → s1.mem g = s.mem g) (hcr : s1.cr3 = s.cr3)
    (hpage : s1.mem f = s0.mem (frame (Vm.pte s0 Tp (PGSIZE * cs.length)))) (hf : Free K s1 fl1) (hi : I s1.ext)
    (hr : Room (∀ e, E e) S T fl1 c) (hS : ∀ x, x < PGSIZE * n → S (PDX x) = true) (hn : cs.length < n) :
    Ends E (fun r => (r.1 = false ∧ ∀ e, E e) ∨ (r.1 = true ∧ ∃ T' fl', Copy K s0 Tp fl0 r.2 d T' fl' (cs ++ [f]) ∧
      Room (∀ e, E e) S T' fl' c ∧ I r.2.ext))
      (Vm.mappages h s1 (kva d) (PGSIZE * cs.length) PGSIZE (PGSIZE * f) (PTE_FLAGS (Vm.pte s0 Tp (PGSIZE * cs.length)))) := by
  have hfo : ¬ Owns d T f := hc.fresh.layout.apart f (by simp)
  have hu : Usable K f := hc.fresh.layout.free.usable f (by simp)
  have hK : KERNBASE < 2 ^ 32 := by decide
  have hl : Layout K s1 d T fl1 := by
    refine ⟨hc.fresh.layout.toPagedir.congr (hmem d fun he => hfo (.inl he.symm)), hf, fun g hg => ?_⟩
    exact hc.fresh.layout.apart g (by simp [hg])
  have h0 : 0 < PGSIZE := by decide
  have hnp : has (Vm.pte s1 T (PGSIZE * cs.length)) PTE_P = false := by
    rw [pte_congr (d := d) (fun g hg => hmem g (by rintro rfl; exact hfo hg))]
    exact hc.unmapped le_rfl (by omega) (by omega)
  have hpage' : PGSIZE * cs.length + PGSIZE ≤ PGSIZE * n := by
    rw [← Nat.mul_succ]
    exact Nat.mul_le_mul_left _ hn
  refine ((hp.takes d).mappages_page hl (fun _ _ => trivial) hi hr (hS _ (by omega)) (Nat.mul_mod_right _ _) (by omega) hnp trivial).imp
    fun ⟨ok, s'⟩ hm => hm.imp (fun h => ⟨h.1, h.2.1⟩) ?_
  rintro ⟨hok, T', fl', hm⟩
  exact ⟨hok, T', fl', hc.snoc hmem hcr hpage hm, hm.room (fun x _ hx => hS x (by omega)) hr, hm.inv⟩

theorem Pops.copyPage {c t : Nat} (hp : Pops h I E) (hpar : Parent K s0 dp Tp fl0 n)
    (hc : Copy K s0 Tp fl0 s d T fl cs) (hi : I s.ext) (hr : Room (∀ e, E e) S T fl (c + 1)) (hS : ∀ x, x < PGSIZE * n → S (PDX x) = true)
    (hlt : cs.length < n)
    (ht : Tp (PDX (PGSIZE * cs.length)) = some t) (hw : has (Vm.pte s0 Tp (PGSIZE * cs.length)) PTE_P = true) :
    Ends E (fun r => (r.1 = false ∧ ∀ e, E e) ∨ (r.1 = true ∧ ∃ T' fl' f, Copy K s0 Tp fl0 r.2 d T' fl' (cs ++ [f]) ∧
      Room (∀ e, E e) S T' fl' c ∧ I r.2.ext))
      (copyPage K h s (kva dp) (kva d) (PGSIZE * cs.length) (kva t + 4 * PTX (PGSIZE * cs.length))
        (Vm.pte s0 Tp (PGSIZE * cs.length))) := by
  have hbound := hpar.bound
  obtain ⟨hfr, hnf⟩ := hpar.page _ hlt hw
  have htu := (hpar.dir.table _ t ht).2
  have hptx := ptx_lt (PGSIZE * cs.length)
  have hend : PGSIZE * cs.length + PGSIZE ≤ KERNBASE := by
    simp only [PGSIZE] at hbound ⊢
    omega
  rw [Vm.copyPage, pte_addr, P2V_frame hfr]
  refine ((hp.takes d).take hc.fresh.layout.free hi (fun _ hd => hd.elim) (hr.imp id fun hr => by omega)).bind ?_
  rintro ⟨p, s1⟩ h1
  dsimp only at h1 ⊢
  rcases h1 with ⟨rfl, hE, -⟩ | ⟨f, fl1, rfl, rfl, hm1, hc1, hf1, hi1⟩
  · rw [if_pos rfl]
    exact .inl ⟨rfl, hE⟩
  have hu : Usable K f := hc.fresh.layout.free.usable f (by simp)
  have hff : f ∉ fl1 := (nodup_cons.mp hc.fresh.layout.free.nodup).1
  rw [if_neg kva_ne_zero, loadPage_kva hfr, V2P_kva hu.lt]
  refine Ends.bind (Q := (· = s1.mem _)) rfl ?_
  rintro _ rfl
  rw [storePage_kva hu.lt]
  refine Ends.bind (Q := (· = s1.setPage f _)) rfl ?_
  rintro _ rfl
  refine (Ends.returned (load_kva htu.lt (by omega))).bind fun v _ => ?_
  refine (hp.lru_insert (s1.setPage f _) (kva dp) (kva f) _ hi1).bind ?_
  rintro s3 ⟨hs3, hi3⟩
  have hm3 : ∀ g, g ≠ f → s3.mem g = s.mem g := fun g hg => by rw [hs3.mem, mem_setPage_ne _ hg, hm1]
  have hr3 : Room (∀ e, E e) S T fl1 c := hr.imp id fun hr => by
    rw [length_cons] at hr
    omega
  have hpage : s3.mem f = s0.mem (frame (Vm.pte s0 Tp (PGSIZE * cs.length))) := by
    rw [hs3.mem, mem_setPage_self, hm1, hc.fresh.mem _ hnf]
  have hf3 : Free K s3 fl1 := (hf1.setPage hff _).congr (fun g _ => by rw [hs3.mem]) hs3.freelist
  refine (hp.mapCopy hc hend hm3 (hs3.cr3.trans hc1) hpage hf3 hi3 hr3 hS hlt).bind ?_
  rintro ⟨ok, s4⟩ h4
  dsimp only at h4 ⊢
  rcases h4 with ⟨rfl, hE⟩ | ⟨rfl, T', fl', hm⟩
  · rw [if_neg Bool.false_ne_true]
    exact (Ends.fails hE fun _ => trivial).bind fun _ _ => .inl ⟨rfl, hE⟩
  · rw [if_pos rfl]
    exact .inr ⟨rfl, T', fl', f, hm⟩

def AllPresent (s : State σ) (T : Nat → Option Nat) (i n : Nat) : Prop := ∀ j, i ≤ j → j < n → has (pte s T (PGSIZE * j)) PTE_P = true

theorem Pops.copyLoop (hp : Pops h I E) (hpar : Parent K s0 dp Tp fl0 n) (r : Nat) (hc : Copy K s0 Tp fl0 s d T fl cs)
    (hi : I s.ext) (hr : Room (∀ e, E e) S T fl r) (hS : ∀ x, x < PGSIZE * n → S (PDX x) = true) (hn : cs.length + r = n) :
    Ends (fun e => E e ∨ (e = .copyuvmPresent ∧ ¬ AllPresent s0 Tp cs.length n))
      (fun x => (x.1 = 0 ∧ ∀ e, E e) ∨ (AllPresent s0 Tp cs.length n ∧ x.1 = kva d ∧ ∃ T' fl' cs', cs'.length = n ∧
        Copy K s0 Tp fl0 x.2 d T' fl' cs'))
      (copyLoop K h (kva dp) (kva d) r s (PGSIZE * cs.length)) := by
  induction r generalizing s T fl cs with
  | zero => exact .inr ⟨fun j h1 h2 => absurd h2 (by omega), rfl, T, fl, cs, by omega, hc⟩
  | succ r ih =>
    have hlt : cs.length < n := by omega
    obtain ⟨t, ht⟩ := hpar.table _ hlt
    have hdir := hpar.pagedir hc.fresh.mem
    rw [Vm.copyLoop, hdir.walk]
    simp only [bind, Except.bind, ht]
    rw [if_neg (by simp [kva, KERNBASE]), hdir.load ht]
    dsimp only
    rw [hpar.pte hc.fresh.mem]
    cases hw : has (Vm.pte s0 Tp (PGSIZE * cs.length)) PTE_P with
    | false =>
      refine .inr ⟨rfl, fun hall => ?_⟩
      rw [hall _ le_rfl hlt] at hw
      cases hw
    | true =>
      rw [if_pos rfl]
      refine Ends.bind (Ends.mono (hp.copyPage hpar hc hi hr hS hlt ht hw) (fun _ => .inl) fun _ => id) ?_
      rintro ⟨ok, s1⟩ h1
      dsimp only at h1 ⊢
      rcases h1 with ⟨rfl, hE⟩ | ⟨rfl, T1, fl1, f, hc1, hr1, hi1⟩
      · rw [if_neg Bool.false_ne_true]
        exact (Ends.fails (fun e => .inl (hE e)) fun _ => trivial).bind fun _ _ => .inl ⟨rfl, hE⟩
      · rw [if_pos rfl]
        have hlen : (cs ++ [f]).length = cs.length + 1 := by simp
        have hiff : AllPresent s0 Tp (cs ++ [f]).length n ↔ AllPresent s0 Tp cs.length n := by
          rw [hlen]
          refine ⟨fun ha j h1 h2 => ?_, fun ha j h1 h2 => ha j (by omega) h2⟩
          by_cases he : j = cs.length
          · rw [he]; exact hw
          · exact ha j (by omega) h2
        have hnext : PGSIZE * cs.length + PGSIZE = PGSIZE * (cs ++ [f]).length := by
          rw [hlen, mul_add, mul_one]
        rw [hnext, ← hiff]
        exact ih hc1 hi1 hr1 (by omega)

/-- The entries of a page directory that `copyuvm` needs page tables for: 64 for the kernel, and those of the `n` pages. -/
def needed (n i : Nat) : Bool := 512 ≤ i ∧ i < 568 ∨ 1016 ≤ i ∨ i < (n + 1023) / 1024

theorem needed_kernel {k : Kmap} (hk : k ∈ kmap K) (hc : k.covers x) : needed n (PDX x) = true := by
  have h1 := K.data_ge
  have h2 := K.data_lt
  have h3 := of_decide_eq_true hc
  simp only [KERNLINK, KERNBASE, EXTMEM, PHYSTOP] at h1 h2
  simp only [kmap, V2P_data, V2P_kernlink, mem_cons, not_mem_nil, or_false] at hk
  refine decide_eq_true ?_
  rcases hk with rfl | rfl | rfl | rfl <;>
    simp only [Kmap.size, KERNLINK, KERNBASE, EXTMEM, PHYSTOP, DEVSPACE, PDX] at h3 ⊢ <;> omega

theorem needed_user (hx : x < PGSIZE * n) : needed n (PDX x) = true := by
  refine decide_eq_true (.inr (.inr ?_))
  simp only [PGSIZE, PDX] at hx ⊢
  omega

theorem lacking_needed (n : Nat) : lacking (needed n) (fun _ => none) ≤ 64 + (n + 1023) / 1024 := by
  have hsub : ((Finset.range NPDENTRIES).filter fun i => needed n i ∧ (none : Option Nat) = none) ⊆
      (Finset.Ico 512 568 ∪ Finset.Ico 1016 1024) ∪ Finset.range ((n + 1023) / 1024) := by
    intro i hi
    simp only [Finset.mem_filter, Finset.mem_range, NPDENTRIES, needed, decide_eq_true_eq, and_true] at hi
    simp only [Finset.mem_union, Finset.mem_Ico, Finset.mem_range]
    omega
  have h1 := Finset.card_le_card hsub
  have h2 := Finset.card_union_le (Finset.Ico 512 568 ∪ Finset.Ico 1016 1024) (Finset.range ((n + 1023) / 1024))
  have h3 := Finset.card_union_le (Finset.Ico 512 568) (Finset.Ico 1016 1024)
  rw [Finset.card_range] at h2
  rw [Nat.card_Ico, Nat.card_Ico] at h3
  rw [lacking]
  omega

theorem Pops.copyuvm (hp : Pops h I E) (hpar : Parent K s dp Tp fl ((sz + PGSIZE - 1) / PGSIZE)) (hf : Free K s fl) (hi : I s.ext)
    (hb : (∀ e, E e) ∨ 65 + ((sz + PGSIZE - 1) / PGSIZE + 1023) / 1024 + (sz + PGSIZE - 1) / PGSIZE ≤ fl.length) :
    Ends (fun e => E e ∨ (e = .copyuvmPresent ∧ ¬ AllPresent s Tp 0 ((sz + PGSIZE - 1) / PGSIZE)))
      (fun x => (x.1 = 0 ∧ ∀ e, E e) ∨ (AllPresent s Tp 0 ((sz + PGSIZE - 1) / PGSIZE) ∧ ∃ d T' fl' cs, x.1 = kva d ∧
        cs.length = (sz + PGSIZE - 1) / PGSIZE ∧ Copy K s Tp fl x.2 d T' fl' cs))
      (copyuvm K h s (kva dp) sz) := by
  rw [Vm.copyuvm]
  generalize (sz + PGSIZE - 1) / PGSIZE = n at *
  have hroom : (∀ e, E e) ∨ 1 + lacking (needed n) (fun _ => none) + n ≤ fl.length := hb.imp id fun hb => by
    have := lacking_needed n
    omega
  refine Ends.bind (Ends.mono (hp.setupkvm hf hi (fun k hk x hx => needed_kernel hk hx) hroom) (fun _ => .inl) fun _ => id)
    fun ⟨p, s1⟩ h1 => ?_
  dsimp only at h1 ⊢
  rcases h1 with ⟨rfl, hE⟩ | ⟨d, T, fl1, rfl, hfr, hi1, hr, hpte, _⟩
  · rw [if_pos rfl]
    exact .inl ⟨rfl, hE⟩
  · rw [if_neg kva_ne_zero]
    have hc : Copy K s Tp fl s1 d T fl1 [] :=
      ⟨hfr, nodup_nil, fun f hf => (not_mem_nil hf).elim, fun j f hj => absurd hj (by simp), hpte⟩
    refine (hp.copyLoop hpar _ hc hi1 hr (fun x hx => needed_user hx) (zero_add _)).imp fun x hx => hx.imp id ?_
    rintro ⟨hall, hd, T', fl', cs, hlen, hcopy⟩
    exact ⟨hall, d, T', fl', cs, hd, hlen, hcopy⟩

end Xv6.Vm
