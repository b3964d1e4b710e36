import Mathlib.Data.Finset.Card
import Xv6.Vm.Lemmas.Frames

/-!
# Page tables

A page directory at frame `d` with the page tables at the frames `T`.
-/

namespace Xv6.Vm

open Xv6.Lib Bytes Finset

attribute [local irreducible] V2P P2V

variable {σ : Type} {K : Kernel} {h : Hooks σ} {E : Stop → Prop} {M O : Nat → Prop} {J : State σ → Prop}
  {X : State σ → State σ → Prop} {F : Prop} {U : Bool → Prop}
variable {s s' s1 : State σ} {d f g t va x a pa : Nat} {T T' T1 : Nat → Option Nat} {fl fl' fl1 : List Nat} {w perm : BitVec 32}
  {c i k b : Nat} {S : Nat → Bool}

/-! ## Pages -/

def SamePage (x a : Nat) : Prop := PDX x = PDX a ∧ PTX x = PTX a

instance (x a : Nat) : Decidable (SamePage x a) := by unfold SamePage; infer_instance

theorem samePage_iff (hx : x < 2 ^ 32) (ha : a < 2 ^ 32) : SamePage x a ↔ x / PGSIZE = a / PGSIZE := by
  simp only [SamePage, PDX, PTX, PGSIZE]
  omega

theorem samePage_aligned (hx : x < 2 ^ 32) (ha : a < 2 ^ 32) (hp : a % PGSIZE = 0) : SamePage x a ↔ a ≤ x ∧ x < a + PGSIZE := by
  rw [samePage_iff hx ha]
  simp only [PGSIZE] at *
  omega

theorem pdx_lt_npdentries (va : Nat) : PDX va < NPDENTRIES := by simp only [PDX, NPDENTRIES]; omega

/-! ## Directories -/

def Owns (d : Nat) (T : Nat → Option Nat) (g : Nat) : Prop := g = d ∨ ∃ i, T i = some g

structure Pagedir (K : Kernel) (s : State σ) (d : Nat) (T : Nat → Option Nat) : Prop where
  dir : Usable K d
  table : ∀ i t, T i = some t → i < NPDENTRIES ∧ Usable K t
  inj : ∀ i j t, T i = some t → T j = some t → i = j
  ne : ∀ i, T i ≠ some d
  absent : ∀ i, i < NPDENTRIES → T i = none → has ((s.mem d).word (4 * i)) PTE_P = false
  present : ∀ i t, T i = some t → has ((s.mem d).word (4 * i)) PTE_P = true ∧ frame ((s.mem d).word (4 * i)) = t

def pte (s : State σ) (T : Nat → Option Nat) (va : Nat) : BitVec 32 :=
  match T (PDX va) with
  | none => 0#32
  | some t => (s.mem t).word (4 * PTX va)

theorem pte_some (ht : T (PDX va) = some t) : pte s T va = (s.mem t).word (4 * PTX va) := by simp [pte, ht]

theorem pte_none (ht : T (PDX va) = none) : pte s T va = 0#32 := by simp [pte, ht]

theorem pte_samePage (hx : SamePage x a) : pte s T x = pte s T a := by simp [pte, hx.1, hx.2]

theorem pte_congr (hm : ∀ g, Owns d T g → s'.mem g = s.mem g) (va : Nat) : pte s' T va = pte s T va := by
  cases ht : T (PDX va) with
  | none => rw [pte_none ht, pte_none ht]
  | some t => rw [pte_some ht, pte_some ht, hm t (.inr ⟨_, ht⟩)]

theorem Pagedir.congr (ht : Pagedir K s d T) (hm : s'.mem d = s.mem d) : Pagedir K s' d T :=
  ⟨ht.dir, ht.table, ht.inj, ht.ne, by rw [hm]; exact ht.absent, by rw [hm]; exact ht.present⟩

theorem Pagedir.walk (ht : Pagedir K s d T) (va : Nat) :
    walk s (kva d) va = .ok (match T (PDX va) with | none => 0 | some t => kva t + 4 * PTX va) := by
  rw [walk_kva ht.dir.lt]
  cases he : T (PDX va) with
  | none => rw [ht.absent _ (pdx_lt_npdentries va) he]; rfl
  | some t =>
    obtain ⟨h1, h2⟩ := ht.present _ t he
    rw [h1, h2, P2V_frame (ht.table _ t he).2.lt]
    rfl

theorem Pagedir.load (ht : Pagedir K s d T) (he : T (PDX va) = some t) : load s (kva t + 4 * PTX va) = .ok (pte s T va) := by
  have := ptx_lt va
  rw [load_kva (ht.table _ t he).2.lt (by omega), pte_some he]

/-! ## Growth -/

structure Layout (K : Kernel) (s : State σ) (d : Nat) (T : Nat → Option Nat) (fl : List Nat) : Prop
    extends Pagedir K s d T where
  free : Free K s fl
  apart : ∀ f ∈ fl, ¬ Owns d T f

def vacant (T : Nat → Option Nat) : Nat := ((range NPDENTRIES).filter fun i => T i = none).card

/-- The page tables that are missing, among those for the entries `S` of the directory. -/
def lacking (S : Nat → Bool) (T : Nat → Option Nat) : Nat := ((range NPDENTRIES).filter fun i => S i ∧ T i = none).card

/-- There are frames for all page tables that may be needed, and `c` more; or `kalloc` may fail. -/
def Room (F : Prop) (S : Nat → Bool) (T : Nat → Option Nat) (fl : List Nat) (c : Nat) : Prop := F ∨ lacking S T + c ≤ fl.length

def Within (M : Nat → Prop) (d : Nat) (T : Nat → Option Nat) (fl : List Nat) : Prop := ∀ g, g ∈ fl ∨ Owns d T g → M g

/-- From `s` to `s'` the address space has taken its new page tables from the free list; memory outside has not changed. -/
structure Extends (K : Kernel) (s : State σ) (d : Nat) (T : Nat → Option Nat) (fl : List Nat) (s' : State σ)
    (T' : Nat → Option Nat) (fl' : List Nat) : Prop where
  layout : Layout K s' d T' fl'
  sub : ∀ i t, T i = some t → T' i = some t
  new : ∀ i t, T' i = some t → T i = some t ∨ t ∈ fl
  suffix : fl' <:+ fl
  count : fl'.length + vacant T = fl.length + vacant T'
  mem : ∀ g, g ∉ fl → ¬ Owns d T g → s'.mem g = s.mem g
  cr3 : s'.cr3 = s.cr3

theorem Extends.refl (hl : Layout K s d T fl) : Extends K s d T fl s T fl :=
  ⟨hl, fun _ _ => id, fun _ _ => .inl, List.suffix_refl _, rfl, fun _ _ _ => rfl, rfl⟩

theorem lacking_add (S : Nat → Bool) (T : Nat → Option Nat) : lacking S T + lacking (fun i => !S i) T = vacant T := by
  rw [vacant, ← card_filter_add_card_filter_not (fun i => S i = true), filter_filter, filter_filter, lacking, lacking]
  simp only [Bool.not_eq_true', Bool.not_eq_true, and_comm]

theorem Extends.room (hx : Extends K s d T fl s' T' fl') (hS : ∀ i, T i = none → S i = false → T' i = none)
    (hr : Room F S T fl c) : Room F S T' fl' c := by
  refine hr.imp id fun hr => ?_
  have hout : lacking (fun i => !S i) T' = lacking (fun i => !S i) T := by
    refine congrArg card (filter_congr fun i _ => and_congr_right fun hi => ⟨fun hn => ?_, fun hn => hS i hn (by simpa using hi)⟩)
    cases ht : T i with
    | none => rfl
    | some t => exact (hx.sub i t ht).symm.trans hn
  have := hx.count
  have := lacking_add S T
  have := lacking_add S T'
  omega

theorem Extends.owns (h1 : Extends K s d T fl s1 T1 fl1) (hg : Owns d T1 g) : Owns d T g ∨ g ∈ fl := by
  rcases hg with rfl | ⟨i, hi⟩
  · exact .inl (.inl rfl)
  · exact (h1.new i g hi).imp (fun ht => .inr ⟨i, ht⟩) id

theorem Extends.within (hx : Extends K s d T fl s' T' fl') (hM : Within M d T fl) : Within M d T' fl' := by
  rintro g (hg | hg)
  · exact hM g (.inl (hx.suffix.mem hg))
  · exact hM g (hx.owns hg).symm

theorem Pagedir.tabled (ht : Pagedir K s d T) : Tabled s d := by
  intro i hi hp
  cases he : T i with
  | none => rw [ht.absent i hi he] at hp; cases hp
  | some t =>
    rw [(ht.present i t he).2]
    exact (ht.table i t he).2.lt

theorem Takes.tabled (hp : Takes h d M O J X E F U) (ht : Pagedir K s d T) : ∀ d', O d' → Tabled s d' :=
  fun d' hd => hp.own d' hd ▸ ht.tabled

theorem Takes.grow (hp : Takes h d M O J X E F U) (hM : Within M d T fl) (hx : Extends K s d T fl s' T' fl') (hj : J s1)
    (hm : s1.mem = s.mem) (hc : s1.cr3 = s.cr3) (he : s'.ext = s1.ext) : J s' := by
  refine hp.stable s1 s' hj (fun g hg => ?_) (hx.cr3.trans hc.symm) he
  rw [hx.mem g (fun hf => hg (hM g (.inl hf))) fun ho => hg (hM g (.inr ho)), hm]

theorem Extends.trans (h1 : Extends K s d T fl s1 T1 fl1) (h2 : Extends K s1 d T1 fl1 s' T' fl') : Extends K s d T fl s' T' fl' := by
  refine ⟨h2.layout, fun i t ht => h2.sub i t (h1.sub i t ht), fun i t ht => ?_, h2.suffix.trans h1.suffix, ?_,
    fun g hg ho => ?_, h2.cr3.trans h1.cr3⟩
  · rcases h2.new i t ht with ht | ht
    · exact h1.new i t ht
    · exact .inr (h1.suffix.mem ht)
  · have := h1.count
    have := h2.count
    omega
  · have hg1 : g ∉ fl1 := fun hm => hg (h1.suffix.mem hm)
    have ho1 : ¬ Owns d T1 g := fun hm => (h1.owns hm).elim ho hg
    rw [h2.mem g hg1 ho1, h1.mem g hg ho]

/-! ## `walkpgdir` -/

theorem has_PTE_P_or (v u : BitVec 32) : has (v ||| u ||| PTE_P) PTE_P = true := by
  rw [has_PTE_P]
  simp [PTE_P]

theorem table_entry (hf : f < NFRAMES) :
    has (.ofNat 32 (V2P (kva f)) ||| PTE_P ||| PTE_W ||| PTE_U) PTE_P = true ∧
      frame (.ofNat 32 (V2P (kva f)) ||| PTE_P ||| PTE_W ||| PTE_U) = f := by
  refine ⟨by rw [has_PTE_P]; simp [PTE_P], ?_⟩
  rw [V2P_kva hf, BitVec.or_assoc, BitVec.or_assoc]
  refine frame_or ?_ (by decide)
  simp only [NFRAMES, PHYSTOP, PGSIZE] at hf
  omega

def enter (T : Nat → Option Nat) (k f : Nat) : Nat → Option Nat := Function.update T k (some f)

theorem enter_self (T : Nat → Option Nat) (k f : Nat) : enter T k f k = some f := Function.update_self ..

theorem enter_ne (T : Nat → Option Nat) (f : Nat) (hi : i ≠ k) : enter T k f i = T i :=
  Function.update_of_ne hi ..

theorem enter_cases (hi : enter T k f i = some t) : i = k ∧ t = f ∨ i ≠ k ∧ T i = some t := by
  by_cases he : i = k
  · subst he
    rw [enter_self] at hi
    cases hi
    exact .inl ⟨rfl, rfl⟩
  · rw [enter_ne T f he] at hi
    exact .inr ⟨he, hi⟩

theorem Pagedir.enter (ht : Pagedir K s d T) (hk : k < NPDENTRIES) (hu : Usable K f) (hf : ¬ Owns d T f)
    (hword : ∀ i, i ≠ k → (s'.mem d).word (4 * i) = (s.mem d).word (4 * i))
    (hself : has ((s'.mem d).word (4 * k)) PTE_P = true ∧ frame ((s'.mem d).word (4 * k)) = f) : Pagedir K s' d (enter T k f) := by
  have hfT : ∀ i, T i ≠ some f := fun i he => hf (.inr ⟨i, he⟩)
  refine ⟨ht.dir, fun i t hi => ?_, fun i j t hi hj => ?_, fun i hi => ?_, fun i hi hT => ?_, fun i t hi => ?_⟩
  · rcases enter_cases hi with ⟨rfl, rfl⟩ | ⟨_, ht'⟩
    · exact ⟨hk, hu⟩
    · exact ht.table i t ht'
  · rcases enter_cases hi with ⟨rfl, rfl⟩ | ⟨_, h1⟩
    · rcases enter_cases hj with ⟨rfl, _⟩ | ⟨_, h2⟩
      · rfl
      · exact absurd h2 (hfT j)
    · rcases enter_cases hj with ⟨rfl, rfl⟩ | ⟨_, h2⟩
      · exact absurd h1 (hfT i)
      · exact ht.inj i j t h1 h2
  · rcases enter_cases hi with ⟨_, he⟩ | ⟨_, ht'⟩
    · exact hf (.inl he.symm)
    · exact ht.ne i ht'
  · have he : i ≠ k := by
      rintro rfl
      rw [enter_self] at hT
      cases hT
    rw [enter_ne T f he] at hT
    rw [hword i he]
    exact ht.absent i hi hT
  · rcases enter_cases hi with ⟨rfl, rfl⟩ | ⟨he, ht'⟩
    · exact hself
    · rw [hword i he]
      exact ht.present i t ht'

theorem vacant_enter (hk : k < NPDENTRIES) (hn : T k = none) : vacant T = vacant (enter T k f) + 1 := by
  have hmem : k ∈ (range NPDENTRIES).filter fun i => T i = none := by simp [hk, hn]
  have herase : ((range NPDENTRIES).filter fun i => enter T k f i = none) =
      ((range NPDENTRIES).filter fun i => T i = none).erase k := by
    ext i
    by_cases hi : i = k
    · subst hi
      simp [enter_self]
    · simp [enter_ne T f hi, hi]
  rw [vacant, vacant, herase, card_erase_add_one hmem]

theorem pte_enter (hn : T (PDX va) = none) (hf : s'.mem f = fill PGSIZE 0#8)
    (hm : ∀ i t, T i = some t → s'.mem t = s.mem t) (x : Nat) : pte s' (enter T (PDX va) f) x = pte s T x := by
  by_cases he : PDX x = PDX va
  · have hx : enter T (PDX va) f (PDX x) = some f := by rw [he, enter_self]
    rw [pte_some hx, hf, word_fill_zero, pte_none (he ▸ hn)]
  · cases hx : T (PDX x) with
    | none => rw [pte_none (by rw [enter_ne T f he, hx]), pte_none hx]
    | some t => rw [pte_some (by rw [enter_ne T f he, hx]), pte_some hx, hm _ t hx]

theorem Layout.newTable (hl : Layout K s d T (f :: fl)) (hn : T (PDX va) = none) (hm : s1.mem = s.mem) (hc : s1.cr3 = s.cr3)
    (hf : Free K s1 fl) :
    ∃ s', newTable s1 (kva d) va (kva f) = .ok (kva f + 4 * PTX va, s') ∧ s'.ext = s1.ext ∧
      Extends K s d T (f :: fl) s' (enter T (PDX va) f) fl ∧ ∀ x, pte s' (enter T (PDX va) f) x = pte s T x := by
  have hfo : ¬ Owns d T f := hl.apart f (by simp)
  have hfd : f ≠ d := fun he => hfo (.inl he)
  have hffl : f ∉ fl := (List.nodup_cons.mp hl.free.nodup).1
  have hu : Usable K f := hl.free.usable f (by simp)
  have hpd := pdx_lt va
  let w : BitVec 32 := .ofNat 32 (V2P (kva f)) ||| PTE_P ||| PTE_W ||| PTE_U
  let s2 := s1.setPage f (fill PGSIZE 0#8)
  let s3 := s2.setPage d ((s2.mem d).setWord (4 * PDX va) w)
  have hst : store s2 (kva d + 4 * PDX va) w = .ok s3 := store_kva hl.dir.lt (by omega)
  have hmf : s3.mem f = fill PGSIZE 0#8 := by rw [mem_setPage_ne _ hfd, mem_setPage_self]
  have hmg : ∀ g, g ≠ f → g ≠ d → s3.mem g = s.mem g := fun g h1 h2 => by
    rw [mem_setPage_ne _ h2, mem_setPage_ne _ h1, hm]
  have hmd : s3.mem d = (s.mem d).setWord (4 * PDX va) w := by
    rw [mem_setPage_self, mem_setPage_ne _ hfd.symm, hm]
  refine ⟨s3, ?_, rfl, ⟨⟨?_, ?_, fun g hg ho => ?_⟩, fun i t hi => ?_, fun i t hi => ?_, List.suffix_cons f fl, ?_,
    fun g hg ho => ?_, hc⟩, pte_enter hn hmf fun i t hi => ?_⟩
  · simp only [Vm.newTable, storePage_kva hu.lt, bind, Except.bind]
    rw [show store (s1.setPage f (fill PGSIZE 0#8)) _ _ = .ok s3 from hst]
    rfl
  · refine hl.toPagedir.enter (pdx_lt_npdentries va) hu hfo (fun i hi => ?_) ?_
    · rw [hmd, word_setWord_ne _ _ (by omega)]
    · rw [hmd, word_setWord_self _ _ hpd]
      exact table_entry hu.lt
  · refine hf.congr (fun g hg => ?_) rfl
    have h1 : g ≠ f := by rintro rfl; exact hffl hg
    have h2 : g ≠ d := fun he => hl.apart g (by simp [hg]) (.inl he)
    rw [hmg g h1 h2, hm]
  · rcases ho with rfl | ⟨i, hi⟩
    · exact hl.apart g (by simp [hg]) (.inl rfl)
    · rcases enter_cases hi with ⟨_, rfl⟩ | ⟨_, ht⟩
      · exact hffl hg
      · exact hl.apart g (by simp [hg]) (.inr ⟨i, ht⟩)
  · have he : i ≠ PDX va := by rintro rfl; rw [hn] at hi; cases hi
    rw [enter_ne T f he]
    exact hi
  · rcases enter_cases hi with ⟨_, rfl⟩ | ⟨_, ht⟩
    · exact .inr (by simp)
    · exact .inl ht
  · rw [vacant_enter (f := f) (pdx_lt_npdentries va) hn, List.length_cons]
    omega
  · exact hmg g (by rintro rfl; exact hg (by simp)) fun he => ho (.inl he)
  · exact hmg t (by rintro rfl; exact hfo (.inr ⟨i, hi⟩)) (by rintro rfl; exact hl.ne i hi)

theorem lacking_pos (hk : k < NPDENTRIES) (hS : S k = true) (hn : T k = none) : 0 < lacking S T :=
  card_pos.mpr ⟨k, by simp [hk, hS, hn]⟩

theorem Takes.walkpgdir (hp : Takes h d M O J X E F U) (hl : Layout K s d T fl) (hM : Within M d T fl) (hj : J s)
    (hr : Room F S T fl c) (va : Nat) (hS : S (PDX va) = true) :
    Ends E (fun r => (r.1 = 0 ∧ F ∧ fl = [] ∧ X s r.2) ∨ ∃ T' fl' t, r.1 = kva t + 4 * PTX va ∧ T' (PDX va) = some t ∧
      Extends K s d T fl r.2 T' fl' ∧ (∀ x, pte r.2 T' x = pte s T x) ∧ J r.2 ∧ ∀ i, i ≠ PDX va → T' i = T i)
      (walkpgdir h s (kva d) va) := by
  have hpd := pdx_lt va
  simp only [Vm.walkpgdir, load_kva hl.dir.lt (show 4 * PDX va < PGSIZE by omega), bind, Except.bind]
  cases ht : T (PDX va) with
  | some t =>
    obtain ⟨h1, h2⟩ := hl.present _ t ht
    rw [if_pos h1, pte_addr, h2, P2V_frame (hl.table _ t ht).2.lt]
    exact .inr ⟨T, fl, t, rfl, ht, .refl hl, fun _ => rfl, hj, fun _ _ => rfl⟩
  | none =>
    rw [if_neg (by rw [hl.absent _ (pdx_lt_npdentries va) ht]; exact Bool.false_ne_true)]
    have hb : F ∨ 0 < fl.length := hr.imp id fun hr => by
      have := lacking_pos (pdx_lt_npdentries va) hS ht
      omega
    refine (hp.take hl.free hj (hp.tabled hl.toPagedir) hb).bind ?_
    rintro ⟨p, s1⟩ hr
    dsimp only at hr ⊢
    rcases hr with ⟨rfl, hfail⟩ | ⟨f, fl', rfl, rfl, hm, hc, hf, hj1⟩
    · rw [if_pos rfl]
      exact .inl ⟨rfl, hfail⟩
    · rw [if_neg kva_ne_zero]
      obtain ⟨s', hs, he, hx, hpte⟩ := hl.newTable ht hm hc hf
      rw [hs]
      exact .inr ⟨_, fl', f, rfl, enter_self T _ f, hx, hpte, hp.grow hM hx hj1 hm hc he, fun i hi => enter_ne T f hi⟩

/-! ## `mappages` -/

theorem Layout.setEntry (hl : Layout K s d T fl) (ht : T (PDX a) = some t) (w : BitVec 32) :
    ∃ s', store s (kva t + 4 * PTX a) w = .ok s' ∧ s'.ext = s.ext ∧ (∀ g, g ≠ t → s'.mem g = s.mem g) ∧
      Extends K s d T fl s' T fl ∧ ∀ x, pte s' T x = if SamePage x a then w else pte s T x := by
  have hp := ptx_lt a
  have hu := (hl.table _ t ht).2
  have htd : d ≠ t := by rintro rfl; exact hl.ne _ ht
  have htf : t ∉ fl := fun hm => hl.apart t hm (.inr ⟨_, ht⟩)
  refine ⟨s.setPage t ((s.mem t).setWord (4 * PTX a) w), store_kva hu.lt (by omega), rfl,
    fun g hg => mem_setPage_ne _ hg, ⟨⟨hl.toPagedir.congr (mem_setPage_ne _ htd),
      hl.free.setPage htf _, hl.apart⟩, fun _ _ => id, fun _ _ => .inl,
      List.suffix_refl _, rfl, fun g _ ho => mem_setPage_ne _ ?_, rfl⟩, fun x => ?_⟩
  · rintro rfl
    exact ho (.inr ⟨_, ht⟩)
  · cases hx : T (PDX x) with
    | none =>
      have hne : ¬ SamePage x a := fun hs => by rw [hs.1, ht] at hx; cases hx
      rw [if_neg hne, pte_none hx, pte_none hx]
    | some t' =>
      rw [pte_some hx, pte_some hx]
      by_cases hs : SamePage x a
      · obtain rfl : t' = t := by rw [hs.1, ht] at hx; cases hx; rfl
        rw [if_pos hs, mem_setPage_self, hs.2, word_setWord_self _ _ hp]
      · rw [if_neg hs]
        by_cases htt : t' = t
        · subst htt
          have hd : PDX x = PDX a := hl.inj _ _ _ hx ht
          have hne : PTX x ≠ PTX a := fun he => hs ⟨hd, he⟩
          rw [mem_setPage_self, word_setWord_ne _ _ (by omega)]
        · rw [mem_setPage_ne _ htt]

theorem Extends.sameMem (hx : Extends K s d T fl s1 T1 fl1) (hs : SameMem s1 s') : Extends K s d T fl s' T1 fl1 := by
  refine ⟨⟨hx.layout.toPagedir.congr (by rw [hs.mem]), hx.layout.free.congr (fun g _ => by rw [hs.mem]) hs.freelist,
    hx.layout.apart⟩, hx.sub, hx.new, hx.suffix, hx.count, fun g hg ho => ?_, hs.cr3.trans hx.cr3⟩
  rw [hs.mem]
  exact hx.mem g hg ho

def entryFor (pa : Nat) (perm : BitVec 32) : BitVec 32 := .ofNat 32 pa ||| perm ||| PTE_P

theorem Takes.setPte (hp : Takes h d M O J X E F U) (hl : Layout K s d T fl) (hM : Within M d T fl) (hj : J s)
    (ht : T (PDX a) = some t) (hn : has (pte s T a) PTE_P = false) (va : Nat) (hU : U (has (entryFor pa perm) PTE_U)) :
    Ends E (fun s' => Extends K s d T fl s' T fl ∧ (∀ x, pte s' T x = if SamePage x a then entryFor pa perm else pte s T x) ∧
      J s') (setPte h s (kva d) va (kva t + 4 * PTX a) pa perm) := by
  obtain ⟨s1, hs, he, -, hx, hpte⟩ := hl.setEntry ht (entryFor pa perm)
  simp only [Vm.setPte, hl.toPagedir.load ht, bind, Except.bind, hn, Bool.false_eq_true, if_false]
  rw [show store s (kva t + 4 * PTX a) (.ofNat 32 pa ||| perm ||| PTE_P) = .ok s1 from hs]
  simp only [hx.layout.toPagedir.load ht]
  have hu : U (has (pte s1 T a) PTE_U) := by rw [hpte, if_pos ⟨rfl, rfl⟩]; exact hU
  refine (hp.lru_insert s1 va _ (hp.grow hM hx hj rfl rfl he) hu).imp ?_
  rintro s' ⟨hsame, hj'⟩
  refine ⟨hx.sameMem hsame, fun x => ?_, hj'⟩
  rw [← hpte x]
  exact pte_congr (d := d) (fun g _ => by rw [hsame.mem]) x

structure Mapped (K : Kernel) (J : State σ → Prop) (s : State σ) (d : Nat) (T : Nat → Option Nat) (fl : List Nat) (a b pa : Nat)
    (perm : BitVec 32) (s' : State σ) (T' : Nat → Option Nat) (fl' : List Nat) : Prop where
  grows : Extends K s d T fl s' T' fl'
  pte : ∀ x, x < 2 ^ 32 → Vm.pte s' T' x =
    if a ≤ x ∧ x < b then entryFor (pa + (PGROUNDDOWN x - a)) perm else Vm.pte s T x
  tables : ∀ i, T i = none → (∀ x, a ≤ x → x < b → PDX x ≠ i) → T' i = none
  inv : J s'

structure PartMapped (K : Kernel) (J : State σ → Prop) (X : State σ → State σ → Prop) (s : State σ) (d : Nat)
    (T : Nat → Option Nat) (fl : List Nat) (a b pa : Nat) (perm : BitVec 32) (s1 : State σ) (T1 : Nat → Option Nat)
    (s' : State σ) : Prop where
  mapped : Mapped K J s d T fl a b pa perm s1 T1 []
  left : X s1 s'

theorem Mapped.refl (hl : Layout K s d T fl) (hj : J s) (a pa : Nat) (perm : BitVec 32) : Mapped K J s d T fl a a pa perm s T fl :=
  ⟨.refl hl, fun x _ => by rw [if_neg (by omega)], fun _ hi _ => hi, hj⟩

theorem Mapped.wrap (h : Mapped K J s d T fl a b (pa % 2 ^ 32) perm s' T' fl') : Mapped K J s d T fl a b pa perm s' T' fl' := by
  refine { h with pte := fun x hx => ?_ }
  have hw (o : Nat) : BitVec.ofNat 32 (pa % 2 ^ 32 + o) = .ofNat 32 (pa + o) := BitVec.eq_of_toNat_eq (Nat.mod_add_mod ..)
  rw [h.pte x hx, entryFor, entryFor, hw]

theorem Mapped.room (hm : Mapped K J s d T fl a b pa perm s' T' fl') (hS : ∀ x, a ≤ x → x < b → S (PDX x) = true)
    (hr : Room F S T fl c) : Room F S T' fl' c :=
  hm.grows.room (fun i hi hs => hm.tables i hi fun x h1 h2 he => by
    rw [← he, hS x h1 h2] at hs
    cases hs) hr

theorem Takes.mapPage (hp : Takes h d M O J X E F U) (hl : Layout K s d T fl) (hM : Within M d T fl) (hj : J s) (hr : Room F S T fl c)
    (hS : S (PDX a) = true) (ha : a % PGSIZE = 0) (hlt : a < 2 ^ 32) (hn : has (pte s T a) PTE_P = false)
    (va : Nat) (hU : U (has (entryFor pa perm) PTE_U)) :
    Ends E (fun r => (r.1 = false ∧ F ∧ fl = [] ∧ X s r.2) ∨
      (r.1 = true ∧ ∃ T' fl', Mapped K J s d T fl a (a + PGSIZE) pa perm r.2 T' fl'))
      (mapPage h s (kva d) va a pa perm) := by
  refine (hp.walkpgdir hl hM hj hr a hS).bind ?_
  rintro ⟨p, s1⟩ hr
  dsimp only at hr ⊢
  rcases hr with ⟨rfl, hfail⟩ | ⟨T1, fl1, t, rfl, ht, hx, hpte, hj1, hT⟩
  · rw [if_pos rfl]
    exact .inl ⟨rfl, hfail⟩
  · rw [if_neg (by simp [kva, KERNBASE])]
    refine (hp.setPte hx.layout (hx.within hM) hj1 ht (by rw [hpte]; exact hn) va hU).bind ?_
    rintro s2 ⟨hx2, hpte2, hj2⟩
    refine .inr ⟨rfl, T1, fl1, hx.trans hx2, fun x hx' => ?_, fun i hi hr => ?_, hj2⟩
    swap
    · rw [hT i (hr a (le_refl a) (Nat.lt_add_of_pos_right (by decide))).symm]
      exact hi
    rw [hpte2, hpte]
    by_cases hs : SamePage x a
    · have hb := (samePage_aligned hx' hlt ha).mp hs
      have hdown : PGROUNDDOWN x - a = 0 := by
        simp only [PGROUNDDOWN, PGSIZE] at *
        omega
      rw [if_pos hs, if_pos hb, hdown, add_zero]
    · rw [if_neg hs, if_neg fun hb => hs ((samePage_aligned hx' hlt ha).mpr hb)]

theorem Mapped.trans (h1 : Mapped K J s d T fl a b pa perm s1 T1 fl1) (h2 : Mapped K J s1 d T1 fl1 b c (pa + (b - a)) perm s' T' fl')
    (hab : a ≤ b) (hb : b % PGSIZE = 0) (hbc : b ≤ c) : Mapped K J s d T fl a c pa perm s' T' fl' := by
  refine ⟨h1.grows.trans h2.grows, fun x hx => ?_, fun i hi hr => ?_, h2.inv⟩
  swap
  · exact h2.tables i (h1.tables i hi fun x hx1 hx2 => hr x hx1 (by omega)) fun x hx1 hx2 => hr x (by omega) hx2
  rw [h2.pte x hx]
  by_cases hlow : x < b
  · rw [if_neg (by omega), h1.pte x hx]
    by_cases ha : a ≤ x
    · rw [if_pos ⟨ha, hlow⟩, if_pos ⟨ha, by omega⟩]
    · rw [if_neg fun hc => ha hc.1, if_neg fun hc => ha hc.1]
  · by_cases hc : x < c
    · have hdown : pa + (b - a) + (PGROUNDDOWN x - b) = pa + (PGROUNDDOWN x - a) := by
        simp only [PGROUNDDOWN, PGSIZE] at *
        omega
      rw [if_pos ⟨by omega, hc⟩, if_pos ⟨by omega, hc⟩, hdown]
    · rw [if_neg fun h => hc h.2, if_neg fun h => hc h.2, h1.pte x hx, if_neg fun h => hlow h.2]

theorem Takes.mapLoop (hp : Takes h d M O J X E F U) (k : Nat) (hl : Layout K s d T fl) (hM : Within M d T fl) (hj : J s)
    (hr : Room F S T fl c) (hS : ∀ x, a ≤ x → x < a + PGSIZE * (k + 1) → S (PDX x) = true) (ha : a % PGSIZE = 0)
    (hlt : a + PGSIZE * (k + 1) ≤ 2 ^ 32)
    (hn : ∀ x, a ≤ x → x < a + PGSIZE * (k + 1) → has (pte s T x) PTE_P = false) (va : Nat) (hpm : pa % PGSIZE = 0)
    (hU : ∀ q, q % PGSIZE = 0 → U (has (entryFor q perm) PTE_U)) :
    Ends E (fun r => (r.1 = false ∧ F ∧ ∃ s1 T1 b, a ≤ b ∧ b ≤ a + PGSIZE * (k + 1) ∧
        PartMapped K J X s d T fl a b pa perm s1 T1 r.2) ∨
      (r.1 = true ∧ ∃ T' fl', Mapped K J s d T fl a (a + PGSIZE * (k + 1)) pa perm r.2 T' fl'))
      (mapLoop h k s (kva d) va a pa perm) := by
  have h0 : 0 < PGSIZE := by decide
  induction k generalizing s T fl a pa with
  | zero =>
    rw [Vm.mapLoop, Nat.mul_one]
    refine (hp.mapPage hl hM hj hr (hS a (le_refl a) (by omega)) ha (by omega) (hn a (le_refl a) (by omega)) va (hU pa hpm)).imp
      fun r hr => hr.imp ?_ id
    rintro ⟨hok, hF, rfl, hX⟩
    exact ⟨hok, hF, s, T, a, le_refl a, by omega, .refl hl hj a pa perm, hX⟩
  | succ k ih =>
    have hmul : PGSIZE * (k + 1 + 1) = PGSIZE + PGSIZE * (k + 1) := by rw [mul_add, mul_one, add_comm]
    have hpos : 0 < PGSIZE * (k + 1) := Nat.mul_pos h0 (Nat.succ_pos k)
    rw [hmul] at hlt hn hS
    rw [Vm.mapLoop]
    refine (hp.mapPage hl hM hj hr (hS a (le_refl a) (by omega)) ha (by omega) (hn a (le_refl a) (by omega)) va (hU pa hpm)).bind
      fun ⟨ok, s1⟩ h1 => ?_
    dsimp only at h1 ⊢
    rcases h1 with ⟨rfl, hF, rfl, hX⟩ | ⟨rfl, T1, fl1, hm⟩
    · exact .inl ⟨rfl, hF, s, T, a, le_refl a, by omega, .refl hl hj a pa perm, hX⟩
    · have ha' : (a + PGSIZE) % PGSIZE = 0 := by rw [Nat.add_mod_right]; exact ha
      have hsub : pa + (a + PGSIZE - a) = pa + PGSIZE := by omega
      have hpm' : (pa + PGSIZE) % 2 ^ 32 % PGSIZE = 0 := by rw [Nat.mod_mod_of_dvd _ (by decide), Nat.add_mod_right]; exact hpm
      rw [if_pos rfl, Nat.mod_eq_of_lt (show a + PGSIZE < 2 ^ 32 by omega)]
      refine (ih hm.grows.layout (hm.grows.within hM) hm.inv (hm.room (fun x h1 h2 => hS x h1 (by omega)) hr)
        (fun x h1 h2 => hS x (by omega) (by omega)) ha' (by omega) (fun x h1 h2 => ?_) hpm').imp fun ⟨ok, s2⟩ hr => hr.imp ?_ ?_
      · rw [hm.pte x (by omega), if_neg (by omega)]
        exact hn x (by omega) (by omega)
      · rintro ⟨hok, hF, s3, T3, b, hb1, hb2, hst⟩
        have hm3 := hst.mapped.wrap
        rw [← hsub] at hm3
        exact ⟨hok, hF, s3, T3, b, by omega, by omega, hm.trans hm3 (by omega) ha' hb1, hst.left⟩
      · rintro ⟨hok, T2, fl2, hm2⟩
        replace hm2 := hm2.wrap
        rw [← hsub] at hm2
        rw [hmul, ← add_assoc]
        exact ⟨hok, T2, fl2, hm.trans hm2 (by omega) ha' (by omega)⟩

theorem Takes.mappages {size : Nat} (hp : Takes h d M O J X E F U) (hl : Layout K s d T fl) (hM : Within M d T fl) (hj : J s)
    (hr : Room F S T fl c) (hs : 0 < size) (hlt : va + size ≤ 2 ^ 32)
    (hS : ∀ x, PGROUNDDOWN va ≤ x → x < PGROUNDDOWN (va + size - 1) + PGSIZE → S (PDX x) = true)
    (hn : ∀ x, PGROUNDDOWN va ≤ x → x < PGROUNDDOWN (va + size - 1) + PGSIZE → has (pte s T x) PTE_P = false)
    (hpm : pa % PGSIZE = 0) (hU : ∀ q, q % PGSIZE = 0 → U (has (entryFor q perm) PTE_U)) :
    Ends E (fun r => (r.1 = false ∧ F ∧ ∃ s1 T1 b, PGROUNDDOWN va ≤ b ∧ b ≤ PGROUNDDOWN (va + size - 1) + PGSIZE ∧
        PartMapped K J X s d T fl (PGROUNDDOWN va) b pa perm s1 T1 r.2) ∨
      (r.1 = true ∧ ∃ T' fl', Mapped K J s d T fl (PGROUNDDOWN va) (PGROUNDDOWN (va + size - 1) + PGSIZE) pa perm r.2 T' fl'))
      (mappages h s (kva d) va size pa perm) := by
  have hlast : (va + size + 2 ^ 32 - 1) % 2 ^ 32 = va + size - 1 := by omega
  have hcount : (PGROUNDDOWN (va + size - 1) + 2 ^ 32 - PGROUNDDOWN va) % 2 ^ 32 / PGSIZE =
      (va + size - 1) / PGSIZE - va / PGSIZE := by
    simp only [PGROUNDDOWN, PGSIZE]
    omega
  have hend : PGROUNDDOWN va + PGSIZE * ((va + size - 1) / PGSIZE - va / PGSIZE + 1) =
      PGROUNDDOWN (va + size - 1) + PGSIZE := by
    simp only [PGROUNDDOWN, PGSIZE]
    omega
  have hva : PGROUNDDOWN va + PGSIZE * ((va + size - 1) / PGSIZE - va / PGSIZE + 1) ≤ 2 ^ 32 := by
    rw [hend]
    simp only [PGROUNDDOWN, PGSIZE]
    omega
  rw [← hend] at hn hS ⊢
  simp only [Vm.mappages, hlast, hcount]
  exact hp.mapLoop _ hl hM hj hr hS (Nat.mul_mod_left _ _) hva hn va hpm hU

theorem Takes.mappages_page (hp : Takes h d M O J X E F U) (hl : Layout K s d T fl) (hM : Within M d T fl) (hj : J s) (hr : Room F S T fl c)
    (hS : S (PDX a) = true) (ha : a % PGSIZE = 0) (hlt : a + PGSIZE ≤ 2 ^ 32) (hn : has (pte s T a) PTE_P = false)
    (hU : U (has (entryFor pa perm) PTE_U)) :
    Ends E (fun r => (r.1 = false ∧ F ∧ fl = [] ∧ X s r.2) ∨
      (r.1 = true ∧ ∃ T' fl', Mapped K J s d T fl a (a + PGSIZE) pa perm r.2 T' fl')) (Vm.mappages h s (kva d) a PGSIZE pa perm) := by
  have hlow : PGROUNDDOWN a = a := by
    simp only [PGROUNDDOWN, PGSIZE] at ha ⊢
    omega
  have hlast : PGROUNDDOWN ((a + PGSIZE + 2 ^ 32 - 1) % 2 ^ 32) = a := by
    simp only [PGROUNDDOWN, PGSIZE] at ha hlt ⊢
    omega
  have hcount : (a + 2 ^ 32 - a) % 2 ^ 32 / PGSIZE = 0 := by
    rw [Nat.add_sub_cancel_left, Nat.mod_self, Nat.zero_div]
  simp only [Vm.mappages, hlow, hlast, hcount, Vm.mapLoop]
  have h0 : 0 < PGSIZE := by decide
  exact hp.mapPage hl hM hj hr hS ha (by omega) hn a hU

end Xv6.Vm
