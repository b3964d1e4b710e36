import Xv6.Vm.Lemmas.Steady
import Xv6.Vm.Lemmas.Uvm

/-! # Growing address spaces -/

namespace Xv6.Vm

open Xv6.Lib List Bytes

attribute [local irreducible] V2P P2V NPDENTRIES

variable {σ : Type} {K : Kernel} {h : Hooks σ} {E : Stop → Prop} {M N O : Nat → Prop} {J : State σ → Prop}
  {X : State σ → State σ → Prop} {F : Prop} {U : Bool → Prop}
variable {s s' s1 : State σ} {d f t a b n x oldsz newsz : Nat} {T T' T1 : Nat → Option Nat} {fl fl' fl1 : List Nat}
  {w w' perm : BitVec 32}

structure Image (K : Kernel) (s : State σ) (d : Nat) (T : Nat → Option Nat) (fl : List Nat) : Prop
    extends Layout K s d T fl, Uvm K s d T where
  busy : ∀ x, x < KERNBASE → has (pte s T x) PTE_P = true → frame (pte s T x) ∉ fl

/-! ## A new page -/

theorem user_entry (hf : f < NFRAMES) :
    has (entryFor (V2P (kva f)) (PTE_W ||| PTE_U)) PTE_P = true ∧ has (entryFor (V2P (kva f)) (PTE_W ||| PTE_U)) PTE_U = true ∧
      frame (entryFor (V2P (kva f)) (PTE_W ||| PTE_U)) = f := by
  refine ⟨has_PTE_P_or _ _, ?_, ?_⟩
  · rw [has_PTE_U, entryFor]
    simp [PTE_W, PTE_U, PTE_P]
  · rw [V2P_kva hf, entryFor, BitVec.or_assoc]
    refine frame_or ?_ (by decide)
    simp only [NFRAMES, PHYSTOP, PGSIZE] at hf
    omega

theorem Image.mapped {b : Nat} (hs : Image K s1 d T (f :: fl)) (hpte : ∀ x, pte s T x = pte s1 T x)
    (hm : Mapped K J s d T fl a b (V2P (kva f)) (PTE_W ||| PTE_U) s' T' fl') (hb : b = a + PGSIZE) (ha : a % PGSIZE = 0)
    (hK : b ≤ KERNBASE) : Image K s' d T' fl' := by
  subst hb
  have hlt : KERNBASE < 2 ^ 32 := by decide
  have hfu := hs.free.usable f (by simp)
  have hffl : f ∉ fl := (nodup_cons.mp hs.free.nodup).1
  have hfo : ¬ Owns d T f := hs.apart f (by simp)
  have hsub : ∀ g, g ∈ fl' → g ∈ fl := fun g hg => hm.grows.suffix.mem hg
  obtain ⟨hP, hU, hF⟩ := user_entry hfu.lt
  have hin (x : Nat) (h1 : a ≤ x) (h2 : x < a + PGSIZE) : pte s' T' x = entryFor (V2P (kva f)) (PTE_W ||| PTE_U) := by
    have hdown : PGROUNDDOWN x - a = 0 := by
      simp only [PGROUNDDOWN, PGSIZE] at *
      omega
    rw [hm.pte x (by omega), if_pos ⟨h1, h2⟩, hdown, add_zero]
  have hout (x : Nat) (hx : x < 2 ^ 32) (hn : ¬ (a ≤ x ∧ x < a + PGSIZE)) : pte s' T' x = pte s1 T x := by
    rw [hm.pte x hx, if_neg hn, hpte]
  have hold (x : Nat) (hx : x < KERNBASE) (hp : has (pte s1 T x) PTE_P = true) :
      frame (pte s1 T x) ≠ f ∧ frame (pte s1 T x) ∉ fl := by
    have := hs.busy x hx hp
    rw [mem_cons, not_or] at this
    exact this
  refine { hm.grows.layout with user := ?_, single := ?_, kernel := ?_, busy := ?_ }
  · intro x hx hp
    by_cases hx' : a ≤ x ∧ x < a + PGSIZE
    · rw [hin x hx'.1 hx'.2, hF]
      exact ⟨hfu, fun ho => (hm.grows.owns ho).elim hfo hffl⟩
    · rw [hout x (by omega) hx'] at hp ⊢
      obtain ⟨hu, ho⟩ := hs.user x hx hp
      exact ⟨hu, fun ho' => (hm.grows.owns ho').elim ho (hold x hx hp).2⟩
  · intro x y hx hy hp hq he
    by_cases hx' : a ≤ x ∧ x < a + PGSIZE
    · by_cases hy' : a ≤ y ∧ y < a + PGSIZE
      · simp only [PGSIZE] at *
        omega
      · rw [hout y (by omega) hy'] at hq he
        rw [hin x hx'.1 hx'.2, hF] at he
        exact absurd he.symm (hold y hy hq).1
    · rw [hout x (by omega) hx'] at hp he
      by_cases hy' : a ≤ y ∧ y < a + PGSIZE
      · rw [hin y hy'.1 hy'.2, hF] at he
        exact absurd he (hold x hx hp).1
      · rw [hout y (by omega) hy'] at hq he
        exact hs.single x y hx hy hp hq he
  · intro x h1 h2
    rw [hout x h2 (by omega)]
    exact hs.kernel x h1 h2
  · intro x hx hp hfl
    by_cases hx' : a ≤ x ∧ x < a + PGSIZE
    · rw [hin x hx'.1 hx'.2, hF] at hfl
      exact hffl (hsub f hfl)
    · rw [hout x (by omega) hx'] at hp hfl
      exact (hold x hx hp).2 (hsub _ hfl)

structure Grown (K : Kernel) (J : State σ → Prop) (s : State σ) (d : Nat) (T : Nat → Option Nat) (fl : List Nat) (a b : Nat)
    (s' : State σ) (T' : Nat → Option Nat) (fl' : List Nat) : Prop where
  image : Image K s' d T' fl'
  suffix : fl' <:+ fl
  sub : ∀ i t, T i = some t → T' i = some t
  new : ∀ i t, T' i = some t → T i = some t ∨ t ∈ fl
  old : ∀ x, x < 2 ^ 32 → ¬ (a ≤ x ∧ x < b) → pte s' T' x = pte s T x
  page : ∀ x, a ≤ x → x < b → ∃ f ∈ fl, Usable K f ∧ pte s' T' x = entryFor (V2P (kva f)) (PTE_W ||| PTE_U) ∧
    s'.mem f = fill PGSIZE 0#8
  mem : ∀ g, g ∉ fl → ¬ Owns d T g → s'.mem g = s.mem g
  cr3 : s'.cr3 = s.cr3
  inv : J s'

theorem Grown.refl (hs : Image K s d T fl) (hj : J s) (a : Nat) : Grown K J s d T fl a a s T fl :=
  ⟨hs, suffix_refl _, fun _ _ => id, fun _ _ => .inl, fun _ _ _ => rfl, fun x h1 h2 => by omega, fun _ _ _ => rfl, rfl, hj⟩

theorem Grown.owns {g : Nat} (hg : Grown K J s d T fl a b s' T' fl') (ho : Owns d T' g) : Owns d T g ∨ g ∈ fl := by
  rcases ho with rfl | ⟨i, hi⟩
  · exact .inl (.inl rfl)
  · exact (hg.new i g hi).imp (fun ht => .inr ⟨i, ht⟩) id

theorem Grown.within (hg : Grown K J s d T fl a b s' T' fl') (hM : Within M d T fl) : Within M d T' fl' := by
  rintro g (h | h)
  · exact hM g (.inl (hg.suffix.mem h))
  · exact hM g (hg.owns h).symm

theorem Grown.trans {m : Nat} (h1 : Grown K J s d T fl a m s1 T1 fl1) (h2 : Grown K J s1 d T1 fl1 m b s' T' fl') (ham : a ≤ m)
    (hmb : m ≤ b) (hb : b ≤ KERNBASE) : Grown K J s d T fl a b s' T' fl' := by
  have hK : KERNBASE < 2 ^ 32 := by decide
  refine ⟨h2.image, h2.suffix.trans h1.suffix, fun i t ht => h2.sub i t (h1.sub i t ht), fun i t ht => ?_, fun x hx hn => ?_,
    fun x hx1 hx2 => ?_, fun g hg ho => ?_, h2.cr3.trans h1.cr3, h2.inv⟩
  · exact (h2.new i t ht).elim (h1.new i t) fun hf => .inr (h1.suffix.mem hf)
  · rw [h2.old x hx (by omega), h1.old x hx (by omega)]
  · by_cases hlow : x < m
    · obtain ⟨f, hf, hu, hpte, hmem⟩ := h1.page x hx1 hlow
      obtain ⟨hP, -, hF⟩ := user_entry hu.lt
      have hp : has (pte s1 T1 x) PTE_P = true := by rw [hpte]; exact hP
      have ho := (h1.image.user x (by omega) hp).2
      have hfl := h1.image.busy x (by omega) hp
      rw [hpte, hF] at ho hfl
      exact ⟨f, hf, hu, by rw [h2.old x (by omega) (by omega), hpte], by rw [h2.mem f hfl ho, hmem]⟩
    · obtain ⟨f, hf, hu, hpte, hmem⟩ := h2.page x (by omega) hx2
      exact ⟨f, h1.suffix.mem hf, hu, hpte, hmem⟩
  · rw [h2.mem g (fun hm => hg (h1.suffix.mem hm)) fun ho' => (h1.owns ho').elim ho hg, h1.mem g hg ho]

/-! ## What is undone -/

/-- The entry is the same, or it has lost `PTE_A`. -/
def Aged (w w' : BitVec 32) : Prop := w' = w ∨ w' = w &&& ~~~PTE_A

theorem Aged.flags (hw : Aged w w') : has w' PTE_P = has w PTE_P ∧ has w' PTE_U = has w PTE_U ∧ frame w' = frame w := by
  rcases hw with rfl | rfl
  · exact ⟨rfl, rfl, rfl⟩
  · refine ⟨has_PTE_P_clearA w, ?_, frame_clearA w⟩
    rw [has_PTE_U, has_PTE_U, BitVec.getLsbD_and]
    simp [PTE_A]

section

variable (hs : Image K s d T fl)
include hs

theorem Image.aged (hd : s'.mem d = s.mem d) (hpte : ∀ x, Aged (pte s T x) (pte s' T x))
    (hfl : ∀ g ∈ fl, s'.mem g = s.mem g) (hl : s'.freelist = s.freelist) : Image K s' d T fl := by
  have hP (x : Nat) := (hpte x).flags.1
  have hU (x : Nat) := (hpte x).flags.2.1
  have hF (x : Nat) := (hpte x).flags.2.2
  refine { hs.toPagedir.congr hd with
    free := hs.free.congr hfl hl, apart := hs.apart, user := ?_, single := ?_, kernel := ?_, busy := ?_ }
  · simp only [hP, hF]; exact hs.user
  · simp only [hP, hF]; exact hs.single
  · simp only [hU]; exact hs.kernel
  · simp only [hP, hF]; exact hs.busy

theorem Image.users (hb : b ≤ KERNBASE)
    (hN : ∀ x, x < KERNBASE → has (pte s T x) PTE_P = true → N (frame (pte s T x))) : Users K N s d T fl a b := by
  refine ⟨fun x _ _ hx hp => ?_, fun x y hx hy _ hxb _ hyb hp hq he => ?_⟩
  · have hxK : x < KERNBASE := by omega
    obtain ⟨hu, ho⟩ := hs.user x hxK hp
    exact ⟨hu, hs.busy x hxK hp, ho, hN x hxK hp⟩
  · have := hs.single x y (by omega) (by omega) hp hq he
    simp only [PGSIZE] at *
    omega

theorem Image.released (hr : Released K J s d T fl a b s' fl') (ha : a % PGSIZE = 0) (hb : b ≤ KERNBASE) :
    Image K s' d T fl' := by
  have hK : KERNBASE < 2 ^ 32 := by decide
  have hkeep (x : Nat) (hx : x < 2 ^ 32) (hp : has (pte s' T x) PTE_P = true) :
      pte s' T x = pte s T x ∧ ¬ (a ≤ x ∧ PGROUNDDOWN x < b) := by
    have hpte := hr.pte x hx
    split at hpte
    · rw [hpte, has_zero] at hp
      cases hp
    · rename_i hn
      rw [hpte] at hp
      exact ⟨hpte, fun h => hn ⟨h.1, h.2, hp⟩⟩
  refine { hr.layout with user := ?_, single := ?_, kernel := ?_, busy := ?_ }
  · intro x hx hp
    have he := (hkeep x (by omega) hp).1
    rw [he] at hp ⊢
    exact hs.user x hx hp
  · intro x y hx hy hp hq
    have hex := (hkeep x (by omega) hp).1
    have hey := (hkeep y (by omega) hq).1
    rw [hex] at hp ⊢
    rw [hey] at hq ⊢
    exact hs.single x y hx hy hp hq
  · intro x h1 h2
    have hno : ¬ PGROUNDDOWN x < b := by
      simp only [PGROUNDDOWN, PGSIZE, KERNBASE] at *
      omega
    rw [hr.pte x h2, if_neg fun h => hno h.2.1]
    exact hs.kernel x h1 h2
  · intro x hx hp hfl
    obtain ⟨he, hout⟩ := hkeep x (by omega) hp
    rw [he] at hp hfl
    rcases (hr.frames _).mp hfl with hfl | ⟨y, hy0, hy1, hy2, hy3, hy4⟩
    · exact hs.busy x hx hp hfl
    · have := hs.single y x (by omega) hx hy3 hp hy4
      apply hout
      simp only [PGROUNDDOWN, PGSIZE] at *
      omega

theorem Image.kfree (hu : Usable K f) (hf : f ∉ fl) (ho : ¬ Owns d T f)
    (hx : ∀ x, x < KERNBASE → has (pte s T x) PTE_P = true → frame (pte s T x) ≠ f) :
    ∃ s', Vm.kfree K s (kva f) = .ok s' ∧ Image K s' d T (f :: fl) ∧ (∀ g, g ≠ f → s'.mem g = s.mem g) ∧ s'.cr3 = s.cr3 ∧
      s'.ext = s.ext := by
  obtain ⟨s', hk, hl, hm, hc, he⟩ := hs.toLayout.kfree hu hf ho
  have hpte : ∀ x, pte s' T x = pte s T x := pte_congr (d := d) fun g hg => hm g (by rintro rfl; exact ho hg)
  refine ⟨s', hk, { hl with user := ?_, single := ?_, kernel := ?_, busy := ?_ }, hm, hc, he⟩
  · simp only [hpte]; exact hs.user
  · simp only [hpte]; exact hs.single
  · simp only [hpte]; exact hs.kernel
  · intro x hxK hp hfl
    rw [hpte] at hp hfl
    rcases mem_cons.mp hfl with he | hfl
    · exact hx x hxK hp he
    · exact hs.busy x hxK hp hfl

end

def Inside (M : Nat → Prop) (s : State σ) (d : Nat) (T : Nat → Option Nat) (fl : List Nat) : Prop :=
  Within M d T fl ∧ ∀ x, x < KERNBASE → has (pte s T x) PTE_P = true → M (frame (pte s T x))

theorem Grown.inside (hg : Grown K J s d T fl a b s' T' fl') (hM : Inside M s d T fl) : Inside M s' d T' fl' := by
  have hK : KERNBASE < 2 ^ 32 := by decide
  refine ⟨hg.within hM.1, fun x hx hp => ?_⟩
  by_cases hin : a ≤ x ∧ x < b
  · obtain ⟨f, hf, hu, hpte, _⟩ := hg.page x hin.1 hin.2
    rw [hpte, (user_entry hu.lt).2.2]
    exact hM.1 f (.inl hf)
  · rw [hg.old x (by omega) hin] at hp ⊢
    exact hM.2 x hx hp

/-- A failed `kalloc` clears `PTE_A` of an entry at most, as far as the frames `M` are concerned. -/
def Ages (d : Nat) (M : Nat → Prop) (J : State σ → Prop) (X : State σ → State σ → Prop) : Prop :=
  ∀ K s s' T, X s s' → Layout K s d T [] → Within M d T [] → J s' ∧ s'.mem d = s.mem d ∧ (∀ x, Aged (pte s T x) (pte s' T x)) ∧
    (∀ g, M g → ¬ Owns d T g → s'.mem g = s.mem g) ∧ s'.freelist = s.freelist ∧ s'.cr3 = s.cr3

structure Shrunk (K : Kernel) (J : State σ → Prop) (M : Nat → Prop) (s : State σ) (d : Nat) (T : Nat → Option Nat) (a b : Nat)
    (s' : State σ) (fl' : List Nat) : Prop where
  image : Image K s' d T fl'
  gone : ∀ x, x < 2 ^ 32 → a ≤ x → PGROUNDDOWN x < b → has (pte s' T x) PTE_P = false
  aged : ∀ x, x < 2 ^ 32 → ¬ (a ≤ x ∧ PGROUNDDOWN x < b) → Aged (pte s T x) (pte s' T x)
  frames : ∀ g ∈ fl', ∃ x, x < KERNBASE ∧ has (pte s T x) PTE_P = true ∧ frame (pte s T x) = g
  mem : ∀ g, M g → ¬ Owns d T g → g ∉ fl' → s'.mem g = s.mem g
  cr3 : s'.cr3 = s.cr3
  inv : J s'

theorem Image.undo (hi : Image K s d T []) (hM : Inside M s d T []) (hX : Ages d M J X) (hx : X s s1) (hd : Drops h M M J E)
    (hlt : oldsz < newsz) (hb : newsz ≤ KERNBASE) :
    Ends E (fun r => ∃ fl', Shrunk K J M s d T (PGROUNDUP oldsz) newsz r.2 fl') (deallocuvm K h s1 (kva d) newsz oldsz) := by
  obtain ⟨hj, hmd, haged, hmem, hfl, hc⟩ := hX K s s1 T hx hi.toLayout hM.1
  have hi1 : Image K s1 d T [] := hi.aged hmd haged nofun hfl
  have hN : ∀ x, x < KERNBASE → has (pte s1 T x) PTE_P = true → M (frame (pte s1 T x)) := fun x hx hp => by
    rw [(haged x).flags.1] at hp
    rw [(haged x).flags.2.2]
    exact hM.2 x hx hp
  have hup := pgroundup_spec (show oldsz < KERNBASE by omega)
  refine (hd.deallocuvm hi1.toLayout hM.1 hj (hi1.users hb hN) hlt hb).imp fun r ⟨_, fl', hr⟩ => ⟨fl', ?_⟩
  refine ⟨hi1.released hr hup.1 hb, fun x hx h1 h2 => ?_, fun x hx hout => ?_, fun g hg => ?_, fun g hg ho hgf => ?_,
    hr.cr3.trans hc, hr.inv⟩
  · have hpte := hr.pte x hx
    split at hpte
    · rw [hpte]
      exact has_zero _
    · rename_i hn
      rw [hpte]
      exact Bool.eq_false_iff.mpr fun hp => hn ⟨h1, h2, hp⟩
  · rw [hr.pte x hx, if_neg fun h => hout ⟨h.1, h.2.1⟩]
    exact haged x
  · obtain ⟨x, _, _, hx, hp, he⟩ := ((hr.frames g).mp hg).resolve_left nofun
    rw [(haged x).flags.1] at hp
    rw [(haged x).flags.2.2] at he
    exact ⟨x, by omega, hp, he⟩
  · rw [hr.mem g hgf ho, hmem g hg ho]

structure Undone (K : Kernel) (J : State σ → Prop) (M : Nat → Prop) (s : State σ) (d : Nat) (T : Nat → Option Nat)
    (s' : State σ) (T' : Nat → Option Nat) (fl' : List Nat) : Prop where
  image : Image K s' d T' fl'
  inside : Inside M s' d T' fl'
  present : ∀ x, x < 2 ^ 32 → has (pte s' T' x) PTE_P = has (pte s T x) PTE_P
  aged : ∀ x, x < 2 ^ 32 → has (pte s T x) PTE_P = true → Aged (pte s T x) (pte s' T' x)
  mem : ∀ x, x < KERNBASE → has (pte s T x) PTE_P = true → s'.mem (frame (pte s T x)) = s.mem (frame (pte s T x))
  cr3 : s'.cr3 = s.cr3
  inv : J s'

theorem Grown.undone {m : Nat} {s2 : State σ} (hi : Image K s d T fl) (hM : Inside M s d T fl)
    (hg : Grown K J s d T fl a m s1 T1 fl1) (hpte : ∀ x, pte s2 T1 x = pte s1 T1 x) (hmem : ∀ g, g ∉ fl1 → s2.mem g = s1.mem g)
    (hc : s2.cr3 = s1.cr3) (hsh : Shrunk K J M s2 d T1 a b s' fl') (hmb : ∀ x, a ≤ x → x < m → PGROUNDDOWN x < b)
    (hn : ∀ x, a ≤ x → PGROUNDDOWN x < b → has (pte s T x) PTE_P = false) : Undone K J M s d T s' T1 fl' := by
  have hK : KERNBASE < 2 ^ 32 := by decide
  have hout (x : Nat) (hx : x < 2 ^ 32) (h : ¬ (a ≤ x ∧ PGROUNDDOWN x < b)) : Aged (pte s T x) (pte s' T1 x) := by
    have := hsh.aged x hx h
    rwa [hpte, hg.old x hx fun hc => h ⟨hc.1, hmb x hc.1 hc.2⟩] at this
  have hpres (x : Nat) (hp : has (pte s T x) PTE_P = true) : ¬ (a ≤ x ∧ PGROUNDDOWN x < b) := fun hc => by
    rw [hn x hc.1 hc.2] at hp
    cases hp
  have hsame (x : Nat) (hx : x < 2 ^ 32) : has (pte s' T1 x) PTE_P = has (pte s T x) PTE_P := by
    by_cases h : a ≤ x ∧ PGROUNDDOWN x < b
    · rw [hsh.gone x hx h.1 h.2, hn x h.1 h.2]
    · exact (hout x hx h).flags.1
  have hin := hg.inside hM
  refine ⟨hsh.image, ⟨?_, fun x hx hp => ?_⟩, hsame, fun x hx hp => hout x hx (hpres x hp), fun x hx hp => ?_,
    hsh.cr3.trans (hc.trans hg.cr3), hsh.inv⟩
  · rintro g (hgf | ho)
    · obtain ⟨x, hx, hp, rfl⟩ := hsh.frames g hgf
      rw [hpte] at hp ⊢
      exact hin.2 x hx hp
    · exact hin.1 g (.inr ho)
  · rw [hsame x (by omega)] at hp
    rw [(hout x (by omega) (hpres x hp)).flags.2.2]
    exact hM.2 x hx hp
  · have haged := (hout x (by omega) (hpres x hp)).flags
    have hfl := hi.busy x hx hp
    have ho := (hi.user x hx hp).2
    have hfl' := hsh.image.busy x hx (by rw [haged.1]; exact hp)
    rw [haged.2.2] at hfl'
    rw [hsh.mem _ (hM.2 x hx hp) (fun h => (hg.owns h).elim ho hfl) hfl', hmem _ fun h => hfl (hg.suffix.mem h), hg.mem _ hfl ho]

theorem Undone.kfree (hu : Undone K J M s d T s' T' fl') (hi : Image K s d T fl) (hf : Usable K f) (hMf : M f)
    (hfl : f ∈ fl) (hfl' : f ∉ fl')
    (ho : ¬ Owns d T' f) (hx : ∀ x, x < KERNBASE → has (pte s' T' x) PTE_P = true → frame (pte s' T' x) ≠ f)
    (hJ : ∀ s1, (∀ g, g ≠ f → s1.mem g = s'.mem g) → s1.cr3 = s'.cr3 → s1.ext = s'.ext → J s1) :
    ∃ s1, Vm.kfree K s' (kva f) = .ok s1 ∧ Undone K J M s d T s1 T' (f :: fl') := by
  obtain ⟨s1, hk, hi1, hm, hc, he⟩ := hu.image.kfree hf hfl' ho hx
  have hpte : ∀ x, pte s1 T' x = pte s' T' x := pte_congr (d := d) fun g hg => hm g (by rintro rfl; exact ho hg)
  refine ⟨s1, hk, hi1, ⟨?_, ?_⟩, fun x hx => ?_, fun x hx hp => ?_, fun x hx hp => ?_, hc.trans hu.cr3, hJ s1 hm hc he⟩
  · rintro g (hg | ho)
    · rcases mem_cons.mp hg with rfl | hg
      · exact hMf
      · exact hu.inside.1 g (.inl hg)
    · exact hu.inside.1 g (.inr ho)
  · simp only [hpte]
    exact hu.inside.2
  · rw [hpte]
    exact hu.present x hx
  · rw [hpte]
    exact hu.aged x hx hp
  · have hne : frame (pte s T x) ≠ f := by
      rintro rfl
      exact hi.busy x ‹_› hp hfl
    rw [hm _ hne, hu.mem x ‹_› hp]

/-! ## `allocuvm` -/

theorem Image.take (hi : Image K s d T (f :: fl)) (hm : s1.mem = s.mem) (hf : Free K s1 fl) :
    Layout K (s1.setPage f (fill PGSIZE 0#8)) d T fl ∧
      ∀ x, pte (s1.setPage f (fill PGSIZE 0#8)) T x = pte s T x := by
  have hfo : ¬ Owns d T f := hi.apart f (by simp)
  have hffl : f ∉ fl := (nodup_cons.mp hi.free.nodup).1
  have hmem : ∀ g, Owns d T g → (s1.setPage f (fill PGSIZE 0#8)).mem g = s.mem g := fun g hg => by
    rw [mem_setPage_ne _ (by rintro rfl; exact hfo hg), hm]
  exact ⟨⟨hi.toPagedir.congr (hmem d (.inl rfl)), hf.setPage hffl _, fun g hg => hi.apart g (by simp [hg])⟩, pte_congr hmem⟩

theorem Image.taken (hi : Image K s d T (f :: fl)) (hl : Layout K s1 d T fl) (hpte : ∀ x, pte s1 T x = pte s T x) : Image K s1 d T fl := by
  refine { hl with user := ?_, single := ?_, kernel := ?_, busy := ?_ }
  · simp only [hpte]; exact hi.user
  · simp only [hpte]; exact hi.single
  · simp only [hpte]; exact hi.kernel
  · simp only [hpte]
    exact fun x hx hp hfl => hi.busy x hx hp (by simp [hfl])

theorem Image.grown (hi : Image K s d T (f :: fl)) (hpte : ∀ x, pte s1 T x = pte s T x)
    (hmem : ∀ g, g ≠ f → s1.mem g = s.mem g) (hz : s1.mem f = fill PGSIZE 0#8) (hc : s1.cr3 = s.cr3) (ha : a % PGSIZE = 0)
    (hK : a + PGSIZE ≤ KERNBASE) (hm : Mapped K J s1 d T fl a (a + PGSIZE) (V2P (kva f)) (PTE_W ||| PTE_U) s' T' fl') :
    Grown K J s d T (f :: fl) a (a + PGSIZE) s' T' fl' := by
  have hlt : KERNBASE < 2 ^ 32 := by decide
  have hffl : f ∉ fl := (nodup_cons.mp hi.free.nodup).1
  refine ⟨hi.mapped hpte hm rfl ha hK, hm.grows.suffix.trans (suffix_cons f fl), hm.grows.sub,
    fun i t ht => (hm.grows.new i t ht).imp id fun h => by simp [h], fun x hx hn => ?_, fun x h1 h2 => ?_, fun g hg ho => ?_,
    hm.grows.cr3.trans hc, hm.inv⟩
  · rw [hm.pte x hx, if_neg hn, hpte]
  · have hdown : PGROUNDDOWN x - a = 0 := by
      simp only [PGROUNDDOWN, PGSIZE] at *
      omega
    refine ⟨f, by simp, hi.free.usable f (by simp), ?_, ?_⟩
    · rw [hm.pte x (by omega), if_pos ⟨h1, h2⟩, hdown, add_zero]
    · rw [hm.grows.mem f hffl (hi.apart f (by simp)), hz]
  · rw [mem_cons, not_or] at hg
    rw [hm.grows.mem g hg.2 ho, hmem g hg.1]

theorem Takes.allocLoop (hp : Takes h d M O J X E F U) (hd : Drops h M M J E) (hX : Ages d M J X) (hU : U true) (hF : F)
    {s0 : State σ} {T0 : Nat → Option Nat} {fl0 : List Nat} (hi0 : Image K s0 d T0 fl0) (hM0 : Inside M s0 d T0 fl0)
    (hg : Grown K J s0 d T0 fl0 (PGROUNDUP oldsz) a s T fl) (ha : a % PGSIZE = 0) (hle : PGROUNDUP oldsz ≤ a)
    (hk : ∀ x, PGROUNDUP oldsz ≤ x → x < a + PGSIZE * n → PGROUNDDOWN x < newsz) (hb : newsz ≤ KERNBASE) (hold : oldsz < KERNBASE)
    (hn : ∀ x, PGROUNDUP oldsz ≤ x → PGROUNDDOWN x < newsz → has (pte s0 T0 x) PTE_P = false) :
    Ends E (fun r => (r.1 = 0 ∧ ∃ T' fl', Undone K J M s0 d T0 r.2 T' fl') ∨
      (r.1 = newsz ∧ ∃ T' fl', Grown K J s0 d T0 fl0 (PGROUNDUP oldsz) (a + PGSIZE * n) r.2 T' fl'))
      (allocLoop K h (kva d) oldsz newsz n s a) := by
  have h0 : 0 < PGSIZE := by decide
  have hKp : KERNBASE % PGSIZE = 0 ∧ KERNBASE < 2 ^ 32 := by decide
  induction n generalizing s T fl a with
  | zero => exact .inr ⟨rfl, T, fl, hg⟩
  | succ n ih =>
    have hmul : a + PGSIZE * (n + 1) = a + PGSIZE + PGSIZE * n := by rw [mul_add, mul_one, add_assoc, add_comm PGSIZE]
    rw [hmul] at hk ⊢
    have hdown : PGROUNDDOWN a = a := by
      simp only [PGROUNDDOWN, PGSIZE] at *
      omega
    have hlt : a < newsz := by
      have := hk a hle (by omega)
      rwa [hdown] at this
    have haK : a + PGSIZE ≤ KERNBASE := by
      simp only [PGSIZE] at *
      omega
    have hup := pgroundup_spec hold
    have hdone (x : Nat) (h1 : PGROUNDUP oldsz ≤ x) (h2 : x < a) : PGROUNDDOWN x < newsz := hk x h1 (by omega)
    rw [Vm.allocLoop]
    refine (hp.take hg.image.free hg.inv (hp.tabled hg.image.toPagedir) (.inl hF)).bind ?_
    rintro ⟨p, s1⟩ hr
    dsimp only at hr ⊢
    rcases hr with ⟨rfl, -, rfl, hx⟩ | ⟨f, fl1, rfl, rfl, hm, hc, hf, hj1⟩
    · -- no frame for the page
      rw [if_pos rfl]
      refine (hg.image.undo (hg.inside hM0) hX hx hd (by omega) hb).bind ?_
      rintro ⟨_, s2⟩ ⟨fl', hsh⟩
      refine .inl ⟨rfl, T, fl', ?_⟩
      exact hg.undone hi0 hM0 (fun _ => rfl) (fun _ _ => rfl) rfl hsh hdone hn
    · have hu := hg.image.free.usable f (by simp)
      have hMf : M f := (hg.within hM0.1) f (.inl (by simp))
      obtain ⟨hl, hpte⟩ := hg.image.take hm hf
      rw [if_neg kva_ne_zero, storePage_kva hu.lt]
      have hz : (s1.setPage f (fill PGSIZE 0#8)).mem f = fill PGSIZE 0#8 := mem_setPage_self _
      have hm2 : ∀ g, g ≠ f → (s1.setPage f (fill PGSIZE 0#8)).mem g = s.mem g := fun g hg => by
        rw [mem_setPage_ne _ hg, hm]
      have hc2 : (s1.setPage f (fill PGSIZE 0#8)).cr3 = s.cr3 := hc
      have hj2 : J (s1.setPage f (fill PGSIZE 0#8)) :=
        hp.stable s1 _ hj1 (fun g hgM => mem_setPage_ne _ (by rintro rfl; exact hgM hMf)) rfl rfl
      generalize s1.setPage f (fill PGSIZE 0#8) = s2 at *
      have hM1 : Within M d T fl1 := fun g hg' => hg.within hM0.1 g (hg'.imp (by simp +contextual) id)
      have hna : has (pte s2 T a) PTE_P = false := by
        rw [hpte, hg.old a (by omega) (by omega)]
        exact hn a hle (by rw [hdown]; exact hlt)
      have hU' : U (has (entryFor (V2P (kva f)) (PTE_W ||| PTE_U)) PTE_U) := by rw [(user_entry hu.lt).2.1]; exact hU
      rw [ok_bind]
      refine (hp.mappages_page hl hM1 hj2 (c := 0) (S := fun _ => true) (.inl hF) rfl ha (by omega) hna hU').bind ?_
      rintro ⟨ok, s3⟩ hr
      dsimp only at hr ⊢
      rcases hr with ⟨rfl, -, rfl, hx⟩ | ⟨rfl, T', fl', hmap⟩
      · -- no frame for the page table
        rw [if_neg Bool.false_ne_true]
        have hi2 := hg.image.taken hl hpte
        have hM2 : Inside M s2 d T [] := ⟨hM1, by simp only [hpte]; exact (hg.inside hM0).2⟩
        refine (hi2.undo hM2 hX hx hd (by omega) hb).bind ?_
        rintro ⟨_, s4⟩ ⟨fl', hsh⟩
        have hund : Undone K J M s0 d T0 s4 T fl' :=
          hg.undone hi0 hM0 hpte (fun g hg' => hm2 g (by simpa using hg')) hc2 hsh hdone hn
        have hfree (x : Nat) (hxK : x < KERNBASE) (hxp : has (pte s2 T x) PTE_P = true) : frame (pte s2 T x) ≠ f := by
          rw [hpte] at hxp ⊢
          exact fun he => hg.image.busy x hxK hxp (by simp [he])
        have hf' : f ∉ fl' := fun hmem => by
          obtain ⟨x, hxK, hxp, he⟩ := hsh.frames f hmem
          exact hfree x hxK hxp he
        have hx' (x : Nat) (hxK : x < KERNBASE) (hxp : has (pte s4 T x) PTE_P = true) : frame (pte s4 T x) ≠ f := by
          have hin : ¬ (PGROUNDUP oldsz ≤ x ∧ PGROUNDDOWN x < newsz) := fun hin => by
            rw [hsh.gone x (by omega) hin.1 hin.2] at hxp
            cases hxp
          have hfl := (hsh.aged x (by omega) hin).flags
          rw [hfl.1] at hxp
          rw [hfl.2.2]
          exact hfree x hxK hxp
        have hJ (s5 : State σ) (hm5 : ∀ g, g ≠ f → s5.mem g = s4.mem g) (hc5 : s5.cr3 = s4.cr3) (he5 : s5.ext = s4.ext) : J s5 :=
          hp.stable s4 s5 hund.inv (fun g hgM => hm5 g (by rintro rfl; exact hgM hMf)) hc5 he5
        obtain ⟨s5, hs5, hund5⟩ := hund.kfree hi0 hu hMf (hg.suffix.mem (by simp)) hf' (hg.image.apart f (by simp)) hx' hJ
        rw [hs5]
        exact .inl ⟨rfl, T, f :: fl', hund5⟩
      · rw [if_pos rfl]
        have hstep := hg.image.grown hpte hm2 hz hc2 ha haK hmap
        have ha' : (a + PGSIZE) % PGSIZE = 0 := by rw [Nat.add_mod_right]; exact ha
        exact ih (hg.trans hstep hle (by omega) haK) ha' (by omega) hk

theorem Takes.allocuvm (hp : Takes h d M O J X E F U) (hd : Drops h M M J E) (hX : Ages d M J X) (hU : U true) (hF : F)
    (hi : Image K s d T fl) (hM : Inside M s d T fl) (hj : J s) (hold : oldsz ≤ newsz) (hb : newsz < KERNBASE)
    (hn : ∀ x, PGROUNDUP oldsz ≤ x → x < KERNBASE → has (pte s T x) PTE_P = false) :
    Ends E (fun r => (r.1 = 0 ∧ ∃ T' fl', Undone K J M s d T r.2 T' fl') ∨
      (r.1 = newsz ∧ ∃ T' fl', Grown K J s d T fl (PGROUNDUP oldsz) (max (PGROUNDUP oldsz) (PGROUNDUP newsz)) r.2 T' fl'))
      (allocuvm K h s (kva d) oldsz newsz) := by
  have h1 := pgroundup_spec (show oldsz < KERNBASE by omega)
  have h2 := pgroundup_spec hb
  have hcount : PGROUNDUP oldsz + PGSIZE * ((newsz - PGROUNDUP oldsz + PGSIZE - 1) / PGSIZE) =
      max (PGROUNDUP oldsz) (PGROUNDUP newsz) := by
    simp only [PGROUNDUP, PGSIZE, KERNBASE] at *
    omega
  have hn' (x : Nat) (hx1 : PGROUNDUP oldsz ≤ x) (hx2 : PGROUNDDOWN x < newsz) : has (pte s T x) PTE_P = false := by
    refine hn x hx1 ?_
    simp only [PGROUNDDOWN, PGSIZE, KERNBASE] at *
    omega
  rw [Vm.allocuvm, if_neg (by omega), if_neg (by omega), ← hcount]
  refine hp.allocLoop hd hX hU hF hi hM (.refl hi hj _) h1.1 le_rfl (fun x hx1 hx2 => ?_) hb.le (by omega) hn'
  rw [hcount] at hx2
  simp only [PGROUNDDOWN, PGROUNDUP, PGSIZE, KERNBASE] at *
  omega

end Xv6.Vm
