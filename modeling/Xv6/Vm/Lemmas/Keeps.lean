import Xv6.Lib.Ends
import Xv6.Vm.Model

/-!
# What `vm.c` leaves to others

Apart from memory and the free list, the state changes only through `kalloc` and the two functions of the LRU list.
-/

namespace Xv6.Vm

open Xv6.Lib Ends

-- Numbers as large as these must not be unfolded when a computation is matched with the rules for it.
attribute [local irreducible] V2P P2V NPDENTRIES

variable {σ : Type} {K : Kernel} {h : Hooks σ} {P : σ → Prop} {s : State σ}

theorem ext_store (s : State σ) (a : Nat) (w : BitVec 32) : Ends Any (fun s' => s'.ext = s.ext) (store s a w) :=
  (any _).bind fun _ _ => rfl

theorem ext_storePage (s : State σ) (a : Nat) (p : Page) : Ends Any (fun s' => s'.ext = s.ext) (storePage s a p) :=
  (any _).bind fun _ _ => rfl

theorem ext_kfree (s : State σ) (v : Nat) : Ends Any (fun s' => s'.ext = s.ext) (kfree K s v) := by
  unfold kfree
  split
  · trivial
  · exact (ext_storePage s _ _).bind fun s1 h1 => (ext_store s1 _ _).bind fun s2 h2 => h2.trans h1

abbrev Keep {α : Type} (P : σ → Prop) (x : Except Stop (α × State σ)) : Prop := Ends Any (fun r => P r.2.ext) x

abbrev Keep' (P : σ → Prop) (x : Except Stop (State σ)) : Prop := Ends Any (fun s => P s.ext) x

structure Keeps (P : σ → Prop) (h : Hooks σ) : Prop where
  kalloc : ∀ s, P s.ext → Keep P (h.kalloc s)
  lru_insert : ∀ s pgdir va u, P s.ext → Keep' P (h.lru_insert s pgdir va u)
  lru_delete : ∀ s pgdir va, P s.ext → Keep' P (h.lru_delete s pgdir va)

theorem keep_store (hp : P s.ext) (a : Nat) (w : BitVec 32) : Keep' P (store s a w) :=
  (ext_store s a w).imp fun _ hs => hs ▸ hp

theorem keep_storePage (hp : P s.ext) (a : Nat) (p : Page) : Keep' P (storePage s a p) :=
  (ext_storePage s a p).imp fun _ hs => hs ▸ hp

theorem keep_kfree (hp : P s.ext) (v : Nat) : Keep' P (kfree K s v) :=
  (ext_kfree s v).imp fun _ hs => hs ▸ hp

namespace Keeps

variable (k : Keeps P h)

include k

section

variable (hp : P s.ext)
include hp

theorem walkpgdir (pgdir va : Nat) : Keep P (walkpgdir h s pgdir va) := by
  refine (any _).bind fun pde _ => ?_
  split
  · exact hp
  · refine (k.kalloc s hp).bind ?_
    rintro ⟨pgtab, s1⟩ h1
    dsimp only
    split
    · exact h1
    · exact (keep_storePage h1 _ _).bind fun s2 h2 => (keep_store h2 _ _).bind fun s3 h3 => h3

theorem setPte (pgdir va pte pa : Nat) (perm : BitVec 32) : Keep' P (setPte h s pgdir va pte pa perm) := by
  refine (any _).bind fun old _ => ?_
  split
  · trivial
  · exact (keep_store hp _ _).bind fun s1 h1 => (any _).bind fun new _ => k.lru_insert s1 _ _ _ h1

theorem mapPage (pgdir va a pa : Nat) (perm : BitVec 32) : Keep P (mapPage h s pgdir va a pa perm) := by
  refine (k.walkpgdir hp _ _).bind ?_
  rintro ⟨pte, s1⟩ h1
  dsimp only
  split
  · exact h1
  · exact (k.setPte h1 _ _ _ _ _).bind fun s2 h2 => h2

theorem mapLoop (n pgdir va a pa : Nat) (perm : BitVec 32) : Keep P (mapLoop h n s pgdir va a pa perm) := by
  induction n generalizing s a pa with
  | zero => exact k.mapPage hp _ _ _ _ _
  | succ n ih =>
    refine (k.mapPage hp _ _ _ _ _).bind ?_
    rintro ⟨ok, s1⟩ h1
    cases ok with
    | true => exact ih h1 _ _
    | false => exact h1

theorem mappages (pgdir va size pa : Nat) (perm : BitVec 32) :
    Keep P (mappages h s pgdir va size pa perm) := k.mapLoop hp _ _ _ _ _ _

theorem deallocPage (pgdir a : Nat) : Keep P (deallocPage K h s pgdir a) := by
  refine (any _).bind fun pte _ => ?_
  split
  · exact .ret hp
  · refine (any _).bind fun w _ => ?_
    split
    · refine bind (Q := fun s => P s.ext) ?_ fun s1 h1 => .ret h1
      unfold freePte
      split
      · trivial
      · exact (keep_kfree hp _).bind fun s1 h1 => (k.lru_delete s1 _ _ h1).bind fun s2 h2 => keep_store h2 _ _
    · exact .ret hp

theorem deallocuvm (pgdir oldsz newsz : Nat) : Keep P (deallocuvm K h s pgdir oldsz newsz) := by
  have loop : ∀ n s a, P s.ext → Keep' P (deallocLoop K h pgdir oldsz n s a) := by
    intro n
    induction n with
    | zero => exact fun s a hp => hp
    | succ n ih =>
      intro s a hp
      unfold deallocLoop
      split
      · refine (k.deallocPage hp _ _).bind ?_
        rintro ⟨a1, s1⟩ h1
        exact ih s1 a1 h1
      · exact hp
  unfold Vm.deallocuvm
  split
  · exact hp
  · exact (loop _ s _ hp).bind fun s1 h1 => h1

theorem freevm (pgdir : Nat) : Keep' P (freevm K h s pgdir) := by
  unfold Vm.freevm
  split
  · trivial
  · refine (k.deallocuvm (K := K) hp _ _ _).bind ?_
    rintro ⟨_, s1⟩ h1
    refine bind (Q := fun s => P s.ext) ?_ fun s2 h2 => keep_kfree h2 _
    refine foldlM (I := fun (_ : List Nat) (s : State σ) => P s.ext) h1 fun _ i _ s2 _ h2 => ?_
    refine (any _).bind fun pde _ => ?_
    split
    · exact keep_kfree h2 _
    · exact h2

theorem setupkvm : Keep P (setupkvm K h s) := by
  have loop : ∀ pgdir ks s, P s.ext → Keep P (setupLoop K h pgdir ks s) := by
    intro pgdir ks
    induction ks with
    | nil => exact fun s hp => hp
    | cons k' ks ih =>
      intro s hp
      refine (k.mappages hp _ _ _ _ _).bind ?_
      rintro ⟨ok, s1⟩ h1
      cases ok with
      | true => exact ih s1 h1
      | false => exact (k.freevm h1 _).bind fun s2 h2 => h2
  unfold Vm.setupkvm
  generalize kmap K = ks
  refine (k.kalloc s hp).bind ?_
  rintro ⟨pgdir, s1⟩ h1
  dsimp only
  split
  · exact h1
  · exact (keep_storePage h1 _ _).bind fun s2 h2 => loop pgdir ks s2 h2

theorem inituvm (pgdir : Nat) (init : Nat → BitVec 8) (sz : Nat) : Keep' P (inituvm h s pgdir init sz) := by
  unfold Vm.inituvm
  split
  · trivial
  · refine (k.kalloc s hp).bind ?_
    rintro ⟨mem, s1⟩ h1
    refine (keep_storePage h1 _ _).bind fun s2 h2 => (k.mappages h2 _ _ _ _ _).bind ?_
    rintro ⟨_, s3⟩ h3
    exact keep_storePage h3 _ _

theorem allocuvm (pgdir oldsz newsz : Nat) : Keep P (allocuvm K h s pgdir oldsz newsz) := by
  have loop : ∀ n s a, P s.ext → Keep P (allocLoop K h pgdir oldsz newsz n s a) := by
    intro n
    induction n with
    | zero => exact fun s a hp => hp
    | succ n ih =>
      intro s a hp
      refine (k.kalloc s hp).bind ?_
      rintro ⟨mem, s1⟩ h1
      dsimp only
      split
      · exact (k.deallocuvm h1 _ _ _).bind fun _ h2 => h2
      · refine (keep_storePage h1 _ _).bind fun s2 h2 => (k.mappages h2 _ _ _ _ _).bind ?_
        rintro ⟨ok, s3⟩ h3
        cases ok with
        | true => exact ih s3 _ h3
        | false => exact (k.deallocuvm h3 _ _ _).bind fun r h4 => (keep_kfree h4 _).bind fun s5 h5 => h5
  unfold Vm.allocuvm
  split
  · exact hp
  · split
    · exact hp
    · exact loop _ s _ hp

theorem copyPage (pgdir d i pte : Nat) (w : BitVec 32) : Keep P (copyPage K h s pgdir d i pte w) := by
  refine (k.kalloc s hp).bind ?_
  rintro ⟨mem, s1⟩ h1
  dsimp only
  split
  · exact h1
  · refine (any _).bind fun page _ => (keep_storePage h1 _ _).bind fun s2 h2 =>
      (any _).bind fun v _ => (k.lru_insert s2 _ _ _ h2).bind fun s3 h3 => (k.mappages h3 _ _ _ _ _).bind ?_
    rintro ⟨ok, s4⟩ h4
    cases ok with
    | true => exact h4
    | false => exact (keep_kfree h4 _).bind fun s5 h5 => h5

theorem copyuvm (pgdir sz : Nat) : Keep P (copyuvm K h s pgdir sz) := by
  have loop : ∀ d n s i, P s.ext → Keep P (copyLoop K h pgdir d n s i) := by
    intro d n
    induction n with
    | zero => exact fun s i hp => hp
    | succ n ih =>
      intro s i hp
      refine (any _).bind fun pte _ => ?_
      split
      · trivial
      · refine (any _).bind fun w _ => ?_
        split
        · refine (k.copyPage hp _ _ _ _ _).bind ?_
          rintro ⟨ok, s1⟩ h1
          cases ok with
          | true => exact ih s1 _ h1
          | false => exact (k.freevm h1 _).bind fun s2 h2 => h2
        · trivial
  refine (k.setupkvm hp).bind ?_
  rintro ⟨d, s1⟩ h1
  dsimp only
  split
  · exact h1
  · exact loop _ _ s1 _ h1

end

end Keeps

end Xv6.Vm
