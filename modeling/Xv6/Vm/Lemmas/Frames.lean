import Xv6.Lib.Chain
import Xv6.Lib.Ends
import Xv6.Vm.Lemmas.Memory

/-! # The free list -/

namespace Xv6.Vm

open Xv6.Lib

variable {σ : Type} {K : Kernel} {h : Hooks σ} {s s' s1 : State σ} {f g : Nat} {fl : List Nat}

structure Usable (K : Kernel) (f : Nat) : Prop where
  lt : f < NFRAMES
  ge : K.end_ ≤ kva f

structure Free (K : Kernel) (s : State σ) (fl : List Nat) : Prop where
  chain : Chain kva (fun f => ((s.mem f).word 0).toNat) s.freelist fl
  usable : ∀ f ∈ fl, Usable K f
  nodup : fl.Nodup

theorem Free.congr (hf : Free K s fl) (hm : ∀ g ∈ fl, s'.mem g = s.mem g) (hl : s'.freelist = s.freelist) : Free K s' fl := by
  refine ⟨?_, hf.usable, hf.nodup⟩
  rw [hl]
  exact hf.chain.congr fun g hg => by rw [hm g hg]

theorem Free.setPage (hf : Free K s fl) (hg : g ∉ fl) (p : Page) : Free K (s.setPage g p) fl :=
  hf.congr (fun f hf' => mem_setPage_ne p (by rintro rfl; exact hg hf')) rfl

def popped (s : State σ) (f : Nat) : State σ := { s with freelist := ((s.mem f).word 0).toNat }

theorem Free.popFree (hf : Free K s (f :: fl)) : popFree s = .ok (kva f, popped s f) := by
  have hl : load s (kva f) = .ok ((s.mem f).word 0) := load_kva (o := 0) (hf.usable f (by simp)).lt (by decide)
  rw [Vm.popFree, hf.chain.1, hl]
  rfl

theorem Free.popped (hf : Free K s (f :: fl)) : Free K (popped s f) fl :=
  ⟨hf.chain.2, fun g hg => hf.usable g (by simp [hg]), (List.nodup_cons.mp hf.nodup).2⟩

theorem toNat_kva (hf : f < NFRAMES) : (BitVec.ofNat 32 (kva f)).toNat = kva f := by
  rw [BitVec.toNat_ofNat, Nat.mod_eq_of_lt]
  simp only [NFRAMES, PHYSTOP, PGSIZE] at hf
  simp only [kva, KERNBASE, PGSIZE]
  omega

theorem Free.toNat (hf : Free K s fl) : (BitVec.ofNat 32 s.freelist).toNat = s.freelist := by
  cases fl with
  | nil => rw [show s.freelist = 0 from hf.chain]; rfl
  | cons f fl => rw [hf.chain.1, toNat_kva (hf.usable f (by simp)).lt]

theorem Free.kfree (hf : Free K s fl) (hu : Usable K f) (hn : f ∉ fl) :
    ∃ s', kfree K s (kva f) = .ok s' ∧ Free K s' (f :: fl) ∧ (∀ g, g ≠ f → s'.mem g = s.mem g) ∧ s'.cr3 = s.cr3 ∧
      s'.ext = s.ext := by
  have hv : V2P (kva f) < PHYSTOP := by
    rw [V2P_kva hu.lt]
    have := hu.lt
    simp only [NFRAMES, PHYSTOP, PGSIZE] at *
    omega
  have hpage : kva f % PGSIZE = 0 := by simp only [kva, KERNBASE, PGSIZE]; omega
  have hge := hu.ge
  let s1 := s.setPage f (Bytes.fill PGSIZE 1#8)
  let p := (s1.mem f).setWord 0 (.ofNat 32 s.freelist)
  have hst : store s1 (kva f) (.ofNat 32 s1.freelist) = .ok (s1.setPage f p) := store_kva (o := 0) hu.lt (by decide)
  have hw : ((s1.setPage f p).mem f).word 0 = .ofNat 32 s.freelist := by
    rw [mem_setPage_self]
    exact Bytes.word_setWord_self _ _ (by decide)
  have hmem : ∀ g, g ≠ f → (s1.setPage f p).mem g = s.mem g := fun g hg => by
    rw [mem_setPage_ne _ hg, mem_setPage_ne _ hg]
  refine ⟨{ s1.setPage f p with freelist := kva f }, ?_, ⟨⟨rfl, ?_⟩, ?_, ?_⟩, hmem, rfl, rfl⟩
  · rw [Vm.kfree, if_neg (by omega), storePage_kva hu.lt]
    simp only [bind, Except.bind, s1] at hst ⊢
    rw [hst]
    rfl
  · dsimp only
    rw [hw, hf.toNat]
    exact hf.chain.congr fun g hg => by rw [hmem g (by rintro rfl; exact hn hg)]
  · intro g hg
    rcases List.mem_cons.mp hg with rfl | hg
    · exact hu
    · exact hf.usable g hg
  · exact List.nodup_cons.mpr ⟨hn, hf.nodup⟩

/-! ## Allocators -/

structure SameMem (s s' : State σ) : Prop where
  mem : s'.mem = s.mem
  freelist : s'.freelist = s.freelist
  cr3 : s'.cr3 = s.cr3

/-- As long as the rest of the state meets `I`, `kalloc` takes the first free page, and `lru_insert` does not touch memory. Without a free
page `kalloc` fails; nothing is said about the errors that may follow. -/
structure Pops (h : Hooks σ) (I : σ → Prop) (E : Stop → Prop) : Prop where
  kalloc : ∀ s p s', I s.ext → s.freelist ≠ 0 → popFree s = .ok (p, s') →
    Ends E (fun r => r.1 = p ∧ SameMem s' r.2 ∧ I r.2.ext) (h.kalloc s)
  empty : (∀ e, E e) → ∀ s, s.freelist = 0 → Ends Any (fun r => r.1 = 0) (h.kalloc s)
  lru_insert : ∀ s pgdir va u, I s.ext → Ends E (fun s' => SameMem s s' ∧ I s'.ext) (h.lru_insert s pgdir va u)

variable {I : σ → Prop} {E : Stop → Prop}

def Tabled (s : State σ) (d : Nat) : Prop :=
  ∀ i, i < NPDENTRIES → has ((s.mem d).word (4 * i)) PTE_P = true → frame ((s.mem d).word (4 * i)) < NFRAMES

/-- `kalloc` and `lru_insert`, for a call that works on the directory at frame `d` and writes no frame outside `M`, in states with `J`.
Without a free page `kalloc` fails and leaves a state `X`, if that is admitted (`F`). The list may hold pages of the directories `O`,
and `U` says whether user pages are mapped. -/
structure Takes (h : Hooks σ) (d : Nat) (M O : Nat → Prop) (J : State σ → Prop) (X : State σ → State σ → Prop)
    (E : Stop → Prop) (F : Prop) (U : Bool → Prop) : Prop where
  own : ∀ d', O d' → d' = d
  stable : ∀ s s', J s → (∀ g, ¬ M g → s'.mem g = s.mem g) → s'.cr3 = s.cr3 → s'.ext = s.ext → J s'
  kalloc : ∀ s p s', J s → s.freelist ≠ 0 → popFree s = .ok (p, s') →
    Ends E (fun r => r.1 = p ∧ SameMem s' r.2 ∧ J r.2) (h.kalloc s)
  empty : F → ∀ s, J s → (∀ d', O d' → Tabled s d') → s.freelist = 0 → Ends E (fun r => r.1 = 0 ∧ X s r.2) (h.kalloc s)
  lru_insert : ∀ s va u, J s → U u → Ends E (fun s' => SameMem s s' ∧ J s') (h.lru_insert s (kva d) va u)

theorem Pops.takes (hp : Pops h I E) (d : Nat) :
    Takes h d (fun _ => True) (fun _ => False) (fun s => I s.ext) (fun _ _ => True) E (∀ e, E e) fun _ => True where
  own _ hd := hd.elim
  stable _ _ hi _ _ he := he ▸ hi
  kalloc := hp.kalloc
  empty hE s _ _ hf := (hp.empty hE s hf).mono (fun e _ => hE e) fun _ hr => ⟨hr, trivial⟩
  lru_insert s va u hi _ := hp.lru_insert s (kva d) va u hi

theorem Takes.take {d : Nat} {M O : Nat → Prop} {J : State σ → Prop} {X : State σ → State σ → Prop} {F : Prop} {U : Bool → Prop}
    (hp : Takes h d M O J X E F U) (hf : Free K s fl) (hj : J s) (hO : ∀ d', O d' → Tabled s d') (hb : F ∨ 0 < fl.length) :
    Ends E (fun r => (r.1 = 0 ∧ F ∧ fl = [] ∧ X s r.2) ∨ ∃ f fl', fl = f :: fl' ∧ r.1 = kva f ∧ r.2.mem = s.mem ∧
      r.2.cr3 = s.cr3 ∧ Free K r.2 fl' ∧ J r.2) (h.kalloc s) := by
  cases fl with
  | nil =>
    have hF := hb.resolve_right (lt_irrefl 0)
    exact (hp.empty hF s hj hO hf.chain).imp fun r hr => .inl ⟨hr.1, hF, rfl, hr.2⟩
  | cons f fl =>
    have hne : s.freelist ≠ 0 := by rw [hf.chain.1]; exact kva_ne_zero
    refine (hp.kalloc s _ _ hj hne hf.popFree).imp fun ⟨p, s'⟩ ⟨hpf, hs, hj'⟩ => .inr ?_
    exact ⟨f, fl, rfl, hpf, hs.mem, hs.cr3, hf.popped.congr (fun g _ => by rw [hs.mem]) hs.freelist, hj'⟩

theorem Ends.fails {α : Type} {x : Except Stop α} {Q : α → Prop} (hE : ∀ e, E e) (hQ : ∀ a, Q a) : Ends E Q x :=
  (Ends.any x).mono (fun e _ => hE e) fun a _ => hQ a

end Xv6.Vm
