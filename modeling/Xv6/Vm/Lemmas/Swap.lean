import Xv6.Vm.Lemmas.Keeps
import Xv6.Vm.Lemmas.Memory
import Xv6.Vm.Swap

/-! # Eviction -/

namespace Xv6.Vm

open Xv6.Lib

variable {L : Type} {lw : Fs.LogWrite L} {s s' : Mem L} {d t va rcr p : Nat} {w : BitVec 32}

/-! ## Entries -/

/-- The directory at frame `d` has a page table at frame `t` for `va`, in which the entry is `w`. -/
structure Maps (s : Mem L) (d t va : Nat) (w : BitVec 32) : Prop where
  dir : d < NFRAMES
  table : t < NFRAMES
  apart : d ≠ t
  present : has ((s.mem d).word (4 * PDX va)) PTE_P = true
  pde : frame ((s.mem d).word (4 * PDX va)) = t
  pte : (s.mem t).word (4 * PTX va) = w

section

variable (h : Maps s d t va w)
include h

theorem Maps.congr (hm : s'.mem = s.mem) : Maps s' d t va w :=
  ⟨h.dir, h.table, h.apart, hm ▸ h.present, hm ▸ h.pde, hm ▸ h.pte⟩

theorem Maps.samePage (hr : rcr / PGSIZE = va / PGSIZE) : Maps s d t rcr w := by
  simp only [PGSIZE] at hr
  have h1 : PDX rcr = PDX va := by simp only [PDX]; omega
  have h2 : PTX rcr = PTX va := by simp only [PTX]; omega
  exact ⟨h.dir, h.table, h.apart, h1 ▸ h.present, h1 ▸ h.pde, h2 ▸ h.pte⟩

theorem Maps.walk : walk s (kva d) va = .ok (kva t + 4 * PTX va) := by
  rw [walk_kva h.dir, if_pos h.present, h.pde, P2V_frame h.table]

theorem Maps.load : load s (kva t + 4 * PTX va) = .ok w := by
  have := ptx_lt va
  rw [load_kva h.table (by omega), h.pte]

theorem Maps.readPte : readPte s (kva t + 4 * PTX va) = .ok w := by
  rw [Vm.readPte, if_neg (by simp [kva, KERNBASE]), h.load]

theorem Maps.store (w' : BitVec 32) : ∃ s', store s (kva t + 4 * PTX va) w' = .ok s' ∧ Maps s' d t va w' := by
  have hp := ptx_lt va
  refine ⟨_, store_kva h.table (by omega), h.dir, h.table, h.apart, ?_, ?_, ?_⟩
  · rw [mem_setPage_ne _ h.apart]; exact h.present
  · rw [mem_setPage_ne _ h.apart]; exact h.pde
  · rw [mem_setPage_self, Bytes.word_setWord_self _ _ hp]

theorem Maps.pteUpdate (f : BitVec 32 → BitVec 32) : Ends Any (fun s' => Maps s' d t va (f w)) (pteUpdate f s (kva d) va) := by
  obtain ⟨s', hs, hm⟩ := h.store (f w)
  have hne : kva t + 4 * PTX va ≠ 0 := by simp [kva, KERNBASE]
  simp only [Vm.pteUpdate, h.walk, bind, Except.bind, if_neg hne, h.load, hs]
  exact hm

end

/-! ## The victim -/

structure SameList (e e' : Swap L) : Prop where
  pages : e'.pages = e.pages
  head : e'.page_lru_head = e.page_lru_head

theorem SameList.trans {e1 e2 e3 : Swap L} (h1 : SameList e1 e2) (h2 : SameList e2 e3) : SameList e1 e3 :=
  ⟨h2.pages.trans h1.pages, h2.head.trans h1.head⟩

theorem ends_balloc_for_swap (s : Mem L) : Ends Any (fun r => r.2.mem = s.mem ∧ SameList s.ext r.2.ext) (balloc_for_swap lw s) := by
  unfold balloc_for_swap
  split
  · exact ⟨rfl, rfl, rfl⟩
  · trivial

theorem ends_swapwrite (s : Mem L) (ptr b : Nat) : Ends Any (fun s' => s'.mem = s.mem ∧ SameList s.ext s'.ext) (swapwrite s ptr b) := by
  unfold swapwrite
  split
  · trivial
  · exact (Ends.any _).bind fun page _ => ⟨rfl, rfl, rfl⟩

/-- What `reclaim` makes of an entry: the flag bits are lost. -/
def evicted (w : BitVec 32) (blkno : Nat) : BitVec 32 :=
  (w &&& PTE_SWAP &&& ~~~PTE_P) &&& 0xFFF#32 ||| BitVec.ofNat 32 blkno <<< 12

theorem has_PTE_P_evicted (w : BitVec 32) (b : Nat) : has (evicted w b) PTE_P = false := by
  rw [has_PTE_P]; simp [evicted, PTE_SWAP]

theorem has_PTE_SWAP_evicted (w : BitVec 32) (b : Nat) : has (evicted w b) PTE_SWAP = has w PTE_SWAP := by
  rw [has_PTE_SWAP, has_PTE_SWAP]; simp [evicted, PTE_SWAP, PTE_P]

theorem Maps.evict (hp : (s.ext.pages p).pgdir = kva d) (h : Maps s d t (s.ext.pages p).vaddr w) :
    Ends Any (fun s' => ∃ b, Maps s' d t (s.ext.pages p).vaddr (evicted w b)) (evict lw s p) := by
  unfold Vm.evict
  cases unlink s.ext p with
  | error e => trivial
  | ok e =>
    refine (ends_balloc_for_swap { s with ext := e }).bind ?_
    rintro ⟨b, s1⟩ ⟨hm1, _⟩
    refine (ends_swapwrite s1 _ b).bind fun s2 ⟨hm2, _⟩ => ?_
    have h2 : Maps (setSwapbitmap s2 b (s.ext.pages p).vaddr) d t (s.ext.pages p).vaddr w := h.congr (hm2.trans hm1)
    rw [hp]
    refine (h2.pteUpdate _).bind fun s3 h3 => (h3.pteUpdate _).bind fun s4 h4 => (h4.pteUpdate _).bind fun s5 h5 => ?_
    exact ⟨b, h5.congr rfl⟩

theorem Maps.pgintr (h : Maps s d t rcr w) (hw : has w PTE_SWAP = false) : pgintr lw s (kva d) rcr = .ok (true, s) := by
  simp only [Vm.pgintr, pgintrWith, h.walk, h.readPte, bind, Except.bind, hw]
  rfl

theorem reclaim_of_pick {s0 s1 : Mem L} (hp : pick s = .ok (some p, s0)) (hr : reclaim lw s = .ok (true, s1)) : evict lw s0 p = .ok s1 := by
  simp only [reclaim, hp, bind, Except.bind] at hr
  obtain ⟨s', he, hr⟩ := of_bind_ok hr
  cases hr
  exact he

/-! ## The free list after an eviction -/

def Vaddrs (a : Nat → Nat) (s : Mem L) : Prop := ∀ i, (s.ext.pages i).vaddr = a i

variable {a : Nat → Nat}

theorem Vaddrs.unlink {e : Swap L} (h : Vaddrs a s) (hs : Vm.unlink s.ext p = .ok e) : Vaddrs a { s with ext := e } := by
  simp only [Vm.unlink] at hs
  split at hs <;> cases hs
  intro i
  simp only [Swap.setNext, Swap.setPrev, Swap.setPage, Function.update_apply]
  split_ifs with h1 h2 h3 <;> simp_all [Vaddrs]

theorem ext_pteUpdate (f : BitVec 32 → BitVec 32) (s : Mem L) (pgdir va : Nat) :
    Ends Any (fun s' => s'.ext = s.ext) (pteUpdate f s pgdir va) := by
  refine (Ends.any _).bind fun pte _ => ?_
  split
  · rfl
  · exact (Ends.any _).bind fun w _ => ext_store s pte (f w)

def OnlyHead (e e' : Swap L) : Prop := ∃ h, e' = { e with page_lru_head := h }

theorem OnlyHead.refl (e : Swap L) : OnlyHead e e := ⟨_, rfl⟩

theorem OnlyHead.trans {e1 e2 e3 : Swap L} (h1 : OnlyHead e1 e2) (h2 : OnlyHead e2 e3) : OnlyHead e1 e3 := by
  obtain ⟨a, rfl⟩ := h1
  obtain ⟨b, rfl⟩ := h2
  exact ⟨b, rfl⟩

theorem ends_nextHead (s : Mem L) : Ends Any (fun s' => OnlyHead s.ext s'.ext) (nextHead s) := by
  unfold nextHead
  split
  · trivial
  · exact ⟨_, rfl⟩

theorem ends_pickLoop (tail : Option Nat) (k : Nat) (s : Mem L) (p : Nat) :
    Ends Any (fun r => OnlyHead s.ext r.2.ext) (pickLoop tail k s p) := by
  induction k generalizing s p with
  | zero => trivial
  | succ k ih =>
    refine (Ends.any _).bind fun b _ => ?_
    cases b with
    | false => exact .refl _
    | true =>
      refine (ext_pteUpdate _ s _ _).bind fun s1 h1 => (ends_nextHead s1).bind fun s2 h2 => ?_
      rw [h1] at h2
      split
      · exact h2
      · split
        · trivial
        · exact (ih s2 _).imp fun r hr => h2.trans hr

theorem ends_pick (s : Mem L) : Ends Any (fun r => OnlyHead s.ext r.2.ext) (pick s) := by
  unfold pick
  split
  · exact .refl _
  · exact ends_pickLoop _ _ s _

theorem ends_evict (s : Mem L) (p : Nat) :
    Ends Any (fun s' => s'.freelist = (s.ext.pages p).vaddr ∧ ∃ e, Vm.unlink s.ext p = .ok e ∧ SameList e s'.ext)
      (evict lw s p) := by
  unfold Vm.evict
  cases hu : Vm.unlink s.ext p with
  | error e => trivial
  | ok e =>
    refine (ends_balloc_for_swap { s with ext := e }).bind ?_
    rintro ⟨b, s1⟩ ⟨_, h1⟩
    refine (ends_swapwrite s1 _ b).bind fun s2 ⟨_, h2⟩ => ?_
    refine (ext_pteUpdate _ _ _ _).bind fun s3 h3 => (ext_pteUpdate _ _ _ _).bind fun s4 h4 =>
      (ext_pteUpdate _ _ _ _).bind fun s5 h5 => ⟨rfl, e, rfl, ?_⟩
    have h5 : s5.ext = (setSwapbitmap s2 b (s.ext.pages p).vaddr).ext := by rw [h5, h4, h3]
    have h3 : SameList s2.ext s5.ext := h5 ▸ ⟨rfl, rfl⟩
    exact (h1.trans h2).trans h3

theorem Vaddrs.reclaim (h : Vaddrs a s) : Ends Any (fun r => Vaddrs a r.2 ∧ (r.1 = true → ∃ p, r.2.freelist = a p)) (reclaim lw s) := by
  refine (ends_pick s).bind ?_
  rintro ⟨victim, s1⟩ ⟨_, hp⟩
  have h1 : Vaddrs a s1 := fun i => (congrArg (fun e => (e.pages i).vaddr) hp).trans (h i)
  cases victim with
  | none => exact ⟨h1, fun h => Bool.noConfusion h⟩
  | some p =>
    refine (ends_evict s1 p).bind fun s2 ⟨hf, e, hu, he⟩ => ⟨fun i => ?_, fun _ => ⟨p, hf.trans (h1 p)⟩⟩
    exact (congrArg (fun f => (f i).vaddr) he.pages).trans (h1.unlink hu i)

theorem Vaddrs.kallocLoop (h : Vaddrs a s) (hf : s.freelist = 0 ∨ ∃ p, s.freelist = a p) (k : Nat) :
    Ends Any (fun r => r.1 = 0 ∨ ∃ p, r.1 = a p) (kallocLoop lw k s) := by
  induction k generalizing s with
  | zero => trivial
  | succ k ih =>
    simp only [Vm.kallocLoop]
    split
    · simp only [popFree]
      cases Vm.load s s.freelist with
      | error e => trivial
      | ok next => exact hf
    · refine h.reclaim.bind ?_
      rintro ⟨ok, s1⟩ ⟨h1, hf1⟩
      cases ok with
      | true => exact ih h1 (.inr (hf1 rfl))
      | false => exact .inl rfl

end Xv6.Vm
