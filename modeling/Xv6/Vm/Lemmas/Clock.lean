import Xv6.Vm.Lemmas.Lru

/-!
# The sweep of `reclaim`

`reclaim` clears `PTE_A` of the pages that it passes over, and `page_lru_head` moves along with it.
-/

namespace Xv6.Vm

open Xv6.Lib List

attribute [local irreducible] V2P P2V

variable {L : Type} {lw : Fs.LogWrite L} {s : Mem L} {d t va p : Nat} {w : BitVec 32} {ps done rest : List Nat}
  {dir table : Nat → Nat}

def entry (s : Mem L) (p : Nat) : BitVec 32 := pteAt s (s.ext.pages p).pgdir (s.ext.pages p).vaddr

def accessed (s : Mem L) (p : Nat) : Bool := has (entry s p) PTE_A

/-- The list is a ring of resident user pages `ps`, with entries of their own; `dir` and `table` are the frames of their
page directories and page tables. -/
structure Clock (s : Mem L) (ps : List Nat) (dir table : Nat → Nat) : Prop where
  ring : Ring s.ext ps
  bound : ∀ p ∈ ps, p < NPAGES
  pgdir : ∀ p ∈ ps, (s.ext.pages p).pgdir = kva (dir p)
  maps : ∀ p ∈ ps, ∃ w, Maps s (dir p) (table p) (s.ext.pages p).vaddr w ∧ has w PTE_P ∧ has w PTE_U
  tables : ∀ p ∈ ps, ∀ q ∈ ps, dir p ≠ table q
  apart : ∀ p ∈ ps, ∀ q ∈ ps, p ≠ q → table q = table p → PTX (s.ext.pages q).vaddr ≠ PTX (s.ext.pages p).vaddr

/-! ## Clearing one bit -/

def clearA (s : Mem L) (t i : Nat) : Mem L :=
  s.setPage t ((s.mem t).setWord (4 * i) ((s.mem t).word (4 * i) &&& ~~~PTE_A))

theorem word_clearA_self (s : Mem L) (t : Nat) {i : Nat} (hi : 4 * i + 3 < PGSIZE) :
    ((clearA s t i).mem t).word (4 * i) = (s.mem t).word (4 * i) &&& ~~~PTE_A := by
  rw [clearA, mem_setPage_self, Bytes.word_setWord_self _ _ hi]

theorem word_clearA_ne (s : Mem L) {t f i j : Nat} (h : t = f → i ≠ j) : ((clearA s t i).mem f).word (4 * j) = (s.mem f).word (4 * j) := by
  by_cases ht : f = t
  · subst ht
    have := h rfl
    rw [clearA, mem_setPage_self, Bytes.word_setWord_ne _ _ (by omega)]
  · rw [clearA, mem_setPage_ne _ ht]

theorem Maps.pteAt (h : Maps s d t va w) : pteAt s (kva d) va = w := by
  have h1 := pdx_lt va
  have h2 := ptx_lt va
  have hd : s.word (V2P (kva d) + 4 * PDX va) = (s.mem d).word (4 * PDX va) := by
    rw [V2P_kva h.dir, State.word, div_page (by omega), mod_page (by omega)]
  simp only [Vm.pteAt, hd, h.present, if_true, pte_addr, h.pde]
  rw [State.word, div_page (by omega), mod_page (by omega), h.pte]

theorem Maps.logical_and (h : Maps s d t va w) (flag : BitVec 32) : pte_logical_and s (kva d) va flag = .ok (has w flag) := by
  have hne : kva t + 4 * PTX va ≠ 0 := by simp [kva, KERNBASE]
  simp only [pte_logical_and, h.walk, bind, Except.bind, if_neg hne, h.load]
  rfl

theorem Maps.a_clear (h : Maps s d t va w) : pte_pte_a_clear s (kva d) va = .ok (clearA s t (PTX va)) := by
  have hp := ptx_lt va
  have hne : kva t + 4 * PTX va ≠ 0 := by simp [kva, KERNBASE]
  simp only [pte_pte_a_clear, Vm.pteUpdate, h.walk, bind, Except.bind, if_neg hne, h.load]
  rw [store_kva h.table (by omega), clearA, h.pte]

theorem Maps.clearA (h : Maps s d t va w) {f i : Nat} (hd : d ≠ f) (ht : f = t → i ≠ PTX va) : Maps (clearA s f i) d t va w := by
  refine ⟨h.dir, h.table, h.apart, ?_, ?_, ?_⟩
  · rw [word_clearA_ne _ fun hf => absurd hf.symm hd]; exact h.present
  · rw [word_clearA_ne _ fun hf => absurd hf.symm hd]; exact h.pde
  · rw [word_clearA_ne _ ht]; exact h.pte

/-! ## Clearing the bits of the pages passed over -/

def sweep (table : Nat → Nat) (s : Mem L) (qs : List Nat) : Mem L :=
  qs.foldl (fun s' q => clearA s' (table q) (PTX (s.ext.pages q).vaddr)) s

theorem sweep_append (qs rs : List Nat) (h : (sweep table s qs).ext = s.ext) :
    sweep table s (qs ++ rs) = sweep table (sweep table s qs) rs := by
  simp only [sweep] at h
  simp [sweep, h]

theorem ext_sweep (table : Nat → Nat) (s : Mem L) (qs : List Nat) :
    (sweep table s qs).ext = s.ext ∧ (sweep table s qs).freelist = s.freelist ∧ (sweep table s qs).cr3 = s.cr3 := by
  induction qs using reverseRecOn with
  | nil => exact ⟨rfl, rfl, rfl⟩
  | append_singleton qs q ih =>
    rw [sweep_append _ _ ih.1]
    exact ih

theorem sweep_concat (qs : List Nat) (q : Nat) :
    sweep table s (qs ++ [q]) = clearA (sweep table s qs) (table q) (PTX (s.ext.pages q).vaddr) := by
  simp [sweep]

variable (h : Clock s ps dir table)
include h

theorem Clock.maps_sweep (hw : Maps s (dir p) (table p) (s.ext.pages p).vaddr w) (hp : p ∈ ps) (hd : done ⊆ ps)
    (hpd : p ∉ done) : Maps (sweep table s done) (dir p) (table p) (s.ext.pages p).vaddr w := by
  induction done using reverseRecOn with
  | nil => exact hw
  | append_singleton qs q ih =>
    rw [sweep_concat]
    have hq : q ∈ ps := hd (by simp)
    have hpq : p ≠ q := by rintro rfl; exact hpd (by simp)
    refine (ih (fun x hx => hd (by simp [hx])) fun hx => hpd (by simp [hx])).clearA (h.tables p hp q hq) fun ht => ?_
    exact h.apart p hp q hq hpq ht

/-! ## The loop -/

omit h in
def moved (s : Mem L) (hd : Option Nat) : Mem L := { s with ext := { s.ext with page_lru_head := hd } }

theorem Clock.next (hl : ps = done ++ p :: rest) : (s.ext.pages p).next = rest.head?.or ps.head? := by
  have hn := h.ring.next done.length p (by simp [hl])
  rw [hn]
  cases rest with
  | nil =>
    have hlen : ps.length = done.length + 1 := by simp [hl]
    rw [hlen, Nat.mod_self, ← head?_eq_getElem?]
    rfl
  | cons q rest =>
    rw [Nat.mod_eq_of_lt (by simp [hl]), hl]
    simp

theorem Clock.tail (hp : ps.head? = some p) : (s.ext.pages p).prev = ps.getLast? := by
  have hne : ps ≠ [] := by rintro rfl; cases hp
  have hl : 0 < ps.length := length_pos_of_ne_nil hne
  have hi : (ps.length - 1 + 1) % ps.length = 0 := by rw [Nat.sub_add_cancel hl, Nat.mod_self]
  rw [h.ring.prev (ps.length - 1) p (by rw [hi, ← head?_eq_getElem?, hp]) (by omega), getLast?_eq_getElem?]

theorem Clock.pick_step (hl : ps = done ++ p :: rest) (tail : Option Nat) (k : Nat) :
    pickLoop tail (k + 1) (moved (sweep table s done) (some p)) p =
      if accessed s p then
        if some p = tail then .ok (none, moved (sweep table s (done ++ [p])) (s.ext.pages p).next)
        else
          match (s.ext.pages p).next with
          | none => .error .null
          | some q => pickLoop tail k (moved (sweep table s (done ++ [p])) (s.ext.pages p).next) q
      else .ok (some p, moved (sweep table s done) (some p)) := by
  have hp : p ∈ ps := by simp [hl]
  have hnd := nodup_append.mp (hl ▸ h.ring.nodup)
  obtain ⟨w, hw, _⟩ := h.maps p hp
  have hm : Maps (moved (sweep table s done) (some p)) (dir p) (table p) (s.ext.pages p).vaddr w :=
    (h.maps_sweep hw hp (by simp [hl]) fun hx => hnd.2.2 p hx p (by simp) rfl).congr rfl
  have hpage : (moved (sweep table s done) (some p)).ext.pages p = s.ext.pages p := by
    simp [moved, (ext_sweep table s done).1]
  have hacc : accessed s p = has w PTE_A := by rw [accessed, entry, h.pgdir p hp, hw.pteAt]
  have hclear : clearA (moved (sweep table s done) (some p)) (table p) (PTX (s.ext.pages p).vaddr) =
      moved (sweep table s (done ++ [p])) (some p) := by rw [sweep_concat]; rfl
  have hnext : nextHead (moved (sweep table s (done ++ [p])) (some p)) =
      .ok (moved (sweep table s (done ++ [p])) (s.ext.pages p).next) := by
    simp only [nextHead, moved, (ext_sweep table s (done ++ [p])).1]
  have hpage' (q : Option Nat) : ((moved (sweep table s (done ++ [p])) q).ext.pages p).next = (s.ext.pages p).next := by
    simp only [moved, (ext_sweep table s (done ++ [p])).1]
  simp only [Vm.pickLoop, hpage, h.pgdir p hp, hm.logical_and, hacc, hm.a_clear, hclear, hnext, hpage', bind, Except.bind]
  rfl

theorem Clock.pickLoop (hl : ps = done ++ p :: rest) {k : Nat} (hk : rest.length < k) :
    pickLoop ps.getLast? k (moved (sweep table s done) (some p)) p =
      .ok ((p :: rest).find? fun q => !accessed s q,
        moved (sweep table s (done ++ (p :: rest).takeWhile (accessed s)))
          (((p :: rest).find? fun q => !accessed s q).or ps.head?)) := by
  induction rest generalizing done p k with
  | nil =>
    obtain ⟨k, rfl⟩ : ∃ m, k = m + 1 := ⟨k - 1, by omega⟩
    have hlast : ps.getLast? = some p := by simp [hl]
    rw [h.pick_step hl, hlast, h.next hl]
    by_cases ha : accessed s p <;> simp [ha]
  | cons q rest ih =>
    obtain ⟨k, rfl⟩ : ∃ m, k = m + 1 := ⟨k - 1, by omega⟩
    simp only [length_cons] at hk
    have hlast : some p ≠ ps.getLast? := by
      have hnd := (nodup_cons.mp (nodup_append.mp (hl ▸ h.ring.nodup)).2.1).1
      rw [hl, getLast?_append, getLast?_cons_cons]
      intro he
      apply hnd
      have hor : (q :: rest).getLast? = some p := by
        cases hc : (q :: rest).getLast? with
        | none => simp at hc
        | some r => rw [hc] at he; exact he.symm
      exact mem_of_getLast? hor
    rw [h.pick_step hl, if_neg hlast, h.next hl]
    have hl' : ps = (done ++ [p]) ++ q :: rest := by simp [hl]
    by_cases ha : accessed s p
    · simp only [ha, if_true, head?_cons, Option.some_or, ih hl' (show rest.length < k by omega)]
      simp [ha]
    · simp [ha]

/-- The victim is the first page whose `PTE_A` is clear. -/
theorem Clock.pick : pick s = .ok (ps.find? fun q => !accessed s q,
    moved (sweep table s (ps.takeWhile (accessed s))) ((ps.find? fun q => !accessed s q).or ps.head?)) := by
  cases ps with
  | nil =>
    have hh : s.ext.page_lru_head = none := h.ring.head
    have hs : moved s none = s := by rw [← hh]; rfl
    simp only [Vm.pick, hh]
    exact congrArg (fun x => Except.ok (none, x)) hs.symm
  | cons p rest =>
    have hh : s.ext.page_lru_head = some p := h.ring.head
    have hs : moved s (some p) = s := by rw [← hh]; rfl
    have hlen : rest.length < 2 * NPAGES + 1 := by
      have hle : (p :: rest).length ≤ NPAGES := by
        have hsub : (p :: rest) ⊆ range NPAGES := fun q hq => mem_range.mpr (h.bound q hq)
        have := (h.ring.nodup.subperm hsub).length_le
        rwa [length_range] at this
      simp only [length_cons] at hle
      omega
    have := h.pickLoop (show p :: rest = [] ++ p :: rest from rfl) hlen
    simp only [Vm.pick, hh, h.tail rfl]
    rwa [show sweep table s [] = s from rfl, hs, nil_append] at this

end Xv6.Vm
