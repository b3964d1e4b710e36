import Xv6.Vm.Lemmas.Copy
import Xv6.Vm.Lemmas.Rep
import Xv6.Vm.Theorems

/-! # User memory and its copy -/

namespace Xv6.Vm

open Xv6.Lib Bytes

attribute [local irreducible] V2P P2V

variable {L : Type} {K : Kernel}
variable {s s' : Mem L} {d dp n va sz : Nat} {T T' Tp : Nat → Option Nat} {fl fl' cs : List Nat}

/-! ## The LRU list -/

def Ready (e : Swap L) : Prop := e.page_lru_head = none ∨ Linked e

theorem Ready.lru_insert (hi : Ready s.ext) (pgdir va : Nat) (u : Bool) :
    Ends (fun _ => False) (fun s' => SameMem s s' ∧ Ready s'.ext) (lru_insert s pgdir va u) := by
  cases u with
  | false => exact ⟨⟨rfl, rfl, rfl⟩, hi⟩
  | true =>
    rcases hi with hh | hl
    · simp only [Vm.lru_insert, if_true, hh]
      exact ⟨⟨rfl, rfl, rfl⟩, .inr ⟨by simp [Swap.setPage], by simp [Swap.setPage], rfl⟩⟩
    · have hl' : Linked { s.ext with num_lru_pages := s.ext.num_lru_pages + 1 } := ⟨hl.next, hl.prev, hl.head⟩
      rw [lru_insert_some hl.head, hl'.lruLink]
      exact ⟨⟨rfl, rfl, rfl⟩, .inr ⟨by simp [pages_setPrev, pages_setNext], by simp [pages_setPrev], hl.head⟩⟩

/-! ## User memory -/

/-- What the machine reads at the user address `va`; `none` is a page fault. -/
def userByte (s : Mem L) (pgdir va : Nat) : Option (BitVec 8) :=
  if has (pteAt s pgdir va) PTE_P then some ((s.mem (PTE_ADDR (pteAt s pgdir va) / PGSIZE)).get (va % PGSIZE)) else none

theorem Pagedir.pteAt (hd : Pagedir K s d T) (va : Nat) : pteAt s (kva d) va = pte s T va := by
  have h1 := pdx_lt va
  have h2 := ptx_lt va
  have hw : s.word (V2P (kva d) + 4 * PDX va) = (s.mem d).word (4 * PDX va) := by
    rw [V2P_kva hd.dir.lt, State.word, div_page (by omega), mod_page (by omega)]
  cases ht : T (PDX va) with
  | none =>
    have := hd.absent _ (pdx_lt_npdentries va) ht
    rw [pte_none ht]
    simp [Vm.pteAt, hw, this]
  | some t =>
    obtain ⟨hp, hf⟩ := hd.present _ t ht
    simp only [Vm.pteAt, hw, hp, if_true, pte_addr, hf]
    rw [State.word, div_page (by omega), mod_page (by omega), pte_some ht]

theorem Pagedir.userByte (hd : Pagedir K s d T) (hp : has (pte s T va) PTE_P = true) :
    userByte s (kva d) va = some ((s.mem (frame (pte s T va))).get (va % PGSIZE)) := by
  rw [Vm.userByte, hd.pteAt, if_pos hp, pte_addr, Nat.mul_div_cancel_left _ (by decide)]

theorem frame_entryFor {f : Nat} (hf : f < NFRAMES) (w : BitVec 32) :
    has (entryFor (PGSIZE * f) (PTE_FLAGS w)) PTE_P = true ∧ frame (entryFor (PGSIZE * f) (PTE_FLAGS w)) = f := by
  refine ⟨has_PTE_P_or _ _, ?_⟩
  rw [entryFor, BitVec.or_assoc]
  refine frame_or ?_ ?_
  · simp only [NFRAMES, PHYSTOP, PGSIZE] at hf
    omega
  · have hlt : (PTE_FLAGS w).toNat < 2 ^ 12 := by
      rw [PTE_FLAGS, BitVec.toNat_and]
      exact lt_of_le_of_lt Nat.and_le_right (by decide)
    rw [BitVec.toNat_or]
    exact Nat.or_lt_two_pow hlt (by decide)

theorem pte_page (va : Nat) : pte s T va = pte s T (PGSIZE * (va / PGSIZE)) := by
  refine pte_samePage ⟨?_, ?_⟩
  · simp only [PDX, PGSIZE]
    omega
  · simp only [PTX, PGSIZE]
    omega

theorem AllPresent.at (ha : AllPresent s Tp 0 n) (hn : va / PGSIZE < n) : has (pte s Tp va) PTE_P = true := by
  rw [pte_page]
  exact ha _ (Nat.zero_le _) hn

theorem Copy.child (hc : Copy K s Tp fl s' d T fl' cs) (hp : Parent K s dp Tp fl cs.length) (hf : Free K s fl)
    (ha : AllPresent s Tp 0 cs.length) (hn : va / PGSIZE < cs.length) : userByte s' (kva d) va = userByte s (kva dp) va := by
  have hlt : va < 2 ^ 32 := by
    have := hp.bound
    simp only [PGSIZE, KERNBASE] at this hn
    omega
  have hget : cs[va / PGSIZE]? = some cs[va / PGSIZE] := List.getElem?_eq_getElem hn
  have hu : Usable K cs[va / PGSIZE] := hf.usable _ (hc.frames _ (List.getElem_mem hn)).1
  have hpte := hc.pte va hlt
  simp only [hget] at hpte
  obtain ⟨hP, hF⟩ := frame_entryFor hu.lt (Vm.pte s Tp (PGSIZE * (va / PGSIZE)))
  rw [← hpte] at hP hF
  rw [hc.fresh.layout.toPagedir.userByte hP, hF, hc.copied _ _ hget, hp.dir.userByte (ha.at hn), ← pte_page]

theorem Copy.parent (hc : Copy K s Tp fl s' d T fl' cs) (hp : Parent K s dp Tp fl n) (ha : AllPresent s Tp 0 n) (hn : va / PGSIZE < n) :
    userByte s' (kva dp) va = userByte s (kva dp) va := by
  have hpage := hp.page _ hn (ha _ (Nat.zero_le _) hn)
  rw [← pte_page] at hpage
  have hP := ha.at hn
  rw [hp.dir.userByte hP, (hp.pagedir hc.fresh.mem).userByte (by rw [hp.pte hc.fresh.mem]; exact hP), hp.pte hc.fresh.mem,
    hc.fresh.mem _ hpage.2]

/-! ## A process with one page

The machine after boot, with a page table at frame 57278 and the page in frame 57277. -/

def onePage (w : BitVec 32) : Mem Unit :=
  { (bootFree 57276).mem with mem := fun f =>
      if f = 57343 then ofWords fun k => if k = 0 then .ofNat 32 (PGSIZE * 57278 + 7) else bootDir k
      else if f = 57278 then (fill PGSIZE 0#8).setWord 0 w
      else if f = 57277 then fill PGSIZE 0x5A#8
      else (bootFree 57276).mem.mem f }

def onePageTables (k : Nat) : Option Nat :=
  if k = 0 then some 57278
  else if 512 ≤ k ∧ k < 568 then some (57854 - k)
  else if 1016 ≤ k ∧ k < 1024 then some (58302 - k)
  else none

def framesBelow : Nat → List Nat
  | 0 => []
  | n + 1 => (277 + n) :: framesBelow n

theorem mem_framesBelow {n f : Nat} : f ∈ framesBelow n ↔ 277 ≤ f ∧ f < 277 + n := by
  induction n with
  | zero => simp [framesBelow]
  | succ n ih =>
    simp only [framesBelow, List.mem_cons, ih]
    omega

theorem nodup_framesBelow (n : Nat) : (framesBelow n).Nodup := by
  induction n with
  | zero => exact List.nodup_nil
  | succ n ih =>
    refine List.nodup_cons.mpr ⟨fun hf => ?_, ih⟩
    have := mem_framesBelow.mp hf
    omega

theorem length_framesBelow (n : Nat) : (framesBelow n).length = n := by
  induction n with
  | zero => rfl
  | succ n ih => rw [framesBelow, List.length_cons, ih]

theorem word_onePage (w : BitVec 32) {n : Nat} (hn : n < 57000) :
    ((onePage w).mem (277 + n)).word 0 = if n = 0 then 0#32 else .ofNat 32 (kva (276 + n)) := by
  have hm : (onePage w).mem (277 + n) = (bootFree 57276).mem.mem (277 + n) := by
    simp only [onePage]
    rw [if_neg (by omega), if_neg (by omega), if_neg (by omega)]
  rw [hm]
  simp only [bootFree]
  split
  · rename_i h
    rw [if_pos (by omega)]
    exact word_setWord_self _ _ (by decide)
  · rename_i h
    have he : 277 + n - 1 = 276 + n := by omega
    rw [if_neg (by omega), bootMem, if_neg (by omega), if_neg (by omega), he]
    exact word_setWord_self _ _ (by decide)

theorem lt_nframes {f : Nat} (hf : f < 57344) : f < NFRAMES := hf.trans_eq (by decide)

theorem usable_frame {f : Nat} (h1 : 277 ≤ f) (h2 : f < 57344) : Usable kernel f := by
  refine ⟨lt_nframes h2, ?_⟩
  have he : kernel.end_ = kva 277 := by decide
  rw [he, kva, kva]
  exact Nat.add_le_add_left (Nat.mul_le_mul_left _ h1) _

theorem chain_onePage (w : BitVec 32) {n : Nat} (hn : n < 57000) :
    Chain kva (fun f => (((onePage w).mem f).word 0).toNat) (kva (277 + n)) (framesBelow (n + 1)) := by
  induction n with
  | zero =>
    refine ⟨rfl, ?_⟩
    dsimp only
    rw [word_onePage w hn]
    rfl
  | succ n ih =>
    refine ⟨rfl, ?_⟩
    dsimp only
    rw [word_onePage w hn, if_neg (by omega), toNat_kva (lt_nframes (by omega))]
    have he : 276 + (n + 1) = 277 + n := by omega
    rw [he]
    exact ih (by omega)

theorem free_onePage (w : BitVec 32) : Free kernel (onePage w) (framesBelow 57000) where
  chain := chain_onePage w (n := 56999) (by decide)
  usable f hf := by
    obtain ⟨h1, h2⟩ := mem_framesBelow.mp hf
    exact usable_frame h1 (by omega)
  nodup := nodup_framesBelow _

theorem has_PTE_P_seven (n : Nat) : has (.ofNat 32 (PGSIZE * n + 7)) PTE_P = true := by
  have h : (PGSIZE * n + 7) / 2 ^ 0 % 2 = 1 := by simp only [PGSIZE]; omega
  rw [has_PTE_P, BitVec.getLsbD_ofNat, Nat.testBit_eq_decide_div_mod_eq, h]
  rfl

theorem dir_onePage (w : BitVec 32) {k : Nat} (hk : k < 1024) : ((onePage w).mem 57343).word (4 * k) =
    match onePageTables k with
    | none => 0#32
    | some t => .ofNat 32 (PGSIZE * t + 7) := by
  have hm : (onePage w).mem 57343 = ofWords fun k => if k = 0 then .ofNat 32 (PGSIZE * 57278 + 7) else bootDir k := by
    simp [onePage]
  rw [hm, word_ofWords _ (by simp only [PGSIZE]; omega)]
  simp only [onePageTables, bootDir]
  split
  · rfl
  · split
    · rfl
    · split <;> rfl

theorem onePageTables_cases {k t : Nat} (ht : onePageTables k = some t) :
    k = 0 ∧ t = 57278 ∨ 512 ≤ k ∧ k < 568 ∧ t = 57854 - k ∨ 1016 ≤ k ∧ k < 1024 ∧ t = 58302 - k := by
  simp only [onePageTables] at ht
  split at ht
  · cases ht
    exact .inl ⟨by assumption, rfl⟩
  · split at ht
    · cases ht
      omega
    · split at ht
      · cases ht
        omega
      · cases ht

theorem pagedir_onePage (w : BitVec 32) : Pagedir kernel (onePage w) 57343 onePageTables where
  dir := usable_frame (by decide) (by decide)
  table i t ht := by
    have := onePageTables_cases ht
    exact ⟨by simp only [NPDENTRIES]; omega, usable_frame (by omega) (by omega)⟩
  inj i j t hi hj := by
    have h1 := onePageTables_cases hi
    have h2 := onePageTables_cases hj
    omega
  ne i hi := by
    have := onePageTables_cases hi
    omega
  absent i hi ht := by
    rw [dir_onePage w hi, ht]
    exact has_zero _
  present i t ht := by
    have hc := onePageTables_cases ht
    rw [dir_onePage w (by omega), ht]
    exact ⟨has_PTE_P_seven t, frame_ofNat (by omega) (by decide)⟩

theorem pte_onePage (w : BitVec 32) : pte (onePage w) onePageTables 0 = w := by
  have hm : (onePage w).mem 57278 = (fill PGSIZE 0#8).setWord 0 w := rfl
  rw [pte_some (t := 57278) rfl, hm]
  exact word_setWord_self _ _ (by decide)

theorem parent_onePage {w : BitVec 32} (hw : has w PTE_P = true → frame w = 57277) :
    Parent kernel (onePage w) 57343 onePageTables (framesBelow 57000) 1 where
  dir := pagedir_onePage w
  bound := by decide
  table j hj := by
    obtain rfl : j = 0 := by omega
    exact ⟨57278, rfl⟩
  tables g hg hf := by
    have hlt := (mem_framesBelow.mp hf).2
    rcases hg with rfl | ⟨i, hi⟩
    · omega
    · have := onePageTables_cases hi
      omega
  page j hj hp := by
    obtain rfl : j = 0 := by omega
    rw [mul_zero, pte_onePage] at hp ⊢
    rw [hw hp]
    exact ⟨lt_nframes (by decide), fun hf => absurd (mem_framesBelow.mp hf).2 (by decide)⟩

theorem allPresent_onePage (w : BitVec 32) : AllPresent (onePage w) onePageTables 0 1 ↔ has w PTE_P = true := by
  refine ⟨fun ha => ?_, fun hw j _ hj => ?_⟩
  · have := ha 0 le_rfl (by decide)
    rwa [mul_zero, pte_onePage] at this
  · obtain rfl : j = 0 := by omega
    rw [mul_zero, pte_onePage]
    exact hw

theorem room_onePage : 65 + ((PGSIZE + PGSIZE - 1) / PGSIZE + 1023) / 1024 + (PGSIZE + PGSIZE - 1) / PGSIZE ≤
    (framesBelow 57000).length := by
  rw [length_framesBelow]
  decide

end Xv6.Vm
