import Xv6.Fs.Mkfs
import Xv6.Lib.Trans
import Xv6.Vm.Lemmas.Locks
import Xv6.Vm.Lemmas.Lru

/-! # Theorems about memory -/

namespace Xv6.Vm

open Xv6.Lib Bytes Locked

variable {L : Type} {lw : Fs.LogWrite L} {x : Space L} {f : Nat}

/-! ## The free list -/

/-- Two processes, each with one page at address `0x1000`, one of them in use by the machine. The list has the page of the
first one, and the free list is empty. -/
def twoProcs (cr3 : Nat) : Mem Unit where
  mem := fun f =>
    if f = 1024 then (fill PGSIZE 0#8).setWord 0 (.ofNat 32 (PGSIZE * 1025 + 7))
    else if f = 1025 then (fill PGSIZE 0#8).setWord 4 (.ofNat 32 (PGSIZE * 1026 + 7))
    else if f = 1026 then fill PGSIZE 0x5A#8
    else if f = 1027 then (fill PGSIZE 0#8).setWord 0 (.ofNat 32 (PGSIZE * 1028 + 7))
    else if f = 1028 then (fill PGSIZE 0#8).setWord 4 (.ofNat 32 (PGSIZE * 1029 + 7))
    else fill PGSIZE 0#8
  freelist := 0
  cr3 := cr3
  ext :=
    { pages := fun i => if i = 0 then ⟨some 0, some 0, kva 1024, 0x1000⟩ else ⟨none, none, 0, 0⟩
      page_lru_head := some 0
      num_lru_pages := 1
      swapbitmap := fun _ => 0
      disk := ⟨Mkfs.sb, fun b => if b = 58 then (fill BSIZE 0#8).set 0 0xFF#8 else fill BSIZE 0#8, ()⟩
      swap := fun _ => fill BSIZE 0#8 }

theorem maps_twoProcs (cr3 : Nat) : Maps (twoProcs cr3) 1024 1025 0x1000 (.ofNat 32 (PGSIZE * 1026 + 7)) :=
  Maps.congr (s := twoProcs 0) (by constructor <;> decide) rfl

theorem ring_twoProcs (cr3 : Nat) : Ring (twoProcs cr3).ext [0] :=
  Shape.ring_one ⟨fun i hi => by simp [twoProcs, hi], .inl ⟨rfl, rfl, rfl⟩⟩ rfl

/-- Once `reclaim` has evicted a page, its entry is not present and has `PTE_SWAP` only if it had it before. So a fault on the page kills
the process, whatever else has happened to memory in between. -/
theorem evicted_page_is_lost {s s0 s1 : Mem L} {p d t : Nat} {w : BitVec 32} (hp : pick s = .ok (some p, s0))
    (hr : reclaim lw s = .ok (true, s1)) (hd : (s0.ext.pages p).pgdir = kva d) (hm : Maps s0 d t (s0.ext.pages p).vaddr w) :
    ∃ w1, Maps s1 d t (s0.ext.pages p).vaddr w1 ∧ has w1 PTE_P = false ∧ has w1 PTE_SWAP = has w PTE_SWAP ∧
      (has w PTE_SWAP = false → ∀ s2 rcr, rcr / PGSIZE = (s0.ext.pages p).vaddr / PGSIZE →
        Maps s2 d t (s0.ext.pages p).vaddr w1 → pgintr lw s2 (kva d) rcr = .ok (true, s2)) := by
  obtain ⟨b, hb⟩ := (hm.evict hd).of_ok (reclaim_of_pick hp hr)
  refine ⟨_, hb, has_PTE_P_evicted w b, has_PTE_SWAP_evicted w b, fun hw s2 rcr hrcr h2 => ?_⟩
  exact (h2.samePage hrcr).pgintr ((has_PTE_SWAP_evicted w b).trans hw)

theorem reclaim_twoProcs : ∃ s0 s1, pick (twoProcs (PGSIZE * 1024)) = .ok (some 0, s0) ∧
    reclaim (fun _ _ => some ()) (twoProcs (PGSIZE * 1024)) = .ok (true, s1) ∧ (s0.ext.pages 0).pgdir = kva 1024 ∧
    (s0.ext.pages 0).vaddr = 0x1000 ∧ Maps s0 1024 1025 0x1000 (.ofNat 32 (PGSIZE * 1026 + 7)) := by
  obtain ⟨⟨ok, s1⟩, h, hr⟩ := returns_of_eval (fun r : Bool × Mem Unit => r.1)
    (x := reclaim (fun _ _ => some ()) (twoProcs (PGSIZE * 1024))) (by decide +kernel)
  obtain rfl : ok = true := hr
  exact ⟨_, s1, rfl, h, rfl, rfl, maps_twoProcs _⟩

theorem evicted_page_is_lost_two_procs :
    ∃ s1 w1, reclaim (fun _ _ => some ()) (twoProcs (PGSIZE * 1024)) = .ok (true, s1) ∧ Maps s1 1024 1025 0x1000 w1 ∧
      has w1 PTE_P = false ∧ pgintr (fun _ _ => some ()) s1 (kva 1024) 0x1ABC = .ok (true, s1) := by
  obtain ⟨s0, s1, hp, hr, hd, hv, hm⟩ := reclaim_twoProcs
  obtain ⟨w1, h1, hP, _, hk⟩ := evicted_page_is_lost hp hr hd (hv.symm ▸ hm)
  exact ⟨s1, w1, hr, hv ▸ h1, hP, hk (by decide) s1 0x1ABC (by rw [hv]; decide) h1⟩

/-- A page of a process that is running: its entry is not marked, and the fault does not bring it back. -/
theorem swap_round_trip_fails :
    ¬ (∀ (s s0 s1 : Mem Unit) p d t w, pick s = .ok (some p, s0) → reclaim (fun _ _ => some ()) s = .ok (true, s1) →
      (s0.ext.pages p).pgdir = kva d → Maps s0 d t (s0.ext.pages p).vaddr w → has w PTE_P → has w PTE_U →
      ∀ w1, Maps s1 d t (s0.ext.pages p).vaddr w1 → has w1 PTE_SWAP) ∧
    ¬ (∀ (s s0 s1 : Mem Unit) p d t w, pick s = .ok (some p, s0) → reclaim (fun _ _ => some ()) s = .ok (true, s1) →
      (s0.ext.pages p).pgdir = kva d → Maps s0 d t (s0.ext.pages p).vaddr w → has w PTE_P → has w PTE_U →
      ∀ rcr killed s2, rcr / PGSIZE = (s0.ext.pages p).vaddr / PGSIZE →
        pgintr (fun _ _ => some ()) s1 (kva d) rcr = .ok (killed, s2) →
        ∃ w2, Maps s2 d t (s0.ext.pages p).vaddr w2 ∧ has w2 PTE_P) := by
  obtain ⟨s0, s1, hp, hr, hd, hv, hm⟩ := reclaim_twoProcs
  obtain ⟨b, hb⟩ := (Maps.evict hd (hv.symm ▸ hm)).of_ok (reclaim_of_pick hp hr)
  constructor
  · intro hall
    have h := hall _ _ _ _ _ _ _ hp hr hd (hv.symm ▸ hm) (by decide) (by decide) _ hb
    rw [has_PTE_SWAP_evicted] at h
    exact absurd h (by decide)
  · intro hall
    have hk : pgintr (fun _ _ => some ()) s1 (kva 1024) 0x1000 = .ok (true, s1) :=
      (hv ▸ hb).pgintr ((has_PTE_SWAP_evicted _ b).trans (by decide))
    obtain ⟨w2, h2, hP⟩ := hall _ _ _ _ _ _ _ hp hr hd (hv.symm ▸ hm) (by decide) (by decide) 0x1000 _ _ (by rw [hv]) hk
    rw [← h2.pte, hb.pte, has_PTE_P_evicted] at hP
    cases hP

/-! ## The LRU list -/

structure Booted (x : Space L) : Prop where
  head : x.mem.ext.page_lru_head = none
  pages : ∀ i, (x.mem.ext.pages i).next = none ∧ (x.mem.ext.pages i).prev = none
  empty : ∀ pgdir va, ¬ Resident x pgdir va

theorem shape_cr3 (h : Shape x.mem.ext) (c : Nat) :
    Shape ({ x with mem := { x.mem with cr3 := c } } : Space L).mem.ext := h

theorem shape_exec (K : Kernel) (lw : Fs.LogWrite L) (h : Shape x.mem.ext) (c : Call) :
    Ends Any (fun x' => Shape x'.mem.ext) (exec K lw x c) := by
  have k : Keeps Shape (hooks lw) := keeps_shape
  cases c with
  | setupkvm =>
    rw [exec]
    refine (k.setupkvm h).bind ?_
    rintro ⟨_, s⟩ hs
    exact .ret hs
  | mappages pgdir va size pa perm =>
    rw [exec]
    refine (k.mappages h pgdir va size pa perm).bind ?_
    rintro ⟨_, s⟩ hs
    exact .ret hs
  | inituvm pgdir init sz =>
    rw [exec]
    exact (k.inituvm h pgdir init sz).bind fun s hs => .ret hs
  | allocuvm pgdir oldsz newsz =>
    rw [exec]
    refine (k.allocuvm h pgdir oldsz newsz).bind ?_
    rintro ⟨_, s⟩ hs
    exact .ret hs
  | copyuvm pgdir sz =>
    rw [exec]
    refine (k.copyuvm h pgdir sz).bind ?_
    rintro ⟨_, s⟩ hs
    exact .ret hs
  | deallocuvm pgdir oldsz newsz =>
    rw [exec]
    refine (k.deallocuvm h pgdir oldsz newsz).bind ?_
    rintro ⟨_, s⟩ hs
    exact .ret hs
  | freevm pgdir =>
    rw [exec]
    exact (k.freevm h pgdir).bind fun s hs => .ret hs
  | reclaim =>
    rw [exec]
    refine (h.reclaim).bind ?_
    rintro ⟨_, s⟩ hs
    exact .ret hs
  | swapin pgdir va =>
    rw [exec]
    refine (h.swapin pgdir va).bind ?_
    rintro ⟨_, s⟩ hs
    exact .ret hs
  | switchuvm pgdir =>
    rw [exec]
    exact .pure (shape_cr3 h _)
  | access pgdir va =>
    rw [exec]
    refine (ext_pteUpdate _ x.mem pgdir va).bind fun s hs => ?_
    rw [← hs] at h
    exact .ret h

/-! ### A machine that has booted

The first process has its page directory and no user page yet: the directory is in the last frame, its page tables for the
kernel are in the frames below, and the frames below those are free. -/

def kernel : Kernel where
  data := KERNBASE + 0x108000
  end_ := KERNBASE + 0x115000
  data_ge := by decide
  data_page := by decide
  data_lt := by decide
  end_ge := by decide

def bootDir (k : Nat) : BitVec 32 :=
  if 512 ≤ k ∧ k < 568 then .ofNat 32 (PGSIZE * (57854 - k) + 7)
  else if 1016 ≤ k ∧ k < 1024 then .ofNat 32 (PGSIZE * (58302 - k) + 7)
  else 0

def bootTable (f j : Nat) : BitVec 32 :=
  if 57287 ≤ f then
    let g := 1024 * (57342 - f) + j
    .ofNat 32 (PGSIZE * g + if 256 ≤ g ∧ g < 264 then 1 else 3)
  else .ofNat 32 (PGSIZE * (1024 * (58302 - f) + j) + 3)

def bootMem (f : Nat) : Page :=
  if f = 57343 then ofWords bootDir
  else if 57279 ≤ f then ofWords (bootTable f)
  else (fill PGSIZE 1#8).setWord 0 (.ofNat 32 (kva (f - 1)))

def bootSpace : Space Unit where
  mem :=
    { mem := bootMem
      freelist := kva 57278
      cr3 := PGSIZE * 57343
      ext :=
        { pages := fun _ => ⟨none, none, 0, 0⟩
          page_lru_head := none
          num_lru_pages := 0
          swapbitmap := fun _ => 0
          disk := ⟨Mkfs.sb, fun _ => fill BSIZE 0#8, ()⟩
          swap := fun _ => fill BSIZE 0#8 } }
  dirs := [kva 57343]

theorem has_PTE_U_ofNat (n : Nat) (hf : f < 4) : has (.ofNat 32 (PGSIZE * n + f)) PTE_U = false := by
  have h : (PGSIZE * n + f) / 2 ^ 2 % 2 = 0 := by simp only [PGSIZE]; omega
  rw [has_PTE_U, BitVec.getLsbD_ofNat, Nat.testBit_eq_decide_div_mod_eq, h]
  rfl

theorem has_PTE_U_bootTable (f j : Nat) : has (bootTable f j) PTE_U = false := by
  unfold bootTable
  split
  · exact has_PTE_U_ofNat _ (by split <;> decide)
  · exact has_PTE_U_ofNat _ (by decide)

theorem frame_ofNat {n : Nat} (hn : n < 2 ^ 20) (hf : f < PGSIZE) : frame (.ofNat 32 (PGSIZE * n + f)) = n := by
  simp only [PGSIZE] at hf
  simp only [frame, BitVec.toNat_ofNat, PGSIZE]
  omega

section Boot

variable {s : Mem Unit} (hs : ∀ f, 57279 ≤ f → s.mem f = bootMem f)
include hs

theorem word_bootTable (hl : 57279 ≤ f) (hh : f < 57343) (va : Nat) : s.word (PGSIZE * f + 4 * PTX va) = bootTable f (PTX va) := by
  have hlt := ptx_lt va
  rw [State.word, div_page (by omega), mod_page (by omega)]
  have hm : s.mem f = ofWords (bootTable f) := by
    rw [hs f hl, bootMem, if_neg (by omega), if_pos hl]
  rw [hm, word_ofWords _ hlt]

theorem has_PTE_U_boot (va : Nat) : has (pteAt s (kva 57343) va) PTE_U = false := by
  have hlt := pdx_lt va
  have hpde : s.word (V2P (kva 57343) + 4 * PDX va) = bootDir (PDX va) := by
    rw [V2P_kva (by decide), State.word, div_page (by omega), mod_page (by omega), hs 57343 (by decide)]
    exact word_ofWords bootDir hlt
  simp only [pteAt, hpde]
  split
  · rw [pte_addr, bootDir]
    split
    · rw [frame_ofNat (by omega) (by decide), word_bootTable hs (by omega) (by omega)]
      exact has_PTE_U_bootTable _ _
    · split
      · rw [frame_ofNat (by omega) (by decide), word_bootTable hs (by omega) (by omega)]
        exact has_PTE_U_bootTable _ _
      · rename_i h _ _
        simp_all [bootDir]
  · exact has_zero _

end Boot

theorem booted_bootSpace : Booted bootSpace where
  head := rfl
  pages _ := ⟨rfl, rfl⟩
  empty pgdir va := by
    rintro ⟨hd, _, _, _, hU⟩
    obtain rfl : pgdir = kva 57343 := List.mem_singleton.mp hd
    rw [has_PTE_U_boot fun _ _ => rfl] at hU
    cases hU

/-! ## `kalloc` and the locks -/

/-- With `kmem.lock` held, `kalloc` returns only if it finds a free page at once, or `reclaim` finds no victim. Otherwise it panics, at the
latest in `sched`. -/
theorem kalloc_returns_iff (w : Locked.World L) :
    (∃ r, Locked.kalloc w = .ok r) ↔
      (w.mem.freelist ≠ 0 ∧ ∃ r, popFree w.mem = .ok r) ∨ (w.mem.freelist = 0 ∧ ∃ m, pick w.mem = .ok (none, m)) :=
  Locked.kalloc_ok_iff w

/-- The machine after boot, when some pages have been handed out: the free list starts at frame `f`, and it ends with the
first frame after the kernel. -/
def bootFree (f : Nat) : Space Unit :=
  { bootSpace with mem := { bootSpace.mem with
      mem := fun g => if g = 277 then (fill PGSIZE 1#8).setWord 0 0#32 else bootMem g
      freelist := kva f } }

theorem booted_bootFree (f : Nat) : Booted (bootFree f) where
  head := rfl
  pages _ := ⟨rfl, rfl⟩
  empty pgdir va := by
    rintro ⟨hd, _, _, _, hU⟩
    obtain rfl : pgdir = kva 57343 := List.mem_singleton.mp hd
    rw [has_PTE_U_boot (s := (bootFree f).mem) fun g hg => if_neg (by omega)] at hU
    cases hU

def stepKalloc (K : Kernel) (lw : Fs.LogWrite L) (x : Space L) : Option Call → Option (Space L)
  | some c => step K lw x c
  | none =>
    match kalloc lw x.mem with
    | .ok r => some { x with mem := r.2 }
    | .error _ => none

theorem popFree_kva {s : Mem L} {g : Nat} (hs : s.freelist = kva f) (hf : f < NFRAMES) (hg : g < NFRAMES)
    (hw : (s.mem f).word 0 = .ofNat 32 (kva g)) : popFree s = .ok (kva f, { s with freelist := kva g }) := by
  have hl : load s (kva f) = .ok (.ofNat 32 (kva g)) := by
    rw [← hw]; exact load_kva (o := 0) hf (by decide)
  have hn : (BitVec.ofNat 32 (kva g)).toNat = kva g := by
    rw [BitVec.toNat_ofNat, Nat.mod_eq_of_lt]
    simp only [NFRAMES, PHYSTOP, PGSIZE] at hg
    simp only [kva, KERNBASE, PGSIZE]
    omega
  rw [popFree, hs, hl]
  simp [bind, Except.bind, pure, Except.pure, hn]

theorem kalloc_bootFree (hf : 277 < f) (hf' : f < 57279) :
    stepKalloc kernel (fun _ _ => some ()) (bootFree f) none = some (bootFree (f - 1)) := by
  have hw : ((bootFree f).mem.mem f).word 0 = .ofNat 32 (kva (f - 1)) := by
    have hm : (bootFree f).mem.mem f = (fill PGSIZE 1#8).setWord 0 (.ofNat 32 (kva (f - 1))) := by
      simp only [bootFree]
      rw [if_neg (by omega), bootMem, if_neg (by omega), if_neg (by omega)]
    rw [hm]
    exact word_setWord_self _ _ (by decide)
  have hk : kalloc (fun _ _ => some ()) (bootFree f).mem = .ok (kva f, (bootFree (f - 1)).mem) := by
    have hne : (bootFree f).mem.freelist ≠ 0 := kva_ne_zero
    rw [kalloc, kallocLoop, if_pos hne]
    exact popFree_kva rfl (by simp only [NFRAMES, PHYSTOP, PGSIZE]; omega) (by simp only [NFRAMES, PHYSTOP, PGSIZE]; omega) hw
  simp only [stepKalloc, hk]
  rfl

theorem reach_bootFree (hf : 277 < f) (hf' : f < 57279) :
    Reach Booted (stepKalloc kernel fun _ _ => some ()) (fun _ _ => True) (bootFree f) := by
  refine Nat.decreasingInduction' (P := fun f => Reach Booted (stepKalloc kernel fun _ _ => some ()) (fun _ _ => True) (bootFree f))
    (m := f) (n := 57278) (fun k hk hfk ih => ?_) (by omega) (.init (booted_bootFree _))
  exact .step ih trivial (kalloc_bootFree (f := k + 1) (by omega) (by omega))

/-- A process in a transaction, with nothing in the buffer cache and no spinlock held. -/
def idleIo : Locked.Io where
  ncli := 0
  pid := 1
  buf := fun _ => ⟨false, false, 0, 0, none, 0, fill BSIZE 0⟩
  lru := Bio.binit
  idequeue := []
  havedisk1 := true
  sb := Mkfs.sb
  logged := []
  logsize := Mkfs.sb.nlog
  outstanding := 1

/-- The process gets one page, its first. No page is left then, and the next `kalloc` panics in `sched`. -/
theorem kalloc_sleeps_with_lock :
    ¬ ∀ (x : Space Unit) (io : Locked.Io), Reach Booted (stepKalloc kernel fun _ _ => some ()) (fun _ _ => True) x →
      ∃ r, Locked.kalloc ⟨x.mem, io⟩ = .ok r := by
  intro hall
  obtain ⟨x, hx, hp⟩ := Reach.of_runs [some (.allocuvm (kva 57343) 0 PGSIZE)]
    (fun x => (match Locked.kalloc ⟨x.mem, idleIo⟩ with
      | .error .schedLocks => true
      | _ => false) = true) (reach_bootFree (f := 278) (by decide) (by decide)) (by decide +kernel)
  have he : Locked.kalloc ⟨x.mem, idleIo⟩ = .error .schedLocks := by
    split at hp
    · assumption
    · cases hp
  obtain ⟨r, hr⟩ := hall x idleIo hx
  cases he.symm.trans hr

end Xv6.Vm
