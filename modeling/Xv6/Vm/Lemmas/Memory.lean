import Xv6.Vm.Model

/-!
# Kernel addresses

Frame `f` of physical memory is seen by the kernel at `kva f`.
-/

namespace Xv6.Vm

open Xv6.Lib BitVec Except

variable {σ : Type} {s : State σ} {w : BitVec 32} {f o va : Nat}

def NFRAMES : Nat := PHYSTOP / PGSIZE

def kva (f : Nat) : Nat := KERNBASE + PGSIZE * f

def frame (w : BitVec 32) : Nat := w.toNat / PGSIZE

/-! ## Flags -/

theorem has_twoPow (w : BitVec 32) {i : Nat} (hi : i < 32) : has w (twoPow 32 i) = w.getLsbD i := by
  have hne : twoPow 32 i ≠ 0#32 := by
    intro h
    have := congrArg (fun v => v.getLsbD i) h
    simp [hi] at this
  simp only [has, and_twoPow]
  cases w.getLsbD i with
  | true => simpa using hne
  | false => simp

theorem has_PTE_P (w : BitVec 32) : has w PTE_P = w.getLsbD 0 := has_twoPow w (i := 0) (by decide)

theorem has_PTE_U (w : BitVec 32) : has w PTE_U = w.getLsbD 2 := has_twoPow w (i := 2) (by decide)

theorem has_PTE_SWAP (w : BitVec 32) : has w PTE_SWAP = w.getLsbD 8 := has_twoPow w (i := 8) (by decide)

@[simp] theorem has_zero (flag : BitVec 32) : has 0#32 flag = false := by simp [has]

/-! ## Frames of entries -/

theorem getLsbD_mask {i : Nat} (hi : i < 32) : (0xFFF#32).getLsbD i = decide (i < 12) := by
  rw [show 0xFFF#32 = BitVec.ofNat 32 (2 ^ 12 - 1) from rfl, BitVec.getLsbD_ofNat, Nat.testBit_two_pow_sub_one]
  simp [hi]

theorem pte_addr (w : BitVec 32) : PTE_ADDR w = PGSIZE * frame w := by
  have h : w &&& ~~~0xFFF#32 = w >>> 12 <<< 12 := by
    apply eq_of_getLsbD_eq
    intro i hi
    simp only [getLsbD_and, getLsbD_not, getLsbD_shiftLeft, getLsbD_ushiftRight, getLsbD_mask hi, hi]
    by_cases h12 : i < 12
    · simp [h12]
    · simp [h12, show 12 + (i - 12) = i by omega]
  have := w.isLt
  rw [PTE_ADDR, h, frame, toNat_shiftLeft, toNat_ushiftRight, Nat.shiftLeft_eq, Nat.shiftRight_eq_div_pow]
  simp only [PGSIZE]
  omega

theorem frame_and {m : BitVec 32} (hm : m &&& ~~~0xFFF#32 = ~~~0xFFF#32) (w : BitVec 32) : frame (w &&& m) = frame w := by
  have h : PTE_ADDR (w &&& m) = PTE_ADDR w := by rw [PTE_ADDR, PTE_ADDR, BitVec.and_assoc, hm]
  rw [pte_addr, pte_addr] at h
  exact Nat.eq_of_mul_eq_mul_left (by decide) h

theorem frame_or (hf : f < 2 ^ 20) {flags : BitVec 32} (h : flags.toNat < PGSIZE) : frame (.ofNat 32 (PGSIZE * f) ||| flags) = f := by
  simp only [PGSIZE] at h
  simp only [frame, PGSIZE, toNat_or, toNat_ofNat]
  rw [show 4096 = 2 ^ 12 from rfl, ← Nat.shiftRight_eq_div_pow, Nat.shiftRight_or_distrib, Nat.shiftRight_eq_div_pow,
    Nat.shiftRight_eq_div_pow, Nat.div_eq_of_lt h, Nat.or_zero]
  omega

/-! ## Accesses -/

theorem translate_kva (hf : f < NFRAMES) (ho : o < PGSIZE) : translate s (kva f + o) = .ok (PGSIZE * f + o) := by
  simp only [NFRAMES, PHYSTOP, PGSIZE] at hf ho
  rw [translate, if_pos (by simp only [kva]; omega)]
  have h : V2P (kva f + o) = PGSIZE * f + o := by
    simp only [V2P, kva, KERNBASE, PGSIZE]
    omega
  rw [h]

theorem div_page (ho : o < PGSIZE) : (PGSIZE * f + o) / PGSIZE = f := by
  simp only [PGSIZE] at *
  omega

theorem mod_page (ho : o < PGSIZE) : (PGSIZE * f + o) % PGSIZE = o := by
  simp only [PGSIZE] at *
  omega

theorem load_kva (hf : f < NFRAMES) (ho : o < PGSIZE) : load s (kva f + o) = .ok ((s.mem f).word o) := by
  simp [load, translate_kva hf ho, bind, Except.bind, pure, Except.pure, State.word, div_page ho, mod_page ho]

theorem store_kva (hf : f < NFRAMES) (ho : o < PGSIZE) : store s (kva f + o) w = .ok (s.setPage f ((s.mem f).setWord o w)) := by
  simp [store, translate_kva hf ho, bind, Except.bind, pure, Except.pure, div_page ho, mod_page ho]

theorem loadPage_kva (hf : f < NFRAMES) : loadPage s (kva f) = .ok (s.mem f) := by
  have := translate_kva (s := s) hf (o := 0) (by decide)
  rw [add_zero] at this
  simp only [loadPage, this, bind, Except.bind, pure, Except.pure, div_page (show 0 < PGSIZE by decide)]

theorem storePage_kva (hf : f < NFRAMES) (p : Page) : storePage s (kva f) p = .ok (s.setPage f p) := by
  have := translate_kva (s := s) hf (o := 0) (by decide)
  rw [add_zero] at this
  simp only [storePage, this, bind, Except.bind, pure, Except.pure, div_page (show 0 < PGSIZE by decide)]

theorem mem_setPage_self (p : Page) : (s.setPage f p).mem f = p := by simp [State.setPage]

theorem mem_setPage_ne {g : Nat} (p : Page) (h : g ≠ f) : (s.setPage f p).mem g = s.mem g := by
  simp [State.setPage, h]

theorem P2V_frame (hf : f < NFRAMES) : P2V (PGSIZE * f) = kva f := by
  simp only [NFRAMES, PHYSTOP, PGSIZE] at hf
  simp only [P2V, kva, KERNBASE, PGSIZE]
  omega

theorem V2P_kva (hf : f < NFRAMES) : V2P (kva f) = PGSIZE * f := by
  simp only [NFRAMES, PHYSTOP, PGSIZE] at hf
  simp only [V2P, kva, KERNBASE, PGSIZE]
  omega

theorem kva_ne_zero : kva f ≠ 0 := by simp [kva, KERNBASE]

theorem pdx_lt (va : Nat) : 4 * PDX va + 3 < PGSIZE := by simp only [PDX, PGSIZE]; omega

theorem ptx_lt (va : Nat) : 4 * PTX va + 3 < PGSIZE := by simp only [PTX, PGSIZE]; omega

/-! ## Walking the page table -/

theorem walk_kva {d : Nat} (hd : d < NFRAMES) (va : Nat) :
    walk s (kva d) va = .ok (if has ((s.mem d).word (4 * PDX va)) PTE_P then
      P2V (PGSIZE * frame ((s.mem d).word (4 * PDX va))) + 4 * PTX va else 0) := by
  have := pdx_lt va
  simp [walk, load_kva hd (show 4 * PDX va < PGSIZE by omega), bind, Except.bind, pure, Except.pure, pte_addr]

end Xv6.Vm
