import Xv6.Syscall.Model

/-!
# Theorems about system call arguments

No process is larger than `KERNBASE`, so none of the sums in the tests wraps.
-/

namespace Xv6.Syscall

open Xv6.Lib

variable {p : Proc} (hsz : p.sz.toNat ≤ Vm.KERNBASE)

def Inside (p : Proc) (a : Addr) : Prop := a < p.sz

def IsStr (p : Proc) (s : Addr × Nat) : Prop :=
  s.1.toNat + s.2 < p.sz.toNat ∧ p.mem (s.1 + BitVec.ofNat 32 s.2) = 0

theorem within_readByte {a : Addr} (h : a < p.sz) : Within (Inside p) (fun b => b = p.mem a) (readByte p a) :=
  (Within.touch (P := Inside p) h).bind fun _ _ => .ret rfl

section

include hsz

/-! ## Numbers -/

theorem within_fetchint (addr : Addr) : Within (Inside p) (fun _ => True) (fetchint p addr) := by
  unfold fetchint
  split
  · exact .fail
  · rename_i h
    simp only [not_or, BitVec.not_le, BitVec.not_lt, ge_iff_le, gt_iff_lt] at h
    simp only [Vm.KERNBASE] at hsz
    obtain ⟨h0, h4⟩ := h
    have inside (k : Nat) (hk : k < 4) : addr + BitVec.ofNat 32 k < p.sz := by bv_omega
    refine (within_readByte h0).bind fun _ _ => (within_readByte (inside 1 (by decide))).bind fun _ _ => ?_
    exact (within_readByte (inside 2 (by decide))).bind fun _ _ => (within_readByte (inside 3 (by decide))).bind fun _ _ => .ret trivial

theorem within_argint (n : BitVec 32) : Within (Inside p) (fun _ => True) (argint p n) := within_fetchint hsz _

/-! ## Pointers -/

theorem argptr_test_iff (i size : BitVec 32) :
    ¬ (size.slt 0 ∨ i ≥ p.sz ∨ i + size > p.sz) ↔
      0 ≤ size.toInt ∧ i.toNat < p.sz.toNat ∧ (i.toNat : Int) + size.toInt ≤ p.sz.toNat := by
  have hi := size.isLt
  have hlt := i.isLt
  simp only [not_or, ge_iff_le, gt_iff_lt, BitVec.lt_def, BitVec.le_def, BitVec.toNat_add, BitVec.slt, decide_eq_true_eq, not_lt,
    not_le, Vm.KERNBASE, BitVec.toInt_eq_toNat_cond] at hsz ⊢
  constructor
  all_goals
    rintro ⟨h1, h2, h3⟩
    refine ⟨h1, h2, ?_⟩
    split at h1 <;> omega

theorem within_argptr (n size : BitVec 32) : Within (Inside p) (fun i => i.toNat + size.toNat ≤ p.sz.toNat) (argptr p n size) := by
  refine (within_argint hsz n).bind fun i _ => ?_
  split
  · exact .fail
  · rename_i h
    obtain ⟨h1, _, h3⟩ := (argptr_test_iff hsz i size).mp h
    refine .ret ?_
    rw [BitVec.toInt_eq_toNat_cond] at h1 h3
    split at h1 <;> omega

end

/-! ## Strings -/

theorem within_strLoop (pp : Addr) {k : Nat} {s : Addr} (hpp : pp ≤ s) :
    Within (Inside p) (fun n => IsStr p (pp, n)) (strLoop p pp k s) := by
  induction k generalizing s with
  | zero => exact .fail
  | succ k ih =>
    unfold strLoop
    split
    · rename_i hs
      refine (within_readByte hs).bind fun c hc => ?_
      split
      · rename_i h0
        apply Within.ret
        refine ⟨?_, ?_⟩
        · bv_omega
        · have he : pp + BitVec.ofNat 32 (s - pp).toNat = s := by bv_omega
          rw [he, ← hc, h0]
      · apply ih
        bv_omega
    · exact .fail

theorem within_fetchstr (addr : Addr) : Within (Inside p) (IsStr p) (fetchstr p addr) := by
  unfold fetchstr
  split
  · exact .fail
  · exact (within_strLoop addr (BitVec.le_refl addr)).bind fun n hn => .ret hn

theorem strLoop_of_nul (pp : Addr) {k : Nat} {s a : Addr} (hsa : s ≤ a) (ha : a < p.sz) (h0 : p.mem a = 0)
    (hk : (a - s).toNat < k) (tr : List Addr) : ∃ n, ((strLoop p pp k s).run tr).1 = some n := by
  induction k generalizing s tr with
  | zero => omega
  | succ k ih =>
    have hs : s < p.sz := by bv_omega
    by_cases hc : p.mem s = 0
    · exact ⟨_, by simp [strLoop, hs, readByte, hc]; rfl⟩
    · have hne : s ≠ a := by rintro rfl; exact hc h0
      simp only [strLoop, hs, if_true, readByte, Traced.run_bind, Traced.run_touch, Traced.run_pure, hc, if_false]
      apply ih
      · bv_omega
      · bv_omega

theorem fetchstr_isSome_iff (addr : Addr) (tr : List Addr) (ht : ∀ a ∈ tr, Inside p a) :
    ((fetchstr p addr).run tr).1.isSome ↔ ∃ a, addr ≤ a ∧ a < p.sz ∧ p.mem a = 0 := by
  rw [Option.isSome_iff_exists]
  constructor
  · rintro ⟨⟨pp, n⟩, hn⟩
    obtain ⟨hlt, h0⟩ := (within_fetchstr addr tr ht).2 _ hn
    obtain rfl : pp = addr := by
      unfold fetchstr at hn
      split at hn
      · cases hn
      · rw [Traced.run_bind] at hn
        split at hn <;> cases hn
        rfl
    exact ⟨pp + BitVec.ofNat 32 n, by bv_omega, by bv_omega, h0⟩
  · rintro ⟨a, haa, ha, h0⟩
    have hs : addr < p.sz := by bv_omega
    obtain ⟨n, hn⟩ := strLoop_of_nul addr haa ha h0 (show (a - addr).toNat < (p.sz - addr).toNat by bv_omega) tr
    refine ⟨(addr, n), ?_⟩
    rw [fetchstr, if_neg (by bv_omega), Traced.run_bind]
    cases hr : (strLoop p addr (p.sz - addr).toNat addr).run tr with
    | mk o tr' =>
      rw [hr] at hn
      cases hn
      rfl

/-! ## All calls -/

section

include hsz

theorem within_argstr (n : BitVec 32) : Within (Inside p) (IsStr p) (argstr p n) :=
  (within_argint hsz n).bind fun addr _ => within_fetchstr addr

theorem within_argvLoop (uargv : Addr) (k : Nat) (i : BitVec 32) :
    Within (Inside p) (fun l => ∀ s ∈ l, IsStr p s) (argvLoop p uargv k i) := by
  induction k generalizing i with
  | zero => exact .fail
  | succ k ih =>
    refine (within_fetchint hsz _).bind fun uarg _ => ?_
    split
    · exact .ret (by simp)
    · refine (within_fetchstr uarg).bind fun s hs => (ih (i + 1)).bind fun rest hr => .ret ?_
      intro s' hs'
      cases hs' with
      | head => exact hs
      | tail _ hs' => exact hr s' hs'

theorem within_sys_exec : Within (Inside p) (fun r => IsStr p r.1 ∧ ∀ s ∈ r.2, IsStr p s) (sys_exec p) := by
  refine (within_argstr hsz 0).bind fun path hp => (within_argint hsz 1).bind fun uargv _ => ?_
  exact (within_argvLoop hsz uargv MAXARG 0).bind fun argv ha => .ret ⟨hp, ha⟩

theorem within_ranges (c : Call) : Within (Inside p) (fun rs => ∀ r ∈ rs, r.1 + r.2 ≤ p.sz.toNat) (c.ranges p) := by
  have str (s : Addr × Nat) (h : IsStr p s) : (strRange s).1 + (strRange s).2 ≤ p.sz.toNat := h.1
  cases c with
  | fetchint addr => exact (within_fetchint hsz addr).bind fun _ _ => .ret (by simp)
  | fetchstr addr => exact (within_fetchstr addr).bind fun s hs => .ret (by simpa using str s hs)
  | argint n => exact (within_argint hsz n).bind fun _ _ => .ret (by simp)
  | argptr n size => exact (within_argptr hsz n size).bind fun i hi => .ret (by simpa using hi)
  | argstr n => exact (within_argstr hsz n).bind fun s hs => .ret (by simpa using str s hs)
  | sys_exec =>
    refine (within_sys_exec hsz).bind fun r hr => .ret ?_
    intro x hx
    simp only [List.mem_cons, List.mem_map] at hx
    rcases hx with rfl | ⟨s, hs, rfl⟩
    · exact str _ hr.1
    · exact str s (hr.2 s hs)

end

/-- For a process of at most `KERNBASE` bytes: everything that the functions read, or return as valid, is in the process; `argptr` succeeds
for a pointer exactly if its block is in the process, and `argstr` exactly if a nul follows in the process. -/
theorem args_inside (p : Proc) (hsz : p.sz.toNat ≤ Vm.KERNBASE) :
    (∀ c : Call, (∀ a ∈ (c.ranges p).result.2, a < p.sz) ∧
      ∀ rs, (c.ranges p).result.1 = some rs → ∀ r ∈ rs, r.1 + r.2 ≤ p.sz.toNat) ∧
    (∀ n i, (argint p n).result.1 = some i → ∀ size, (argptr p n size).result.1 = some i ↔
      0 ≤ size.toInt ∧ i.toNat < p.sz.toNat ∧ (i.toNat : Int) + size.toInt ≤ p.sz.toNat) ∧
    (∀ n addr, (argint p n).result.1 = some addr → ((argstr p n).result.1.isSome ↔
      ∃ a, addr ≤ a ∧ a < p.sz ∧ p.mem a = 0)) := by
  refine ⟨fun c => (within_ranges hsz c).result, fun n i hi size => ?_, fun n addr ha => ?_⟩
  · rw [← argptr_test_iff hsz i size]
    cases hr : (argint p n).run [] with
    | mk o tr =>
      rw [Traced.result, hr] at hi
      subst hi
      simp only [Traced.result, argptr, Traced.run_bind, hr]
      split
      · rename_i hc
        simp only [Traced.run_fail, reduceCtorEq, hc, not_true_eq_false]
      · rename_i hc
        simp only [Traced.run_pure, hc, not_false_eq_true]
  · have hw := (within_argint hsz n).result.1
    cases hr : (argint p n).run [] with
    | mk o tr =>
      rw [Traced.result, hr] at ha hw
      subst ha
      rw [← fetchstr_isSome_iff addr tr hw]
      simp [Traced.result, argstr, Traced.run_bind, hr]

/-- A process of one page whose stack ends just below the top: the second argument would be outside. -/
def onePage : Proc := ⟨0x1000, 0xFF8, fun a => if a = 0xFFC then 0x10 else 0⟩

theorem args_inside_one_page :
    (∀ a ∈ ((Call.argstr 0).ranges onePage).result.2, a < onePage.sz) ∧ (argstr onePage 0).result.1.isSome :=
  have h := args_inside onePage (by decide)
  ⟨(h.1 _).1, (h.2.2 0 0x10 (by decide +kernel)).mpr ⟨0x10, by decide, by decide, by decide⟩⟩

/-- A stack pointer at the end of the address space: the sums wrap, and the address is refused. -/
example : (argint { onePage with esp := 0xFFFFFFFC, sz := 0x2 } 0).result = (none, []) := by decide +kernel

end Xv6.Syscall
