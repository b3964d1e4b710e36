import Xv6.Lib.Ends
import Xv6.Umalloc.Theorems
import Xv6.Vm.Sbrk

/-!
# `malloc` over the system's `sbrk`

As long as the size fits into an `int`, each run is one of the allocator's model; `malloc` itself does not check the size.
-/

namespace Xv6.Umalloc

open Xv6.Lib

structure Proc (σ : Type) where
  heap : State
  task : Vm.Task
  kern : Vm.State σ

namespace Proc

variable {σ : Type}

section

variable (K : Vm.Kernel) (h : Vm.Hooks σ)

/-- `sbrk(n)`: the old size, or `(char*)-1`. -/
def sbrk (x : Proc σ) (n : Nat) : Except Vm.Stop (Proc σ × Nat) := do
  let (r, task, kern) ← Vm.sys_sbrk K h x.kern x.task (.ofNat 32 n)
  let p := (r % 2 ^ 32).toNat
  let heap := if r = -1 then x.heap else { x.heap with brk := task.sz, segs := (p, task.sz - p) :: x.heap.segs }
  return (⟨heap, task, kern⟩, p)

def morecore (x : Proc σ) (nu : Nat) : Except Vm.Stop (Option (Proc σ × Nat)) := do
  let nu := if nu < 4096 then 4096 else nu
  let (x, p) ← sbrk K h x (nu * 8 % 2 ^ 32)
  if p = 2 ^ 32 - 1 then return some (x, 0)
  else return (free { x.heap with mem := x.heap.mem.setSize p nu } (plus p 1)).map fun s => ({ x with heap := s }, s.freep)

def mallocLoop (nunits : Nat) : Nat → Proc σ → Nat → Nat → Except Vm.Stop (Option (Proc σ × Nat))
  | 0, _, _, _ => .ok none
  | k + 1, x, prevp, p =>
    if x.heap.mem.size p ≥ nunits then
      let (s, ap) := take x.heap nunits prevp p
      .ok (some ({ x with heap := s }, ap))
    else if p = x.heap.freep then do
      match ← morecore K h x nunits with
      | none => return none
      | some (x, p) => if p = 0 then return some (x, 0) else mallocLoop nunits k x p (x.heap.mem.ptr p)
    else mallocLoop nunits k x p (x.heap.mem.ptr p)

def malloc (base : Nat) (x : Proc σ) (nbytes : Nat) : Except Vm.Stop (Option (Proc σ × Nat)) :=
  let s := initBase base x.heap
  mallocLoop K h (nunits nbytes) s.brk { x with heap := s } s.freep (s.mem.ptr s.freep)

end

/-! ## What the kernel gives -/

variable {K : Vm.Kernel} {h : Vm.Hooks σ} {x : Proc σ} {n base nbytes : Nat}

theorem ends_allocLoop (pgdir oldsz newsz k : Nat) (s : Vm.State σ) (a : Nat) :
    Ends Any (fun r => r.1 = 0 ∨ r.1 = newsz) (Vm.allocLoop K h pgdir oldsz newsz k s a) := by
  induction k generalizing s a with
  | zero => exact Or.inr rfl
  | succ k ih =>
    unfold Vm.allocLoop
    refine (Ends.any _).bind fun ⟨mem, s⟩ _ => ?_
    dsimp only
    split
    · exact (Ends.any _).bind fun _ _ => Or.inl rfl
    · refine (Ends.any _).bind fun s _ => (Ends.any _).bind fun ⟨ok, s⟩ _ => ?_
      dsimp only
      split
      · exact ih _ _
      · exact (Ends.any _).bind fun _ _ => (Ends.any _).bind fun _ _ => Or.inl rfl

theorem ends_sys_sbrk (s : Vm.State σ) (p : Vm.Task) (hn : 0 < n) (hlt : n < 2 ^ 31) (hp : p.sz ≤ KERNBASE) :
    Ends Any (fun r : Int × Vm.Task × Vm.State σ =>
      r.1 = -1 ∧ r.2.1 = p ∨ r.1 = p.sz ∧ r.2.1.sz = p.sz + n ∧ p.sz + n < KERNBASE) (Vm.sys_sbrk K h s p (.ofNat 32 n)) := by
  have hpos : (BitVec.ofNat 32 n).toInt > 0 := by
    have hnat : (BitVec.ofNat 32 n).toNat = n := by
      rw [BitVec.toNat_ofNat]
      omega
    rw [BitVec.toInt_eq_toNat_of_lt (by omega), hnat]
    omega
  have hadd : Vm.addInt p.sz (.ofNat 32 n) = p.sz + n := by
    simp only [Vm.addInt, BitVec.toNat_ofNat, KERNBASE] at *
    omega
  have halloc : Ends Any (fun r => r.1 = 0 ∨ r.1 = p.sz + n ∧ p.sz + n < KERNBASE) (Vm.allocuvm K h s p.pgdir p.sz (p.sz + n)) := by
    unfold Vm.allocuvm
    split
    · exact Ends.pure (.inl rfl)
    · rename_i hk
      rw [if_neg (by omega)]
      exact (ends_allocLoop ..).imp fun r hr => hr.imp_right fun he => ⟨he, Nat.lt_of_not_le hk⟩
  unfold Vm.sys_sbrk Vm.growproc
  rw [if_pos hpos, hadd]
  cases ha : Vm.allocuvm K h s p.pgdir p.sz (p.sz + n) with
  | error e => trivial
  | ok r =>
    simp only [ok_bind]
    split
    · exact Or.inl ⟨rfl, rfl⟩
    · rename_i hz
      obtain ⟨he, hk⟩ := (halloc.of_ok ha).resolve_left hz
      exact Or.inr ⟨rfl, he, hk⟩

def Fits (x : Proc σ) : Prop := x.heap.brk ≤ x.task.sz ∧ x.task.sz ≤ KERNBASE

theorem free_brk {s s' : State} {ap : Nat} (hf : free s ap = some s') : s'.brk = s.brk := by
  obtain ⟨p, -, rfl⟩ := Option.map_eq_some_iff.mp hf
  rfl

/-- The run of a call is one of the model with answers of `sbrk` from outside. -/
def Refines (f : List (Option Nat) → Option (State × Nat)) (r : Option (Proc σ × Nat)) : Prop :=
  (∃ gaps, f gaps = r.map fun y => (y.1.heap, y.2)) ∧ ∀ y ∈ r, y.1.Fits

theorem ends_morecore (hx : x.Fits) (hn : 8 * n < 2 ^ 31) :
    Ends Any (Refines fun gaps => Umalloc.morecore x.heap n gaps.head?.join) (morecore K h x n) := by
  obtain ⟨nu, hnu⟩ : ∃ nu, nu = if n < 4096 then 4096 else n := ⟨_, rfl⟩
  have hlt : 0 < nu ∧ nu * 8 < 2 ^ 31 := by
    split at hnu <;> omega
  unfold morecore sbrk Refines Umalloc.morecore
  simp only [← hnu, Nat.mod_eq_of_lt (show nu * 8 < 2 ^ 32 by omega), bind_assoc]
  refine (ends_sys_sbrk x.kern x.task (by omega) hlt.2 hx.2).bind fun r hr => ?_
  obtain ⟨r, task, kern⟩ := r
  rcases hr with ⟨rfl, rfl⟩ | ⟨hr, htask, hk⟩
  · refine Ends.ret ⟨⟨[none], rfl⟩, ?_⟩
    rintro _ ⟨⟩
    exact hx
  · dsimp only at hr htask
    have hne : r ≠ -1 := by omega
    have hp : (r % 2 ^ 32).toNat = x.task.sz := by
      simp only [KERNBASE] at hk
      omega
    have hsz : x.task.sz ≠ 2 ^ 32 - 1 := by
      simp only [KERNBASE] at hk
      omega
    have hgap : x.heap.brk + (x.task.sz - x.heap.brk) = x.task.sz := Nat.add_sub_cancel' hx.1
    have hseg : task.sz - x.task.sz = nu * 8 := by omega
    simp only [pure_bind, hne, if_false, hp, hsz, hseg]
    refine Ends.ret ⟨⟨[some (x.task.sz - x.heap.brk)], ?_⟩, ?_⟩
    · simp [Umalloc.sbrk, hgap, if_pos hk.le, htask, Function.comp_def]
    · intro y hy
      obtain ⟨s, hs, rfl⟩ := Option.map_eq_some_iff.mp hy
      simp only [Fits, free_brk hs]
      omega

theorem take_brk (s : State) (n prevp p : Nat) : (take s n prevp p).1.brk = s.brk := by
  unfold take
  split <;> rfl

theorem ends_mallocLoop {k prevp p : Nat} (hx : x.Fits) (hn : 8 * n < 2 ^ 31) :
    Ends Any (Refines fun gaps => Umalloc.mallocLoop n k x.heap prevp p gaps) (mallocLoop K h n k x prevp p) := by
  induction k generalizing x prevp p with
  | zero => exact ⟨⟨[], rfl⟩, by rintro _ ⟨⟩⟩
  | succ k ih =>
    simp only [mallocLoop, Umalloc.mallocLoop]
    split
    · refine ⟨⟨[], rfl⟩, ?_⟩
      rintro _ ⟨⟩
      exact ⟨(take_brk ..).trans_le hx.1, hx.2⟩
    · split
      · refine (ends_morecore hx hn).bind ?_
        rintro r ⟨⟨gaps, hg⟩, hfit⟩
        dsimp only at hg
        cases r with
        | none => exact Ends.ret ⟨⟨gaps, by simp [hg]⟩, by rintro _ ⟨⟩⟩
        | some r =>
          obtain ⟨y, q⟩ := r
          dsimp only
          split
          · rename_i hq
            refine Ends.ret ⟨⟨gaps, by simp [hg, hq]⟩, ?_⟩
            rintro _ ⟨⟩
            exact hfit (y, q) rfl
          · rename_i hq
            refine (ih (hfit _ rfl)).imp ?_
            rintro r ⟨⟨gs, hgs⟩, hf⟩
            refine ⟨⟨gaps.head?.join :: gs, ?_⟩, hf⟩
            simpa [hg, hq] using hgs
      · exact ih hx

end Proc

/-! ## `malloc` -/

variable {σ : Type} {K : Vm.Kernel} {h : Vm.Hooks σ} {x : Proc σ} {base nbytes : Nat} {r : Option (Proc σ × Nat)}

theorem Inv.initBase {s : State} (hb : 0 < base) (hi : Inv base s) :
    ∃ c, Heap base (initBase base s) c ∧ (Umalloc.initBase base s).live = s.live ∧ (Umalloc.initBase base s).brk = s.brk ∧
      ∀ z ∈ s.live, (Umalloc.initBase base s).mem.size z.1 = s.mem.size z.1 := by
  rcases hi with hf | ⟨c, hh⟩
  · obtain ⟨hh, hl⟩ := hf.initBase
    refine ⟨[base], hh, hl.trans hf.live.symm, ?_, by simp [hf.live]⟩
    simp [Umalloc.initBase, hf.freep]
  · rw [Umalloc.initBase, if_neg (hh.freep_pos hb)]
    exact ⟨c, hh, rfl, rfl, fun z _ => rfl⟩

/-- `malloc` has returned 0, or a block inside the process that overlaps no live one. -/
def Delivers (base nbytes : Nat) (x : Proc σ) (r : Option (Proc σ × Nat)) : Prop :=
  ∃ y ap, r = some (y, ap) ∧ (ap = 0 ∨ base + 8 ≤ ap ∧ ap + nbytes ≤ y.task.sz ∧
    ∀ z ∈ x.heap.live, z.1 + 8 * x.heap.mem.size z.1 ≤ ap ∨ ap + nbytes ≤ z.1)

theorem delivers_malloc (hb : 0 < base) (hi : Inv base x.heap) (hx : x.Fits) (hn : 8 * ((nbytes + 8 - 1) / 8 + 1) < 2 ^ 31)
    (hr : x.malloc K h base nbytes = .ok r) : Delivers base nbytes x r := by
  obtain ⟨c, hh, hlive, hbrk, hsize⟩ := hi.initBase hb
  rw [Proc.malloc, nunits_eq hn] at hr
  obtain ⟨⟨gaps, hg⟩, hfit⟩ :=
    (Proc.ends_mallocLoop (x := { x with heap := initBase base x.heap }) ⟨hbrk.trans_le hx.1, hx.2⟩ hn).of_ok hr
  dsimp only at hg
  rcases hh.malloc hb (Nat.succ_pos _) hn (show nbytes + 8 ≤ _ by omega) gaps with he | ⟨s', q, c', he, -, hh', hsame⟩
  · obtain ⟨y, rfl, hy⟩ := Option.map_eq_some_iff.mp (hg.symm.trans he)
    exact ⟨y.1, y.2, rfl, .inl (Prod.mk.inj hy).2⟩
  · obtain ⟨y, rfl, hy⟩ := Option.map_eq_some_iff.mp (hg.symm.trans he)
    obtain ⟨hheap, hap⟩ := Prod.mk.inj hy
    refine ⟨y.1, y.2, rfl, .inr ?_⟩
    have hq : q ∈ c' ++ ((q, nbytes) :: (initBase base x.heap).live).map Prod.fst := by simp
    have hqb : q ≠ base := by
      rintro rfl
      exact hh'.blocks.base_live (by simp)
    have hroom := hh'.payload (q, nbytes) (by simp)
    have hbound := hh'.blocks.bounds hq hqb
    have hsz := (hfit y rfl).1
    rw [hheap] at hsz
    dsimp only at hroom hbound
    refine ⟨by omega, by omega, fun z hz => ?_⟩
    have hzl : z ∈ (initBase base x.heap).live := hlive ▸ hz
    have hzm : z.1 ∈ (initBase base x.heap).live.map Prod.fst := List.mem_map_of_mem hzl
    have hz' : z.1 ∈ c' ++ ((q, nbytes) :: (initBase base x.heap).live).map Prod.fst := by simp [hzm]
    have hne : q ≠ z.1 := fun he => hh'.blocks.notMem (List.mem_append_right _ (he ▸ hzm))
    have hzb : z.1 ≠ base := fun he => hh.blocks.base_live (he ▸ hzm)
    have happ := hh'.blocks.apart hq hz' hqb hzb hne
    have hsz' := (hsame z.1 hzm).size (hh.pos hzl)
    rw [hsize z hz] at hsz'
    dsimp only at happ
    omega

/-! ## Large requests -/

def noFrames : Vm.Hooks Unit := ⟨fun s => .ok (0, s), fun s _ _ _ => .ok s, fun s _ _ => .ok s⟩

def anyKernel : Vm.Kernel := ⟨Vm.KERNLINK + Vm.PGSIZE, Vm.KERNLINK + Vm.PGSIZE, by decide, by decide, by decide, le_rfl⟩

def tenPages (s : State) : Proc Unit := ⟨s, ⟨0, 40960⟩, ⟨fun _ => Bytes.fill _ 0, 0, 0, ()⟩⟩

theorem malloc_first {s : State} (hf : s.freep ≠ 0) (hk : s.brk = 40960) (hn : nunits nbytes ≤ s.mem.size (s.mem.ptr s.freep)) :
    (tenPages s).malloc anyKernel noFrames base nbytes = .ok (some
      (tenPages (take s (nunits nbytes) s.freep (s.mem.ptr s.freep)).1, (take s (nunits nbytes) s.freep (s.mem.ptr s.freep)).2)) := by
  obtain ⟨k, hk⟩ : ∃ k, s.brk = k + 1 := ⟨40959, hk⟩
  simp [Proc.malloc, initBase, tenPages, if_neg hf, hk, Proc.mallocLoop, if_pos hn]

theorem exists_heap : ∃ s, Inv 4096 s ∧ s.brk = 40960 ∧ s.freep ≠ 0 ∧
    (∀ n ∈ [1, 4], n ≤ s.mem.size (s.mem.ptr s.freep) ∧ (take s n s.freep (s.mem.ptr s.freep)).2 ≠ 0) ∧
    (take s 1 s.freep (s.mem.ptr s.freep)).1.mem.size ((take s 1 s.freep (s.mem.ptr s.freep)).2 - 8) = 1 := by
  obtain ⟨s, hs, hp⟩ := Reach.of_runs [.malloc 100 [some 0]]
    (fun s => s.brk = 40960 ∧ s.freep ≠ 0 ∧
      (∀ n ∈ ([1, 4] : List Nat), n ≤ s.mem.size (s.mem.ptr s.freep) ∧ (take s n s.freep (s.mem.ptr s.freep)).2 ≠ 0) ∧
      (take s 1 s.freep (s.mem.ptr s.freep)).1.mem.size ((take s 1 s.freep (s.mem.ptr s.freep)).2 - 8) = 1)
    (Reach.init rfl : Reach (· = start (Bytes.fill _ 0) 8192) (step 4096) (Fair 4096) _) (by decide +kernel)
  exact ⟨s, Inv.reach (by decide) (by decide) (by decide) hs, hp⟩

theorem tenPages_fits {s : State} (hk : s.brk = 40960) : (tenPages s).Fits := ⟨hk.le, show 40960 ≤ KERNBASE by decide⟩

/-- `sbrk` in a process of 2052 bytes, for an argument that is 0 or negative as an `int`: no page is freed. -/
theorem sys_sbrk_past (s : Vm.State σ) (pgdir : Nat) {n : BitVec 32} (hn : n.toInt ≤ 0) (h8 : n.toNat % 8 = 0) :
    ∃ sz, 0 < sz ∧ sz ≤ 2052 ∧ Vm.sys_sbrk K h s ⟨pgdir, 2052⟩ n = .ok (2052, ⟨pgdir, sz⟩, { s with cr3 := Vm.V2P pgdir }) := by
  have hpos : ¬ n.toInt > 0 := not_lt.mpr hn
  unfold Vm.sys_sbrk Vm.growproc
  rw [if_neg hpos]
  by_cases hneg : n.toInt < 0
  · have hlt := n.isLt
    have hdealloc : ∃ sz, 0 < sz ∧ sz ≤ 2052 ∧ Vm.deallocuvm K h s pgdir 2052 (Vm.addInt 2052 n) = .ok (sz, s) := by
      unfold Vm.deallocuvm
      split
      · exact ⟨2052, by decide, le_rfl, rfl⟩
      · rename_i hshrink
        have hup : ¬ Vm.PGROUNDUP (Vm.addInt 2052 n) < 2052 := by
          simp only [Vm.PGROUNDUP, Vm.addInt, Vm.PGSIZE] at hshrink ⊢
          omega
        refine ⟨Vm.addInt 2052 n, ?_, by omega, ?_⟩
        · simp only [Vm.addInt]
          omega
        · rw [Vm.deallocLoop, if_neg hup]
          rfl
    obtain ⟨sz, hsz, hle, hd⟩ := hdealloc
    refine ⟨sz, hsz, hle, ?_⟩
    rw [if_pos hneg, hd]
    simp only [ok_bind, if_neg hsz.ne']
    rfl
  · rw [if_neg hneg]
    exact ⟨2052, by decide, le_rfl, rfl⟩

def onePage (m : Mem) : Proc Unit := ⟨start m 2052, ⟨0, 2052⟩, ⟨fun _ => Bytes.fill _ 0, 0, 0, ()⟩⟩

theorem heads_past : Heads [1024, 2052] := by unfold Heads; decide

theorem free_past {nu : Nat} (hlo : 2 ^ 28 ≤ nu) (hhi : nu ≤ 2 ^ 29) (s : State) (hs : s.freep = 1024) (hb : 0 < s.brk)
    (hp : s.mem.ptr 1024 = 1024) (hz : s.mem.size 1024 = 0) :
    ∃ s', free { s with mem := s.mem.setSize 2052 nu } 2060 = some s' ∧ s'.freep = 1024 ∧
      s'.mem.ptr 1024 = 2052 ∧ s'.mem.size 2052 = nu := by
  have hH := heads_past
  have h1 : 1024 ∈ [1024, 2052] := by decide
  have h2 : 2052 ∈ [1024, 2052] := by decide
  obtain ⟨k, hk⟩ : ∃ k, s.brk = k + 1 := ⟨s.brk - 1, by omega⟩
  generalize hm : s.mem.setSize 2052 nu = m
  have hptr : m.ptr 1024 = 1024 := by rw [← hm, hH.ptr_setSize h2 h1, hp]
  have hsize1 : m.size 1024 = 0 := by
    rw [← hm, hH.size_setSize h2 (by omega) h1, Function.update_of_ne (by decide), hz]
  have hsize2 : m.size 2052 = nu := by rw [← hm, hH.size_setSize h2 (by omega) h2, Function.update_self]
  have hplace : findPlace m 2052 s.brk s.freep = some 1024 := by
    rw [hk, hs, findPlace, hptr]
    rfl
  have hnext : joinNext m 1024 2052 = m.setPtr 2052 1024 := by
    rw [joinNext, hsize2, hptr, if_neg]
    simp only [plus]
    omega
  have hprev : joinPrev (m.setPtr 2052 1024) 1024 2052 = (m.setPtr 2052 1024).setPtr 1024 2052 := by
    rw [joinPrev, hH.size_setPtr h2 h1, hsize1]
    rfl
  refine ⟨{ s with mem := (m.setPtr 2052 1024).setPtr 1024 2052, freep := 1024 }, ?_, rfl, ?_, ?_⟩
  · simp [free, hplace, hnext, hprev]
  · rw [hH.ptr_setPtr h1 (by decide) h1, Function.update_self]
  · rw [hH.size_setPtr h1 h2, hH.size_setPtr h2 h2, hsize2]

theorem morecore_past {nu pgdir : Nat} (hlo : 2 ^ 28 ≤ nu) (hhi : nu ≤ 2 ^ 29) (ht : x.task = ⟨pgdir, 2052⟩)
    (hf : x.heap.freep = 1024) (hp : x.heap.mem.ptr 1024 = 1024) (hz : x.heap.mem.size 1024 = 0) :
    ∃ y, x.morecore K h nu = .ok (some (y, 1024)) ∧ y.task.sz ≤ 2052 ∧ y.heap.mem.ptr 1024 = 2052 ∧ y.heap.mem.size 2052 = nu := by
  have hn : (BitVec.ofNat 32 (nu * 8 % 2 ^ 32)).toNat = nu * 8 % 2 ^ 32 := by
    rw [BitVec.toNat_ofNat, Nat.mod_mod]
  obtain ⟨sz, hsz, hle, hs⟩ := sys_sbrk_past (K := K) (h := h) x.kern pgdir (n := .ofNat 32 (nu * 8 % 2 ^ 32))
    (by rw [BitVec.toInt_eq_toNat_cond, hn]; split <;> omega) (by rw [hn]; omega)
  obtain ⟨s', hfree, hfreep, hptr, hsize⟩ := free_past hlo hhi
    { x.heap with brk := sz, segs := (2052, sz - 2052) :: x.heap.segs } hf hsz hp hz
  refine ⟨⟨s', ⟨pgdir, sz⟩, { x.kern with cr3 := Vm.V2P pgdir }⟩, ?_, hle, hptr, hsize⟩
  have hsbrk : x.sbrk K h (nu * 8 % 2 ^ 32) = .ok (⟨{ x.heap with brk := sz, segs := (2052, sz - 2052) :: x.heap.segs },
      ⟨pgdir, sz⟩, { x.kern with cr3 := Vm.V2P pgdir }⟩, 2052) := by
    unfold Proc.sbrk
    rw [ht, hs]
    rfl
  unfold Proc.morecore
  rw [if_neg (show ¬ nu < 4096 by omega)]
  dsimp only
  rw [hsbrk, ok_bind]
  dsimp only
  rw [if_neg (by decide), show plus 2052 1 = 2060 from rfl, hfree]
  simp only [Option.map_some, hfreep]
  rfl

/-- A request of more than `2^31 - 16` bytes: the header is stored at the old end of the process. -/
theorem malloc_past (m : Mem) (hlo : 2 ^ 31 - 16 < nbytes) (hhi : nbytes ≤ 2 ^ 32 - 8) :
    ∃ y, (onePage m).malloc K noFrames 1024 nbytes = .ok (some (y, 2060)) ∧ y.task.sz ≤ 2052 := by
  have hnu : 2 ^ 28 ≤ nunits nbytes ∧ nunits nbytes ≤ 2 ^ 29 := by
    rw [nunits]
    omega
  have hfresh : Fresh 1024 (start m 2052) := ⟨rfl, rfl, rfl, show 1024 + 8 ≤ 2052 by decide, show 2052 ≤ KERNBASE by decide⟩
  have hinit := hfresh.initBase.1
  have hptr : (initBase 1024 (start m 2052)).mem.ptr 1024 = 1024 := hinit.blocks.circle.next_of_eq (c := []) rfl
  have hsize : (initBase 1024 (start m 2052)).mem.size 1024 = 0 := hinit.blocks.size_base
  have hfreep : (initBase 1024 (start m 2052)).freep = 1024 := rfl
  obtain ⟨y, hy, hsz, hyp, hyz⟩ := morecore_past (K := K) (h := noFrames) (x := { onePage m with heap := initBase 1024 (start m 2052) })
    hnu.1 hnu.2 rfl hfreep hptr hsize
  refine ⟨{ y with heap := (take y.heap (nunits nbytes) 1024 2052).1 }, ?_, hsz⟩
  have hlt : ¬ 0 ≥ nunits nbytes := by omega
  have hbrk : (initBase 1024 (start m 2052)).brk = 2050 + 2 := rfl
  unfold Proc.malloc
  rw [show (onePage m).heap = start m 2052 from rfl]
  dsimp only
  rw [hbrk, hfreep, hptr, Proc.mallocLoop, if_neg (by rw [hsize]; exact hlt), if_pos hfreep.symm, hy]
  simp only [ok_bind]
  rw [if_neg (by decide), hyp, Proc.mallocLoop, if_pos hyz.ge]
  simp [take, hyz, plus]

theorem nunits_wraps (hlo : 2 ^ 32 - 8 < nbytes) (hhi : nbytes < 2 ^ 32) : nunits nbytes = 1 := by
  rw [nunits]
  omega

/-- `malloc` keeps its promise in every process exactly for the sizes that an `int` can hold in bytes, header included. -/
theorem malloc_exact (hlt : nbytes < 2 ^ 32) :
    (∀ (σ : Type) (K : Vm.Kernel) (h : Vm.Hooks σ) (base : Nat) (x : Proc σ) (r : Option (Proc σ × Nat)),
        0 < base → Inv base x.heap → x.Fits → x.malloc K h base nbytes = .ok r → Delivers base nbytes x r) ↔
      nbytes ≤ 2 ^ 31 - 16 := by
  refine ⟨fun hall => ?_, fun hn σ K h base x r hb hi hx hr => delivers_malloc hb hi hx (by omega) hr⟩
  by_contra hn
  by_cases hwrap : nbytes ≤ 2 ^ 32 - 8
  · -- the units do not fit into an `int` of bytes
    obtain ⟨y, hy, hsz⟩ := malloc_past (K := anyKernel) (Bytes.fill _ 0) (by omega) hwrap
    have hfresh : Fresh 1024 (start (Bytes.fill _ 0) 2052) :=
      ⟨rfl, rfl, rfl, show 1024 + 8 ≤ 2052 by decide, show 2052 ≤ KERNBASE by decide⟩
    obtain ⟨_, _, ⟨⟩, hz | ⟨-, hin, -⟩⟩ := hall Unit anyKernel noFrames 1024 (onePage (Bytes.fill _ 0)) _ (by decide) (.inl hfresh)
      ⟨le_rfl, show 2052 ≤ KERNBASE by decide⟩ hy
    · exact absurd hz (by decide)
    · omega
  · -- the number of units wraps
    obtain ⟨s, hi, hbrk, hf, hfit, -⟩ := exists_heap
    obtain ⟨hone, hz⟩ := hfit 1 (by simp)
    rw [← nunits_wraps (not_le.mp hwrap) hlt] at hone hz
    obtain ⟨_, _, ⟨⟩, hz' | ⟨-, hin, -⟩⟩ := hall Unit anyKernel noFrames 4096 (tenPages s) _ (by decide) hi (tenPages_fits hbrk)
      (malloc_first hf hbrk hone)
    · exact hz hz'
    · simp only [tenPages] at hin
      omega

theorem malloc_exact_small : ∃ s y ap, (tenPages s).malloc anyKernel noFrames 4096 20 = .ok (some (y, ap)) ∧
    ap ≠ 0 ∧ ap + 20 ≤ y.task.sz := by
  obtain ⟨s, hi, hbrk, hf, hfit, -⟩ := exists_heap
  obtain ⟨hn, hz⟩ := hfit 4 (by simp)
  have hr : (tenPages s).malloc anyKernel noFrames 4096 20 = _ := malloc_first hf hbrk hn
  obtain ⟨y, ap, hy, hex⟩ := (malloc_exact (by decide)).mpr (by decide) _ _ _ _ _ _ (by decide) hi (tenPages_fits hbrk) hr
  cases hy
  exact ⟨s, _, _, hr, hz, (hex.resolve_left hz).2.1⟩

/-- `malloc(2^32 - 1)` returns a block of one unit, which has no room for a byte. -/
theorem malloc_wraps : ∃ s y ap, Inv 4096 s ∧ (tenPages s).Fits ∧
    (tenPages s).malloc anyKernel noFrames 4096 (2 ^ 32 - 1) = .ok (some (y, ap)) ∧
    ap ≠ 0 ∧ y.heap.mem.size (ap - 8) = 1 ∧ ¬ (ap + (2 ^ 32 - 1) ≤ y.task.sz) := by
  obtain ⟨s, hi, hbrk, hf, hfit, hone⟩ := exists_heap
  obtain ⟨hn, hz⟩ := hfit 1 (by simp)
  refine ⟨s, _, _, hi, tenPages_fits hbrk, malloc_first hf hbrk hn, hz, hone, ?_⟩
  simp only [tenPages]
  omega

end Xv6.Umalloc
