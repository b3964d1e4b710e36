import Xv6.Log.Lemmas.Recovery
import Xv6.Log.Lemmas.Step

/-!
# The crash invariant of the log

In each state of `commit()` replay of the disk gives the contents after a whole number of transactions.
-/

namespace Xv6.Log

open Xv6.Lib Function List Cache

/-! ## Buffers that operations use -/

def Using (ops : List (Nat × Op)) (b : Nat) : Prop := ∃ q ∈ ops, b ∈ q.2.pend ∨ q.2.tested = some b

theorem inUse_iff {s : State} {b : Nat} : s.inUse b = true ↔ Using s.ops b := by
  simp [State.inUse, Using]

variable {q : Nat × Op} {l1 l2 : List (Nat × Op)} {disk : Nat → Block} {size start p t : Nat} {lh : List Nat} {o : Op}

theorem Using.cons {ops : List (Nat × Op)} {b : Nat} : Using (q :: ops) b ↔ (b ∈ q.2.pend ∨ q.2.tested = some b) ∨ Using ops b := by
  simp [Using]

theorem Using.split {b : Nat} : Using (l1 ++ q :: l2) b ↔ (b ∈ q.2.pend ∨ q.2.tested = some b) ∨ Using (l1 ++ l2) b := by
  simp only [Using, mem_append, mem_cons]
  constructor
  · rintro ⟨x, hx | rfl | hx, h⟩
    · exact .inr ⟨x, .inl hx, h⟩
    · exact .inl h
    · exact .inr ⟨x, .inr hx, h⟩
  · rintro (h | ⟨x, hx | hx, h⟩)
    · exact ⟨q, .inr (.inl rfl), h⟩
    · exact ⟨x, .inl hx, h⟩
    · exact ⟨x, .inr (.inr hx), h⟩

/-! ## The buffer cache against the disk -/

/-- Blocks in use have a buffer, the blocks `hot` are pinned, and any other block is current on disk. -/
structure CacheInv (c : Cache) (hot : List Nat) (ops : List (Nat × Op)) : Prop where
  used : ∀ b, Using ops b → c.Cached b
  pinned : ∀ b ∈ hot, c.Dirty b
  clean : ∀ b, b ∉ hot → ¬ Using ops b → c.view b = c.disk b

variable {c : Cache} {hot hot' : List Nat} {ops ops' : List (Nat × Op)} {b : Nat} {v : Block}

section

variable (h : CacheInv c hot ops)
include h

theorem CacheInv.bread : CacheInv (c.bread b) hot ops :=
  ⟨fun x hx => (h.used x hx).bread, fun x hx => (h.pinned x hx).bread, fun x hx hu => by
    rw [view_bread, disk_bread]; exact h.clean x hx hu⟩

theorem CacheInv.ops_change (hused : ∀ b, Using ops' b → c.Cached b)
    (hkeep : ∀ b, b ∉ hot → Using ops b → Using ops' b) : CacheInv c hot ops' :=
  ⟨hused, h.pinned, fun b hb hu => h.clean b hb (fun hu' => hu (hkeep b hb hu'))⟩

theorem CacheInv.modify (hused : ∀ x, Using ops' x ↔ Using ops x ∨ x = b) :
    CacheInv ((c.bread b).modify b v) hot ops' := by
  refine ⟨fun x hx => ?_, fun x hx => (h.pinned x hx).bread.modify, fun x hx hu => ?_⟩
  · rcases (hused x).mp hx with hx | rfl
    · exact (h.used x hx).bread.modify
    · exact cached_bread.modify
  · have hne : x ≠ b := fun e => hu ((hused x).mpr (.inr e))
    rw [view_modify_ne hne, view_bread, disk_modify, disk_bread]
    exact h.clean x hx (fun hx' => hu ((hused x).mpr (.inl hx')))

theorem CacheInv.put (hsub : ∀ x ∈ hot', x ∈ hot ∧ x ≠ b)
    (hcov : ∀ x ∈ hot, x ∈ hot' ∨ x = b) : CacheInv (c.put b v) hot' ops := by
  refine ⟨fun x hx => ?_, fun x hx => ?_, fun x hx hu => ?_⟩
  · exact (h.used x hx).bread.modify.bwrite
  · exact (h.pinned x (hsub x hx).1).put (hsub x hx).2
  · rw [disk_put]
    by_cases he : x = b
    · subst he; rw [view_put_self, update_self]
    · rw [view_put_ne he, update_of_ne he]
      exact h.clean x (fun hx' => (hcov x hx').elim hx he) hu

theorem CacheInv.evict {x : Buf} (hx : c.buf b = some x) (hd : x.dirty = false)
    (hu : ¬ Using ops b) : CacheInv (c.evict b) hot ops ∧ ∀ y, (c.evict b).view y = c.view y := by
  have hcold : b ∉ hot := by
    intro hb
    obtain ⟨y, hy, hyd⟩ := h.pinned b hb
    rw [hx] at hy; cases hy
    rw [hd] at hyd; cases hyd
  have hview : ∀ y, (c.evict b).view y = c.view y := by
    intro y
    by_cases he : y = b
    · subst he; rw [view_evict_self, h.clean y hcold hu]
    · exact view_evict_ne he
  refine ⟨⟨fun y hy => ?_, fun y hy => ?_, fun y hy hu' => ?_⟩, hview⟩
  · exact (h.used y hy).evict (fun e => hu (e ▸ hy))
  · exact (h.pinned y hy).evict (fun e => hcold (e ▸ hy))
  · rw [hview, disk_evict]; exact h.clean y hy hu'

end

/-! ## The invariant -/

/-- The log area is where the superblock of the first disk puts it, and that superblock is still there. -/
structure Geometry (d0 : Nat → Block) (start size : Nat) (disk : Nat → Block) : Prop where
  startEq : start = logstart d0
  sizeEq : size = nlog d0
  sizeLe : size ≤ LOGSIZE
  area : 2 ≤ start
  superblock : disk 1 = d0 1

theorem Geometry.of_disk {d0 disk' : Nat → Block} (h : Geometry d0 start size disk)
    (hd : disk' 1 = disk 1) : Geometry d0 start size disk' :=
  { h with superblock := hd.trans h.superblock }

theorem Geometry.put {d0 : Nat → Block} (h : Geometry d0 start size c.disk) (hb : b ≠ 1) : Geometry d0 start size (c.put b v).disk :=
  h.of_disk (by rw [disk_put, update_of_ne hb.symm])

theorem Geometry.logstart_eq {d0 : Nat → Block} (h : Geometry d0 start size disk) :
    logstart disk = start := by rw [logstart, h.superblock, h.startEq, logstart]

theorem Geometry.nlog_eq {d0 : Nat → Block} (h : Geometry d0 start size disk) :
    nlog disk = size := by rw [nlog, h.superblock, h.sizeEq, nlog]

theorem Geometry.header_eq {d0 : Nat → Block} (h : Geometry d0 start size disk) :
    header disk = decodeHead (disk start) := by rw [header, h.logstart_eq]

theorem Geometry.headOk {d0 : Nat → Block} (h : Geometry d0 start size disk) (hl : decodeHead (disk start) = lh) (hn : lh.Nodup)
    (hf : lh.length < size) (hh : ∀ b ∈ lh, Home start size b) : HeadOk disk := by
  have he := h.header_eq.trans hl
  refine ⟨?_, ?_, ?_, ?_⟩
  · rw [he]; exact hn
  · rw [he, h.nlog_eq]; exact hf
  · rw [he, h.logstart_eq, h.nlog_eq]; exact hh
  · rw [h.logstart_eq]; exact h.area

def unflushed (s : State) : List Nat :=
  match s.pc with
  | some (.install t) => s.lh.drop t
  | _ => s.lh

/-- The first `t` logged blocks have been copied to the log. -/
def Logged (s : State) (t : Nat) : Prop :=
  ∀ i (hi : i < s.lh.length), i < t → s.cache.disk (s.start + i + 1) = s.cache.view s.lh[i]

/-- The log on disk is empty, and the home blocks are those after the transactions whose commit has returned. -/
def Old (d0 : Nat → Block) (s : State) : Prop :=
  decodeHead (s.cache.disk s.start) = [] ∧
  ∀ b, Home s.start s.size b → s.cache.disk b = applyTxns (s.txns.take s.returned) d0 b

/-- The log on disk holds the current contents of the blocks that its header lists. -/
def Journal (s : State) : Prop :=
  HeadOk s.cache.disk ∧
  ∀ i (hi : i < (header s.cache.disk).length),
    s.cache.disk (s.start + i + 1) = s.cache.view (header s.cache.disk)[i]

def Phase (d0 : Nat → Block) (s : State) : Prop :=
  match s.pc with
  | none | some .returned => s.returned = s.txns.length ∧ Old d0 s
  | some (.writeLog t) => s.returned + 1 = s.txns.length ∧ Old d0 s ∧ Logged s t
  | some .writeHead => s.returned + 1 = s.txns.length ∧ Old d0 s ∧ Logged s s.lh.length
  | some (.install _) => s.returned + 1 = s.txns.length ∧ decodeHead (s.cache.disk s.start) = s.lh ∧
      Logged s s.lh.length
  | some .clearHead => s.returned + 1 = s.txns.length ∧ Journal s

structure CrashInv (d0 : Nat → Block) (s : State) : Prop where
  geometry : Geometry d0 s.start s.size s.cache.disk
  lhFits : s.lh.length < s.size
  lhHome : ∀ b ∈ s.lh, Home s.start s.size b
  useHome : ∀ b, Using s.ops b → Home s.start s.size b
  cache : CacheInv s.cache (unflushed s) s.ops
  view : ∀ b, Home s.start s.size b → s.cache.view b = applyTxns (s.txns ++ [s.cur]) d0 b
  phase : Phase d0 s

/-- What the callers of the log promise: they modify and log home blocks only, and the blocks logged between two
commits fit into the log area. -/
def FitsLog (s : State) : Act → Prop
  | .modify _ b _ => Home s.start s.size b
  | .logTest _ b => Home s.start s.size b
  | .logAppend p => ((s.op p).bind Op.tested).all fun b => (absorb s.lh b).length ≤ s.size - 1
  | _ => True

instance (s : State) (a : Act) : Decidable (FitsLog s a) := by
  cases a <;> unfold FitsLog <;> infer_instance

theorem crashInv_boot {d0 : Nat → Block} (hs : 0 < nlog d0) (hle : nlog d0 ≤ LOGSIZE) (ha : 2 ≤ logstart d0)
    (hd : header d0 = []) : CrashInv d0 (.boot d0) where
  geometry := ⟨rfl, rfl, hle, ha, rfl⟩
  lhFits := hs
  lhHome := by simp [State.boot]
  useHome := by simp [State.boot, Using]
  cache := ⟨by simp [State.boot, Using], by simp [State.boot, unflushed], fun _ _ _ => rfl⟩
  view := fun _ _ => rfl
  phase := ⟨rfl, hd, fun _ _ => rfl⟩

variable {d0 : Nat → Block} {s s' : State} {a : Act}

/-! ## Operations -/

section

variable (h : CrashInv d0 s)
include h

theorem CrashInv.lhFits_pos : 0 < s.size := by have := h.lhFits; omega

theorem CrashInv.idle (hpc : s.pc = none) :
    CacheInv s.cache s.lh s.ops ∧ s.returned = s.txns.length ∧ Old d0 s := by
  have hc := h.cache
  have hph := h.phase
  simp only [unflushed, Phase, hpc] at hc hph
  exact ⟨hc, hph⟩

section

variable (hl : s.ops = l1 ++ (p, o) :: l2) (hpc : s.pc = none)
include hl hpc

theorem CrashInv.modify
    (ht : o.tested = none) (hb : Home s.start s.size b) :
    CrashInv d0 { s with
      ops := l1 ++ (p, { o with pend := b :: o.pend }) :: l2
      cache := (s.cache.bread b).modify b v, cur := s.cur ++ [(b, v)] } := by
  have hused : ∀ x, Using (l1 ++ (p, { o with pend := b :: o.pend }) :: l2) x ↔ Using s.ops x ∨ x = b := by
    intro x
    rw [hl, Using.split, Using.split]
    simp only [mem_cons, ht]
    tauto
  obtain ⟨hc, hph⟩ := h.idle hpc
  refine ⟨h.geometry.of_disk (by simp), h.lhFits, h.lhHome, fun x hx => ?_, ?_, fun x hx => ?_, ?_⟩
  · rcases (hused x).mp hx with hx | rfl
    · exact h.useHome x hx
    · exact hb
  · simp only [unflushed, hpc]
    exact hc.modify hused
  · simp only [applyTxns_snoc, applyTxn_snoc]
    by_cases he : x = b
    · subst he; rw [view_modify_self cached_bread, update_self]
    · rw [view_modify_ne he, view_bread, update_of_ne he, h.view x hx, applyTxns_snoc]
  · simp only [Phase, hpc, Old, disk_modify, disk_bread]
    exact hph

theorem CrashInv.logTest
    (ht : o.tested = none) (hb : Home s.start s.size b) :
    CrashInv d0 { s with ops := l1 ++ (p, { o with tested := some b }) :: l2, cache := s.cache.bread b } := by
  have hused : ∀ x, Using (l1 ++ (p, { o with tested := some b }) :: l2) x ↔ Using s.ops x ∨ x = b := by
    intro x
    rw [hl, Using.split, Using.split]
    simp only [ht, Option.some.injEq, reduceCtorEq, eq_comm (a := b)]
    tauto
  obtain ⟨hc, hph⟩ := h.idle hpc
  refine ⟨h.geometry.of_disk (by simp), h.lhFits, h.lhHome, fun x hx => ?_, ?_, fun x hx => ?_, ?_⟩
  · rcases (hused x).mp hx with hx | rfl
    · exact h.useHome x hx
    · exact hb
  · simp only [unflushed, hpc]
    refine (hc.bread (b := b)).ops_change (fun x hx => ?_) (fun x _ hx => (hused x).mpr (.inl hx))
    rcases (hused x).mp hx with hx | rfl
    · exact (hc.used x hx).bread
    · exact cached_bread
  · rw [view_bread]; exact h.view x hx
  · simp only [Phase, hpc, Old, disk_bread]
    exact hph

theorem CrashInv.logAppend (ht : o.tested = some b)
    (hfits : (absorb s.lh b).length ≤ s.size - 1) :
    CrashInv d0 { s with
      ops := l1 ++ (p, { pend := o.pend.filter (· ≠ b), tested := none, wrote := absorb o.wrote b }) :: l2
      cache := s.cache.setDirty b, lh := absorb s.lh b } := by
  have hpos := h.lhFits_pos
  obtain ⟨hc, hph⟩ := h.idle hpc
  have hub : Using s.ops b := by rw [hl, Using.split]; exact .inl (.inr ht)
  have hsub : ∀ x, Using (l1 ++ (p, { pend := o.pend.filter (· ≠ b), tested := none, wrote := absorb o.wrote b }) :: l2) x →
      Using s.ops x := by
    intro x
    rw [hl, Using.split, Using.split]
    simp only [mem_filter, reduceCtorEq, or_false]
    tauto
  have hkeep : ∀ x, x ≠ b → Using s.ops x →
      Using (l1 ++ (p, { pend := o.pend.filter (· ≠ b), tested := none, wrote := absorb o.wrote b }) :: l2) x := by
    intro x hx
    rw [hl, Using.split, Using.split]
    simp only [mem_filter, ht, Option.some.injEq, decide_eq_true_eq]
    rintro ((hp | rfl) | hu)
    · exact .inl (.inl ⟨hp, hx⟩)
    · exact absurd rfl hx
    · exact .inr hu
  refine ⟨h.geometry, by simp only; omega, fun x hx => ?_, fun x hx => h.useHome x (hsub x hx), ?_, fun x hx => ?_, ?_⟩
  · rcases mem_absorb.mp hx with hx | rfl
    · exact h.lhHome x hx
    · exact h.useHome x hub
  · simp only [unflushed, hpc]
    refine ⟨fun x hx => (hc.used x (hsub x hx)).setDirty, fun x hx => ?_, fun x hx hu => ?_⟩
    · rcases mem_absorb.mp hx with hx | rfl
      · exact (hc.pinned x hx).setDirty
      · exact (hc.used x hub).setDirty_self
    · rw [mem_absorb, not_or] at hx
      rw [view_setDirty, disk_setDirty]
      exact hc.clean x hx.1 (fun hu' => hu (hkeep x hx.2 hu'))
  · rw [view_setDirty]; exact h.view x hx
  · simp only [Phase, hpc, Old, disk_setDirty]
    exact hph

end

end

theorem Using.drop_op (hp : o.pend = []) (ht : o.tested = none) (x : Nat) : Using (l1 ++ (p, o) :: l2) x ↔ Using (l1 ++ l2) x := by
  rw [Using.split, hp, ht]; simp

section

variable (h : CrashInv d0 s)
include h

theorem CrashInv.endOp (hl : s.ops = l1 ++ (p, o) :: l2) (hp : o.pend = []) (ht : o.tested = none) :
    CrashInv d0 { s with outstanding := s.outstanding - 1, ops := l1 ++ l2 } := by
  have hu : ∀ x, Using s.ops x ↔ Using (l1 ++ l2) x := fun x => by rw [hl]; exact Using.drop_op hp ht x
  refine { h with useHome := fun x hx => h.useHome x ((hu x).mpr hx), cache := ?_ }
  exact h.cache.ops_change (fun x hx => h.cache.used x ((hu x).mpr hx)) (fun x _ hx => (hu x).mp hx)

section

variable (hl : s.ops = [(p, o)]) (hpc : s.pc = none) (hp : o.pend = []) (ht : o.tested = none)
include hl hpc hp ht

theorem CrashInv.last : CacheInv s.cache s.lh [] := by
  have hu : ∀ x, ¬ Using s.ops x := by simp [hl, Using, hp, ht]
  exact (h.idle hpc).1.ops_change (by simp [Using]) (fun x _ hx => absurd hx (hu x))

theorem CrashInv.endLast :
    CrashInv d0 { s with
      outstanding := 0, ops := [], committing := true, txns := s.txns ++ [s.cur], cur := []
      pc := some (.writeLog 0) } := by
  obtain ⟨-, hret, hhead, hold⟩ := h.idle hpc
  refine { h with useHome := by simp [Using], cache := h.last hl hpc hp ht, view := fun x hx => ?_, phase := ?_ }
  · simp only [applyTxns_snoc_nil]; exact h.view x hx
  · refine ⟨by simp [hret], ⟨hhead, fun x hx => ?_⟩, fun i _ hi => absurd hi (by omega)⟩
    simp only [hret, take_left]
    rw [hold x hx, hret, take_length]

theorem CrashInv.endEmpty
    (he : s.lh = []) :
    CrashInv d0 { s with
      outstanding := 0, ops := [], committing := true, txns := s.txns ++ [s.cur], cur := []
      pc := some .returned, returned := s.returned + 1 } := by
  have hc := h.last hl hpc hp ht
  obtain ⟨-, hret, hhead, hold⟩ := h.idle hpc
  refine { h with useHome := by simp [Using], cache := hc, view := fun x hx => ?_, phase := ?_ }
  · simp only [applyTxns_snoc_nil]; exact h.view x hx
  · refine ⟨by simp [hret], hhead, fun x hx => ?_⟩
    have hclean := hc.clean x (by simp [he]) (by simp [Using])
    simp only [hret]
    rw [← hclean, h.view x hx, take_of_length_le (by simp)]

end

/-! ## `commit` -/

theorem CrashInv.slot_cold {i : Nat} (hi : i < s.lh.length) : s.start + i + 1 ∉ s.lh := by
  intro hm
  exact (h.lhHome _ hm).ne_slot (by have := h.lhFits; omega) rfl

end

theorem getD_lh (ht : t < lh.length) : lh.getD t 0 = lh[t] :=
  getD_eq_getElem _ _ ht

section

variable (h : CrashInv d0 s)
include h

theorem CrashInv.writeLog (hpc : s.pc = some (.writeLog t)) (ht : t < s.lh.length) :
    CrashInv d0 { s with cache := writeLog1 s.cache s.start s.lh t, pc := some (.writeLog (t + 1)) } := by
  have hcold := h.slot_cold ht
  have hhome := h.lhHome _ (getElem_mem ht)
  have hslot : t + 1 < s.size := by have := h.lhFits; omega
  obtain ⟨hgeo, hfit, hlh, huse, hc, hview, hph⟩ := h
  simp only [unflushed, hpc] at hc
  simp only [Phase, hpc] at hph
  obtain ⟨hret, ⟨hhead, hold⟩, hlog⟩ := hph
  rw [writeLog1_eq (by rw [getD_lh ht]; exact hhome.ne_slot hslot), getD_lh ht]
  have harea := hgeo.area
  refine ⟨(hgeo.of_disk (by simp)).put (by omega), hfit, hlh, huse, ?_, fun x hx => ?_, hret, ⟨?_, fun x hx => ?_⟩, fun i hi hit => ?_⟩
  · exact (hc.bread (b := s.lh[t])).put (fun x hx => ⟨hx, fun e => hcold (e ▸ hx)⟩) (fun x hx => .inl hx)
  · rw [view_put_ne (hx.ne_slot hslot), view_bread]; exact hview x hx
  · simp only [disk_put, disk_bread]
    rw [update_of_ne (by omega)]; exact hhead
  · simp only [disk_put, disk_bread]
    rw [update_of_ne (hx.ne_slot hslot)]; exact hold x hx
  · have hi' := (hlh _ (getElem_mem hi)).ne_slot hslot
    simp only [disk_put, disk_bread, view_put_ne hi', view_bread]
    by_cases he : i = t
    · subst he; rw [update_self]
    · rw [update_of_ne (by omega)]; exact hlog i hi (by omega)

theorem CrashInv.writeHead (hpc : s.pc = some .writeHead) :
    CrashInv d0 { s with cache := writeHead s.cache s.start s.lh, pc := some (.install 0) } := by
  have hpos := h.lhFits_pos
  obtain ⟨hgeo, hfit, hlh, huse, hc, hview, hph⟩ := h
  simp only [unflushed, hpc] at hc
  simp only [Phase, hpc] at hph
  obtain ⟨hret, _, hlog⟩ := hph
  have harea := hgeo.area
  have hle := hgeo.sizeLe
  rw [writeHead_eq]
  refine ⟨hgeo.put (by omega), hfit, hlh, huse, ?_, fun x hx => ?_, hret, ?_, fun i hi hit => ?_⟩
  · simp only [unflushed, drop_zero]
    exact hc.put (fun x hx => ⟨hx, (hlh x hx).ne_start hpos⟩) (fun x hx => .inl hx)
  · rw [view_put_ne (hx.ne_start hpos)]; exact hview x hx
  · simp only [disk_put, update_self]
    exact decodeHead_encodeHead _ (by omega) (fun x hx => (hlh x hx).1)
  · have hi' := (hlh _ (getElem_mem hi)).ne_start hpos
    simp only [disk_put, view_put_ne hi']
    rw [update_of_ne (by omega)]
    exact hlog i hi hit

theorem CrashInv.install (hwf : Wf s) (hpc : s.pc = some (.install t)) (ht : t < s.lh.length) :
    CrashInv d0 { s with cache := installTrans1 s.cache s.start s.lh t, pc := some (.install (t + 1)) } := by
  have hcold := h.slot_cold ht
  have hpos := h.lhFits_pos
  have hhome := h.lhHome _ (getElem_mem ht)
  have hc := h.cache
  have hph := h.phase
  have hops : s.ops = [] := (hwf.quiet (by simp [hpc])).1
  simp only [unflushed, Phase, hpc] at hc hph
  obtain ⟨hret, hhead, hlog⟩ := hph
  -- The copy in the log is what the buffer of the home block holds already.
  have hcopy : s.cache.view (s.start + t + 1) = s.cache.view s.lh[t] := by
    rw [hc.clean _ (fun hm => hcold (mem_of_mem_drop hm)) (by simp [hops, Using])]
    exact hlog t ht ht
  have hview' : ∀ x, ((s.cache.bread (s.start + t + 1)).put s.lh[t] (s.cache.view s.lh[t])).view x =
      s.cache.view x := by
    intro x
    by_cases he : x = s.lh[t]
    · subst he; rw [view_put_self]
    · rw [view_put_ne he, view_bread]
  have hdrop : s.lh.drop t = s.lh[t] :: s.lh.drop (t + 1) := drop_eq_getElem_cons ht
  have hnot : s.lh[t] ∉ s.lh.drop (t + 1) := by
    have hn := hwf.nodup.sublist (drop_sublist t s.lh)
    rw [hdrop] at hn
    exact (nodup_cons.mp hn).1
  rw [installTrans1_eq, getD_lh ht, hcopy]
  refine ⟨(h.geometry.of_disk (by simp)).put hhome.2.1, h.lhFits, h.lhHome, h.useHome, ?_, fun x hx => ?_, hret, ?_, fun i hi hit => ?_⟩
  · simp only [unflushed]
    refine (hc.bread (b := s.start + t + 1)).put (fun x hx => ⟨?_, fun e => hnot (e ▸ hx)⟩) (fun x hx => ?_)
    · rw [hdrop]; exact mem_cons_of_mem _ hx
    · rw [hdrop] at hx; exact (mem_cons.mp hx).symm
  · rw [hview']; exact h.view x hx
  · simp only [disk_put, disk_bread, update_of_ne (hhome.ne_start hpos).symm]
    exact hhead
  · have hi' : i + 1 < s.size := lt_of_le_of_lt hi h.lhFits
    rw [hview']
    simp only [disk_put, disk_bread, update_of_ne (hhome.ne_slot hi').symm]
    exact hlog i hi hit

theorem CrashInv.installDone (hwf : Wf s) (hpc : s.pc = some (.install t))
    (ht : s.lh.length ≤ t) : CrashInv d0 { s with lh := [], pc := some .clearHead } := by
  have hpos := h.lhFits_pos
  obtain ⟨hgeo, hfit, hlh, huse, hc, hview, hph⟩ := h
  simp only [unflushed, hpc, drop_eq_nil_of_le ht] at hc
  simp only [Phase, hpc] at hph
  obtain ⟨hret, hhead, hlog⟩ := hph
  have he := hgeo.header_eq.trans hhead
  refine ⟨hgeo, hpos, by simp, huse, hc, hview, hret, hgeo.headOk hhead hwf.nodup hfit hlh, ?_⟩
  simp only [he]
  exact fun i hi => hlog i hi hi

theorem CrashInv.clearHead (hwf : Wf s) (hpc : s.pc = some .clearHead) :
    CrashInv d0 { s with
      cache := Log.writeHead s.cache s.start s.lh, pc := some .returned, returned := s.returned + 1 } := by
  have hpos := h.lhFits_pos
  obtain ⟨hgeo, hfit, hlh, huse, hc, hview, hph⟩ := h
  have hq := hwf.quiet (by simp [hpc])
  have hnil : s.lh = [] := hwf.cleared (.inl hpc)
  simp only [unflushed, hpc] at hc
  simp only [Phase, hpc] at hph
  obtain ⟨hret, _⟩ := hph
  have harea := hgeo.area
  rw [writeHead_eq]
  refine ⟨hgeo.put (by omega), hfit, hlh, huse, ?_, fun x hx => ?_, hret, ?_, fun x hx => ?_⟩
  · exact hc.put (fun x hx => ⟨hx, (hlh x hx).ne_start hpos⟩) (fun x hx => .inl hx)
  · rw [view_put_ne (hx.ne_start hpos)]; exact hview x hx
  · simp only [disk_put, update_self, hnil]
    exact decodeHead_encodeHead _ (Nat.zero_le _) (by simp)
  · have hclean := hc.clean x (by simp [hnil]) (by simp [hq.1, Using])
    simp only [disk_put, update_of_ne (hx.ne_start hpos)]
    rw [← hclean, hview x hx, hq.2, applyTxns_snoc_nil, take_of_length_le (by omega)]

/-! ## All actions -/

theorem CrashInv.next (hwf : Wf s) (hok : FitsLog s a) (hn : Next s a s') : CrashInv d0 s' := by
  cases hn with
  | beginOp =>
    have hu : ∀ {p x}, Using ((p, (⟨[], none, []⟩ : Op)) :: s.ops) x ↔ Using s.ops x := by
      intro p x; rw [Using.cons]; simp
    exact { h with
      useHome := fun x hx => h.useHome x (hu.mp hx)
      cache := h.cache.ops_change (fun x hx => h.cache.used x (hu.mp hx)) (fun x _ hx => hu.mpr hx) }
  | modify hl hpc ht => exact h.modify hl hpc ht hok
  | tooBig => exact { h with }
  | logTest hl hpc _ ht => exact h.logTest hl hpc ht hok
  | logAppend hl hpc ho ht => exact h.logAppend hl hpc ht (by simpa [FitsLog, ho, ht] using hok)
  | endOp hl _ hp ht => exact h.endOp hl hp ht
  | endLast hl hpc hp ht => exact h.endLast hl hpc hp ht
  | endEmpty hl hpc hp ht he => exact h.endEmpty hl hpc hp ht he
  | writeLog hpc ht => exact h.writeLog hpc ht
  | @writeLogDone t hpc ht =>
    have hc := h.cache
    have hph := h.phase
    simp only [unflushed, Phase, hpc] at hc hph
    exact { h with cache := hc, phase := ⟨hph.1, hph.2.1, fun i hi _ => hph.2.2 i hi (lt_of_lt_of_le hi ht)⟩ }
  | writeHead hpc => exact h.writeHead hpc
  | install hpc ht => exact h.install hwf hpc ht
  | installDone hpc ht => exact h.installDone hwf hpc ht
  | clearHead hpc => exact h.clearHead hwf hpc
  | finish hpc =>
    have hc := h.cache
    have hph := h.phase
    simp only [unflushed, Phase, hpc] at hc hph
    exact { h with cache := hc, phase := hph }
  | @bread b =>
    refine ⟨h.geometry.of_disk (by simp), h.lhFits, h.lhHome, h.useHome, h.cache.bread, fun x hx => ?_, ?_⟩
    · rw [view_bread]; exact h.view x hx
    · simpa only [Phase, Old, Logged, Journal, disk_bread, view_bread] using h.phase
  | evict hx hd hu =>
    obtain ⟨hc, hview⟩ := h.cache.evict hx hd ((not_congr inUse_iff).mp (by simpa using hu))
    refine { h with cache := hc, view := fun x hx => ?_, phase := ?_ }
    · rw [hview]; exact h.view x hx
    · simpa only [Phase, Old, Logged, Journal, disk_evict, hview] using h.phase

end

/-! ## A crash -/

def Replays (d0 : Nat → Block) (s : State) : Prop :=
  HeadOk s.cache.disk ∧
  ∃ k, s.returned ≤ k ∧ k ≤ s.txns.length ∧
    ∀ b, Home s.start s.size b → recovered s.cache.disk b = applyTxns (s.txns.take k) d0 b

theorem CrashInv.replays_old (h : CrashInv d0 s) (hle : s.returned ≤ s.txns.length) (hold : Old d0 s) : Replays d0 s := by
  obtain ⟨hhead, hold⟩ := hold
  refine ⟨h.geometry.headOk hhead nodup_nil h.lhFits_pos (by simp), s.returned, le_rfl, hle, ?_⟩
  intro b hb
  rw [recovered, h.geometry.header_eq, hhead, replay_nil, hold b hb]

/-- Once the header is on disk, replay gives what the cache holds. -/
theorem CrashInv.replays_new (h : CrashInv d0 s) (hwf : Wf s) (hpc : s.pc ≠ none) (hret : s.returned + 1 = s.txns.length) (hj : Journal s)
    (hsub : ∀ b ∈ unflushed s, b ∈ header s.cache.disk) : Replays d0 s := by
  obtain ⟨hops, hcur⟩ := hwf.quiet hpc
  obtain ⟨hok, hslots⟩ := hj
  refine ⟨hok, s.txns.length, by omega, le_rfl, fun b hb => ?_⟩
  rw [take_length, ← applyTxns_snoc_nil, ← hcur, ← h.view b hb, recovered]
  by_cases hm : b ∈ header s.cache.disk
  · obtain ⟨i, hi, rfl⟩ := getElem_of_mem hm
    rw [replay_getElem hok.nodup hi, h.geometry.logstart_eq]
    exact hslots i hi
  · rw [replay_of_not_mem hm]
    exact (h.cache.clean b (fun hb' => hm (hsub b hb')) (by simp [hops, Using])).symm

theorem CrashInv.crash (h : CrashInv d0 s) (hwf : Wf s) : Replays d0 s := by
  have hph := h.phase
  cases hpc : s.pc with
  | none => simp only [Phase, hpc] at hph; exact h.replays_old (by omega) hph.2
  | some pc =>
    have hne : s.pc ≠ none := by simp [hpc]
    cases pc with
    | writeLog t | writeHead => simp only [Phase, hpc] at hph; exact h.replays_old (by omega) hph.2.1
    | install t =>
      simp only [Phase, hpc] at hph
      obtain ⟨hret, hhead, hlog⟩ := hph
      have he := h.geometry.header_eq.trans hhead
      refine h.replays_new hwf hne hret ⟨h.geometry.headOk hhead hwf.nodup h.lhFits h.lhHome, ?_⟩ ?_
      · simp only [he]; exact fun i hi => hlog i hi hi
      · simp only [unflushed, hpc, he]; exact fun b hb => mem_of_mem_drop hb
    | clearHead =>
      simp only [Phase, hpc] at hph
      refine h.replays_new hwf hne hph.1 hph.2 ?_
      simp [unflushed, hpc, hwf.cleared (.inl hpc)]
    | returned => simp only [Phase, hpc] at hph; exact h.replays_old (by omega) hph.2

end Xv6.Log
