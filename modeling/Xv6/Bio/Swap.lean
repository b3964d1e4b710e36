import Xv6.Bio.Lemmas.Frame
import Xv6.Bio.Theorems
import Xv6.Vm.Swap

/-!
# Swap slots (`swapread` and `swapwrite` in `fs.c`)

The calls are made one after the other, while other processes use the cache for the blocks of other devices.
-/

namespace Xv6.Bio

open Xv6.Lib Function List Option Bytes State Assoc Bio

namespace Swap

open Xv6.Vm (Page PGSIZE SWAPBASE SWAPMAX BLKS_PER_PG)

structure Call where
  write : Bool
  page : Page
  blkno : Nat

/-- Where the pass for block `i` stands. `iderw` is that of `bread`, and `sync` that of `bwrite`. -/
inductive Pc where
  | count | bget | acquiresleep | bread | iderw | memmove | bwrite | sync | releasesleep | brelse
deriving DecidableEq

structure Running extends Call where
  i : Nat
  pc : Pc

structure Sys where
  bio : State
  call : Option Running
  nr_sectors_read : BitVec 32
  nr_sectors_write : BitVec 32
  done : List Call
  panicked : Bool

def block (blkno i : Nat) : Nat := SWAPBASE + BLKS_PER_PG * blkno + i

def piece (page : Page) (i : Nat) : Block := fun j => page.get (BSIZE * i + j)

section

-- The call and its process.
variable (c pid : Nat)

def Running.act (x : Running) (bio : State) : Option Act :=
  match x.pc with
  | .count => none
  | .bget => some (.bget c pid 0 (block x.blkno x.i))
  | .acquiresleep => some (.acquiresleep c)
  | .bread => some (.bread c)
  | .iderw => if (bio.refs.lookup c).any (·.stage = .reading) then some (.iderw c) else none
  | .memmove => if x.write then some (.modify c (piece x.page x.i)) else none
  | .bwrite => if x.write then some (.bwrite c) else none
  | .sync => if x.write then some (.iderw c) else none
  | .releasesleep => some (.releasesleep c)
  | .brelse => some (.brelse c)

def Running.access (x : Running) (bio : State) : Option State :=
  match x.act c pid bio with
  | none => some bio
  | some a => step bio a

def Pc.next : Pc → Pc
  | .count => .bget
  | .bget => .acquiresleep
  | .acquiresleep => .bread
  | .bread => .iderw
  | .iderw => .memmove
  | .memmove => .bwrite
  | .bwrite => .sync
  | .sync => .releasesleep
  | .releasesleep => .brelse
  | .brelse => .count

def data (bio : State) : Block :=
  match bio.refs.lookup c with
  | some r => (bio.buf r.buf).data
  | none => fill BSIZE 0

def Sys.advance (s : Sys) (x : Running) : Sys :=
  match x.pc with
  | .count => { s with
      nr_sectors_read := if x.write then s.nr_sectors_read else s.nr_sectors_read + 1
      nr_sectors_write := if x.write then s.nr_sectors_write + 1 else s.nr_sectors_write
      call := some { x with pc := .bget } }
  | .memmove => { s with call := some { x with
      page := if x.write then x.page else x.page.write (BSIZE * x.i) BSIZE (data c s.bio).get
      pc := .bwrite } }
  | .brelse =>
    if x.i + 1 < BLKS_PER_PG then { s with call := some { x with i := x.i + 1, pc := .count } }
    else { s with call := none, done := s.done ++ [x.toCall] }
  | pc => { s with call := some { x with pc := pc.next } }

def Sys.run (s : Sys) (x : Running) : Option Sys :=
  (x.access c pid s.bio).map fun bio => if bio.panicked = none then Sys.advance c { s with bio } x else { s with bio }

def Sys.start (s : Sys) (write : Bool) (page : Page) (blkno : Int) : Option Sys :=
  if s.call.isNone then
    if blkno < 0 ∨ blkno ≥ (SWAPMAX / BLKS_PER_PG : Nat) then some { s with panicked := true }
    else some { s with call := some ⟨⟨write, page, blkno.toNat⟩, 0, .count⟩ }
  else none

inductive Event where
  | swapread (page : Page) (blkno : Int)
  | swapwrite (page : Page) (blkno : Int)
  | run
  | other (a : Act)

def Sys.step (s : Sys) (e : Event) : Option Sys :=
  if s.panicked ∨ s.bio.panicked ≠ none then none
  else match e with
  | .swapread page blkno => s.start false page blkno
  | .swapwrite page blkno => s.start true page blkno
  | .run => s.call.bind (s.run c pid)
  | .other a => (Bio.step s.bio a).map fun bio => { s with bio }

/-- The other processes do not use the swap device, nor do they write through to its disk, which is also that of device 2. -/
def elsewhere (bio : State) : Act → Bool
  | .bget _ _ dev _ => dev ≠ 0
  | .bwrite k => (bio.refs.lookup k).all (·.key.1 % 2 = 1)
  | _ => true

def Admitted (s : Sys) : Event → Prop
  | .other a => a.call ≠ c ∧ elsewhere s.bio a
  | _ => True

instance (s : Sys) : (e : Event) → Decidable (Admitted c s e)
  | .other _ => inferInstanceAs (Decidable (_ ∧ _))
  | .swapread _ _ | .swapwrite _ _ | .run => .isTrue trivial

end

/-! ## Slots as a store -/

def pageAt (d : Key → Block) (n : Nat) : Page := fun j => (d (0, block n (j / BSIZE))).get (j % BSIZE)

def slots (m : Nat → Page) (calls : List Call) : Nat → Page :=
  calls.foldl (fun m x => if x.write then update m x.blkno x.page else m) m

theorem slots_snoc (m : Nat → Page) (calls : List Call) (x : Call) :
    slots m (calls ++ [x]) = if x.write then update (slots m calls) x.blkno x.page else slots m calls := by
  simp [slots]

variable {m : Nat → Page} {n i j : Nat} {page : Page}

theorem slots_other {calls : List Call} (h : ∀ x ∈ calls, x.write → x.blkno ≠ n) : slots m calls n = m n := by
  induction calls generalizing m with
  | nil => rfl
  | cons x calls ih =>
    refine (ih fun y hy => h y (mem_cons_of_mem _ hy)).trans ?_
    by_cases hx : x.write
    · simp [hx, update_of_ne (h x mem_cons_self hx).symm]
    · simp [hx]

theorem slots_last {l1 l2 : List Call} {w : Call} (hw : w.write)
    (h : ∀ x ∈ l2, x.write → x.blkno ≠ w.blkno) : slots m (l1 ++ w :: l2) w.blkno = w.page := by
  have he : slots m (l1 ++ w :: l2) = slots (slots m (l1 ++ [w])) l2 := by simp [slots]
  rw [he, slots_other h, slots_snoc, if_pos hw, update_self]

theorem piece_lt (hi : i < BLKS_PER_PG) (hj : j < BSIZE * i + BSIZE) : j < PGSIZE := by
  simp only [BLKS_PER_PG, PGSIZE, BSIZE] at *
  omega

theorem piece_pageAt (d : Key → Block) (n : Nat) (hi : i < BLKS_PER_PG) : piece (pageAt d n) i = d (0, block n i) := by
  funext j
  have hj := j.isLt
  have hlt : BSIZE * i + j < PGSIZE := piece_lt hi (Nat.add_lt_add_left hj _)
  have hdiv : (BSIZE * i + j) / BSIZE = i := by
    simp only [BSIZE] at *
    omega
  have hmod : (BSIZE * i + j) % BSIZE = j := by
    simp only [BSIZE] at *
    omega
  simp [piece, get_of_lt _ hlt, pageAt, hdiv, hmod, get_of_lt _ hj]

theorem get_piece (hj : j < BSIZE) : (piece page i).get j = page.get (BSIZE * i + j) := by
  rw [get_of_lt _ hj]
  rfl

theorem block_inj {n' i' : Nat} (hi : i < BLKS_PER_PG) (hi' : i' < BLKS_PER_PG) (h : block n i = block n' i') : n = n' ∧ i = i' := by
  simp only [block, BLKS_PER_PG, PGSIZE, BSIZE] at *
  omega

theorem block_lt (hn : n < SWAPMAX / BLKS_PER_PG) (hi : i < BLKS_PER_PG) : SWAPBASE ≤ block n i ∧ block n i < FSSIZE := by
  simp only [block, BLKS_PER_PG, PGSIZE, BSIZE, SWAPMAX, SWAPBASE, FSSIZE] at *
  omega

/-! ## The invariant -/

inductive At (w : Bool) (k : Key) : Pc → Option Ref → Prop where
  | count : At w k .count none
  | bget : At w k .bget none
  | waiting {r} : r.key = k → r.stage = .waiting → At w k .acquiresleep (some r)
  | locked {r} : r.key = k → r.stage = .locked → At w k .bread (some r)
  | read {r} : r.key = k → r.stage = .reading ∨ r.stage = .held → At w k .iderw (some r)
  | held {r} : r.key = k → r.stage = .held → At w k .memmove (some r)
  | moved {r} : r.key = k → r.stage = (if w then .modified else .held) → At w k .bwrite (some r)
  | writing {r} : r.key = k → r.stage = (if w then .writing else .held) → At w k .sync (some r)
  | synced {r} : r.key = k → r.stage = .held → At w k .releasesleep (some r)
  | released {r} : r.key = k → r.stage = .released → At w k .brelse (some r)

def Running.moved (x : Running) : Nat :=
  match x.pc with
  | .bwrite | .sync | .releasesleep | .brelse => x.i + 1
  | _ => x.i

def Running.counted (x : Running) : Nat := if x.pc = .count then x.i else x.i + 1

def Sys.owner (m : Nat → Page) (s : Sys) (n i : Nat) : Page :=
  match s.call with
  | some x => if x.write ∧ n = x.blkno ∧ i < x.moved then x.page else slots m s.done n
  | none => slots m s.done n

def Sys.nr (s : Sys) (write : Bool) : BitVec 32 := if write then s.nr_sectors_write else s.nr_sectors_read

def Sys.sectors (s : Sys) (write : Bool) : Nat :=
  BLKS_PER_PG * s.done.countP (·.write = write) +
    match s.call with
    | some x => if x.write = write then x.counted else 0
    | none => 0

structure Running.Ok (m : Nat → Page) (c : Nat) (s : Sys) (x : Running) : Prop where
  ref : At x.write (0, block x.blkno x.i) x.pc (s.bio.refs.lookup c)
  i_lt : x.i < BLKS_PER_PG
  blkno_lt : x.blkno < SWAPMAX / BLKS_PER_PG
  read : x.write = false → ∀ j < BSIZE * x.moved, x.page.get j = (slots m s.done x.blkno).get j

structure Sys.Ok (d0 : Key → Block) (nr0 : Bool → BitVec 32) (c : Nat) (s : Sys) : Prop where
  inv : Inv d0 s.bio
  locks : Locks s.bio
  own : ∀ q ∈ s.bio.refs, q.2.key.1 = 0 → q.1 = c
  idle : s.call = none → s.bio.refs.lookup c = none
  call : ∀ x, s.call = some x → x.Ok (pageAt d0) c s
  store : ∀ n i, i < BLKS_PER_PG → contents d0 s.bio.trace (0, block n i) = piece (s.owner (pageAt d0) n i) i
  reads : ∀ l1 x l2, s.done = l1 ++ x :: l2 → x.write = false → x.page = slots (pageAt d0) l1 x.blkno
  nr : ∀ w, s.nr w = nr0 w + BitVec.ofNat 32 (s.sectors w)

variable {d0 : Key → Block} {nr0 : Bool → BitVec 32} {c pid : Nat} {s s' : Sys} {x : Running} {bio : State} {a : Act} {r : Ref}

/-! ## What others do -/

theorem Sys.Ok.other (h : s.Ok d0 nr0 c) (hst : Bio.step s.bio a = some bio) (ha : a.call ≠ c) (he : elsewhere s.bio a) :
    Sys.Ok d0 nr0 c { s with bio } := by
  have hlook := h.inv.step_lookup hst (Ne.symm ha)
  have hown : ∀ q ∈ bio.refs, q.2.key.1 = 0 → q.1 = c := by
    intro q hq h0
    rcases h.inv.step_refs hst hq with ⟨q0, hq0, hc, hk⟩ | ⟨_, dev, b, rfl, hk⟩
    · exact hc ▸ h.own q0 hq0 (hk ▸ h0)
    · rw [hk] at h0
      exact absurd h0 (by simpa [elsewhere] using he)
  have hmem : ∀ b, contents d0 bio.trace (0, b) = contents d0 s.bio.trace (0, b) := by
    intro b
    rcases h.inv.step_contents hst (0, b) with hc | ⟨k, v, r, rfl, hr, hk⟩
    · exact hc
    · exact absurd (h.own _ hr (by rw [hk])) ha
  exact ⟨h.inv.next (next_of_step h.inv hst), h.locks.step h.inv hst, hown, fun hc => hlook.trans (h.idle hc),
    fun x hx => ⟨hlook.symm ▸ (h.call x hx).ref, (h.call x hx).i_lt, (h.call x hx).blkno_lt, (h.call x hx).read⟩,
    fun n i hi => (hmem _).trans (h.store n i hi), h.reads, h.nr⟩

/-! ## What the call does -/

theorem Sys.Ok.unlocked (h : s.Ok d0 nr0 c) (hr : s.bio.refs.lookup c = some r) (hk : r.key.1 = 0) (hs : r.stage = .waiting) :
    (s.bio.buf r.buf).lock = none := by
  by_contra hlock
  obtain ⟨⟨k, q⟩, hq, hb, hh⟩ := h.locks _ hlock
  have hkey : q.key = r.key := by
    rw [← h.inv.refs.key _ hq, ← h.inv.refs.key _ (mem_of_lookup hr)]
    exact congrArg (fun i => (s.bio.buf i).key) hb
  cases h.own _ hq (hkey ▸ hk)
  cases (lookup_of_mem h.inv.refs.calls hq).symm.trans hr
  simp [hs, Stage.holds] at hh

theorem Sys.Ok.access (pid : Nat) (h : s.Ok d0 nr0 c) (hx : s.call = some x) (hp : s.bio.panicked = none) :
    ∃ bio, x.access c pid s.bio = some bio ∧ (bio.panicked = none ∧ At x.write (0, block x.blkno x.i) x.pc.next (bio.refs.lookup c) ∨
      x.pc = .bget ∧ bio = { s.bio with panicked := some .noBuffers } ∧ ∀ i, (s.bio.buf i).refcnt = 0 → (s.bio.buf i).dirty = true) := by
  have href := (h.call x hx).ref
  generalize hpc : x.pc = pc at href
  generalize hl : s.bio.refs.lookup c = o at href
  simp only [Running.access, Running.act, hpc]
  cases href with
  | count => exact ⟨s.bio, rfl, .inl ⟨hp, hl ▸ .bget⟩⟩
  | bget =>
    simp only [Bio.step, hp, if_true, Bio.bget, hl]
    cases hc : cached s.bio (0, block x.blkno x.i) with
    | some i => exact ⟨_, rfl, .inl ⟨hp, by rw [Assoc.lookup_cons, if_pos rfl]; exact .waiting rfl rfl⟩⟩
    | none =>
      cases hu : unused s.bio with
      | some i => exact ⟨_, rfl, .inl ⟨hp, by rw [Assoc.lookup_cons, if_pos rfl]; exact .waiting rfl rfl⟩⟩
      | none =>
        refine ⟨_, rfl, .inr ⟨trivial, rfl, fun i hi => ?_⟩⟩
        have hn := find?_eq_none.mp hu i (mem_reverse.mpr (h.inv.lru.mem i))
        simpa [hi] using hn
  | @waiting r hk hs =>
    have hlock := h.unlocked hl (by rw [hk]) hs
    simp only [Bio.step, hp, if_true, hl, Option.bind_some, Bio.acquiresleep, hs, hlock, and_self]
    exact ⟨_, rfl, .inl ⟨hp, by simp only [State.setRef, State.setBuf, Assoc.lookup_put_self hl]; exact .locked hk rfl⟩⟩
  | @locked r hk hs =>
    simp only [Bio.step, hp, if_true, hl, Option.bind_some, Bio.bread, hs]
    cases hv : (s.bio.buf r.buf).valid with
    | false => exact ⟨_, rfl, .inl ⟨hp, by simp only [State.setRef, Assoc.lookup_put_self hl]; exact .read hk (.inl rfl)⟩⟩
    | true => exact ⟨_, rfl, .inl ⟨hp, by simp only [State.setRef, State.emit, Assoc.lookup_put_self hl]; exact .read hk (.inr rfl)⟩⟩
  | @read r hk hs =>
    rcases hs with hs | hs
    · simp only [hl, any_some, hs, decide_true, if_true]
      obtain ⟨bio, hst, hp', hl'⟩ := h.inv.iderw_returns hp hl (.inl hs)
      exact ⟨bio, hst, .inl ⟨hp', hl' ▸ .held hk rfl⟩⟩
    · simp only [hl, any_some, hs, reduceCtorEq, decide_false, Bool.false_eq_true, if_false]
      exact ⟨_, rfl, .inl ⟨hp, hl ▸ .held hk hs⟩⟩
  | @held r hk hs =>
    cases hw : x.write with
    | false => exact ⟨_, rfl, .inl ⟨hp, hl ▸ .moved hk hs⟩⟩
    | true =>
      simp only [if_true, Bio.step, hp, hl, Option.bind_some, Bio.modify, hs, true_or]
      exact ⟨_, rfl, .inl ⟨hp, by simp only [State.setRef, State.setBuf, State.emit, Assoc.lookup_put_self hl]; exact .moved hk rfl⟩⟩
  | @moved r hk hs =>
    cases hw : x.write with
    | false => exact ⟨_, rfl, .inl ⟨hp, hl ▸ .writing hk (by rw [hs, hw]; rfl)⟩⟩
    | true =>
      rw [hw] at hs
      have hold := h.inv.holdingsleep hl (by rw [hs]; rfl)
      simp only [if_true, Bio.step, hp, hl, Option.bind_some, Bio.bwrite, hs, or_true, hold, Bool.true_eq_false, if_false]
      exact ⟨_, rfl, .inl ⟨hp, by simp only [State.setRef, State.setBuf, Assoc.lookup_put_self hl]; exact .writing hk rfl⟩⟩
  | @writing r hk hs =>
    cases hw : x.write with
    | false => exact ⟨_, rfl, .inl ⟨hp, hl ▸ .synced hk (by rw [hs, hw]; rfl)⟩⟩
    | true =>
      obtain ⟨bio, hst, hp', hl'⟩ := h.inv.iderw_returns hp hl (.inr (by rw [hs, hw]; rfl))
      exact ⟨bio, hst, .inl ⟨hp', hl' ▸ .synced hk rfl⟩⟩
  | @synced r hk hs =>
    have hold := h.inv.holdingsleep hl (by rw [hs]; rfl)
    simp only [if_true, Bio.step, hp, hl, Option.bind_some, Bio.releasesleep, hs, hold, Bool.true_eq_false, if_false]
    exact ⟨_, rfl, .inl ⟨hp, by simp only [State.setRef, State.setBuf, Assoc.lookup_put_self hl]; exact .released hk rfl⟩⟩
  | @released r hk hs =>
    simp only [if_true, Bio.step, hp, hl, Option.bind_some, Bio.brelse, hs]
    split
    all_goals exact ⟨_, rfl, .inl ⟨hp, by simp only [Assoc.lookup_del_self]; exact .count⟩⟩

theorem act_call (h : x.act c pid bio = some a) : a.call = c := by
  unfold Running.act at h
  grind [Act.call]

theorem act_modify {v : Block} (h : x.act c pid bio = some (.modify n v)) : x.pc = .memmove ∧ x.write = true ∧ v = piece x.page x.i := by
  unfold Running.act at h
  grind

section

variable (h : s.Ok d0 nr0 c) (hx : s.call = some x)
include h hx

theorem Sys.Ok.accessed (hacc : x.access c pid s.bio = some bio) :
    Inv d0 bio ∧ Locks bio ∧ (∀ q ∈ bio.refs, q.2.key.1 = 0 → q.1 = c) ∧
    ∀ n i, i < BLKS_PER_PG → contents d0 bio.trace (0, block n i) =
      if x.pc = .memmove ∧ x.write ∧ n = x.blkno ∧ i = x.i then piece x.page x.i else contents d0 s.bio.trace (0, block n i) := by
  have href := (h.call x hx).ref
  unfold Running.access at hacc
  cases ha : x.act c pid s.bio with
  | none =>
    simp only [ha, some.injEq] at hacc
    subst hacc
    refine ⟨h.inv, h.locks, h.own, fun n i _ => (if_neg fun hm => ?_).symm⟩
    simp [Running.act, hm.1, hm.2.1] at ha
  | some a =>
    simp only [ha] at hacc
    refine ⟨h.inv.next (next_of_step h.inv hacc), h.locks.step h.inv hacc, fun q hq hk => ?_, fun n i hi => ?_⟩
    · rcases h.inv.step_refs hacc hq with ⟨q0, hq0, hc, hk0⟩ | ⟨_, _, _, rfl, -⟩
      · exact hc ▸ h.own q0 hq0 (hk0 ▸ hk)
      · exact act_call ha
    · by_cases hm : x.pc = .memmove ∧ x.write
      · simp only [Running.act, hm.1, hm.2, if_true, some.injEq] at ha
        subst ha
        rw [hm.1] at href
        generalize hl : s.bio.refs.lookup c = o at href
        cases href with
        | @held r hk _ =>
          rw [trace_modify hl hacc, contents_write, hk]
          by_cases hni : n = x.blkno ∧ i = x.i
          · rw [if_pos ⟨hm.1, hm.2, hni⟩, hni.1, hni.2, update_self]
          · rw [if_neg fun hc => hni hc.2.2, update_of_ne]
            exact fun he => hni (block_inj hi (h.call x hx).i_lt (Prod.mk.inj he).2)
      · rw [if_neg fun hc => hm ⟨hc.1, hc.2.1⟩]
        rcases h.inv.step_contents hacc (0, block n i) with hc | ⟨k, v, r, rfl, -⟩
        · exact hc
        · exact absurd ⟨(act_modify ha).1, (act_modify ha).2.1⟩ hm

theorem Sys.Ok.going {pc : Pc} {nr nw : BitVec 32} (hacc : x.access c pid s.bio = some bio)
    (hpc : x.pc ≠ .memmove) (href : At x.write (0, block x.blkno i) pc (bio.refs.lookup c)) (hi : i < BLKS_PER_PG)
    (hm : Running.moved ⟨x.toCall, i, pc⟩ = x.moved)
    (hnr : ∀ w, (if w then nw else nr) = nr0 w + BitVec.ofNat 32 (Sys.sectors { s with call := some ⟨x.toCall, i, pc⟩ } w)) :
    Sys.Ok d0 nr0 c { s with bio, call := some ⟨x.toCall, i, pc⟩, nr_sectors_read := nr, nr_sectors_write := nw } := by
  obtain ⟨hinv, hlocks, hown, hmem⟩ := h.accessed hx hacc
  have hcall := h.call x hx
  refine ⟨hinv, hlocks, hown, nofun, ?_, fun n k hk => ?_, h.reads, hnr⟩
  · rintro _ ⟨⟩
    exact ⟨href, hi, hcall.blkno_lt, hm ▸ hcall.read⟩
  · rw [hmem n k hk, if_neg fun hc => hpc hc.1, h.store n k hk]
    simp [Sys.owner, hx, hm]

theorem Sys.Ok.data_eq (hpc : x.pc = .memmove) (hw : x.write = false) : data c s.bio = piece (slots (pageAt d0) s.done x.blkno) x.i := by
  have href := (h.call x hx).ref
  rw [hpc] at href
  generalize hl : s.bio.refs.lookup c = o at href
  cases href with
  | @held r hk hs =>
    have hmem := mem_of_lookup hl
    have hvalid := h.inv.refs.stage _ hmem
    simp only [hs, StageOk] at hvalid
    simp only [data, hl]
    rw [h.inv.data.current _ hvalid, h.inv.refs.key _ hmem, hk, h.store _ _ (h.call x hx).i_lt]
    simp [Sys.owner, hx, hw]

section

variable (hacc : x.access c pid s.bio = some bio)
include hacc

theorem Sys.Ok.moved (hpc : x.pc = .memmove)
    (href : At x.write (0, block x.blkno x.i) .bwrite (bio.refs.lookup c)) : Sys.Ok d0 nr0 c (Sys.advance c { s with bio } x) := by
  obtain ⟨hinv, hlocks, hown, hmem⟩ := h.accessed hx hacc
  have hcall := h.call x hx
  simp only [Sys.advance, hpc]
  refine ⟨hinv, hlocks, hown, nofun, ?_, fun n k hk => ?_, h.reads, fun w => ?_⟩
  · rintro _ ⟨⟩
    refine ⟨href, hcall.i_lt, hcall.blkno_lt, fun hw j hj => ?_⟩
    replace hw : x.write = false := hw
    simp only [Running.access, Running.act, hpc, hw, Bool.false_eq_true, if_false, some.injEq] at hacc ⊢
    subst hacc
    have hread := hcall.read hw j
    simp only [Running.moved, hpc, mul_add, mul_one] at hj hread
    rw [get_write _ _ _ _ (piece_lt hcall.i_lt hj)]
    split
    · rename_i hin
      rw [h.data_eq hx hpc hw, get_piece (by omega), Nat.add_sub_cancel' hin.1]
    · exact hread (by omega)
  · rw [hmem n k hk, h.store n k hk]
    cases hw : x.write with
    | false => simp [Sys.owner, hx, hw]
    | true =>
      simp only [Sys.owner, hx, hw, hpc, Running.moved, true_and, if_true]
      by_cases hk' : n = x.blkno ∧ k = x.i
      · simp [hk']
      · have hlt : n = x.blkno ∧ k < x.i + 1 ↔ n = x.blkno ∧ k < x.i := by omega
        simp only [hk', hlt, if_false]
  · refine (h.nr w).trans ?_
    simp [Sys.sectors, Running.counted, hx, hpc]

theorem Sys.Ok.finish (hpc : x.pc = .brelse) (hl : bio.refs.lookup c = none)
    (hi : ¬ x.i + 1 < BLKS_PER_PG) : Sys.Ok d0 nr0 c { s with bio, call := none, done := s.done ++ [x.toCall] } := by
  obtain ⟨hinv, hlocks, hown, hmem⟩ := h.accessed hx hacc
  have hcall := h.call x hx
  have hall : x.i + 1 = BLKS_PER_PG := by
    have := hcall.i_lt
    omega
  have hmoved : x.moved = BLKS_PER_PG := by simp [Running.moved, hpc, hall]
  refine ⟨hinv, hlocks, hown, fun _ => hl, nofun, fun n k hk => ?_, fun l1 y l2 hd hy => ?_, fun w => ?_⟩
  · rw [hmem n k hk, if_neg (by simp [hpc]), h.store n k hk]
    simp only [Sys.owner, hx, hmoved, hk, and_true, slots_snoc]
    by_cases hn : n = x.blkno
    · subst hn
      cases hw : x.write <;> simp
    · cases hw : x.write <;> simp [hn]
  · rcases eq_nil_or_concat l2 with rfl | ⟨l, z, rfl⟩
    · obtain ⟨rfl, hxy⟩ := append_inj' hd rfl
      cases hxy
      funext j
      have hj : (j : Nat) < BSIZE * x.moved := by
        rw [hmoved]
        exact j.isLt
      simpa [get_of_lt _ j.isLt] using hcall.read hy j hj
    · rw [concat_eq_append, ← cons_append, ← append_assoc] at hd
      exact h.reads l1 y l (append_inj' hd rfl).1 hy
  · refine (h.nr w).trans ?_
    by_cases hw : x.write = w
    · simp [Sys.sectors, Running.counted, hx, hpc, hw, hall, mul_add]
    · simp [Sys.sectors, hx, hw]

theorem Sys.Ok.advance
    (href : At x.write (0, block x.blkno x.i) x.pc.next (bio.refs.lookup c)) : Sys.Ok d0 nr0 c (Sys.advance c { s with bio } x) := by
  have hi := (h.call x hx).i_lt
  -- The steps that only go on.
  have hgo (hc : x.pc ≠ .count) (hm : x.pc ≠ .memmove) (hb : x.pc ≠ .brelse) :
      Sys.Ok d0 nr0 c { s with bio, call := some { x with pc := x.pc.next } } := by
    refine h.going hx hacc hm href hi ?_ fun w => ?_
    · cases hpc : x.pc <;> simp_all [Running.moved, Pc.next]
    · refine (h.nr w).trans ?_
      cases hpc : x.pc <;> simp_all [Sys.sectors, Running.counted, Pc.next]
  unfold Sys.advance
  cases hpc : x.pc with
  | count =>
    refine h.going hx hacc (by simp [hpc]) (by rw [hpc] at href; exact href) hi (by simp [Running.moved, hpc]) fun w => ?_
    have hn := h.nr w
    simp only [Sys.nr, Sys.sectors, hx, Running.counted, hpc, if_true] at hn
    cases w <;> cases hw : x.write <;>
      simp_all [Sys.sectors, Running.counted, BitVec.ofNat_add, ← BitVec.add_assoc]
  | memmove => simpa [Sys.advance, hpc] using h.moved hx hacc hpc (by rw [hpc] at href; exact href)
  | brelse =>
    have hl : bio.refs.lookup c = none := by
      rw [hpc] at href
      generalize bio.refs.lookup c = o at href
      cases href
      rfl
    by_cases hlast : x.i + 1 < BLKS_PER_PG
    · simp only [hlast, if_true]
      refine h.going hx hacc (by simp [hpc]) (hl ▸ .count) hlast (by simp [Running.moved, hpc]) fun w => ?_
      refine (h.nr w).trans ?_
      simp [Sys.sectors, Running.counted, hx, hpc]
    · simpa only [hlast, if_false] using h.finish hx hacc hpc hl hlast
  | bget | acquiresleep | bread | iderw | bwrite | sync | releasesleep => simpa [hpc] using hgo

end

theorem Sys.Ok.run (hp : s.bio.panicked = none) (hrun : s.run c pid x = some s') : s'.Ok d0 nr0 c := by
  obtain ⟨bio, hacc, ⟨hok, href⟩ | ⟨-, rfl, -⟩⟩ := h.access pid hx hp
  · simp only [Sys.run, hacc, map_some, hok, if_true, some.injEq] at hrun
    exact hrun ▸ h.advance hx hacc href
  · simp only [Sys.run, hacc, map_some, reduceCtorEq, if_false, some.injEq] at hrun
    subst hrun
    exact { h with inv := h.inv.next (Next.noBuffers : Next s.bio (.bget 0 0 0 0) _), call := fun x hx => { h.call x hx with } }

end

theorem Sys.Ok.start {w : Bool} {blkno : Int} (h : s.Ok d0 nr0 c) (hst : s.start w page blkno = some s') : s'.Ok d0 nr0 c := by
  unfold Sys.start at hst
  split at hst
  · rename_i hnone
    have hnone := isNone_iff_eq_none.mp hnone
    split at hst
    · cases hst
      exact { h with call := fun x hx => { h.call x hx with } }
    · rename_i hrange
      cases hst
      refine ⟨h.inv, h.locks, h.own, nofun, ?_, fun n i hi => ?_, h.reads, fun v => ?_⟩
      · rintro _ ⟨⟩
        exact ⟨h.idle hnone ▸ .count, (by decide : 0 < BLKS_PER_PG), by dsimp only; omega,
          fun _ j hj => absurd hj (by simp [Running.moved])⟩
      · rw [h.store n i hi]
        simp [Sys.owner, hnone, Running.moved]
      · refine (h.nr v).trans ?_
        simp [Sys.sectors, hnone, Running.counted]
  · cases hst

/-! ## All runs -/

def Runs (d0 : Key → Block) (nr0 : Bool → BitVec 32) (c pid : Nat) : Sys → Prop :=
  Reach (· = ⟨.boot d0, none, nr0 false, nr0 true, [], false⟩) (Sys.step c pid) (Admitted c)

theorem Runs.ok (h : Runs d0 nr0 c pid s) : s.Ok d0 nr0 c := by
  refine Reach.inv (P := Sys.Ok d0 nr0 c) ?_ (fun s e s' hi hok hst => ?_) h
  · rintro _ rfl
    refine ⟨inv_boot d0, fun i hlock => absurd rfl hlock, nofun, fun _ => rfl, nofun, fun n i hi => ?_, by simp, fun w => ?_⟩
    · exact (piece_pageAt d0 n hi).symm
    · cases w <;> simp [Sys.nr, Sys.sectors]
  · unfold Sys.step at hst
    split at hst
    · cases hst
    · rename_i hp
      cases e with
      | swapread page blkno | swapwrite page blkno => exact hi.start hst
      | run =>
        obtain ⟨x, hx, hrun⟩ := bind_eq_some_iff.mp hst
        exact hi.run hx (by simpa using (not_or.mp hp).2) hrun
      | other a =>
        obtain ⟨bio, hb, rfl⟩ := map_eq_some_iff.mp hst
        exact hi.other hb hok.1 hok.2

def Running.todo (x : Running) : Nat := 10 * (BLKS_PER_PG - x.i) - x.pc.ctorIdx

/-- The call never waits, and it ends unless every buffer is in use. -/
theorem Sys.Ok.progress (pid : Nat) (h : s.Ok d0 nr0 c) (hx : s.call = some x) (hp : s.bio.panicked = none) (hs : s.panicked = false) :
    ∃ s', s.step c pid .run = some s' ∧ (s'.bio.panicked = none ∧ s'.panicked = false ∧
      (s'.call = none ∧ (∃ page, s'.done = s.done ++ [⟨x.write, page, x.blkno⟩]) ∨
        ∃ x', s'.call = some x' ∧ x'.todo < x.todo ∧ x'.write = x.write ∧ x'.blkno = x.blkno ∧ s'.done = s.done) ∨
      s'.bio.panicked = some .noBuffers ∧ ∀ i, (s'.bio.buf i).refcnt = 0 → (s'.bio.buf i).dirty = true) := by
  have hi := (h.call x hx).i_lt
  obtain ⟨bio, hacc, ⟨hok, -⟩ | ⟨-, rfl, hfull⟩⟩ := h.access pid hx hp
  · refine ⟨Sys.advance c { s with bio } x, by simp [Sys.step, hs, hp, hx, Sys.run, hacc, hok], .inl ?_⟩
    unfold Sys.advance
    cases hpc : x.pc with
    | brelse =>
      by_cases hlast : x.i + 1 < BLKS_PER_PG
      · rw [if_pos hlast]
        exact ⟨hok, hs, .inr ⟨_, rfl, by simp [Running.todo, hpc, Pc.ctorIdx]; omega, rfl, rfl, rfl⟩⟩
      · rw [if_neg hlast]
        exact ⟨hok, hs, .inl ⟨rfl, _, rfl⟩⟩
    | _ => exact ⟨hok, hs, .inr ⟨_, rfl, by simp [Running.todo, hpc, Pc.next, Pc.ctorIdx]; omega, rfl, rfl, rfl⟩⟩
  · refine ⟨{ s with bio := { s.bio with panicked := some .noBuffers } }, ?_, .inr ⟨rfl, hfull⟩⟩
    simp [Sys.step, hs, hp, hx, Sys.run, hacc]

def Sys.Goes (c pid : Nat) : Sys → Sys → Prop := Relation.ReflTransGen fun s s' => s.step c pid .run = some s'

theorem Sys.Ok.returns (h : s.Ok d0 nr0 c) (hx : s.call = some x) (hp : s.bio.panicked = none) (hs : s.panicked = false) :
    ∃ s', Sys.Goes c pid s s' ∧ (s'.call = none ∧ (∃ page, s'.done = s.done ++ [⟨x.write, page, x.blkno⟩]) ∨
      s'.bio.panicked = some .noBuffers ∧ ∀ i, (s'.bio.buf i).refcnt = 0 → (s'.bio.buf i).dirty = true) := by
  induction hn : x.todo using Nat.strong_induction_on generalizing s x with
  | _ n ih =>
    obtain ⟨s', hst, ⟨hp', hs', ⟨hnone, hdone⟩ | ⟨x', hx', hlt, hw, hb, hd⟩⟩ | hfull⟩ := h.progress pid hx hp hs
    · exact ⟨s', .single hst, .inl ⟨hnone, hdone⟩⟩
    · have hrun : s.run c pid x = some s' := by simpa [Sys.step, hs, hp, hx] using hst
      obtain ⟨s'', hgo, hres⟩ := ih _ (hn ▸ hlt) (h.run hx hp hrun) hx' hp' hs' rfl
      exact ⟨s'', .head hst hgo, by rwa [hw, hb, hd] at hres⟩
    · exact ⟨s', .single hst, .inr hfull⟩

/-- The calls use the blocks of the swap area; `swapread` returns the page of the last `swapwrite` to its slot, which no other call changes;
and the counters grow by the blocks of a page with each call. -/
theorem swap_slots (h : Runs d0 nr0 c pid s) :
    (∀ k r, s.bio.refs.lookup k = some r → r.key.1 = 0 → SWAPBASE ≤ r.key.2 ∧ r.key.2 < FSSIZE) ∧
    (∀ l1 w l2 x l3, s.done = (l1 ++ w :: l2) ++ x :: l3 → w.write → x.write = false → x.blkno = w.blkno →
      (∀ y ∈ l2, y.write → y.blkno ≠ w.blkno) → x.page = w.page) ∧
    (∀ n, (∀ x, s.call = some x → x.write → x.blkno ≠ n) → pageAt (contents d0 s.bio.trace) n = slots (pageAt d0) s.done n) ∧
    (s.call = none → ∀ w, s.nr w = nr0 w + BitVec.ofNat 32 (BLKS_PER_PG * s.done.countP (·.write = w))) ∧
    ∀ x, s.call = some x → s.bio.panicked = none → s.panicked = false → ∃ s', Sys.Goes c pid s s' ∧
      (s'.call = none ∧ (∃ page, s'.done = s.done ++ [⟨x.write, page, x.blkno⟩]) ∨
        s'.bio.panicked = some .noBuffers ∧ ∀ i, (s'.bio.buf i).refcnt = 0 → (s'.bio.buf i).dirty = true) := by
  have hok := h.ok
  refine ⟨fun k r hr hk => ?_, fun l1 w l2 x l3 hd hw hx hb hl => ?_, fun n hn => ?_,
    fun hc w => ?_, fun x hx hp hs => hok.returns hx hp hs⟩
  · cases hok.own _ (mem_of_lookup hr) hk
    cases hc : s.call with
    | none => cases (hok.idle hc).symm.trans hr
    | some x =>
      have hcall := hok.call x hc
      have hkey : r.key = (0, block x.blkno x.i) := by
        have href := hcall.ref
        rw [hr] at href
        generalize x.pc = pc at href
        cases href <;> assumption
      rw [hkey]
      exact block_lt hcall.blkno_lt hcall.i_lt
  · rw [hok.reads _ x l3 hd hx, hb, slots_last hw hl]
  · funext j
    have hj : (j : Nat) / BSIZE < BLKS_PER_PG := by
      have := j.isLt
      simp only [BLKS_PER_PG, PGSIZE, BSIZE] at *
      omega
    have howner : s.owner (pageAt d0) n (j / BSIZE) = slots (pageAt d0) s.done n := by
      unfold Sys.owner
      split
      · rename_i x hx
        rw [if_neg]
        rintro ⟨hw, rfl, -⟩
        exact hn x hx hw rfl
      · rfl
    simp only [pageAt, hok.store n _ hj, howner]
    rw [get_piece (Nat.mod_lt _ (by decide)), Nat.div_add_mod, get_of_lt _ j.isLt]
  · rw [hok.nr w]
    simp [Sys.sectors, hc]

/-- Slot 3 is written and read. -/
theorem swap_slots_twice : ∃ s, Runs (fun _ => fill BSIZE 0) (fun _ => 0) 0 1 s ∧
    s.done.map (fun x => (x.write, x.page.get 9)) = [(true, 7), (false, 7)] ∧ ∀ w, s.nr w = 8 := by
  obtain ⟨s, hr, hc, hd, hw⟩ := Reach.of_runs
    (.swapwrite (fill PGSIZE 7) 3 :: replicate 80 .run ++ .swapread (fill PGSIZE 0) 3 :: replicate 80 .run)
    (fun s => s.call.isNone ∧ s.done.map (fun x => (x.write, x.page.get 9)) = [(true, 7), (false, 7)] ∧
      ∀ w, s.done.countP (·.write = w) = 1) (Reach.init rfl : Runs (fun _ => fill BSIZE 0) (fun _ => 0) 0 1 _) (by decide +kernel)
  replace hr : Runs (fun _ => fill BSIZE 0) (fun _ => 0) 0 1 s := hr
  obtain ⟨-, -, -, hn, -⟩ := swap_slots hr
  refine ⟨s, hr, hd, fun w => ?_⟩
  rw [hn (isNone_iff_eq_none.mp hc) w, hw w]
  rfl

end Swap

end Xv6.Bio
