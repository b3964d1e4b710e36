import Xv6.Bio.Lemmas.Invariant

/-!
# What one action of the buffer cache does

`Use` lists the actions of a process on its own buffer, and `UseOk` is what they have in common.
-/

namespace Xv6.Bio

open Xv6.Lib Function Option State Assoc

/-! ## Actions on one's own buffer -/

/-- The buffer, the stage and the disk after an action of call `c` with reference `r`, and what it reads or writes. -/
inductive Use (s : State) (c : Nat) (r : Ref) : Act → Buf → Stage → (Key → Block) → List (Event Key Block) → Prop where
  | acquire : r.stage = .waiting → (s.buf r.buf).lock = none →
      Use s c r (.acquiresleep c) { s.buf r.buf with lock := some r.pid } .locked s.disk []
  | miss : r.stage = .locked → (s.buf r.buf).valid = false → Use s c r (.bread c) (s.buf r.buf) .reading s.disk []
  | hit : r.stage = .locked → (s.buf r.buf).valid = true →
      Use s c r (.bread c) (s.buf r.buf) .held s.disk [.read r.key (s.buf r.buf).data]
  | fill : r.stage = .reading → (s.buf r.buf).dirty = false →
      Use s c r (.iderw c) { s.buf r.buf with valid := true, data := s.disk (s.buf r.buf).key } .held s.disk
        [.read r.key (s.disk (s.buf r.buf).key)]
  | flush : r.stage = .writing →
      Use s c r (.iderw c) { s.buf r.buf with valid := true, dirty := false } .held
        (update s.disk (s.buf r.buf).key (s.buf r.buf).data) []
  | modify (v : Block) : r.stage = .held ∨ r.stage = .modified →
      Use s c r (.modify c v) { s.buf r.buf with data := v } .modified s.disk [.write r.key v]
  | log : r.stage = .held ∨ r.stage = .modified →
      Use s c r (.logWrite c) { s.buf r.buf with dirty := true } .held s.disk []
  | write : r.stage = .held ∨ r.stage = .modified →
      Use s c r (.bwrite c) { s.buf r.buf with dirty := true } .writing s.disk []
  | release : r.stage = .held → Use s c r (.releasesleep c) { s.buf r.buf with lock := none } .released s.disk []

structure UseOk (d0 : Key → Block) (s : State) (r : Ref) (b : Buf) (st : Stage) (d : Key → Block)
    (tr : List (Event Key Block)) : Prop where
  entitled : r.stage.holds ∨ (s.buf r.buf).lock = none
  key : b.key = (s.buf r.buf).key
  refcnt : b.refcnt = (s.buf r.buf).refcnt
  lock : st.holds → b.lock = some r.pid
  stage : StageOk st b
  dirtyValid : b.dirty → b.valid
  current : b.valid → b.data = contents d0 (s.trace ++ tr) (s.buf r.buf).key
  frame : ∀ k, k ≠ (s.buf r.buf).key → d k = s.disk k ∧ contents d0 (s.trace ++ tr) k = contents d0 s.trace k
  disk : d (s.buf r.buf).key = contents d0 (s.trace ++ tr) (s.buf r.buf).key ∨ b.valid ∧ (b.dirty ∨ st = .modified)
  coherent : Coherent d0 (s.trace ++ tr)

variable {d0 : Key → Block} {s s' : State} {c : Nat} {r : Ref} {l1 l2 : List (Nat × Ref)} {a : Act}

theorem holds_of_held {st : Stage} (h : st = .held ∨ st = .modified) : st.holds := by
  rcases h with rfl | rfl <;> rfl

theorem valid_of_held {st : Stage} {b : Buf} (h : st = .held ∨ st = .modified) (hs : StageOk st b) : b.valid = true := by
  rcases h with rfl | rfl <;> exact hs

/-- An action that reads and writes no data. -/
theorem Inv.quiet {b : Buf} {st : Stage} (h : Inv d0 s) (he : r.stage.holds ∨ (s.buf r.buf).lock = none)
    (hk : b.key = (s.buf r.buf).key) (hc : b.refcnt = (s.buf r.buf).refcnt) (hl : st.holds → b.lock = some r.pid)
    (hs : StageOk st b) (hdv : b.dirty → b.valid) (hv : b.valid = (s.buf r.buf).valid) (hd : b.data = (s.buf r.buf).data)
    (hdisk : s.disk (s.buf r.buf).key = contents d0 s.trace (s.buf r.buf).key ∨ b.valid ∧ (b.dirty ∨ st = .modified)) :
    UseOk d0 s r b st s.disk [] := by
  refine ⟨he, hk, hc, hl, hs, hdv, ?_, fun k _ => ⟨rfl, ?_⟩, ?_, ?_⟩
  · simpa [hv, hd] using h.data.current r.buf
  · simp
  · simpa using hdisk
  · simpa using h.data.coherent

theorem Use.ok {b : Buf} {st : Stage} {d : Key → Block} {tr : List (Event Key Block)} (h : Inv d0 s)
    (hl : s.refs = l1 ++ (c, r) :: l2) (hu : Use s c r a b st d tr) : UseOk d0 s r b st d tr := by
  have hmem : (c, r) ∈ s.refs := by simp [hl]
  have hkey := h.refs.key _ hmem
  have hlock := h.refs.lock _ hmem
  have hstage := h.refs.stage _ hmem
  have hdv := h.data.dirtyValid r.buf
  have hcur := h.data.current r.buf
  have hself := h.disk_self hl
  simp only at hkey hlock hstage
  cases hu with
  | acquire hw hn => exact h.quiet (.inr hn) rfl rfl (fun _ => rfl) trivial hdv rfl rfl (by simpa [hw] using hself (.inr hn))
  | miss hs hv =>
    have hh : r.stage.holds := by rw [hs]; rfl
    exact h.quiet (.inl hh) rfl rfl (fun _ => hlock hh) hv hdv rfl rfl (by simpa [hs] using hself (.inl hh))
  | hit hs hv =>
    have hh : r.stage.holds := by rw [hs]; rfl
    refine ⟨.inl hh, rfl, rfl, fun _ => hlock hh, hv, hdv, ?_, fun k _ => ⟨rfl, ?_⟩, ?_, ?_⟩
    · simpa using hcur
    · simp
    · simpa [hs] using hself (.inl hh)
    · exact h.data.coherent.read (hkey ▸ hcur hv)
  | fill hs hd =>
    have hh : r.stage.holds := by rw [hs]; rfl
    rw [hs] at hstage
    have hnv : (s.buf r.buf).valid = false := hstage
    have hdisk : s.disk (s.buf r.buf).key = contents d0 s.trace (s.buf r.buf).key := by
      simpa [hnv] using hself (.inl hh)
    refine ⟨.inl hh, rfl, rfl, fun _ => hlock hh, rfl, fun _ => rfl, fun _ => ?_, fun k _ => ⟨rfl, ?_⟩, .inl ?_, ?_⟩
    · simpa using hdisk
    · simp
    · simpa using hdisk
    · exact h.data.coherent.read (hkey ▸ hdisk)
  | flush hs =>
    have hh : r.stage.holds := by rw [hs]; rfl
    rw [hs] at hstage
    have hdata := hcur (hdv hstage)
    refine ⟨.inl hh, rfl, rfl, fun _ => hlock hh, rfl, fun _ => rfl, fun _ => ?_, fun k hk => ⟨?_, ?_⟩, .inl ?_, ?_⟩
    · simpa using hdata
    · exact update_of_ne hk _ _
    · simp
    · simpa [Buf.key] using hdata
    · simpa using h.data.coherent
  | modify v hs =>
    have hh := holds_of_held hs
    have hv := valid_of_held hs hstage
    refine ⟨.inl hh, rfl, rfl, fun _ => hlock hh, hv, hdv, fun _ => ?_, fun k hk => ⟨rfl, ?_⟩, .inr ⟨hv, .inr rfl⟩, ?_⟩
    · rw [contents_write, ← hkey]; exact (update_self (β := fun _ => Block) _ _ _).symm
    · rw [contents_write, ← hkey]; exact update_of_ne hk _ _
    · exact h.data.coherent.write
  | log hs =>
    have hh := holds_of_held hs
    have hv := valid_of_held hs hstage
    exact h.quiet (.inl hh) rfl rfl (fun _ => hlock hh) hv (fun _ => hv) rfl rfl (.inr ⟨hv, .inl rfl⟩)
  | write hs =>
    have hh := holds_of_held hs
    have hv := valid_of_held hs hstage
    exact h.quiet (.inl hh) rfl rfl (fun _ => hlock hh) rfl (fun _ => hv) rfl rfl (.inr ⟨hv, .inl rfl⟩)
  | release hs =>
    have hh : r.stage.holds := by rw [hs]; rfl
    exact h.quiet (.inl hh) rfl rfl (by simp [Stage.holds]) trivial hdv rfl rfl (by simpa [hs] using hself (.inl hh))

def State.use (s : State) (l1 l2 : List (Nat × Ref)) (c : Nat) (r : Ref) (b : Buf) (st : Stage) (d : Key → Block)
    (tr : List (Event Key Block)) : State :=
  { s with
    buf := update s.buf r.buf b, refs := l1 ++ (c, { r with stage := st }) :: l2
    disk := d, trace := s.trace ++ tr }

section

variable {b : Buf} {st : Stage} {d : Key → Block} {tr : List (Event Key Block)}

theorem UseOk.refs (h : RefInv s.buf (l1 ++ (c, r) :: l2)) (hu : UseOk d0 s r b st d tr) :
    RefInv (update s.buf r.buf b) (l1 ++ (c, { r with stage := st }) :: l2) := by
  have hl : Leases Ref.buf Ref.pid (·.stage.holds) (fun i => (update s.buf r.buf b i).refcnt)
      (fun i => (update s.buf r.buf b i).lock) (l1 ++ (c, { r with stage := st }) :: l2) := by
    refine h.leases.use hu.entitled rfl (fun i => ?_) (fun i hi => ?_) fun hh => ?_
    · by_cases hi : i = r.buf
      · subst hi; rw [update_self, hu.refcnt]
      · rw [update_of_ne hi]
    · rw [update_of_ne hi]
    · rw [update_self]
      exact hu.lock hh
  refine ⟨hl.keys, hl.count, fun q hq => ?_, hl.lock, hl.excl, fun q hq => ?_⟩
  · rw [key_update hu.key]
    rcases mem_split hq with rfl | hq
    · exact h.key (c, r) (by simp)
    · exact h.key q (mem_of_split hq)
  · rcases mem_split hq with rfl | hq
    · rw [update_self]; exact hu.stage
    · by_cases hb : q.2.buf = r.buf
      · have hh := h.leases.alone hu.entitled hq hb
        cases hs : q.2.stage <;> simp only [hs, Stage.holds] at hh <;> trivial
      · rw [update_of_ne hb]; exact h.stage q (mem_of_split hq)

theorem Inv.other_key (h : Inv d0 s) (hc : 0 < (s.buf r.buf).refcnt) {i : Fin NBUF} (hi : i ≠ r.buf)
    (hv : (s.buf i).valid) : (s.buf i).key ≠ (s.buf r.buf).key :=
  fun hk => hi (h.lru.unique hk (.inr hv) (.inl hc))

theorem UseOk.data (h : Inv d0 s) (hl : s.refs = l1 ++ (c, r) :: l2) (hu : UseOk d0 s r b st d tr) :
    DataInv d0 (s.use l1 l2 c r b st d tr) := by
  have href := h.refs
  rw [hl] at href
  have hc := href.counted
  refine ⟨fun i => ?_, fun i hv => ?_, fun k => ?_, hu.coherent⟩
  · simp only [use]
    by_cases hi : i = r.buf
    · subst hi; rw [update_self]; exact hu.dirtyValid
    · rw [update_of_ne hi]; exact h.data.dirtyValid i
  · simp only [use, key_update hu.key] at hv ⊢
    by_cases hi : i = r.buf
    · subst hi; rw [update_self] at hv ⊢; exact hu.current hv
    · rw [update_of_ne hi] at hv ⊢
      rw [(hu.frame _ (h.other_key hc hi hv)).2]
      exact h.data.current i hv
  · simp only [use, key_update hu.key]
    by_cases hk : k = (s.buf r.buf).key
    · subst hk
      refine hu.disk.imp_right fun hd => ⟨r.buf, rfl, ?_, ?_⟩
      · rw [update_self]
        exact hd.1
      · rw [update_self, Changing.split]
        exact hd.2.imp_right fun hs => .inl ⟨rfl, hs⟩
    · rw [(hu.frame k hk).1, (hu.frame k hk).2]
      refine (h.data.disk k).imp_right ?_
      rintro ⟨i, hik, hv, hw⟩
      have hi : i ≠ r.buf := by rintro rfl; exact hk hik.symm
      refine ⟨i, hik, ?_, ?_⟩
      · rwa [update_of_ne hi]
      · rw [update_of_ne hi]
        refine hw.imp_right fun hch => ?_
        rw [hl, Changing.split] at hch
        rw [Changing.split]
        exact .inr (hch.resolve_left fun e => hi e.1.symm)

theorem UseOk.inv (h : Inv d0 s) (hl : s.refs = l1 ++ (c, r) :: l2) (hu : UseOk d0 s r b st d tr) : Inv d0 (s.use l1 l2 c r b st d tr) := by
  have href := h.refs
  rw [hl] at href
  exact ⟨h.lru.keep hu.key (fun _ => .inl href.counted), hu.refs href, hu.data h hl, h.panics⟩

end

/-! ## `bget` and `brelse` -/

theorem RefInv.cons {pid : Nat} {k : Key} {i : Fin NBUF} {b : Buf} (h : RefInv s.buf s.refs)
    (hc : c ∉ s.refs.map Prod.fst) (hb : b.refcnt = (s.buf i).refcnt + 1) (hk : b.key = k)
    (hsame : 0 < (s.buf i).refcnt → b = { s.buf i with refcnt := (s.buf i).refcnt + 1 }) :
    RefInv (update s.buf i b) ((c, ⟨pid, k, i, .waiting⟩) :: s.refs) := by
  -- A buffer that others use already changes its count only.
  have hold : ∀ j, 0 < (s.buf j).refcnt → ∃ n, update s.buf i b j = { s.buf j with refcnt := n } := by
    intro j hj
    by_cases hi : j = i
    · subst hi
      exact ⟨_, by rw [update_self]; exact hsame hj⟩
    · exact ⟨_, update_of_ne hi ..⟩
  have hl : Leases Ref.buf Ref.pid (·.stage.holds) (fun i' => (update s.buf i b i').refcnt)
      (fun i' => (update s.buf i b i').lock) ((c, ⟨pid, k, i, .waiting⟩) :: s.refs) := by
    refine h.leases.cons hc rfl (fun j => ?_) fun j hj => ?_
    · by_cases hj : j = i
      · subst hj; rw [update_self, hb, if_pos rfl]
      · rw [update_of_ne hj, if_neg (Ne.symm hj), add_zero]
    · obtain ⟨n, hn⟩ := hold j (Nat.pos_of_ne_zero hj)
      rw [hn]
  refine ⟨hl.keys, hl.count, fun q hq => ?_, hl.lock, hl.excl, fun q hq => ?_⟩
  · rcases List.mem_cons.mp hq with rfl | hq
    · rw [update_self, hk]
    · obtain ⟨n, hn⟩ := hold _ (h.leases.counted hq)
      rw [hn]
      exact h.key q hq
  · rcases List.mem_cons.mp hq with rfl | hq
    · trivial
    · obtain ⟨n, hn⟩ := hold _ (h.leases.counted hq)
      have hs := h.stage q hq
      rw [hn]
      cases hst : q.2.stage <;> rw [hst] at hs <;> exact hs

theorem Changing.cons {pid : Nat} {k : Key} {i j : Fin NBUF} : Changing ((c, ⟨pid, k, i, .waiting⟩) :: s.refs) j ↔ Changing s.refs j := by
  simp [Changing]

theorem update_refcnt (buf : Fin NBUF → Buf) (i : Fin NBUF) (n : Nat) (j : Fin NBUF) :
    ∃ m, update buf i { buf i with refcnt := n } j = { buf j with refcnt := m } := by
  by_cases hj : j = i
  · subst hj; exact ⟨_, update_self ..⟩
  · exact ⟨_, update_of_ne hj _ _⟩

/-- Counts and the list order have nothing to do with the data. -/
theorem DataInv.recount {refs : List (Nat × Ref)} {lru : List (Fin NBUF)} {i : Fin NBUF} {n : Nat} (h : DataInv d0 s)
    (hch : ∀ j, Changing s.refs j → Changing refs j) :
    DataInv d0 { s with
      buf := update s.buf i { s.buf i with refcnt := n }, refs := refs, lru := lru } := by
  refine ⟨fun j => ?_, fun j => ?_, fun k => ?_, h.coherent⟩
  · obtain ⟨m, hm⟩ := update_refcnt s.buf i n j
    simp only [hm]
    exact h.dirtyValid j
  · obtain ⟨m, hm⟩ := update_refcnt s.buf i n j
    simp only [hm]
    exact h.current j
  · refine (h.disk k).imp_right ?_
    rintro ⟨j, hk, hv, hw⟩
    refine ⟨j, ?_⟩
    obtain ⟨m, hm⟩ := update_refcnt s.buf i n j
    simp only [hm]
    exact ⟨hk, hv, hw.imp_right (hch j)⟩

theorem Inv.hit {pid : Nat} {k : Key} {i : Fin NBUF} (h : Inv d0 s) (hc : c ∉ s.refs.map Prod.fst) (hi : cached s k = some i) :
    Inv d0 { s with
      buf := update s.buf i { s.buf i with refcnt := (s.buf i).refcnt + 1 }
      refs := (c, ⟨pid, k, i, .waiting⟩) :: s.refs } := by
  obtain ⟨rfl, as, bs, hl, has⟩ := cached_spec hi
  exact ⟨h.lru.first hl has rfl, h.refs.cons hc rfl rfl (fun _ => rfl),
    h.data.recount (fun _ => Changing.cons.mpr), h.panics⟩

theorem Inv.recycle {pid dev blockno : Nat} {i : Fin NBUF} (h : Inv d0 s) (hc : c ∉ s.refs.map Prod.fst)
    (hn : cached s (dev, blockno) = none) (hi : unused s = some i) :
    Inv d0 { s with
      buf := update s.buf i { s.buf i with dev, blockno, valid := false, dirty := false, refcnt := 1 }
      refs := (c, ⟨pid, (dev, blockno), i, .waiting⟩) :: s.refs } := by
  obtain ⟨hcnt, hdirty⟩ := unused_spec hi
  refine ⟨h.lru.rename (h.lru.not_cached hn), h.refs.cons hc (by rw [hcnt]) rfl (fun hp => absurd hp (by omega)),
    ⟨fun j => ?_, fun j => ?_, fun k => ?_, h.data.coherent⟩, h.panics⟩
  · by_cases hj : j = i
    · subst hj; simp
    · simp only [update_of_ne hj]; exact h.data.dirtyValid j
  · by_cases hj : j = i
    · subst hj; simp
    · simp only [update_of_ne hj]; exact h.data.current j
  · refine (h.data.disk k).imp_right ?_
    rintro ⟨j, hk, hv, hw⟩
    -- The block of the recycled buffer is current on disk: it was neither pinned nor in use.
    have hj : j ≠ i := by
      rintro rfl
      rcases hw with hw | ⟨q, hq, hqb, _⟩
      · rw [hdirty] at hw; cases hw
      · exact h.refs.not_counted hcnt hq hqb
    refine ⟨j, ?_⟩
    simp only [update_of_ne hj, Changing.cons]
    exact ⟨hk, hv, hw⟩

theorem Inv.brelse (h : Inv d0 s) (hl : s.refs = l1 ++ (c, r) :: l2) (hr : r.stage = .released)
    {lru : List (Fin NBUF)} (hlru : lru = s.lru ∨ lru = r.buf :: s.lru.erase r.buf) :
    Inv d0 { s with
      buf := update s.buf r.buf { s.buf r.buf with refcnt := (s.buf r.buf).refcnt - 1 }
      refs := l1 ++ l2, lru := lru } := by
  have href := h.refs
  rw [hl] at href
  have hlive : (s.buf r.buf).Live := .inl href.counted
  have hsame := update_refcnt s.buf r.buf ((s.buf r.buf).refcnt - 1)
  have hlru' : LruInv s.buf lru := by
    rcases hlru with rfl | rfl
    · exact h.lru
    · exact h.lru.front hlive
  have hleases : Leases Ref.buf Ref.pid (·.stage.holds)
      (fun i => (update s.buf r.buf { s.buf r.buf with refcnt := (s.buf r.buf).refcnt - 1 } i).refcnt)
      (fun i => (update s.buf r.buf { s.buf r.buf with refcnt := (s.buf r.buf).refcnt - 1 } i).lock) (l1 ++ l2) := by
    refine href.leases.drop (fun j => ?_) fun j => ?_
    · by_cases hb : j = r.buf
      · subst hb; rw [update_self, if_pos rfl]
      · rw [update_of_ne hb, if_neg (Ne.symm hb), Nat.sub_zero]
    · obtain ⟨n, hn⟩ := hsame j
      rw [hn]
  refine ⟨hlru'.keep rfl (fun _ => hlive), ⟨hleases.keys, hleases.count, fun q hq => ?_, hleases.lock, hleases.excl, fun q hq => ?_⟩,
    h.data.recount (fun j hch => ?_), h.panics⟩
  · obtain ⟨n, hn⟩ := hsame q.2.buf
    simp only [hn]
    exact href.key q (mem_of_split hq)
  · obtain ⟨n, hn⟩ := hsame q.2.buf
    have hs := href.stage q (mem_of_split hq)
    simp only [hn]
    cases hst : q.2.stage <;> rw [hst] at hs <;> exact hs
  · rw [hl, Changing.split, hr] at hch
    simpa using hch

/-! ## All actions -/

inductive Next (s : State) : Act → State → Prop where
  | hit {c pid dev blockno i} : c ∉ s.refs.map Prod.fst → cached s (dev, blockno) = some i →
      Next s (.bget c pid dev blockno) { s with
        buf := update s.buf i { s.buf i with refcnt := (s.buf i).refcnt + 1 }
        refs := (c, ⟨pid, (dev, blockno), i, .waiting⟩) :: s.refs }
  | recycle {c pid dev blockno i} : c ∉ s.refs.map Prod.fst → cached s (dev, blockno) = none → unused s = some i →
      Next s (.bget c pid dev blockno) { s with
        buf := update s.buf i { s.buf i with dev, blockno, valid := false, dirty := false, refcnt := 1 }
        refs := (c, ⟨pid, (dev, blockno), i, .waiting⟩) :: s.refs }
  | noBuffers {c pid dev blockno} : Next s (.bget c pid dev blockno) { s with panicked := some .noBuffers }
  | use {a c r l1 l2 b st d tr} : s.refs = l1 ++ (c, r) :: l2 → Use s c r a b st d tr →
      Next s a (s.use l1 l2 c r b st d tr)
  | brelse {c r l1 l2 lru} : s.refs = l1 ++ (c, r) :: l2 → r.stage = .released →
      lru = s.lru ∨ lru = r.buf :: s.lru.erase r.buf →
      Next s (.brelse c) { s with
        buf := update s.buf r.buf { s.buf r.buf with refcnt := (s.buf r.buf).refcnt - 1 }
        refs := l1 ++ l2, lru := lru }

theorem Inv.next (h : Inv d0 s) (hn : Next s a s') : Inv d0 s' := by
  cases hn with
  | hit hc hi => exact h.hit hc hi
  | recycle hc hn hi => exact h.recycle hc hn hi
  | noBuffers => exact ⟨h.lru, h.refs, ⟨h.data.dirtyValid, h.data.current, h.data.disk, h.data.coherent⟩, by simp⟩
  | use hl hu => exact (hu.ok h hl).inv h hl
  | brelse hl hr hlru => exact h.brelse hl hr hlru

theorem next_bget {pid dev blockno : Nat} (hst : bget s c pid dev blockno = some s') : Next s (.bget c pid dev blockno) s' := by
  obtain ⟨hc, hst⟩ := ite_none_right_eq_some.mp hst
  have hc := lookup_none hc
  split at hst
  · rename_i i hi
    cases hst; exact .hit hc hi
  · rename_i hi
    split at hst
    · rename_i i hu
      cases hst; exact .recycle hc hi hu
    · cases hst; exact .noBuffers

section

variable (h : Inv d0 s) (hr : s.refs.lookup c = some r)
include h hr

theorem next_use {b : Buf} {st : Stage} {d : Key → Block} {tr : List (Event Key Block)} (hu : Use s c r a b st d tr) :
    Next s a { s with
      buf := update s.buf r.buf b, refs := put s.refs c { r with stage := st }
      disk := d, trace := s.trace ++ tr } := by
  obtain ⟨l1, l2, hl, h1, h2⟩ := split h.refs.calls hr
  have := Next.use hl hu
  rwa [use, ← put_split h1 h2 (o := r), ← hl] at this

theorem Inv.holdingsleep (hh : r.stage.holds) : Bio.holdingsleep s r = true := by
  simpa [Bio.holdingsleep] using h.refs.lock _ (mem_of_lookup hr) hh

theorem next_acquiresleep (hst : acquiresleep s c r = some s') : Next s (.acquiresleep c) s' := by
  obtain ⟨hw, hst⟩ := ite_none_right_eq_some.mp hst
  cases hst
  simpa [setBuf, setRef] using next_use h hr (.acquire hw.1 hw.2)

theorem next_bread (hst : bread s c r = some s') : Next s (.bread c) s' := by
  obtain ⟨hs, hst⟩ := ite_none_right_eq_some.mp hst
  split at hst
  · rename_i hv
    cases hst
    simpa [setRef] using next_use h hr (.miss hs hv)
  · rename_i hv
    cases hst
    simpa [setRef, emit] using next_use h hr (.hit hs (by simpa using hv))

theorem next_iderw (hst : iderw s c r = some s') : Next s (.iderw c) s' := by
  have hstage := h.refs.stage _ (mem_of_lookup hr)
  have hdv := h.data.dirtyValid r.buf
  simp only at hstage
  obtain ⟨hs, hst⟩ := ite_none_right_eq_some.mp hst
  rcases hs with hs | hs
  · rw [hs] at hstage
    have hnv : (s.buf r.buf).valid = false := hstage
    have hnd : (s.buf r.buf).dirty = false := by
      rw [Bool.eq_false_iff]; intro hd; rw [hdv hd] at hnv; cases hnv
    simp only [h.holdingsleep hr (by rw [hs]; rfl), hnv, hnd, sync, hs, Bool.true_eq_false, Bool.false_eq_true,
      false_and, if_false, if_true, some.injEq] at hst
    subst hst
    simpa [setBuf, setRef, emit, hnd] using next_use h hr (.fill hs hnd)
  · rw [hs] at hstage
    have hd : (s.buf r.buf).dirty = true := hstage
    simp only [h.holdingsleep hr (by rw [hs]; rfl), hd, sync, hs, Bool.true_eq_false, and_false, reduceCtorEq,
      if_false, if_true, some.injEq] at hst
    subst hst
    simpa [setBuf, setRef] using next_use h hr (.flush hs)

theorem next_modify {v : Block} (hst : modify s c r v = some s') : Next s (.modify c v) s' := by
  obtain ⟨hs, hst⟩ := ite_none_right_eq_some.mp hst
  cases hst
  simpa [setBuf, setRef, emit] using next_use h hr (.modify v hs)

theorem next_logWrite (hst : logWrite s c r = some s') : Next s (.logWrite c) s' := by
  obtain ⟨hs, hst⟩ := ite_none_right_eq_some.mp hst
  cases hst
  simpa [setBuf, setRef] using next_use h hr (.log hs)

theorem next_bwrite (hst : bwrite s c r = some s') : Next s (.bwrite c) s' := by
  obtain ⟨hs, hst⟩ := ite_none_right_eq_some.mp hst
  simp only [h.holdingsleep hr (holds_of_held hs), Bool.true_eq_false, if_false, some.injEq] at hst
  subst hst
  simpa [setBuf, setRef] using next_use h hr (.write hs)

theorem next_releasesleep (hst : releasesleep s c r = some s') : Next s (.releasesleep c) s' := by
  obtain ⟨hs, hst⟩ := ite_none_right_eq_some.mp hst
  simp only [h.holdingsleep hr (by rw [hs]; rfl), Bool.true_eq_false, if_false, some.injEq] at hst
  subst hst
  simpa [setBuf, setRef] using next_use h hr (.release hs)

theorem next_brelse (hst : brelse s c r = some s') : Next s (.brelse c) s' := by
  obtain ⟨l1, l2, hl, h1, h2⟩ := split h.refs.calls hr
  obtain ⟨hs, hst⟩ := ite_none_right_eq_some.mp hst
  rw [hl, del_split h1 h2] at hst
  split at hst
  · cases hst
    exact .brelse hl hs (.inr rfl)
  · cases hst
    exact .brelse hl hs (.inl rfl)

end

/-- Every step is one of `Next`; in particular the panics other than that of `bget` are never reached. -/
theorem next_of_step (h : Inv d0 s) (hst : step s a = some s') : Next s a s' := by
  obtain ⟨-, hst⟩ := ite_none_right_eq_some.mp hst
  cases a with
  | bget c pid dev blockno => exact next_bget hst
  | acquiresleep c => obtain ⟨r, hr, hst⟩ := bind_eq_some_iff.mp hst; exact next_acquiresleep h hr hst
  | bread c => obtain ⟨r, hr, hst⟩ := bind_eq_some_iff.mp hst; exact next_bread h hr hst
  | iderw c => obtain ⟨r, hr, hst⟩ := bind_eq_some_iff.mp hst; exact next_iderw h hr hst
  | modify c v => obtain ⟨r, hr, hst⟩ := bind_eq_some_iff.mp hst; exact next_modify h hr hst
  | logWrite c => obtain ⟨r, hr, hst⟩ := bind_eq_some_iff.mp hst; exact next_logWrite h hr hst
  | bwrite c => obtain ⟨r, hr, hst⟩ := bind_eq_some_iff.mp hst; exact next_bwrite h hr hst
  | releasesleep c => obtain ⟨r, hr, hst⟩ := bind_eq_some_iff.mp hst; exact next_releasesleep h hr hst
  | brelse c => obtain ⟨r, hr, hst⟩ := bind_eq_some_iff.mp hst; exact next_brelse h hr hst

end Xv6.Bio
