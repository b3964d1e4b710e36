import Xv6.Bio.Model
import Xv6.Lib.Leases

/-!
# The invariant of the buffer cache

All buffers start as block `(0, 0)`, so two may have one identity, and the list order says which one `bget` finds. The one further
back is not live: it is not counted in `refcnt` and holds no data.
-/

namespace Xv6.Bio

open Xv6.Lib Function List

def Buf.Live (b : Buf) : Prop := 0 < b.refcnt ∨ b.valid = true

def Stage.holds : Stage → Bool
  | .waiting | .released => false
  | _ => true

def StageOk : Stage → Buf → Prop
  | .reading, b => b.valid = false
  | .held, b | .modified, b => b.valid = true
  | .writing, b => b.dirty = true
  | _, _ => True

/-- The list holds every buffer once, and of two buffers of one identity the one further back is not live. -/
structure LruInv (buf : Fin NBUF → Buf) (lru : List (Fin NBUF)) : Prop where
  mem : ∀ i, i ∈ lru
  nodup : lru.Nodup
  order : lru.Pairwise fun i j => (buf i).key = (buf j).key → ¬ (buf j).Live

/-- The references are those that `refcnt` counts; their buffers keep the identity that was asked for, and at most one
of them holds the sleep lock. -/
structure RefInv (buf : Fin NBUF → Buf) (refs : List (Nat × Ref)) : Prop where
  calls : (refs.map Prod.fst).Nodup
  refcnt : ∀ i, (buf i).refcnt = refs.countP (·.2.buf = i)
  key : ∀ q ∈ refs, (buf q.2.buf).key = q.2.key
  lock : ∀ q ∈ refs, q.2.stage.holds → (buf q.2.buf).lock = some q.2.pid
  excl : refs.Pairwise fun q q' => q.2.buf = q'.2.buf → ¬ (q.2.stage.holds ∧ q'.2.stage.holds)
  stage : ∀ q ∈ refs, StageOk q.2.stage (buf q.2.buf)

/-- Somebody has changed the data of buffer `i` and still has to pass it to `log_write` or `bwrite`. -/
def Changing (refs : List (Nat × Ref)) (i : Fin NBUF) : Prop := ∃ q ∈ refs, q.2.buf = i ∧ q.2.stage = .modified

/-- Valid buffers hold the contents of their blocks, and a block that is not current on disk has a valid buffer that is
pinned or still being changed. -/
structure DataInv (d0 : Key → Block) (s : State) : Prop where
  dirtyValid : ∀ i, (s.buf i).dirty → (s.buf i).valid
  current : ∀ i, (s.buf i).valid → (s.buf i).data = contents d0 s.trace (s.buf i).key
  disk : ∀ k, s.disk k = contents d0 s.trace k ∨
    ∃ i, (s.buf i).key = k ∧ (s.buf i).valid ∧ ((s.buf i).dirty ∨ Changing s.refs i)
  coherent : Coherent d0 s.trace

structure Inv (d0 : Key → Block) (s : State) : Prop where
  lru : LruInv s.buf s.lru
  refs : RefInv s.buf s.refs
  data : DataInv d0 s
  panics : ∀ p, s.panicked = some p → p = .noBuffers

theorem mem_binit (i : Fin NBUF) : i ∈ binit := by simp [binit]

theorem inv_boot (d0 : Key → Block) : Inv d0 (.boot d0) := by
  refine ⟨⟨mem_binit, ?_, ?_⟩, ⟨nodup_nil, fun _ => rfl, ?_, ?_, .nil, ?_⟩, ⟨?_, ?_, fun _ => .inl rfl, coherent_nil⟩, ?_⟩
  · simpa [State.boot, binit] using nodup_finRange NBUF
  · exact pairwise_of_forall (fun _ _ _ h => by simp [Buf.Live, State.boot] at h)
  all_goals simp [State.boot]

variable {d0 : Key → Block} {s : State} {buf : Fin NBUF → Buf} {lru : List (Fin NBUF)} {refs : List (Nat × Ref)}
variable {i j : Fin NBUF} {c : Nat} {r : Ref} {l1 l2 : List (Nat × Ref)}

/-! ## One live buffer per block -/

theorem LruInv.unique (h : LruInv buf lru) (hk : (buf i).key = (buf j).key) (hi : (buf i).Live) (hj : (buf j).Live) : i = j := by
  obtain ⟨as, bs, rfl⟩ := append_of_mem (h.mem i)
  have ho := h.order
  have hm := h.mem j
  rw [pairwise_append, pairwise_cons] at ho
  rw [mem_append, mem_cons] at hm
  rcases hm with hm | rfl | hm
  · exact absurd hi (ho.2.2 j hm i mem_cons_self hk.symm)
  · rfl
  · exact absurd hj (ho.2.1.1 j hm hk)

theorem cached_spec {k : Key} (hc : cached s k = some i) :
    (s.buf i).key = k ∧ ∃ as bs, s.lru = as ++ i :: bs ∧ ∀ j ∈ as, (s.buf j).key ≠ k := by
  rw [Bio.cached, find?_eq_some_iff_append] at hc
  obtain ⟨hi, as, bs, hl, has⟩ := hc
  refine ⟨Prod.ext (of_decide_eq_true hi).1 (of_decide_eq_true hi).2, as, bs, hl, fun j hj hk => ?_⟩
  have := has j hj
  simp only [Buf.key, Prod.ext_iff] at hk
  simp [hk] at this

theorem LruInv.not_cached (h : LruInv s.buf s.lru) {k : Key} (hc : Bio.cached s k = none) (j : Fin NBUF) : (s.buf j).key ≠ k := by
  rintro rfl
  rw [Bio.cached, find?_eq_none] at hc
  exact hc j (h.mem j) (by simp [Buf.key])

theorem unused_spec (hu : unused s = some i) : (s.buf i).refcnt = 0 ∧ (s.buf i).dirty = false :=
  of_decide_eq_true (find?_some hu :)

section

variable {b : Buf}

theorem key_update (hk : b.key = (buf i).key) (j : Fin NBUF) : (update buf i b j).key = (buf j).key := by
  by_cases hj : j = i
  · subst hj; rw [update_self, hk]
  · rw [update_of_ne hj]

theorem LruInv.keep (h : LruInv buf lru) (hk : b.key = (buf i).key) (hb : b.Live → (buf i).Live) : LruInv (update buf i b) lru := by
  refine ⟨h.mem, h.nodup, h.order.imp fun {a j} haj hkey hj => ?_⟩
  rw [key_update hk, key_update hk] at hkey
  refine haj hkey ?_
  by_cases hi : j = i
  · subst hi; rw [update_self] at hj; exact hb hj
  · rwa [update_of_ne hi] at hj

/-- The first buffer of its identity may come to life. -/
theorem LruInv.first {as bs : List (Fin NBUF)} (h : LruInv buf lru) (hl : lru = as ++ i :: bs)
    (has : ∀ j ∈ as, (buf j).key ≠ (buf i).key) (hk : b.key = (buf i).key) : LruInv (update buf i b) lru := by
  refine ⟨h.mem, h.nodup, ?_⟩
  have ho := h.order.and h.nodup
  subst hl
  rw [pairwise_append] at ho ⊢
  have hrest : ∀ {a j : Fin NBUF}, j ≠ i → ((buf a).key = (buf j).key → ¬ (buf j).Live) →
      (update buf i b a).key = (update buf i b j).key → ¬ (update buf i b j).Live := by
    intro a j hj haj hkey
    rw [key_update hk, key_update hk] at hkey
    rw [update_of_ne hj]
    exact haj hkey
  refine ⟨?_, ?_, ?_⟩
  · exact ho.1.imp_of_mem fun {a j} _ hj haj => hrest (by rintro rfl; exact has j hj rfl) haj.1
  · rw [pairwise_cons] at ho ⊢
    have hne : ∀ j ∈ bs, j ≠ i := fun j hj e => (ho.2.1.1 j hj).2 e.symm
    exact ⟨fun j hj => hrest (hne j hj) (ho.2.1.1 j hj).1,
      ho.2.1.2.imp_of_mem fun {a j} _ hj haj => hrest (hne j hj) haj.1⟩
  · intro a ha j hj hkey
    by_cases hji : j = i
    · subst hji
      rw [key_update hk, key_update hk] at hkey
      exact absurd hkey (has a ha)
    · exact hrest hji (ho.2.2 a ha j hj).1 hkey

theorem LruInv.rename (h : LruInv buf lru) (hnew : ∀ j, (buf j).key ≠ b.key) : LruInv (update buf i b) lru := by
  refine ⟨h.mem, h.nodup, (h.order.and h.nodup).imp fun {a j} ⟨haj, hne⟩ => ?_⟩
  by_cases ha : a = i
  · subst ha
    rw [update_self, update_of_ne hne.symm]
    exact fun hk => absurd hk.symm (hnew j)
  · rw [update_of_ne ha]
    by_cases hj : j = i
    · subst hj
      rw [update_self]
      exact fun hk => absurd hk (hnew a)
    · rw [update_of_ne hj]; exact haj

theorem LruInv.front (h : LruInv buf lru) (hi : (buf i).Live) : LruInv buf (i :: lru.erase i) := by
  refine ⟨fun j => ?_, ?_, ?_⟩
  · by_cases hj : j = i
    · exact hj ▸ mem_cons_self
    · exact mem_cons_of_mem _ ((mem_erase_of_ne hj).mpr (h.mem j))
  · exact nodup_cons.mpr ⟨h.nodup.not_mem_erase, h.nodup.erase i⟩
  · refine pairwise_cons.mpr ⟨fun j hj hk hlive => ?_, h.order.sublist erase_sublist⟩
    obtain rfl := h.unique hk hi hlive
    exact h.nodup.not_mem_erase hj

end

/-! ## The buffer of a reference -/

theorem RefInv.leases (h : RefInv buf refs) :
    Leases Ref.buf Ref.pid (·.stage.holds) (fun i => (buf i).refcnt) (fun i => (buf i).lock) refs :=
  ⟨h.calls, h.refcnt, h.lock, h.excl⟩

theorem RefInv.counted (h : RefInv buf (l1 ++ (c, r) :: l2)) : 0 < (buf r.buf).refcnt :=
  h.leases.counted (q := (c, r)) (by simp)

theorem RefInv.not_counted (h : RefInv buf refs) (hi : (buf i).refcnt = 0) {q : Nat × Ref} (hq : q ∈ refs) : q.2.buf ≠ i := by
  rintro rfl
  have := h.leases.counted hq
  omega

theorem Changing.split {i : Fin NBUF} : Changing (l1 ++ (c, r) :: l2) i ↔ (r.buf = i ∧ r.stage = .modified) ∨ Changing (l1 ++ l2) i := by
  simp only [Changing, mem_append, mem_cons]
  constructor
  · rintro ⟨q, hq | rfl | hq, h⟩
    · exact .inr ⟨q, .inl hq, h⟩
    · exact .inl h
    · exact .inr ⟨q, .inr hq, h⟩
  · rintro (h | ⟨q, hq | hq, h⟩)
    · exact ⟨(c, r), .inr (.inl rfl), h⟩
    · exact ⟨q, .inl hq, h⟩
    · exact ⟨q, .inr (.inr hq), h⟩

theorem RefInv.not_changing (h : RefInv buf (l1 ++ (c, r) :: l2)) (hr : r.stage.holds ∨ (buf r.buf).lock = none) :
    ¬ Changing (l1 ++ l2) r.buf := by
  rintro ⟨q, hq, hb, hs⟩
  have := h.leases.alone hr hq hb
  rw [hs] at this
  cases this

theorem Inv.disk_self (h : Inv d0 s) (hl : s.refs = l1 ++ (c, r) :: l2) (hr : r.stage.holds ∨ (s.buf r.buf).lock = none) :
    s.disk (s.buf r.buf).key = contents d0 s.trace (s.buf r.buf).key ∨
      (s.buf r.buf).valid ∧ ((s.buf r.buf).dirty ∨ r.stage = .modified) := by
  have href := h.refs
  rw [hl] at href
  rcases h.data.disk (s.buf r.buf).key with hd | ⟨j, hk, hv, hw⟩
  · exact .inl hd
  · obtain rfl := h.lru.unique hk (.inr hv) (.inl href.counted)
    refine .inr ⟨hv, hw.imp_right fun hc => ?_⟩
    rw [hl, Changing.split] at hc
    rcases hc with hc | hc
    · exact hc.2
    · exact absurd hc (href.not_changing hr)

end Xv6.Bio
