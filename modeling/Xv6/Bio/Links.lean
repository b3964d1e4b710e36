import Xv6.Bio.Model
import Xv6.Lib.Circle
import Xv6.Lib.Trans

/-!
# The list of buffers (`bio.c`)

`released` says when a buffer was last released, 0 standing for never, and `dropped` whether its last user did so.
-/

namespace Xv6.Bio.Links

open Xv6.Lib Function List Option

/-- `bcache.head` is `none`. -/
abbrev Node : Type := Option (Fin NBUF)

structure Cache where
  buf : Fin NBUF → Buf
  next : Node → Node
  prev : Node → Node
  clock : Nat
  released : Fin NBUF → Nat
  dropped : Fin NBUF → Bool

def Cache.link (x : Cache) (b : Fin NBUF) : Cache :=
  let next := update x.next (some b) (x.next none)  -- b->next = bcache.head.next
  let prev := update x.prev (some b) none           -- b->prev = &bcache.head
  let prev := update prev (next none) (some b)      -- bcache.head.next->prev = b
  let next := update next none (some b)             -- bcache.head.next = b
  { x with next, prev }

def Cache.unlink (x : Cache) (b : Fin NBUF) : Cache :=
  let prev := update x.prev (x.next (some b)) (x.prev (some b))  -- b->next->prev = b->prev
  let next := update x.next (prev (some b)) (x.next (some b))    -- b->prev->next = b->next
  { x with next, prev }

/-- `binit` before its loop. The pointers of the buffers are set before they are followed. -/
def empty : Cache where
  buf := fun _ => ⟨false, false, 0, 0, none, 0, Bytes.fill BSIZE 0⟩
  next := fun _ => none
  prev := fun _ => none
  clock := 0
  released := fun _ => 0
  dropped := fun _ => false

def binit : Cache := (finRange NBUF).foldl Cache.link empty

/-- A loop of `bget` that follows `f` back to the head, in at most `k` passes. -/
def find (f : Node → Node) (p : Fin NBUF → Bool) : Nat → Node → Option (Option (Fin NBUF))
  | 0, _ => none
  | _ + 1, none => some none
  | k + 1, some b => if p b then some (some b) else find f p k (f (some b))

def Cache.bget (x : Cache) (dev blockno : Nat) : Option (Fin NBUF × Cache) := do
  let set b v := (b, { x with buf := update x.buf b v })
  match ← find x.next (fun b => (x.buf b).dev = dev ∧ (x.buf b).blockno = blockno) (NBUF + 1) (x.next none) with
  | some b => return set b { x.buf b with refcnt := (x.buf b).refcnt + 1 }
  | none =>
    match ← find x.prev (fun b => (x.buf b).refcnt = 0 ∧ (x.buf b).dirty = false) (NBUF + 1) (x.prev none) with
    | some b => return set b { x.buf b with dev, blockno, valid := false, dirty := false, refcnt := 1 }
    | none => none

def Cache.brelse (x : Cache) (b : Fin NBUF) : Option Cache :=
  if (x.buf b).refcnt = 0 then none
  else
    let n := (x.buf b).refcnt - 1
    let x := { x with buf := update x.buf b { x.buf b with refcnt := n } }
    if n = 0 then some ((x.unlink b).link b) else some x

/-- What the specification notes of a `brelse` of buffer `b`. -/
def Cache.stamp (x : Cache) (b : Fin NBUF) : Cache :=
  { x with
    clock := x.clock + 1, released := update x.released b (x.clock + 1)
    dropped := update x.dropped b ((x.buf b).refcnt = 0) }

inductive Act where
  | bget (dev blockno : Nat)
  | brelse (b : Fin NBUF)
  | flags (b : Fin NBUF) (valid dirty : Bool)

def step (x : Cache) : Act → Option Cache
  | .bget dev blockno => (x.bget dev blockno).map Prod.snd
  | .brelse b => (x.brelse b).map (·.stamp b)
  | .flags b valid dirty => some { x with buf := update x.buf b { x.buf b with valid, dirty } }

def Runs : Cache → Prop := Reach (· = binit) step fun _ _ => True

variable {x x' : Cache} {b i : Fin NBUF} {l : List (Fin NBUF)} {f : Node → Node} {a : Node} {k : Nat} {moved : Fin NBUF → Nat}

/-! ## The pointers -/

theorem find_walk (p : Fin NBUF → Bool) (h : Walk f a (l.map some) none) (hk : l.length < k) : find f p k a = some (l.find? p) := by
  induction l generalizing a k with
  | nil =>
    obtain rfl : a = none := h
    cases k with
    | zero => cases hk
    | succ k => rfl
  | cons b l ih =>
    obtain ⟨rfl, h⟩ := h
    cases k with
    | zero => cases hk
    | succ k =>
      rw [find, find?_cons, ih h (Nat.lt_of_succ_lt_succ hk)]
      cases p b <;> rfl

structure Lists (next prev : Node → Node) (l : List (Fin NBUF)) : Prop where
  linked : Linked next prev (none :: l.map some)
  nodup : l.Nodup

theorem nodup_nodes (h : l.Nodup) : ((none : Node) :: l.map some).Nodup :=
  nodup_cons.mpr ⟨by simp, h.map (some_injective _)⟩

section

variable (h : Lists x.next x.prev l)
include h

theorem Lists.next : Walk x.next (x.next none) (l.map some) none := h.linked.next.walk

theorem Lists.prev : Walk x.prev (x.prev none) (l.reverse.map some) none := by
  have hp := h.linked.prev
  rw [reverse_cons, ← map_reverse] at hp
  exact hp.turn.walk

theorem Lists.length : l.length < NBUF + 1 := by
  have := h.nodup.length_le_card
  rw [Fintype.card_fin] at this
  omega

theorem Lists.link (hb : b ∉ l) : Lists (x.link b).next (x.link b).prev (b :: l) := by
  refine ⟨?_, nodup_cons.mpr ⟨hb, h.nodup⟩⟩
  have hl := h.linked.link (b := some b) (nodup_nodes h.nodup) (by simpa using hb)
  simp only [Cache.link, update_of_ne (some_ne_none b).symm]
  exact hl

theorem Lists.unlink (hb : b ∈ l) : Lists (x.unlink b).next (x.unlink b).prev (l.erase b) := by
  refine ⟨?_, h.nodup.erase b⟩
  obtain ⟨l1, l2, hn, rfl, he⟩ := exists_erase_eq hb
  have hl := h.linked
  have hd := nodup_nodes h.nodup
  rw [he]
  simp only [map_append, map_cons, ← cons_append] at hl hd ⊢
  have ht : Linked x.next x.prev (some b :: (l2.map some ++ none :: l1.map some)) := hl.turn
  have hd' : (some b :: (l2.map some ++ none :: l1.map some)).Nodup := perm_append_comm.nodup hd
  have hne : x.next (some b) ≠ some b := by
    obtain ⟨q, m, hm⟩ : ∃ q m, l2.map some ++ none :: l1.map some = q :: m := exists_cons_of_ne_nil (by simp)
    rw [hm] at ht hd'
    rw [Circle.next (show Circle x.next ([] ++ some b :: q :: m) from ht.next)]
    rintro rfl
    simp at hd'
  simp only [Cache.unlink, update_of_ne hne.symm]
  exact (ht.unlink hd' (by simp)).turn

end

/-! ## The order -/

/-- The list is in the order of the releases that moved a buffer, the last one first. -/
structure Ok (x : Cache) (l : List (Fin NBUF)) (moved : Fin NBUF → Nat) : Prop where
  lists : Lists x.next x.prev l
  mem : ∀ b, b ∈ l
  order : l.Pairwise fun i j => moved j < moved i ∨ moved j = 0
  bound : ∀ b, moved b ≤ x.clock
  pos : ∀ b, x.dropped b = true → 0 < moved b
  idle : ∀ b, x.dropped b = true ∨ (x.buf b).refcnt = 0 → moved b = x.released b

theorem Lists.foldl_link (h : Lists x.next x.prev l) (l' : List (Fin NBUF)) (hn : (l'.reverse ++ l).Nodup) :
    Lists (l'.foldl Cache.link x).next (l'.foldl Cache.link x).prev (l'.reverse ++ l) ∧
      l'.foldl Cache.link x = { x with next := (l'.foldl Cache.link x).next, prev := (l'.foldl Cache.link x).prev } := by
  induction l' generalizing x l with
  | nil => exact ⟨h, rfl⟩
  | cons b l' ih =>
    rw [reverse_cons, append_assoc] at hn ⊢
    exact ih (h.link (nodup_cons.mp (nodup_append.mp hn).2.1).1) hn

theorem ok_binit : ∃ l moved, Ok binit l moved := by
  have h0 : Lists empty.next empty.prev [] := ⟨⟨rfl, rfl⟩, .nil⟩
  have h := h0.foldl_link (finRange NBUF) (by simpa using nodup_finRange NBUF)
  refine ⟨_, fun _ => 0, h.1, by simp, pairwise_of_forall fun _ _ => .inr rfl, fun _ => Nat.zero_le _, fun b hb => ?_, fun b _ => ?_⟩
  · rw [binit, h.2] at hb
    cases hb
  · rw [binit, h.2]
    rfl

theorem Ok.setBuf (h : Ok x l moved) {v : Buf} (hv : v.refcnt = 0 → (x.buf b).refcnt = 0) :
    Ok { x with buf := update x.buf b v } l moved := by
  refine { h with idle := fun i hi => h.idle i (hi.imp id fun hr => ?_) }
  by_cases hib : i = b
  · subst hib
    simp only [update_self] at hr
    exact hv hr
  · simp only [update_of_ne hib] at hr
    exact hr

theorem Ok.brelse (h : Ok x l moved) (hx : x.brelse b = some x') : ∃ l moved, Ok (x'.stamp b) l moved := by
  unfold Cache.brelse at hx
  split at hx
  · cases hx
  · dsimp only at hx
    split at hx <;> rename_i hr hn <;> cases hx
    · have hm (i : Fin NBUF) : i ∈ l.erase b ↔ i ≠ b := by rw [h.lists.nodup.mem_erase_iff, and_iff_left (h.mem i)]
      refine ⟨b :: l.erase b, update moved b (x.clock + 1), (h.lists.unlink (h.mem b)).link (by simp [hm]), fun i => ?_,
        pairwise_cons.mpr ⟨fun i hi => ?_, ?_⟩, fun i => ?_, fun i hi => ?_, fun i hi => ?_⟩
      · rw [mem_cons, hm]
        exact em _
      · rw [update_self, update_of_ne ((hm i).mp hi)]
        exact .inl (Nat.lt_succ_of_le (h.bound i))
      · refine (h.order.sublist erase_sublist).imp_of_mem fun {i j} hi hj ho => ?_
        rwa [update_of_ne ((hm i).mp hi), update_of_ne ((hm j).mp hj)]
      all_goals by_cases hib : i = b
      · subst hib
        rw [update_self]
        rfl
      · rw [update_of_ne hib]
        exact (h.bound i).trans (Nat.le_succ _)
      · subst hib
        rw [update_self]
        exact Nat.succ_pos _
      · rw [update_of_ne hib]
        simp only [Cache.stamp, Cache.link, Cache.unlink, update_of_ne hib] at hi
        exact h.pos i hi
      · subst hib
        simp [Cache.stamp, Cache.link, Cache.unlink]
      · simp only [Cache.stamp, Cache.link, Cache.unlink, update_of_ne hib] at hi ⊢
        exact h.idle i hi
    · refine ⟨l, moved, h.lists, h.mem, h.order, fun i => (h.bound i).trans (Nat.le_succ _), fun i hi => ?_, fun i hi => ?_⟩ <;>
        by_cases hib : i = b
      · subst hib
        simp [Cache.stamp, hn] at hi
      · simp only [Cache.stamp, update_of_ne hib] at hi
        exact h.pos i hi
      · subst hib
        simp [Cache.stamp, hn] at hi
      · simp only [Cache.stamp, update_of_ne hib] at hi ⊢
        exact h.idle i hi

def Cache.model (x : Cache) (l : List (Fin NBUF)) : State := { State.boot fun _ => Bytes.fill BSIZE 0 with buf := x.buf, lru := l }

theorem Ok.cached (h : Ok x l moved) (dev blockno : Nat) :
    find x.next (fun b => (x.buf b).dev = dev ∧ (x.buf b).blockno = blockno) (NBUF + 1) (x.next none) =
      some (cached (x.model l) (dev, blockno)) :=
  find_walk _ h.lists.next h.lists.length

theorem Ok.unused (h : Ok x l moved) :
    find x.prev (fun b => (x.buf b).refcnt = 0 ∧ (x.buf b).dirty = false) (NBUF + 1) (x.prev none) = some (unused (x.model l)) :=
  find_walk _ h.lists.prev (by rw [length_reverse]; exact h.lists.length)

theorem Ok.step (h : Ok x l moved) {a : Act} (hx : step x a = some x') : ∃ l moved, Ok x' l moved := by
  cases a with
  | bget dev blockno =>
    simp only [Links.step, Cache.bget, h.cached, h.unused, bind_eq_bind, bind_some] at hx
    split at hx
    · cases hx
      exact ⟨l, moved, h.setBuf (by simp)⟩
    · split at hx
      · cases hx
        exact ⟨l, moved, h.setBuf (by simp)⟩
      · cases hx
  | brelse b =>
    obtain ⟨y, hy, rfl⟩ := map_eq_some_iff.mp hx
    exact h.brelse hy
  | flags b valid dirty =>
    cases hx
    exact ⟨l, moved, h.setBuf id⟩

theorem Runs.ok (h : Runs x) : ∃ l moved, Ok x l moved := by
  refine Reach.inv (P := fun x => ∃ l moved, Ok x l moved) ?_ ?_ h
  · rintro _ rfl
    exact ok_binit
  · rintro x a x' ⟨l, moved, hx⟩ _ hst
    exact hx.step hst

/-- What `bget` recycles was not released after any other buffer that it could have recycled. -/
theorem Ok.oldest (h : Ok x l moved) (hb : Bio.unused (x.model l) = some b) :
    (x.buf b).refcnt = 0 ∧ (x.buf b).dirty = false ∧
      ∀ i, (x.buf i).refcnt = 0 → (x.buf i).dirty = false → x.released b ≤ x.released i := by
  obtain ⟨hp, as, bs, hl, has⟩ := find?_eq_some_iff_append.mp hb
  obtain ⟨hr, hd⟩ : (x.buf b).refcnt = 0 ∧ (x.buf b).dirty = false := of_decide_eq_true hp
  have ho := pairwise_reverse.mpr h.order
  rw [show l.reverse = as ++ b :: bs from hl] at ho
  refine ⟨hr, hd, fun i hi hdi => ?_⟩
  rw [← h.idle b (.inr hr), ← h.idle i (.inr hi)]
  have hmem : i ∈ as ++ b :: bs := hl ▸ mem_reverse.mpr (h.mem i)
  rcases mem_append.mp hmem with ha | ha
  · exact absurd (has i ha) (by simp [Cache.model, hi, hdi])
  · rcases mem_cons.mp ha with rfl | ha
    · exact le_rfl
    · have := (pairwise_cons.mp (pairwise_append.mp ho).2.1).1 i ha
      omega

theorem list_integrity (h : Runs x) :
    ∃ l : List (Fin NBUF), l.Nodup ∧ (∀ b, b ∈ l) ∧ Walk x.next (x.next none) (l.map some) none ∧
      Walk x.prev (x.prev none) (l.reverse.map some) none ∧
      (l.Pairwise fun i j => x.dropped i = true → x.dropped j = true → x.released j < x.released i) ∧
      ∀ dev blockno b x', x.bget dev blockno = some (b, x') → (∀ i, ¬ ((x.buf i).dev = dev ∧ (x.buf i).blockno = blockno)) →
        (x.buf b).refcnt = 0 ∧ (x.buf b).dirty = false ∧
          ∀ i, (x.buf i).refcnt = 0 → (x.buf i).dirty = false → x.released b ≤ x.released i := by
  obtain ⟨l, moved, hok⟩ := h.ok
  refine ⟨l, hok.lists.nodup, hok.mem, hok.lists.next, hok.lists.prev, hok.order.imp fun {i j} ho hi hj => ?_,
    fun dev blockno b x' hx hn => ?_⟩
  · rw [← hok.idle i (.inl hi), ← hok.idle j (.inl hj)]
    have := hok.pos j hj
    omega
  · simp only [Cache.bget, hok.cached, hok.unused, bind_eq_bind, bind_some] at hx
    have hc : cached (x.model l) (dev, blockno) = none := find?_eq_none.mpr fun i _ hi => hn i (of_decide_eq_true hi)
    rw [hc] at hx
    dsimp only at hx
    split at hx
    · rename_i hb
      cases hx
      exact hok.oldest hb
    · cases hx

def buf0 : Fin NBUF := ⟨0, by decide⟩

def buf1 : Fin NBUF := ⟨1, by decide⟩

/-- Buffer 0 is recycled first, and once it has been released buffer 1 comes next. -/
theorem list_integrity_first_use : ∃ x x', Runs x ∧ x.bget 1 6 = some (buf1, x') ∧ x.released buf1 ≤ x.released buf0 := by
  obtain ⟨x, hr, h1, h2, hn, hb⟩ := Reach.of_runs [.bget 1 5, .brelse buf0] (fun x => (x.buf buf0).refcnt = 0 ∧ (x.buf buf0).dirty = false ∧
    (∀ i, ¬ ((x.buf i).dev = 1 ∧ (x.buf i).blockno = 6)) ∧ (x.bget 1 6).map Prod.fst = some buf1) (Reach.init rfl : Runs binit)
    (by decide +kernel)
  replace hr : Runs x := hr
  obtain ⟨⟨b, x'⟩, hb', rfl⟩ := map_eq_some_iff.mp hb
  obtain ⟨l, -, -, -, -, -, h⟩ := list_integrity hr
  exact ⟨x, x', hr, hb', (h 1 6 _ x' hb' hn).2.2 buf0 h1 h2⟩

end Xv6.Bio.Links
