import Xv6.Log.Lemmas.Cache
import Xv6.Log.Lemmas.Step

/-!
# Reservation of log space

One block of the log area is the header, and `log_write` refuses even an absorbed write once the rest is full, so `begin_op` would
have to admit operations with `nlog - 2` in place of `LOGSIZE`.
-/

namespace Xv6.Log

open List

/-- Every operation logs at most `MAXOPBLOCKS` distinct blocks. -/
def Budget (s : State) : Act → Prop
  | .logTest p b => (s.op p).all fun o => (absorb o.wrote b).length ≤ MAXOPBLOCKS
  | _ => True

instance (s : State) : (a : Act) → Decidable (Budget s a)
  | .logTest _ _ => inferInstanceAs (Decidable (_ = true))
  | .beginOp _ | .modify _ _ _ | .logAppend _ | .endOp _ | .commit | .bread _ | .evict _ => .isTrue trivial

def remaining (ops : List (Nat × Op)) : Nat := (ops.map fun q => MAXOPBLOCKS - q.2.wrote.length).sum

/-- When an operation is admitted, what is logged and what may still be logged, its own budget included, stays two
blocks below the size of the log area. -/
def Room (s : State) : Act → Prop
  | .beginOp _ => s.lh.length + remaining s.ops + MAXOPBLOCKS + 2 ≤ s.size
  | _ => True

instance (s : State) : (a : Act) → Decidable (Room s a)
  | .beginOp _ => inferInstanceAs (Decidable (_ ≤ _))
  | .modify _ _ _ | .logTest _ _ | .logAppend _ | .endOp _ | .commit | .bread _ | .evict _ => .isTrue trivial

theorem remaining_split (l1 l2 : List (Nat × Op)) (p : Nat) (o : Op) :
    remaining (l1 ++ (p, o) :: l2) = remaining (l1 ++ l2) + (MAXOPBLOCKS - o.wrote.length) := by
  simp only [remaining, map_append, map_cons, sum_append, sum_cons]
  omega

theorem length_absorb (lh : List Nat) (b : Nat) : (absorb lh b).length = lh.length + if b ∈ lh then 0 else 1 := by
  unfold absorb; split <;> simp

/-- What is in the log and what the operations in progress may still add to it. -/
structure Share (size : Nat) (lh : List Nat) (ops : List (Nat × Op)) : Prop where
  room : lh.length + remaining ops + 2 ≤ size
  sub : ∀ q ∈ ops, ∀ b ∈ q.2.wrote, b ∈ lh
  budget : ∀ q ∈ ops, q.2.wrote.length ≤ MAXOPBLOCKS ∧
    ∀ b, q.2.tested = some b → (absorb q.2.wrote b).length ≤ MAXOPBLOCKS

variable {size p b : Nat} {lh : List Nat} {o o' : Op} {l1 l2 : List (Nat × Op)}

theorem mem_replace {q : Nat × Op} (hq : q ∈ l1 ++ (p, o') :: l2) : q = (p, o') ∨ q ∈ l1 ++ (p, o) :: l2 := by
  rcases mem_append.mp hq with hq | hq
  · exact .inr (by simp [hq])
  · exact (mem_cons.mp hq).imp_right (fun hq => by simp [hq])

section

variable (h : Share size lh (l1 ++ (p, o) :: l2))
include h

/-- An append moves one block from the budget of its operation to the log, unless the block is there already. -/
theorem Share.append (ht : o.tested = some b) :
    Share size (absorb lh b)
      (l1 ++ (p, { pend := o.pend.filter (· ≠ b), tested := none, wrote := absorb o.wrote b }) :: l2) := by
  obtain ⟨hroom, hsub, hbud⟩ := h
  have ho : (p, o) ∈ l1 ++ (p, o) :: l2 := by simp
  have hb := (hbud _ ho).2 b ht
  have hw : b ∈ o.wrote → b ∈ lh := hsub _ ho b
  refine ⟨?_, fun q hq x hx => ?_, fun q hq => ?_⟩
  · rw [remaining_split] at hroom
    simp only [remaining_split, length_absorb] at hb ⊢
    by_cases h1 : b ∈ lh <;> by_cases h2 : b ∈ o.wrote
    · simp only [h1, h2, if_true] at hb ⊢; omega
    · simp only [h1, h2, if_true, if_false] at hb ⊢; omega
    · exact absurd (hw h2) h1
    · simp only [h1, h2, if_false] at hb ⊢; omega
  · rw [mem_absorb]
    rcases mem_replace hq with rfl | hq
    · exact (mem_absorb.mp hx).imp_left (hsub _ ho x)
    · exact .inl (hsub q hq x hx)
  · rcases mem_replace hq with rfl | hq
    · exact ⟨hb, by simp⟩
    · exact hbud q hq

theorem Share.change (hw : o'.wrote = o.wrote)
    (ht : ∀ b, o'.tested = some b → (absorb o.wrote b).length ≤ MAXOPBLOCKS) : Share size lh (l1 ++ (p, o') :: l2) := by
  obtain ⟨hroom, hsub, hbud⟩ := h
  have ho : (p, o) ∈ l1 ++ (p, o) :: l2 := by simp
  refine ⟨?_, fun q hq => ?_, fun q hq => ?_⟩
  · rw [remaining_split] at hroom ⊢
    rw [hw]; exact hroom
  · rcases mem_replace hq with rfl | hq
    · simp only [hw]; exact hsub _ ho
    · exact hsub q hq
  · rcases mem_replace hq with rfl | hq
    · simp only [hw]; exact ⟨(hbud _ ho).1, ht⟩
    · exact hbud q hq

theorem Share.drop : Share size lh (l1 ++ l2) := by
  obtain ⟨hroom, hsub, hbud⟩ := h
  have hmem : ∀ q ∈ l1 ++ l2, q ∈ l1 ++ (p, o) :: l2 := by
    intro q hq
    exact mem_append.mpr ((mem_append.mp hq).imp_right (mem_cons_of_mem _))
  rw [remaining_split] at hroom
  exact ⟨by omega, fun q hq => hsub q (hmem q hq), fun q hq => hbud q (hmem q hq)⟩

end

theorem Share.begin {ops : List (Nat × Op)} (h : Share size lh ops) (hroom : lh.length + remaining ops + MAXOPBLOCKS + 2 ≤ size) :
    Share size lh ((p, ⟨[], none, []⟩) :: ops) := by
  refine ⟨?_, fun q hq => ?_, fun q hq => ?_⟩
  · simp only [remaining, map_cons, sum_cons, length_nil] at hroom ⊢
    omega
  · rcases mem_cons.mp hq with rfl | hq
    · simp
    · exact h.sub q hq
  · rcases mem_cons.mp hq with rfl | hq
    · simp
    · exact h.budget q hq

structure ReserveInv (d0 : Nat → Block) (s : State) : Prop where
  share : Share s.size s.lh s.ops
  panic : s.panicked ≠ some .tooBig
  area : s.start = logstart d0 ∧ s.size = nlog d0

variable {d0 : Nat → Block} {s s' : State} {a : Act}

theorem reserveInv_boot (hs : 2 ≤ nlog d0) : ReserveInv d0 (.boot d0) :=
  ⟨⟨by simpa [State.boot, remaining] using hs, by simp [State.boot], by simp [State.boot]⟩, by simp [State.boot], rfl, rfl⟩

theorem ReserveInv.next (h : ReserveInv d0 s) (hle : nlog d0 ≤ LOGSIZE) (hwf : Wf s) (hok : Budget s a ∧ Room s a)
    (hn : Next s a s') : ReserveInv d0 s' := by
  obtain ⟨hsh, hpan, hsz⟩ := h
  cases hn with
  | beginOp => exact ⟨hsh.begin hok.2, hpan, hsz⟩
  | modify hl _ ht =>
    rw [hl] at hsh
    exact ⟨hsh.change rfl (by simp [ht]), hpan, hsz⟩
  | tooBig _ hbig =>
    -- The share of the log is below both limits of `log_write`.
    have := hsh.room
    omega
  | logTest hl _ ho ht =>
    rw [hl] at hsh
    refine ⟨hsh.change rfl ?_, hpan, hsz⟩
    rintro b hb
    cases hb
    simpa [Budget, ho] using hok.1
  | logAppend hl _ _ ht =>
    rw [hl] at hsh
    exact ⟨hsh.append ht, hpan, hsz⟩
  | endOp hl =>
    rw [hl] at hsh
    exact ⟨hsh.drop, hpan, hsz⟩
  | endLast hl | endEmpty hl =>
    rw [hl] at hsh
    exact ⟨(show Share s.size s.lh ([] ++ _ :: []) from hsh).drop, hpan, hsz⟩
  | installDone hpc =>
    have hroom := hsh.room
    refine ⟨⟨?_, ?_, ?_⟩, hpan, hsz⟩
    · simp only [length_nil]; omega
    all_goals simp [(hwf.quiet (by simp [hpc])).1]
  | writeLog | writeLogDone | writeHead | install | clearHead | finish | bread | evict =>
    exact ⟨hsh, hpan, hsz⟩

theorem disk_writeLog1 (c : Cache) (start : Nat) (lh : List Nat) {tail : Nat} (hb : b ≠ start + tail + 1) :
    (writeLog1 c start lh tail).disk b = c.disk b := by
  simp only [writeLog1, Cache.bwrite, Function.update_of_ne hb, Cache.modify, Cache.disk_bread]

/-- What a step of `write_log` writes is in the log area. -/
theorem ReserveInv.written (h : ReserveInv d0 s) {t : Nat} (hpc : s.pc = some (.writeLog t)) (hst : step s .commit = some s')
    (hb : s'.cache.disk b ≠ s.cache.disk b) : logstart d0 ≤ b ∧ b < logstart d0 + nlog d0 := by
  have hroom := h.share.room
  obtain ⟨hstart, hsize⟩ := h.area
  unfold step at hst
  split at hst
  · simp only [commit, hpc] at hst
    split at hst
    · rename_i ht
      cases hst
      obtain rfl : b = s.start + t + 1 := by
        by_contra hne
        exact hb (disk_writeLog1 s.cache s.start s.lh hne)
      omega
    · cases hst
      exact absurd rfl hb
  · cases hst

end Xv6.Log
