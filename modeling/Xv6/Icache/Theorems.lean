import Xv6.Icache.Lemmas
import Xv6.Lib.Trans

/-! # Theorems about the inode cache -/

namespace Xv6.Icache

open Xv6.Lib Function
open Xv6.Fs (Dinode)

def Runs (d0 : Key → Dinode) : State → Prop := Reach (· = State.boot d0) step fun _ _ => True

variable {d0 : Key → Dinode} {s s' : State} {i : Slot}

theorem Runs.inv (h : Runs d0 s) : Inv s := by
  refine Reach.inv (P := Inv) ?_ ?_ h
  · rintro _ rfl
    exact inv_boot d0
  · exact fun s a s' hi _ hst => hi.next (next_of_step hi hst)

theorem Next.key (h : Inv s) (hn : Next s s') (hi : 0 < (s.inode i).ref) : (s'.inode i).key = (s.inode i).key := by
  cases hn with
  | newRef _ hg =>
    obtain ⟨n, hn⟩ := hg.update hi
    simp only [State.newRef, hn]
    rfl
  | iget | ialloc => rfl
  | @use c r l1 l2 ip st disk hl hu =>
    by_cases he : i = r.slot
    · subst he
      simp only [State.use, update_self]
      exact (hu.ok h hl).key
    · simp [State.use, update_of_ne he]
  | @noType c r =>
    by_cases he : i = r.slot
    · subst he
      simp only [State.panic, State.setInode, update_self]
      rfl
    · simp [State.panic, State.setInode, update_of_ne he]
  | @drop c r =>
    by_cases he : i = r.slot
    · subst he
      simp only [decref, update_self]
      rfl
    · simp [decref, update_of_ne he]

/-- Two entries with references are about different inodes; an entry counts its references; no step gives such an entry to another
inode; and a valid copy equals the inode on disk unless the holder of the lock is just changing one of them. -/
theorem cache_identity (h : Runs d0 s) :
    (∀ i j, 0 < (s.inode i).ref → 0 < (s.inode j).ref → (s.inode i).key = (s.inode j).key → i = j) ∧
    (∀ i, (s.inode i).ref = s.refs.countP (·.2.slot = i)) ∧
    (∀ a s', step s a = some s' → ∀ i, 0 < (s.inode i).ref → (s'.inode i).key = (s.inode i).key) ∧
    ∀ i, 0 < (s.inode i).ref → (s.inode i).valid → (s.inode i).owner = (s.inode i).key ∧
      (Busy s.refs i ∨ (s.inode i).d = s.disk (s.inode i).key) := by
  have hi := h.inv
  refine ⟨hi.uniq, hi.refs.count, fun a s' hst i hr => (next_of_step hi hst).key hi hr, fun i hr hv => ?_⟩
  exact ⟨hi.owner i hr hv, (hi.copy i hr hv).imp id And.left⟩

def first : Slot := ⟨0, ninode_pos⟩

def twoInodes (k : Key) : Dinode :=
  if k.2 = 7 then { Dinode.zero with type := T_FILE } else { Dinode.zero with type := T_DEV, nlink := 1 }

/-- Process 2 asks for inode 8 while process 1 frees inode 7, and once more when the entry of inode 7 can be taken. -/
theorem cache_identity_recycled :
    ∃ s, Runs twoInodes s ∧ (s.inode first).key = (1, 9) ∧ (s.inode first).valid = true ∧ (s.inode first).ref = 1 ∧
      (s.inode first).owner = (1, 9) := by
  have h0 : Runs twoInodes (.boot twoInodes) := .init rfl
  obtain ⟨s, hs, hk, hv, hr⟩ := Reach.of_runs
    [.iget 0 1 1 7, .ilock 0, .copy 0, .setValid 0, .iunlock 0, .iput 0, .check 0, .iget 1 2 1 8, .itrunc 0, .clearType 0,
      .iupdate 0, .clearValid 0, .releasesleep 0, .drop 0, .iget 2 2 1 9, .ilock 2, .copy 2, .setValid 2]
    (fun s => (s.inode first).key = (1, 9) ∧ (s.inode first).valid = true ∧ (s.inode first).ref = 1) h0 (by decide +kernel)
  refine ⟨s, hs, hk, hv, hr, ?_⟩
  rw [← hk]
  exact ((cache_identity hs).2.2.2 first (by omega) hv).1

end Xv6.Icache
