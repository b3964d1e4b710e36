import Xv6.Fs.Lemmas.Bitmap
import Xv6.Lib.Owner

/-!
# The blocks that inodes refer to

A position is an address of an inode or an entry of its indirect block.
-/

namespace Xv6.Fs

open Xv6.Lib Function Dinode

abbrev Idx : Type := Fin (NDIRECT + 1) ⊕ Fin NINDIRECT

/-- The number of an inode. -/
abbrev Inum : Type := Fin Mkfs.NINODES

abbrev Pos : Type := Inum × Idx

def Dinode.ref (di : Dinode) (blk : Nat → Block) : Idx → Nat
  | .inl k => (di.addrs k).toNat
  | .inr j => if di.addrs indirect = 0 then 0 else ((blk (di.addrs indirect).toNat).word (4 * j)).toNat

def refOf {ι : Type} (v : ι → Dinode) (blk : Nat → Block) (p : ι × Idx) : Nat := (v p.1).ref blk p.2

abbrev Owns (blk : Nat → Block) (ref : Pos → Nat) : Prop := Owned Mkfs.nmeta FSSIZE (used blk) ref

def Dinode.setAddr (di : Dinode) (k : Fin (NDIRECT + 1)) (b : Nat) : Dinode :=
  { di with addrs := update di.addrs k (.ofNat 32 b) }

variable {ι : Type} {v v' : ι → Dinode} {blk blk' : Nat → Block} {n : ι} {b : Nat}

theorem toNat_eq_zero {a : BitVec 32} : a.toNat = 0 ↔ a = 0 := by
  rw [← BitVec.toNat_inj]; rfl

theorem toNat_ofNat_fs (hb : b < FSSIZE) : (BitVec.ofNat 32 b).toNat = b := by
  have : FSSIZE = 100000 := rfl
  rw [BitVec.toNat_ofNat]
  omega

theorem refOf_inl (k : Fin (NDIRECT + 1)) : refOf v blk (n, .inl k) = ((v n).addrs k).toNat := rfl

theorem refOf_inr_zero (h : (v n).addrs indirect = 0) (j : Fin NINDIRECT) : refOf v blk (n, .inr j) = 0 := by
  simp [refOf, ref, h]

theorem refOf_inr (h : (v n).addrs indirect ≠ 0) (j : Fin NINDIRECT) :
    refOf v blk (n, .inr j) = ((blk ((v n).addrs indirect).toNat).word (4 * j)).toNat := if_neg h

theorem refOf_addrs (h : ∀ n, (v' n).addrs = (v n).addrs) (blk : Nat → Block) : refOf v' blk = refOf v blk := by
  funext ⟨n, i⟩
  cases i <;> simp [refOf, ref, h]

theorem refOf_congr (h : ∀ n, (v n).addrs indirect ≠ 0 →
    blk' ((v n).addrs indirect).toNat = blk ((v n).addrs indirect).toNat) : refOf v blk' = refOf v blk := by
  funext ⟨n, x⟩
  cases x with
  | inl k => rfl
  | inr j =>
    by_cases hz : (v n).addrs indirect = 0
    · rw [refOf_inr_zero hz, refOf_inr_zero hz]
    · rw [refOf_inr hz, refOf_inr hz, h n hz]

theorem refOf_setAddr [DecidableEq ι] (blk : Nat → Block) {k : Fin (NDIRECT + 1)} (hb : b < FSSIZE)
    (hk : k = indirect → (v n).addrs indirect = 0 ∧ blk b = Bytes.fill BSIZE 0#8) :
    refOf (update v n ((v n).setAddr k b)) blk = update (refOf v blk) (n, .inl k) b := by
  funext ⟨m, x⟩
  by_cases hm : m = n
  · subst hm
    cases x with
    | inl k' =>
      rw [refOf_inl, update_self]
      by_cases hk' : k' = k
      · subst hk'; rw [update_self]; simp [setAddr, toNat_ofNat_fs hb]
      · rw [update_of_ne (by simpa using hk'), refOf_inl]
        simp [setAddr, update_of_ne hk']
    | inr j =>
      rw [update_of_ne (by simp), refOf, ref, update_self]
      by_cases hk' : k = indirect
      · subst hk'
        obtain ⟨hz, hb0⟩ := hk rfl
        rw [refOf_inr_zero hz]
        simp [setAddr, toNat_ofNat_fs hb, hb0]
      · have hne : indirect ≠ k := fun e => hk' e.symm
        simp [setAddr, update_of_ne hne, refOf, ref]
  · rw [update_of_ne (by simp [hm]), refOf, refOf, update_of_ne hm]

theorem refOf_setEntry [DecidableEq ι] (blk : Nat → Block) {j : Fin NINDIRECT} (hb : b < FSSIZE) (hn : (v n).addrs indirect ≠ 0)
    (hinj : ∀ m, (v m).addrs indirect = (v n).addrs indirect → m = n) :
    refOf v (update blk ((v n).addrs indirect).toNat
      ((blk ((v n).addrs indirect).toNat).setWord (4 * j) (.ofNat 32 b))) =
      update (refOf v blk) (n, .inr j) b := by
  funext ⟨m, x⟩
  cases x with
  | inl k => rw [update_of_ne (by simp), refOf_inl, refOf_inl]
  | inr i =>
    by_cases hm : m = n
    · subst hm
      have hj := j.isLt
      simp only [NINDIRECT, BSIZE] at hj
      rw [refOf_inr hn, update_self]
      by_cases hi : i = j
      · subst hi
        rw [update_self, Bytes.word_setWord_self _ _ (by simp only [BSIZE]; omega), toNat_ofNat_fs hb]
      · have hi' : i.val ≠ j.val := fun e => hi (Fin.ext e)
        rw [update_of_ne (by simpa using hi), refOf_inr hn, Bytes.word_setWord_ne _ _ (by omega)]
    · rw [update_of_ne (by simp [hm])]
      by_cases hz : (v m).addrs indirect = 0
      · rw [refOf_inr_zero hz, refOf_inr_zero hz]
      · have hne : ((v m).addrs indirect).toNat ≠ ((v n).addrs indirect).toNat :=
          fun e => hm (hinj m (BitVec.toNat_inj.mp e))
        rw [refOf_inr hz, refOf_inr hz, update_of_ne hne]

theorem Dinode.ref_sub {di di' : Dinode} (h : ∀ k, di'.addrs k = 0 ∨ di'.addrs k = di.addrs k) (blk : Nat → Block)
    (x : Idx) : di'.ref blk x = 0 ∨ di'.ref blk x = di.ref blk x := by
  cases x with
  | inl k => exact (h k).imp (fun e => toNat_eq_zero.mpr e) (fun e => by rw [ref, ref, e])
  | inr j =>
    by_cases hz : di'.addrs indirect = 0
    · exact .inl (if_pos hz)
    · refine .inr ?_
      rw [ref, ref, (h indirect).resolve_left hz]

theorem refOf_sub (h : ∀ n k, (v' n).addrs k = 0 ∨ (v' n).addrs k = (v n).addrs k) (p : ι × Idx) :
    refOf v' blk p = 0 ∨ refOf v' blk p = refOf v blk p := ref_sub (h p.1) blk p.2

/-! ## Ownership of indirect blocks -/

theorem indirect_inj {lo hi : Nat} {taken : Nat → Bool} (h : Owned lo hi taken (refOf v blk)) (hn : (v n).addrs indirect ≠ 0) (m : ι)
    (hm : (v m).addrs indirect = (v n).addrs indirect) : m = n := by
  have he := h.inj (m, .inl indirect) (n, .inl indirect) (by rw [refOf_inl, hm]; exact mt toNat_eq_zero.mp hn)
    (by rw [refOf_inl, refOf_inl, hm])
  exact (Prod.ext_iff.mp he).1

end Xv6.Fs
