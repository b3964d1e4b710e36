import Xv6.Fs.Model

/-! # What is stored in a block -/

namespace Xv6.Fs

open Xv6.Lib BitVec Bytes

/-! ## Inodes -/

theorem readDinode_writeDinode_self (bp : Block) {k : Nat} (hk : k < IPB) (d : Dinode) : readDinode (writeDinode bp k d) k = d := by
  have hk' : 64 * k + 64 ≤ BSIZE := by simp only [IPB, BSIZE] at hk ⊢; omega
  simp only [BSIZE] at hk'
  have hn : NDIRECT + 1 = 13 := rfl
  obtain ⟨type, major, minor, nlink, size, addrs⟩ := d
  simp only [readDinode, writeDinode, Dinode.mk.injEq]
  refine ⟨?_, ?_, ?_, ?_, ?_, ?_⟩
  · rw [half_setWords_ne _ _ (by omega), half_setWord_ne _ _ (by omega),
      half_setHalf_ne _ _ (by omega), half_setHalf_ne _ _ (by omega),
      half_setHalf_ne _ _ (by omega), half_setHalf_self _ _ (by simp only [BSIZE]; omega)]
  · rw [half_setWords_ne _ _ (by omega), half_setWord_ne _ _ (by omega),
      half_setHalf_ne _ _ (by omega), half_setHalf_ne _ _ (by omega),
      half_setHalf_self _ _ (by simp only [BSIZE]; omega)]
  · rw [half_setWords_ne _ _ (by omega), half_setWord_ne _ _ (by omega),
      half_setHalf_ne _ _ (by omega), half_setHalf_self _ _ (by simp only [BSIZE]; omega)]
  · rw [half_setWords_ne _ _ (by omega), half_setWord_ne _ _ (by omega),
      half_setHalf_self _ _ (by simp only [BSIZE]; omega)]
  · rw [word_setWords_ne _ _ (by omega), word_setWord_self _ _ (by simp only [BSIZE]; omega)]
  · funext i
    rw [word_setWords _ _ (by simp only [BSIZE]; omega) i.isLt]
    exact dif_pos i.isLt

theorem get_writeDinode_ne (bp : Block) {k j : Nat} (d : Dinode) (h : j < 64 * k ∨ 64 * k + 64 ≤ j) :
    (writeDinode bp k d).get j = bp.get j := by
  have hn : NDIRECT + 1 = 13 := rfl
  simp only [writeDinode]
  rw [get_setWords_ne _ _ (by omega), get_setWord_ne _ _ (by omega), get_setHalf_ne _ _ (by omega),
    get_setHalf_ne _ _ (by omega), get_setHalf_ne _ _ (by omega), get_setHalf_ne _ _ (by omega)]

theorem readDinode_congr {a b : Block} {k : Nat} (h : ∀ j, 64 * k ≤ j → j < 64 * k + 64 → a.get j = b.get j) :
    readDinode a k = readDinode b k := by
  have hh : ∀ j, 64 * k ≤ j → j + 2 ≤ 64 * k + 64 → a.half j = b.half j := fun j h1 h2 => by
    simp only [half]; rw [h j (by omega) (by omega), h (j + 1) (by omega) (by omega)]
  have hw : ∀ j, 64 * k ≤ j → j + 4 ≤ 64 * k + 64 → a.word j = b.word j := fun j h1 h2 => by
    simp only [word]; rw [hh j (by omega) (by omega), hh (j + 2) (by omega) (by omega)]
  simp only [readDinode, Dinode.mk.injEq]
  refine ⟨hh _ (by omega) (by omega), hh _ (by omega) (by omega), hh _ (by omega) (by omega),
    hh _ (by omega) (by omega), hw _ (by omega) (by omega), ?_⟩
  funext i
  have := i.isLt
  have hn : NDIRECT + 1 = 13 := rfl
  exact hw _ (by omega) (by omega)

theorem readDinode_writeDinode_ne (bp : Block) {k k' : Nat} (h : k' ≠ k) (d : Dinode) :
    readDinode (writeDinode bp k d) k' = readDinode bp k' :=
  readDinode_congr fun j h1 h2 => get_writeDinode_ne bp d (by omega)

@[simp] theorem readDinode_fill (k : Nat) : readDinode (fill BSIZE 0#8) k = Dinode.zero := by
  simp [readDinode, Dinode.zero]

theorem readDinode_update (sb : Superblock) (blk : Nat → Block) (n k : Nat) (di : Dinode) :
    readDinode (Function.update blk (iblock sb n) (writeDinode (blk (iblock sb n)) (n % IPB) di) (iblock sb k))
      (k % IPB) = if k = n then di else readDinode (blk (iblock sb k)) (k % IPB) := by
  by_cases hk : k = n
  · subst hk
    rw [Function.update_self, if_pos rfl, readDinode_writeDinode_self _ (Nat.mod_lt _ (by decide))]
  · rw [if_neg hk]
    by_cases he : iblock sb k = iblock sb n
    · have hmod : k % IPB ≠ n % IPB := by
        intro hmod
        have hdiv : k / IPB = n / IPB := by simpa [iblock] using he
        exact hk (by rw [← Nat.div_add_mod k IPB, hdiv, hmod, Nat.div_add_mod])
      rw [he, Function.update_self, readDinode_writeDinode_ne _ hmod]
    · rw [Function.update_of_ne he]

/-! ## The free map -/

theorem mask_eq (bi : Nat) : mask bi = twoPow 8 (bi % 8) := rfl

theorem isFree_eq (bp : Block) (bi : Nat) : isFree bp bi = !(bp.get (bi / 8)).getLsbD (bi % 8) := by
  rw [isFree, mask_eq, and_twoPow]
  cases hb : (bp.get (bi / 8)).getLsbD (bi % 8) with
  | false => simp
  | true =>
    have hlt : bi % 8 < 8 := Nat.mod_lt _ (by omega)
    have hne : twoPow 8 (bi % 8) ≠ 0#8 := by
      intro h
      have := congrArg (fun x => getLsbD x (bi % 8)) h
      simp [hlt] at this
    simp [hne]

theorem isFree_set (bp : Block) {bi : Nat} (hi : bi < BPB) (bj : Nat) :
    isFree (bp.set (bi / 8) (bp.get (bi / 8) ||| mask bi)) bj = (isFree bp bj && bj ≠ bi) := by
  have hlt : bi / 8 < BSIZE := by simp only [BPB, BSIZE] at hi ⊢; omega
  have hm : bj % 8 < 8 := Nat.mod_lt _ (by omega)
  rw [isFree_eq, isFree_eq, mask_eq]
  by_cases hb : bj / 8 = bi / 8
  · rw [hb, get_set_self _ _ hlt, getLsbD_or, getLsbD_twoPow]
    by_cases he : bj = bi
    · subst he; simp [hm]
    · have : bi % 8 ≠ bj % 8 := by omega
      simp [he, this]
  · rw [get_set_ne _ _ hb]
    have : bj ≠ bi := fun he => hb (by rw [he])
    simp [this]

theorem isFree_clear (bp : Block) {bi : Nat} (hi : bi < BPB) (bj : Nat) :
    isFree (bp.set (bi / 8) (bp.get (bi / 8) &&& ~~~ mask bi)) bj = (isFree bp bj || bj = bi) := by
  have hlt : bi / 8 < BSIZE := by simp only [BPB, BSIZE] at hi ⊢; omega
  have hm : bj % 8 < 8 := Nat.mod_lt _ (by omega)
  rw [isFree_eq, isFree_eq, mask_eq]
  by_cases hb : bj / 8 = bi / 8
  · rw [hb, get_set_self _ _ hlt, getLsbD_and, getLsbD_not, getLsbD_twoPow]
    by_cases he : bj = bi
    · subst he; simp [hm]
    · have : bi % 8 ≠ bj % 8 := by omega
      simp [he, this, hm]
  · rw [get_set_ne _ _ hb]
    have : bj ≠ bi := fun he => hb (by rw [he])
    simp [this]

end Xv6.Fs
