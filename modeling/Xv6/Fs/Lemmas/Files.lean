import Mathlib.Algebra.BigOperators.Fin
import Mathlib.Data.List.GetD
import Xv6.Fs.Lemmas.Image
import Xv6.Fs.Lemmas.ReadWrite

/-! # The files that `mkfs` stores -/

namespace Xv6.Mkfs

open Xv6.Lib Xv6.Fs Function List Finset

variable {N : Nat} {m m' : Img} {v v' : Fin N → Dinode} {din din' : Dinode} {n : Fin N} {fbn x : Nat}

/-- The blocks of a file of `len` bytes, its indirect block included. -/
def blocksOf (len : Nat) : Nat := (len + BSIZE - 1) / BSIZE + if NDIRECT * BSIZE < len then 1 else 0

def dataRef (v : Fin N → Dinode) (blk : Nat → Block) (n : Fin N) (bn : Nat) : Nat := blockOf (refOf v blk) n bn

def byteAt (v : Fin N → Dinode) (blk : Nat → Block) (n : Fin N) (k : Nat) : BitVec 8 := byteOf (refOf v blk) blk n k

theorem byteAt_eq (v : Fin N → Dinode) (blk : Nat → Block) (n : Fin N) (k : Nat) : byteAt v blk n k =
    if dataRef v blk n (k / BSIZE) = 0 then 0 else (blk (dataRef v blk n (k / BSIZE))).get (k % BSIZE) := rfl

/-! ## A block for a file -/

/-- Position `p` has a block, the next one if it had none. -/
def Took (r : Fin N × Idx → Nat) (fb : Nat) (p : Fin N × Idx) (r' : Fin N × Idx → Nat) (fb' : Nat) : Prop :=
  r p ≠ 0 ∧ r' = r ∧ fb' = fb ∨ r p = 0 ∧ r' = update r p fb ∧ fb' = fb + 1

theorem took_takeAddr (hg : Good (update v n din) m) (hle : m.freeblock < FSSIZE) (k : Fin (NDIRECT + 1)) :
    Took (refOf (update v n din) m.blk) m.freeblock (n, .inl k)
      (refOf (update v n (takeAddr m din k).2) m.blk) (takeAddr m din k).1.freeblock := by
  have hself : refOf (update v n din) m.blk (n, .inl k) = (din.addrs k).toNat := by
    rw [refOf_inl, update_self]
  rw [Took, hself]
  unfold takeAddr
  split
  · rename_i hz
    refine .inr ⟨toNat_eq_zero.mpr hz, ?_, rfl⟩
    have := refOf_setAddr (v := update v n din) (n := n) (b := m.freeblock) (k := k) m.blk hle
      fun hk => ⟨by rw [update_self, ← hk]; exact hz, hg.zero _ le_rfl⟩
    rwa [update_self, update_idem] at this
  · rename_i hz
    exact .inl ⟨mt toNat_eq_zero.mp hz, rfl, rfl⟩

theorem took_takeEntry (hg : Good v m) (hle : m.freeblock < FSSIZE) (hn : (v n).addrs indirect ≠ 0) (j : Fin NINDIRECT) :
    Took (refOf v m.blk) m.freeblock (n, .inr j) (refOf v (takeEntry m ((v n).addrs indirect).toNat j).blk)
      (takeEntry m ((v n).addrs indirect).toNat j).freeblock := by
  rw [Took, refOf_inr hn]
  unfold takeEntry
  split
  · rename_i hz
    exact .inr ⟨toNat_eq_zero.mpr hz, refOf_setEntry m.blk hle hn (indirect_inj hg.owns hn), rfl⟩
  · rename_i hz
    exact .inl ⟨mt toNat_eq_zero.mp hz, rfl, rfl⟩

variable {r r' : Fin N × Idx → Nat} {fb fb' : Nat} {p q : Fin N × Idx}

section

variable (h : Took r fb p r' fb')
include h

theorem Took.old (hp : r p ≠ 0) : r' p = r p := by
  rcases h with ⟨-, rfl, -⟩ | ⟨hz, -, -⟩
  · rfl
  · exact absurd hz hp

theorem Took.new (hp : r p = 0) : r' p = fb := by
  rcases h with ⟨hz, -, -⟩ | ⟨-, rfl, -⟩
  · exact absurd hp hz
  · exact update_self ..

theorem Took.other (hq : q ≠ p) : r' q = r q := by
  rcases h with ⟨-, rfl, -⟩ | ⟨-, rfl, -⟩
  · rfl
  · exact update_of_ne hq ..

theorem Took.count : fb' = fb + if r p = 0 then 1 else 0 := by
  rcases h with ⟨hz, -, rfl⟩ | ⟨hz, -, rfl⟩
  · rw [if_neg hz, add_zero]
  · rw [if_pos hz]

end

def AllOwned (r : Fin N × Idx → Nat) (fb : Nat) : Prop := ∀ x, nmeta ≤ x → x < fb → ∃ p, r p = x

theorem Took.allOwned (h : Took r fb p r' fb') (ha : AllOwned r fb) : AllOwned r' fb' := by
  rcases h with ⟨-, rfl, rfl⟩ | ⟨hz, rfl, rfl⟩
  · exact ha
  · intro x hlo hhi
    by_cases hx : x = fb
    · exact ⟨p, by rw [update_self, hx]⟩
    · obtain ⟨q, hq⟩ := ha x hlo (by omega)
      have hqp : q ≠ p := by
        rintro rfl
        have : 0 < nmeta := by decide
        omega
      exact ⟨q, by rw [update_of_ne hqp, hq]⟩

/-- What `fileBlock` does: `x` is the block of position `fbn`, and the indirect block is there if it is needed. -/
structure Fetches (v : Fin N → Dinode) (n : Fin N) (m : Img) (hb : fbn < MAXFILE) (x : Nat)
    (v' : Fin N → Dinode) (m' : Img) : Prop where
  good : Good v' m'
  low : ∀ y, y < nmeta → m'.blk y = m.blk y
  ref : refOf v' m'.blk (n, dataIdx fbn hb) = x
  pos : x ≠ 0
  old : refOf v m.blk (n, dataIdx fbn hb) ≠ 0 → refOf v m.blk (n, dataIdx fbn hb) = x
  new : refOf v m.blk (n, dataIdx fbn hb) = 0 → m'.blk x = Bytes.fill BSIZE 0#8
  other : ∀ p, p ≠ (n, dataIdx fbn hb) → p ≠ (n, .inl indirect) → refOf v' m'.blk p = refOf v m.blk p
  ind : refOf v' m'.blk (n, .inl indirect) ≠ 0 ↔ refOf v m.blk (n, .inl indirect) ≠ 0 ∨ NDIRECT ≤ fbn
  data : ∀ p, p.2 ≠ .inl indirect → refOf v m.blk p ≠ 0 → m'.blk (refOf v m.blk p) = m.blk (refOf v m.blk p)
  owned : AllOwned (refOf v m.blk) m.freeblock → AllOwned (refOf v' m'.blk) m'.freeblock
  count : m'.freeblock = m.freeblock + (if refOf v m.blk (n, dataIdx fbn hb) = 0 then 1 else 0) +
    if NDIRECT ≤ fbn ∧ refOf v m.blk (n, .inl indirect) = 0 then 1 else 0

theorem takeAddr_blk (m : Img) (din : Dinode) (k : Fin (NDIRECT + 1)) : (takeAddr m din k).1.blk = m.blk := by
  unfold takeAddr
  split <;> rfl

theorem takeAddr_le (m : Img) (din : Dinode) (k : Fin (NDIRECT + 1)) : (takeAddr m din k).1.freeblock ≤ m.freeblock + 1 := by
  unfold takeAddr
  split
  · exact le_rfl
  · exact Nat.le_succ _

theorem takeEntry_blk {ind : Nat} (j : Nat) (hx : x ≠ ind) : (takeEntry m ind j).blk x = m.blk x := by
  unfold takeEntry
  split
  · exact update_of_ne hx ..
  · rfl

theorem takeEntry_le (m : Img) (ind j : Nat) : (takeEntry m ind j).freeblock ≤ m.freeblock + 1 := by
  unfold takeEntry
  split
  · exact le_rfl
  · exact Nat.le_succ _

section

variable (hg : Good (update v n din) m) (hle : m.freeblock + 2 ≤ FSSIZE) (hb : fbn < MAXFILE)
include hg hle hb

theorem fetches_direct (hd : fbn < NDIRECT) :
    Fetches (update v n din) n m hb (fileBlock m din fbn).1 (update v n (fileBlock m din fbn).2.2)
      (fileBlock m din fbn).2.1 := by
  have hspec := fileBlock_spec (v := v) (n := n) din hg.first hb
  have htook := took_takeAddr hg (by omega) ⟨fbn, Nat.lt_succ_of_lt hd⟩
  have hblk := takeAddr_blk m din ⟨fbn, Nat.lt_succ_of_lt hd⟩
  have hfb := takeAddr_le m din ⟨fbn, Nat.lt_succ_of_lt hd⟩
  have heq : fileBlock m din fbn = _ := dif_pos hd
  rw [heq] at hspec ⊢
  rw [← dataIdx_direct hb hd, ← hblk] at htook
  dsimp only at hspec ⊢
  generalize takeAddr m din ⟨fbn, Nat.lt_succ_of_lt hd⟩ = t at *
  obtain ⟨hg', hlow⟩ := hspec.step.good (by omega) hg
  obtain ⟨href, hpos⟩ := hspec.ref (by omega) hg
  have hind : (n, .inl indirect) ≠ (n, dataIdx fbn hb) := fun he => dataIdx_ne_indirect hb (Prod.mk.inj he).2.symm
  rw [hblk] at htook
  refine ⟨hg', hlow, href, hpos, fun hz => ?_, fun hz => ?_, fun p hp _ => ?_, ?_, fun p _ _ => by rw [hblk], ?_, ?_⟩
  · rw [← href, hblk, htook.old hz]
  · rw [← href, hblk, htook.new hz, hg.zero _ le_rfl]
  · rw [hblk, htook.other hp]
  · rw [hblk, htook.other hind]
    exact ⟨.inl, fun h => h.resolve_right (by omega)⟩
  · rw [hblk]; exact htook.allOwned
  · have hno : ¬ NDIRECT ≤ fbn := by omega
    simp only [hno, false_and, if_false, add_zero]
    exact htook.count

theorem fetches_indirect (hd : ¬ fbn < NDIRECT) :
    Fetches (update v n din) n m hb (fileBlock m din fbn).1 (update v n (fileBlock m din fbn).2.2)
      (fileBlock m din fbn).2.1 := by
  have hlt : fbn - NDIRECT < NINDIRECT := by have : MAXFILE = NDIRECT + NINDIRECT := rfl; omega
  have hspec := fileBlock_spec (v := v) (n := n) din hg.first hb
  have htook1 := took_takeAddr hg (by omega) indirect
  have hblk1 := takeAddr_blk m din indirect
  have hfb1 := takeAddr_le m din indirect
  have hne : (takeAddr m din indirect).2.addrs indirect ≠ 0 := takeAddr_ne_zero hg.first (by omega)
  have hg1 := ((step_takeAddr (v := v) (n := n) m din indirect).good (by omega) hg).1
  have heq : fileBlock m din fbn = _ := dif_neg hd
  rw [heq] at hspec ⊢
  dsimp only at hspec ⊢
  generalize takeAddr m din indirect = t at *
  obtain ⟨m1, din1⟩ := t
  dsimp only at *
  have hself : (update v n din1 n).addrs indirect = din1.addrs indirect := by rw [update_self]
  have htook2 := took_takeEntry hg1 (by omega) (by rw [hself]; exact hne) ⟨fbn - NDIRECT, hlt⟩
  have hfb2 := takeEntry_le m1 (din1.addrs indirect).toNat (fbn - NDIRECT)
  have hblk2 : ∀ x, x ≠ (din1.addrs indirect).toNat → (takeEntry m1 _ (fbn - NDIRECT)).blk x = m1.blk x :=
    fun x hx => takeEntry_blk _ hx
  rw [hself, ← dataIdx_indirect hb hd hlt] at htook2
  dsimp only at htook2
  generalize takeEntry m1 (din1.addrs indirect).toNat (fbn - NDIRECT) = m2 at *
  obtain ⟨hg2, hlow⟩ := hspec.step.good (by omega) hg
  obtain ⟨href, hpos⟩ := hspec.ref (by omega) hg
  have hind : (n, .inl indirect) ≠ (n, dataIdx fbn hb) := fun he => dataIdx_ne_indirect hb (Prod.mk.inj he).2.symm
  have hat : refOf (update v n din1) m1.blk (n, .inl indirect) = (din1.addrs indirect).toNat := by
    rw [refOf_inl, hself]
  have hatne : refOf (update v n din1) m1.blk (n, .inl indirect) ≠ 0 := by
    rw [hat]; exact mt toNat_eq_zero.mp hne
  rw [← hblk1] at htook1
  have hsame := htook1.other hind.symm
  refine ⟨hg2, hlow, href, hpos, fun hz => ?_, fun hz => ?_, fun p hp hp' => ?_, ?_, fun p hp hz => ?_, ?_, ?_⟩
  all_goals rw [← hblk1] at *
  · rw [← href, htook2.old (by rw [hsame]; exact hz), hsame]
  · have hnew := htook2.new (by rw [hsame]; exact hz)
    have hlt := hg1.lt hatne
    rw [← href, hnew, hblk2 _ (by omega), hg1.zero _ le_rfl]
  · rw [htook2.other hp, htook1.other hp']
  · rw [htook2.other hind]
    exact ⟨fun _ => .inr (by omega), fun _ => hatne⟩
  · have hp1 := htook1.other (q := p) fun he => hp (by rw [he])
    refine hblk2 _ fun he => hp ?_
    rw [← hp1, ← hat] at he
    rw [hg1.owns.inj _ _ (by rw [hp1]; exact hz) he]
  · exact fun ha => htook2.allOwned (htook1.allOwned ha)
  · have hc := htook2.count
    rw [hsame, htook1.count] at hc
    have hd' : NDIRECT ≤ fbn := by omega
    simp only [hd', true_and]
    omega

theorem fetches_fileBlock :
    Fetches (update v n din) n m hb (fileBlock m din fbn).1 (update v n (fileBlock m din fbn).2.2)
      (fileBlock m din fbn).2.1 := by
  by_cases hd : fbn < NDIRECT
  · exact fetches_direct hg hle hb hd
  · exact fetches_indirect hg hle hb hd

end

/-! ## The bytes of the files -/

variable {c : Fin N → List (BitVec 8)} {src : Nat → BitVec 8} {len off bn : Nat} {k : Fin N}

theorem dataRef_pos (h : dataRef v m.blk n bn ≠ 0) : ∃ hb : bn < MAXFILE, dataRef v m.blk n bn = refOf v m.blk (n, dataIdx bn hb) :=
  blockOf_pos h

theorem Good.dataRef_inj (hg : Good v m) {bm : Nat} (h : dataRef v m.blk n bn ≠ 0)
    (he : dataRef v m.blk n bn = dataRef v m.blk k bm) : n = k ∧ bn = bm := blockOf_inj hg.owns h he

section Fetch

variable {hb : fbn < MAXFILE} (h : Fetches v n m hb x v' m')
include h

theorem Fetches.dataRef_self : dataRef v' m'.blk n fbn = x := (blockOf_of_lt hb).trans h.ref

theorem Fetches.dataRef_other (hne : ¬ (k = n ∧ bn = fbn)) : dataRef v' m'.blk k bn = dataRef v m.blk k bn := by
  unfold dataRef blockOf
  split
  · rename_i hbn
    refine h.other _ (fun he => hne ?_) fun he => dataIdx_ne_indirect hbn (Prod.mk.inj he).2
    obtain ⟨hk, hi⟩ := Prod.mk.inj he
    exact ⟨hk, dataIdx_inj hbn hb hi⟩
  · rfl

theorem Fetches.data_blk (hz : dataRef v m.blk k bn ≠ 0) : m'.blk (dataRef v m.blk k bn) = m.blk (dataRef v m.blk k bn) := by
  obtain ⟨hbn, hr⟩ := dataRef_pos hz
  rw [hr] at hz ⊢
  exact h.data _ (dataIdx_ne_indirect hbn) hz

theorem Fetches.byteAt (k : Fin N) (q : Nat) : byteAt v' m'.blk k q = Mkfs.byteAt v m.blk k q := by
  rw [byteAt_eq, byteAt_eq]
  by_cases hk : k = n ∧ q / BSIZE = fbn
  · obtain ⟨rfl, hq⟩ := hk
    rw [hq, h.dataRef_self, if_neg h.pos]
    have hr : dataRef v m.blk k fbn = refOf v m.blk (k, dataIdx fbn hb) := blockOf_of_lt hb
    split
    · rename_i hz
      rw [h.new (hr ▸ hz), Bytes.get_fill_zero]; rfl
    · rename_i hz
      rw [← h.data_blk hz, hr, h.old (hr ▸ hz)]
  · rw [h.dataRef_other hk]
    split
    · rfl
    · rename_i hz
      rw [h.data_blk hz]

end Fetch

theorem Good.byteAt_store (hg : Good v m) (hr : dataRef v m.blk n bn = x) (hx : x ≠ 0) (buf : Block) (k : Fin N)
    (q : Nat) : byteAt v (wsect m x buf).blk k q =
      if k = n ∧ q / BSIZE = bn then buf.get (q % BSIZE) else byteAt v m.blk k q := by
  obtain ⟨hb, hp⟩ := dataRef_pos (hr ▸ hx)
  have href := hg.refOf_store (hp.symm.trans hr) buf
  have hdr : ∀ k bn, dataRef v (wsect m x buf).blk k bn = dataRef v m.blk k bn := fun k bn => by
    simp [dataRef, href]
  have hblk : (wsect m x buf).blk = update m.blk x buf := rfl
  simp only [byteAt_eq, hdr]
  rw [hblk]
  by_cases hk : k = n ∧ q / BSIZE = bn
  · obtain ⟨rfl, rfl⟩ := hk
    rw [hr, if_neg hx, if_pos ⟨rfl, rfl⟩, update_self]
  · rw [if_neg hk]
    by_cases hz : dataRef v m.blk k (q / BSIZE) = 0
    · rw [if_pos hz, if_pos hz]
    · rw [if_neg hz, if_neg hz, update_of_ne fun he => hk (hg.dataRef_inj hz (he.trans hr.symm))]

/-! ## What the image stores -/

def extend (c : Fin N → List (BitVec 8)) (n : Fin N) (l : List (BitVec 8)) : Fin N → List (BitVec 8) :=
  update c n (c n ++ l)

variable {l l' : List (BitVec 8)}

theorem extend_self : extend c n l n = c n ++ l := update_self ..

theorem extend_other (hk : k ≠ n) : extend c n l k = c k := update_of_ne hk ..

theorem extend_nil : extend c n [] = c := by rw [extend, append_nil, update_eq_self]

theorem extend_extend : extend (extend c n l) n l' = extend c n (l ++ l') := by
  rw [extend, extend_self, extend, update_idem, append_assoc, extend]

def usedBlocks (c : Fin N → List (BitVec 8)) : Nat := nmeta + ∑ n, blocksOf (c n).length

/-- The image holds the files `c`, in just the blocks that they need. -/
structure Stores (v : Fin N → Dinode) (m : Img) (c : Fin N → List (BitVec 8)) : Prop where
  good : Good v m
  owned : AllOwned (refOf v m.blk) m.freeblock
  data : ∀ n bn, bn < MAXFILE → (dataRef v m.blk n bn ≠ 0 ↔ bn * BSIZE < (c n).length)
  ind : ∀ n, refOf v m.blk (n, .inl indirect) ≠ 0 ↔ NDIRECT * BSIZE < (c n).length
  byte : ∀ n q, byteAt v m.blk n q = (c n).getD q 0
  count : m.freeblock = usedBlocks c

theorem getD_append_tabulate (l : List (BitVec 8)) (len : Nat) (src : Nat → BitVec 8) (q : Nat) :
    (l ++ tabulate len src).getD q 0 = if l.length ≤ q ∧ q < l.length + len then src (q - l.length) else l.getD q 0 := by
  by_cases hq : q < l.length
  · rw [getD_append _ _ _ _ hq, if_neg (by omega)]
  · rw [getD_append_right _ _ _ _ (by omega)]
    by_cases hq' : q < l.length + len
    · rw [if_pos (by omega), getD_eq_getElem?_getD, tabulate, getElem?_map,
        getElem?_range (by omega)]
      rfl
    · rw [if_neg (by omega), getD_eq_default _ _ (by simp; omega), getD_eq_default _ _ (by omega)]

theorem blocksOf_pass (hlen : 0 < len) (hfit : off % BSIZE + len ≤ BSIZE) :
    blocksOf (off + len) = blocksOf off + (if off / BSIZE * BSIZE < off then 0 else 1) +
      if NDIRECT ≤ off / BSIZE ∧ ¬ NDIRECT * BSIZE < off then 1 else 0 := by
  rw [blocksOf, blocksOf]
  split_ifs <;> simp only [BSIZE, NDIRECT] at * <;> omega

theorem usedBlocks_extend :
    usedBlocks (extend c n l) + blocksOf (c n).length = usedBlocks c + blocksOf ((c n).length + l.length) := by
  have hfun : (fun k => blocksOf (extend c n l k).length) =
      update (fun k => blocksOf (c k).length) n (blocksOf ((c n).length + l.length)) := by
    funext k
    by_cases hk : k = n
    · subst hk; rw [extend_self, update_self, length_append]
    · rw [extend_other hk, update_of_ne hk]
  rw [usedBlocks, usedBlocks, hfun, sum_update_of_mem (mem_univ n),
    ← sum_erase_add univ _ (mem_univ n), sdiff_singleton_eq_erase]
  omega

theorem Stores.pass (h : Stores v m c) (src : Nat → BitVec 8) {hb : (c n).length / BSIZE < MAXFILE} (hf : Fetches v n m hb x v' m')
    (hlen : 0 < len) (hfit : (c n).length % BSIZE + len ≤ BSIZE) :
    Stores v' (wsect m' x ((m'.blk x).write ((c n).length % BSIZE) len src))
      (extend c n (tabulate len src)) := by
  obtain ⟨hg', -⟩ := hf.good.store hf.ref hf.pos ((m'.blk x).write ((c n).length % BSIZE) len src)
  have href := hf.good.refOf_store hf.ref ((m'.blk x).write ((c n).length % BSIZE) len src)
  have hold : dataRef v m.blk n ((c n).length / BSIZE) = refOf v m.blk (n, dataIdx _ hb) := blockOf_of_lt hb
  refine ⟨hg', ?_, fun k bn hbn => ?_, fun k => ?_, fun k q => ?_, ?_⟩
  · rw [href]; exact hf.owned h.owned
  · simp only [dataRef, href]
    change dataRef v' m'.blk k bn ≠ 0 ↔ _
    by_cases hk : k = n ∧ bn = (c n).length / BSIZE
    · obtain ⟨rfl, rfl⟩ := hk
      rw [hf.dataRef_self, extend_self, length_append, length_tabulate]
      exact ⟨fun _ => by simp only [BSIZE]; omega, fun _ => hf.pos⟩
    · rw [hf.dataRef_other hk, h.data k bn hbn]
      by_cases hkn : k = n
      · subst hkn
        rw [extend_self, length_append, length_tabulate]
        simp only [BSIZE, true_and] at hk hfit ⊢
        omega
      · rw [extend_other hkn]
  · rw [href]
    by_cases hkn : k = n
    · subst hkn
      rw [hf.ind, h.ind, extend_self, length_append, length_tabulate]
      simp only [BSIZE, NDIRECT] at hfit ⊢
      omega
    · rw [hf.other _ (fun he => hkn (Prod.mk.inj he).1) (fun he => hkn (Prod.mk.inj he).1), h.ind,
        extend_other hkn]
  · rw [hf.good.byteAt_store hf.dataRef_self hf.pos, hf.byteAt, h.byte]
    by_cases hkn : k = n
    · subst hkn
      rw [extend_self, getD_append_tabulate]
      by_cases hq : q / BSIZE = (c k).length / BSIZE
      · have hbytes := pass_bytes (k := q) hfit
        rw [if_pos ⟨rfl, hq⟩, Bytes.get_write _ _ _ _ (mod_lt_BSIZE q), pass_sub hq]
        simp only [← hbytes, hq, true_and]
        split
        · rfl
        · rw [← h.byte, ← hf.byteAt, byteAt_eq, hq, hf.dataRef_self, if_neg hf.pos]
      · have hbytes := pass_bytes (k := q) hfit
        rw [if_neg fun he => hq he.2, if_neg fun he => hq (hbytes.mpr he).1]
    · rw [if_neg fun he => hkn he.1, extend_other hkn]
  · have hsum := usedBlocks_extend (c := c) (n := n) (l := tabulate len src)
    have hpass := blocksOf_pass hlen hfit
    have hdata := h.data n _ hb
    have hind := h.ind n
    have hcount := hf.count
    rw [length_tabulate, hpass] at hsum
    rw [h.count, ← hold] at hcount
    have h1 : (if dataRef v m.blk n ((c n).length / BSIZE) = 0 then 1 else 0) =
        if (c n).length / BSIZE * BSIZE < (c n).length then 0 else 1 := by
      rw [← ite_not]; simp [hdata]
    have h2 : refOf v m.blk (n, .inl indirect) = 0 ↔ ¬ NDIRECT * BSIZE < (c n).length := by
      rw [← hind, not_not]
    rw [h1] at hcount
    simp only [h2] at hcount
    change m'.freeblock = _
    omega

/-! ## The loops of `mkfs` -/

theorem blocksOf_mono {a b : Nat} (h : a ≤ b) : blocksOf a ≤ blocksOf b := by
  have : (a + BSIZE - 1) / BSIZE ≤ (b + BSIZE - 1) / BSIZE := Nat.div_le_div_right (by omega)
  rw [blocksOf, blocksOf]
  split_ifs <;> omega

theorem usedBlocks_le_extend (c : Fin N → List (BitVec 8)) (n : Fin N) (l : List (BitVec 8)) :
    usedBlocks c ≤ usedBlocks (extend c n l) := by
  have := usedBlocks_extend (c := c) (n := n) (l := l)
  have := blocksOf_mono (Nat.le_add_right (c n).length l.length)
  omega

structure Appends (v : Fin N → Dinode) (n : Fin N) (m : Img) (din : Dinode)
    (c : Fin N → List (BitVec 8)) (m' : Img) (din' : Dinode) : Prop where
  stores : Stores (update v n din') m' c
  low : ∀ y, y < nmeta → m'.blk y = m.blk y
  inode : m'.freeinode = m.freeinode
  addrs : din' = { din with addrs := din'.addrs }

theorem takeAddr_din (m : Img) (din : Dinode) (k : Fin (NDIRECT + 1)) :
    (takeAddr m din k).2 = { din with addrs := (takeAddr m din k).2.addrs } := by
  unfold takeAddr
  split <;> rfl

theorem fileBlock_din (m : Img) (din : Dinode) (fbn : Nat) :
    (fileBlock m din fbn).2.2 = { din with addrs := (fileBlock m din fbn).2.2.addrs } := by
  unfold fileBlock
  split
  · exact takeAddr_din m din _
  · exact takeAddr_din m din _

theorem stores_appendLoop {fuel : Nat} (h : Stores (update v n din) m c) (hfuel : len ≤ fuel)
    (hmax : (c n).length + len ≤ MAXFILE * BSIZE) (hroom : usedBlocks (extend c n (tabulate len src)) ≤ BSIZE * 8) :
    Ends (fun _ => False) (fun r => Appends v n m din (extend c n (tabulate len src)) r.1 r.2)
      (appendLoop fuel m din src (c n).length len) := by
  induction fuel generalizing m din c src len with
  | zero =>
    obtain rfl : len = 0 := by omega
    exact ⟨by rw [show tabulate 0 src = [] from rfl, extend_nil]; exact h, fun _ _ => rfl, rfl, rfl⟩
  | succ fuel ih =>
    rw [appendLoop]
    split
    · rename_i hz
      subst hz
      exact ⟨by rw [show tabulate 0 src = [] from rfl, extend_nil]; exact h, fun _ _ => rfl, rfl, rfl⟩
    · rename_i hz
      have hb : (c n).length / BSIZE < MAXFILE := pass_lt (by omega) hmax
      rw [if_pos hb]
      dsimp only
      generalize hn1 : min len (((c n).length / BSIZE + 1) * BSIZE - (c n).length) = n1
      have hoff : (c n).length - (c n).length / BSIZE * BSIZE = (c n).length % BSIZE := by
        simp only [BSIZE]; omega
      have hpos : 0 < n1 := by simp only [BSIZE] at hn1; omega
      have hfit : (c n).length % BSIZE + n1 ≤ BSIZE := by simp only [BSIZE] at hn1 ⊢; omega
      have hsplit : tabulate n1 src ++ tabulate (len - n1) (fun j => src (n1 + j)) = tabulate len src := by
        rw [← tabulate_add]; congr 1; omega
      have hroom' : m.freeblock + 2 ≤ FSSIZE := by
        have := usedBlocks_le_extend c n (tabulate len src)
        have := h.count
        have : BSIZE * 8 + 2 ≤ FSSIZE := by decide
        omega
      have hf := fetches_fileBlock h.good hroom' hb
      have hs := h.pass src hf hpos hfit
      have hin := (fileBlock_spec (v := v) (n := n) din h.good.first hb).step.inode
      have hdin := fileBlock_din m din ((c n).length / BSIZE)
      have hlow := (hf.good.store hf.ref hf.pos
        (((fileBlock m din ((c n).length / BSIZE)).2.1.blk (fileBlock m din ((c n).length / BSIZE)).1).write
          ((c n).length % BSIZE) n1 src)).2
      rw [hoff]
      have hlen : (c n).length + n1 = (extend c n (tabulate n1 src) n).length := by
        rw [extend_self, length_append, length_tabulate]
      rw [hlen]
      refine (ih hs (by omega) (by omega) ?_).imp fun r hr => ?_
      · rw [extend_extend, hsplit]; exact hroom
      · refine ⟨?_, fun y hy => ?_, hr.inode.trans hin, ?_⟩
        · have := hr.stores
          rwa [extend_extend, hsplit] at this
        · rw [hr.low y hy, hlow y hy, hf.low y hy]
        · rw [hr.addrs, hdin]

end Xv6.Mkfs
