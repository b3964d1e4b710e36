import Xv6.Fs.Lemmas.Layout
import Xv6.Fs.Mkfs
import Xv6.Lib.Ends

/-! # The free map -/

namespace Xv6.Fs

open Xv6.Lib Function Mkfs

variable {L : Type} {lw : LogWrite L} {d d' : Disk L} {blk : Nat → Block} {b x : Nat}

def used (blk : Nat → Block) (b : Nat) : Bool := !isFree (blk (bblock sb b)) (b % BPB)

def InMap (x : Nat) : Prop := sb.bmapstart ≤ x ∧ x < nmeta

theorem bblock_inMap (hb : b < FSSIZE) : InMap (bblock sb b) := by
  have h1 : sb.bmapstart = 58 := rfl
  have h2 : nmeta = 83 := rfl
  have h3 : FSSIZE = 100000 := rfl
  have h4 : BPB = 4096 := rfl
  rw [InMap, bblock, h1, h2, h4]
  omega

theorem mod_lt_BPB (b : Nat) : b % BPB < BPB := Nat.mod_lt _ (by decide)

theorem used_update (blk : Nat → Block) (bp : Block) {f : Bool → Bool}
    (hbp : ∀ bj, isFree bp bj = if bj = b % BPB then f (isFree (blk (bblock sb b)) bj)
      else isFree (blk (bblock sb b)) bj) : used (update blk (bblock sb b) bp) x = if x = b then !f (!used blk b) else used blk x := by
  rw [used]
  by_cases hg : bblock sb x = bblock sb b
  · rw [hg, update_self, hbp]
    by_cases hx : x = b
    · subst hx; simp [used]
    · have hm : x % BPB ≠ b % BPB := by
        intro hm
        have hq : x / BPB = b / BPB := by simpa [bblock] using hg
        exact hx (by rw [← Nat.div_add_mod x BPB, ← Nat.div_add_mod b BPB, hq, hm])
      simp [hx, hm, used, hg]
  · rw [update_of_ne hg]
    have hx : x ≠ b := fun h => hg (by rw [h])
    simp [hx, used]

def LogFull (lw : LogWrite L) (p : Panic) : Prop := p = .log ∧ ∃ l b, lw l b = none

theorem ends_logWrite_at (d : Disk L) (b : Nat) :
    Ends (fun p => p = .log ∧ lw d.log b = none) (fun d' => d'.sb = d.sb ∧ d'.blk = d.blk ∧ lw d.log b = some d'.log)
      (logWrite lw d b) := by
  unfold logWrite
  split
  · exact ⟨rfl, rfl, ‹_›⟩
  · exact ⟨rfl, ‹_›⟩

theorem ends_logWrite {E : Panic → Prop} (hE : ∀ p, LogFull lw p → E p) (d : Disk L) (b : Nat) :
    Ends E (fun d' => d'.sb = d.sb ∧ d'.blk = d.blk ∧ lw d.log b = some d'.log) (logWrite lw d b) :=
  (ends_logWrite_at d b).mono (fun p ⟨hp, hn⟩ => hE p ⟨hp, _, _, hn⟩) fun _ => id

/-! ## `balloc` -/

structure Ballocs (d : Disk L) (b : Nat) (d' : Disk L) : Prop where
  lt : b < FSSIZE
  ge : nmeta ≤ b
  free : used d.blk b = false
  sb : d'.sb = d.sb
  zero : d'.blk b = Bytes.fill BSIZE 0#8
  used : ∀ x, x < FSSIZE → Fs.used d'.blk x = (Fs.used d.blk x || x = b)
  frame : ∀ x, x ≠ b → ¬ InMap x → d'.blk x = d.blk x

theorem findFree_some {k b0 b bi : Nat} (hb0 : b0 % BPB = 0) (h : findFree d k b0 = some (b, bi)) :
    b % BPB = 0 ∧ bi < BPB ∧ b + bi < d.sb.size ∧ isFree (d.blk (bblock d.sb b)) bi = true := by
  induction k generalizing b0 with
  | zero => cases h
  | succ k ih =>
    simp only [findFree] at h
    split at h
    · split at h
      · rename_i bi' hs
        cases h
        obtain ⟨_, hlt, hp⟩ := scan_some hs
        simp only [Bool.and_eq_true, decide_eq_true_eq] at hp
        exact ⟨hb0, by omega, hp.1, hp.2⟩
      · exact ih (by rw [Nat.add_mod_right]; exact hb0) h
    · cases h

theorem bblock_eq {b0 : Nat} (hb0 : b0 % BPB = 0) (h1 : b0 ≤ x) (h2 : x < b0 + BPB) :
    (∀ sb, bblock sb b0 = bblock sb x) ∧ x - b0 = x % BPB := by
  have hdiv : b0 / BPB = x / BPB ∧ x - b0 = x % BPB := by
    simp only [BPB, BSIZE] at *
    omega
  exact ⟨fun sb => by rw [bblock, bblock, hdiv.1], hdiv.2⟩

theorem findFree_place {bi : Nat} (hb : b % BPB = 0) (hbi : bi < BPB) : (b + bi) % BPB = bi ∧ ∀ sb, bblock sb b = bblock sb (b + bi) := by
  have hdiv : (b + bi) / BPB = b / BPB := by
    rw [← Nat.div_add_mod b BPB, hb, add_zero, Nat.mul_add_div (by decide), Nat.div_eq_of_lt hbi,
      Nat.mul_div_cancel_left _ (by decide : 0 < BPB), add_zero]
  refine ⟨?_, fun sb => by rw [bblock, bblock, hdiv]⟩
  rw [Nat.add_mod, hb, zero_add, Nat.mod_mod, Nat.mod_eq_of_lt hbi]

def NoSpace (lw : LogWrite L) (p : Panic) : Prop := LogFull lw p ∨ p = .outOfBlocks

theorem ends_balloc (hsb : d.sb = sb) (hmeta : ∀ x, x < nmeta → used d.blk x = true) :
    Ends (NoSpace lw) (fun r => Ballocs d r.1 r.2) (balloc lw d) := by
  unfold balloc
  split
  · rename_i b bi hf
    obtain ⟨hb, hbi, hlt, hfree⟩ := findFree_some (by rfl) hf
    obtain ⟨hmod, hplace⟩ := findFree_place hb hbi
    have hblk : bblock d.sb b = bblock sb (b + bi) := by rw [hsb]; exact hplace _
    rw [hblk] at hfree ⊢
    have hlt' : b + bi < FSSIZE := by rw [hsb] at hlt; exact hlt
    have hnu : used d.blk (b + bi) = false := by rw [used, hmod, hfree]; rfl
    -- The map is safe, as its own blocks are in use.
    have hge : nmeta ≤ b + bi := by
      by_contra hc
      rw [hmeta _ (by omega)] at hnu
      cases hnu
    refine (ends_logWrite (fun _ => .inl) _ _).bind fun d1 ⟨hs1, hb1, _⟩ => ?_
    refine (ends_logWrite (fun _ => .inl) _ _).bind fun d2 ⟨hs2, hb2, _⟩ => ?_
    simp only [Disk.setBlk] at hs1 hb1 hs2 hb2
    rw [hb1] at hb2
    refine ⟨hlt', hge, hnu, by rw [hs2, hs1], by rw [hb2, update_self], fun x hx => ?_, fun x hx hm => ?_⟩
    · have hxb : bblock sb x ≠ b + bi := fun he => by
        have := (bblock_inMap hx).2
        omega
      have hu := used_update (b := b + bi) (x := x) (f := fun _ => false) d.blk
        ((d.blk (bblock sb (b + bi))).set (bi / 8) ((d.blk (bblock sb (b + bi))).get (bi / 8) ||| mask bi))
        (fun bj => by rw [isFree_set _ hbi, hmod]; by_cases h : bj = bi <;> simp [h])
      rw [hb2, used, update_of_ne hxb, ← used, hu]
      by_cases h : x = b + bi <;> simp [h]
    · have hxb : x ≠ bblock sb (b + bi) := by rintro rfl; exact hm (bblock_inMap hlt')
      rw [hb2, update_of_ne hx, update_of_ne hxb]
  · exact .inr rfl

theorem findFree_ne_none {k b0 : Nat} (hb0 : b0 % BPB = 0) (hle : b0 ≤ b) (hlt : b < b0 + BPB * k) (hb : b < d.sb.size)
    (hf : isFree (d.blk (bblock d.sb b)) (b % BPB) = true) : findFree d k b0 ≠ none := by
  induction k generalizing b0 with
  | zero => omega
  | succ k ih =>
    simp only [findFree]
    rw [if_pos (by omega)]
    split
    · exact Option.some_ne_none _
    · rename_i hs
      refine ih (by rw [Nat.add_mod_right]; exact hb0) ?_ (by rw [Nat.mul_succ] at hlt; omega)
      -- the bit would have been found in this block of the map
      by_contra hc
      obtain ⟨hblk, hoff⟩ := bblock_eq hb0 hle (by omega)
      refine scan_ne_none (Nat.zero_le (b - b0)) (by omega) ?_ hs
      rw [hblk, Nat.add_sub_cancel' hle, hoff, hf, decide_eq_true hb]
      rfl

theorem balloc_ne_outOfBlocks (hsb : d.sb = sb) (hb : b < FSSIZE) (hu : used d.blk b = false) : balloc lw d ≠ .error .outOfBlocks := by
  have hsize : d.sb.size = FSSIZE := by rw [hsb]; rfl
  have hf : isFree (d.blk (bblock d.sb b)) (b % BPB) = true := by
    rw [hsb]; simpa [used] using hu
  have hne : findFree d (d.sb.size / BPB + 1) 0 ≠ none := findFree_ne_none rfl (Nat.zero_le _)
    (by rw [hsize]; exact lt_of_lt_of_le hb (by decide)) (by omega) hf
  unfold balloc
  split
  · have hlog : ∀ e, LogFull lw e → e ≠ .outOfBlocks := fun e h => by rw [h.1]; decide
    refine fun he => Ends.of_error (E := (· ≠ .outOfBlocks)) (Q := fun _ => True) ?_ he rfl
    refine (ends_logWrite hlog _ _).bind fun d1 _ => ?_
    exact (ends_logWrite hlog _ _).bind fun d2 _ => trivial
  · rename_i hn
    exact absurd hn hne

/-! ## `bfree` -/

structure Bfrees (lw : LogWrite L) (d : Disk L) (b : Nat) (d' : Disk L) : Prop where
  sb : d'.sb = sb
  used : ∀ x, Fs.used d'.blk x = (Fs.used d.blk x && x ≠ b)
  frame : ∀ x, ¬ InMap x → d'.blk x = d.blk x
  log : lw d.log (bblock Mkfs.sb b) = some d'.log

theorem ends_bfree (hsb : readsb (d.blk 1) = Mkfs.sb) (hb : b < FSSIZE) (hu : used d.blk b = true) :
    Ends (LogFull lw) (Bfrees lw d b) (bfree lw d b) := by
  have hfree : isFree (d.blk (bblock sb b)) (b % BPB) = false := by simpa [used] using hu
  simp only [bfree, hsb, hfree, Bool.false_eq_true, if_false]
  refine (ends_logWrite (fun _ => id) _ _).imp fun d' ⟨hs, hblk, hlog⟩ => ?_
  simp only [Disk.setBlk] at hs hblk hlog
  refine ⟨hs, fun x => ?_, fun x hx => ?_, hlog⟩
  · have hup := used_update (b := b) (x := x) (f := fun _ => true) d.blk
      ((d.blk (bblock sb b)).set (b % BPB / 8)
        ((d.blk (bblock sb b)).get (b % BPB / 8) &&& ~~~ mask (b % BPB)))
      (fun bj => by rw [isFree_clear _ (mod_lt_BPB b)]; by_cases h : bj = b % BPB <;> simp [h])
    rw [hblk, hup]
    by_cases h : x = b <;> simp [h]
  · have hxb : x ≠ bblock sb b := by rintro rfl; exact hx (bblock_inMap hb)
    rw [hblk, update_of_ne hxb]

end Xv6.Fs
