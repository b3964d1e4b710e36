import Xv6.Fs.Lemmas.Fills
import Xv6.Fs.Lemmas.Lookup

/-!
# A directory as a map

The first entry with a name says which inode the name is.
-/

namespace Xv6.Fs

open Xv6.Lib List Fs
open Xv6.Dir (Dirent Str namecmp cname)

variable {L : Type} {lw : LogWrite L} {s s' : State L} {i : Fin NINODE} {n m : Inum}
variable {src : Nat → BitVec 8} {off len : Nat} {name x : Str} {z z' k : Nat} {g g' : Nat → Dirent} {p : Dirent → Bool} {de : Dirent}

/-! ## The first entry -/

def firstAt (z : Nat) (g : Nat → Dirent) (p : Dirent → Bool) : Option Nat := (List.range z).find? fun k => p (g k)

theorem firstAt_some : firstAt z g p = some k ↔ p (g k) = true ∧ k < z ∧ ∀ j, j < k → p (g j) = false := by
  rw [firstAt, find?_range_eq_some]
  simp

theorem firstAt_none : firstAt z g p = none ↔ ∀ k, k < z → p (g k) = false := by
  rw [firstAt, find?_range_eq_none]
  simp

/-- `de.inum != 0 && namecmp(name, de.name) == 0`, for a name without its padding. -/
def named (x : Str) (de : Dirent) : Bool := de.inum ≠ 0 ∧ cname de.name = x

theorem hit_iff : Hit name de ↔ named (cname name) de = true := by
  rw [Hit, named, decide_eq_true_eq, Dir.namecmp_eq_zero]
  exact and_congr_right fun _ => eq_comm

def nameIn (z : Nat) (g : Nat → Dirent) (x : Str) : Option Nat := (firstAt z g (named x)).map fun k => (g k).inum.toNat

/-- An entry takes a free place, or the place after the last. -/
structure Adds (z : Nat) (g : Nat → Dirent) (k : Nat) (de : Dirent) (z' : Nat) (g' : Nat → Dirent) : Prop where
  le : k ≤ z
  free : k < z → (g k).inum = 0
  count : z' = max z (k + 1)
  entry : ∀ j, j < z' → g' j = if j = k then de else g j

theorem Adds.named_self (h : Adds z g k de z' g') : firstAt z' g' p = some k ↔ p de = true ∧ ∀ j, j < k → p (g j) = false := by
  have hk : k < z' := by rw [h.count]; omega
  rw [firstAt_some, h.entry k hk, if_pos rfl]
  refine and_congr_right fun _ => ⟨fun ⟨_, hj⟩ j hlt => ?_, fun hj => ⟨hk, fun j hlt => ?_⟩⟩
  · have := hj j hlt
    rwa [h.entry j (by omega), if_neg (by omega)] at this
  · rw [h.entry j (by omega), if_neg (by omega)]
    exact hj j hlt

theorem Adds.firstAt_eq (h : Adds z g k de z' g') (hold : k < z → p (g k) = false) (hnew : p de = false) :
    firstAt z' g' p = firstAt z g p := by
  have hz := h.count
  have hle := h.le
  -- the places have the property before if and only if they have it after
  have hsame : ∀ j, (j < z' ∧ p (g' j) = true) ↔ (j < z ∧ p (g j) = true) := by
    intro j
    constructor
    · rintro ⟨hj, hp⟩
      rw [h.entry j hj] at hp
      split at hp
      · rw [hnew] at hp; cases hp
      · exact ⟨by omega, hp⟩
    · rintro ⟨hj, hp⟩
      have hne : j ≠ k := by rintro rfl; rw [hold hj] at hp; cases hp
      have hj' : j < z' := by omega
      exact ⟨hj', by rw [h.entry j hj', if_neg hne]; exact hp⟩
  refine Option.ext fun a => ?_
  rw [firstAt_some, firstAt_some]
  constructor
  · rintro ⟨hp, ha, hj⟩
    obtain ⟨ha', hp'⟩ := (hsame a).mp ⟨ha, hp⟩
    refine ⟨hp', ha', fun j hlt => Bool.eq_false_iff.mpr fun hc => ?_⟩
    have := (hsame j).mpr ⟨by omega, hc⟩
    rw [hj j hlt] at this
    cases this.2
  · rintro ⟨hp, ha, hj⟩
    obtain ⟨ha', hp'⟩ := (hsame a).mpr ⟨ha, hp⟩
    refine ⟨hp', ha', fun j hlt => Bool.eq_false_iff.mpr fun hc => ?_⟩
    have := (hsame j).mp ⟨by omega, hc⟩
    rw [hj j hlt] at this
    cases this.2

theorem Adds.nameIn (h : Adds z g k de z' g') (hde : de.inum ≠ 0) (hno : nameIn z g (cname de.name) = none) (x : Str) :
    nameIn z' g' x = if x = cname de.name then some de.inum.toNat else nameIn z g x := by
  have hk : k < z' := by rw [h.count]; omega
  split
  · rename_i hx
    subst hx
    rw [Fs.nameIn, Option.map_eq_none_iff, firstAt_none] at hno
    have hfirst : firstAt z' g' (named (cname de.name)) = some k :=
      h.named_self.mpr ⟨decide_eq_true ⟨hde, rfl⟩, fun j hj => hno j (lt_of_lt_of_le hj h.le)⟩
    rw [Fs.nameIn, hfirst, Option.map_some, h.entry k hk, if_pos rfl]
  · rename_i hx
    have hfirst : firstAt z' g' (named x) = firstAt z g (named x) :=
      h.firstAt_eq (fun hlt => decide_eq_false fun hc => hc.1 (h.free hlt)) (decide_eq_false fun hc => hx hc.2.symm)
    rw [Fs.nameIn, Fs.nameIn, hfirst]
    refine Option.map_congr fun j hj => ?_
    obtain ⟨hp, hj, _⟩ := firstAt_some.mp hj
    have hne : j ≠ k := by
      rintro rfl
      exact (of_decide_eq_true hp).1 (h.free hj)
    rw [h.entry j (by rw [h.count]; omega), if_neg hne]

/-! ## Directories -/

structure Listed (s : State L) (i : Fin NINODE) (n : Inum) : Prop where
  inv : Inv s
  live : Live s i n
  type : (view s n).type = T_DIR
  small : (view s n).size.toNat ≤ MAXFILE * BSIZE
  aligned : (view s n).size.toNat % 16 = 0
  full : ∀ bn, bn * BSIZE < (view s n).size.toNat → dataRef s n bn ≠ 0

def count (s : State L) (n : Inum) : Nat := (view s n).size.toNat / 16

def entryAt (s : State L) (n : Inum) (k : Nat) : Dirent := slot (byteAt s n) (16 * k)

/-- The map that the directory is: the inode numbers of the names. -/
def names (s : State L) (n : Inum) (x : Str) : Option Nat := nameIn (count s n) (entryAt s n) x

theorem toNat_slot (hk : k ≤ count s n) : (BitVec.ofNat 32 (16 * k)).toNat = 16 * k := by
  rw [BitVec.toNat_ofNat]
  refine Nat.mod_eq_of_lt ?_
  rw [count] at hk
  omega

theorem Listed.size_eq (h : Listed s i n) : (view s n).size.toNat = 16 * count s n := by
  have := h.aligned
  rw [count]
  omega

theorem Listed.lt_size (h : Listed s i n) (hk : k ≤ count s n) : BitVec.ofNat 32 (16 * k) < (s.inode i).d.size ↔ k < count s n := by
  rw [BitVec.lt_def, toNat_slot hk, ← h.inv.view_live h.live, h.size_eq]
  omega

theorem Listed.readi (h : Listed s i n) (hk : k < count s n) :
    readi lw s i (.ofNat 32 (16 * k)) 16 = .ok (16, tabulate 16 fun j => byteAt s n (16 * k + j), s) := by
  have hoff := toNat_slot hk.le
  have hsize := h.size_eq
  have hsmall := h.small
  have hM : MAXFILE * BSIZE < 2 ^ 32 := by decide
  have h16 : (16 : BitVec 32).toNat = 16 := rfl
  have hdev : (view s n).type ≠ T_DEV := by rw [h.type]; decide
  have hr : InRange s n (.ofNat 32 (16 * k)) 16 := by
    refine ⟨by rw [hoff]; omega, ?_⟩
    rw [hoff, h16]
    omega
  rw [readi_eq h.inv.toCore h.live hdev h.full hr, content, readAt_tabulate, hoff, h16, min_eq_left (by omega)]
  rfl

theorem ofBytes_entryAt (s : State L) (n : Inum) (k : Nat) :
    Dirent.ofBytes (tabulate 16 fun j => byteAt s n (16 * k + j)) = entryAt s n k := rfl

/-! ## `dirlookup` -/

/-- What `dirlookup` does when the first entry with the name is at place `k`, or there is none. -/
def looked (s : State L) (n : Inum) : Option Nat → Except DirPanic (Option (BitVec 32 × Fin NINODE) × State L)
  | none => .ok (none, s)
  | some k => do
    let (ip, s) ← (iget s (entryAt s n k).inum.toNat).mapError .inode
    return (some (.ofNat 32 (16 * k), ip), s)

theorem Listed.dirlookupLoop {fuel : Nat} (h : Listed s i n) (hk : k ≤ count s n) (hf : count s n < k + fuel)
    (hmiss : ∀ j, j < k → named (cname name) (entryAt s n j) = false) :
    dirlookupLoop lw i name fuel s (.ofNat 32 (16 * k)) = looked s n (firstAt (count s n) (entryAt s n) (named (cname name))) := by
  induction fuel generalizing k with
  | zero => omega
  | succ fuel ih =>
    rw [dirlookupLoop]
    by_cases hlt : k < count s n
    · rw [if_pos ((h.lt_size hk).mpr hlt), h.readi hlt]
      simp only [Except.mapError, bind, Except.bind]
      rw [if_neg (by decide), off_add, ofBytes_entryAt]
      by_cases hhit : named (cname name) (entryAt s n k) = true
      · have hfirst : firstAt (count s n) (entryAt s n) (named (cname name)) = some k := firstAt_some.mpr ⟨hhit, hlt, hmiss⟩
        obtain ⟨hz, hname⟩ := hit_iff.mpr hhit
        rw [if_neg hz, if_pos hname, hfirst]
        rfl
      · have hrest := ih (k := k + 1) hlt (by omega) fun j hj => by
          rcases Nat.lt_succ_iff_lt_or_eq.mp hj with hj | rfl
          · exact hmiss j hj
          · exact Bool.eq_false_iff.mpr hhit
        split
        · exact hrest
        · rename_i hz
          rw [if_neg fun hname => hhit (hit_iff.mp ⟨hz, hname⟩)]
          exact hrest
    · obtain rfl : k = count s n := by omega
      have hfirst : firstAt (count s n) (entryAt s n) (named (cname name)) = none := firstAt_none.mpr hmiss
      rw [if_neg (mt (h.lt_size hk).mp hlt), hfirst]
      rfl

theorem Listed.dirlookup (h : Listed s i n) (name : Str) :
    dirlookup lw s i name = looked s n (firstAt (count s n) (entryAt s n) (named (cname name))) := by
  have ht : ¬ (s.inode i).d.type ≠ T_DIR := by rw [← h.inv.view_live h.live, not_not]; exact h.type
  rw [Fs.dirlookup, if_neg ht]
  refine h.dirlookupLoop (k := 0) (Nat.zero_le _) ?_ fun j hj => absurd hj (Nat.not_lt_zero j)
  rw [← h.inv.view_live h.live, count]
  omega

/-! ## Files that stay -/

/-- The files are the same; entries of the cache may have changed. -/
structure Same (s s' : State L) : Prop where
  disk : s'.disk = s.disk
  view : ∀ m, view s' m = view s m

section

variable (h : Same s s')
include h

theorem Same.ref : s'.ref = s.ref := by
  funext p
  rw [State.ref, State.ref, refOf, refOf, h.view, State.blk, State.blk, h.disk]

theorem Same.dataRef (m : Inum) : Fs.dataRef s' m = Fs.dataRef s m := by
  funext k
  simp [Fs.dataRef, h.ref]

theorem Same.byteAt (m : Inum) : Fs.byteAt s' m = Fs.byteAt s m := by
  funext k
  rw [byteAt_eq, byteAt_eq, h.dataRef, State.blk, State.blk, h.disk]

theorem Same.content (m : Inum) : Fs.content s' m = Fs.content s m := by
  rw [Fs.content, Fs.content, h.view, h.byteAt]

theorem Same.names (m : Inum) : Fs.names s' m = Fs.names s m := by
  have hg : entryAt s' m = entryAt s m := funext fun k => by rw [entryAt, entryAt, h.byteAt]
  funext x
  rw [Fs.names, Fs.names, count, count, h.view, hg]

theorem Same.listed (hl : Listed s i n) (hinv : Inv s') (hlive : Live s' i n) : Listed s' i n where
  inv := hinv
  live := hlive
  type := by rw [h.view]; exact hl.type
  small := by rw [h.view]; exact hl.small
  aligned := by rw [h.view]; exact hl.aligned
  full := by rw [h.view, h.dataRef]; exact hl.full

end

/-! ## A new entry -/

theorem ofBytes_bytes (h : de.name.length = Dir.DIRSIZ) : Dirent.ofBytes (tabulate 16 fun j => de.bytes.getD j 0) = de := by
  have hlen : de.bytes.length = 16 := by simp [Dirent.bytes, h, Dir.DIRSIZ]
  have hbytes : (tabulate 16 fun j => de.bytes.getD j 0) = de.bytes := by
    refine ext_getElem (by simp [hlen]) fun j h1 h2 => ?_
    simp [tabulate, h2]
  obtain ⟨c, nm⟩ := de
  rw [hbytes]
  simp only [Dirent.bytes, Dirent.ofBytes, getD_cons_succ, getD_cons_zero, Bytes.half_split, drop_succ_cons,
    drop_zero]

theorem Splices.byteAt (h : Splices s i n src off len s') (hoff : off ≤ (view s n).size.toNat) {q : Nat} (hq : q < (view s' n).size.toNat) :
    Fs.byteAt s' n q = if off ≤ q ∧ q < off + len then src (q - off) else Fs.byteAt s n q := by
  have hc := h.content
  rw [Fs.content, Fs.content, writeAt_tabulate _ _ hoff] at hc
  exact (tabulate_inj hc).2 q hq

theorem Splices.listed (h : Listed s i n) (hs : Splices s i n src (16 * k) 16 s') (hk : k ≤ count s n)
    (hmax : 16 * k + 16 ≤ MAXFILE * BSIZE) : Listed s' i n := by
  have hsize := hs.size
  have hz := h.size_eq
  have hsmall := h.small
  refine ⟨hs.inv, hs.live, hs.type.trans h.type, by omega, by omega, fun bn hbn => (hs.alloc bn).mpr ?_⟩
  by_cases hin : bn * BSIZE < (view s n).size.toNat
  · exact .inl (h.full bn hin)
  · refine .inr ⟨by decide, by omega, ?_⟩
    simp only [BSIZE] at hin ⊢
    omega

theorem Splices.adds (h : Listed s i n) (hs : Splices s i n (de.bytes.getD · 0) (16 * k) 16 s') (hk : k ≤ count s n)
    (hfree : k < count s n → (entryAt s n k).inum = 0) (hde : de.name.length = Dir.DIRSIZ) :
    Adds (count s n) (entryAt s n) k de (count s' n) (entryAt s' n) := by
  have hsize := hs.size
  have hz := h.size_eq
  refine ⟨hk, hfree, ?_, fun j hj => ?_⟩
  · have : count s' n = (view s' n).size.toNat / 16 := rfl
    omega
  · have hj' : 16 * j + 16 ≤ (view s' n).size.toNat := by rw [count] at hj; omega
    have hbyte : ∀ q, q < 16 → Fs.byteAt s' n (16 * j + q) =
        if j = k then de.bytes.getD q 0 else Fs.byteAt s n (16 * j + q) := by
      intro q hq
      rw [hs.byteAt (by omega) (by omega)]
      by_cases hjk : j = k
      · subst hjk
        rw [if_pos (by omega), if_pos rfl, Nat.add_sub_cancel_left]
      · rw [if_neg (by omega), if_neg hjk]
    split
    · rename_i hjk
      rw [entryAt, slot, tabulate_congr fun q hq => (hbyte q hq).trans (if_pos hjk)]
      exact ofBytes_bytes hde
    · rename_i hjk
      rw [entryAt, slot, tabulate_congr fun q hq => (hbyte q hq).trans (if_neg hjk)]
      rfl

end Xv6.Fs
