import Xv6.Fs.Lemmas.Scan
import Xv6.Fs.Lemmas.Synced
import Xv6.Fs.Theorems
import Xv6.Sysfile.Model

/-!
# `dirlink` as an update of a map

At the maximal size of a file there is no place for a new entry, and `dirlink` panics.
-/

namespace Xv6.Sysfile

open Xv6.Lib Xv6.Fs
open Xv6.Dir (Dirent Str cname strncpy DIRSIZ)

variable {L : Type} {lw : LogWrite L} {s s' : Fs.State L} {i : Fin NINODE} {n m : Inum}
variable {name : Str} {c k inum : Nat}

/-! ## The loop over the entries -/

theorem findEntry_eq {f : Dirent → Bool} {e : DirPanic} {fuel : Nat} (h : Listed s i n) (hk : k ≤ count s n)
    (hf : count s n < k + fuel) (hmiss : ∀ j, j < k → f (entryAt s n j) = false) :
    ∃ b, findEntry lw e f i fuel (.ofNat 32 (16 * k)) s =
      .ok ((b, .ofNat 32 (16 * (firstAt (count s n) (entryAt s n) f).getD (count s n))), s) := by
  induction fuel generalizing k with
  | zero => omega
  | succ fuel ih =>
    rw [findEntry, Cmd.bind_ok (show fields i s = .ok ((s.inode i).d, s) from rfl)]
    by_cases hlt : k < count s n
    · have hread : readi lw i (.ofNat 32 (16 * k)) 16 s = .ok ((16, tabulate 16 fun j => byteAt s n (16 * k + j)), s) := by
        simp only [readi, inode, h.readi hlt]
        rfl
      rw [if_pos ((h.lt_size hk).mpr hlt), Cmd.bind_ok hread]
      dsimp only
      rw [if_neg (by decide), ofBytes_entryAt, off_add]
      by_cases hhit : f (entryAt s n k) = true
      · have hfirst : firstAt (count s n) (entryAt s n) f = some k := firstAt_some.mpr ⟨hhit, hlt, hmiss⟩
        rw [if_pos hhit, hfirst]
        exact ⟨true, rfl⟩
      · rw [if_neg hhit]
        refine ih hlt (by omega) fun j hj => ?_
        rcases Nat.lt_succ_iff_lt_or_eq.mp hj with hj | rfl
        · exact hmiss j hj
        · exact Bool.eq_false_iff.mpr hhit
    · obtain rfl : k = count s n := by omega
      have hfirst : firstAt (count s n) (entryAt s n) f = none := firstAt_none.mpr hmiss
      rw [if_neg (mt (h.lt_size hk).mp hlt), hfirst]
      exact ⟨false, rfl⟩

/-! ## A name that exists -/

structure Idle (s s' : Fs.State L) : Prop where
  disk : s'.disk = s.disk
  ref : ∀ j, (s'.inode j).ref = (s.inode j).ref
  inode : ∀ j, 0 < (s.inode j).ref → s'.inode j = s.inode j

theorem Idle.live (h : Idle s s') {j : Fin NINODE} : Live s' j m ↔ Live s j m := by
  constructor
  · rintro ⟨hr, hv, hn⟩
    have he := h.inode j (by rw [← h.ref]; exact hr)
    exact ⟨he ▸ hr, he ▸ hv, he ▸ hn⟩
  · rintro ⟨hr, hv, hn⟩
    have he := h.inode j hr
    exact ⟨he ▸ hr, he ▸ hv, he ▸ hn⟩

theorem Idle.same (h : Idle s s') : Same s s' where
  disk := h.disk
  view _ := view_congr (fun _ => h.live) (fun j hj => by rw [h.inode j hj.ref]) fun _ => by rw [h.disk]

theorem Idle.inv (h : Idle s s') (hi : Inv s) : Inv s' where
  sb := by rw [h.disk]; exact hi.sb
  super := by rw [State.blk, h.disk]; exact hi.super
  inum j hj := by
    have hj' : 0 < (s.inode j).ref := h.ref j ▸ hj
    rw [h.inode j hj']
    exact hi.inum j hj'
  uniq j k hj hk hjk := by
    have hj' : 0 < (s.inode j).ref := h.ref j ▸ hj
    have hk' : 0 < (s.inode k).ref := h.ref k ▸ hk
    rw [h.inode j hj', h.inode k hk'] at hjk
    exact hi.uniq j k hj' hk' hjk
  owns := by rw [h.same.ref, State.blk, h.disk]; exact hi.owns
  behind j m hj k := by
    rw [h.disk, h.inode j (h.live.mp hj).ref]
    exact hi.behind j m (h.live.mp hj) k

/-- A reference that is given back at once. The inode is not freed: it has another reference, or it is not valid. -/
theorem iput_gets (lw : LogWrite L) {ip : Fin NINODE} {s1 : Fs.State L} (h : Gets s c ip s1) :
    ∃ s', Fs.iput lw s1 ip = .ok s' ∧ Idle s s' := by
  cases h with
  | old hr hn =>
    refine ⟨s, ?_, rfl, fun _ => rfl, fun _ _ => rfl⟩
    have hf : ¬ Frees (s.setInode ip { s.inode ip with ref := (s.inode ip).ref + 1 }) ip := fun hf => by
      have h1 := hf.2.2
      rw [inode_setInode_self] at h1
      dsimp only at h1
      omega
    rw [iput_keep hf, setInode_setInode, inode_setInode_self]
    exact congrArg Except.ok (setInode_self s ip)
  | new hr hno =>
    refine ⟨s.setInode ip { s.inode ip with inum := c, ref := 0, valid := false }, ?_, rfl, fun j => ?_, fun j hj => ?_⟩
    · have hf : ¬ Frees (s.setInode ip { s.inode ip with inum := c, ref := 1, valid := false }) ip := fun hf => by
        have h1 := hf.1
        rw [inode_setInode_self] at h1
        cases h1
      rw [iput_keep hf, setInode_setInode, inode_setInode_self]
      rfl
    · by_cases hji : j = ip
      · subst hji
        rw [inode_setInode_self, hr]
      · rw [inode_setInode_ne hji]
    · exact inode_setInode_ne (by rintro rfl; omega)

theorem dirlink_found (lw : LogWrite L) (inum : Nat) (h : Listed s i n) (hx : names s n (cname name) = some c)
    (hc : ∃ j, (s.inode j).ref = 0 ∨ (s.inode j).inum = c) :
    ∃ k ip s1 s', dirlookup lw i name s = .ok (some (.ofNat 32 (16 * k), ip), s1) ∧ Gets s c ip s1 ∧
      dirlink lw i name inum s = .ok (-1, s') ∧ Idle s s' := by
  obtain ⟨k, hk, hkc⟩ := Option.map_eq_some_iff.mp hx
  obtain ⟨ip, s1, hget, hg⟩ := iget_returns _ hc
  obtain ⟨s', hput, hidle⟩ := iput_gets lw hg
  have hlook : dirlookup lw i name s = .ok (some (.ofNat 32 (16 * k), ip), s1) := by
    rw [dirlookup, h.dirlookup, hk, looked, hkc, hget]
    rfl
  have hiput : iput lw ip s1 = .ok ((), s') := by
    simp only [iput, inode, hput]
    rfl
  refine ⟨k, ip, s1, s', hlook, hg, ?_, hidle⟩
  rw [dirlink, Cmd.bind_ok hlook]
  dsimp only
  rw [Cmd.bind_ok hiput]
  rfl

theorem dirlink_uncached (lw : LogWrite L) (inum : Nat) (h : Listed s i n) (hx : names s n (cname name) = some c)
    (hc : ¬ ∃ j, (s.inode j).ref = 0 ∨ (s.inode j).inum = c) : ∃ e, dirlink lw i name inum s = .error e := by
  obtain ⟨k, hk, hkc⟩ := Option.map_eq_some_iff.mp hx
  have hlook : dirlookup lw i name s = .error (.inode .iget) := by
    rw [dirlookup, h.dirlookup, hk, looked, hkc, iget_full hc]
    rfl
  exact ⟨_, by rw [dirlink, Cmd.bind_error hlook]⟩

theorem dirlink_exists {r : Int} (h : Listed s i n) (hx : names s n (cname name) = some c) (hok : dirlink lw i name inum s = .ok (r, s')) :
    r = -1 := by
  by_cases hc : ∃ j, (s.inode j).ref = 0 ∨ (s.inode j).inum = c
  · obtain ⟨_, _, _, _, -, -, hlink, -⟩ := dirlink_found lw inum h hx hc
    cases hok.symm.trans hlink
    rfl
  · obtain ⟨e, he⟩ := dirlink_uncached lw inum h hx hc
    cases hok.symm.trans he

/-! ## A new name -/

/-- There is a free entry, or there is place at the end and the blocks that it takes are free. -/
def Room (s : Fs.State L) (n : Inum) : Prop :=
  (∃ k, k < count s n ∧ (entryAt s n k).inum = 0) ∨
    16 * count s n < MAXFILE * BSIZE ∧ (missing s n (range (16 * count s n) 16)).card ≤ spare s.blk

def place (s : Fs.State L) (n : Inum) : Nat :=
  (firstAt (count s n) (entryAt s n) (·.inum = 0)).getD (count s n)

theorem place_le (s : Fs.State L) (n : Inum) : place s n ≤ count s n := by
  rw [place]
  cases hf : firstAt (count s n) (entryAt s n) (·.inum = 0) with
  | none => exact le_rfl
  | some k => exact (firstAt_some.mp hf).2.1.le

theorem place_free (h : place s n < count s n) : (entryAt s n (place s n)).inum = 0 := by
  cases hf : firstAt (count s n) (entryAt s n) (·.inum = 0) with
  | none =>
    rw [place, hf] at h
    exact absurd h (lt_irrefl _)
  | some k =>
    rw [place, hf]
    exact of_decide_eq_true (firstAt_some.mp hf).1

theorem place_lt (h : ∃ k, k < count s n ∧ (entryAt s n k).inum = 0) : place s n < count s n := by
  obtain ⟨k, hk, hz⟩ := h
  cases hf : firstAt (count s n) (entryAt s n) (·.inum = 0) with
  | none => exact absurd (decide_eq_true hz) (Bool.eq_false_iff.mp (firstAt_none.mp hf k hk))
  | some j =>
    rw [place, hf]
    exact (firstAt_some.mp hf).2.1

theorem place_full (h : ∀ k, k < count s n → (entryAt s n k).inum ≠ 0) : place s n = count s n := by
  rw [place, firstAt_none.mpr fun k hk => decide_eq_false (h k hk)]
  rfl

theorem Room.place (h : Listed s i n) (hr : Room s n) : 16 * place s n + 16 ≤ MAXFILE * BSIZE ∧
    (missing s n (range (16 * place s n) 16)).card ≤ spare s.blk := by
  have hsize := h.size_eq
  have hsmall := h.small
  have hM : MAXFILE * BSIZE = 71680 := by decide
  by_cases hlt : Sysfile.place s n < count s n
  · refine ⟨by omega, ?_⟩
    -- the block of an entry is there
    rw [missing_range_full fun bn hbn => h.full bn (by omega)]
    exact Nat.zero_le _
  · have he : Sysfile.place s n = count s n := by have := place_le s n; omega
    rcases hr with ⟨k, hk, hz⟩ | ⟨hlt', hsp⟩
    · exact absurd (place_lt ⟨k, hk, hz⟩) hlt
    · rw [he]
      exact ⟨by omega, hsp⟩

def newEntry (name : Str) (inum : Nat) : Dirent := ⟨.ofNat 16 inum, strncpy DIRSIZ name⟩

theorem newEntry_name (name : Str) (inum : Nat) :
    (newEntry name inum).name.length = DIRSIZ ∧ cname (newEntry name inum).name = cname name := by
  rw [newEntry, Dir.strncpy_eq_pad]
  exact ⟨Dir.length_pad (Dir.canon_cname name), Dir.cname_pad (Dir.canon_cname name)⟩

theorem dirlink_eq (h : Listed s i n) (hx : names s n (cname name) = none) :
    dirlink lw i name inum s = writeEntry lw i (newEntry name inum) (.ofNat 32 (16 * place s n)) .dirlink s >>= fun r => .ok (0, r.2) := by
  have hlook : dirlookup lw i name s = .ok (none, s) := by
    rw [dirlookup, h.dirlookup, Option.map_eq_none_iff.mp hx]
    rfl
  have hfuel : count s n < 0 + ((s.inode i).d.size.toNat + 1) := by
    rw [← h.inv.view_live h.live, count]
    omega
  obtain ⟨b, hfind⟩ : ∃ b, findEntry lw .dirlinkRead (·.inum = 0) i ((s.inode i).d.size.toNat + 1) 0 s =
      .ok ((b, .ofNat 32 (16 * place s n)), s) :=
    findEntry_eq (k := 0) h (Nat.zero_le _) hfuel fun j hj => absurd hj (Nat.not_lt_zero j)
  rw [dirlink, Cmd.bind_ok hlook]
  dsimp only
  rw [Cmd.bind_ok (show fields i s = .ok ((s.inode i).d, s) from rfl), Cmd.bind_ok hfind]
  rfl

theorem writeEntry_returns (de : Dirent) (e : DirPanic) (h : Listed s i n) (hk : k ≤ count s n)
    (hmax : 16 * k + 16 ≤ MAXFILE * BSIZE) (hsp : (missing s n (range (16 * k) 16)).card ≤ spare s.blk)
    (hlw : ∀ l b, lw l b ≠ none) : ∃ s', writeEntry lw i de (.ofNat 32 (16 * k)) e s = .ok ((), s') ∧
      Splices s i n (de.bytes.getD · 0) (16 * k) 16 s' := by
  have hoff := toNat_slot hk
  have h16 : (16 : BitVec 32).toNat = 16 := rfl
  have hM : MAXFILE * BSIZE < 2 ^ 32 := by decide
  have hsize := h.size_eq
  have hdev : (view s n).type ≠ T_DEV := by rw [h.type]; decide
  have hr : InRange s n (.ofNat 32 (16 * k)) 16 := ⟨by rw [hoff]; omega, by rw [hoff, h16]; omega⟩
  have hmax' : (BitVec.ofNat 32 (16 * k)).toNat + (16 : BitVec 32).toNat ≤ MAXFILE * BSIZE := by rw [hoff, h16]; exact hmax
  have hends : Ends (NoSpace lw) _ (Fs.writei lw s i (de.bytes.getD · 0) (.ofNat 32 (16 * k)) 16) :=
    ends_writei h.inv h.live hdev hr hmax'
  have hfills : Ends (Short lw s n _) _ (Fs.writei lw s i (de.bytes.getD · 0) (.ofNat 32 (16 * k)) 16) :=
    fills_writei h.inv h.live hdev hr hmax'
  rw [hoff, h16] at hends hfills
  obtain ⟨r, hw, _, hres, hsplice⟩ := (hfills.and hends).returns fun p hp he => by
    rcases hp with ⟨_, _, _, l, b, _, _, hb, _⟩ | ⟨_, hlt⟩
    · exact hlw l b hb
    · omega
  refine ⟨r.2, ?_, hsplice⟩
  have hwrite : writei lw i (de.bytes.getD · 0) (.ofNat 32 (16 * k)) 16 s = .ok (r.1, r.2) := by
    simp only [writei, inode, hw]
    rfl
  rw [writeEntry, Cmd.bind_ok hwrite, hres]
  rfl

/-! ## Results -/

def Finds (lw : LogWrite L) (s : Fs.State L) (i : Fin NINODE) (name : Str) : Option Nat → Prop
  | none => dirlookup lw i name s = .ok (none, s)
  | some c => ∃ off, dirlookup lw i name s = do
      let (ip, s) ← iget c s
      return (some (off, ip), s)

theorem finds_names (h : Listed s i n) (name : Str) : Finds lw s i name (names s n (cname name)) := by
  rw [names, nameIn]
  cases hf : firstAt (count s n) (entryAt s n) (named (cname name)) with
  | none =>
    change dirlookup lw i name s = .ok (none, s)
    rw [dirlookup, h.dirlookup, hf]
    rfl
  | some k =>
    refine ⟨.ofNat 32 (16 * k), ?_⟩
    rw [dirlookup, h.dirlookup, hf]
    rfl

/-- The name is in the map now, for `inum`. -/
structure Links (lw : LogWrite L) (s : Fs.State L) (i : Fin NINODE) (n : Inum) (name : Str) (inum : Nat)
    (s' : Fs.State L) : Prop where
  listed : Listed s' i n
  other : ∀ m, m ≠ n → content s' m = content s m
  map : ∀ x, Finds lw s i x (names s n (cname x)) ∧ Finds lw s' i x (names s' n (cname x)) ∧
    names s' n (cname x) = if cname x = cname name then some inum else names s n (cname x)

/-- The name was in the map, and nothing has changed. `iput` waits for the lock of the inode that was found, so it must not be the one
of the directory, which the caller has. -/
structure Refuses (lw : LogWrite L) (s : Fs.State L) (i : Fin NINODE) (n : Inum) (name : Str)
    (s' : Fs.State L) : Prop where
  found : ∃ off ip s1, dirlookup lw i name s = .ok (some (off, ip), s1) ∧ ip ≠ i
  disk : s'.disk = s.disk
  ref : ∀ j, (s'.inode j).ref = (s.inode j).ref
  content : ∀ m, content s' m = content s m
  map : ∀ x, Finds lw s i x (names s n (cname x)) ∧ Finds lw s' i x (names s n (cname x))

theorem refuses_iff (lw : LogWrite L) (inum : Nat) (h : Listed s i n) (hx : names s n (cname name) = some c) :
    (∃ s', dirlink lw i name inum s = .ok (-1, s') ∧ Refuses lw s i n name s') ↔
      c ≠ n.val ∧ ∃ j, (s.inode j).ref = 0 ∨ (s.inode j).inum = c := by
  by_cases hc : ∃ j, (s.inode j).ref = 0 ∨ (s.inode j).inum = c
  · obtain ⟨k, ip, s1, s', hlook, hg, hlink, hidle⟩ := dirlink_found lw inum h hx hc
    have hsame := hidle.same
    have hl' : Listed s' i n := hsame.listed h (hidle.inv h.inv) (hidle.live.mpr h.live)
    constructor
    · rintro ⟨_, -, ⟨_, _, _, hlook', hne⟩, -⟩
      rw [hlook] at hlook'
      cases hlook'
      exact ⟨fun he => hne (hg.self h.inv.uniq h.live he.symm), hc⟩
    · rintro ⟨hne, -⟩
      refine ⟨s', hlink, ⟨_, ip, s1, hlook, ?_⟩, hidle.disk, hidle.ref, hsame.content, fun x => ⟨finds_names h x, ?_⟩⟩
      · rintro rfl
        exact hne (hg.inum_eq h.live).symm
      · rw [← hsame.names]
        exact finds_names hl' x
  · obtain ⟨e, he⟩ := dirlink_uncached lw inum h hx hc
    rw [he]
    exact ⟨by rintro ⟨_, ⟨⟩, _⟩, fun h' => absurd h'.2 hc⟩

theorem dirlink_full (h : Listed s i n) (hsize : 16 * count s n = MAXFILE * BSIZE) (hfull : ∀ k, k < count s n → (entryAt s n k).inum ≠ 0)
    (hx : names s n (cname name) = none) : dirlink lw i name inum s = .error .dirlink := by
  have hoff := toNat_slot (le_refl (count s n))
  have hdev : (view s n).type ≠ T_DEV := by rw [h.type]; decide
  have h16 : (16 : BitVec 32).toNat = 16 := rfl
  have hrefuse : Fs.writei lw s i ((newEntry name inum).bytes.getD · 0) (.ofNat 32 (16 * count s n)) 16 = .ok (-1, s) :=
    writei_refuses h.inv.toCore h.live hdev fun hc => by
      have := hc.2
      rw [hoff, h16] at this
      omega
  have hwrite : writei lw i ((newEntry name inum).bytes.getD · 0) (.ofNat 32 (16 * count s n)) 16 s = .ok (-1, s) := by
    simp only [writei, inode, hrefuse]
    rfl
  rw [dirlink_eq h hx, place_full hfull, writeEntry, Cmd.bind_ok hwrite]
  rfl

theorem dirlink_new (inum : Nat) (h : Listed s i n) (hx : names s n (cname name) = none) (hroom : Room s n)
    (hlw : ∀ l b, lw l b ≠ none) :
    ∃ s', dirlink lw i name inum s = .ok (0, s') ∧ Listed s' i n ∧ (∀ m, m ≠ n → content s' m = content s m) ∧
      Adds (count s n) (entryAt s n) (place s n) (newEntry name inum) (count s' n) (entryAt s' n) := by
  obtain ⟨hmax, hsp⟩ := hroom.place h
  obtain ⟨s', hw, hs⟩ := writeEntry_returns (newEntry name inum) .dirlink h (place_le s n) hmax hsp hlw
  refine ⟨s', ?_, hs.listed h (place_le s n) hmax, hs.other, hs.adds h (place_le s n) place_free (newEntry_name name inum).1⟩
  rw [dirlink_eq h hx, hw]
  rfl

/-- A new entry that is written at the end has taken its blocks from the free ones. -/
theorem room_of_dirlink (h : Listed s i n) (hx : names s n (cname name) = none) (hok : dirlink lw i name inum s = .ok (0, s')) :
    Room s n := by
  by_cases hfree : ∃ k, k < count s n ∧ (entryAt s n k).inum = 0
  · exact .inl hfree
  have hfull : ∀ k, k < count s n → (entryAt s n k).inum ≠ 0 := fun k hk hz => hfree ⟨k, hk, hz⟩
  have hsize := h.size_eq
  have hsmall := h.small
  have hM : MAXFILE * BSIZE = 71680 := by decide
  have hlt : 16 * count s n < MAXFILE * BSIZE := by
    by_contra hge
    rw [dirlink_full h (by omega) hfull hx] at hok
    cases hok
  have hoff := toNat_slot (le_refl (count s n))
  have h16 : (16 : BitVec 32).toNat = 16 := rfl
  have hdev : (view s n).type ≠ T_DEV := by rw [h.type]; decide
  have hr : InRange s n (.ofNat 32 (16 * count s n)) 16 := ⟨by rw [hoff]; omega, by rw [hoff, h16]; omega⟩
  have hfills : Ends (Short lw s n _) _ (Fs.writei lw s i ((newEntry name inum).bytes.getD · 0) (.ofNat 32 (16 * count s n)) 16) :=
    fills_writei h.inv h.live hdev hr (by rw [hoff, h16]; omega)
  rw [hoff, h16] at hfills
  rw [dirlink_eq h hx, place_full hfull, writeEntry] at hok
  cases hw : Fs.writei lw s i ((newEntry name inum).bytes.getD · 0) (.ofNat 32 (16 * count s n)) 16 with
  | error e =>
    have herr : writei lw i ((newEntry name inum).bytes.getD · 0) (.ofNat 32 (16 * count s n)) 16 s = .error (.inode e) := by
      simp only [writei, inode, hw]
      rfl
    rw [Cmd.bind_error herr] at hok
    cases hok
  | ok r => exact .inr ⟨hlt, by have := (hfills.of_ok hw).spare; omega⟩

theorem links_iff (h : Listed s i n) (hx : names s n (cname name) = none) (hpos : 0 < inum) (hlw : ∀ l b, lw l b ≠ none) :
    (∃ s', dirlink lw i name inum s = .ok (0, s') ∧ Links lw s i n name inum s') ↔ inum < 2 ^ 16 ∧ Room s n := by
  have hname := (newEntry_name name inum).2
  have hinum : (newEntry name inum).inum.toNat = inum % 2 ^ 16 := BitVec.toNat_ofNat ..
  constructor
  · rintro ⟨s', hok, hlinks⟩
    have hroom := room_of_dirlink h hx hok
    obtain ⟨s1, hok1, -, -, hadds⟩ := dirlink_new inum h hx hroom hlw
    cases hok.symm.trans hok1
    refine ⟨?_, hroom⟩
    have hnow := (hlinks.map name).2.2
    rw [if_pos rfl] at hnow
    by_cases hz : (newEntry name inum).inum = 0
    · -- the entry counts as free
      have hsame := hadds.firstAt_eq (p := named (cname name)) (fun hk => decide_eq_false fun hc => hc.1 (place_free hk))
        (decide_eq_false fun hc => hc.1 hz)
      rw [names, nameIn, hsame, Option.map_eq_none_iff.mp hx] at hnow
      cases hnow
    · have hmap := hadds.nameIn hz (by rw [hname]; exact hx) (cname name)
      rw [hname, if_pos rfl, hinum] at hmap
      rw [names, hmap] at hnow
      have := Option.some.inj hnow
      omega
  · rintro ⟨hlt, hroom⟩
    obtain ⟨s', hok, hl', hother, hadds⟩ := dirlink_new inum h hx hroom hlw
    rw [Nat.mod_eq_of_lt hlt] at hinum
    refine ⟨s', hok, hl', hother, fun x => ⟨finds_names h x, finds_names hl' x, ?_⟩⟩
    have hmap := hadds.nameIn (fun hz => by rw [hz] at hinum; exact absurd hinum (ne_of_lt hpos)) (by rw [hname]; exact hx) (cname x)
    rw [hname, hinum] at hmap
    exact hmap

/-- `dirlink` returns 0 after it has added the name, or a negative value with nothing changed, exactly if: a name that exists is not the
directory itself and its inode fits into the cache; a new name has a place, with blocks that are free, and a number that fits. -/
theorem dirlink_updates (h : Listed s i n) (name : Str) (hpos : 0 < inum) (hlw : ∀ l b, lw l b ≠ none) :
    (∃ r s', dirlink lw i name inum s = .ok (r, s') ∧ (r = 0 ∧ Links lw s i n name inum s' ∨ r < 0 ∧ Refuses lw s i n name s')) ↔
      (∀ c, names s n (cname name) = some c → c ≠ n.val ∧ ∃ j, (s.inode j).ref = 0 ∨ (s.inode j).inum = c) ∧
      (names s n (cname name) = none → inum < 2 ^ 16 ∧ Room s n) := by
  cases hx : names s n (cname name) with
  | none =>
    have hiff := links_iff h hx hpos hlw
    constructor
    · rintro ⟨r, s', hok, ⟨rfl, hlinks⟩ | ⟨-, ⟨_, _, _, hlook, -⟩, -⟩⟩
      · exact ⟨by rintro c ⟨⟩, fun _ => hiff.mp ⟨s', hok, hlinks⟩⟩
      · rw [dirlookup, h.dirlookup, Option.map_eq_none_iff.mp hx] at hlook
        cases hlook
    · rintro ⟨-, hnew⟩
      obtain ⟨s', hok, hlinks⟩ := hiff.mpr (hnew rfl)
      exact ⟨0, s', hok, .inl ⟨rfl, hlinks⟩⟩
  | some c =>
    have hiff := refuses_iff lw inum h hx
    constructor
    · rintro ⟨r, s', hok, hcase⟩
      obtain rfl := dirlink_exists h hx hok
      obtain ⟨⟨⟩, -⟩ | ⟨-, href⟩ := hcase
      refine ⟨?_, by rintro ⟨⟩⟩
      rintro _ ⟨⟩
      exact hiff.mp ⟨s', hok, href⟩
    · rintro ⟨hold, -⟩
      obtain ⟨s', hok, href⟩ := hiff.mpr (hold c rfl)
      exact ⟨-1, s', hok, .inr ⟨by decide, href⟩⟩

/-! ## A new directory -/

def newDir : List Fs.Call :=
  [.ialloc T_DIR, .ilock entry0, .ialloc T_FILE, .ilock ⟨1, by decide⟩, .update ⟨1, by decide⟩ 0 0 4478, .update entry0 0 0 1]

structure Empty (s : Fs.State (List Nat)) : Prop where
  run : Fs.Runs record s
  live : Live s entry0 inode2
  type : (view s inode2).type = T_DIR
  size : (view s inode2).size = 0
  free : (s.inode ⟨2, by decide⟩).ref = 0
  blocks : MAXFILE + 1 ≤ spare s.blk

theorem exists_empty : ∃ s, Empty s := by
  obtain ⟨s, hs, hl, ht, hz, hr, hu⟩ := Reach.of_runs newDir
    (fun s => Live s entry0 inode2 ∧ (view s inode2).type = T_DIR ∧ (view s inode2).size = 0 ∧
      (s.inode ⟨2, by decide⟩).ref = 0 ∧ ∀ j, j < MAXFILE + 1 → used s.blk (1000 + j) = false) runs_empty (by decide +kernel)
  exact ⟨s, hs, hl, ht, hz, hr, le_spare (by decide) hu⟩

theorem Empty.listed {s : Fs.State (List Nat)} (h : Empty s) : Listed s entry0 inode2 where
  inv := h.run.inv
  live := h.live
  type := h.type
  small := by rw [h.size]; exact Nat.zero_le _
  aligned := by rw [h.size]; rfl
  full bn hbn := by rw [h.size] at hbn; exact absurd hbn (Nat.not_lt_zero _)

theorem dirlink_updates_new_dir : ∃ s s' : Fs.State (List Nat), dirlink record entry0 [120] 3 s = .ok (0, s') ∧
    Finds record s entry0 [120] none ∧ Finds record s' entry0 [120] (some 3) := by
  obtain ⟨s, h⟩ := exists_empty
  have hcount : count s inode2 = 0 := by rw [count, h.size]; rfl
  have hnone : names s inode2 (cname [120]) = none := by rw [names, hcount]; rfl
  have hroom : Room s inode2 := by
    refine .inr ⟨by rw [hcount]; decide, ?_⟩
    exact ((card_missing_le s inode2 _).trans (card_range _ _)).trans
      ((Nat.add_le_add_right (card_touched_le _ _) 1).trans h.blocks)
  obtain ⟨r, s', hs', ⟨rfl, hlinks⟩ | ⟨-, ⟨_, _, _, hlook, -⟩, -⟩⟩ := (dirlink_updates h.listed [120]
    (show 0 < 3 by decide) fun l b => Option.some_ne_none (l ++ [b])).mpr ⟨by rw [hnone]; rintro c ⟨⟩, fun _ => ⟨by decide, hroom⟩⟩
  · obtain ⟨hx, hx', hmap⟩ := hlinks.map [120]
    rw [hnone] at hx
    rw [hmap, if_pos rfl] at hx'
    exact ⟨s, s', hs', hx, hx'⟩
  · rw [dirlookup, h.listed.dirlookup, Option.map_eq_none_iff.mp hnone] at hlook
    cases hlook

/-! ## A full directory -/

def letters (k : Nat) : Str := [.ofNat 8 (97 + k % 26), .ofNat 8 (97 + k / 26 % 26), .ofNat 8 (97 + k / 676)]

/-- The entries of a full directory: itself, the root, and links to the file. -/
def fullEntry (k : Nat) : Dirent :=
  if k = 0 then newEntry Dir.dot 2 else if k = 1 then newEntry Dir.dotdot 1 else newEntry (letters k) 3

def fullBytes (q : Nat) : BitVec 8 := (fullEntry (q / 16)).bytes.getD (q % 16) 0

theorem fullEntry_name (k : Nat) : (fullEntry k).name.length = DIRSIZ ∧ (fullEntry k).inum ≠ 0 := by
  unfold fullEntry
  split
  · exact ⟨(newEntry_name _ _).1, by decide⟩
  · split
    · exact ⟨(newEntry_name _ _).1, by decide⟩
    · exact ⟨(newEntry_name _ _).1, show BitVec.ofNat 16 3 ≠ 0 by decide⟩

theorem letters_canon (h : k < 4480) : Dir.Canon (letters k) := by
  refine ⟨show 3 ≤ DIRSIZ by decide, fun hz => ?_⟩
  simp only [letters, List.mem_cons, List.not_mem_nil, or_false] at hz
  have hne : ∀ a, 97 + a < 256 → (0 : BitVec 8) ≠ .ofNat 8 (97 + a) := fun a ha he => by
    have := congrArg BitVec.toNat he
    rw [BitVec.toNat_ofNat, Nat.mod_eq_of_lt ha] at this
    change 0 = 97 + a at this
    omega
  rcases hz with hz | hz | hz
  all_goals exact hne _ (by omega) hz

theorem letters_inj {j k : Nat} (hj : j < 4480) (hk : k < 4480) (h : letters j = letters k) : j = k := by
  have hinj : ∀ a b, 97 + a < 256 → 97 + b < 256 → BitVec.ofNat 8 (97 + a) = BitVec.ofNat 8 (97 + b) → a = b :=
    fun a b ha hb he => by
      have := congrArg BitVec.toNat he
      rw [BitVec.toNat_ofNat, BitVec.toNat_ofNat, Nat.mod_eq_of_lt ha, Nat.mod_eq_of_lt hb] at this
      omega
  simp only [letters, List.cons.injEq, and_true] at h
  have h1 := hinj _ _ (by omega) (by omega) h.1
  have h2 := hinj _ _ (by omega) (by omega) h.2.1
  have h3 := hinj _ _ (by omega) (by omega) h.2.2
  omega

def fullName (k : Nat) : Str := if k = 0 then Dir.dot else if k = 1 then Dir.dotdot else letters k

theorem cname_fullEntry (h : k < 4480) : cname (fullEntry k).name = fullName k := by
  unfold fullEntry fullName
  split
  · exact (newEntry_name _ _).2.trans (Dir.cname_of_canon Dir.canon_dot)
  · split
    · exact (newEntry_name _ _).2.trans (Dir.cname_of_canon Dir.canon_dotdot)
    · exact (newEntry_name _ _).2.trans (Dir.cname_of_canon (letters_canon h))

theorem length_fullName (k : Nat) : (fullName k).length = min (k + 1) 3 := by
  unfold fullName
  split
  · rename_i hk
    subst hk
    rfl
  · split
    · rename_i hk
      subst hk
      rfl
    · change 3 = _
      omega

theorem fullName_inj {j k : Nat} (hj : j < 4480) (hk : k < 4480) (h : fullName j = fullName k) : j = k := by
  have hlen := congrArg List.length h
  rw [length_fullName, length_fullName] at hlen
  by_cases hj2 : 2 ≤ j
  · unfold fullName at h
    rw [if_neg (by omega), if_neg (by omega), if_neg (by omega), if_neg (by omega)] at h
    exact letters_inj hj hk h
  · omega

theorem Empty.fill {s : Fs.State (List Nat)} (h : Empty s) : ∃ s', Splices s entry0 inode2 fullBytes 0 (MAXFILE * BSIZE) s' := by
  have hlen : (BitVec.ofNat 32 (MAXFILE * BSIZE)).toNat = MAXFILE * BSIZE := by decide
  have hr : InRange s inode2 0 (.ofNat 32 (MAXFILE * BSIZE)) := ⟨Nat.zero_le _, by rw [hlen]; decide⟩
  have hdev : (view s inode2).type ≠ T_DEV := by rw [h.type]; decide
  have hmax : (0 : BitVec 32).toNat + (BitVec.ofNat 32 (MAXFILE * BSIZE)).toNat ≤ MAXFILE * BSIZE := by
    rw [hlen]
    exact (zero_add _).le
  have hends : Ends (NoSpace record) _ (Fs.writei record s entry0 fullBytes 0 (.ofNat 32 (MAXFILE * BSIZE))) :=
    ends_writei h.run.inv h.live hdev hr hmax
  have hfills : Ends (Short record s inode2 _) _ (Fs.writei record s entry0 fullBytes 0 (.ofNat 32 (MAXFILE * BSIZE))) :=
    fills_writei h.run.inv h.live hdev hr hmax
  obtain ⟨r, _, _, _, hs⟩ := (hfills.and hends).returns fun p hp he => by
    rcases hp with ⟨_, _, _, l, b, _, _, hb, _⟩ | ⟨_, hlt⟩
    · cases hb
    · have hcard := (card_missing_le s inode2 _).trans (card_range (0 : BitVec 32).toNat (BitVec.ofNat 32 (MAXFILE * BSIZE)).toNat)
      have htouched := card_touched_le (0 : BitVec 32).toNat (BitVec.ofNat 32 (MAXFILE * BSIZE)).toNat
      have := h.blocks
      omega
  rw [hlen] at hs
  exact ⟨r.2, hs⟩

/-- What a directory is: no name occurs twice, and the names of the directory and its parent come first. -/
structure Directory (s : Fs.State L) (i : Fin NINODE) (n : Inum) : Prop extends Listed s i n where
  two : 2 ≤ count s n
  dot : cname (entryAt s n 0).name = Dir.dot ∧ (entryAt s n 0).inum.toNat = n.val
  dotdot : cname (entryAt s n 1).name = Dir.dotdot ∧ (entryAt s n 1).inum ≠ 0
  distinct : ∀ j k, j < count s n → k < count s n → (entryAt s n j).inum ≠ 0 → (entryAt s n k).inum ≠ 0 →
    cname (entryAt s n j).name = cname (entryAt s n k).name → j = k

theorem exists_full : ∃ s : Fs.State (List Nat), Directory s entry0 inode2 ∧ count s inode2 = 4480 ∧
    ∀ k, k < 4480 → entryAt s inode2 k = fullEntry k := by
  obtain ⟨s, h⟩ := exists_empty
  obtain ⟨s', hs⟩ := h.fill
  have hsize : (view s' inode2).size.toNat = 71680 := by
    rw [hs.size, h.size]
    decide
  have hcount : count s' inode2 = 4480 := by rw [count, hsize]
  have hentry : ∀ k, k < 4480 → entryAt s' inode2 k = fullEntry k := by
    intro k hk
    have hbyte : ∀ j, j < 16 → byteAt s' inode2 (16 * k + j) = (fullEntry k).bytes.getD j 0 := by
      intro j hj
      have hM : MAXFILE * BSIZE = 71680 := by decide
      rw [hs.byteAt (Nat.zero_le _) (by omega), if_pos (by omega), Nat.sub_zero, fullBytes,
        show (16 * k + j) / 16 = k by omega, show (16 * k + j) % 16 = j by omega]
    rw [entryAt, slot, tabulate_congr hbyte]
    exact ofBytes_bytes (fullEntry_name k).1
  have hlisted : Listed s' entry0 inode2 :=
    ⟨hs.inv, hs.live, hs.type.trans h.type, by rw [hsize]; decide, by rw [hsize], fun bn hbn => (hs.alloc bn).mpr (.inr ⟨by decide,
      by have hM : MAXFILE * BSIZE = 71680 := by decide
         omega, Nat.mul_pos (Nat.succ_pos bn) (by decide)⟩)⟩
  refine ⟨s', ⟨hlisted, by rw [hcount]; decide, ?_, ?_, ?_⟩, hcount, hentry⟩
  · rw [hentry 0 (by decide), cname_fullEntry (by decide)]
    exact ⟨rfl, rfl⟩
  · rw [hentry 1 (by decide), cname_fullEntry (by decide)]
    exact ⟨rfl, (fullEntry_name 1).2⟩
  · intro j k hj hk _ _ hjk
    rw [hcount] at hj hk
    rw [hentry j hj, hentry k hk, cname_fullEntry hj, cname_fullEntry hk] at hjk
    exact fullName_inj hj hk hjk

/-- `dirlink` does not always return: the directory may have the maximal size and no free entry. -/
theorem dirlink_panics : ¬ ∀ (s : Fs.State (List Nat)) (i : Fin NINODE) (n : Inum) (name : Str) (inum : Nat),
    Directory s i n → 0 < inum → inum < Mkfs.NINODES → ∃ r s', dirlink record i name inum s = .ok (r, s') := by
  intro hall
  obtain ⟨s, hs, hcount, hentry⟩ := exists_full
  have hfull : ∀ k, k < count s inode2 → (entryAt s inode2 k).inum ≠ 0 := fun k hk => by
    rw [hentry k (hcount ▸ hk)]
    exact (fullEntry_name k).2
  have hx : names s inode2 (cname [120]) = none := by
    rw [names, nameIn, Option.map_eq_none_iff, firstAt_none]
    intro k hk
    rw [hcount] at hk
    refine decide_eq_false ?_
    rintro ⟨_, hname⟩
    rw [hentry k hk, cname_fullEntry hk] at hname
    have hk0 : k = 0 := by
      have hlen := congrArg List.length hname
      rw [length_fullName] at hlen
      change min (k + 1) 3 = 1 at hlen
      omega
    subst hk0
    exact absurd hname (by decide)
  obtain ⟨r, s', hr⟩ := hall s entry0 inode2 [120] 3 hs (by decide) (by decide)
  rw [dirlink_full hs.toListed (by rw [hcount]; decide) hfull hx] at hr
  cases hr

end Xv6.Sysfile
