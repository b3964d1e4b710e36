import Xv6.Dir.Lemmas.Path
import Xv6.Fs.Lemmas.Scan
import Xv6.Sysfile.Theorems

/-!
# Path resolution

`namex` holds one reference at a time.
-/

namespace Xv6.Sysfile

open Xv6.Lib Xv6.Fs
open Xv6.Dir (Str cname skipelem slash components ROOTINO)

variable {L : Type} {lw : LogWrite L} {s s0 s' : Fs.State L} {ip i : Fin NINODE} {n m : Inum}
variable {l : Multiset (Fin NINODE)} {name x path : Str} {cs : List Str} {k : Nat} {parent : Bool}

/-! ## The meaning of a path -/

def child (s : Fs.State L) (n : Inum) (x : Str) : Option Inum :=
  if (view s n).type = T_DIR then (names s n x).bind fun c => if h : c < Mkfs.NINODES then some ⟨c, h⟩ else none else none

/-- The inode that the components lead to, or the directory in which the last of them is looked up. -/
def resolve (s : Fs.State L) (parent : Bool) (n : Inum) (cs : List Str) : Option Inum :=
  if parent then
    if cs = [] then none else (cs.dropLast.foldlM (child s) n).filter fun m => (view s m).type = T_DIR
  else cs.foldlM (child s) n

theorem child_of_not_dir (h : (view s n).type ≠ T_DIR) (x : Str) : child s n x = none := if_neg h

theorem resolve_of_not_dir (h : (view s n).type ≠ T_DIR) (x : Str) (cs : List Str) : resolve s parent n (x :: cs) = none := by
  unfold resolve
  split
  · rw [if_neg (List.cons_ne_nil x cs)]
    cases cs with
    | nil =>
      change Option.filter _ (some n) = none
      rw [Option.filter_some, if_neg (by simpa using h)]
    | cons y cs =>
      rw [List.dropLast_cons_cons, List.foldlM_cons, child_of_not_dir h]
      rfl
  · rw [List.foldlM_cons, child_of_not_dir h]
    rfl

theorem resolve_last (h : (view s n).type = T_DIR) (x : Str) : resolve s true n [x] = some n := by
  rw [resolve, if_pos rfl, if_neg (List.cons_ne_nil x [])]
  change Option.filter _ (some n) = some n
  rw [Option.filter_some, if_pos (by simpa using h)]

theorem resolve_cons (hp : ¬ (parent = true ∧ cs = [])) :
    resolve s parent n (x :: cs) = (child s n x).bind fun m => resolve s parent m cs := by
  unfold resolve
  split
  · rename_i hpar
    have hne : cs ≠ [] := fun hc => hp ⟨hpar, hc⟩
    rw [if_neg (List.cons_ne_nil x cs), List.dropLast_cons_of_ne_nil hne, List.foldlM_cons]
    cases child s n x with
    | none => rfl
    | some m =>
      simp only [if_neg hne]
      rfl
  · rw [List.foldlM_cons]
    rfl

/-! ## Trees -/

def Good (s : Fs.State L) (n : Inum) : Prop :=
  (view s n).type ≠ 0 ∧ ((view s n).nlink ≠ 0 ∨ ∃ j, 0 < (s.inode j).ref ∧ (s.inode j).inum = n)

instance (s : Fs.State L) (n : Inum) : Decidable (Good s n) := by
  unfold Good
  infer_instance

structure Rooted (s : Fs.State L) : Prop where
  small : ∀ n, (view s n).type = T_DIR → (view s n).size.toNat ≤ MAXFILE * BSIZE
  aligned : ∀ n, (view s n).type = T_DIR → (view s n).size.toNat % 16 = 0
  target : ∀ n, (view s n).type = T_DIR → ∀ k, k < count s n → (entryAt s n k).inum ≠ 0 →
    ∀ h : (entryAt s n k).inum.toNat < Mkfs.NINODES, Good s ⟨_, h⟩
  root : Good s rootIno
  held : ∀ i, 0 < (s.inode i).ref → ∀ h : (s.inode i).inum < Mkfs.NINODES, (view s ⟨_, h⟩).type ≠ 0

instance (s : Fs.State L) : Decidable (Rooted s) :=
  decidable_of_iff
    ((∀ n, (view s n).type = T_DIR → (view s n).size.toNat ≤ MAXFILE * BSIZE ∧ (view s n).size.toNat % 16 = 0 ∧
      ∀ k, k < count s n → (entryAt s n k).inum ≠ 0 → ∀ h : (entryAt s n k).inum.toNat < Mkfs.NINODES, Good s ⟨_, h⟩) ∧
      Good s rootIno ∧ ∀ i, 0 < (s.inode i).ref → ∀ h : (s.inode i).inum < Mkfs.NINODES, (view s ⟨_, h⟩).type ≠ 0)
    ⟨fun ⟨hd, hr, hh⟩ => ⟨fun n ht => (hd n ht).1, fun n ht => (hd n ht).2.1, fun n ht => (hd n ht).2.2, hr, hh⟩,
      fun h => ⟨fun n ht => ⟨h.small n ht, h.aligned n ht, h.target n ht⟩, h.root, h.held⟩⟩

structure Tree (s : Fs.State L) : Prop extends Synced s, Rooted s

theorem Tree.listed (h : Tree s0) (hs : Same s0 s) (hi : Inv s) (hl : Live s i n) (ht : (Fs.view s0 n).type = T_DIR) : Listed s i n where
  inv := hi
  live := hl
  type := by rw [hs.view]; exact ht
  small := by rw [hs.view]; exact h.small n ht
  aligned := by rw [hs.view]; exact h.aligned n ht
  full := by rw [hs.view, hs.dataRef]; exact h.full n

theorem Tree.good_of_held (h : Tree s) (hr : 0 < (s.inode i).ref) (hn : (s.inode i).inum = n) : Good s n := by
  have hne := h.held i hr (hn ▸ n.isLt)
  obtain rfl : n = ⟨_, h.inum i hr⟩ := Fin.ext hn.symm
  exact ⟨hne, .inr ⟨i, hr, rfl⟩⟩

theorem Tree.child (h : Tree s) (ht : (Fs.view s n).type = T_DIR) {c : Nat} (hx : names s n x = some c) :
    ∃ m : Inum, m.val = c ∧ Good s m ∧ Sysfile.child s n x = some m := by
  obtain ⟨k, hk, hkc⟩ := Option.map_eq_some_iff.mp hx
  obtain ⟨hnamed, hlt, _⟩ := firstAt_some.mp hk
  have hcount : count s n = (Fs.view s n).size.toNat / 16 := rfl
  have hc : c < Mkfs.NINODES := by
    rw [← hkc]
    exact h.names n ht (16 * k) (Nat.mul_mod_right ..) (by omega)
  subst hkc
  refine ⟨⟨_, hc⟩, rfl, h.target n ht k hlt (of_decide_eq_true hnamed).1 hc, ?_⟩
  rw [Sysfile.child, if_pos ht, hx, Option.bind_some, dif_pos hc]

/-! ## The state of a walk -/

/-- The walk holds the references `l`; nothing else has changed since `s0`, apart from entries of the cache that nobody uses. -/
structure Walking (s0 : Fs.State L) (l : Multiset (Fin NINODE)) (s : Fs.State L) : Prop where
  synced : Synced s
  disk : s.disk = s0.disk
  held : Held (fun j => (s0.inode j).ref) l 0 s
  inum : ∀ j, 0 < (s0.inode j).ref → (s.inode j).inum = (s0.inode j).inum

theorem Walking.refl (h : Synced s0) : Walking s0 0 s0 :=
  ⟨h, rfl, ⟨fun _ => rfl, le_rfl, fun i hi => absurd hi (Multiset.notMem_zero i)⟩, fun _ _ => rfl⟩

theorem Walking.same (h : Walking s0 l s) (h0 : Synced s0) : Same s0 s :=
  ⟨h.disk, fun m => by rw [h.synced.view, h0.view, h.disk]⟩

theorem Walking.gets {c : Nat} (h : Walking s0 l s) (hc : c < Mkfs.NINODES) (hg : Gets s c i s') : Walking s0 (i ::ₘ l) s' := by
  refine ⟨h.synced.gets hc hg, hg.disk.trans h.disk, h.held.gets hg, fun j hj => ?_⟩
  have hr : 0 < (s.inode j).ref := by
    rw [h.held.ref]
    exact Nat.add_pos_left hj _
  rw [← h.inum j hj, hg.keep hr]

theorem Walking.locks (h : Walking s0 l s) (hi : i ∈ l) (hk : Locks s i s') : Walking s0 l s' := by
  refine ⟨h.synced.locks hk, hk.disk.trans h.disk, ?_, fun j hj => ?_⟩
  · have := h.held.locks hk (by simpa using hi)
    exact ⟨this.ref, Multiset.zero_le l, fun j hj => absurd hj (Multiset.notMem_zero j)⟩
  · rw [← h.inum j hj, hk.entry]
    by_cases hji : j = i
    · subst hji
      rw [inode_setInode_self]
    · rw [inode_setInode_ne hji]

/-- A reference is given back. The inode is not freed, since it has a link or another reference. -/
theorem Walking.put (h : Walking s0 (ip ::ₘ l) s) (h0 : Synced s0) (hn : (s.inode ip).inum = n.val) (hg : Good s0 n) :
    ∃ s', iput lw ip s = .ok ((), s') ∧ Walking s0 l s' ∧ ∀ j, (s'.inode j).inum = (s.inode j).inum := by
  have hpos : 0 < (s.inode ip).ref := h.held.pos (Multiset.mem_cons_self ip l)
  have hkeep : ¬ Frees s ip := by
    rintro ⟨hv, hz, hone⟩
    have hlive : Live s ip n := ⟨hpos, hv, hn⟩
    rcases hg.2 with hlink | ⟨j, hj, hjn⟩
    · rw [h.synced.same ip n hlive, h.disk, ← h0.view] at hz
      exact hlink hz
    · have hr := h.held.ref j
      obtain rfl : j = ip := h.synced.uniq j ip (by omega) hpos (by rw [h.inum j hj, hjn, hn])
      rw [Multiset.count_cons_self] at hr
      omega
  have hends : Ends Any (fun s' => Synced s' ∧ Drops s ip s') (Fs.iput lw s ip) := h.synced.iput hpos
  rw [iput_keep hkeep] at hends
  have hinum : ∀ j, ((s.setInode ip { s.inode ip with ref := (s.inode ip).ref - 1 }).inode j).inum = (s.inode j).inum := by
    intro j
    by_cases hji : j = ip
    · subst hji
      exact hends.2.inum
    · rw [hends.2.other j hji]
  refine ⟨_, by simp only [iput, inode, iput_keep hkeep]; rfl, ⟨hends.1, h.disk, ?_, fun j hj => ?_⟩, hinum⟩
  · exact h.held.drops hends.2 (Multiset.zero_le l) fun j hj => hj
  · rw [hinum, h.inum j hj]

/-! ## Calls that return -/

def Spare (s : Fs.State L) : Prop := ∃ j k, j ≠ k ∧ (s.inode j).ref = 0 ∧ (s.inode k).ref = 0

theorem Walking.free (h : Walking s0 {ip} s) (hs : Spare s0) : ∃ j, (s.inode j).ref = 0 := by
  obtain ⟨j, k, hjk, hj, hk⟩ := hs
  by_cases hji : j = ip
  · refine ⟨k, ?_⟩
    rw [h.held.ref, hk, Multiset.count_singleton, if_neg (fun hc => hjk (hji.trans hc.symm))]
  · refine ⟨j, ?_⟩
    rw [h.held.ref, hj, Multiset.count_singleton, if_neg hji]

theorem ilock_returns (h : Synced s) (hr : 0 < (s.inode i).ref) (hn : (s.inode i).inum = n.val) (ht : (Fs.view s n).type ≠ 0) :
    ∃ s', ilock i s = .ok ((), s') ∧ Locks s i s' := by
  obtain ⟨s', he, hk⟩ := (locks_ilock s i).returns fun e _ he => by
    simp only [Fs.ilock] at he
    rw [if_neg (by omega)] at he
    split at he
    · cases he
    · rw [inode_setInode_self, hn, ← h.view] at he
      dsimp only at he
      rw [if_neg (show (Fs.view s n).type ≠ 0#16 from ht)] at he
      cases he
  refine ⟨s', ?_, hk⟩
  simp only [ilock, inode, he]
  rfl

/-! ## The loop -/

def Arrives (s0 : Fs.State L) (parent : Bool) (n : Inum) (cs : List Str) : Option (Fin NINODE × Str) → Fs.State L → Prop
  | none, s => Walking s0 0 s ∧ resolve s0 parent n cs = none
  | some (ip, name), s => Walking s0 {ip} s ∧ (∃ m, resolve s0 parent n cs = some m ∧ (s.inode ip).inum = m.val) ∧
    (parent = true → cs.getLast? = some name)

theorem Arrives.cons {r : Option (Fin NINODE × Str)} (h : Arrives s0 parent m cs r s) (hc : child s0 n x = some m)
    (hp : ¬ (parent = true ∧ cs = [])) : Arrives s0 parent n (x :: cs) r s := by
  have hres : resolve s0 parent n (x :: cs) = resolve s0 parent m cs := by rw [resolve_cons hp, hc, Option.bind_some]
  cases r with
  | none => exact ⟨h.1, hres.trans h.2⟩
  | some r =>
    obtain ⟨hw, ⟨m', hm', hi⟩, hlast⟩ := h
    refine ⟨hw, ⟨m', hres.trans hm', hi⟩, fun hpar => ?_⟩
    have hne : cs ≠ [] := fun hc => hp ⟨hpar, hc⟩
    rw [List.getLast?_cons_of_ne_nil hne]
    exact hlast hpar

theorem Walking.fail (h : Walking s0 {ip} s) (h0 : Synced s0) (hn : (s.inode ip).inum = n.val) (hg : Good s0 n)
    (hres : resolve s0 parent n cs = none) : ∃ r s', (do iput lw ip; return none : M L (Option (Fin NINODE × Str))) s = .ok (r, s') ∧
      Arrives s0 parent n cs r s' := by
  obtain ⟨s', hput, hw, -⟩ := h.put h0 hn hg
  exact ⟨none, s', Cmd.bind_ok hput, hw, hres⟩

theorem namexLoop_arrives (T : Tree s0) (hs : Spare s0) (h : Walking s0 {ip} s) (hn : (s.inode ip).inum = n.val) (hg : Good s0 n)
    (hk : path.length < k) : ∃ r s', namexLoop lw parent k ip path name s = .ok (r, s') ∧
      Arrives s0 parent n (components path) r s' := by
  induction k generalizing s ip n path name with
  | zero => exact absurd hk (Nat.not_lt_zero _)
  | succ k ih =>
    rw [namexLoop]
    cases hp : skipelem path with
    | none =>
      rw [Dir.components_none hp]
      cases parent with
      | true => exact h.fail T.toSynced hn hg rfl
      | false => exact ⟨some (ip, name), s, rfl, h, ⟨n, rfl, hn⟩, by simp⟩
    | some r =>
      obtain ⟨elem, rest⟩ := r
      obtain ⟨hcs, hslash⟩ := Dir.components_some hp
      have hrest := skipelem_length hp
      rw [hcs]
      have hmem : ip ∈ ({ip} : Multiset (Fin NINODE)) := Multiset.mem_singleton_self ip
      have hpos := h.held.pos hmem
      -- lock the inode
      obtain ⟨s1, hlock, hlk⟩ := ilock_returns h.synced hpos hn (by rw [(h.same T.toSynced).view]; exact hg.1)
      have h1 := h.locks hmem hlk
      have hlive := hlk.live hn
      have hd : (s1.inode ip).d.type = (Fs.view s0 n).type := by
        rw [← h1.synced.view_live hlive, (h1.same T.toSynced).view]
      dsimp only
      rw [Cmd.bind_ok hlock, Cmd.bind_ok (show fields ip s1 = .ok ((s1.inode ip).d, s1) from rfl), hd]
      by_cases ht : (Fs.view s0 n).type = T_DIR
      · rw [if_neg (not_not.mpr ht)]
        by_cases hlast : parent = true ∧ rest.headD 0 = 0
        · rw [if_pos hlast, (Dir.headD_eq_zero_iff hslash).mp hlast.2, hlast.1]
          exact ⟨some (ip, elem), s1, rfl, h1, ⟨n, resolve_last ht elem, hlive.inum⟩, fun _ => rfl⟩
        · rw [if_neg hlast]
          have hnext : ¬ (parent = true ∧ components rest = []) := fun hc =>
            hlast ⟨hc.1, (Dir.headD_eq_zero_iff hslash).mpr hc.2⟩
          have hlisted := T.listed (h1.same T.toSynced) h1.synced.toInv hlive ht
          have hnames : names s1 n (cname elem) = names s0 n elem := by
            rw [(h1.same T.toSynced).names, Dir.cname_of_canon (Dir.canon_of_skipelem hp)]
          -- look the component up
          cases hx : names s0 n elem with
          | none =>
            have hlook : dirlookup lw ip elem s1 = .ok (none, s1) := by
              rw [hx] at hnames
              rw [dirlookup, hlisted.dirlookup, Option.map_eq_none_iff.mp hnames]
              rfl
            rw [Cmd.bind_ok hlook]
            refine h1.fail T.toSynced hlive.inum hg ?_
            rw [resolve_cons hnext, child, if_pos ht, hx]
            rfl
          | some c =>
            obtain ⟨m, rfl, hgm, hchild⟩ := T.child ht hx
            rw [hx] at hnames
            obtain ⟨j, hj, hjc⟩ := Option.map_eq_some_iff.mp hnames
            obtain ⟨next, s2, hget, hgets⟩ := iget_returns m.val ((h1.free hs).imp fun _ => .inl)
            have hlook : dirlookup lw ip elem s1 = .ok (some (.ofNat 32 (16 * j), next), s2) := by
              rw [dirlookup, hlisted.dirlookup, hj, looked, hjc, hget]
              rfl
            have h2 : Walking s0 (ip ::ₘ {next}) s2 := by
              have := h1.gets m.isLt hgets
              rwa [← Multiset.cons_zero ip, Multiset.cons_swap, Multiset.cons_zero] at this
            have hn2 : (s2.inode ip).inum = n.val := (hgets.keep hlive.ref).trans hlive.inum
            obtain ⟨s3, hput, h3, hinum⟩ := h2.put T.toSynced hn2 hg
            rw [Cmd.bind_ok hlook]
            dsimp only
            rw [Cmd.bind_ok hput]
            have hlen : rest.length < k := by omega
            obtain ⟨r, s', hr, ha⟩ := ih h3 (by rw [hinum]; exact hgets.inum.2) hgm hlen
            exact ⟨r, s', hr, ha.cons hchild hnext⟩
      · rw [if_pos ht]
        exact h1.fail T.toSynced hlive.inum hg (resolve_of_not_dir ht elem (components rest))

/-! ## Results -/

def startAt (s : Fs.State L) (cwd : Fin NINODE) (path : Str) : Nat :=
  if path.headD 0 = slash then ROOTINO else (s.inode cwd).inum

theorem namex_arrives (T : Tree s) (hs : Spare s) {cwd : Fin NINODE} (hc : 0 < (s.inode cwd).ref) (hn : n.val = startAt s cwd path)
    (parent : Bool) : ∃ r s', namex lw cwd path parent s = .ok (r, s') ∧ Arrives s parent n (components path) r s' := by
  unfold startAt at hn
  unfold namex
  split at hn
  · rename_i hr
    rw [if_pos hr]
    have hfree : ∃ j, (s.inode j).ref = 0 := by
      obtain ⟨j, _, _, hj, _⟩ := hs
      exact ⟨j, hj⟩
    obtain ⟨ip, s1, hget, hg⟩ := iget_returns ROOTINO (hfree.imp fun _ => .inl)
    have higet : iget ROOTINO s = .ok (ip, s1) := by
      simp only [iget, inode, hget]
      rfl
    have h1 : Walking s {ip} s1 := (Walking.refl T.toSynced).gets (by decide) hg
    rw [Cmd.bind_ok higet]
    obtain rfl : n = rootIno := Fin.ext hn
    exact namexLoop_arrives T hs h1 hg.inum.2 T.root (Nat.lt_succ_self _)
  · rename_i hr
    rw [if_neg hr]
    have hidup : idup cwd s = .ok ((), Fs.idup s cwd) := rfl
    have hg : Gets s n.val cwd (Fs.idup s cwd) := .old hc hn.symm
    have h1 : Walking s {cwd} (Fs.idup s cwd) := (Walking.refl T.toSynced).gets n.isLt hg
    rw [Cmd.bind_ok hidup]
    exact namexLoop_arrives T hs h1 hg.inum.2 (T.good_of_held hc hn.symm) (Nat.lt_succ_self _)

/-- `namex` returns the inode that a path leads to, which is a fold of lookups, with one more reference; it changes nothing else. With
`parent` it stops before the last component, and returns this one too. -/
theorem namex_resolves (T : Tree s) (hs : Spare s) {cwd : Fin NINODE} (hc : 0 < (s.inode cwd).ref) (path : Str)
    (hn : n.val = startAt s cwd path) (parent : Bool) : ∃ r s', namex lw cwd path parent s = .ok (r, s') ∧
      (r.map fun x => (s'.inode x.1).inum) = (resolve s parent n (components path)).map Fin.val ∧
      (parent = true → ∀ x ∈ r, (components path).getLast? = some x.2) ∧
      s'.disk = s.disk ∧ (∀ m, content s' m = content s m) ∧
      ∀ j, (s'.inode j).ref = (s.inode j).ref + if r.map Prod.fst = some j then 1 else 0 := by
  obtain ⟨r, s', hr, ha⟩ := namex_arrives T hs hc hn parent
  refine ⟨r, s', hr, ?_⟩
  cases r with
  | none =>
    obtain ⟨hw, hres⟩ := ha
    refine ⟨by rw [hres]; rfl, fun _ => nofun, hw.disk, (hw.same T.toSynced).content, fun j => ?_⟩
    rw [hw.held.ref]
    simp
  | some x =>
    obtain ⟨hw, ⟨m, hres, hm⟩, hlast⟩ := ha
    refine ⟨by rw [hres]; exact congrArg some hm, fun hp y hy => ?_, hw.disk, (hw.same T.toSynced).content, fun j => ?_⟩
    · obtain rfl := Option.mem_some.mp hy
      exact hlast hp
    · rw [hw.held.ref, Multiset.count_singleton]
      simp [eq_comm]

/-! ## Trees that exist -/

theorem Gets.before {inum : Nat} {j : Fin NINODE} (h : Gets s inum i s') (hr : 0 < (s'.inode j).ref) :
    0 < (s.inode j).ref ∨ (s'.inode j).inum = inum := by
  by_cases hji : j = i
  · subst hji
    exact .inr h.inum.2
  · cases h with
    | old | new => rw [inode_setInode_ne hji] at hr; exact .inl hr

theorem Gets.after {inum : Nat} {j : Fin NINODE} (h : Gets s inum i s') (hr : 0 < (s.inode j).ref) : 0 < (s'.inode j).ref := by
  by_cases hji : j = i
  · subst hji
    exact h.inum.1
  · cases h with
    | old | new => rw [inode_setInode_ne hji]; exact hr

theorem Tree.new {s1 : Fs.State L} (h : Tree s) (hold : (Fs.view s n).type = 0) (hsync : Synced s')
    (hview : ∀ m, m ≠ n → Fs.view s' m = Fs.view s m) (hbyte : ∀ m, m ≠ n → byteAt s' m = byteAt s m)
    (hnew : (Fs.view s' n).type = T_FILE) (hinode : s1.inode = s.inode) (hg : Gets s1 n.val i s') : Tree s' := by
  have hdir : ∀ m, (Fs.view s' m).type = T_DIR → m ≠ n := by
    rintro m ht rfl
    rw [hnew] at ht
    exact absurd ht (by decide)
  have hgood : ∀ c, Good s c → Good s' c := by
    intro c hc
    have hne : c ≠ n := by rintro rfl; exact hc.1 hold
    rw [Good, hview c hne]
    refine ⟨hc.1, hc.2.imp id fun ⟨j, hj, hn⟩ => ⟨j, Gets.after hg (by rw [hinode]; exact hj), ?_⟩⟩
    rw [hg.keep (by rw [hinode]; exact hj), hinode, hn]
  refine ⟨hsync, fun m ht => ?_, fun m ht => ?_, fun m ht k hk => ?_, hgood _ h.root, fun j hj hlt => ?_⟩
  · have hv := hview m (hdir m ht)
    rw [hv] at ht ⊢
    exact h.small m ht
  · have hv := hview m (hdir m ht)
    rw [hv] at ht ⊢
    exact h.aligned m ht
  · have hne := hdir m ht
    have he : entryAt s' m k = entryAt s m k := by rw [entryAt, entryAt, hbyte m hne]
    rw [hview m hne] at ht
    rw [count, hview m hne] at hk
    rw [he]
    exact fun hz hlt => hgood _ (h.target m ht k hk hz hlt)
  · by_cases hjn : (s'.inode j).inum = n.val
    · have hn : (⟨_, hlt⟩ : Inum) = n := Fin.ext hjn
      rw [hn, hnew]
      decide
    · have hj' : 0 < (s.inode j).ref := by
        have := (Gets.before hg hj).resolve_right hjn
        rwa [hinode] at this
      have hi : (s'.inode j).inum = (s.inode j).inum := by rw [hg.keep (by rw [hinode]; exact hj'), hinode]
      have hlt' : (s.inode j).inum < Mkfs.NINODES := hi ▸ hlt
      have hn : (⟨_, hlt⟩ : Inum) = ⟨_, hlt'⟩ := Fin.ext hi
      rw [hn, hview _ fun he => hjn (by rw [hi, ← he])]
      exact h.held j hj' hlt'

theorem Tree.ialloc (h : Tree s) : Ends Any (fun r => Tree r.2) (Fs.ialloc lw s T_FILE) := by
  refine ends_ialloc h.sb (fun _ _ => trivial) fun n d hold hd => (gets_iget _ n).imp fun r hg => ?_
  have hsync := (h.toSynced.puts hd hold).gets n.2 hg
  have hview : ∀ m, view r.2 m = d.dinode m := fun m => by rw [hsync.view, hg.disk]
  have hother : ∀ m, m ≠ n → view r.2 m = view s m := fun m hm => by
    rw [hview, hd.other m hm, h.toSynced.view]
  have hsame : ({ s with disk := d } : Fs.State L).inode = s.inode := rfl
  refine h.new (by rw [h.toSynced.view]; exact hold) hsync hother (fun m hm => ?_) ?_ hsame hg
  · refine (byteAt_congr h.toCore (congrArg Dinode.addrs (hother m hm)) fun x hx => ?_).2
    have := iblock_lt_nmeta n
    rw [State.blk, hg.disk]
    exact hd.frame x (by omega)
  · rw [hview]
    exact congrArg Dinode.type hd.self

theorem tree_started : Tree started.fs := ⟨synced_started, by decide +kernel⟩

def newFile (s : Fs.State (List Nat)) (_ : Unit) : Option (Fs.State (List Nat)) :=
  ((Fs.ialloc record s T_FILE).toOption).map Prod.snd

theorem tree_newFile {s : Fs.State (List Nat)} (h : Reach (· = started.fs) newFile (fun _ _ => True) s) : Tree s := by
  refine h.inv (fun s hs => hs ▸ tree_started) fun s _ s' hs _ he => ?_
  have ht : Ends Any (fun r => Tree r.2) (Fs.ialloc record s T_FILE) := hs.ialloc
  unfold newFile at he
  cases hr : Fs.ialloc record s T_FILE with
  | error e => rw [hr] at he; cases he
  | ok r =>
    rw [hr] at he ht
    cases he
    exact ht

theorem one_lt_ninode : 1 < NINODE := by decide

def entry1 : Fin NINODE := ⟨1, one_lt_ninode⟩

def entry2 : Fin NINODE := ⟨2, by decide⟩

/-- The root directory, through a path with more than one slash and a name for the parent, from a process whose
    current directory is another inode. -/
theorem namex_resolves_root : ∃ (s s' : Fs.State (List Nat)) (ip : Fin NINODE) (name : Str),
    namex record entry0 [slash, 46, 46, slash, slash, 46, slash] false s = .ok (some (ip, name), s') ∧
      (s'.inode ip).inum = ROOTINO ∧ (s'.inode ip).ref = (s.inode ip).ref + 1 := by
  have hstart : Reach (· = started.fs) newFile (fun _ _ => True) started.fs := .init rfl
  obtain ⟨s, ht, h1, h2, hc, hres⟩ := Reach.of_runs [()]
    (fun s => (s.inode entry1).ref = 0 ∧ (s.inode entry2).ref = 0 ∧ 0 < (s.inode entry0).ref ∧
      resolve s false rootIno (components [slash, 46, 46, slash, slash, 46, slash]) = some rootIno)
    hstart (by decide +kernel)
  obtain ⟨r, s', hs', hr', -, -, -, href⟩ := namex_resolves (n := rootIno) (tree_newFile ht)
    ⟨entry1, entry2, by decide, h1, h2⟩ hc [slash, 46, 46, slash, slash, 46, slash] rfl false
  rw [hres] at hr'
  cases r with
  | none => cases hr'
  | some x => exact ⟨s, s', x.1, x.2, hs', Option.some.inj hr', by rw [href x.1]; simp⟩

/-- With every entry of the cache in use, even "/" has no place for the root directory. -/
theorem namex_panics : ¬ ∀ (s : Fs.State (List Nat)) (cwd : Fin NINODE) (path : Str) (parent : Bool), Tree s →
    0 < (s.inode cwd).ref → ∃ r s', namex record cwd path parent s = .ok (r, s') := by
  intro hall
  have hstart : Reach (· = started.fs) newFile (fun _ _ => True) started.fs := .init rfl
  obtain ⟨s, ht, hc, hno⟩ := Reach.of_runs (List.replicate NINODE ())
    (fun s => 0 < (s.inode entry0).ref ∧ ¬ (namex record entry0 [slash] false s).isOk)
    hstart (by decide +kernel)
  obtain ⟨r, s', hs'⟩ := hall s entry0 [slash] false (tree_newFile ht) hc
  rw [hs'] at hno
  exact hno rfl

end Xv6.Sysfile
