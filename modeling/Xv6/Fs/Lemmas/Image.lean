import Xv6.Fs.Lemmas.Content

/-!
# What `mkfs` writes

`mkfs` hands out blocks in order, so a block is taken if it lies below `freeblock`. Nothing checks that there are blocks left.
-/

namespace Xv6.Mkfs

open Xv6.Lib Xv6.Fs Function Bytes

variable {N : Nat} {m m1 m' : Img} {v v' : Fin N → Dinode} {din din' : Dinode} {n : Fin N} {b x : Nat} {p : Fin N × Idx} {fbn fuel k : Nat}

/-- The inodes own their blocks, and the blocks that are left are zero. -/
structure Good (v : Fin N → Dinode) (m : Img) : Prop where
  first : nmeta ≤ m.freeblock
  zero : ∀ x, m.freeblock ≤ x → m.blk x = fill BSIZE 0#8
  owns : Owned nmeta FSSIZE (fun x => x < m.freeblock) (refOf v m.blk)

structure Step (v v' : Fin N → Dinode) (m m' : Img) : Prop where
  mono : m.freeblock ≤ m'.freeblock
  inode : m'.freeinode = m.freeinode
  good : m'.freeblock ≤ FSSIZE → Good v m → Good v' m' ∧ ∀ x, x < nmeta → m'.blk x = m.blk x

theorem Step.refl : Step v v m m := ⟨le_rfl, rfl, fun _ h => ⟨h, fun _ _ => rfl⟩⟩

theorem Step.trans {v1 : Fin N → Dinode} (h1 : Step v v1 m m1) (h2 : Step v1 v' m1 m') : Step v v' m m' := by
  refine ⟨le_trans h1.mono h2.mono, h2.inode.trans h1.inode, fun hle hg => ?_⟩
  obtain ⟨hg1, hb1⟩ := h1.good (le_trans h2.mono hle) hg
  obtain ⟨hg2, hb2⟩ := h2.good hle hg1
  exact ⟨hg2, fun x hx => (hb2 x hx).trans (hb1 x hx)⟩

theorem Good.lt (h : Good v m) (hp : refOf v m.blk p ≠ 0) : refOf v m.blk p < m.freeblock := by
  simpa using h.owns.taken p hp

theorem Good.take (h : Good v m) (hle : m.freeblock + 1 ≤ FSSIZE) {blk' : Nat → Block}
    (href : refOf v' blk' = update (refOf v m.blk) p m.freeblock) (hz : ∀ x, m.freeblock + 1 ≤ x → blk' x = fill BSIZE 0#8) :
    Good v' { m with blk := blk', freeblock := m.freeblock + 1 } := by
  have hfirst := h.first
  refine ⟨Nat.le_succ_of_le h.first, hz, ?_⟩
  rw [href]
  have hfresh : ∀ q, refOf v m.blk q ≠ m.freeblock := h.owns.fresh (by decide) (by simp)
  refine (h.owns.mono (fun x _ hx => ?_) (by decide)).own hfresh (by simp) hfirst (by omega)
  have : x < m.freeblock := by simpa using hx
  simp only [decide_eq_true_eq]; omega

/-! ## The parts of `iappend` -/

theorem step_takeAddr (m : Img) (din : Dinode) (k : Fin (NDIRECT + 1)) :
    Step (update v n din) (update v n (takeAddr m din k).2) m (takeAddr m din k).1 := by
  unfold takeAddr
  split
  · rename_i hz
    refine ⟨Nat.le_succ _, rfl, fun hle hg => ⟨?_, fun _ _ => rfl⟩⟩
    have := refOf_setAddr (v := update v n din) (n := n) (b := m.freeblock) (k := k) m.blk hle
      fun hk => ⟨by rw [update_self, ← hk]; exact hz, hg.zero _ le_rfl⟩
    rw [update_self, update_idem] at this
    exact hg.take hle this fun x hx => hg.zero x (by omega)
  · exact Step.refl

theorem takeAddr_ne_zero (hf : nmeta ≤ m.freeblock) {k : Fin (NDIRECT + 1)} (hle : (takeAddr m din k).1.freeblock ≤ FSSIZE) :
    (takeAddr m din k).2.addrs k ≠ 0 := by
  have hmeta : 0 < nmeta := by decide
  unfold takeAddr at hle ⊢
  split at hle
  · rename_i hz
    rw [if_pos hz]
    dsimp only at hle ⊢
    rw [update_self]
    intro h0
    have := toNat_ofNat_fs (b := m.freeblock) hle
    rw [h0] at this
    have h0' : (0 : BitVec 32).toNat = 0 := rfl
    omega
  · rename_i hz
    rw [if_neg hz]; exact hz

theorem takeEntry_ne_zero (hf : nmeta ≤ m.freeblock) {ind : Nat} {j : Fin NINDIRECT}
    (hle : (takeEntry m ind j).freeblock ≤ FSSIZE) : ((takeEntry m ind j).blk ind).word (4 * j) ≠ 0 := by
  have hmeta : 0 < nmeta := by decide
  have hj := j.isLt
  simp only [NINDIRECT, BSIZE] at hj
  unfold takeEntry at hle ⊢
  split at hle
  · rename_i hz
    have hlt : m.freeblock < FSSIZE := hle
    simp only [if_pos hz, wsect, update_self]
    rw [word_setWord_self _ _ (by simp only [BSIZE]; omega)]
    intro h0
    have := toNat_ofNat_fs hlt
    rw [h0] at this
    have h0' : (0 : BitVec 32).toNat = 0 := rfl
    omega
  · rename_i hz
    rw [if_neg hz]; exact hz

theorem takeEntry_mono (m : Img) (ind j : Nat) : m.freeblock ≤ (takeEntry m ind j).freeblock := by
  unfold takeEntry
  split
  · exact Nat.le_succ _
  · exact le_rfl

theorem step_takeEntry (j : Fin NINDIRECT) (hi : (takeEntry m ((v n).addrs indirect).toNat j).freeblock ≤ FSSIZE →
    (v n).addrs indirect ≠ 0) : Step v v m (takeEntry m ((v n).addrs indirect).toNat j) := by
  unfold takeEntry at hi ⊢
  split
  · rename_i hz
    rw [if_pos hz] at hi
    refine ⟨Nat.le_succ _, rfl, fun hle hg => ?_⟩
    have hn := hi hle
    have href := refOf_setEntry (v := v) (n := n) (b := m.freeblock) (j := j) m.blk hle hn
      (indirect_inj hg.owns hn)
    have hp : refOf v m.blk (n, .inl indirect) ≠ 0 := mt toNat_eq_zero.mp hn
    have hge := (hg.owns.range _ hp).1
    have hlt := hg.lt hp
    rw [refOf_inl] at hge hlt
    refine ⟨hg.take hle href fun x hx => ?_, fun x hx => update_of_ne (by omega) _ _⟩
    rw [update_of_ne (by omega)]
    exact hg.zero x (by omega)
  · exact Step.refl

structure FileBlock (v : Fin N → Dinode) (n : Fin N) (m : Img) (din : Dinode) {fbn : Nat}
    (hb : fbn < MAXFILE) (x : Nat) (m' : Img) (din' : Dinode) : Prop where
  step : Step (update v n din) (update v n din') m m'
  ref : m'.freeblock ≤ FSSIZE → Good (update v n din) m →
    refOf (update v n din') m'.blk (n, dataIdx fbn hb) = x ∧ x ≠ 0

theorem fileBlock_spec (din : Dinode) (hf : nmeta ≤ m.freeblock) (hb : fbn < MAXFILE) :
    FileBlock v n m din hb (fileBlock m din fbn).1 (fileBlock m din fbn).2.1 (fileBlock m din fbn).2.2 := by
  unfold fileBlock
  split
  · rename_i hd
    refine ⟨step_takeAddr _ _ _, fun hle hg => ⟨?_, ?_⟩⟩
    · rw [dataIdx_direct hb hd, refOf_inl, update_self]
    · exact mt toNat_eq_zero.mp (takeAddr_ne_zero hf hle)
  · rename_i hd
    have hlt : fbn - NDIRECT < NINDIRECT := by have : MAXFILE = NDIRECT + NINDIRECT := rfl; omega
    have h1 := step_takeAddr (v := v) (n := n) m din indirect
    dsimp only
    generalize htake : takeAddr m din indirect = r at h1 ⊢
    obtain ⟨m1, din1⟩ := r
    dsimp only at h1 ⊢
    have hself : (update v n din1 n).addrs indirect = din1.addrs indirect := by rw [update_self]
    have hne : (takeEntry m1 (din1.addrs indirect).toNat (fbn - NDIRECT)).freeblock ≤ FSSIZE →
        din1.addrs indirect ≠ 0 := fun hle => by
      have := takeAddr_ne_zero (m := m) (k := indirect) hf (by rw [htake]; exact le_trans (takeEntry_mono ..) hle)
      rwa [htake] at this
    have h2 := step_takeEntry (v := update v n din1) (n := n) (m := m1) ⟨fbn - NDIRECT, hlt⟩
      (by rw [hself]; exact hne)
    rw [hself] at h2
    refine ⟨h1.trans h2, fun hle hg => ?_⟩
    have hf1 := le_trans hf h1.mono
    refine ⟨?_, mt toNat_eq_zero.mp (takeEntry_ne_zero hf1 (j := ⟨fbn - NDIRECT, hlt⟩) hle)⟩
    rw [dataIdx_indirect hb hd hlt, refOf_inr (by rw [hself]; exact hne hle), hself]

theorem Good.refOf_store (h : Good v m) {hb : fbn < MAXFILE} (hr : refOf v m.blk (n, dataIdx fbn hb) = x)
    (buf : Block) : refOf v (wsect m x buf).blk = refOf v m.blk := by
  refine refOf_congr fun k hk => update_of_ne (fun he => ?_) _ _
  have := h.owns.inj (k, .inl indirect) (n, dataIdx fbn hb) (mt toNat_eq_zero.mp hk) (by rw [hr]; exact he)
  exact dataIdx_ne_indirect hb (Prod.mk.inj this).2.symm

theorem Good.store (h : Good v m) {hb : fbn < MAXFILE} (hr : refOf v m.blk (n, dataIdx fbn hb) = x)
    (hx : x ≠ 0) (buf : Block) : Good v (wsect m x buf) ∧ ∀ y, y < nmeta → (wsect m x buf).blk y = m.blk y := by
  have hp : refOf v m.blk (n, dataIdx fbn hb) ≠ 0 := hr ▸ hx
  have hge := (h.owns.range _ hp).1
  have hlt := h.lt hp
  rw [hr] at hge hlt
  refine ⟨⟨h.first, fun y hy => ?_, ?_⟩, fun y hy => update_of_ne (by omega) _ _⟩
  · have hne : y ≠ x := by have : m.freeblock ≤ y := hy; omega
    exact (update_of_ne hne _ _).trans (h.zero y hy)
  · rw [h.refOf_store hr]; exact h.owns

theorem FileBlock.store {hb : fbn < MAXFILE} (h : FileBlock v n m din hb x m' din') (buf : Block) :
    Step (update v n din) (update v n din') m (wsect m' x buf) := by
  refine ⟨h.step.mono, h.step.inode, fun hle hg => ?_⟩
  obtain ⟨hg', hb'⟩ := h.step.good hle hg
  obtain ⟨hr, hx⟩ := h.ref hle hg
  obtain ⟨hg'', hb''⟩ := hg'.store hr hx buf
  exact ⟨hg'', fun y hy => (hb'' y hy).trans (hb' y hy)⟩

theorem ends_appendLoop {off len : Nat} {src : Nat → BitVec 8} (hf : nmeta ≤ m.freeblock) :
    Ends (fun _ => True) (fun r => Step (update v n din) (update v n r.2) m r.1)
      (appendLoop fuel m din src off len) := by
  induction fuel generalizing m din src off len with
  | zero => exact Step.refl
  | succ fuel ih =>
    rw [appendLoop]
    split
    · exact Step.refl
    · split
      · rename_i hb
        have hs := (fileBlock_spec (v := v) (n := n) din hf hb).store
        dsimp only
        refine Ends.imp (ih ?_) fun r hr => (hs _).trans hr
        exact le_trans hf (hs _).mono
      · trivial

/-! ## The inodes of the image -/

def inodes {N : Nat} (m : Img) (n : Fin N) : Dinode := rinode m n

theorem inodes_winode (n : Fin N) (din : Dinode) : inodes (winode m n din) = update (inodes m) n din := by
  funext k
  refine (readDinode_update sb m.blk n k din).trans ?_
  by_cases hk : k = n
  · subst hk; rw [if_pos rfl, update_self]
  · rw [if_neg fun e => hk (Fin.ext e), update_of_ne hk]; rfl

variable [Fact (N ≤ ninodeblocks * IPB)]

theorem inodes_congr (h : ∀ x, x < nmeta → m'.blk x = m.blk x) : (inodes m' : Fin N → Dinode) = inodes m := by
  funext n
  rw [inodes, inodes, rinode, rinode, h _ (iblock_lt_nmeta n)]

theorem Good.winode (h : Good v m) (n : Fin N) (din : Dinode) : Good v (winode m n din) := by
  have hlt := iblock_lt_nmeta n
  have hblk : ∀ x, nmeta ≤ x → (Mkfs.winode m n din).blk x = m.blk x := fun x hx =>
    update_of_ne (by omega) _ _
  refine ⟨h.first, fun x hx => ?_, ?_⟩
  · exact (hblk x (le_trans h.first hx)).trans (h.zero x hx)
  · have href : refOf v (Mkfs.winode m n din).blk = refOf v m.blk := refOf_congr fun k hk =>
      hblk _ (h.owns.range (k, .inl indirect) (mt toNat_eq_zero.mp hk)).1
    rw [href]; exact h.owns

theorem super_winode (n : Fin N) (din : Dinode) : (winode m n din).blk 1 = m.blk 1 := by
  have hne : 1 ≠ iblock sb n := by have := (iblock_lt n).1; omega
  simp only [winode, wsect]
  rw [update_of_ne hne]

structure Built (N : Nat) (m : Img) : Prop where
  first : nmeta ≤ m.freeblock
  good : m.freeblock ≤ FSSIZE → Good (inodes (N := N) m) m ∧ readsb (m.blk 1) = sb

theorem built_iappend (h : Built N m) (n : Fin N) (p : Nat → BitVec 8) (len : Nat) :
    Ends (fun _ => True) (fun m' => Built N m' ∧ m'.freeinode = m.freeinode) (iappend m n p len) := by
  unfold iappend
  refine (ends_appendLoop (v := inodes m) (n := n) h.first).bind fun ⟨m1, din1⟩ hs => ?_
  dsimp only at hs
  have hself : update (inodes m) n (rinode m n) = inodes m := update_eq_self_iff.mpr rfl
  rw [hself] at hs
  refine ⟨⟨le_trans h.first hs.mono, fun hle => ?_⟩, hs.inode⟩
  obtain ⟨hg, hsuper⟩ := h.good (le_trans hs.mono hle)
  obtain ⟨hg1, hb1⟩ := hs.good hle hg
  rw [inodes_winode, inodes_congr hb1, super_winode, hb1 1 (by decide)]
  refine ⟨⟨(hg1.winode n _).first, (hg1.winode n _).zero, ?_⟩, hsuper⟩
  -- the new size is no address
  refine ((hg1.winode n { din1 with size := .ofNat 32 ((rinode m n).size.toNat + len) }).owns.sub fun q => ?_)
  refine refOf_sub (fun k a => .inr ?_) q
  by_cases hk : k = n
  · subst hk; rw [update_self, update_self]
  · rw [update_of_ne hk, update_of_ne hk]

theorem built_ialloc (h : Built N m) (hi : m.freeinode < N) (type : BitVec 16) : Built N (ialloc m type).2 := by
  refine ⟨h.first, fun hle => ?_⟩
  obtain ⟨hg, hsuper⟩ := h.good hle
  have hw := inodes_winode (m := { m with freeinode := m.freeinode + 1 }) ⟨m.freeinode, hi⟩
    { Dinode.zero with type, nlink := 1 }
  have hg' : Good (inodes m) { m with freeinode := m.freeinode + 1 } := ⟨hg.first, hg.zero, hg.owns⟩
  have hg1 := hg'.winode ⟨m.freeinode, hi⟩ { Dinode.zero with type, nlink := 1 }
  refine ⟨⟨hg1.first, hg1.zero, ?_⟩, (congrArg readsb (super_winode ⟨m.freeinode, hi⟩ _)).trans hsuper⟩
  refine hg1.owns.sub fun q => refOf_sub (fun k a => ?_) q
  rw [ialloc, hw]
  by_cases hk : k = ⟨m.freeinode, hi⟩
  · subst hk; rw [update_self]; exact .inl rfl
  · rw [update_of_ne hk]; exact .inr rfl

theorem built_copyLoop {data : List (BitVec 8)} (h : Built N m) (n : Fin N) :
    Ends (fun _ => True) (fun m' => Built N m' ∧ m'.freeinode = m.freeinode) (copyLoop n fuel m data) := by
  induction fuel generalizing m data with
  | zero => exact ⟨h, rfl⟩
  | succ fuel ih =>
    rw [copyLoop]
    split
    · exact ⟨h, rfl⟩
    · refine (built_iappend h n _ _).bind fun m1 ⟨h1, hi1⟩ => ?_
      exact (ih h1).imp fun m' ⟨h', hi'⟩ => ⟨h', hi'.trans hi1⟩

theorem built_addFile (h : Built N m) (root : Fin N) (hi : m.freeinode < N) (f : File) :
    Ends (fun _ => True) (fun m' => Built N m' ∧ m'.freeinode = m.freeinode + 1) (addFile root m f) := by
  unfold addFile
  split
  · trivial
  · refine (built_iappend (built_ialloc h hi T_FILE) root _ _).bind fun m1 ⟨h1, hi1⟩ => ?_
    exact (built_copyLoop h1 ⟨m.freeinode, hi⟩).imp fun m' ⟨h', hi'⟩ => ⟨h', hi'.trans hi1⟩

theorem built_fixRoot (h : Built N m) (root : Fin N) : Built N (fixRoot m root) := by
  refine ⟨h.first, fun hle => ?_⟩
  obtain ⟨hg, hsuper⟩ := h.good hle
  have hg1 := hg.winode root
    { rinode m root with size := .ofNat 32 (((rinode m root).size.toNat / BSIZE + 1) * BSIZE) }
  refine ⟨⟨hg1.first, hg1.zero, hg1.owns.sub fun q => refOf_sub (fun k a => .inr ?_) q⟩,
    (congrArg readsb (super_winode root _)).trans hsuper⟩
  rw [fixRoot, inodes_winode]
  by_cases hk : k = root
  · subst hk; rw [update_self]; rfl
  · rw [update_of_ne hk]

theorem readsb_writesb : readsb (writesb (fill BSIZE 0#8) sb) = sb := by decide

theorem inodes_blank (n : Fin N) : inodes blank n = Dinode.zero := by
  have hne : iblock sb n ≠ 1 := by have := (iblock_lt n).1; omega
  rw [inodes, rinode, blank]
  simp only
  rw [update_of_ne hne, readDinode_fill]

theorem refOf_blank (p : Fin N × Idx) : refOf (inodes blank) blank.blk p = 0 := by
  obtain ⟨n, x⟩ := p
  cases x with
  | inl k => rw [refOf_inl, inodes_blank]; rfl
  | inr j => exact refOf_inr_zero (by rw [inodes_blank]; rfl) j

theorem blank_blk (hx : x ≠ 1) : blank.blk x = fill BSIZE 0#8 := by
  rw [blank]
  simp only
  rw [update_of_ne hx]

theorem built_blank : Built N blank := by
  refine ⟨le_rfl, fun _ => ⟨⟨le_rfl, fun x hx => blank_blk ?_, ?_⟩, ?_⟩⟩
  · have : nmeta = 83 := rfl
    have : nmeta ≤ x := hx
    omega
  · exact ⟨fun x hx => decide_eq_true (show x < blank.freeblock from hx), fun p hp => absurd (refOf_blank p) hp,
      fun p hp => absurd (refOf_blank p) hp, fun p _ hp => absurd (refOf_blank p) hp⟩
  · rw [blank]
    simp only
    rw [update_self]; exact readsb_writesb

/-! ## The free map -/

theorem isFree_fold (hk : k < BPB) (bj : Nat) :
    isFree ((List.range k).foldl (fun (buf : Block) i => buf.set (i / 8) (buf.get (i / 8) ||| mask i))
      (fill BSIZE 0#8)) bj = decide (k ≤ bj) := by
  induction k with
  | zero => simp [isFree, get_fill_zero]
  | succ k ih =>
    rw [List.range_succ, List.foldl_append, List.foldl_cons, List.foldl_nil, isFree_set _ (by omega), ih (by omega)]
    by_cases h : bj = k
    · subst h; simp
    · simp only [ne_eq, h, not_false_eq_true, decide_true, Bool.and_true]
      exact decide_eq_decide.mpr (by omega)

theorem used_wsect (hk : k < BPB) (hx : x < k) :
    used (wsect m sb.bmapstart ((List.range k).foldl
      (fun (buf : Block) i => buf.set (i / 8) (buf.get (i / 8) ||| mask i)) (fill BSIZE 0#8))).blk x = true := by
  have hb : bblock sb x = sb.bmapstart := by rw [bblock, Nat.div_eq_of_lt (by omega), zero_add]
  rw [used, hb, wsect]
  simp only
  rw [update_self, isFree_fold hk, Nat.mod_eq_of_lt (by omega)]
  simp [hx]

/-- The image of `mkfs` is a file system in which every block has one owner at most. -/
structure Formatted (blk : Nat → Block) : Prop where
  super : readsb (blk 1) = sb
  owns : Owns blk (refOf (fun n => readDinode (blk (iblock sb n)) (n % IPB)) blk)

theorem built_balloc (h : Built NINODES m) : Ends (fun _ => True) (fun m' => Formatted m'.blk) (balloc m m.freeblock) := by
  unfold balloc
  split
  · rename_i hlt
    have hfs : m.freeblock ≤ FSSIZE := le_trans (le_of_lt hlt) (by decide)
    obtain ⟨hg, hsuper⟩ := h.good hfs
    have hfirst := h.first
    have hother : ∀ x, x ≠ sb.bmapstart → ∀ b, (wsect m sb.bmapstart b).blk x = m.blk x := fun x hx b =>
      update_of_ne hx _ _
    refine ⟨?_, ?_⟩
    · rw [hother 1 (by decide)]; exact hsuper
    · have hv : ∀ b, (fun n : Fin NINODES => readDinode ((wsect m sb.bmapstart b).blk (iblock sb n)) (n % IPB)) =
          inodes m := fun b => by
        funext n
        rw [hother _ (by have := (iblock_lt n).2; omega)]; rfl
      have href : ∀ b, refOf (inodes m) (wsect m sb.bmapstart b).blk = refOf (inodes m) m.blk := fun b =>
        refOf_congr fun n hn => hother _ (by
          have := (hg.owns.range (n, .inl indirect) (mt toNat_eq_zero.mp hn)).1
          rw [refOf_inl] at this
          have : sb.bmapstart < nmeta := by decide
          omega) b
      rw [hv, href]
      exact ⟨fun x hx => used_wsect hlt (by omega), hg.owns.range, fun p hp => used_wsect hlt (hg.lt hp), hg.owns.inj⟩
  · trivial

theorem ends_mkfs {files : List File} (hf : files.length + 2 ≤ NINODES) : Ends (fun _ => True) Formatted (mkfs files) := by
  have hroot : (ialloc blank T_DIR).2.freeinode = 2 := rfl
  have h0 : Built NINODES _ := built_ialloc built_blank (by decide) T_DIR
  unfold mkfs
  refine (built_iappend h0 ⟨1, by decide⟩ _ _).bind fun m1 ⟨h1, hi1⟩ => ?_
  refine (built_iappend h1 ⟨1, by decide⟩ _ _).bind fun m2 ⟨h2, hi2⟩ => ?_
  have hfiles : Ends (fun _ => True) (fun m => Built NINODES m ∧ m.freeinode = 2 + files.length)
      (files.foldlM (addFile 1) m2) := by
    refine Ends.foldlM (I := fun done m => Built NINODES m ∧ m.freeinode = 2 + done.length) ⟨h2, by rw [hi2, hi1, hroot]; rfl⟩ ?_
    rintro done f rest m hl ⟨h, hi⟩
    have hlen : files.length = done.length + (rest.length + 1) := by rw [hl]; simp
    refine (built_addFile h ⟨1, by decide⟩ (by omega) f).imp fun m' ⟨h', hi'⟩ => ⟨h', ?_⟩
    rw [hi', hi, List.length_append]; rfl
  refine hfiles.bind fun m3 ⟨h3, _⟩ => ?_
  exact (built_balloc (built_fixRoot h3 ⟨1, by decide⟩)).bind fun m4 h4 => h4

end Xv6.Mkfs
