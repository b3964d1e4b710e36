import Xv6.Fs.Lemmas.Files

/-! # The image of a list of files -/

namespace Xv6.Mkfs

open Xv6.Lib Xv6.Fs Function List

variable {m m' : Img} {v v' : Fin NINODES → Dinode} {n k : Fin NINODES} {c : Fin NINODES → List (BitVec 8)}
variable {l : List (BitVec 8)} {x : Nat}

/-! ## The inodes -/

theorem Stores.congr (h : Stores v m c) (hv : ∀ n, (v' n).addrs = (v n).addrs)
    (hblk : ∀ x, nmeta ≤ x → m'.blk x = m.blk x) (hfb : m'.freeblock = m.freeblock) : Stores v' m' c := by
  have href : refOf v' m'.blk = refOf v m.blk := by
    rw [refOf_addrs hv]
    exact refOf_congr fun n hn => hblk _ (h.good.owns.range (n, .inl indirect) (mt toNat_eq_zero.mp hn)).1
  have hdr : ∀ n bn, dataRef v' m'.blk n bn = dataRef v m.blk n bn := fun n bn => by simp only [dataRef, href]
  refine ⟨⟨?_, fun x hx => ?_, ?_⟩, ?_, fun n bn hbn => ?_, fun n => ?_, fun n q => ?_, ?_⟩
  · rw [hfb]; exact h.good.first
  · rw [hfb] at hx
    rw [hblk x (le_trans h.good.first hx), h.good.zero x hx]
  · rw [href, hfb]; exact h.good.owns
  · rw [href, hfb]; exact h.owned
  · rw [hdr]; exact h.data n bn hbn
  · rw [href]; exact h.ind n
  · rw [← h.byte, byteAt_eq, byteAt_eq, hdr]
    split
    · rfl
    · rename_i hz
      obtain ⟨hb, hr⟩ := dataRef_pos hz
      rw [hblk _ (hr ▸ (h.good.owns.range _ (hr ▸ hz)).1)]
  · rw [hfb]; exact h.count

structure Holds (m : Img) (t : Fin NINODES → BitVec 16) (c : Fin NINODES → List (BitVec 8)) : Prop where
  stores : Stores (inodes m) m c
  super : readsb (m.blk 1) = sb
  type : ∀ n, (inodes m n).type = t n
  size : ∀ n, (inodes m n).size.toNat = (c n).length
  fresh : ∀ n : Fin NINODES, m.freeinode ≤ n → inodes m n = Dinode.zero
  map : ∀ x, sb.bmapstart ≤ x → x < nmeta → m.blk x = Bytes.fill BSIZE 0#8

variable {t : Fin NINODES → BitVec 16}

theorem winode_blk {N : Nat} [Fact (N ≤ ninodeblocks * IPB)] (n : Fin N) (din : Dinode) (hx : sb.bmapstart ≤ x) :
    (winode m n din).blk x = m.blk x := by
  have := (iblock_lt n).2
  exact update_of_ne (by omega) _ _

theorem bmapstart_le (hx : nmeta ≤ x) : sb.bmapstart ≤ x := le_trans (by decide) hx

theorem holds_iappend (src : Nat → BitVec 8) (len : Nat) (h : Holds m t c) (hn : n < m.freeinode)
    (hmax : (c n).length + len ≤ MAXFILE * BSIZE)
    (hroom : usedBlocks (extend c n (tabulate len src)) ≤ BSIZE * 8) :
    Ends (fun _ => False) (fun m' => Holds m' t (extend c n (tabulate len src)) ∧ m'.freeinode = m.freeinode)
      (iappend m n src len) := by
  have hself : update (inodes m) n (rinode m n) = inodes m := update_eq_self_iff.mpr rfl
  have hsize : (rinode m n).size.toNat = (c n).length := h.size n
  unfold iappend
  dsimp only
  rw [hsize]
  refine (stores_appendLoop (v := inodes m) (n := n) (by rw [hself]; exact h.stores) le_rfl hmax hroom).bind
    fun ⟨m1, din1⟩ ha => ?_
  dsimp only at ha ⊢
  have hino : ∀ din, inodes (winode m1 n din) = update (inodes m) n din := fun din => by
    rw [inodes_winode, inodes_congr ha.low]
  refine ⟨⟨?_, ?_, fun k => ?_, fun k => ?_, fun k hk => ?_, fun x hx hx' => ?_⟩, ha.inode⟩
  · rw [hino]
    refine ha.stores.congr (fun k => ?_) (fun x hx => winode_blk n _ (bmapstart_le hx)) rfl
    by_cases hk : k = n
    · subst hk; rw [update_self, update_self]
    · rw [update_of_ne hk, update_of_ne hk]
  · rw [super_winode, ha.low 1 (by decide)]; exact h.super
  · rw [hino, ← h.type k]
    by_cases hk : k = n
    · subst hk
      have := congrArg Dinode.type ha.addrs
      rw [update_self]; exact this
    · rw [update_of_ne hk]
  · rw [hino]
    by_cases hk : k = n
    · subst hk
      rw [update_self, extend_self, length_append, length_tabulate, BitVec.toNat_ofNat]
      have : MAXFILE * BSIZE < 2 ^ 32 := by decide
      omega
    · rw [update_of_ne hk, extend_other hk]; exact h.size k
  · rw [hino, update_of_ne]
    · exact h.fresh k (ha.inode ▸ hk)
    · rintro rfl
      have : (winode m1 k { din1 with size := .ofNat 32 ((c k).length + len) }).freeinode = m.freeinode := ha.inode
      omega
  · rw [winode_blk n _ hx, ha.low x hx']; exact h.map x hx hx'

theorem holds_ialloc (h : Holds m t c) (hn : n.val = m.freeinode) (type : BitVec 16) : Holds (ialloc m type).2 (update t n type) c := by
  have hz := h.fresh n (by omega)
  have hino : inodes (ialloc m type).2 = update (inodes m) n { Dinode.zero with type, nlink := 1 } := by
    rw [ialloc, ← hn, inodes_winode]; rfl
  have hblk : ∀ x, sb.bmapstart ≤ x → (ialloc m type).2.blk x = m.blk x := fun x hx => by
    rw [ialloc, ← hn, winode_blk n _ hx]
  refine ⟨?_, ?_, fun k => ?_, fun k => ?_, fun k hk => ?_, fun x hx hx' => ?_⟩
  · refine h.stores.congr (fun k => ?_) (fun x hx => hblk x (bmapstart_le hx)) rfl
    rw [hino]
    by_cases hk : k = n
    · subst hk; rw [update_self, hz]
    · rw [update_of_ne hk]
  · rw [ialloc, ← hn, super_winode]; exact h.super
  · rw [hino]
    by_cases hk : k = n
    · subst hk; rw [update_self, update_self]
    · rw [update_of_ne hk, update_of_ne hk]; exact h.type k
  · rw [hino, ← h.size k]
    by_cases hk : k = n
    · subst hk; rw [update_self, hz]
    · rw [update_of_ne hk]
  · have hk : m.freeinode + 1 ≤ k := hk
    have hne : k ≠ n := by rintro rfl; omega
    rw [hino, update_of_ne hne]
    exact h.fresh k (by omega)
  · rw [hblk x hx]; exact h.map x hx hx'

theorem tabulate_getD (l : List (BitVec 8)) (k : Nat) : tabulate (min k l.length) (l.getD · 0) = l.take k := by
  apply ext_getElem
  · simp
  · intro i h1 h2
    simp only [length_tabulate] at h1
    simp [tabulate, getD_eq_getElem?_getD, getElem?_eq_getElem (show i < l.length by omega)]

theorem holds_copyLoop (fuel : Nat) (h : Holds m t c) (hn : n < m.freeinode) (hfuel : l.length ≤ fuel)
    (hmax : (c n).length + l.length ≤ MAXFILE * BSIZE) (hroom : usedBlocks (extend c n l) ≤ BSIZE * 8) :
    Ends (fun _ => False) (fun m' => Holds m' t (extend c n l) ∧ m'.freeinode = m.freeinode) (copyLoop n fuel m l) := by
  induction fuel generalizing m c l with
  | zero =>
    obtain rfl : l = [] := length_eq_zero_iff.mp (by omega)
    exact ⟨by rw [extend_nil]; exact h, rfl⟩
  | succ fuel ih =>
    rw [copyLoop]
    split
    · rename_i hz
      obtain rfl : l = [] := length_eq_zero_iff.mp hz
      exact ⟨by rw [extend_nil]; exact h, rfl⟩
    · rename_i hz
      have hsplit : extend (extend c n (l.take BSIZE)) n (l.drop BSIZE) = extend c n l := by
        rw [extend_extend, take_append_drop]
      have hB : 0 < BSIZE := by decide
      have hstep := holds_iappend (l.getD · 0) (min BSIZE l.length) h hn (by omega) (by
        rw [tabulate_getD]
        exact le_trans (usedBlocks_le_extend _ n (l.drop BSIZE)) (by rw [hsplit]; exact hroom))
      rw [tabulate_getD] at hstep
      refine hstep.bind ?_
      rintro m1 ⟨h1, hi1⟩
      have := ih (m := m1) (l := l.drop BSIZE) h1 (by omega) (by rw [length_drop]; omega)
        (by rw [extend_self, length_append, length_take, length_drop]; omega) (by rw [hsplit]; exact hroom)
      rw [hsplit] at this
      exact this.imp fun m' h' => ⟨h'.1, h'.2.trans hi1⟩

/-! ## The whole image -/

def rootEntries (files : List File) : List (Nat × List (BitVec 8)) :=
  (1, [46#8]) :: (1, [46#8, 46#8]) :: (files.zipIdx 2).map fun p => (p.2, p.1.skip)

def holding (files : List File) (n : Fin NINODES) : List (BitVec 8) :=
  if n.val = 1 then (rootEntries files).flatMap fun e => tabulate 16 (dirent e.1 e.2)
  else if n.val < 2 then []
  else ((files[n.val - 2]?).map File.data).getD []

def typed (files : List File) (n : Fin NINODES) : BitVec 16 :=
  if n.val = 1 then T_DIR else if 2 ≤ n.val ∧ n.val < files.length + 2 then T_FILE else 0

variable {files : List File} {f : File}

theorem holding_append (files : List File) (f : File) (hn : n.val = files.length + 2) (hk : k.val = 1) :
    holding (files ++ [f]) = extend (extend (holding files) k (tabulate 16 (dirent n f.skip))) n f.data := by
  funext j
  by_cases hj : j = n
  · subst hj
    have hne : j ≠ k := by rintro rfl; omega
    rw [extend_self, extend_other hne, holding, holding]
    simp [hn]
  · rw [extend_other hj]
    have hjn : j.val ≠ files.length + 2 := fun e => hj (Fin.ext (e.trans hn.symm))
    by_cases hjk : j = k
    · subst hjk
      rw [extend_self, holding, holding, if_pos hk, if_pos hk, rootEntries, rootEntries, zipIdx_append]
      simp [hn, add_comm]
    · have hj1 : j.val ≠ 1 := fun e => hjk (Fin.ext (e.trans hk.symm))
      rw [extend_other hjk, holding, holding, if_neg hj1, if_neg hj1]
      split
      · rfl
      · rcases lt_or_ge (j.val - 2) files.length with hlt | hge
        · rw [getElem?_append_left hlt]
        · rw [getElem?_eq_none (by simp; omega), getElem?_eq_none hge]

theorem typed_append (hn : n.val = files.length + 2) : typed (files ++ [f]) = update (typed files) n T_FILE := by
  funext j
  by_cases hj : j = n
  · subst hj
    rw [update_self, typed, if_neg (by omega), if_pos (by simp; omega)]
  · have hjn : j.val ≠ files.length + 2 := fun e => hj (Fin.ext (e.trans hn.symm))
    rw [update_of_ne hj, typed, typed]
    simp only [length_append, length_singleton]
    split
    · rfl
    · split_ifs <;> first | rfl | omega

theorem length_root (files : List File) :
    ((rootEntries files).flatMap fun e => tabulate 16 (dirent e.1 e.2)).length = 16 * (files.length + 2) := by
  simp [rootEntries, length_flatMap, Function.comp_def]
  omega

theorem holds_blank : Holds blank (fun _ => 0) fun _ => [] := by
  have hdr : ∀ (n : Fin NINODES) bn, dataRef (inodes blank) blank.blk n bn = 0 := fun n bn => by
    rw [dataRef, blockOf]
    split
    · exact refOf_blank _
    · rfl
  obtain ⟨hg, hsuper⟩ := (built_blank (N := NINODES)).good (by decide)
  refine ⟨⟨hg, fun x hlo hhi => ?_, fun n bn _ => ?_, fun n => ?_, fun n q => ?_, ?_⟩, hsuper, fun n => ?_, fun n => ?_,
    fun n _ => inodes_blank n, fun x hx _ => blank_blk ?_⟩
  · have : blank.freeblock = nmeta := rfl
    omega
  · simp [hdr]
  · simp [refOf_blank]
  · rw [byteAt_eq, if_pos (hdr _ _)]; rfl
  · have : blocksOf 0 = 0 := by decide
    simp [usedBlocks, this, blank]
  · rw [inodes_blank]; rfl
  · rw [inodes_blank]; rfl
  · have : sb.bmapstart = 58 := rfl
    omega

theorem holding_nil (hk : k.val = 1) : extend (extend (fun _ => []) k (tabulate 16 (dirent 1 [46#8]))) k
    (tabulate 16 (dirent 1 [46#8, 46#8])) = holding [] := by
  funext j
  by_cases hj : j = k
  · subst hj
    rw [extend_self, extend_self, holding, if_pos hk]
    simp [rootEntries]
  · have hj1 : j.val ≠ 1 := fun e => hj (Fin.ext (e.trans hk.symm))
    rw [extend_other hj, extend_other hj, holding, if_neg hj1]
    simp

theorem typed_nil (hk : k.val = 1) : update (fun _ => 0) k T_DIR = typed [] := by
  funext j
  by_cases hj : j = k
  · subst hj
    rw [update_self, typed, if_pos hk]
  · have hj1 : j.val ≠ 1 := fun e => hj (Fin.ext (e.trans hk.symm))
    rw [update_of_ne hj, typed, if_neg hj1, if_neg]
    simp only [length_nil]
    omega

theorem usedBlocks_holding (done rest : List File) (hlen : (done ++ rest).length + 2 ≤ NINODES) :
    usedBlocks (holding done) ≤ usedBlocks (holding (done ++ rest)) := by
  induction rest generalizing done with
  | nil => rw [append_nil]
  | cons f rest ih =>
    have hlt : done.length + 2 < NINODES := by
      rw [length_append, length_cons] at hlen
      omega
    have hstep := holding_append done f (n := ⟨done.length + 2, hlt⟩) (k := ⟨1, by decide⟩) rfl rfl
    have hrest := ih (done ++ [f]) (by rw [append_assoc]; exact hlen)
    rw [append_assoc] at hrest
    refine le_trans ?_ hrest
    rw [hstep]
    exact le_trans (usedBlocks_le_extend ..) (usedBlocks_le_extend ..)

theorem holds_addFile (h : Holds m (typed files) (holding files)) (hi : m.freeinode = files.length + 2)
    (hlen : files.length + 3 ≤ NINODES) (hs : 47#8 ∉ f.name) (hf : f.data.length ≤ MAXFILE * BSIZE)
    (hroom : usedBlocks (holding (files ++ [f])) ≤ BSIZE * 8) :
    Ends (fun _ => False)
      (fun m' => Holds m' (typed (files ++ [f])) (holding (files ++ [f])) ∧ m'.freeinode = (files ++ [f]).length + 2)
      (addFile 1 m f) := by
  let root : Fin NINODES := ⟨1, by decide⟩
  let n : Fin NINODES := ⟨files.length + 2, hlen⟩
  have hne : n ≠ root := fun he => by
    have := congrArg Fin.val he
    simp [n, root] at this
  have happ := holding_append files f (n := n) (k := root) rfl rfl
  have h1 := holds_ialloc (n := n) h hi.symm T_FILE
  rw [← typed_append (f := f) rfl] at h1
  have hroot : (holding files root).length = 16 * (files.length + 2) := by
    rw [holding, if_pos rfl]; exact length_root files
  have hnew : (extend (holding files) root (tabulate 16 (dirent (files.length + 2) f.skip)) n).length = 0 := by
    rw [extend_other hne, holding]
    simp [n]
  rw [happ] at hroom
  have hmax : NINODES * 16 ≤ MAXFILE * BSIZE := by decide
  unfold addFile
  rw [if_neg (by simpa using hs)]
  refine (holds_iappend (n := root) (dirent m.freeinode f.skip) 16 h1 ?_ (by omega) ?_).bind
    fun m2 ⟨h2, hi2⟩ => ?_
  · change 1 < m.freeinode + 1
    omega
  · rw [hi]
    exact le_trans (usedBlocks_le_extend _ n f.data) hroom
  · rw [hi] at h2
    have hi2' : m2.freeinode = m.freeinode + 1 := hi2
    have hcopy := holds_copyLoop (n := n) f.data.length (l := f.data) h2 (by simp only [n]; omega) le_rfl
      (by omega) hroom
    rw [hi]
    refine hcopy.imp fun m' ⟨h', hi'⟩ => ⟨by rw [happ]; exact h', ?_⟩
    rw [hi', hi2', hi, length_append]
    rfl

structure Made (files : List File) (blk : Nat → Block) : Prop where
  super : readsb (blk 1) = sb
  stores : Stores (fun n => readDinode (blk (iblock sb n)) (n % IPB)) ⟨blk, files.length + 2, usedBlocks (holding files)⟩
    (holding files)
  type : ∀ n : Fin NINODES, (readDinode (blk (iblock sb n)) (n % IPB)).type = typed files n
  size : ∀ n : Fin NINODES, (readDinode (blk (iblock sb n)) (n % IPB)).size.toNat =
    if n.val = 1 then ((holding files n).length / BSIZE + 1) * BSIZE else (holding files n).length
  bits : ∀ b, b < FSSIZE → used blk b = decide (b < usedBlocks (holding files))

theorem balloc_made (h : Stores (inodes m) m c) (hsuper : readsb (m.blk 1) = sb)
    (hmap : ∀ x, sb.bmapstart ≤ x → x < nmeta → m.blk x = Bytes.fill BSIZE 0#8) (hlt : m.freeblock < BSIZE * 8) :
    Ends (fun _ => False) (fun m' => Stores (inodes m') m' c ∧ readsb (m'.blk 1) = sb ∧ (inodes m' : Fin NINODES → Dinode) = inodes m ∧
      m'.freeinode = m.freeinode ∧ m'.freeblock = m.freeblock ∧
        ∀ b, b < FSSIZE → used m'.blk b = decide (b < m.freeblock)) (balloc m m.freeblock) := by
  unfold balloc
  rw [if_pos hlt]
  have hother : ∀ x, x ≠ sb.bmapstart → ∀ b, (wsect m sb.bmapstart b).blk x = m.blk x := fun x hx b =>
    update_of_ne hx _ _
  have hino : ∀ b, (inodes (wsect m sb.bmapstart b) : Fin NINODES → Dinode) = inodes m := fun b => by
    funext n
    have := (iblock_lt n).2
    rw [inodes, rinode, hother _ (by omega)]; rfl
  have hmeta : sb.bmapstart < nmeta := by decide
  refine ⟨?_, ?_, hino _, rfl, rfl, fun b hb => ?_⟩
  · rw [hino]
    exact h.congr (fun _ => rfl) (fun x hx => hother x (by omega) _) rfl
  · rw [hother 1 (by decide)]; exact hsuper
  · by_cases hlow : b < BPB
    · have hbb : bblock sb b = sb.bmapstart := by rw [bblock, Nat.div_eq_of_lt hlow, zero_add]
      rw [used, hbb, wsect]
      simp only
      rw [update_self, isFree_fold hlt, Nat.mod_eq_of_lt hlow, ← decide_not]
      exact decide_eq_decide.mpr not_le
    · -- the other blocks of the free map
      have hin := bblock_inMap hb
      have hne : bblock sb b ≠ sb.bmapstart := by
        have : 0 < b / BPB := Nat.div_pos (by omega) (by decide)
        rw [bblock]; omega
      rw [used, hother _ hne, hmap _ hin.1 hin.2]
      have : ¬ b < m.freeblock := by have : BPB = BSIZE * 8 := rfl; omega
      simp [isFree, Bytes.get_fill_zero, this]

theorem inodes_fixRoot {N : Nat} {k : Fin N} (m : Img) (hk : k.val = 1) : inodes (fixRoot m 1) = update (inodes m) k
    { inodes m k with size := .ofNat 32 (((inodes m k).size.toNat / BSIZE + 1) * BSIZE) } := by
  rw [fixRoot, ← hk]
  exact inodes_winode k _

theorem made_mkfs (hlen : files.length + 2 ≤ NINODES) (hs : ∀ f ∈ files, 47#8 ∉ f.name) (hf : ∀ f ∈ files, f.data.length ≤ MAXFILE * BSIZE)
    (hroom : usedBlocks (holding files) < BSIZE * 8) : Ends (fun _ => False) (Made files) (mkfs files) := by
  let root : Fin NINODES := ⟨1, by decide⟩
  have hnil := lt_of_le_of_lt (usedBlocks_holding [] files hlen) hroom
  rw [← holding_nil (k := root) rfl] at hnil
  have h0 := holds_ialloc (n := root) holds_blank rfl T_DIR
  rw [typed_nil rfl] at h0
  unfold mkfs
  refine (holds_iappend (n := root) (dirent 1 [46#8]) 16 h0 (by decide) (by decide) ?_).bind
    fun m1 ⟨h1, hi1⟩ => ?_
  · exact le_trans (usedBlocks_le_extend ..) (le_of_lt hnil)
  refine (holds_iappend (n := root) (dirent 1 [46#8, 46#8]) 16 h1 ?_ (by decide) (le_of_lt hnil)).bind
    fun m2 ⟨h2, hi2⟩ => ?_
  · rw [hi1]; decide
  rw [holding_nil rfl] at h2
  have hfiles : Ends (fun _ => False)
      (fun m => Holds m (typed files) (holding files) ∧ m.freeinode = files.length + 2) (files.foldlM (addFile 1) m2) := by
    refine Ends.foldlM (I := fun done m => Holds m (typed done) (holding done) ∧ m.freeinode = done.length + 2)
      ⟨h2, by rw [hi2, hi1]; rfl⟩ ?_
    rintro done f rest m hl ⟨h, hi⟩
    have hl' : files = (done ++ [f]) ++ rest := by rw [hl, append_assoc]; rfl
    have hcount : files.length = done.length + (rest.length + 1) := by rw [hl]; simp
    have hle := usedBlocks_holding (done ++ [f]) rest (by rw [← hl']; exact hlen)
    rw [← hl'] at hle
    have hmem : f ∈ files := by rw [hl]; simp
    exact holds_addFile h hi (by omega) (hs f hmem) (hf f hmem) (by omega)
  refine hfiles.bind fun m3 ⟨h3, hi3⟩ => ?_
  have hino := inodes_fixRoot (k := root) m3 rfl
  have hblk : ∀ x, sb.bmapstart ≤ x → (fixRoot m3 1).blk x = m3.blk x := fun x hx => winode_blk root _ hx
  have hst : Stores (inodes (fixRoot m3 1)) (fixRoot m3 1) (holding files) := by
    refine h3.stores.congr (fun k => ?_) (fun x hx => hblk x (bmapstart_le hx)) rfl
    rw [hino]
    by_cases hk : k = root
    · subst hk; rw [update_self]
    · rw [update_of_ne hk]
  have hcount := h3.stores.count
  have hsuper : readsb ((fixRoot m3 1).blk 1) = sb := (congrArg readsb (super_winode root _)).trans h3.super
  have hmap : ∀ x, sb.bmapstart ≤ x → x < nmeta → (fixRoot m3 1).blk x = Bytes.fill BSIZE 0#8 := fun x hx hx' => by
    rw [hblk x hx]; exact h3.map x hx hx'
  refine (balloc_made hst hsuper hmap (by change m3.freeblock < _; omega)).bind
    fun m4 ⟨hs4, hsuper4, hino4, hi4, hfb4, hbits4⟩ => ?_
  change m4.freeinode = m3.freeinode at hi4
  change m4.freeblock = m3.freeblock at hfb4
  have hv : (fun n : Fin NINODES => readDinode (m4.blk (iblock sb n)) (n % IPB)) = inodes m4 := rfl
  refine ⟨hsuper4, ?_, fun k => ?_, fun k => ?_, fun b hb => ?_⟩
  · rw [hv, ← hi3, ← hi4, ← hcount, ← hfb4]; exact hs4
  · have ht := h3.type k
    rw [show readDinode _ _ = inodes m4 k from rfl, hino4, hino, ← ht]
    by_cases hk : k = root
    · subst hk; rw [update_self]
    · rw [update_of_ne hk]
  · have hz := h3.size k
    rw [show readDinode _ _ = inodes m4 k from rfl, hino4, hino]
    by_cases hk : k = root
    · subst hk
      have hroot : (holding files root).length = 16 * (files.length + 2) := by
        rw [holding, if_pos rfl]; exact length_root files
      rw [update_self, if_pos rfl, hz, BitVec.toNat_ofNat, Nat.mod_eq_of_lt]
      have : 16 * NINODES + BSIZE < 2 ^ 32 := by decide
      have := Nat.div_mul_le_self (holding files root).length BSIZE
      rw [add_mul]
      omega
    · have hk1 : k.val ≠ 1 := fun e => hk (Fin.ext e)
      rw [update_of_ne hk, if_neg hk1, hz]
  · rw [hbits4 b hb, ← hcount]
    rfl

def blocksNeeded (files : List File) : Nat :=
  nmeta + blocksOf (16 * (files.length + 2)) + (files.map fun f => blocksOf f.data.length).sum

theorem usedBlocks_eq (files : List File) (hlen : files.length + 2 ≤ NINODES) : usedBlocks (holding files) = blocksNeeded files := by
  induction files using reverseRecOn with
  | nil =>
    rw [← holding_nil (k := ⟨1, by decide⟩) rfl]
    decide +kernel
  | append_singleton files f ih =>
    rw [length_append, length_singleton] at hlen
    have hroot : (holding files ⟨1, by decide⟩).length = 16 * (files.length + 2) := by
      rw [holding, if_pos rfl]; exact length_root files
    have hne : (⟨files.length + 2, hlen⟩ : Fin NINODES) ≠ ⟨1, by decide⟩ := by simp
    have hnew : holding files ⟨files.length + 2, hlen⟩ = [] := by
      rw [holding]
      simp
    have h1 := usedBlocks_extend (c := holding files) (n := ⟨1, by decide⟩)
      (l := tabulate 16 (dirent (files.length + 2) f.skip))
    have h2 := usedBlocks_extend
      (c := extend (holding files) ⟨1, by decide⟩ (tabulate 16 (dirent (files.length + 2) f.skip)))
      (n := ⟨files.length + 2, hlen⟩) (l := f.data)
    rw [extend_other hne, hnew] at h2
    rw [hroot, length_tabulate] at h1
    rw [holding_append files f (n := ⟨files.length + 2, hlen⟩) (k := ⟨1, by decide⟩) rfl rfl]
    have := ih (by omega)
    have hz : blocksOf 0 = 0 := by decide
    simp only [blocksNeeded, map_append, map_cons, map_nil, sum_append, sum_cons, sum_nil,
      length_append, length_cons, length_nil, zero_add, add_zero] at this h2 ⊢
    rw [show 16 * (files.length + 1 + 2) = 16 * (files.length + 2) + 16 by omega]
    omega

end Xv6.Mkfs
