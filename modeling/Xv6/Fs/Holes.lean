import Xv6.Fs.Lemmas.Made

/-!
# Holes in the image of `mkfs`

`iappend` takes a block for every block index that it passes. The inodes past the inode blocks lie in the free map.
-/

namespace Xv6.Mkfs

open Xv6.Lib Xv6.Fs Function

/-- The inodes of the inode blocks. -/
abbrev Place : Type := Fin (ninodeblocks * IPB)

instance : Fact (ninodeblocks * IPB ≤ ninodeblocks * IPB) := ⟨le_rfl⟩

variable {m m' : Img} {v v' : Place → Dinode} {din : Dinode} {n : Place} {fbn x k : Nat} {len : Place → Nat}
  {src : Nat → BitVec 8} {files : List File} {blk : Nat → Block}

/-- Each inode has the blocks for its first `len` bytes, and no others. -/
structure Full (v : Place → Dinode) (m : Img) (len : Place → Nat) : Prop where
  good : Good v m
  full : ∀ n bn, dataRef v m.blk n bn ≠ 0 ↔ bn * BSIZE < len n

theorem Full.pass {hb : fbn < MAXFILE} (h : Full v m len) (hf : Fetches v n m hb x v' m') (hfbn : fbn = len n / BSIZE) (hk0 : 0 < k)
    (hk : len n % BSIZE + k ≤ BSIZE) (buf : Block) : Full v' (wsect m' x buf) (update len n (len n + k)) := by
  have href := hf.good.refOf_store hf.ref buf
  refine ⟨(hf.good.store hf.ref hf.pos buf).1, fun j bn => ?_⟩
  have hsame : dataRef v' (wsect m' x buf).blk j bn = dataRef v' m'.blk j bn := by simp only [dataRef, href]
  rw [hsame]
  by_cases he : j = n ∧ bn = fbn
  · obtain ⟨rfl, rfl⟩ := he
    rw [hf.dataRef_self, update_self, hfbn]
    exact ⟨fun _ => by simp only [BSIZE]; omega, fun _ => hf.pos⟩
  · rw [hf.dataRef_other he, h.full]
    by_cases hj : j = n
    · -- the bytes before the pass
      subst hj
      have hne : bn ≠ len j / BSIZE := fun hbn' => he ⟨rfl, hbn'.trans hfbn.symm⟩
      rw [update_self]
      simp only [BSIZE] at hk hne ⊢
      omega
    · rw [update_of_ne hj]

theorem full_appendLoop {fuel : Nat} (h : Full (update v n din) m len) (hroom : m.freeblock ≤ BSIZE * 8) (hfuel : k ≤ fuel) :
    Ends (fun _ => True) (fun r => r.1.freeblock ≤ BSIZE * 8 → (k = 0 ∨ len n + k ≤ MAXFILE * BSIZE) ∧
      r.2 = { din with addrs := r.2.addrs } ∧ Full (update v n r.2) r.1 (update len n (len n + k)))
      (appendLoop fuel m din src (len n) k) := by
  induction fuel generalizing m din len src k with
  | zero =>
    obtain rfl : k = 0 := by omega
    refine fun _ => ⟨.inl rfl, rfl, ?_⟩
    rw [add_zero, update_eq_self]
    exact h
  | succ fuel ih =>
    rw [appendLoop]
    split
    · rename_i hz
      subst hz
      refine fun _ => ⟨.inl rfl, rfl, ?_⟩
      rw [add_zero, update_eq_self]
      exact h
    · split
      · rename_i hz hb
        dsimp only
        generalize hk1 : min k ((len n / BSIZE + 1) * BSIZE - len n) = k1
        have hfs : m.freeblock + 2 ≤ FSSIZE := le_trans (Nat.add_le_add_right hroom 2) (by decide)
        have hf := fetches_fileBlock h.good hfs hb
        have hdin := fileBlock_din m din (len n / BSIZE)
        generalize fileBlock m din (len n / BSIZE) = r at hf hdin ⊢
        obtain ⟨x, m1, din1⟩ := r
        dsimp only at hf hdin ⊢
        have hfit : len n % BSIZE + k1 ≤ BSIZE := by simp only [BSIZE] at hk1 ⊢; omega
        have hk0 : 0 < k1 := by simp only [BSIZE] at hk1; omega
        have hp := h.pass hf rfl hk0 hfit ((m1.blk x).write (len n - len n / BSIZE * BSIZE) k1 src)
        have hsize : len n + k1 ≤ MAXFILE * BSIZE ∧ k1 ≤ k := by
          simp only [BSIZE, MAXFILE, NDIRECT, NINDIRECT] at hk1 hb ⊢
          omega
        by_cases hroom1 : m1.freeblock ≤ BSIZE * 8
        · have hself : update len n (len n + k1) n = len n + k1 := update_self ..
          have hnext : Ends _ _ (appendLoop fuel _ _ (fun j => src (k1 + j)) _ (k - k1)) := ih hp hroom1 (by omega)
          rw [hself, update_idem, show len n + k1 + (k - k1) = len n + k by omega] at hnext
          refine hnext.imp fun r hr hle => ?_
          obtain ⟨hmax, hd, hfull⟩ := hr hle
          exact ⟨.inr (by omega), by rw [hd, hdin], hfull⟩
        · -- there are too many blocks already
          refine (ends_appendLoop hp.good.first).imp
            fun r (hs : Step (update v n din1) (update v n r.2) _ r.1) hle => ?_
          exact absurd (le_trans hs.mono hle) hroom1
      · trivial

/-! ## The calls of `mkfs` -/

theorem Good.dataRef_same {j : Place} (h : Good v m) (hj : (v' j).addrs = (v j).addrs)
    (hblk : ∀ x, nmeta ≤ x → m'.blk x = m.blk x) (bn : Nat) : dataRef v' m'.blk j bn = dataRef v m.blk j bn := by
  have hv : ∀ i, (update v j (v' j) i).addrs = (v i).addrs := by
    intro i
    by_cases hi : i = j
    · subst hi
      rw [update_self, hj]
    · rw [update_of_ne hi]
  have href : refOf (update v j (v' j)) m'.blk = refOf v m.blk := by
    rw [refOf_addrs hv]
    exact refOf_congr fun i hi => hblk _ (h.owns.range (i, .inl indirect) (mt toNat_eq_zero.mp hi)).1
  have hself (x : Idx) : refOf v' m'.blk (j, x) = refOf (update v j (v' j)) m'.blk (j, x) := by
    simp [refOf]
  simp [dataRef, blockOf, hself, href]

theorem dataRef_zero {blk : Nat → Block} (h : (v n).addrs = fun _ => 0) (bn : Nat) : dataRef v blk n bn = 0 := by
  have hz : ∀ x, refOf v blk (n, x) = 0 := by
    intro x
    cases x with
    | inl k => rw [refOf_inl, h]; rfl
    | inr j => exact refOf_inr_zero (by rw [h]) j
  unfold dataRef blockOf
  split
  · exact hz _
  · rfl

def sizeOf (m : Img) (n : Place) : Nat := (inodes m n).size.toNat

/-- No inode has a hole, as long as there are blocks left, and the root has `size` bytes. -/
structure Filled (size : Nat) (m : Img) : Prop where
  built : Built (ninodeblocks * IPB) m
  full : m.freeblock ≤ BSIZE * 8 → ∀ n bn, dataRef (inodes m) m.blk n bn ≠ 0 ↔ bn * BSIZE < sizeOf m n
  root : m.freeblock ≤ BSIZE * 8 → sizeOf m ⟨1, by decide⟩ = size

variable {size : Nat}

theorem Filled.good (h : Filled size m) (hle : m.freeblock ≤ BSIZE * 8) : Good (N := ninodeblocks * IPB) (inodes m) m :=
  (h.built.good (le_trans hle (by decide))).1

theorem Full.winode {m1 : Img} (h : Full (update (inodes m) n din) m1 (update (sizeOf m) n (sizeOf m n + k)))
    (hlow : ∀ x, x < nmeta → m1.blk x = m.blk x) (hmax : k = 0 ∨ sizeOf m n + k ≤ MAXFILE * BSIZE) :
    let m' := winode m1 n { din with size := .ofNat 32 (sizeOf m n + k) }
    sizeOf m' = update (sizeOf m) n (sizeOf m n + k) ∧
      ∀ j bn, dataRef (inodes m') m'.blk j bn ≠ 0 ↔ bn * BSIZE < sizeOf m' j := by
  intro m'
  have hino : inodes m' = update (inodes m) n { din with size := .ofNat 32 (sizeOf m n + k) } := by
    rw [inodes_winode, inodes_congr hlow]
  have hlt : (sizeOf m n + k) % 2 ^ 32 = sizeOf m n + k := by
    have := (inodes m n).size.isLt
    have hmb : MAXFILE * BSIZE < 2 ^ 32 := by decide
    have : sizeOf m n < 2 ^ 32 := this
    exact Nat.mod_eq_of_lt (by omega)
  have hsize : sizeOf m' = update (sizeOf m) n (sizeOf m n + k) := by
    funext j
    rw [sizeOf, hino]
    by_cases hj : j = n
    · subst hj
      rw [update_self, update_self, BitVec.toNat_ofNat, hlt]
    · rw [update_of_ne hj, update_of_ne hj]
      rfl
  refine ⟨hsize, fun j bn => ?_⟩
  rw [hsize, h.good.dataRef_same ?_ fun x hx => winode_blk n _ (bmapstart_le hx)]
  · exact h.full j bn
  · rw [hino]
    by_cases hj : j = n
    · subst hj
      rw [update_self, update_self]
    · rw [update_of_ne hj, update_of_ne hj]

theorem filled_iappend (h : Filled size m) (n : Place) :
    Ends (fun _ => True) (fun m' => Filled (if n.val = 1 then size + k else size) m' ∧ m'.freeinode = m.freeinode) (iappend m n src k) := by
  have hfull : Ends (fun _ => True) (fun m' => m'.freeblock ≤ BSIZE * 8 → m.freeblock ≤ BSIZE * 8 ∧
      sizeOf m' = update (sizeOf m) n (sizeOf m n + k) ∧
      ∀ j bn, dataRef (inodes m') m'.blk j bn ≠ 0 ↔ bn * BSIZE < sizeOf m' j) (iappend m n src k) := by
    have hself : update (inodes m) n (rinode m n) = inodes m := update_eq_self_iff.mpr rfl
    have hstep : Ends (fun _ => True) (fun r => Step (update (inodes m) n (rinode m n)) (update (inodes m) n r.2) m r.1)
        (appendLoop k m (rinode m n) src (rinode m n).size.toNat k) := ends_appendLoop h.built.first
    rw [hself] at hstep
    unfold iappend
    dsimp only
    by_cases hroom : m.freeblock ≤ BSIZE * 8
    · have hin : Full (update (inodes m) n (rinode m n)) m (sizeOf m) := by
        rw [hself]
        exact ⟨h.good hroom, h.full hroom⟩
      have hloop : Ends _ _ (appendLoop k m (rinode m n) src (sizeOf m n) k) := full_appendLoop hin hroom le_rfl
      refine (hstep.and hloop).bind fun ⟨m1, din1⟩ ⟨hs, hr⟩ => ?_
      intro hle
      obtain ⟨hmax, -, hf⟩ := hr hle
      exact ⟨hroom, hf.winode (hs.good (le_trans hle (by decide)) (h.good hroom)).2 hmax⟩
    · exact hstep.bind fun ⟨m1, din1⟩ hs => fun hle => absurd (le_trans hs.mono hle) hroom
  refine ((built_iappend h.built n src k).and hfull).imp fun m' ⟨⟨hb, hi⟩, hf⟩ => ⟨⟨hb, fun hle => (hf hle).2.2, fun hle => ?_⟩, hi⟩
  obtain ⟨hroom, hsize, -⟩ := hf hle
  rw [hsize]
  split
  · rename_i hn
    obtain rfl : n = ⟨1, by decide⟩ := Fin.ext hn
    rw [update_self, h.root hroom]
  · rename_i hn
    rw [update_of_ne fun he => hn (congrArg Fin.val he).symm, h.root hroom]

theorem filled_ialloc (h : Filled size m) (hi : m.freeinode < ninodeblocks * IPB) (hroot : m.freeinode = 1 → size = 0) (type : BitVec 16) :
    Filled size (ialloc m type).2 := by
  have hino : inodes (ialloc m type).2 = update (inodes m) ⟨m.freeinode, hi⟩ { Dinode.zero with type, nlink := 1 } := by
    rw [ialloc]
    exact inodes_winode ⟨m.freeinode, hi⟩ _
  have hsize : sizeOf (ialloc m type).2 = update (sizeOf m) ⟨m.freeinode, hi⟩ 0 := by
    funext j
    rw [sizeOf, hino]
    by_cases hj : j = ⟨m.freeinode, hi⟩
    · subst hj
      rw [update_self, update_self]
      rfl
    · rw [update_of_ne hj, update_of_ne hj]
      rfl
  have hblk : ∀ x, nmeta ≤ x → (ialloc m type).2.blk x = m.blk x := fun x hx => winode_blk ⟨m.freeinode, hi⟩ _ (bmapstart_le hx)
  refine ⟨built_ialloc h.built hi type, fun hle j bn => ?_, fun hle => ?_⟩
  · rw [hsize]
    by_cases hj : j = ⟨m.freeinode, hi⟩
    · subst hj
      rw [update_self, dataRef_zero (by rw [hino, update_self]; rfl)]
      simp
    · rw [update_of_ne hj, (h.good hle).dataRef_same (by rw [hino, update_of_ne hj]) hblk]
      exact h.full hle j bn
  · rw [hsize]
    by_cases hj : (⟨1, by decide⟩ : Place) = ⟨m.freeinode, hi⟩
    · rw [← hj, update_self, hroot (congrArg Fin.val hj).symm]
    · rw [update_of_ne hj, h.root hle]

theorem filled_copyLoop {fuel : Nat} {data : List (BitVec 8)} (h : Filled size m) (hn : n.val ≠ 1) :
    Ends (fun _ => True) (fun m' => Filled size m' ∧ m'.freeinode = m.freeinode) (copyLoop n fuel m data) := by
  induction fuel generalizing m data with
  | zero => exact ⟨h, rfl⟩
  | succ fuel ih =>
    rw [copyLoop]
    split
    · exact ⟨h, rfl⟩
    · refine (filled_iappend h n).bind ?_
      rintro m1 ⟨h1, hi1⟩
      rw [if_neg hn] at h1
      exact (ih h1).imp fun m' h' => ⟨h'.1, h'.2.trans hi1⟩

theorem filled_addFile (h : Filled size m) (hi : m.freeinode < ninodeblocks * IPB) (hi' : 1 < m.freeinode) (f : File) :
    Ends (fun _ => True) (fun m' => Filled (size + 16) m' ∧ m'.freeinode = m.freeinode + 1) (addFile 1 m f) := by
  unfold addFile
  split
  · trivial
  · have h0 := filled_ialloc h hi (by omega) T_FILE
    refine (filled_iappend h0 ⟨1, by decide⟩).bind fun m1 ⟨h1, hi1⟩ => ?_
    rw [if_pos rfl] at h1
    exact (filled_copyLoop (n := ⟨m.freeinode, hi⟩) h1 (by simp only; omega)).imp fun m' ⟨h', hi'⟩ => ⟨h', hi'.trans hi1⟩

theorem filled_blank : Filled 0 blank := by
  refine ⟨built_blank, fun _ n bn => ?_, fun _ => ?_⟩
  · rw [dataRef_zero (by rw [inodes_blank]; rfl), sizeOf, inodes_blank]
    exact ⟨fun h => absurd rfl h, fun h => absurd h (Nat.not_lt_zero _)⟩
  · rw [sizeOf, inodes_blank]
    rfl

def dinodes (blk : Nat → Block) (n : Nat) : Dinode := readDinode (blk (iblock sb n)) (n % IPB)

/-- The blocks of the finished image: the size of the root is rounded up, to the next block if its last one is full. -/
structure Blocks (size : Nat) (blk : Nat → Block) : Prop where
  root : (dinodes blk 1).size.toNat = (size / BSIZE + 1) * BSIZE
  full : ∀ (n : Place) bn, blockOf (refOf (dinodes blk) blk) n.val bn ≠ 0 ↔
    bn * BSIZE < if n.val = 1 then size else (dinodes blk n).size.toNat

theorem blocks_fixRoot (h : Filled size m) (hs : size < 2 ^ 31) (hle : m.freeblock ≤ BSIZE * 8) : Blocks size (fixRoot m 1).blk := by
  have hino := inodes_fixRoot (k := (⟨1, by decide⟩ : Place)) m rfl
  have hat (n : Place) : dinodes (fixRoot m 1).blk n = inodes (fixRoot m 1) n := rfl
  have hroot : (inodes m (⟨1, by decide⟩ : Place)).size.toNat = size := h.root hle
  refine ⟨?_, fun n bn => ?_⟩
  · have := hat ⟨1, by decide⟩
    rw [hino, update_self] at this
    rw [this, hroot, BitVec.toNat_ofNat]
    simp only [BSIZE]
    omega
  · have haddrs : (inodes (fixRoot m 1) n).addrs = (inodes m n).addrs := by
      rw [hino]
      by_cases hn : n = ⟨1, by decide⟩
      · subst hn
        rw [update_self]
      · rw [update_of_ne hn]
    have hblk : ∀ x, nmeta ≤ x → (fixRoot m 1).blk x = m.blk x := fun x hx => winode_blk (⟨1, by decide⟩ : Place) _ (bmapstart_le hx)
    have hsame := (h.good hle).dataRef_same haddrs hblk bn
    have heq : blockOf (refOf (dinodes (fixRoot m 1).blk) (fixRoot m 1).blk) n.val bn =
      dataRef (inodes (fixRoot m 1)) (fixRoot m 1).blk n bn := rfl
    rw [heq, hsame, h.full hle, hat, hino]
    by_cases hn : n = ⟨1, by decide⟩
    · subst hn
      rw [if_pos rfl, h.root hle]
    · rw [if_neg fun he => hn (Fin.ext he), update_of_ne hn]
      rfl

theorem ends_balloc_blocks (h : Filled size m) (hs : size < 2 ^ 31) :
    Ends (fun _ => True) (fun m' => Blocks size m'.blk) (balloc (fixRoot m 1) m.freeblock) := by
  unfold balloc
  split
  · rename_i hlt
    have hle : m.freeblock ≤ BSIZE * 8 := le_of_lt hlt
    have hg := ((built_fixRoot h.built ⟨1, by decide⟩).good (le_trans hle (by decide))).1
    have hb := blocks_fixRoot h hs hle
    -- the free map is no inode block, and no indirect block
    generalize hblk : wsect _ _ _ = m'
    have hother (x : Nat) (hx : x ≠ sb.bmapstart) : m'.blk x = (fixRoot m 1).blk x := by
      rw [← hblk]
      exact update_of_ne hx _ _
    have hino (n : Place) : dinodes m'.blk n = dinodes (fixRoot m 1).blk n := by
      rw [dinodes, hother _ (ne_of_lt (iblock_lt n).2)]
      rfl
    have hmeta : sb.bmapstart < nmeta := by decide
    refine ⟨(congrArg (fun d => d.size.toNat) (hino ⟨1, by decide⟩)).trans hb.root, fun n bn => ?_⟩
    have hsame : dataRef (fun n : Place => dinodes m'.blk n) m'.blk n bn = _ :=
      hg.dataRef_same (congrArg Dinode.addrs (hino n)) (fun x hx => hother x (by omega)) bn
    have heq : blockOf (refOf (dinodes m'.blk) m'.blk) n.val bn = dataRef (fun n : Place => dinodes m'.blk n) m'.blk n bn := rfl
    rw [heq, hsame, hino]
    exact hb.full n bn
  · trivial

theorem ends_mkfs_blocks (hlen : files.length + 2 ≤ ninodeblocks * IPB) :
    Ends (fun _ => True) (Blocks (16 * (files.length + 2))) (mkfs files) := by
  have h0 : Filled 0 (ialloc blank T_DIR).2 := filled_ialloc filled_blank (by decide) (fun _ => rfl) T_DIR
  unfold mkfs
  refine (filled_iappend h0 ⟨1, by decide⟩).bind fun m1 ⟨h1, hi1⟩ => ?_
  refine (filled_iappend h1 ⟨1, by decide⟩).bind fun m2 ⟨h2, hi2⟩ => ?_
  rw [if_pos rfl, if_pos rfl] at h2
  have hfiles : Ends (fun _ => True) (fun m => Filled (16 * (files.length + 2)) m ∧ m.freeinode = files.length + 2)
      (files.foldlM (addFile 1) m2) := by
    refine Ends.foldlM (I := fun done m => Filled (16 * (done.length + 2)) m ∧ m.freeinode = done.length + 2)
      ⟨h2, by rw [hi2, hi1]; rfl⟩ ?_
    rintro done f rest m hl ⟨h, hi⟩
    have hcount : files.length = done.length + (rest.length + 1) := by rw [hl]; simp
    refine (filled_addFile h (by omega) (by omega) f).imp fun m' ⟨h', hi'⟩ => ?_
    rw [List.length_append, List.length_singleton]
    exact ⟨h', by omega⟩
  refine hfiles.bind fun m3 ⟨h3, _⟩ => ?_
  refine (ends_balloc_blocks h3 ?_).bind fun m4 h4 => h4
  have : ninodeblocks * IPB = 208 := rfl
  omega

/-! ## The inodes in the free map -/

theorem first_appendLoop {fuel off len : Nat} (h : nmeta ≤ m.freeblock) :
    Ends (fun _ => True) (fun r => nmeta ≤ r.1.freeblock) (appendLoop fuel m din src off len) :=
  (ends_appendLoop (v := fun _ : Place => din) (n := ⟨1, by decide⟩) h).imp fun _ hs => le_trans h hs.mono

theorem first_iappend (h : nmeta ≤ m.freeblock) (inum : Nat) :
    Ends (fun _ => True) (fun m' => nmeta ≤ m'.freeblock) (iappend m inum src k) :=
  (first_appendLoop h).bind fun _ h' => h'

theorem first_copyLoop {inum fuel : Nat} {data : List (BitVec 8)} (h : nmeta ≤ m.freeblock) :
    Ends (fun _ => True) (fun m' => nmeta ≤ m'.freeblock) (copyLoop inum fuel m data) := by
  induction fuel generalizing m data with
  | zero => exact h
  | succ fuel ih =>
    rw [copyLoop]
    split
    · exact h
    · exact (first_iappend h inum).bind fun _ h' => ih h'

theorem first_addFile (h : nmeta ≤ m.freeblock) (f : File) : Ends (fun _ => True) (fun m' => nmeta ≤ m'.freeblock) (addFile 1 m f) := by
  unfold addFile
  split
  · trivial
  · have h0 : nmeta ≤ (ialloc m T_FILE).2.freeblock := h
    exact (first_iappend h0 1).bind fun _ h' => first_copyLoop h'

/-- The first inode past the inode blocks is the start of the free map, with a size that no file can have. -/
theorem ends_mkfs_map : Ends (fun _ => True) (fun blk => 2 ^ 18 ≤ (dinodes blk (ninodeblocks * IPB)).size.toNat) (mkfs files) := by
  have h0 : nmeta ≤ (ialloc blank T_DIR).2.freeblock := le_rfl
  unfold mkfs
  refine (first_iappend h0 1).bind fun m1 h1 => (first_iappend h1 1).bind fun m2 h2 => ?_
  have hfiles : Ends (fun _ => True) (fun m => nmeta ≤ m.freeblock) (files.foldlM (addFile 1) m2) :=
    Ends.foldlM (I := fun _ (m : Img) => nmeta ≤ m.freeblock) h2 fun _ f _ _ _ h => first_addFile h f
  refine hfiles.bind fun m3 h3 => ?_
  unfold balloc
  split
  · rename_i hlt
    -- block 82 is taken, and its bit is bit 18 of the size
    have hbit := isFree_fold hlt 82
    have hmeta : nmeta = 83 := rfl
    rw [isFree_eq, decide_eq_false (by omega), Bool.not_eq_false'] at hbit
    refine Nat.ge_two_pow_of_testBit ?_
    rw [BitVec.testBit_toNat, dinodes, wsect, show iblock sb (ninodeblocks * IPB) = sb.bmapstart from rfl]
    simp only [update_self]
    exact (Bytes.getLsbD_word _ _ (show 2 < 8 by decide)).trans hbit
  · trivial

/-- `mkfs` leaves no holes, unless the entries of the root fill its blocks exactly or an inode lies in the free map. -/
theorem mkfs_no_holes (hok : mkfs files = .ok blk) :
    (∀ n, n < max NINODES (files.length + 2) → ∀ bn, bn < ((dinodes blk n).size.toNat + BSIZE - 1) / BSIZE →
        blockOf (refOf (dinodes blk) blk) n bn ≠ 0) ↔
      files.length + 2 ≤ ninodeblocks * IPB ∧ (files.length + 2) % 32 ≠ 0 := by
  have hslots : ninodeblocks * IPB = 208 := rfl
  have hnum : NINODES = 200 := rfl
  by_cases hlen : files.length + 2 ≤ ninodeblocks * IPB
  · have hb := (ends_mkfs_blocks hlen).of_ok hok
    refine ⟨fun h => ⟨hlen, fun hz => ?_⟩, fun h n hn bn hbn => ?_⟩
    · -- the block after the last entry
      have hne := h 1 (by omega) (16 * (files.length + 2) / BSIZE) (by rw [hb.root]; simp only [BSIZE]; omega)
      have hlt := (hb.full ⟨1, by decide⟩ _).mp hne
      rw [if_pos rfl] at hlt
      simp only [BSIZE] at hlt
      omega
    · have hz := h.2
      refine (hb.full ⟨n, by omega⟩ bn).mpr ?_
      split
      · rename_i hn1
        obtain rfl : n = 1 := hn1
        rw [hb.root] at hbn
        simp only [BSIZE] at hbn ⊢
        omega
      · simp only [BSIZE] at hbn ⊢
        omega
  · refine ⟨fun h => ?_, fun h => absurd h.1 hlen⟩
    have hsize := ends_mkfs_map.of_ok hok
    have hmax : MAXFILE = 140 := rfl
    refine absurd (h (ninodeblocks * IPB) (by omega) MAXFILE ?_) (not_not.mpr (dif_neg (lt_irrefl _)))
    simp only [BSIZE]
    omega

def empties (k : Nat) : List File := List.replicate k ⟨[], []⟩

theorem made_empties (k : Nat) (hk : k + 2 ≤ NINODES) : ∃ blk, mkfs (empties k) = .ok blk ∧ Made (empties k) blk := by
  have hlen : (empties k).length = k := List.length_replicate
  have hroom : usedBlocks (holding (empties k)) < BSIZE * 8 := by
    rw [usedBlocks_eq _ (by rw [hlen]; exact hk), blocksNeeded, hlen]
    have hzero : blocksOf 0 = 0 := by decide
    have hsum : ((empties k).map fun f => blocksOf f.data.length).sum = 0 := by
      simp [empties, hzero]
    rw [hsum]
    have : blocksOf (16 * (k + 2)) ≤ blocksOf (16 * NINODES) := blocksOf_mono (by omega)
    have : nmeta + blocksOf (16 * NINODES) < BSIZE * 8 := by decide
    omega
  have hdata : ∀ f ∈ empties k, f.data.length ≤ MAXFILE * BSIZE := by
    intro f hf
    rw [List.eq_of_mem_replicate hf]
    exact Nat.zero_le _
  have hname : ∀ f ∈ empties k, 47#8 ∉ f.name := by
    intro f hf
    rw [List.eq_of_mem_replicate hf]
    exact List.not_mem_nil
  exact (made_mkfs (by rw [hlen]; exact hk) hname hdata hroom).returns fun _ => False.elim

theorem mkfs_no_holes_one_file : ∃ blk, mkfs (empties 1) = .ok blk ∧ ∀ n, n < 200 → ∀ bn,
    bn < ((dinodes blk n).size.toNat + BSIZE - 1) / BSIZE → blockOf (refOf (dinodes blk) blk) n bn ≠ 0 := by
  obtain ⟨blk, hok, -⟩ := made_empties 1 (by decide)
  exact ⟨blk, hok, (mkfs_no_holes hok).mpr ⟨by decide, by decide⟩⟩

/-- With 30 files the second block of the root is a hole. -/
theorem mkfs_root_hole : ∃ blk, mkfs (empties 30) = .ok blk ∧ (dinodes blk 1).size.toNat = 1024 ∧
    blockOf (refOf (dinodes blk) blk) 1 1 = 0 := by
  obtain ⟨blk, hok, -⟩ := made_empties 30 (by decide)
  have hb := (ends_mkfs_blocks (by decide)).of_ok hok
  refine ⟨blk, hok, hb.root, ?_⟩
  by_contra hz
  have hlt := (hb.full ⟨1, by decide⟩ 1).mp hz
  rw [if_pos rfl] at hlt
  exact absurd hlt (by decide)

end Xv6.Mkfs
