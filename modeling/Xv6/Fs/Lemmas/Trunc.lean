import Xv6.Fs.Lemmas.Bmap
import Xv6.Fs.Lemmas.Icache

/-!
# Truncating and freeing an inode

While `itrunc` runs, its inode still has addresses on disk of blocks that are free already. `Freed` describes the disk in between.
-/

namespace Xv6.Fs

open Xv6.Lib Function List State Mkfs Dinode

variable {L : Type} {lw : LogWrite L} {s s' : State L} {i j : Fin NINODE} {n : Inum}
variable {d d' : Disk L} {D : List Idx} {x : Idx} {k : Fin (NDIRECT + 1)}

instance (x : Idx) : Decidable (x ∈ D) := decidable_of_iff (∃ y ∈ D, y = x) (by simp)

def left (s : State L) (n : Inum) (D : List Idx) (p : Pos) : Nat :=
  if p.1 = n ∧ p.2 ∈ D then 0 else s.ref p

def mapBlocks (s : State L) (n : Inum) (D : List Idx) : List Nat :=
  (D.filter fun x => s.ref (n, x) ≠ 0).map fun x => bblock sb (s.ref (n, x))

structure Freed (lw : LogWrite L) (s : State L) (n : Inum) (D : List Idx) (d : Disk L) : Prop where
  sb : d.sb = sb
  frame : ∀ x, ¬ InMap x → d.blk x = s.blk x
  owns : Owns d.blk (left s n D)
  used : ∀ b, used d.blk b = true ↔ Fs.used s.blk b = true ∧ ∀ x ∈ D, s.ref (n, x) ≠ 0 → s.ref (n, x) ≠ b
  log : (mapBlocks s n D).foldlM lw s.disk.log = some d.log

theorem freed_nil (h : Core s) : Freed lw s n [] s.disk := by
  refine ⟨h.sb, fun _ _ => rfl, ?_, fun b => by simp, rfl⟩
  have : left s n [] = s.ref := by funext p; simp [left]
  rw [this]; exact h.owns

theorem left_snoc (x : Idx) : left s n (D ++ [x]) = update (left s n D) (n, x) 0 := by
  funext ⟨m, y⟩
  by_cases hp : ((m, y) : Pos) = (n, x)
  · obtain ⟨rfl, rfl⟩ := Prod.mk.inj hp
    rw [update_self]; simp [left]
  · rw [update_of_ne hp]
    have : ¬ (m = n ∧ y = x) := fun h => hp (by rw [h.1, h.2])
    simp only [left, mem_append, mem_singleton]
    by_cases hm : m = n
    · subst hm; simp_all
    · simp [hm]

theorem Freed.super (h : Freed lw s n D d) (hc : Core s) : readsb (d.blk 1) = Mkfs.sb := by
  rw [h.frame 1 one_not_inMap]; exact hc.super

theorem Freed.skip (h : Freed lw s n D d) (hx : s.ref (n, x) = 0) : Freed lw s n (D ++ [x]) d := by
  refine ⟨h.sb, h.frame, ?_, fun b => ?_, ?_⟩
  · have : left s n (D ++ [x]) = left s n D := by
      rw [left_snoc]
      refine update_eq_self_iff.mpr ?_
      simp [left, hx]
    rw [this]; exact h.owns
  · rw [h.used]
    simp only [mem_append, mem_singleton]
    constructor
    · rintro ⟨hu, hn⟩
      refine ⟨hu, ?_⟩
      rintro y (hy | rfl) hne
      · exact hn y hy hne
      · exact absurd hx hne
    · rintro ⟨hu, hn⟩
      exact ⟨hu, fun y hy => hn y (.inl hy)⟩
  · have : mapBlocks s n (D ++ [x]) = mapBlocks s n D := by simp [mapBlocks, hx]
    rw [this]; exact h.log

theorem Freed.bfree (h : Freed lw s n D d) (hc : Core s) (hx : s.ref (n, x) ≠ 0) (hD : x ∉ D) :
    Ends (LogFull lw) (Freed lw s n (D ++ [x])) (bfree lw d (s.ref (n, x))) := by
  have hl : left s n D (n, x) = s.ref (n, x) := by simp [left, hD]
  have hused : Fs.used d.blk (s.ref (n, x)) = true := by
    rw [← hl]; exact h.owns.taken _ (by rw [hl]; exact hx)
  refine (ends_bfree (h.super hc) (hc.owns.range _ hx).2 hused).imp fun d' hf => ?_
  refine ⟨hf.sb, fun y hy => (hf.frame y hy).trans (h.frame y hy), ?_, fun b => ?_, ?_⟩
  · rw [left_snoc]
    refine h.owns.free (by rw [hl]; exact hx) fun y => ?_
    rw [hf.used, hl]
  · rw [hf.used, Bool.and_eq_true, h.used, decide_eq_true_eq]
    simp only [mem_append, mem_singleton]
    constructor
    · rintro ⟨⟨hu, hn⟩, hb⟩
      refine ⟨hu, ?_⟩
      rintro y (hy | rfl) hne
      · exact hn y hy hne
      · exact fun e => hb e.symm
    · rintro ⟨hu, hn⟩
      exact ⟨⟨hu, fun y hy => hn y (.inl hy)⟩, fun e => hn x (.inr rfl) hx e.symm⟩
  · have : mapBlocks s n (D ++ [x]) = mapBlocks s n D ++ [bblock Mkfs.sb (s.ref (n, x))] := by
      simp [mapBlocks, hx]
    rw [this, foldlM_append, h.log]
    simp [hf.log]

theorem Freed.skips (h : Freed lw s n D d) {E : List Idx} (hE : ∀ x ∈ E, s.ref (n, x) = 0) : Freed lw s n (D ++ E) d := by
  induction E generalizing D with
  | nil => rw [append_nil]; exact h
  | cons x E ih =>
    rw [append_cons]
    exact ih (h.skip (hE x mem_cons_self)) fun y hy => hE y (mem_cons_of_mem _ hy)

/-! ## The loops of `itrunc` -/

def Dinode.cut (di : Dinode) (D : List Idx) : Dinode :=
  { di with addrs := fun k => if .inl k ∈ D then 0 else di.addrs k }

structure Cuts (lw : LogWrite L) (s : State L) (i : Fin NINODE) (n : Inum) (D : List Idx)
    (s' : State L) : Prop where
  freed : Freed lw s n D s'.disk
  entry : s'.inode i = { s.inode i with d := (s.inode i).d.cut D }
  other : ∀ j, j ≠ i → s'.inode j = s.inode j

theorem cuts_nil (h : Core s) : Cuts lw s i n [] s := by
  refine ⟨freed_nil h, ?_, fun _ _ => rfl⟩
  simp [cut]

theorem cut_append_inr (di : Dinode) (js : List (Fin NINDIRECT)) : di.cut (D ++ js.map .inr) = di.cut D := by
  simp [cut]

theorem cut_snoc_inl (di : Dinode) (k : Fin (NDIRECT + 1)) :
    di.cut (D ++ [.inl k]) = { di.cut D with addrs := update (di.cut D).addrs k 0 } := by
  simp only [Dinode.cut, Dinode.mk.injEq, true_and]
  funext k'
  by_cases hk : k' = k
  · subst hk; simp
  · simp [hk]

variable {s1 : State L}

section

variable (h : Cuts lw s i n D s1)
include h

theorem Cuts.addr (hc : Core s) (hl : Live s i n) (hk : .inl k ∉ D) :
    ((s1.inode i).d.addrs k).toNat = s.ref (n, .inl k) := by
  rw [h.entry, State.ref, refOf_inl, hc.view_live hl]
  simp [Dinode.cut, hk]

theorem Cuts.clear {d : Disk L}
    (hd : Freed lw s n (D ++ [.inl k]) d) : Cuts lw s i n (D ++ [.inl k]) ({ s1 with disk := d }.setAddr i k 0) := by
  refine ⟨hd, ?_, fun j hj => ?_⟩
  · rw [setAddr_eq, inode_setInode_self, cut_snoc_inl]
    simp only [h.entry]
    rfl
  · rw [setAddr_eq, inode_setInode_ne hj]; exact h.other j hj

theorem Cuts.skip (hd : Freed lw s n (D ++ [.inl k]) s1.disk)
    (hz : (s1.inode i).d.addrs k = 0) : Cuts lw s i n (D ++ [.inl k]) s1 := by
  refine ⟨hd, ?_, h.other⟩
  rw [h.entry] at hz
  rw [cut_snoc_inl, update_eq_self_iff.mpr hz.symm]
  exact h.entry

theorem Cuts.truncDirect (hc : Core s) (hl : Live s i n) {k : Fin NDIRECT} (hk : .inl k.castSucc ∉ D) :
    Ends (LogFull lw) (Cuts lw s i n (D ++ [.inl k.castSucc])) (truncDirect lw i s1 k) := by
  have ha := h.addr hc hl hk
  simp only [Fs.truncDirect]
  split
  · rename_i hz
    rw [hz] at ha
    exact h.skip (h.freed.skip ha.symm) hz
  · rename_i hz
    have hne : s.ref (n, .inl k.castSucc) ≠ 0 := fun e => hz (toNat_eq_zero.mp (ha.trans e))
    rw [ha]
    exact (h.freed.bfree hc hne hk).bind fun d hd => h.clear hd

end

theorem Freed.truncIndirect (h : Freed lw s n D d) (hc : Core s) (hz : (view s n).addrs indirect ≠ 0) {j : Fin NINDIRECT}
    (hj : .inr j ∉ D) : Ends (LogFull lw) (Freed lw s n (D ++ [.inr j])) (truncIndirect lw ((view s n).addrs indirect).toNat d j) := by
  have hge := hc.indirect_ge hz
  have ha : ((d.blk ((view s n).addrs indirect).toNat).word (4 * j)).toNat = s.ref (n, .inr j) := by
    rw [h.frame _ fun hm => by have := hm.2; omega, State.ref, refOf_inr hz]
  simp only [Fs.truncIndirect]
  split
  · rename_i he
    rw [he] at ha
    exact h.skip ha.symm
  · rename_i he
    have hne : s.ref (n, .inr j) ≠ 0 := fun e => he (toNat_eq_zero.mp (ha.trans e))
    rw [ha]
    exact h.bfree hc hne hj

def directs : List Idx := (finRange NDIRECT).map fun k => .inl k.castSucc

def entries : List Idx := (finRange NINDIRECT).map .inr

def allIdx : List Idx := directs ++ entries ++ [.inl indirect]

theorem mem_allIdx (x : Idx) : x ∈ allIdx := by
  simp only [allIdx, directs, entries, mem_append, mem_map, mem_finRange, true_and, mem_singleton]
  cases x with
  | inl k =>
    induction k using Fin.lastCases with
    | last => exact .inr rfl
    | cast k => exact .inl (.inl ⟨k, rfl⟩)
  | inr j => exact .inl (.inr ⟨j, rfl⟩)

theorem inr_not_mem_directs (j : Fin NINDIRECT) : .inr j ∉ directs := by simp [directs]

theorem indirect_not_mem : .inl indirect ∉ directs ++ entries := by
  simp only [directs, entries, mem_append, mem_map, not_or]
  refine ⟨?_, by simp⟩
  rintro ⟨k, _, hk⟩
  exact absurd (Sum.inl.inj hk) (Fin.castSucc_lt_last k).ne

theorem ends_truncDirects (h : Core s) (hl : Live s i n) :
    Ends (LogFull lw) (Cuts lw s i n directs) ((finRange NDIRECT).foldlM (truncDirect lw i) s) := by
  refine Ends.foldlM (I := fun done s1 => Cuts lw s i n (done.map fun k : Fin NDIRECT => .inl k.castSucc) s1) (cuts_nil h) ?_
  intro done k rest s1 hsplit hi
  rw [map_append]
  refine hi.truncDirect h hl fun hmem => ?_
  obtain ⟨k', hk', he⟩ := mem_map.mp hmem
  obtain rfl := Fin.castSucc_injective _ (Sum.inl.inj he)
  have := nodup_finRange NDIRECT
  rw [hsplit, nodup_append] at this
  exact this.2.2 k' hk' k' mem_cons_self rfl

theorem ends_truncEntries (h : Core s) (hd : Freed lw s n directs d) (hz : (view s n).addrs indirect ≠ 0) :
    Ends (LogFull lw) (Freed lw s n (directs ++ entries))
      ((finRange NINDIRECT).foldlM (truncIndirect lw ((view s n).addrs indirect).toNat) d) := by
  refine Ends.foldlM (I := fun done d => Freed lw s n (directs ++ done.map .inr) d) (by simpa using hd) ?_
  intro done j rest d1 hsplit hi
  rw [map_append, ← append_assoc]
  refine hi.truncIndirect h hz fun hmem => ?_
  rcases mem_append.mp hmem with hm | hm
  · exact inr_not_mem_directs j hm
  · obtain ⟨j', hj', he⟩ := mem_map.mp hm
    obtain rfl := Sum.inr.inj he
    have := nodup_finRange NINDIRECT
    rw [hsplit, nodup_append] at this
    exact this.2.2 j' hj' j' mem_cons_self rfl

theorem Cuts.truncBlock (h : Cuts lw s i n directs s1) (hc : Core s) (hl : Live s i n) :
    Ends (LogFull lw) (Cuts lw s i n allIdx) (truncBlock lw s1 i) := by
  have hind : .inl indirect ∉ directs := fun hm => indirect_not_mem (mem_append_left _ hm)
  have ha := h.addr hc hl hind
  have hvz : ((s1.inode i).d.addrs indirect).toNat = ((view s n).addrs indirect).toNat := ha
  have hcuts : ∀ s2 : State L, Freed lw s n (directs ++ entries) s2.disk → s2.inode = s1.inode →
      Cuts lw s i n (directs ++ entries) s2 := fun _ hf hi =>
    ⟨hf, by rw [hi, entries, cut_append_inr]; exact h.entry, fun j hj => by rw [hi]; exact h.other j hj⟩
  simp only [Fs.truncBlock]
  split
  · rename_i hz
    rw [hz] at ha hvz
    have hf : Freed lw s n (directs ++ entries) s1.disk := h.freed.skips fun x hx => by
      obtain ⟨j, _, rfl⟩ := mem_map.mp hx
      exact refOf_inr_zero (toNat_eq_zero.mp hvz.symm) j
    exact (hcuts _ hf rfl).skip (hf.skip ha.symm) hz
  · rename_i hz
    have hvn : (view s n).addrs indirect ≠ 0 := fun e => hz (toNat_eq_zero.mp (hvz.trans (toNat_eq_zero.mpr e)))
    rw [hvz]
    refine (ends_truncEntries hc h.freed hvn).bind fun d hd => ?_
    have hne : s.ref (n, .inl indirect) ≠ 0 := mt toNat_eq_zero.mp hvn
    exact (hd.bfree hc hne indirect_not_mem).bind fun d' hd' => (hcuts { s1 with disk := d } hd rfl).clear hd'

/-! ## `itrunc` -/

structure Truncs (lw : LogWrite L) (s : State L) (i : Fin NINODE) (n : Inum) (s' : State L) :
    Prop where
  inv : Inv s'
  live : Live s' i n
  ref : ∀ p, s'.ref p = if p.1 = n then 0 else s.ref p
  used : ∀ b, b < FSSIZE → (used s'.blk b = true ↔ Fs.used s.blk b = true ∧ ∀ x, s.ref (n, x) ≠ 0 → s.ref (n, x) ≠ b)
  entry : s'.inode i = { s.inode i with d := { (s.inode i).d with size := 0, addrs := fun _ => 0 } }
  other : ∀ j, j ≠ i → s'.inode j = s.inode j
  self : s'.disk.dinode n = (s'.inode i).d
  dinode : ∀ m : Inum, m ≠ n → s'.disk.dinode m = s.disk.dinode m
  frame : ∀ x, nmeta ≤ x → s'.blk x = s.blk x
  log : (mapBlocks s n allIdx ++ [iblock sb n]).foldlM lw s.disk.log = some s'.disk.log

theorem cut_allIdx (di : Dinode) : di.cut allIdx = { di with addrs := fun _ => 0 } := by
  simp [cut, mem_allIdx]

theorem Cuts.core (h : Cuts lw s i n allIdx s1) (hc : Inv s) (hl : Live s i n) {ip : Inode}
    (hip : ip = { s.inode i with d := { (s.inode i).d with size := 0, addrs := fun _ => 0 } }) :
    Core (s1.setInode i ip) ∧ (∀ j, j ≠ i → Behind (s1.setInode i ip) j) ∧ (s1.setInode i ip).ref = left s n allIdx := by
  have hother : ∀ j, j ≠ i → (s1.setInode i ip).inode j = s.inode j := fun j hj => by
    rw [inode_setInode_ne hj, h.other j hj]
  have hself : (s1.setInode i ip).inode i = ip := inode_setInode_self
  have hmeta : ∀ j, ((s1.setInode i ip).inode j).ref = (s.inode j).ref ∧
      ((s1.setInode i ip).inode j).valid = (s.inode j).valid ∧
      ((s1.setInode i ip).inode j).inum = (s.inode j).inum := by
    intro j
    by_cases hj : j = i
    · subst hj; rw [hself, hip]; exact ⟨rfl, rfl, rfl⟩
    · rw [hother j hj]; exact ⟨rfl, rfl, rfl⟩
  have hlive : ∀ j m, Live (s1.setInode i ip) j m ↔ Live s j m := by
    intro j m
    obtain ⟨h1, h2, h3⟩ := hmeta j
    exact ⟨fun ⟨a, b, c⟩ => ⟨h1 ▸ a, h2 ▸ b, h3 ▸ c⟩, fun ⟨a, b, c⟩ => ⟨h1 ▸ a, h2 ▸ b, h3 ▸ c⟩⟩
  have huniq : Uniq (s1.setInode i ip) := fun a b ha hb hab => by
    rw [(hmeta a).1] at ha
    rw [(hmeta b).1] at hb
    rw [(hmeta a).2.2, (hmeta b).2.2] at hab
    exact hc.uniq a b ha hb hab
  have hdin : ∀ m : Inum, s1.disk.dinode m = s.disk.dinode m := fun m =>
    dinode_congr hc.sb h.freed.sb (h.freed.frame _ (iblock_not_inMap m))
  have hview : ∀ m, m ≠ n → view (s1.setInode i ip) m = view s m := fun m hm =>
    view_congr (fun j => hlive j m) (fun j hj => by
      rw [hother j (by rintro rfl; exact hm (Fin.ext (by rw [← hj.inum, hl.inum])))]) (fun _ => hdin m)
  have hviewn : (view (s1.setInode i ip) n).addrs = fun _ => 0 := by
    rw [huniq.view ((hlive i n).mpr hl), hself, hip]
  have href : (s1.setInode i ip).ref = left s n allIdx := by
    funext ⟨m, x⟩
    by_cases hm : m = n
    · subst hm
      rw [left, if_pos ⟨rfl, mem_allIdx x⟩, State.ref]
      cases x with
      | inl k => rw [refOf_inl, hviewn]; rfl
      | inr j => exact refOf_inr_zero (by rw [hviewn]) j
    · rw [left, if_neg fun he => hm he.1, State.ref, State.ref, refOf, refOf, hview m hm]
      refine congrFun (refOf_congr (v := fun _ => view s m) (fun _ hz => ?_)) (m, x)
      exact h.freed.frame _ fun hin => by have := hc.indirect_ge hz; have := hin.2; omega
  refine ⟨⟨h.freed.sb, h.freed.super hc.toCore, fun j hj => ?_, huniq, ?_⟩, fun j hj m hjl k => ?_, href⟩
  · rw [(hmeta j).1] at hj
    rw [(hmeta j).2.2]; exact hc.inum j hj
  · rw [href]; exact h.freed.owns
  · have := hc.behind j m ((hlive j m).mp hjl) k
    rw [hother j hj]
    exact (hdin m).symm ▸ this

theorem Inv.itrunc (h : Inv s) (hl : Live s i n) : Ends (LogFull lw) (Truncs lw s i n) (itrunc lw s i) := by
  unfold Fs.itrunc
  refine (ends_truncDirects h.toCore hl).bind fun s1 h1 => ?_
  refine (h1.truncBlock h.toCore hl).bind fun s2 h2 => ?_
  have hip : ({ s2.inode i with d := { (s2.inode i).d with size := 0 } } : Inode) =
      { s.inode i with d := { (s.inode i).d with size := 0, addrs := fun _ => 0 } } := by
    rw [h2.entry, cut_allIdx]
  obtain ⟨hc, hb, href⟩ := h2.core h hl hip
  have hlive : Live (s2.setInode i { s2.inode i with d := { (s2.inode i).d with size := 0 } }) i n :=
    Live.setInode (by rw [hip]; exact hl.ref) (by rw [hip]; exact hl.valid) (by rw [hip]; exact hl.inum)
  refine (hc.iupdate hlive hb).imp fun s' ⟨hs, hp⟩ => ?_
  refine ⟨hs.inv, ?_, fun p => ?_, fun b hb => ?_, ?_, fun j hj => ?_, ?_, fun m hm => ?_, fun x hx => ?_, ?_⟩
  · have := hlive
    exact ⟨by rw [hs.inode]; exact this.ref, by rw [hs.inode]; exact this.valid, by rw [hs.inode]; exact this.inum⟩
  · rw [hs.ref, href, left]; simp [mem_allIdx]
  · rw [State.blk, hp.used hb, State.setInode, h2.freed.used]; simp [mem_allIdx]
  · rw [hs.inode, inode_setInode_self, hip]
  · rw [hs.inode, inode_setInode_ne hj, h2.other j hj]
  · rw [hp.self, hs.inode]
  · rw [hp.other m hm]
    exact dinode_congr h.sb h2.freed.sb (h2.freed.frame _ (iblock_not_inMap m))
  · rw [blk, hp.frame x (by have := iblock_lt_nmeta n; omega)]
    exact h2.freed.frame x fun hin => by have := hin.2; omega
  · rw [foldlM_append, h2.freed.log]
    simp only [Option.bind_eq_bind, Option.bind_some, foldlM_cons, foldlM_nil]
    have := hp.log
    simp only [State.setInode] at this
    rw [this]; rfl

/-! ## `iput` -/

theorem Truncs.shrinks (h : Truncs lw s i n s') : Shrinks s s' := by
  refine ⟨h.inv, fun p => ?_⟩
  rw [h.ref]
  split
  · exact .inl rfl
  · exact .inr rfl

def freeBlocks (s : State L) (n : Inum) : List Nat :=
  mapBlocks s n allIdx ++ [iblock sb n] ++ [iblock sb n]

theorem Inv.ifree (h : Inv s) (hl : Live s i n) :
    Ends (LogFull lw) (fun s' => Shrinks s s' ∧ 0 < (s'.inode i).ref ∧
      (freeBlocks s n).foldlM lw s.disk.log = some s'.disk.log) (ifree lw s i) := by
  unfold Fs.ifree
  refine (h.itrunc hl).bind fun s1 h1 => ?_
  have ht := h1.inv.touch h1.live.ref { s1.inode i with d := { (s1.inode i).d with type := 0 } } rfl id rfl
  have hl2 : Live (s1.setInode i { s1.inode i with d := { (s1.inode i).d with type := 0 } }) i n :=
    Live.setInode h1.live.ref h1.live.valid h1.live.inum
  refine (ht.1.iupdate hl2 fun j _ => ht.1.behind j).bind fun s2 ⟨hs, hp⟩ => ?_
  have hr : 0 < (s2.inode i).ref := by rw [hs.inode]; exact hl2.ref
  refine ⟨?_, ?_, ?_⟩
  · refine (h1.shrinks.trans ht).trans (Shrinks.trans ⟨hs.inv, fun p => .inr (congrFun hs.ref p)⟩ ?_)
    exact hs.inv.touch hr _ rfl (fun hv => by cases hv) rfl
  · rw [inode_setInode_self]; exact hr
  · rw [freeBlocks, foldlM_append, h1.log]
    have := hp.log
    simp only [State.setInode] at this
    simp [this, State.setInode]

/-- `iput` frees the inode when nothing refers to it any more. -/
abbrev Frees (s : State L) (i : Fin NINODE) : Prop :=
  (s.inode i).valid = true ∧ (s.inode i).d.nlink = 0 ∧ (s.inode i).ref = 1

theorem Inv.iput_frees (h : Inv s) (hf : Frees s i) (hn : (s.inode i).inum = n) :
    Ends (LogFull lw) (fun s' => Shrinks s s' ∧ (freeBlocks s n).foldlM lw s.disk.log = some s'.disk.log)
      (iput lw s i) := by
  simp only [Fs.iput]
  rw [if_pos hf]
  refine (h.ifree ⟨by rw [hf.2.2]; exact one_pos, hf.1, hn⟩).bind fun s1 ⟨hs, hr, hlog⟩ => ?_
  exact ⟨hs.trans (hs.1.touch hr _ rfl id rfl), hlog⟩

theorem Inv.iput (h : Inv s) (hr : 0 < (s.inode i).ref) : Ends (LogFull lw) (Shrinks s) (iput lw s i) := by
  by_cases hf : Frees s i
  · exact (h.iput_frees (n := ⟨_, h.inum i hr⟩) hf rfl).imp fun _ hs => hs.1
  · simp only [Fs.iput]
    rw [if_neg hf]
    exact h.touch hr _ rfl id rfl

end Xv6.Fs
