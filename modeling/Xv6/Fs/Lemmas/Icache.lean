import Xv6.Fs.Lemmas.Inode

/-! # The inode cache -/

namespace Xv6.Fs

open Xv6.Lib

variable {L : Type} {lw : LogWrite L} {s s' : State L} {i j : Fin NINODE} {n : Inum}
variable {d d' : Disk L} {di : Dinode}

/-! ## Storing an inode -/

structure Puts (lw : LogWrite L) (d : Disk L) (n : Inum) (di : Dinode) (d' : Disk L) : Prop where
  sb : d'.sb = Mkfs.sb
  self : d'.dinode n = di
  other : ∀ m : Inum, m ≠ n → d'.dinode m = d.dinode m
  frame : ∀ x, x ≠ iblock Mkfs.sb n → d'.blk x = d.blk x
  log : lw d.log (iblock Mkfs.sb n) = some d'.log

theorem ends_putDinode (hsb : d.sb = Mkfs.sb) (n : Inum) (di : Dinode) :
    Ends (LogFull lw) (Puts lw d n di) (putDinode lw d n di) := by
  unfold putDinode
  rw [hsb]
  refine (ends_logWrite (fun _ => id) _ _).imp fun d' ⟨hs, hb, hlog⟩ => ?_
  have hs' : d'.sb = Mkfs.sb := hs.trans hsb
  simp only [Disk.setBlk] at hb hlog
  refine ⟨hs', ?_, fun m hm => ?_, fun x hx => ?_, hlog⟩
  · rw [Disk.dinode, hs', hb, readDinode_update, if_pos rfl]
  · rw [Disk.dinode, Disk.dinode, hs', hsb, hb, readDinode_update, if_neg fun e => hm (Fin.ext e)]
  · rw [hb, Function.update_of_ne hx]

theorem Puts.used (h : Puts lw d n di d') {x : Nat} (hx : x < FSSIZE) : used d'.blk x = used d.blk x := by
  have : bblock Mkfs.sb x ≠ iblock Mkfs.sb n := fun e => iblock_not_inMap n (e ▸ bblock_inMap hx)
  rw [Fs.used, Fs.used, h.frame _ this]

theorem Puts.super (h : Puts lw d n di d') : d'.blk 1 = d.blk 1 :=
  h.frame 1 (by have := (iblock_lt n).1; omega)

theorem Puts.view_live (h : Puts lw s.disk n di d) (hl : Live s i n) : view { s with disk := d } = view s := by
  funext m
  refine view_congr (fun _ => live_disk) (fun _ _ => rfl) (fun hno => h.other m ?_)
  rintro rfl
  exact hno i hl

theorem Puts.blk_indirect (h : Puts lw s.disk n di d) (hc : Core s) (m : Inum) (hm : (view s m).addrs indirect ≠ 0) :
    d.blk ((view s m).addrs indirect).toNat = s.blk ((view s m).addrs indirect).toNat :=
  h.frame _ (by have := hc.indirect_ge hm; have := iblock_lt_nmeta n; omega)

structure Syncs (s : State L) (s' : State L) : Prop where
  inv : Inv s'
  view : view s' = Fs.view s
  ref : s'.ref = s.ref
  inode : s'.inode = s.inode

theorem Core.iupdate (h : Core s) (hl : Live s i n) (hb : ∀ j, j ≠ i → Behind s j) :
    Ends (LogFull lw) (fun s' => Syncs s s' ∧ Puts lw s.disk n (s.inode i).d s'.disk) (iupdate lw s i) := by
  unfold Fs.iupdate
  rw [hl.inum]
  refine (ends_putDinode h.sb n _).bind fun d hd => ?_
  have hview := hd.view_live hl
  have href : ({ s with disk := d } : State L).ref = s.ref := by
    rw [State.ref, hview]; exact refOf_congr (hd.blk_indirect h)
  refine ⟨⟨⟨⟨hd.sb, by rw [State.blk, hd.super]; exact h.super, h.inum, h.uniq, ?_⟩, fun j m hj k => ?_⟩, hview, href, rfl⟩, hd⟩
  · rw [href]
    exact h.owns.mono (fun x hx hu => by rw [State.blk, hd.used hx]; exact hu) (by decide)
  · have hj' := live_disk.mp hj
    by_cases hji : j = i
    · subst hji
      obtain rfl : m = n := Fin.ext (by rw [← hj'.inum, ← hl.inum])
      exact .inr (by rw [hd.self])
    · have hm : m ≠ n := by rintro rfl; exact hji (h.uniq.live hj' hl)
      have := hb j hji m hj' k
      rwa [← hd.other m hm] at this

/-! ## Entries of the cache -/

def Shrinks (s s' : State L) : Prop := Inv s' ∧ ∀ p, s'.ref p = 0 ∨ s'.ref p = s.ref p

theorem Shrinks.trans {s1 s2 : State L} (h1 : Shrinks s s1) (h2 : Shrinks s1 s2) : Shrinks s s2 :=
  ⟨h2.1, fun p => (h2.2 p).elim .inl fun e => e ▸ h1.2 p⟩

theorem Inv.touch (h : Inv s) (hr : 0 < (s.inode i).ref) (ip : Inode) (hn : ip.inum = (s.inode i).inum)
    (hv : ip.valid = true → (s.inode i).valid = true) (ha : ip.d.addrs = (s.inode i).d.addrs) : Shrinks s (s.setInode i ip) := by
  refine h.setInode (h.fits hr hn) fun m hm => ?_
  have hv' := hm.valid
  have hn' := hm.inum
  rw [inode_setInode_self] at hv' hn'
  rw [h.view_live ⟨hr, hv hv', by rw [← hn, hn']⟩, ha]

theorem Inv.iget (h : Inv s) (n : Inum) :
    Ends (· = .iget) (fun r => Shrinks s r.2 ∧ 0 < (r.2.inode r.1).ref ∧ (r.2.inode r.1).inum = n.val)
      (Fs.iget s n) := by
  unfold Fs.iget
  split
  · rename_i i hi
    obtain ⟨hr, hn⟩ := of_decide_eq_true (List.find?_some hi :)
    refine ⟨h.touch hr _ rfl id rfl, ?_, ?_⟩
    · rw [inode_setInode_self]; exact Nat.succ_pos _
    · rw [inode_setInode_self]; exact hn
  · rename_i hnone
    rw [List.find?_eq_none] at hnone
    split
    · rename_i i hi
      refine ⟨h.setInode (fun _ => ⟨n.isLt, fun j _ hjr hjn => ?_⟩) fun m hm => ?_, ?_, ?_⟩
      · exact hnone j (List.mem_finRange j) (decide_eq_true ⟨hjr, hjn⟩)
      · have := hm.valid
        rw [inode_setInode_self] at this
        cases this
      · rw [inode_setInode_self]; exact one_pos
      · rw [inode_setInode_self]
    · rfl

theorem Inv.ilock (h : Inv s) (hr : 0 < (s.inode i).ref) : Ends (· = .noType) (Shrinks s) (Fs.ilock s i) := by
  have hself : Shrinks s s := ⟨h, fun _ => .inr rfl⟩
  simp only [Fs.ilock]
  rw [if_neg (by omega)]
  split
  · exact hself
  · rename_i hv
    split
    · rfl
    · refine h.setInode (h.fits hr rfl) fun m hm => ?_
      have hn := hm.inum
      rw [inode_setInode_self] at hn
      have hno : ∀ j, ¬ Live s j m := by
        intro j hj
        have hji : j = i := h.uniq j i hj.ref hr (by rw [hj.inum, hn])
        subst hji
        exact hv hj.valid
      rw [view_of_not_live hno, hn]

theorem Inv.put_zero (h : Inv s) (hp : Puts lw s.disk n di d) (hz : ∀ k, di.addrs k = 0) : Shrinks s { s with disk := d } := by
  have hvn : (∃ i, Live s i n) → view { s with disk := d } = view s := fun ⟨i, hl⟩ => hp.view_live hl
  have hview : ∀ m k, (view { s with disk := d } m).addrs k = 0 ∨
      (view { s with disk := d } m).addrs k = (view s m).addrs k := by
    intro m k
    by_cases hl : ∃ i, Live s i n
    · rw [hvn hl]; exact .inr rfl
    · by_cases hm : m = n
      · subst hm
        refine .inl ?_
        rw [view_of_not_live fun i hi => hl ⟨i, live_disk.mp hi⟩]
        exact (congrArg (fun x => x.addrs k) hp.self).trans (hz k)
      · refine .inr ?_
        rw [view_congr (fun _ => live_disk) (fun _ _ => rfl) (fun _ => hp.other m hm)]
  have hsub : ∀ p, ({ s with disk := d } : State L).ref p = 0 ∨ ({ s with disk := d } : State L).ref p = s.ref p := by
    intro p
    have he : refOf (view s) d.blk = s.ref := refOf_congr (hp.blk_indirect h.toCore)
    rw [← he]
    exact refOf_sub hview p
  refine ⟨⟨⟨hp.sb, by rw [State.blk, hp.super]; exact h.super, h.inum, h.uniq, ?_⟩, fun j m hj k => ?_⟩, hsub⟩
  · exact (h.owns.sub hsub).mono (fun x hx hu => by rw [State.blk, hp.used hx]; exact hu) (by decide)
  · have := h.behind j m (live_disk.mp hj) k
    by_cases hm : m = n
    · subst hm; exact .inl ((congrArg (fun x => x.addrs k) hp.self).trans (hz k))
    · rwa [← hp.other m hm] at this

/-- The rule for `ialloc`: it is `iget` of an inode that was free on disk. -/
theorem ends_ialloc {E : Panic → Prop} {Q : Fin NINODE × State L → Prop} {type : BitVec 16} (hsb : s.disk.sb = Mkfs.sb)
    (hE : ∀ p, LogFull lw p ∨ p = .noInodes → E p)
    (hQ : ∀ (n : Inum) d, (s.disk.dinode n).type = 0 → Puts lw s.disk n { Dinode.zero with type } d →
      Ends E Q (Fs.iget { s with disk := d } n)) : Ends E Q (Fs.ialloc lw s type) := by
  unfold Fs.ialloc
  split
  · rename_i inum hi
    obtain ⟨_, hlt, hfree⟩ := scan_some hi
    have hn : inum < Mkfs.NINODES := by
      rw [hsb] at hlt
      have : Mkfs.sb.ninodes = Mkfs.NINODES := rfl
      omega
    have hput : Ends (LogFull lw) (Puts lw s.disk ⟨inum, hn⟩ { Dinode.zero with type })
      (putDinode lw s.disk inum { Dinode.zero with type }) := ends_putDinode hsb ⟨inum, hn⟩ _
    refine (hput.mono (fun p hp => hE p (.inl hp)) fun _ => id).bind fun d hd => ?_
    exact hQ ⟨inum, hn⟩ d (of_decide_eq_true hfree) hd
  · exact hE _ (.inr rfl)

theorem Inv.ialloc (h : Inv s) (type : BitVec 16) :
    Ends (fun p => LogFull lw p ∨ p = .noInodes ∨ p = .iget) (fun r => Shrinks s r.2 ∧ 0 < (r.2.inode r.1).ref)
      (Fs.ialloc lw s type) :=
  ends_ialloc h.sb (fun _ hp => hp.imp_right .inl) fun n _ _ hd =>
    have hz := h.put_zero hd fun _ => rfl
    (hz.1.iget n).mono (fun _ e => .inr (.inr e)) fun _ hr => ⟨hz.trans hr.1, hr.2.1⟩

end Xv6.Fs
