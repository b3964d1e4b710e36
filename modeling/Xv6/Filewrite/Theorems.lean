import Xv6.Filewrite.Model
import Xv6.Fs.Lemmas.Fills
import Xv6.Fs.Lemmas.Synced
import Xv6.Fs.Theorems
import Xv6.Lib.Trans

/-!
# Theorems about writes through a shared descriptor

The passes of all processes together append to one sequence of bytes.
-/

namespace Xv6.Filewrite

open Xv6.Lib Function List Fs

variable {L P : Type} {lw : LogWrite L} {n : Inum} {fs fs' : Fs.State L} {f : File} {c : Call}

/-! ## One pass -/

theorem Opened.ilock (h : Opened n f fs) :
    ∃ fs', ilock fs f.ip = .ok fs' ∧ Opened n f fs' ∧ Fs.Live fs' f.ip n ∧ fs'.disk = fs.disk ∧
      view fs' n = view fs n := by
  by_cases hv : (fs.inode f.ip).valid = true
  · refine ⟨fs, ?_, h, ⟨h.ref, hv, h.inum⟩, rfl, rfl⟩
    have hr := h.ref
    simp only [Fs.ilock, hv, if_true]
    rw [if_neg (by omega)]
  · have hno : ∀ j, ¬ Fs.Live fs j n := by
      intro j hj
      have hji : j = f.ip := h.inv.uniq j f.ip hj.ref h.ref (by rw [hj.inum, h.inum])
      exact hv (hji ▸ hj.valid)
    have hview : view fs n = fs.disk.dinode n := view_of_not_live hno
    have hends := h.inv.ilock h.ref
    obtain ⟨fs', he, hs⟩ := hends.returns (by
      rintro e rfl he
      have hr := h.ref
      simp only [Fs.ilock] at he
      rw [if_neg (by omega), if_neg hv, Fs.inode_setInode_self, h.inum, ← hview, h.type,
        if_neg (show T_FILE ≠ 0#16 by decide)] at he
      cases he)
    have hk := (locks_ilock fs f.ip).of_ok he
    have hl := hk.live h.inum
    have hv' : view fs' n = view fs n := by
      rw [hs.1.view_live hl, hk.new (Bool.eq_false_iff.mpr hv), h.inum, hview]
    exact ⟨fs', he, ⟨hs.1, hl.ref, hl.inum, hv' ▸ h.type⟩, hl, hk.disk, hv'⟩

theorem Opened.same (h : Opened n f fs) (hd : fs'.disk = fs.disk) (hv : view fs' n = view fs n) :
    content fs' n = content fs n ∧ dataRef fs' n = dataRef fs n := by
  have hsame := byteAt_congr h.inv.toCore (congrArg _ hv) fun x _ => by rw [Fs.State.blk, Fs.State.blk, hd]
  exact ⟨by rw [content, content, hv, hsame.2], hsame.1⟩

/-- What a pass does: it writes all of its bytes at the offset, or it is refused. -/
inductive Passes (n : Inum) (fs : Fs.State L) (f : File) (c : Call) : Int × File × Fs.State L → Prop where
  | wrote {f' : File} {fs' : Fs.State L} : f'.writable = f.writable → f'.off.toNat = f.off.toNat + c.n1.toNat → Opened n f' fs' →
      f.off.toNat ≤ (content fs n).length →
      content fs' n = writeAt (content fs n) f.off.toNat (tabulate c.n1.toNat c.src) → Passes n fs f c (c.n1, f', fs')
  | refused {fs' : Fs.State L} : Opened n f fs' → content fs' n = content fs n →
      (f.off.toNat ≤ (content fs n).length → MAXFILE * BSIZE < f.off.toNat + c.n1.toNat) → Passes n fs f c (-1, f, fs')

theorem n1_pos (h : c.i < c.n) : 0 < c.n1 ∧ c.n1 ≤ max := by
  have : (0 : Int) < max := by decide
  unfold Call.n1
  split <;> omega

theorem toNat_n1 (h : c.i < c.n) : (BitVec.ofInt 32 c.n1).toNat = c.n1.toNat := by
  obtain ⟨hpos, hle⟩ := n1_pos h
  have hmax : max < 2 ^ 31 := by decide
  rw [BitVec.toNat_ofInt, Int.emod_eq_of_lt (by omega) (by omega)]

theorem Opened.pass (h : Opened n f fs) (hi : c.i < c.n) :
    Ends (fun e => ∃ p, Fs.NoSpace lw p ∧ e = .fs p) (Passes n fs f c) (pass lw fs f c) := by
  obtain ⟨fs1, he, h1, hl, hd, hv⟩ := h.ilock
  have hc := (h.same hd hv).1
  have hpos := (n1_pos hi).1
  have hn1 := toNat_n1 hi
  have hdev : (view fs1 n).type ≠ T_DEV := by rw [h1.type]; decide
  have hlen : (content fs1 n).length = (view fs1 n).size.toNat := length_tabulate _ _
  unfold Filewrite.pass
  rw [he]
  change Ends _ _ ((writei lw fs1 f.ip c.src f.off (.ofInt 32 c.n1)).mapError Panic.fs >>= _)
  by_cases hr : Fs.InRange fs1 n f.off (.ofInt 32 c.n1) ∧ f.off.toNat + (BitVec.ofInt 32 c.n1).toNat ≤ MAXFILE * BSIZE
  · have hw : Ends (Fs.NoSpace lw) _ (writei lw fs1 f.ip c.src f.off (.ofInt 32 c.n1)) :=
      ends_writei h1.inv hl hdev hr.1 hr.2
    refine (hw.mapError fun p hp => ⟨p, hp, rfl⟩).bind fun ⟨r, fs2⟩ ⟨hr', hs⟩ => ?_
    dsimp only at hr'
    rw [hn1] at hr'
    obtain rfl : r = c.n1 := by rw [hr']; omega
    dsimp only
    rw [if_neg (show ¬ c.n1 < 0 by omega), if_neg (by simp), if_pos hpos]
    refine .wrote rfl ?_ ⟨hs.inv, hs.live.ref, hs.live.inum, hs.type.trans h1.type⟩ ?_ ?_
    · rw [BitVec.toNat_add, hn1]
      have := hr.1.2
      rw [hn1] at this
      exact Nat.mod_eq_of_lt this
    · rw [← hc, hlen]
      exact hr.1.1
    · rw [hs.content, hc, hn1]
  · rw [writei_refuses h1.inv.toCore hl hdev hr]
    refine .refused h1 hc fun hoff => ?_
    rw [hn1] at hr
    by_contra hcon
    have hM : MAXFILE * BSIZE < 2 ^ 32 := by decide
    exact hr ⟨⟨by rw [← hlen, hc]; exact hoff, by rw [hn1]; omega⟩, by omega⟩

theorem Opened.pass_fills (h : Opened n f fs) (hi : c.i < c.n) :
    Ends (fun e => ∃ p, Fs.Short lw fs n (range f.off.toNat c.n1.toNat) p ∧ e = .fs p ∧
        f.off.toNat + c.n1.toNat ≤ MAXFILE * BSIZE)
      (fun r => r.1 < 0 ∧ Fs.Fills lw fs n ∅ r.2.2 ∨ 0 < r.1 ∧ f.off.toNat + c.n1.toNat ≤ MAXFILE * BSIZE ∧
        Fs.Fills lw fs n (range f.off.toNat c.n1.toNat) r.2.2)
      (Filewrite.pass lw fs f c) := by
  obtain ⟨fs1, he, h1, hl, hd, hv⟩ := h.ilock
  have hdev : (view fs1 n).type ≠ T_DEV := by rw [h1.type]; decide
  have hlocked : Fs.Fills lw fs n ∅ fs1 := .same hd hv
  unfold Filewrite.pass
  rw [he]
  change Ends _ _ ((writei lw fs1 f.ip c.src f.off (.ofInt 32 c.n1)).mapError Panic.fs >>= _)
  by_cases hr : Fs.InRange fs1 n f.off (.ofInt 32 c.n1) ∧ f.off.toNat + (BitVec.ofInt 32 c.n1).toNat ≤ MAXFILE * BSIZE
  · have hw : Ends (Fs.Short lw fs1 n _) _ (writei lw fs1 f.ip c.src f.off (.ofInt 32 c.n1)) :=
      fills_writei h1.inv hl hdev hr.1 hr.2
    have hret : Ends (Fs.NoSpace lw) _ (writei lw fs1 f.ip c.src f.off (.ofInt 32 c.n1)) :=
      ends_writei h1.inv hl hdev hr.1 hr.2
    have hle := hr.2
    rw [toNat_n1 hi] at hw hret hle
    rw [← Finset.empty_union (range f.off.toNat c.n1.toNat)]
    refine ((hw.and hret).mapError fun p hp => ⟨p, hlocked.short hp, rfl, hle⟩).bind fun ⟨r, fs2⟩ ⟨hf, hr', _⟩ => ?_
    have hpos := (n1_pos hi).1
    dsimp only at hr' ⊢
    rw [if_neg (show ¬ r < 0 by omega), if_neg (show ¬ r ≠ c.n1 by omega)]
    exact .inr ⟨by omega, hle, hlocked.trans hf⟩
  · rw [writei_refuses h1.inv.toCore hl hdev hr]
    exact .inl ⟨show (-1 : Int) < 0 by decide, hlocked⟩

/-! ## Runs -/

variable {s s0 s' : State P L} {a : Nat} {chunks : List (Chunk (BitVec 8))}

structure Progress (chunks : List (Chunk (BitVec 8))) (c : Call) : Prop where
  nonneg : 0 ≤ c.i
  bound : c.i ≤ c.n ∨ c.i = 0
  data : Chunk.join c.written = tabulate c.i.toNat c.addr
  mem : c.written.Sublist chunks

/-- All passes together have written consecutive chunks from offset `a` on. -/
structure Inv (n : Inum) (a : Nat) (s : State P L) : Prop where
  opened : Opened n s.f s.fs
  off : s.f.off.toNat = a + (Chunk.join s.chunks).length
  place : Chunk.Consecutive a s.chunks
  holds : readAt (content s.fs n) a (Chunk.join s.chunks).length = Chunk.join s.chunks
  call : ∀ p, ∀ c ∈ s.call p, Progress s.chunks c
  returned : ∀ x ∈ s.returned, Progress s.chunks x.1 ∧ (x.2 ≠ -1 → x.1.i = x.1.n ∧ x.2 = x.1.n)

theorem Started.inv (h : Started n s) : Inv n s.f.off.toNat s where
  opened := h.opened
  off := by rw [h.chunks]; rfl
  place := by rw [h.chunks]; trivial
  holds := by rw [h.chunks]; rfl
  call p c hc := by rw [h.call p] at hc; cases hc
  returned x hx := by rw [h.returned] at hx; cases hx

theorem Progress.mono (h : Progress chunks c) (k : Chunk (BitVec 8)) : Progress (chunks ++ [k]) c :=
  ⟨h.nonneg, h.bound, h.data, h.mem.trans (sublist_append_left _ _)⟩

theorem Progress.pass (h : Progress chunks c) (hi : c.i < c.n) (off : Nat) :
    Progress (chunks ++ [⟨off, tabulate c.n1.toNat c.src⟩])
      { c with i := c.i + c.n1, written := c.written ++ [⟨off, tabulate c.n1.toNat c.src⟩] } := by
  have hpos := (n1_pos hi).1
  have hnn := h.nonneg
  refine ⟨by dsimp only; omega, .inl ?_, ?_, h.mem.append (List.Sublist.refl _)⟩
  · dsimp only
    unfold Call.n1
    split <;> omega
  · dsimp only
    rw [Chunk.join_append, h.data, Int.toNat_add hnn (by omega), tabulate_add]
    simp only [Chunk.join_cons, Chunk.join_nil, append_nil]
    rfl

variable [DecidableEq P]

theorem Progress.leave (h : Progress chunks c) : Progress chunks c ∧ (c.result ≠ -1 → c.i = c.n ∧ c.result = c.n) := by
  refine ⟨h, fun hr => ?_⟩
  unfold Call.result at hr ⊢
  split at hr
  · rename_i he
    exact ⟨he, if_pos he⟩
  · exact absurd rfl hr

theorem Inv.leave {p : P} (h : Inv n a s) (hc : s.call p = some c) : Inv n a (s.leave p c) := by
  refine { h with call := fun q d hd => ?_, returned := fun x hx => ?_ }
  · dsimp only [State.leave] at hd
    by_cases hq : q = p
    · subst hq; rw [update_self] at hd; cases hd
    · rw [update_of_ne hq] at hd
      exact h.call q d hd
  · rcases mem_append.mp hx with hx | hx
    · exact h.returned x hx
    · obtain rfl := mem_singleton.mp hx
      exact (h.call p c hc).leave

omit [DecidableEq P] in
theorem Inv.refused (h : Inv n a s) (ho : Opened n s.f fs) (hc : content fs n = content s.fs n) : Inv n a { s with fs } :=
  ⟨ho, h.off, h.place, by dsimp only; rw [hc]; exact h.holds, h.call, h.returned⟩

theorem Inv.wrote {p : P} (h : Inv n a s) (hcall : s.call p = some c) (hi : c.i < c.n) (hoff : f.off.toNat = s.f.off.toNat + c.n1.toNat)
    (ho : Opened n f fs) (hlen : s.f.off.toNat ≤ (content s.fs n).length)
    (hc : content fs n = writeAt (content s.fs n) s.f.off.toNat (tabulate c.n1.toNat c.src)) :
    Inv n a { s with
      f
      fs
      call := update s.call p (some { c with
        i := c.i + c.n1
        written := c.written ++ [⟨s.f.off.toNat, tabulate c.n1.toNat c.src⟩] })
      chunks := s.chunks ++ [⟨s.f.off.toNat, tabulate c.n1.toNat c.src⟩] } := by
  have hjoin : Chunk.join (s.chunks ++ [⟨s.f.off.toNat, tabulate c.n1.toNat c.src⟩]) =
      Chunk.join s.chunks ++ tabulate c.n1.toNat c.src := by simp
  refine ⟨ho, ?_, h.place.snoc h.off, ?_, fun q d hd => ?_, fun x hx => ?_⟩
  · dsimp only
    rw [hjoin, length_append, length_tabulate, hoff, h.off, Nat.add_assoc]
  · dsimp only
    rw [hjoin, length_append, hc, h.off, readAt_writeAt_end (h.off ▸ hlen), h.holds]
  · dsimp only at hd ⊢
    by_cases hq : q = p
    · subst hq
      rw [update_self] at hd
      cases hd
      exact (h.call q c hcall).pass hi _
    · rw [update_of_ne hq] at hd
      exact (h.call q d hd).mono _
  · exact ⟨(h.returned x hx).1.mono _, (h.returned x hx).2⟩

inductive Next (n : Inum) (s : State P L) : Act P L → State P L → Prop where
  | call {p : P} {addr : Nat → BitVec 8} {k : Int} : s.f.writable = true →
      Next n s (.call p addr k) { s with call := update s.call p (some ⟨addr, k, 0, []⟩) }
  | unwritable {p : P} {addr : Nat → BitVec 8} {k : Int} : s.f.writable = false →
      Next n s (.call p addr k) { s with returned := s.returned ++ [(⟨addr, k, 0, []⟩, -1)] }
  | wrote {p : P} {c : Call} {f : File} {fs : Fs.State L} : s.call p = some c → c.i < c.n → f.writable = s.f.writable →
      f.off.toNat = s.f.off.toNat + c.n1.toNat → Opened n f fs → s.f.off.toNat ≤ (content s.fs n).length →
      content fs n = writeAt (content s.fs n) s.f.off.toNat (tabulate c.n1.toNat c.src) →
      Next n s (.pass p) { s with
        f
        fs
        call := update s.call p (some { c with
          i := c.i + c.n1
          written := c.written ++ [⟨s.f.off.toNat, tabulate c.n1.toNat c.src⟩] })
        chunks := s.chunks ++ [⟨s.f.off.toNat, tabulate c.n1.toNat c.src⟩] }
  | refused {p : P} {c : Call} {fs : Fs.State L} : s.call p = some c → c.i < c.n → Opened n s.f fs →
      content fs n = content s.fs n →
      (s.f.off.toNat ≤ (content s.fs n).length → MAXFILE * BSIZE < s.f.off.toNat + c.n1.toNat) →
      Next n s (.pass p) ({ s with fs }.leave p c)
  | ret {p : P} {c : Call} : s.call p = some c → ¬ c.i < c.n → Next n s (.ret p) (s.leave p c)
  | others {fs : Fs.State L} : Opened n s.f fs → content fs n = content s.fs n → Next n s (.others fs) { s with fs }

theorem next_of_step {x : Act P L} (ho : Opened n s.f s.fs) (hx : Allowed n s x) (hst : step lw s x = some s') : Next n s x s' := by
  cases x with
  | call p addr k =>
    simp only [step] at hst
    split at hst
    · cases hst
    · split at hst
      · rename_i hw
        cases hst
        exact .call hw
      · rename_i hw
        cases hst
        exact .unwritable (Bool.eq_false_iff.mpr hw)
  | pass p =>
    simp only [step] at hst
    split at hst
    · cases hst
    rename_i c hc
    split at hst
    · rename_i hi
      split at hst
      · cases hst
      rename_i r f fs he
      have hp : Passes n s.fs s.f c (r, f, fs) := (ho.pass hi).of_ok he
      cases hp with
      | wrote hw hoff ho' hlen hcont =>
        have hpos := (n1_pos hi).1
        rw [if_neg (by omega)] at hst
        cases hst
        exact .wrote hc hi hw hoff ho' hlen hcont
      | refused ho' hcont hmax =>
        rw [if_pos (by decide)] at hst
        cases hst
        exact .refused hc hi ho' hcont hmax
    · cases hst
  | ret p =>
    simp only [step] at hst
    split at hst
    · cases hst
    rename_i c hc
    split at hst
    · cases hst
    · rename_i hi
      cases hst
      exact .ret hc hi
  | others fs =>
    cases hst
    exact .others hx.1 hx.2

theorem progress_new (addr : Nat → BitVec 8) (k : Int) : Progress chunks ⟨addr, k, 0, []⟩ :=
  ⟨Int.le_refl 0, .inr rfl, rfl, nil_sublist _⟩

theorem Inv.next {x : Act P L} (h : Inv n a s) (hx : Next n s x s') : Inv n a s' := by
  cases hx with
  | @call p addr k _ =>
    refine { h with call := fun q d hd => ?_ }
    dsimp only at hd
    by_cases hq : q = p
    · subst hq
      rw [update_self] at hd
      cases hd
      exact progress_new addr k
    · rw [update_of_ne hq] at hd
      exact h.call q d hd
  | @unwritable p addr k _ =>
    refine { h with returned := fun x hx => ?_ }
    rcases mem_append.mp hx with hx | hx
    · exact h.returned x hx
    · obtain rfl := mem_singleton.mp hx
      exact ⟨progress_new addr k, fun hr => absurd rfl hr⟩
  | wrote hc hi _ hoff ho hlen hcont => exact h.wrote hc hi hoff ho hlen hcont
  | refused hc _ ho hcont => exact (h.refused ho hcont).leave hc
  | ret hc => exact h.leave hc
  | others ho hcont => exact h.refused ho hcont

def Runs (lw : LogWrite L) (ok : State P L → Act P L → Prop) (s0 : State P L) : State P L → Prop :=
  Reach (· = s0) (step lw) ok

theorem Runs.inv (h0 : Started n s0) (h : Runs lw (Allowed n) s0 s) : Inv n s0.f.off.toNat s := by
  refine Reach.inv (P := Inv n s0.f.off.toNat) ?_ (fun s x s' hi hx hst => ?_) h
  · rintro _ rfl
    exact h0.inv
  · exact hi.next (next_of_step hi.opened hx hst)

/-! ## Results -/

/-- While the file has room every call that is not negative succeeds. -/
structure Full (n : Inum) (s : State P L) : Prop where
  writable : s.f.writable = true
  size : s.f.off.toNat ≤ (content s.fs n).length
  results : ∀ x ∈ s.returned, 0 ≤ x.1.n → x.2 = x.1.n

theorem Full.next {x : Act P L} (h : Full n s) (hi : Inv n a s) (hw : Within s x) (hx : Next n s x s') : Full n s' := by
  cases hx with
  | call => exact ⟨h.writable, h.size, h.results⟩
  | unwritable hf => rw [h.writable] at hf; cases hf
  | wrote hc _ hwr hoff _ hlen hcont =>
    refine ⟨hwr.trans h.writable, ?_, h.results⟩
    dsimp only
    rw [hoff, hcont, writeAt]
    simp only [length_append, length_take, length_tabulate]
    omega
  | refused hc hlt _ _ hmax =>
    have hle := hw _ hc
    have hgt := hmax h.size
    have hpos := (n1_pos hlt).1
    omega
  | @ret p c hc hge =>
    refine ⟨h.writable, h.size, fun y hy hn => ?_⟩
    rcases mem_append.mp hy with hy | hy
    · exact h.results y hy hn
    · obtain rfl := mem_singleton.mp hy
      have hb := (hi.call p c hc).bound
      dsimp only at hn
      have he : c.i = c.n := by omega
      exact if_pos he
  | others _ hcont => exact ⟨h.writable, by dsimp only; rw [hcont]; exact h.size, h.results⟩

theorem Runs.full (h0 : Started n s0) (hw : s0.f.writable = true) (hsize : s0.f.off.toNat ≤ (content s0.fs n).length)
    (h : Runs lw (fun s x => Allowed n s x ∧ Within s x) s0 s) : Full n s := by
  suffices hg : Inv n s0.f.off.toNat s ∧ Full n s from hg.2
  refine Reach.inv (P := fun s => Inv n s0.f.off.toNat s ∧ Full n s) ?_ (fun s x s' hi hx hst => ?_) h
  · rintro _ rfl
    refine ⟨h0.inv, hw, hsize, fun x hx => ?_⟩
    rw [h0.returned] at hx
    cases hx
  · have hn := next_of_step hi.1.opened hx.1 hst
    exact ⟨hi.1.next hn, hi.2.next hi.1 hx.2 hn⟩

/-- The passes of all calls write disjoint and consecutive intervals from the initial offset on, each interval holds the bytes of its
pass, and the offset has advanced by what was written. As long as the file stays within its maximal size, every call succeeds. -/
theorem shared_writes (h0 : Started n s0) (h : Runs lw (Allowed n) s0 s) :
    s.chunks.Pairwise (fun x y => x.off + x.data.length ≤ y.off) ∧
    Chunk.Consecutive s0.f.off.toNat s.chunks ∧
    (∀ x ∈ s.chunks, readAt (content s.fs n) x.off x.data.length = x.data) ∧
    s.f.off.toNat = s0.f.off.toNat + (Chunk.join s.chunks).length ∧
    (∀ x ∈ s.returned, x.2 ≠ -1 → x.2 = x.1.n ∧ Chunk.join x.1.written = tabulate x.1.n.toNat x.1.addr ∧
      x.1.written.Sublist s.chunks) ∧
    (∀ p, ∀ c ∈ s.call p, c.i < c.n → pass lw s.fs s.f c ≠ .error .shortFilewrite) ∧
    (s0.f.writable = true → s0.f.off.toNat ≤ (content s0.fs n).length →
      Runs lw (fun s x => Allowed n s x ∧ Within s x) s0 s → ∀ x ∈ s.returned, 0 ≤ x.1.n → x.2 = x.1.n) := by
  have hi := h.inv h0
  refine ⟨hi.place.pairwise, hi.place, hi.place.read hi.holds, hi.off, fun x hx hr => ?_, fun p c _ hlt he => ?_,
    fun hw hsize hr => (hr.full h0 hw hsize).results⟩
  · obtain ⟨hp, hres⟩ := hi.returned x hx
    obtain ⟨he, hn⟩ := hres hr
    exact ⟨hn, by rw [hp.data, he], hp.mem⟩
  · obtain ⟨e, _, hfs⟩ := (hi.opened.pass hlt).of_error he
    cases hfs

def opened (fs : Fs.State (List Nat)) : State Bool (List Nat) where
  fs
  f := { writable := true, ip := entry0, off := 0 }
  call _ := none
  chunks := []
  returned := []

def Act.own : Act P L → Bool
  | .others _ => false
  | _ => true

omit [DecidableEq P] in
theorem allowed_of_own {x : Act P L} (h : x.own = true) : Allowed n s x := by
  cases x with
  | others fs => cases h
  | call p addr k => trivial
  | pass p => trivial
  | ret p => trivial

/-- A call of three passes, and a call of another process between its first and its second pass. -/
theorem shared_writes_two_procs : ∃ s0 s : State Bool (List Nat), Runs record (Allowed inode2) s0 s ∧
    s.chunks.map (fun x => (x.off, x.data.length)) = [(0, 1536), (1536, 2), (1538, 1536), (3074, 5)] ∧
    s.f.off.toNat = 3079 ∧ s.returned.length = 2 ∧ (∀ x ∈ s.returned, 0 ≤ x.1.n → x.2 = x.1.n) ∧
    ∀ x ∈ s.chunks, readAt (content s.fs inode2) x.off x.data.length = x.data := by
  obtain ⟨fs, hfs, ⟨hl, ht⟩, hp⟩ := Reach.of_runs [.ialloc T_FILE, .ilock entry0]
    (fun fs => (Fs.Live fs entry0 inode2 ∧ (view fs inode2).type = T_FILE) ∧
      (runs (step record) (fun s x => Within s x ∧ x.own = true) (opened fs)
        [.call true (fun _ => 1) 3077, .pass true, .call false (fun _ => 2) 2, .pass false, .pass true, .ret false, .pass true,
          .ret true]).any fun s => s.f.off.toNat = 3079 ∧ s.returned.length = 2 ∧
            s.chunks.map (fun x => (x.off, x.data.length)) = [(0, 1536), (1536, 2), (1538, 1536), (3074, 5)])
    runs_empty (by decide +kernel)
  have h0 : Started inode2 (opened fs) := ⟨⟨Fs.Runs.inv hfs, hl.ref, hl.inum, ht⟩, fun _ => rfl, rfl, rfl⟩
  obtain ⟨s, hs, hq⟩ := (Option.any_eq_true _ _).mp hp
  obtain ⟨hoff, hlen, hch⟩ := of_decide_eq_true hq
  have hr : Runs record (fun s x => Within s x ∧ x.own = true) (opened fs) s := Reach.runs (.init rfl) hs
  have hr1 : Runs record (Allowed inode2) (opened fs) s := hr.mono fun _ _ hx => allowed_of_own hx.2
  obtain ⟨-, -, hread, -, -, -, hres⟩ := shared_writes h0 hr1
  refine ⟨opened fs, s, hr1, hch, hoff, hlen, ?_, hread⟩
  exact hres rfl (Nat.zero_le _) (hr.mono fun _ _ hx => ⟨allowed_of_own hx.2, hx.1⟩)

end Xv6.Filewrite
