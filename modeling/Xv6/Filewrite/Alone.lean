import Xv6.Filewrite.Theorems

/-!
# A write that nobody interrupts

Unless the file becomes too long, the result is that of one `writei` of the whole buffer.
-/

namespace Xv6.Filewrite

open Xv6.Lib Fs

variable {L : Type} {lw : LogWrite L} {n : Inum} {fs fs1 fs' : Fs.State L} {f f1 f' : File} {c : Call}
variable {addr : Nat → BitVec 8} {off rest a b k : Nat}

/-! ## How much is written -/

/-- How many of `rest` bytes are written at `off`: all of them, or the whole passes that fit. -/
def fitting (off rest : Nat) : Nat :=
  if off + rest ≤ MAXFILE * BSIZE then rest else max.toNat * ((MAXFILE * BSIZE - off) / max.toNat)

theorem max_eq : max.toNat = 1536 := by decide

theorem toNat_n1_eq (h : c.i < c.n) : c.n1.toNat = min max.toNat (c.n - c.i).toNat := by
  have : (0 : Int) < max := by decide
  unfold Call.n1
  split <;> omega

theorem fitting_zero (h : off ≤ MAXFILE * BSIZE) : fitting off 0 = 0 := if_pos h

theorem fitting_pass (h : off + min max.toNat rest ≤ MAXFILE * BSIZE) :
    fitting off rest = min max.toNat rest + fitting (off + min max.toNat rest) (rest - min max.toNat rest) := by
  have hM : MAXFILE * BSIZE = 71680 := by decide
  simp only [fitting, max_eq, hM] at h ⊢
  split
  · rw [if_pos (by omega)]
    omega
  · rw [if_neg (by omega)]
    omega

theorem fitting_refused (hoff : off ≤ MAXFILE * BSIZE) (h : MAXFILE * BSIZE < off + min max.toNat rest) : fitting off rest = 0 := by
  have hM : MAXFILE * BSIZE = 71680 := by decide
  simp only [fitting, max_eq, hM] at h hoff ⊢
  rw [if_neg (by omega)]
  omega

/-! ## The loop -/

structure Wrote (lw : LogWrite L) (n : Inum) (fs : Fs.State L) (f : File) (addr : Nat → BitVec 8) (w : Nat)
    (f' : File) (fs' : Fs.State L) : Prop where
  opened : Opened n f' fs'
  off : f'.off.toNat = f.off.toNat + w
  content : content fs' n = writeAt (content fs n) f.off.toNat (tabulate w addr)
  fills : Fs.Fills lw fs n (Fs.range f.off.toNat w) fs'

theorem Wrote.zero (ho : Opened n f fs') (hc : Fs.content fs' n = Fs.content fs n) (hf : Fs.Fills lw fs n ∅ fs') :
    Wrote lw n fs f addr 0 f fs' where
  opened := ho
  off := rfl
  content := by rw [hc]; exact (writeAt_nil _ _).symm
  fills := by rw [range_zero]; exact hf

theorem Wrote.trans (h1 : Wrote lw n fs f addr a f1 fs1) (h2 : Wrote lw n fs1 f1 (fun j => addr (a + j)) b f' fs')
    (hlen : f.off.toNat ≤ (Fs.content fs n).length) : Wrote lw n fs f addr (a + b) f' fs' where
  opened := h2.opened
  off := by rw [h2.off, h1.off, add_assoc]
  content := by
    have hw := writeAt_writeAt (tabulate a addr) (tabulate b fun j => addr (a + j)) hlen
    rw [length_tabulate] at hw
    rw [h2.content, h1.content, h1.off, hw, tabulate_add]
  fills := by
    have := h2.fills
    rw [h1.off] at this
    rw [range_add]
    exact h1.fills.trans this

theorem Opened.pass_wrote (h : Opened n f fs) (hoff : f.off.toNat ≤ (content fs n).length) (hi : c.i < c.n) :
    Ends (fun e => ∃ p, Fs.Short lw fs n (range f.off.toNat c.n1.toNat) p ∧ e = .fs p ∧
        f.off.toNat + c.n1.toNat ≤ MAXFILE * BSIZE)
      (fun r => r.1 = c.n1 ∧ f.off.toNat + c.n1.toNat ≤ MAXFILE * BSIZE ∧ Wrote lw n fs f c.src c.n1.toNat r.2.1 r.2.2 ∨
        r.1 = -1 ∧ MAXFILE * BSIZE < f.off.toNat + c.n1.toNat ∧ Wrote lw n fs f c.src 0 r.2.1 r.2.2)
      (Filewrite.pass lw fs f c) := by
  have hp : Ends _ (Passes n fs f c) (Filewrite.pass lw fs f c) := h.pass hi
  have hpos := (n1_pos hi).1
  refine ((h.pass_fills hi).and hp).imp fun ⟨r, f', fs'⟩ ⟨hf, hr⟩ => ?_
  cases hr with
  | wrote hw hoff' ho hlen hc =>
    rcases hf with ⟨hneg, _⟩ | ⟨_, hle, hf⟩
    · dsimp only at hneg
      omega
    · exact .inl ⟨rfl, hle, ho, hoff', hc, hf⟩
  | refused ho hc hmax =>
    rcases hf with ⟨_, hf⟩ | ⟨hpos', _⟩
    · exact .inr ⟨rfl, hmax hoff, .zero ho hc hf⟩
    · dsimp only at hpos'
      omega

theorem Opened.passes (h : Opened n f fs) (hoff : f.off.toNat ≤ (content fs n).length)
    (hmax : f.off.toNat ≤ MAXFILE * BSIZE) (hnn : 0 ≤ c.i) (hi : c.i ≤ c.n) (hk : (c.n - c.i).toNat ≤ k) :
    Ends (fun e => ∃ p, Fs.Short lw fs n (range f.off.toNat (fitting f.off.toNat (c.n - c.i).toNat)) p ∧ e = .fs p)
      (fun r => r.1.n = c.n ∧ r.1.i = c.i + fitting f.off.toNat (c.n - c.i).toNat ∧
        Wrote lw n fs f c.src (fitting f.off.toNat (c.n - c.i).toNat) r.2.1 r.2.2)
      (Filewrite.passes lw k fs f c) := by
  induction k generalizing fs f c with
  | zero =>
    have hz : (c.n - c.i).toNat = 0 := by omega
    rw [hz, fitting_zero hmax]
    exact ⟨rfl, (Int.add_zero _).symm, .zero h rfl (.refl lw fs n)⟩
  | succ k ih =>
    rw [Filewrite.passes]
    by_cases hlt : c.i < c.n
    · rw [if_pos hlt]
      have hn1 := toNat_n1_eq hlt
      have hpos := (n1_pos hlt).1
      have hmin : c.n1.toNat ≤ (c.n - c.i).toNat := by omega
      generalize hrest : (c.n - c.i).toNat = rest at hn1 hmin hk ⊢
      by_cases hfits : f.off.toNat + c.n1.toNat ≤ MAXFILE * BSIZE
      · have hsplit : fitting f.off.toNat rest = c.n1.toNat + fitting (f.off.toNat + c.n1.toNat) (rest - c.n1.toNat) := by
          rw [hn1] at hfits ⊢
          exact fitting_pass hfits
        rw [hsplit, range_add]
        refine Ends.bind ((h.pass_wrote hoff hlt).mono (fun e ⟨p, hp, he, _⟩ => ⟨p, hp.first _, he⟩) fun _ => id)
          fun ⟨r, f1, fs1⟩ hr => ?_
        rcases hr with ⟨hr, _, hw⟩ | ⟨_, hgt, _⟩
        · dsimp only at hr hw ⊢
          subst hr
          rw [if_neg (show ¬ c.n1 < 0 by omega)]
          have hoff1 : f1.off.toNat ≤ (content fs1 n).length := by
            rw [hw.content, length_writeAt _ hoff, hw.off, length_tabulate]
            exact Nat.le_max_right _ _
          have hrest1 : (c.n - (c.i + c.n1)).toNat = rest - c.n1.toNat := by omega
          have ih' := @ih fs1 f1 { c with i := c.i + c.n1 } hw.opened hoff1 (by rw [hw.off]; exact hfits)
            (show 0 ≤ c.i + c.n1 by omega) (show c.i + c.n1 ≤ c.n by omega) (by dsimp only; omega)
          dsimp only at ih'
          rw [hrest1, hw.off] at ih'
          refine ih'.mono (fun e ⟨p, hp, he⟩ => ⟨p, hw.fills.short hp, he⟩) fun ⟨c', f', fs'⟩ ⟨hcn, hci, hw'⟩ => ?_
          dsimp only at hcn hci hw' ⊢
          refine ⟨hcn, by omega, hw.trans ?_ hoff⟩
          have hsrc : ({ c with i := c.i + c.n1 } : Call).src = fun j => c.src (c.n1.toNat + j) := by
            funext j
            simp only [Call.src]
            congr 1
            omega
          rw [← hsrc]
          exact hw'
        · omega
      · have hzero : fitting f.off.toNat rest = 0 := by
          rw [hn1] at hfits
          exact fitting_refused hmax (lt_of_not_ge hfits)
        rw [hzero]
        refine Ends.bind ((h.pass_wrote hoff hlt).mono (fun e ⟨p, _, _, hle⟩ => absurd hle hfits) fun _ => id)
          fun ⟨r, f1, fs1⟩ hr => ?_
        rcases hr with ⟨_, hle, _⟩ | ⟨hr, _, hw⟩
        · exact absurd hle hfits
        · dsimp only at hr hw ⊢
          subst hr
          rw [if_pos (by decide)]
          exact ⟨rfl, (Int.add_zero _).symm, hw⟩
    · have hz : (c.n - c.i).toNat = 0 := by omega
      rw [if_neg hlt, hz, fitting_zero hmax]
      exact ⟨rfl, (Int.add_zero _).symm, .zero h rfl (.refl lw fs n)⟩

/-! ## One `writei` -/

def writeOnce (lw : LogWrite L) (s : Fs.State L) (f : File) (addr : Nat → BitVec 8) (len : Nat) :
    Except Fs.Panic (Int × Fs.State L) := do
  let s ← ilock s f.ip
  writei lw s f.ip addr f.off (.ofNat 32 len)

theorem Opened.writeOnce (h : Opened n f fs) (hoff : f.off.toNat ≤ (content fs n).length) (hmax : f.off.toNat + k ≤ MAXFILE * BSIZE) :
    Ends (Fs.Short lw fs n (range f.off.toNat k))
      (fun r => r.1 = (k : Int) ∧ content r.2 n = writeAt (content fs n) f.off.toNat (tabulate k addr) ∧
        Fs.Fills lw fs n (range f.off.toNat k) r.2) (Filewrite.writeOnce lw fs f addr k) := by
  obtain ⟨fs1, he, h1, hl, hd, hv⟩ := h.ilock
  have hlocked : Fs.Fills lw fs n ∅ fs1 := .same hd hv
  have hdev : (view fs1 n).type ≠ T_DEV := by rw [h1.type]; decide
  have hM : MAXFILE * BSIZE < 2 ^ 32 := by decide
  have hk : (BitVec.ofNat 32 k).toNat = k := by
    rw [BitVec.toNat_ofNat]
    exact Nat.mod_eq_of_lt (by omega)
  have hr : Fs.InRange fs1 n f.off (.ofNat 32 k) := by
    refine ⟨?_, by rw [hk]; omega⟩
    rw [hv, ← length_tabulate (view fs n).size.toNat (byteAt fs n)]
    exact hoff
  have hw : Ends (Fs.Short lw fs1 n _) _ (writei lw fs1 f.ip addr f.off (.ofNat 32 k)) :=
    fills_writei h1.inv hl hdev hr (by rw [hk]; exact hmax)
  have hret : Ends (Fs.NoSpace lw) _ (writei lw fs1 f.ip addr f.off (.ofNat 32 k)) :=
    ends_writei h1.inv hl hdev hr (by rw [hk]; exact hmax)
  unfold Filewrite.writeOnce
  rw [he, ← Finset.empty_union (range f.off.toNat k)]
  change Ends _ _ (writei lw fs1 f.ip addr f.off (.ofNat 32 k))
  rw [hk] at hw hret
  refine (hw.and hret).mono (fun p hp => hlocked.short hp) fun r ⟨hf, hr, hs⟩ => ⟨hr, ?_, hlocked.trans hf⟩
  rw [hs.content, (h.same hd hv).1]

/-! ## Agreement -/

/-- Both return, and leave the same file; or the disk becomes full in both. -/
def Agree (n : Inum) (f : File) (r : Int) (w : Nat) (x : Except Panic (Int × File × Fs.State L))
    (y : Except Fs.Panic (Int × Fs.State L)) : Prop :=
  (∃ f' fs' fs1, x = .ok (r, f', fs') ∧ y = .ok (w, fs1) ∧ content fs' n = content fs1 n ∧
    (view fs' n).size = (view fs1 n).size ∧ f'.off.toNat = f.off.toNat + w) ∨
  x = .error (.fs .outOfBlocks) ∧ y = .error .outOfBlocks

theorem size_of_content (h : content fs' n = content fs n) : (view fs' n).size = (view fs n).size := by
  have hlen := congrArg List.length h
  rw [content, content, length_tabulate, length_tabulate] at hlen
  exact BitVec.eq_of_toNat_eq hlen

theorem outOfBlocks_of_short {N : Finset Fs.Idx} {p : Fs.Panic} (hlw : ∀ l b, lw l b ≠ none) (h : Fs.Short lw fs n N p) :
    p = .outOfBlocks ∧ ¬ ∃ fs', Fs.Fills lw fs n N fs' := by
  rcases h with ⟨_, _, _, l, b, _, _, hb, _⟩ | ⟨hp, hlt⟩
  · exact absurd hb (hlw l b)
  · refine ⟨hp, fun ⟨fs', hf⟩ => ?_⟩
    have := hf.spare
    omega

/-- Two ways to write the same bytes agree: whether they return depends on the number of free blocks. -/
theorem agree_of_ends {r : Int} {x : Except Panic (Int × File × Fs.State L)} {y : Except Fs.Panic (Int × Fs.State L)}
    (hlw : ∀ l b, lw l b ≠ none) (hx : Ends (fun e => ∃ p, Fs.Short lw fs n (range f.off.toNat k) p ∧ e = .fs p)
      (fun z => z.1 = r ∧ Wrote lw n fs f addr k z.2.1 z.2.2) x) (hy : Ends (Fs.Short lw fs n (range f.off.toNat k))
      (fun z => z.1 = (k : Int) ∧ content z.2 n = writeAt (content fs n) f.off.toNat (tabulate k addr) ∧
        Fs.Fills lw fs n (range f.off.toNat k) z.2) y) : Agree n f r k x y := by
  cases x with
  | ok z =>
    obtain ⟨hz, hw⟩ := hx
    cases y with
    | ok z' =>
      obtain ⟨hz', hc, _⟩ := hy
      have hsame := hw.content.trans hc.symm
      exact .inl ⟨_, _, _, by rw [← hz], by rw [← hz'], hsame, size_of_content hsame, hw.off⟩
    | error p => exact absurd ⟨_, hw.fills⟩ (outOfBlocks_of_short hlw hy).2
  | error e =>
    obtain ⟨p, hp, rfl⟩ := hx
    obtain ⟨rfl, hno⟩ := outOfBlocks_of_short hlw hp
    cases y with
    | ok z' => exact absurd ⟨_, hy.2.2⟩ hno
    | error p' =>
      obtain ⟨rfl, _⟩ := outOfBlocks_of_short hlw hy
      exact .inr ⟨rfl, rfl⟩

theorem Opened.filewrite (h : Opened n f fs) (hw : f.writable = true) (hoff : f.off.toNat ≤ (content fs n).length)
    (hmax : f.off.toNat ≤ MAXFILE * BSIZE) :
    Ends (fun e => ∃ p, Fs.Short lw fs n (range f.off.toNat (fitting f.off.toNat k)) p ∧ e = .fs p)
      (fun r => r.1 = (if fitting f.off.toNat k = k then (k : Int) else -1) ∧
        Wrote lw n fs f addr (fitting f.off.toNat k) r.2.1 r.2.2) (Filewrite.filewrite lw fs f addr k) := by
  unfold Filewrite.filewrite
  rw [if_pos hw]
  have hp : Ends _ _ (Filewrite.passes lw k fs f { addr, n := k, i := 0, written := [] }) :=
    h.passes hoff hmax (Int.le_refl 0) (Int.natCast_nonneg k) (by simp)
  have hk : ((k : Int) - 0).toNat = k := by simp
  dsimp only at hp
  rw [hk] at hp
  refine Ends.bind hp fun ⟨c', f', fs'⟩ ⟨hn, hi, hw'⟩ => ⟨?_, ?_⟩
  · dsimp only at hn hi ⊢
    rw [Call.result, hn, hi, Int.zero_add]
    simp
  · have hsrc : ({ addr, n := k, i := 0, written := [] } : Call).src = addr := by
      funext j
      simp [Call.src]
    rw [← hsrc]
    exact hw'

/-- `filewrite` leaves what one `writei` leaves: of all bytes, if the file does not become too long, and otherwise of the whole passes that
fit, with the result -1. It never comes to a short write. -/
theorem filewrite_agrees (h : Opened n f fs) (hw : f.writable = true) (hsize : (view fs n).size.toNat ≤ MAXFILE * BSIZE)
    (hoff : f.off.toNat ≤ (view fs n).size.toNat) (hlw : ∀ l b, lw l b ≠ none) (addr : Nat → BitVec 8) (k : Nat) :
    (f.off.toNat + k ≤ MAXFILE * BSIZE → Agree n f k k (filewrite lw fs f addr k) (writeOnce lw fs f addr k)) ∧
    (MAXFILE * BSIZE < f.off.toNat + k →
      Agree n f (-1) (max.toNat * ((MAXFILE * BSIZE - f.off.toNat) / max.toNat)) (filewrite lw fs f addr k)
        (writeOnce lw fs f addr (max.toNat * ((MAXFILE * BSIZE - f.off.toNat) / max.toNat)))) ∧
    filewrite lw fs f addr k ≠ .error .shortFilewrite := by
  have hlen : f.off.toNat ≤ (content fs n).length := by rw [content, length_tabulate]; exact hoff
  have hmax := hoff.trans hsize
  have hends : Ends _ _ (filewrite lw fs f addr k) := h.filewrite hw hlen hmax
  refine ⟨fun hle => ?_, fun hgt => ?_, fun he => ?_⟩
  · have hfit : fitting f.off.toNat k = k := if_pos hle
    rw [hfit, if_pos rfl] at hends
    exact agree_of_ends hlw hends (h.writeOnce hlen hle)
  · have hfit : fitting f.off.toNat k = max.toNat * ((MAXFILE * BSIZE - f.off.toNat) / max.toNat) :=
      if_neg (Nat.not_le_of_lt hgt)
    have hdiv := Nat.mul_div_le (MAXFILE * BSIZE - f.off.toNat) max.toNat
    rw [hfit, if_neg (by omega)] at hends
    exact agree_of_ends hlw hends (h.writeOnce hlen (by omega))
  · obtain ⟨p, _, hp⟩ := hends.of_error he
    cases hp

theorem filewrite_agrees_five_bytes : ∃ (fs fs1 fs' : Fs.State (List Nat)) (f' : File),
    writeOnce record fs ⟨true, entry0, 5⟩ (fun _ => 1) 2000 = .ok (2000, fs1) ∧
    filewrite record fs ⟨true, entry0, 5⟩ (fun _ => 1) 2000 = .ok (2000, f', fs') ∧
    content fs' inode2 = content fs1 inode2 ∧ f'.off.toNat = 2005 := by
  obtain ⟨fs, hs, hl, ht, hsize, hok⟩ := Reach.of_runs fiveBytes
    (fun fs => Fs.Live fs entry0 inode2 ∧ (view fs inode2).type = T_FILE ∧ (view fs inode2).size = 5 ∧
      (writeOnce record fs ⟨true, entry0, 5⟩ (fun _ => 1) 2000).isOk) runs_empty (by decide +kernel)
  obtain ⟨hin, -, -⟩ := filewrite_agrees (f := ⟨true, entry0, 5⟩) ⟨Fs.Runs.inv hs, hl.ref, hl.inum, ht⟩ rfl
    (by rw [hsize]; decide) (by rw [hsize]) (fun _ _ => Option.some_ne_none _) (fun _ => 1) 2000
  rcases hin (by decide) with ⟨f', fs', fs1, hx, hy, hc, _, hoff⟩ | ⟨_, hy⟩
  · exact ⟨fs, fs1, fs', f', hy, hx, hc, hoff⟩
  · exact absurd hy (ne_error_of_isOk hok)

end Xv6.Filewrite
