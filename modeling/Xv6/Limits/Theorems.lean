import Xv6.Bio.Lemmas.Step
import Xv6.Icache.Lemmas
import Xv6.Lib.Count
import Xv6.Lib.Trans
import Xv6.Limits.Model

/-!
# Theorems about the tables of the file system

`NINODE` is smaller than `NFILE`, so files alone can fill the inode cache; likewise `NBUF` is smaller than `NPROC`.
-/

namespace Xv6.Limits

open Xv6.Lib Function List
open Xv6.Ftable (FileIx)

variable {disk : Bio.Key → Block} {s s' : State} {p : Pid} {i j : Icache.Slot} {inode : Icache.Slot → Icache.Inode} {inum : Nat}
  {a : Bio.Act} {b : Bio.State} {d0 : Bio.Key → Block}

/-! ## The inode cache -/

/-- An inode counts its references: working directories, paths and open files. -/
structure Inv (s : State) : Prop where
  count : ∀ i, (s.inode i).ref = holders s.cwd i + holders s.cur i + holders s.next i + holders s.ip i
  idle : ∀ p, s.used p = false → s.cwd p = none ∧ s.cur p = none ∧ s.next p = none
  closed : ∀ f, s.ref f = 0 → s.ip f = none

theorem inv_init (disk : Bio.Key → Block) : Inv (init disk) := by
  refine ⟨fun i => ?_, fun p hp => ?_, fun _ _ => rfl⟩
  · have hcwd : (init disk).cwd = update (fun _ => none) Ptable.initproc (some rootSlot) := by
      funext p
      simp [init, update_apply]
    have hcur : holders (init disk).cur i = 0 := holders_none fun _ => rfl
    have hnext : holders (init disk).next i = 0 := holders_none fun _ => rfl
    have hip : holders (init disk).ip i = 0 := holders_none fun _ => rfl
    rw [hcwd, holders_set rfl, holders_none fun _ => rfl, hcur, hnext, hip]
    by_cases hi : i = rootSlot
    · subst hi; simp [init]
    · simp [init, hi, Ne.symm hi]
  · have hne : p ≠ Ptable.initproc := by simpa [init] using hp
    simp [init, hne]

theorem Got.ref_update {ip : Icache.Inode} (hg : Icache.Got inode i ip) (j : Icache.Slot) :
    (update inode i ip j).ref = (inode j).ref + if i = j then 1 else 0 := by
  by_cases hj : j = i
  · subst hj; rw [update_self, hg.ref, if_pos rfl]
  · rw [update_of_ne hj, if_neg (Ne.symm hj), add_zero]

theorem ref_idup (inode : Icache.Slot → Icache.Inode) (i j : Icache.Slot) :
    (Icache.idup inode i j).ref = (inode j).ref + if i = j then 1 else 0 := by
  by_cases hj : j = i
  · subst hj; rw [Icache.idup, update_self, if_pos rfl]
  · rw [Icache.idup, update_of_ne hj, if_neg (Ne.symm hj), add_zero]

theorem ref_decref (inode : Icache.Slot → Icache.Inode) (i j : Icache.Slot) :
    (Icache.decref inode i j).ref = (inode j).ref - if i = j then 1 else 0 := by
  by_cases hj : j = i
  · subst hj; rw [Icache.decref, update_self, if_pos rfl]
  · rw [Icache.decref, update_of_ne hj, if_neg (Ne.symm hj), Nat.sub_zero]

section

variable (h : Inv s)
include h

theorem Inv.idle_update (hp : s.used p = true) {x : Option Icache.Slot} {q : Pid} (hq : s.used q = false) :
    update s.cur p x q = none ∧ update s.next p x q = none ∧ update s.cwd p x q = none := by
  have hne : q ≠ p := by
    rintro rfl
    rw [hp] at hq
    cases hq
  obtain ⟨h1, h2, h3⟩ := h.idle q hq
  simp [update_of_ne hne, h1, h2, h3]

theorem Inv.used_of_cur (hc : s.cur p ≠ none) : s.used p = true := by
  cases hu : s.used p with
  | true => rfl
  | false => exact absurd (h.idle p hu).2.1 hc

theorem Inv.setCur (hp : s.used p = true) (hc : s.cur p = none)
    (hr : ∀ j, (inode j).ref = (s.inode j).ref + if i = j then 1 else 0) : Inv ({ s with inode := inode }.setCur p (some i)) := by
  refine ⟨fun j => ?_, fun q hq => ?_, h.closed⟩
  · have := h.count j
    simp only [State.setCur, hr, holders_set hc]
    omega
  · obtain ⟨h1, _, h3⟩ := h.idle q hq
    exact ⟨h1, (h.idle_update hp hq).1, h3⟩

theorem Inv.setNext (hp : s.used p = true) (hc : s.next p = none)
    (hr : ∀ j, (inode j).ref = (s.inode j).ref + if i = j then 1 else 0) : Inv ({ s with inode := inode }.setNext p (some i)) := by
  refine ⟨fun j => ?_, fun q hq => ?_, h.closed⟩
  · have := h.count j
    simp only [State.setNext, hr, holders_set hc]
    omega
  · obtain ⟨h1, h2, _⟩ := h.idle q hq
    exact ⟨h1, h2, (h.idle_update hp hq).2.1⟩

section

variable (hc : s.cur p = some i)
include hc

theorem Inv.fail : Inv ((s.iput i).setCur p none) := by
  have hp := h.used_of_cur (p := p) (by simp [hc])
  refine ⟨fun j => ?_, fun q hq => ?_, h.closed⟩
  · have := h.count j
    have := holders_clear (a := j) hc
    simp only [State.setCur, State.iput, ref_decref]
    omega
  · obtain ⟨h1, _, h3⟩ := h.idle q hq
    exact ⟨h1, (h.idle_update hp hq).1, h3⟩

theorem Inv.iunlockput (hn : s.next p = some j) :
    Inv (((s.iput i).setCur p (some j)).setNext p none) := by
  have hp := h.used_of_cur (p := p) (by simp [hc])
  refine ⟨fun k => ?_, fun q hq => ?_, h.closed⟩
  · have := h.count k
    have h1 := holders_update (g := s.cur) (i := p) (a := k) (some j)
    have h2 := holders_clear (a := k) hn
    simp only [hc, Option.some.injEq] at h1
    simp only [State.setCur, State.setNext, State.iput, ref_decref]
    omega
  · exact ⟨(h.idle q hq).1, (h.idle_update hp hq).1, (h.idle_update hp hq).2.1⟩

theorem Inv.open {f : FileIx} (hf : s.ref f = 0) (ofile : Pid × Ftable.Fd → Option FileIx) :
    Inv ({ s with
      ref := update s.ref f 1
      ip := update s.ip f (some i)
      ofile := ofile }.setCur p none) := by
  have hp := h.used_of_cur (p := p) (by simp [hc])
  refine ⟨fun j => ?_, fun q hq => ?_, fun g hg => ?_⟩
  · have := h.count j
    have := holders_clear (a := j) hc
    simp only [State.setCur, holders_set (h.closed f hf)]
    omega
  · obtain ⟨h1, _, h3⟩ := h.idle q hq
    exact ⟨h1, (h.idle_update hp hq).1, h3⟩
  · simp only [State.setCur] at hg ⊢
    by_cases hgf : g = f
    · subst hgf
      rw [update_self] at hg
      cases hg
    · rw [update_of_ne hgf] at hg ⊢
      exact h.closed g hg

theorem Inv.chdir (hd : s.cwd p = some j) :
    Inv ({ s.iput j with cwd := update s.cwd p (some i) }.setCur p none) := by
  have hp := h.used_of_cur (p := p) (by simp [hc])
  refine ⟨fun k => ?_, fun q hq => ?_, h.closed⟩
  · have := h.count k
    have h1 := holders_update (g := s.cwd) (i := p) (a := k) (some i)
    have h2 := holders_clear (a := k) hc
    simp only [hd, Option.some.injEq] at h1
    simp only [State.setCur, State.iput, ref_decref]
    omega
  · exact ⟨(h.idle_update hp hq).2.2, (h.idle_update hp hq).1, (h.idle q hq).2.2⟩

end

end

structure Forked (s s' : State) : Prop where
  inode : s'.inode = s.inode
  ip : s'.ip = s.ip
  used : s'.used = s.used
  cwd : s'.cwd = s.cwd
  cur : s'.cur = s.cur
  next : s'.next = s.next
  bio : s'.bio = s.bio
  panicked : s'.panicked = s.panicked
  ref : ∀ f, s'.ref f = 0 → s.ref f = 0

theorem forked_fds (np : Pid) (l : List Ftable.Fd) (s : State) : Forked s (l.foldl (fun s fd => s.forkFd p np fd) s) := by
  induction l generalizing s with
  | nil => exact ⟨rfl, rfl, rfl, rfl, rfl, rfl, rfl, rfl, fun _ => id⟩
  | cons fd l ih =>
    have h1 : Forked s (s.forkFd p np fd) := by
      unfold State.forkFd
      split
      · refine ⟨rfl, rfl, rfl, rfl, rfl, rfl, rfl, rfl, fun g hg => ?_⟩
        rename_i f _
        by_cases hgf : g = f
        · subst hgf
          simp at hg
        · simpa [update_of_ne hgf] using hg
      · exact ⟨rfl, rfl, rfl, rfl, rfl, rfl, rfl, rfl, fun _ => id⟩
    have h2 := ih (s.forkFd p np fd)
    exact ⟨h2.inode.trans h1.inode, h2.ip.trans h1.ip, h2.used.trans h1.used, h2.cwd.trans h1.cwd, h2.cur.trans h1.cur,
      h2.next.trans h1.next, h2.bio.trans h1.bio, h2.panicked.trans h1.panicked, fun f hf => h1.ref f (h2.ref f hf)⟩

theorem Inv.fork {np : Pid} (h : Inv s) (hf : Forked s s') (hn : s.used np = false) :
    Inv { s' with
      used := update s'.used np true
      inode := Icache.idup s'.inode i
      cwd := update s'.cwd np (some i) } := by
  refine ⟨fun j => ?_, fun q hq => ?_, fun f hf' => ?_⟩
  · have := h.count j
    simp only [hf.inode, hf.cwd, hf.cur, hf.next, hf.ip, ref_idup, holders_set (h.idle np hn).1]
    omega
  · simp only [hf.used, hf.cwd, hf.cur, hf.next] at hq ⊢
    have hne : q ≠ np := by
      rintro rfl
      simp at hq
    rw [update_of_ne hne] at hq ⊢
    exact h.idle q hq
  · simp only [hf.ip]
    exact h.closed f (hf.ref f hf')

/-! ## Full tables -/

def procs (s : State) : Nat := (Finset.univ.filter fun p => s.used p).card

def files (s : State) : Nat := occupied s.ip

/-- The number of buffers in use, counted once for every use, and of those that the log has pinned. -/
def bufs (s : Bio.State) : Nat := s.refs.length + (Finset.univ.filter fun i => (s.buf i).dirty).card

theorem Inv.full (h : Inv s) (hf : ∀ i, 0 < (s.inode i).ref) :
    NINODE ≤ occupied s.cwd + occupied s.cur + occupied s.next + occupied s.ip := by
  let held (g : Icache.Slot → Nat) : Finset Icache.Slot := Finset.univ.filter fun i => 0 < g i
  have hsub : Finset.univ ⊆ held (holders s.cwd) ∪ held (holders s.cur) ∪ held (holders s.next) ∪ held (holders s.ip) := by
    intro i _
    have h1 := hf i
    rw [h.count] at h1
    simp only [held, Finset.mem_union, Finset.mem_filter, Finset.mem_univ, true_and]
    omega
  have hcard := Finset.card_le_card hsub
  rw [Finset.card_univ, Fintype.card_fin] at hcard
  have h1 := Finset.card_union_le (held (holders s.cwd) ∪ held (holders s.cur) ∪ held (holders s.next)) (held (holders s.ip))
  have h2 := Finset.card_union_le (held (holders s.cwd) ∪ held (holders s.cur)) (held (holders s.next))
  have h3 := Finset.card_union_le (held (holders s.cwd)) (held (holders s.cur))
  have h4 : (held (holders s.cwd)).card ≤ occupied s.cwd := card_held_le
  have h5 : (held (holders s.cur)).card ≤ occupied s.cur := card_held_le
  have h6 : (held (holders s.next)).card ≤ occupied s.next := card_held_le
  have h7 : (held (holders s.ip)).card ≤ occupied s.ip := card_held_le
  omega

theorem Inv.iget_ok {dev : Nat} (h : Inv s) (hp : s.used p = true) (hn : s.cur p = none ∨ s.next p = none)
    (hb : 3 * procs s + files s ≤ NINODE) : Icache.iget s.inode dev inum ≠ none := by
  intro hnone
  have hfull := h.full fun i => (Icache.iget_none.mp hnone i).1
  have hused {g : Pid → Option Icache.Slot} (hg : ∀ q, s.used q = false → g q = none) (q : Pid) (hq : g q ≠ none) :
      s.used q = true := by
    cases hu : s.used q with
    | true => rfl
    | false => exact absurd (hg q hu) hq
  have hcwd := hused fun q hq => (h.idle q hq).1
  have hcur := hused fun q hq => (h.idle q hq).2.1
  have hnext := hused fun q hq => (h.idle q hq).2.2
  have h1 := occupied_le hcwd
  have h2 := occupied_le hcur
  have h3 := occupied_le hnext
  have hlt : occupied s.cur < procs s ∨ occupied s.next < procs s :=
    hn.imp (occupied_lt hcur hp) (occupied_lt hnext hp)
  simp only [procs, files] at hb hlt
  omega

/-- `bget` panics only if all buffers are in use or pinned. -/
theorem unused_of_noBuffers {b' : Bio.State} (h : Bio.Inv d0 b)
    (hst : Bio.step b a = some b') (hp : b'.panicked = some .noBuffers) : Bio.unused b = none := by
  have hnone : b.panicked = none := by
    unfold Bio.step at hst
    split at hst
    · assumption
    · cases hst
  cases Bio.next_of_step h hst with
  | hit | recycle | use | brelse => cases hnone.symm.trans hp
  | @noBuffers c pid dev blockno =>
    simp only [Bio.step, hnone, if_true, Bio.bget] at hst
    split at hst
    · split at hst
      · have hpan := congrArg Bio.State.panicked (Option.some.inj hst)
        simp [Bio.State.setBuf, hnone] at hpan
      · split at hst
        · have hpan := congrArg Bio.State.panicked (Option.some.inj hst)
          simp [Bio.State.setBuf, hnone] at hpan
        · assumption
    · cases hst

theorem full_of_unused (h : Bio.Inv d0 b) (hn : Bio.unused b = none) : NBUF ≤ bufs b := by
  have hsub : Finset.univ ⊆ (b.refs.map (·.2.buf)).toFinset ∪ Finset.univ.filter fun i => (b.buf i).dirty := by
    intro i _
    have hi := find?_eq_none.mp hn i (mem_reverse.mpr (h.lru.mem i))
    simp only [Finset.mem_union, mem_toFinset, mem_map, Finset.mem_filter, Finset.mem_univ, true_and]
    by_cases hd : (b.buf i).dirty = true
    · exact .inr hd
    · have hpos : 0 < (b.buf i).refcnt := by
        refine Nat.pos_of_ne_zero fun h0 => hi ?_
        simp [h0, Bool.eq_false_iff.mpr hd]
      rw [h.refs.refcnt, countP_pos_iff] at hpos
      obtain ⟨q, hq, hqi⟩ := hpos
      exact .inl ⟨q, hq, of_decide_eq_true hqi⟩
  have hcard := Finset.card_le_card hsub
  rw [Finset.card_univ, Fintype.card_fin] at hcard
  have h1 := Finset.card_union_le (b.refs.map (·.2.buf)).toFinset (Finset.univ.filter fun i => (b.buf i).dirty)
  have h2 := toFinset_card_le (b.refs.map (·.2.buf))
  rw [length_map] at h2
  unfold bufs
  omega

/-! ## Runs -/

/-- Few processes and files, and a buffer that is free. -/
def Within (s : State) : Prop := 3 * procs s + files s ≤ NINODE ∧ bufs s.bio < NBUF

instance (s : State) : Decidable (Within s) := by unfold Within; infer_instance

structure Safe (disk : Bio.Key → Block) (s : State) : Prop where
  inv : Inv s
  bio : Bio.Inv disk s.bio
  inodes : s.panicked = false
  buffers : s.bio.panicked ≠ some .noBuffers

section

variable (h : Safe disk s)
include h

theorem Safe.namex {absolute : Bool} (hw : Within s) (hst : s.namex p absolute = some s') : Safe disk s' := by
  unfold State.namex at hst
  split at hst
  · rename_i hp
    split at hst
    · split at hst
      · rename_i i inode hg
        cases hst
        obtain ⟨ip, hgot, _, rfl⟩ := Icache.iget_some hg
        exact ⟨h.inv.setCur hp.1 hp.2 (Got.ref_update hgot), h.bio, h.inodes, h.buffers⟩
      · rename_i hg
        exact absurd hg (h.inv.iget_ok hp.1 (.inl hp.2) hw.1)
    · obtain ⟨i, _, rfl⟩ := Option.map_eq_some_iff.mp hst
      exact ⟨h.inv.setCur hp.1 hp.2 (ref_idup s.inode i), h.bio, h.inodes, h.buffers⟩
  · cases hst

theorem Safe.dirlookup (hw : Within s) (hst : s.dirlookup p inum = some s') : Safe disk s' := by
  unfold State.dirlookup at hst
  split at hst
  · rename_i i hc hn
    have hp := h.inv.used_of_cur (p := p) (by simp [hc])
    split at hst
    · rename_i j inode hg
      cases hst
      obtain ⟨ip, hgot, _, rfl⟩ := Icache.iget_some hg
      exact ⟨h.inv.setNext hp hn (Got.ref_update hgot), h.bio, h.inodes, h.buffers⟩
    · rename_i hg
      exact absurd hg (h.inv.iget_ok hp (.inr hn) hw.1)
  · cases hst

theorem Safe.fail (hst : s.fail p = some s') : Safe disk s' := by
  unfold State.fail at hst
  split at hst
  · rename_i i hc _
    cases hst
    exact ⟨h.inv.fail hc, h.bio, h.inodes, h.buffers⟩
  · cases hst

theorem Safe.iunlockput (hst : s.iunlockput p = some s') : Safe disk s' := by
  unfold State.iunlockput at hst
  split at hst
  · rename_i i j hc hn
    cases hst
    exact ⟨h.inv.iunlockput hc hn, h.bio, h.inodes, h.buffers⟩
  · cases hst

theorem Safe.open (hst : s.sysOpen p = some s') : Safe disk s' := by
  unfold State.sysOpen at hst
  split at hst
  · rename_i i hc _
    split at hst
    · rename_i f fd hf _
      cases hst
      exact ⟨h.inv.open hc (by simpa using find?_some hf) _, h.bio, h.inodes, h.buffers⟩
    · exact h.fail hst
  · cases hst

theorem Safe.chdir (hst : s.sysChdir p = some s') : Safe disk s' := by
  unfold State.sysChdir at hst
  split at hst
  · rename_i i j hc _ hd
    cases hst
    exact ⟨h.inv.chdir hc hd, h.bio, h.inodes, h.buffers⟩
  · cases hst

theorem Safe.fork (hst : s.fork p = some s') : Safe disk s' := by
  unfold State.fork at hst
  split at hst
  · rename_i i np _ _ hf
    cases hst
    have hfork := forked_fds (p := p) np (finRange Ftable.NOFILE) s
    refine ⟨h.inv.fork hfork (by simpa using find?_some hf), ?_, ?_, ?_⟩
    · simp only [hfork.bio]
      exact h.bio
    · simp only [hfork.panicked]
      exact h.inodes
    · simp only [hfork.bio]
      exact h.buffers
  · cases hst

theorem Safe.bio_step (hw : Within s) (hst : Bio.step s.bio a = some b) : Safe disk { s with bio := b } := by
  refine ⟨⟨h.inv.count, h.inv.idle, h.inv.closed⟩, h.bio.next (Bio.next_of_step h.bio hst), h.inodes, fun hp => ?_⟩
  have hfull := full_of_unused h.bio (unused_of_noBuffers h.bio hst hp)
  have := hw.2
  omega

theorem Safe.step {a : Act} (hw : Within s) (hst : step s a = some s') : Safe disk s' := by
  unfold Limits.step at hst
  split at hst
  · cases a with
    | namex p absolute => exact h.namex hw hst
    | dirlookup p inum => exact h.dirlookup hw hst
    | iunlockput p => exact h.iunlockput hst
    | fail p => exact h.fail hst
    | «open» p => exact h.open hst
    | chdir p => exact h.chdir hst
    | fork p => exact h.fork hst
    | bio p a =>
      dsimp only at hst
      split at hst
      · obtain ⟨b, hb, rfl⟩ := Option.map_eq_some_iff.mp hst
        exact h.bio_step hw hb
      · cases hst
  · cases hst

end

/-- In a run within the limits neither `iget` nor `bget` panics. -/
theorem no_panic_within (h : Reach (· = init disk) step (fun s _ => Within s) s) :
    s.panicked = false ∧ s.bio.panicked ≠ some .noBuffers := by
  have hs : Safe disk s := by
    refine Reach.inv (P := Safe disk) ?_ (fun s a s' hs hw hst => hs.step hw hst) h
    rintro _ rfl
    exact ⟨inv_init disk, Bio.inv_boot disk, rfl, by simp [init, Bio.State.boot]⟩
  exact ⟨hs.inodes, hs.buffers⟩

/-! ### Runs that exhaust a table -/

def pid (n : Nat) : Pid := if h : n < Ptable.NPROC then ⟨n, h⟩ else Ptable.initproc

def openFile (n inum : Nat) : List Act :=
  [.namex (pid n) false, .dirlookup (pid n) inum, .iunlockput (pid n), .open (pid n)]

def readBlock (n b : Nat) : List Act :=
  [.bio (pid n) (.bget n n ROOTDEV b), .bio (pid n) (.acquiresleep n), .bio (pid n) (.bread n)]

theorem no_panic_one_process :
    ∃ s, Reach (· = init fun _ => Bytes.fill BSIZE 0) step (fun s _ => Within s) s ∧ files s = 1 ∧ s.bio.refs.length = 1 ∧
      s.panicked = false := by
  have h0 : Reach (· = init fun _ => Bytes.fill BSIZE 0) step (fun s _ => Within s) (init fun _ => Bytes.fill BSIZE 0) :=
    .init rfl
  obtain ⟨s, hs, hf, hr⟩ := Reach.of_runs (openFile 0 2 ++ readBlock 0 1000)
    (fun s => files s = 1 ∧ s.bio.refs.length = 1) h0 (by decide +kernel)
  exact ⟨s, hs, hf, hr, (no_panic_within hs).1⟩

/-- Four processes open 49 files, and one of them looks up another. -/
def manyFiles : List Act :=
  replicate 3 (.fork (pid 0)) ++ (range 49).flatMap (fun k => openFile (k / 16) (k + 2)) ++
    [.namex (pid 3) false, .dirlookup (pid 3) 51]

/-- 31 processes read one block each, all of them of different files. -/
def manyReaders : List Act :=
  replicate 30 (.fork (pid 0)) ++ (range 31).flatMap (fun k => openFile k (k + 2)) ++
    (range 30).flatMap (fun k => readBlock k (1000 + k)) ++ [.bio (pid 30) (.bget 30 30 ROOTDEV 1030)]

def Runs (disk : Bio.Key → Block) : State → Prop := Reach (· = init disk) step fun _ _ => True

/-- With 50 files open, and with 31 processes reading, the kernel panics. -/
theorem tables_run_out :
    (¬ ∀ disk s, Runs disk s → s.panicked = false) ∧ ¬ ∀ disk s, Runs disk s → s.bio.panicked ≠ some .noBuffers := by
  have h0 : Runs (fun _ => Bytes.fill BSIZE 0) (init fun _ => Bytes.fill BSIZE 0) := .init rfl
  refine ⟨fun hall => ?_, fun hall => ?_⟩
  · obtain ⟨s, hs, hp⟩ := Reach.of_runs manyFiles (fun s => s.panicked) h0 (by decide +kernel)
    rw [hall _ s hs] at hp
    cases hp
  · obtain ⟨s, hs, hp⟩ := Reach.of_runs manyReaders (fun s => s.bio.panicked = some .noBuffers) h0 (by decide +kernel)
    exact hall _ s hs hp

end Xv6.Limits
