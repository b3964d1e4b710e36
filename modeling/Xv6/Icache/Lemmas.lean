import Xv6.Icache.Model
import Xv6.Lib.Leases

/-!
# The invariant of the inode cache

Whoever changes a copy, or the inode on disk, holds the sleep lock of the entry. The exception is `ialloc`, which changes free inodes.
-/

namespace Xv6.Icache

open Xv6.Lib Function Option State Assoc
open Xv6.Fs (Dinode)

def Stage.holds : Stage → Bool
  | .idle | .released => false
  | _ => true

def Stage.busy : Stage → Bool
  | .copied | .changed | .cleared | .freed => true
  | _ => false

def StageOk (disk : Key → Dinode) : Stage → Inode → Prop
  | .copied, ip => (ip.d = disk ip.key ∨ ip.d.type = 0) ∧ ip.owner = ip.key
  | .changed, ip => ip.d.type ≠ 0
  | _, _ => True

def Busy (refs : List (Nat × Ref)) (i : Slot) : Prop := ∃ q ∈ refs, q.2.slot = i ∧ q.2.stage.busy

structure Inv (s : State) : Prop where
  refs : Leases Ref.slot Ref.pid (·.stage.holds) (fun i => (s.inode i).ref) (fun i => (s.inode i).lock) s.refs
  uniq : ∀ i j, 0 < (s.inode i).ref → 0 < (s.inode j).ref → (s.inode i).key = (s.inode j).key → i = j
  stage : ∀ q ∈ s.refs, StageOk s.disk q.2.stage (s.inode q.2.slot)
  owner : ∀ i, 0 < (s.inode i).ref → (s.inode i).valid → (s.inode i).owner = (s.inode i).key
  copy : ∀ i, 0 < (s.inode i).ref → (s.inode i).valid →
    Busy s.refs i ∨ (s.inode i).d = s.disk (s.inode i).key ∧ (s.inode i).d.type ≠ 0
  panics : ∀ p, s.panicked = some p → p = .iget ∨ p = .noType

theorem inv_boot (disk : Key → Dinode) : Inv (.boot disk) := by
  refine ⟨⟨List.nodup_nil, fun _ => rfl, ?_, .nil⟩, fun i j hi => absurd hi (by simp [boot]), ?_, fun i hi => ?_,
    fun i hi => ?_, ?_⟩
  all_goals simp_all [boot]

variable {s s' : State} {i j : Slot} {c : Nat} {r : Ref} {l1 l2 : List (Nat × Ref)} {a : Act} {inode : Slot → Inode}

/-! ## `iget` -/

def FoundOk (inode : Slot → Inode) (dev inum : Nat) : Found → Prop
  | .cached i => 0 < (inode i).ref ∧ (inode i).key = (dev, inum)
  | .empty i => (inode i).ref = 0 ∧ ∀ j, 0 < (inode j).ref → (inode j).key ≠ (dev, inum)
  | .full => ∀ j, 0 < (inode j).ref ∧ (inode j).key ≠ (dev, inum)

theorem search_ok {dev inum : Nat} (l : List Slot) {empty : Option Slot} (he : ∀ i ∈ empty, (inode i).ref = 0)
    (hl : ∀ j, j ∈ l ∨ (0 < (inode j).ref → (inode j).key ≠ (dev, inum)) ∧ (empty = none → 0 < (inode j).ref)) :
    FoundOk inode dev inum (search inode dev inum empty l) := by
  induction l generalizing empty with
  | nil =>
    have hl := fun j => (hl j).resolve_left List.not_mem_nil
    cases empty with
    | none => exact fun j => ⟨(hl j).2 rfl, (hl j).1 ((hl j).2 rfl)⟩
    | some i => exact ⟨he i rfl, fun j => (hl j).1⟩
  | cons i l ih =>
    rw [search]
    split
    · rename_i hc
      exact ⟨hc.1, Prod.ext hc.2.1 hc.2.2⟩
    · rename_i hc
      have hkey : 0 < (inode i).ref → (inode i).key ≠ (dev, inum) := fun hr hk =>
        hc ⟨hr, congrArg Prod.fst hk, congrArg Prod.snd hk⟩
      refine ih (fun k hk => ?_) fun j => ?_
      · split at hk
        · rename_i hn
          cases hk
          exact hn.2
        · exact he k hk
      · rcases hl j with hj | ⟨h1, h2⟩
        · rcases List.mem_cons.mp hj with rfl | hj
          · refine .inr ⟨hkey, fun hn => ?_⟩
            split at hn
            · cases hn
            · rename_i hne
              exact Nat.pos_of_ne_zero fun h0 => hne ⟨hn, h0⟩
          · exact .inl hj
        · refine .inr ⟨h1, fun hn => h2 ?_⟩
          split at hn
          · cases hn
          · exact hn

theorem search_spec (inode : Slot → Inode) (dev inum : Nat) : FoundOk inode dev inum (search inode dev inum none (List.finRange NINODE)) :=
  search_ok _ (by simp) fun j => .inl (List.mem_finRange j)

/-- A new reference to an entry: either one more is counted, or an entry without references becomes that of an inode which
is not in the cache. -/
inductive Got (inode : Slot → Inode) (i : Slot) : Inode → Prop where
  | more : 0 < (inode i).ref → Got inode i { inode i with ref := (inode i).ref + 1 }
  | first (dev inum : Nat) : (inode i).ref = 0 → (∀ j, 0 < (inode j).ref → (inode j).key ≠ (dev, inum)) →
      Got inode i { inode i with dev, inum, ref := 1, valid := false }

theorem iget_some {inode' : Slot → Inode} {dev inum : Nat} (h : iget inode dev inum = some (i, inode')) :
    ∃ ip, Got inode i ip ∧ ip.key = (dev, inum) ∧ inode' = update inode i ip := by
  have hf := search_spec inode dev inum
  unfold iget at h
  split at h
  · rename_i k hk
    cases h
    rw [hk] at hf
    exact ⟨_, .more hf.1, hf.2, rfl⟩
  · rename_i k hk
    cases h
    rw [hk] at hf
    exact ⟨_, .first dev inum hf.1 hf.2, rfl, rfl⟩
  · cases h

theorem iget_none {dev inum : Nat} : iget inode dev inum = none ↔ ∀ j, 0 < (inode j).ref ∧ (inode j).key ≠ (dev, inum) := by
  have hf := search_spec inode dev inum
  unfold iget
  split
  · rename_i i hi
    rw [hi] at hf
    exact ⟨nofun, fun h => absurd hf.2 (h i).2⟩
  · rename_i i hi
    rw [hi] at hf
    refine ⟨nofun, fun h => ?_⟩
    have := (h i).1
    rw [hf.1] at this
    cases this
  · rename_i hi
    rw [hi] at hf
    exact ⟨fun _ => hf, fun _ => rfl⟩

/-! ## Actions on one's own reference -/

inductive Use (s : State) (r : Ref) : Inode → Stage → (Key → Dinode) → Prop where
  | lock {st} : r.stage = .idle → (s.inode r.slot).lock = none → st = .locked ∨ st = .putting →
      Use s r { s.inode r.slot with lock := some r.pid } st s.disk
  | copy : r.stage = .locked →
      Use s r { s.inode r.slot with d := s.disk (s.inode r.slot).key, owner := (s.inode r.slot).key } .copied s.disk
  | hit : r.stage = .locked → Use s r (s.inode r.slot) .held s.disk
  | setValid : r.stage = .copied → (s.inode r.slot).d.type ≠ 0 → Use s r { s.inode r.slot with valid := true } .held s.disk
  | noType : r.stage = .copied → Use s r { s.inode r.slot with valid := true } .copied s.disk
  | change {d} : r.stage = .held ∨ r.stage = .changed → d.type ≠ 0 → Use s r { s.inode r.slot with d := d } .changed s.disk
  | update : r.stage = .held ∨ r.stage = .changed →
      Use s r (s.inode r.slot) .held (update s.disk (s.inode r.slot).key (s.inode r.slot).d)
  | free : r.stage = .cleared →
      Use s r (s.inode r.slot) .freed (update s.disk (s.inode r.slot).key (s.inode r.slot).d)
  | unlock {st} : r.stage = .held ∨ r.stage = .finished → st = .idle ∨ st = .released →
      Use s r { s.inode r.slot with lock := none } st s.disk
  | check {st} : r.stage = .putting → st = .last ∨ st = .finished → Use s r (s.inode r.slot) st s.disk
  | itrunc : r.stage = .last →
      Use s r { s.inode r.slot with d := truncate (s.inode r.slot).d } .truncated
        (update s.disk (s.inode r.slot).key (truncate (s.inode r.slot).d))
  | clearType : r.stage = .truncated →
      Use s r { s.inode r.slot with d := { (s.inode r.slot).d with type := 0 } } .cleared s.disk
  | clearValid : r.stage = .freed → Use s r { s.inode r.slot with valid := false } .finished s.disk

structure UseOk (s : State) (r : Ref) (ip : Inode) (st : Stage) (disk : Key → Dinode) : Prop where
  entitled : r.stage.holds ∨ (s.inode r.slot).lock = none
  key : ip.key = (s.inode r.slot).key
  ref : ip.ref = (s.inode r.slot).ref
  lock : st.holds → ip.lock = some r.pid
  stage : StageOk disk st ip
  frame : ∀ k, k ≠ (s.inode r.slot).key → disk k = s.disk k
  owner : ip.valid → ip.owner = ip.key
  copy : ip.valid → st.busy ∨ ip.d = disk ip.key ∧ ip.d.type ≠ 0

theorem Inv.not_busy (h : Inv s) (hl : s.refs = l1 ++ (c, r) :: l2) (hr : r.stage.holds ∨ (s.inode r.slot).lock = none)
    (hb : r.stage.busy = false) : ¬ Busy s.refs r.slot := by
  have href := h.refs
  rw [hl] at href
  rintro ⟨q, hq, ho, hbusy⟩
  rw [hl] at hq
  rcases mem_split hq with rfl | hq
  · rw [hb] at hbusy
    cases hbusy
  · have hh := href.alone hr hq ho
    cases hs : q.2.stage <;> simp_all [Stage.holds, Stage.busy]

theorem Use.ok {ip : Inode} {st : Stage} {disk : Key → Dinode} (h : Inv s) (hl : s.refs = l1 ++ (c, r) :: l2)
    (hu : Use s r ip st disk) : UseOk s r ip st disk := by
  have hmem : (c, r) ∈ s.refs := by simp [hl]
  have hpos : 0 < (s.inode r.slot).ref := h.refs.counted hmem
  have hlock := h.refs.lock _ hmem
  have hstage := h.stage _ hmem
  have howner := h.owner _ hpos
  have hcopy : r.stage.holds ∨ (s.inode r.slot).lock = none → r.stage.busy = false → (s.inode r.slot).valid →
      (s.inode r.slot).d = s.disk (s.inode r.slot).key ∧ (s.inode r.slot).d.type ≠ 0 := fun hr hb hv =>
    (h.copy _ hpos hv).resolve_left (h.not_busy hl hr hb)
  simp only at hlock hstage
  cases hu with
  | lock hs hn hst =>
    have hb : r.stage.busy = false := by rw [hs]; rfl
    refine ⟨.inr hn, rfl, rfl, fun _ => rfl, ?_, fun _ _ => rfl, howner, fun hv => .inr (hcopy (.inr hn) hb hv)⟩
    rcases hst with rfl | rfl <;> trivial
  | copy hs =>
    have hh : r.stage.holds := by rw [hs]; rfl
    exact ⟨.inl hh, rfl, rfl, fun _ => hlock hh, ⟨.inl rfl, rfl⟩, fun _ _ => rfl, fun _ => rfl, fun _ => .inl rfl⟩
  | hit hs =>
    have hh : r.stage.holds := by rw [hs]; rfl
    have hb : r.stage.busy = false := by rw [hs]; rfl
    exact ⟨.inl hh, rfl, rfl, fun _ => hlock hh, trivial, fun _ _ => rfl, howner, fun hv => .inr (hcopy (.inl hh) hb hv)⟩
  | setValid hs ht =>
    have hh : r.stage.holds := by rw [hs]; rfl
    rw [hs] at hstage
    exact ⟨.inl hh, rfl, rfl, fun _ => hlock hh, trivial, fun _ _ => rfl, fun _ => hstage.2,
      fun _ => .inr ⟨hstage.1.resolve_right ht, ht⟩⟩
  | noType hs =>
    have hh : r.stage.holds := by rw [hs]; rfl
    rw [hs] at hstage
    exact ⟨.inl hh, rfl, rfl, fun _ => hlock hh, hstage, fun _ _ => rfl, fun _ => hstage.2, fun _ => .inl rfl⟩
  | change hs ht =>
    have hh : r.stage.holds := by rcases hs with hs | hs <;> rw [hs] <;> rfl
    exact ⟨.inl hh, rfl, rfl, fun _ => hlock hh, ht, fun _ _ => rfl, howner, fun _ => .inl rfl⟩
  | update hs =>
    have hh : r.stage.holds := by rcases hs with hs | hs <;> rw [hs] <;> rfl
    have ht : (s.inode r.slot).valid → (s.inode r.slot).d.type ≠ 0 := fun hv => by
      rcases hs with hs | hs
      · exact (hcopy (.inl hh) (by rw [hs]; rfl) hv).2
      · rw [hs] at hstage
        exact hstage
    refine ⟨.inl hh, rfl, rfl, fun _ => hlock hh, trivial, fun k hk => update_of_ne hk .., howner, fun hv => .inr ⟨?_, ht hv⟩⟩
    rw [update_self]
  | free hs =>
    have hh : r.stage.holds := by rw [hs]; rfl
    exact ⟨.inl hh, rfl, rfl, fun _ => hlock hh, trivial, fun k hk => update_of_ne hk .., howner, fun _ => .inl rfl⟩
  | unlock hs hst =>
    have hh : r.stage.holds := by rcases hs with hs | hs <;> rw [hs] <;> rfl
    have hb : r.stage.busy = false := by rcases hs with hs | hs <;> rw [hs] <;> rfl
    refine ⟨.inl hh, rfl, rfl, fun hn => ?_, ?_, fun _ _ => rfl, howner, fun hv => .inr (hcopy (.inl hh) hb hv)⟩
    · rcases hst with rfl | rfl <;> cases hn
    · rcases hst with rfl | rfl <;> trivial
  | check hs hst =>
    have hh : r.stage.holds := by rw [hs]; rfl
    have hb : r.stage.busy = false := by rw [hs]; rfl
    refine ⟨.inl hh, rfl, rfl, fun _ => hlock hh, ?_, fun _ _ => rfl, howner, fun hv => .inr (hcopy (.inl hh) hb hv)⟩
    rcases hst with rfl | rfl <;> trivial
  | itrunc hs =>
    have hh : r.stage.holds := by rw [hs]; rfl
    have hb : r.stage.busy = false := by rw [hs]; rfl
    refine ⟨.inl hh, rfl, rfl, fun _ => hlock hh, trivial, fun k hk => update_of_ne hk .., howner, fun hv => .inr ⟨?_, ?_⟩⟩
    · exact (update_self (β := fun _ => Dinode) ..).symm
    · exact (hcopy (.inl hh) hb hv).2
  | clearType hs =>
    have hh : r.stage.holds := by rw [hs]; rfl
    exact ⟨.inl hh, rfl, rfl, fun _ => hlock hh, trivial, fun _ _ => rfl, howner, fun _ => .inl rfl⟩
  | clearValid hs =>
    have hh : r.stage.holds := by rw [hs]; rfl
    exact ⟨.inl hh, rfl, rfl, fun _ => hlock hh, trivial, fun _ _ => rfl, nofun, nofun⟩

def State.use (s : State) (l1 l2 : List (Nat × Ref)) (c : Nat) (r : Ref) (ip : Inode) (st : Stage) (disk : Key → Dinode) : State :=
  { s with
    inode := update s.inode r.slot ip
    refs := l1 ++ (c, { r with stage := st }) :: l2
    disk := disk }

section

variable {ip : Inode} {st : Stage} {disk : Key → Dinode}

theorem UseOk.inv (h : Inv s) (hl : s.refs = l1 ++ (c, r) :: l2) (hu : UseOk s r ip st disk) : Inv (s.use l1 l2 c r ip st disk) := by
  have href := h.refs
  rw [hl] at href
  have hpos : 0 < (s.inode r.slot).ref := href.counted (q := (c, r)) (by simp)
  have hkey : ∀ i, (update s.inode r.slot ip i).key = (s.inode i).key := fun i => by
    by_cases hi : i = r.slot
    · subst hi; rw [update_self, hu.key]
    · rw [update_of_ne hi]
  have hcount : ∀ i, (update s.inode r.slot ip i).ref = (s.inode i).ref := fun i => by
    by_cases hi : i = r.slot
    · subst hi; rw [update_self, hu.ref]
    · rw [update_of_ne hi]
  -- Other entries in use are about other inodes.
  have hother : ∀ i, i ≠ r.slot → 0 < (s.inode i).ref → disk (s.inode i).key = s.disk (s.inode i).key := fun i hi hr =>
    hu.frame _ fun hk => hi (h.uniq i r.slot hr hpos hk)
  refine ⟨?_, fun i j hi hj hk => ?_, fun q hq => ?_, fun i hi hv => ?_, fun i hi hv => ?_, h.panics⟩
  · refine href.use hu.entitled rfl hcount (fun i hi => ?_) fun hs => ?_
    · simp [use, update_of_ne hi]
    · simp only [use, update_self]
      exact hu.lock hs
  · simp only [use, hkey, hcount] at hi hj hk
    exact h.uniq i j hi hj hk
  · simp only [use] at hq ⊢
    rcases mem_split hq with rfl | hq
    · rw [update_self]
      exact hu.stage
    · have hmem := mem_of_split (c := c) (r := r) hq
      by_cases ho : q.2.slot = r.slot
      · have hh := href.alone hu.entitled hq ho
        cases hs : q.2.stage <;> simp only [hs, Stage.holds] at hh <;> trivial
      · rw [update_of_ne ho]
        have hst := h.stage q (hl ▸ hmem)
        have hd := hother _ ho (href.counted hmem)
        cases hs : q.2.stage <;> rw [hs] at hst <;> first | trivial | (simp only [StageOk, hd] at hst ⊢; exact hst)
  · simp only [use] at hi hv ⊢
    rw [hcount] at hi
    by_cases he : i = r.slot
    · subst he
      rw [update_self] at hv ⊢
      exact hu.owner hv
    · rw [update_of_ne he] at hv ⊢
      exact h.owner i hi hv
  · simp only [use] at hi hv ⊢
    rw [hcount] at hi
    by_cases he : i = r.slot
    · subst he
      rw [update_self] at hv ⊢
      exact (hu.copy hv).imp (fun hb => ⟨(c, { r with stage := st }), by simp, rfl, hb⟩) id
    · rw [update_of_ne he] at hv ⊢
      rw [hother i he hi]
      refine (h.copy i hi hv).imp (fun ⟨q, hq, ho, hb⟩ => ⟨q, ?_, ho, hb⟩) id
      rw [hl] at hq
      rcases mem_split hq with rfl | hq
      · exact absurd ho.symm he
      · exact mem_of_split hq

end

/-! ## New references, dropped references, new inodes -/

theorem Busy.cons {q : Nat × Ref} {l : List (Nat × Ref)} (hq : q.2.stage.busy = false) : Busy (q :: l) i ↔ Busy l i := by
  simp [Busy, hq]

theorem Got.ref {ip : Inode} (hg : Got inode i ip) : ip.ref = (inode i).ref + 1 := by
  cases hg with
  | more => rfl
  | first dev inum h0 => rw [h0]

theorem Got.lock {ip : Inode} (hg : Got s.inode i ip) : ip.lock = (s.inode i).lock := by
  cases hg <;> rfl

theorem Got.same {ip : Inode} (hg : Got s.inode i ip) (hr : 0 < (s.inode i).ref) : ip = { s.inode i with ref := ip.ref } := by
  cases hg with
  | more => rfl
  | first dev inum h0 => omega

theorem Got.update {ip : Inode} (hg : Got s.inode i ip) (hr : 0 < (s.inode j).ref) :
    ∃ n, update s.inode i ip j = { s.inode j with ref := n } := by
  by_cases hj : j = i
  · subst hj
    exact ⟨ip.ref, by rw [update_self]; exact hg.same hr⟩
  · exact ⟨_, update_of_ne hj ..⟩

theorem Got.uniq {ip : Inode} (hg : Got s.inode i ip) (h : Inv s) (hj : j ≠ i) (hr : 0 < (s.inode j).ref) : (s.inode j).key ≠ ip.key := by
  cases hg with
  | more h0 => exact fun hk => hj (h.uniq j i hr h0 hk)
  | first dev inum _ hn => exact hn j hr

theorem StageOk.recount {disk : Key → Dinode} {st : Stage} {ip : Inode} (h : StageOk disk st ip) (n : Nat) :
    StageOk disk st { ip with ref := n } := by
  cases st <;> exact h

theorem Inv.newRef {pid : Nat} {ip : Inode} (h : Inv s) (hc : c ∉ s.refs.map Prod.fst) (hg : Got s.inode i ip) :
    Inv (s.newRef c pid i (update s.inode i ip)) := by
  have hcount : ∀ j, (update s.inode i ip j).ref = (s.inode j).ref + if i = j then 1 else 0 := fun j => by
    by_cases hj : j = i
    · subst hj; rw [update_self, hg.ref, if_pos rfl]
    · rw [update_of_ne hj, if_neg (Ne.symm hj), add_zero]
  have hlock : ∀ j, (update s.inode i ip j).lock = (s.inode j).lock := fun j => by
    by_cases hj : j = i
    · subst hj; rw [update_self, hg.lock]
    · rw [update_of_ne hj]
  refine ⟨h.refs.cons hc rfl hcount fun j _ => hlock j, fun j k hj hk he => ?_, fun q hq => ?_,
    fun j hj hv => ?_, fun j hj hv => ?_, h.panics⟩
  · simp only [State.newRef, hcount] at hj hk he
    by_cases hji : j = i
    · by_cases hki : k = i
      · rw [hji, hki]
      · rw [hji, update_self, update_of_ne hki] at he
        exact absurd he.symm (hg.uniq h hki (by simpa [Ne.symm hki] using hk))
    · by_cases hki : k = i
      · rw [hki, update_self, update_of_ne hji] at he
        exact absurd he (hg.uniq h hji (by simpa [Ne.symm hji] using hj))
      · rw [update_of_ne hji, update_of_ne hki] at he
        exact h.uniq j k (by simpa [Ne.symm hji] using hj) (by simpa [Ne.symm hki] using hk) he
  · simp only [State.newRef] at hq ⊢
    rcases List.mem_cons.mp hq with rfl | hq
    · trivial
    · obtain ⟨n, hn⟩ := hg.update (h.refs.counted hq)
      rw [hn]
      exact (h.stage q hq).recount n
  all_goals
    simp only [State.newRef] at hj hv ⊢
    have hr : 0 < (s.inode j).ref := by
      by_cases hji : j = i
      · subst hji
        rw [update_self] at hv
        cases hg with
        | more h0 => exact h0
        | first => cases hv
      · rwa [update_of_ne hji] at hj
    obtain ⟨n, hn⟩ := hg.update hr
    rw [hn] at hv ⊢
  · exact h.owner j hr hv
  · exact (h.copy j hr hv).imp (Busy.cons rfl).mpr id

theorem Inv.drop (h : Inv s) (hl : s.refs = l1 ++ (c, r) :: l2) (hr : r.stage = .released) :
    Inv { s with inode := decref s.inode r.slot, refs := l1 ++ l2 } := by
  have href := h.refs
  rw [hl] at href
  have hsame : ∀ j, ∃ n, decref s.inode r.slot j = { s.inode j with ref := n } ∧ n ≤ (s.inode j).ref ∧
      n = (s.inode j).ref - if r.slot = j then 1 else 0 := fun j => by
    by_cases hj : j = r.slot
    · subst hj
      exact ⟨_, update_self .., Nat.sub_le _ _, by rw [if_pos rfl]⟩
    · exact ⟨_, update_of_ne hj .., le_rfl, by rw [if_neg (Ne.symm hj)]; rfl⟩
  refine ⟨href.drop (fun j => ?_) (fun j => ?_), fun j k hj hk he => ?_, fun q hq => ?_, fun j hj hv => ?_, fun j hj hv => ?_, h.panics⟩
  · obtain ⟨n, hn, _, he⟩ := hsame j
    simp only [hn]
    exact he
  · obtain ⟨n, hn, _⟩ := hsame j
    simp [hn]
  · obtain ⟨n, hn, hnj, _⟩ := hsame j
    obtain ⟨m, hm, hmk, _⟩ := hsame k
    simp only [hn, hm] at hj hk he
    exact h.uniq j k (by omega) (by omega) he
  · obtain ⟨n, hn, _⟩ := hsame q.2.slot
    simp only [hn]
    exact (h.stage q (hl ▸ mem_of_split hq)).recount n
  · obtain ⟨n, hn, hnj, _⟩ := hsame j
    simp only [hn] at hj hv ⊢
    exact h.owner j (by omega) hv
  · obtain ⟨n, hn, hnj, _⟩ := hsame j
    simp only [hn] at hj hv ⊢
    refine (h.copy j (by omega) hv).imp (fun ⟨q, hq, ho, hb⟩ => ⟨q, ?_, ho, hb⟩) id
    rw [hl] at hq
    rcases mem_split hq with rfl | hq
    · rw [hr] at hb
      cases hb
    · exact hq

theorem Inv.ialloc {k : Key} {d : Dinode} (h : Inv s) (hk : (s.disk k).type = 0) : Inv { s with disk := update s.disk k d } := by
  refine ⟨h.refs, h.uniq, fun q hq => ?_, h.owner, fun j hj hv => ?_, h.panics⟩
  · have hst := h.stage q hq
    cases hs : q.2.stage <;> rw [hs] at hst <;> try exact hst
    case copied =>
      refine ⟨?_, hst.2⟩
      by_cases he : (s.inode q.2.slot).key = k
      · refine .inr ?_
        rcases hst.1 with hd | ht
        · rw [hd, he, hk]
        · exact ht
      · simp only [update_of_ne he]
        exact hst.1
  · refine (h.copy j hj hv).imp id fun ⟨hd, ht⟩ => ⟨?_, ht⟩
    have he : (s.inode j).key ≠ k := by
      rintro rfl
      rw [hd, hk] at ht
      exact ht rfl
    simp only [update_of_ne he]
    exact hd

/-! ## All actions -/

inductive Next (s : State) : State → Prop where
  | newRef {c pid : Nat} {i : Slot} {ip : Inode} : c ∉ s.refs.map Prod.fst → Got s.inode i ip →
      Next s (s.newRef c pid i (update s.inode i ip))
  | iget (dev inum : Nat) : (∀ j, 0 < (s.inode j).ref ∧ (s.inode j).key ≠ (dev, inum)) → Next s (s.panic .iget)
  | use {c : Nat} {r : Ref} {l1 l2 : List (Nat × Ref)} {ip : Inode} {st : Stage} {disk : Key → Dinode} :
      s.refs = l1 ++ (c, r) :: l2 → Use s r ip st disk → Next s (s.use l1 l2 c r ip st disk)
  | noType {c : Nat} {r : Ref} {l1 l2 : List (Nat × Ref)} : s.refs = l1 ++ (c, r) :: l2 → r.stage = .copied →
      Next s ((s.setInode r.slot { s.inode r.slot with valid := true }).panic .noType)
  | drop {c : Nat} {r : Ref} {l1 l2 : List (Nat × Ref)} : s.refs = l1 ++ (c, r) :: l2 → r.stage = .released →
      Next s { s with inode := decref s.inode r.slot, refs := l1 ++ l2 }
  | ialloc {k : Key} {d : Dinode} : (s.disk k).type = 0 → Next s { s with disk := update s.disk k d }

theorem Inv.panic {p : Panic} (h : Inv s) (hp : p = .iget ∨ p = .noType) : Inv (s.panic p) :=
  { h with panics := fun q hq => by cases hq; exact hp }

theorem Inv.next (h : Inv s) (hn : Next s s') : Inv s' := by
  cases hn with
  | newRef hc hg => exact h.newRef hc hg
  | iget dev inum hfull => exact h.panic (.inl rfl)
  | use hl hu => exact (hu.ok h hl).inv h hl
  | @noType c r l1 l2 hl hs =>
    have hi := ((Use.noType hs).ok h hl).inv h hl
    have he : { r with stage := .copied } = r := by rw [← hs]
    rw [use, he, ← hl] at hi
    exact Inv.panic hi (.inr rfl)
  | drop hl hr => exact h.drop hl hr
  | ialloc hk => exact h.ialloc hk

section

variable (h : Inv s) (hr : s.refs.lookup c = some r)
include h hr

theorem next_use {ip : Inode} {st : Stage} {disk : Key → Dinode} (hu : Use s r ip st disk) :
    Next s { s with
      inode := update s.inode r.slot ip
      refs := put s.refs c { r with stage := st }
      disk := disk } := by
  obtain ⟨l1, l2, hl, h1, h2⟩ := split h.refs.keys hr
  have := Next.use hl hu
  rwa [use, ← put_split h1 h2 (o := r), ← hl] at this

theorem next_stage {st : Stage} {disk : Key → Dinode} (hu : Use s r (s.inode r.slot) st disk) :
    Next s { s with refs := put s.refs c { r with stage := st }, disk := disk } := by
  have := next_use h hr hu
  rwa [update_eq_self] at this

theorem Inv.holder (hh : r.stage.holds) : (s.inode r.slot).lock = some r.pid :=
  h.refs.lock _ (mem_of_lookup hr) hh

theorem Inv.counted : 0 < (s.inode r.slot).ref := h.refs.counted (mem_of_lookup hr)

end

section

variable (h : Inv s) (hr : s.refs.lookup c = some r)
include h hr

theorem next_ilock (hst : ilock s c r = some s') : Next s s' := by
  have hpos := h.counted hr
  simp only [ilock] at hst
  split at hst
  · rename_i hs
    rw [if_neg (by omega)] at hst
    obtain ⟨hn, hst⟩ := ite_none_right_eq_some.mp hst
    cases hst
    exact next_use h hr (.lock hs hn (.inl rfl))
  · cases hst

theorem next_copy (hst : copy s c r = some s') : Next s s' := by
  obtain ⟨hs, hst⟩ := ite_none_right_eq_some.mp hst
  split at hst
  · cases hst
    exact next_use h hr (.copy hs)
  · cases hst
    exact next_stage h hr (.hit hs)

theorem next_setValid (hst : setValid s c r = some s') : Next s s' := by
  obtain ⟨hs, hst⟩ := ite_none_right_eq_some.mp hst
  split at hst
  · cases hst
    obtain ⟨l1, l2, hl, _⟩ := lookup_split hr
    exact .noType hl hs
  · rename_i ht
    cases hst
    exact next_use h hr (.setValid hs ht)

theorem next_change {d : Dinode} (hst : change s c r d = some s') : Next s s' := by
  obtain ⟨hs, hst⟩ := ite_none_right_eq_some.mp hst
  cases hst
  exact next_use h hr (.change hs.1 hs.2)

theorem next_iupdate (hst : iupdate s c r = some s') : Next s s' := by
  simp only [iupdate] at hst
  split at hst
  · rename_i hs
    cases hst
    exact next_stage h hr (.update hs)
  · obtain ⟨hs, hst⟩ := ite_none_right_eq_some.mp hst
    cases hst
    exact next_stage h hr (.free hs)

theorem next_iunlock (hst : iunlock s c r = some s') : Next s s' := by
  have hpos := h.counted hr
  obtain ⟨hs, hst⟩ := ite_none_right_eq_some.mp hst
  have hlock := h.holder hr (by rw [hs]; rfl)
  rw [if_neg (by simp only [hlock, ne_eq, not_true, false_or]; omega)] at hst
  cases hst
  exact next_use h hr (.unlock (.inl hs) (.inl rfl))

theorem next_iput (hst : iput s c r = some s') : Next s s' := by
  obtain ⟨hs, hst⟩ := ite_none_right_eq_some.mp hst
  cases hst
  exact next_use h hr (.lock hs.1 hs.2 (.inr rfl))

theorem next_check (hst : check s c r = some s') : Next s s' := by
  obtain ⟨hs, hst⟩ := ite_none_right_eq_some.mp hst
  split at hst
  · cases hst
    exact next_stage h hr (.check hs (.inl rfl))
  · cases hst
    exact next_stage h hr (.check hs (.inr rfl))

theorem next_itrunc (hst : itrunc s c r = some s') : Next s s' := by
  obtain ⟨hs, hst⟩ := ite_none_right_eq_some.mp hst
  cases hst
  exact next_use h hr (.itrunc hs)

theorem next_clearType (hst : clearType s c r = some s') : Next s s' := by
  obtain ⟨hs, hst⟩ := ite_none_right_eq_some.mp hst
  cases hst
  exact next_use h hr (.clearType hs)

theorem next_clearValid (hst : clearValid s c r = some s') : Next s s' := by
  obtain ⟨hs, hst⟩ := ite_none_right_eq_some.mp hst
  cases hst
  exact next_use h hr (.clearValid hs)

theorem next_releasesleep (hst : releasesleep s c r = some s') : Next s s' := by
  obtain ⟨hs, hst⟩ := ite_none_right_eq_some.mp hst
  cases hst
  exact next_use h hr (.unlock (.inr hs) (.inr rfl))

theorem next_drop (hst : drop s c r = some s') : Next s s' := by
  obtain ⟨l1, l2, hl, h1, h2⟩ := split h.refs.keys hr
  obtain ⟨hs, hst⟩ := ite_none_right_eq_some.mp hst
  rw [hl, del_split h1 h2] at hst
  cases hst
  exact .drop hl hs

end

/-- Every step is one of `Next`; in particular `iunlock` does not panic, and `ilock` only for a free inode. -/
theorem next_of_step (h : Inv s) (hst : step s a = some s') : Next s s' := by
  unfold step at hst
  split at hst
  · cases a with
    | iget c pid dev inum =>
      obtain ⟨hc, hst⟩ := ite_none_right_eq_some.mp hst
      split at hst
      · rename_i i inode' hg
        cases hst
        obtain ⟨ip, hgot, _, rfl⟩ := iget_some hg
        exact .newRef (lookup_none hc) hgot
      · rename_i hg
        cases hst
        exact .iget dev inum (iget_none.mp hg)
    | idup c n pid =>
      dsimp only at hst
      split at hst
      · rename_i hc
        obtain ⟨r, hr, hst⟩ := bind_eq_some_iff.mp hst
        obtain ⟨-, hst⟩ := ite_none_right_eq_some.mp hst
        cases hst
        exact .newRef (lookup_none hc) (.more (h.counted hr))
      · cases hst
    | ilock c => obtain ⟨r, hr, hst⟩ := bind_eq_some_iff.mp hst; exact next_ilock h hr hst
    | copy c => obtain ⟨r, hr, hst⟩ := bind_eq_some_iff.mp hst; exact next_copy h hr hst
    | setValid c => obtain ⟨r, hr, hst⟩ := bind_eq_some_iff.mp hst; exact next_setValid h hr hst
    | change c d => obtain ⟨r, hr, hst⟩ := bind_eq_some_iff.mp hst; exact next_change h hr hst
    | iupdate c => obtain ⟨r, hr, hst⟩ := bind_eq_some_iff.mp hst; exact next_iupdate h hr hst
    | iunlock c => obtain ⟨r, hr, hst⟩ := bind_eq_some_iff.mp hst; exact next_iunlock h hr hst
    | iput c => obtain ⟨r, hr, hst⟩ := bind_eq_some_iff.mp hst; exact next_iput h hr hst
    | check c => obtain ⟨r, hr, hst⟩ := bind_eq_some_iff.mp hst; exact next_check h hr hst
    | itrunc c => obtain ⟨r, hr, hst⟩ := bind_eq_some_iff.mp hst; exact next_itrunc h hr hst
    | clearType c => obtain ⟨r, hr, hst⟩ := bind_eq_some_iff.mp hst; exact next_clearType h hr hst
    | clearValid c => obtain ⟨r, hr, hst⟩ := bind_eq_some_iff.mp hst; exact next_clearValid h hr hst
    | releasesleep c => obtain ⟨r, hr, hst⟩ := bind_eq_some_iff.mp hst; exact next_releasesleep h hr hst
    | drop c => obtain ⟨r, hr, hst⟩ := bind_eq_some_iff.mp hst; exact next_drop h hr hst
    | ialloc dev inum type =>
      obtain ⟨ht, hst⟩ := ite_none_right_eq_some.mp hst
      cases hst
      exact .ialloc ht.1
  · cases hst

end Xv6.Icache
