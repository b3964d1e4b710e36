import Xv6.Lib.Ring
import Xv6.Pipe.Lemmas.Wakeup

/-!
# The pipe as a queue

What a reader has copied and not yet returned with is on its way out of the queue. There is one such reader at most: it holds
`p->lock` until it returns.
-/

namespace Xv6.Pipe

open Xv6.Lib BitVec Function State

variable {s s' : State} {t u k : Nat} {pc : Pc} {addr : List (BitVec 8)} {x : Traffic} {sent got : List (BitVec 8)}

/-! ## The reader under way -/

def Pc.copied : Pc → List (BitVec 8)
  | .read .copy _ addr | .read .done _ addr | .read .release _ addr => addr
  | _ => []

def State.copied (s : State) : List (BitVec 8) := s.lock.elim [] fun t => (s.pc t).copied

/-- Nothing is copied before `piperead-copy`. -/
def Pc.Fresh : Pc → Prop
  | .read l _ addr => l ∉ [.copy, .done, .release] → addr = []
  | _ => True

structure Owned (s : State) : Prop where
  inside : ∀ u, (s.pc u).inside = true → s.lock = some u
  fresh : ∀ u, (s.pc u).Fresh

theorem copied_rouse (pc : Pc) : pc.rouse.copied = pc.copied := by
  cases pc with
  | idle | close => rfl
  | write l | read l => cases l <;> rfl

theorem fresh_rouse (h : pc.Fresh) : pc.rouse.Fresh := by
  cases pc with
  | idle | close => exact h
  | write l => cases l <;> trivial
  | read l => cases l <;> first | exact h | exact fun _ => h (by decide)

theorem Owned.wakeup (h : Owned s) (c : Chan) : Owned (s.wakeup c) := by
  refine ⟨fun u hu => h.inside u (by rwa [inside_wakeup] at hu), fun u => ?_⟩
  simp only [State.wakeup]
  split
  · exact fresh_rouse (h.fresh u)
  · exact h.fresh u

theorem copied_wakeup (s : State) (c : Chan) : (s.wakeup c).copied = s.copied := by
  unfold State.copied State.wakeup
  cases s.lock with
  | none => rfl
  | some t =>
    dsimp only [Option.elim]
    split
    · exact copied_rouse _
    · rfl

theorem Owned.update (h : Owned s) (hpc : s'.pc = update s.pc t pc) (hf : pc.Fresh) (hi : pc.inside = true → s'.lock = some t)
    (hl : s'.lock = s.lock ∨ s.lock = none ∨ s.lock = some t) : Owned s' := by
  constructor <;> intro u <;> rw [hpc] <;> by_cases hut : u = t
  · subst hut
    rw [update_self]
    exact hi
  · rw [update_of_ne hut]
    intro hu
    have hown := h.inside u hu
    rcases hl with hl | hl | hl
    · rw [hl, hown]
    · cases hl.symm.trans hown
    · cases hl.symm.trans hown
      exact absurd rfl hut
  · subst hut
    rwa [update_self]
  · rw [update_of_ne hut]
    exact h.fresh u

theorem copied_update (hpc : s'.pc = update s.pc t pc) (hl : s'.lock = s.lock) (hc : pc.copied = (s.pc t).copied) :
    s'.copied = s.copied := by
  unfold State.copied
  rw [hl, hpc]
  cases s.lock with
  | none => rfl
  | some u =>
    by_cases hut : u = t
    · subst hut
      rw [Option.elim, update_self]
      exact hc
    · rw [Option.elim, update_of_ne hut]
      rfl

/-! ## The queue -/

structure Holds (x : Traffic) (k : Nat) : Prop where
  le : k ≤ PIPESIZE
  nwrite : x.state.pipe.nwrite = x.state.pipe.nread + .ofNat 32 k
  stored : x.stored = x.returned ++ x.state.copied ++ ring PIPESIZE x.state.pipe.data.get x.state.pipe.nread k

structure SameQueue (s s' : State) : Prop where
  data : s'.pipe.data = s.pipe.data
  nread : s'.pipe.nread = s.pipe.nread
  nwrite : s'.pipe.nwrite = s.pipe.nwrite

theorem Holds.outstanding (h : Holds x k) : (x.state.pipe.nwrite - x.state.pipe.nread).toNat = k := by
  have hk : k < 2 ^ 32 := lt_of_le_of_lt h.le (by decide)
  rw [h.nwrite, add_comm, add_sub_cancel, toNat_ofNat, Nat.mod_eq_of_lt hk]

/-- What a step does: it stores the bytes `sent`, and a `piperead` returns with the bytes `got`. -/
inductive Moves (s s' : State) : List (BitVec 8) → List (BitVec 8) → Prop where
  | same {got : List (BitVec 8)} (hq : SameQueue s s') (hc : s.copied = got ++ s'.copied) : Moves s s' [] got
  | put (b : BitVec 8) (hf : ¬ s.pipe.isFull) (hq : SameQueue (s.put b) s') (hc : s'.copied = s.copied) : Moves s s' [b] []
  | take (he : ¬ s.pipe.isEmpty) (hq : SameQueue s.take s') (hc : s'.copied = s.copied ++ [s.pipe.front]) : Moves s s' [] []

theorem Holds.next (h : Holds x k) (hm : Moves x.state s' sent got) : ∃ k', Holds ⟨s', x.stored ++ sent, x.returned ++ got⟩ k' := by
  cases hm with
  | same hq hc =>
    refine ⟨k, h.le, ?_, ?_⟩
    · rw [hq.nwrite, hq.nread]; exact h.nwrite
    · change x.stored ++ [] = x.returned ++ got ++ s'.copied ++ ring PIPESIZE s'.pipe.data.get s'.pipe.nread k
      rw [hq.data, hq.nread, List.append_nil, h.stored, hc]
      simp only [List.append_assoc]
  | put b hf hq hc =>
    have hlt : k < PIPESIZE := by
      refine lt_of_le_of_ne h.le fun he => hf ?_
      rw [Pipe.isFull, h.nwrite, he]
    refine ⟨k + 1, hlt, ?_, ?_⟩
    · rw [hq.nwrite, hq.nread]
      change x.state.pipe.nwrite + 1 = x.state.pipe.nread + .ofNat 32 (k + 1)
      rw [h.nwrite, add_assoc, ofNat_add]
      rfl
    · have hi : x.state.pipe.nwrite.toNat % PIPESIZE < PIPESIZE := Nat.mod_lt _ (by decide)
      have hr : ring PIPESIZE (x.state.pipe.put b).data.get x.state.pipe.nread (k + 1) =
          ring PIPESIZE x.state.pipe.data.get x.state.pipe.nread k ++ [b] := by
        refine ring_push (by decide) hlt ?_ fun i hne => ?_
        · rw [← h.nwrite]; exact Bytes.get_set_self _ _ hi
        · rw [← h.nwrite] at hne; exact Bytes.get_set_ne _ _ hne
      rw [hq.data, hq.nread]
      change x.stored ++ [b] = x.returned ++ [] ++ s'.copied ++ ring PIPESIZE (x.state.pipe.put b).data.get x.state.pipe.nread (k + 1)
      rw [hr, h.stored, hc, List.append_nil, List.append_assoc]
  | take he hq hc =>
    cases k with
    | zero =>
      refine absurd ?_ he
      rw [Pipe.isEmpty, h.nwrite]
      exact (add_zero _).symm
    | succ k =>
      refine ⟨k, Nat.le_of_succ_le h.le, ?_, ?_⟩
      · rw [hq.nwrite, hq.nread]
        change x.state.pipe.nwrite = x.state.pipe.nread + 1 + .ofNat 32 k
        rw [h.nwrite, add_assoc, add_comm k 1, ofNat_add]
        rfl
      · rw [hq.data, hq.nread]
        change x.stored ++ [] = x.returned ++ [] ++ s'.copied ++ ring PIPESIZE x.state.pipe.data.get (x.state.pipe.nread + 1#32) k
        rw [h.stored, hc, ring_pop, List.append_nil, List.append_nil]
        simp only [List.append_assoc, List.singleton_append]
        rfl

theorem Moves.of_wakeup {c : Chan} (h : Moves (s.wakeup c) s' sent got) : Moves s s' sent got := by
  have hw := copied_wakeup s c
  cases h with
  | same hq hc => exact .same ⟨hq.data, hq.nread, hq.nwrite⟩ (hw ▸ hc)
  | put b hf hq hc => exact .put b hf ⟨hq.data, hq.nread, hq.nwrite⟩ (hw ▸ hc)
  | take he hq hc => exact .take he ⟨hq.data, hq.nread, hq.nwrite⟩ (hw ▸ hc)

/-! ## Steps -/

/-- The step of process `t` from `s` to `s'`. -/
structure Tracks (s : State) (t : Nat) (s' : State) : Prop where
  owned : Owned s'
  moves : Moves s s' ((s.pc t).stores (s'.pc t)) ((s.pc t).returns (s'.ret t) (s'.pc t))

section

variable {pc0 : Pc} (h : Owned s) (hpc : s.pc t = pc0)
include h hpc

theorem Owned.copied_eq (hin : pc0.inside = true) : s.copied = pc0.copied := by
  rw [State.copied, h.inside t (by rw [hpc]; exact hin), ← hpc]
  rfl

theorem Owned.acquire (ha : s.acquire t pc = some s') (hf : pc.Fresh) (hc : pc.copied = []) (hs : pc0.stores pc = [])
    (hr : ∀ r, pc0.returns r pc = []) : Tracks s t s' := by
  unfold State.acquire at ha
  split at ha <;> cases ha
  rename_i hl
  refine ⟨h.update rfl hf (fun _ => rfl) (.inr (.inl hl)), ?_⟩
  simp only [setPc, update_self, hpc, hs, hr]
  exact .same ⟨rfl, rfl, rfl⟩ (by simp [State.copied, hl, hc])

variable (hin : pc0.inside = true)
include hin

/-- The holder of the lock goes on. -/
theorem Owned.tracks (hl : s'.lock = s.lock) (hs : s'.pc = Function.update s.pc t pc) (hf : pc.Fresh)
    (hm : s'.copied = pc.copied → Moves s s' (pc0.stores pc) (pc0.returns (s'.ret t) pc)) : Tracks s t s' := by
  have hlk : s.lock = some t := h.inside t (by rw [hpc]; exact hin)
  refine ⟨h.update hs hf (fun _ => hl.trans hlk) (.inl hl), ?_⟩
  rw [hpc, hs, update_self]
  refine hm ?_
  rw [State.copied, hl, hlk, hs, Option.elim, update_self]

theorem Owned.go (hf : pc.Fresh) (hc : pc.copied = pc0.copied) (hs : pc0.stores pc = []) (hr : ∀ r, pc0.returns r pc = []) :
    Tracks s t (s.setPc t pc) := by
  refine h.tracks hpc hin rfl rfl hf fun hc' => ?_
  rw [hs, hr]
  exact .same ⟨rfl, rfl, rfl⟩ (by rw [hc', hc, h.copied_eq hpc hin]; rfl)

theorem Owned.go_wakeup (c : Chan) (hf : pc.Fresh) (hc : pc.copied = pc0.copied) (hs : pc0.stores pc = [])
    (hr : ∀ r, pc0.returns r pc = []) : Tracks s t ((s.wakeup c).setPc t pc) := by
  have hw : (s.wakeup c).pc t = pc0 := (if_neg (by rw [hpc, asleep_of_inside hin]; simp)).trans hpc
  obtain ⟨ho, hm⟩ := (h.wakeup c).go hw hin hf hc hs hr
  refine ⟨ho, ?_⟩
  rw [hw] at hm
  rw [hpc]
  exact hm.of_wakeup

/-- The holder gives up the lock: to sleep, or to return. -/
theorem Owned.leave (hl : s'.lock = none) (hs' : s'.pc = Function.update s.pc t pc) (hq : s'.pipe = s.pipe) (hf : pc.Fresh)
    (hi : pc.inside = false) (hs : pc0.stores pc = []) (hr : pc0.returns (s'.ret t) pc = pc0.copied) : Tracks s t s' := by
  have hlk : s.lock = some t := h.inside t (by rw [hpc]; exact hin)
  refine ⟨h.update hs' hf (fun hp => ?_) (.inr (.inr hlk)), ?_⟩
  · rw [hi] at hp
    cases hp
  · rw [hs', update_self, hpc, hs, hr, ← h.copied_eq hpc hin]
    exact .same ⟨by rw [hq], by rw [hq], by rw [hq]⟩ (by simp [State.copied, hl])

theorem Owned.return' (r : Int) (hs : pc0.stores .idle = []) (hr : pc0.returns (some r) .idle = pc0.copied) :
    Tracks s t (s.return' t r) := by
  refine h.leave hpc hin rfl rfl rfl trivial rfl hs ?_
  simp only [State.return', update_self]
  exact hr

end

theorem stores_self (l l' : WriteAt) (i : Nat) : (Pc.write l addr i).stores (.write l' addr i) = [] := by simp [Pc.stores]

theorem returns_all (n : Nat) (l : ReadAt) : (Pc.read l n addr).returns (some addr.length) .idle = addr := by
  refine List.ext_getElem (by simp [Pc.returns]) fun i h1 h2 => ?_
  simp [Pc.returns, List.getElem?_eq_getElem h2]

section

variable (h : Owned s)
include h

theorem Owned.pipewrite {i : Nat} {l : WriteAt} (hpc : s.pc t = .write l addr i) (hst : pipewrite s t addr i l = some s') :
    Tracks s t s' := by
  cases l with
  | acquire | woken => exact h.acquire hpc hst trivial rfl (stores_self ..) fun _ => rfl
  | asleep => cases hst
  | loop =>
    cases hst
    exact h.go hpc rfl trivial rfl (stores_self ..) fun _ => rfl
  | full =>
    simp only [Pipe.pipewrite] at hst
    split at hst
    · split at hst <;> cases hst <;> exact h.go hpc rfl trivial rfl (stores_self ..) fun _ => rfl
    · rename_i hf
      cases hst
      have hone : (Pc.write .full addr i).stores (.write .loop addr (i + 1)) = [addr.getD i 0] := by simp [Pc.stores]
      refine h.tracks hpc rfl rfl rfl trivial fun hc => ?_
      rw [hone]
      exact .put _ hf ⟨rfl, rfl, rfl⟩ (by rw [hc, h.copied_eq hpc rfl]; rfl)
  | wake | done =>
    cases hst
    exact h.go_wakeup hpc rfl .nread trivial rfl (stores_self ..) fun _ => rfl
  | sleep =>
    cases hst
    exact h.leave hpc rfl rfl rfl rfl trivial rfl (stores_self ..) rfl
  | release | fail =>
    cases hst
    exact h.return' hpc rfl _ rfl rfl

theorem Owned.piperead {n : Nat} {l : ReadAt} (hpc : s.pc t = .read l n addr) (hst : piperead s t n addr l = some s') :
    Tracks s t s' := by
  have hfr : (Pc.read l n addr).Fresh := hpc ▸ h.fresh t
  cases l with
  | acquire | woken => exact h.acquire hpc hst (fun _ => hfr (by decide)) rfl rfl fun _ => rfl
  | asleep => cases hst
  | empty =>
    obtain rfl : addr = [] := hfr (by decide)
    simp only [Pipe.piperead] at hst
    split at hst <;> cases hst
    · exact h.go hpc rfl (fun _ => rfl) (by split <;> rfl) rfl fun _ => rfl
    · exact h.go hpc rfl (fun _ => rfl) rfl rfl fun _ => rfl
  | copy =>
    simp only [Pipe.piperead] at hst
    split at hst <;> cases hst
    · rename_i hc
      refine h.tracks hpc rfl rfl rfl (fun hl => absurd (by decide) hl) fun hcop => ?_
      exact .take hc.2 ⟨rfl, rfl, rfl⟩ (by rw [hcop, h.copied_eq hpc rfl]; rfl)
    · exact h.go hpc rfl (fun hl => absurd (by decide) hl) rfl rfl fun _ => rfl
  | sleep =>
    cases hst
    obtain rfl : addr = [] := hfr (by decide)
    exact h.leave hpc rfl rfl rfl rfl (fun _ => rfl) rfl rfl rfl
  | done =>
    cases hst
    exact h.go_wakeup hpc rfl .nwrite (fun hl => absurd (by decide) hl) rfl rfl fun _ => rfl
  | release =>
    cases hst
    exact h.return' hpc rfl _ rfl (returns_all ..)
  | fail =>
    cases hst
    exact h.return' hpc rfl _ rfl rfl

theorem Owned.pipeclose {writable : Bool} {l : CloseAt} (hpc : s.pc t = .close l writable)
    (hst : pipeclose s t writable l = some s') : Tracks s t s' := by
  cases l with
  | acquire => exact h.acquire hpc hst trivial rfl rfl fun _ => rfl
  | clear =>
    cases hst
    refine h.tracks hpc rfl rfl rfl trivial fun hc => ?_
    exact .same (by cases writable <;> exact ⟨rfl, rfl, rfl⟩) (by rw [hc, h.copied_eq hpc rfl]; rfl)
  | wake =>
    cases hst
    exact h.go_wakeup hpc rfl _ trivial rfl rfl fun _ => rfl
  | release =>
    cases hst
    exact h.return' hpc rfl _ rfl rfl

/-- A step of a process that is not inside `p->lock`, and does not take it. -/
theorem Owned.aside (hf : pc.Fresh) (hi : pc.inside = (s.pc t).inside) (hc : pc.copied = (s.pc t).copied) (hl : s'.lock = s.lock)
    (hs : s'.pc = Function.update s.pc t pc) (hq : s'.pipe = s.pipe) : Owned s' ∧ Moves s s' [] [] := by
  refine ⟨h.update hs hf (fun hp => ?_) (.inl hl), .same ⟨by rw [hq], by rw [hq], by rw [hq]⟩ (copied_update hs hl hc).symm⟩
  rw [hl]
  exact h.inside t (hi ▸ hp)

end

structure Fifo (x : Traffic) : Prop where
  owned : Owned x.state
  holds : ∃ k, Holds x k

theorem fifo_pipealloc (page : Bytes PIPESIZE) : Fifo ⟨pipealloc page, [], []⟩ :=
  ⟨⟨fun _ hu => absurd hu Bool.false_ne_true, fun _ => trivial⟩, 0, by decide, rfl, rfl⟩

theorem Fifo.next {x' : Traffic} {a : Act} (h : Fifo x) (hst : x.step a = some x') : Fifo x' := by
  obtain ⟨k, hk⟩ := h.holds
  obtain ⟨s', hs, hx⟩ := Option.map_eq_some_iff.mp hst
  have hself : (s' : State) → Owned s' ∧ Moves x.state s' [] [] → Fifo { x with state := s' } := fun s' hm => by
    have := hk.next hm.2
    simp only [List.append_nil] at this
    exact ⟨hm.1, this⟩
  cases a with
  | write t addr | read t n | close t writable =>
    subst hx
    simp only [Pipe.step, begin] at hs
    split at hs <;> cases hs
    rename_i hpc
    exact hself _ (h.owned.aside (by first | trivial | exact fun _ => rfl) (by rw [hpc]; rfl) (by rw [hpc]; rfl) rfl rfl rfl)
  | kill t =>
    subst hx
    cases hs
    exact hself _ (h.owned.aside (fresh_rouse (h.owned.fresh t)) (inside_rouse _) (copied_rouse _) rfl rfl rfl)
  | go t =>
    subst hx
    have ht : Tracks x.state t s' := by
      simp only [Pipe.step, Pipe.go] at hs
      split at hs
      · cases hs
      · exact h.owned.pipewrite ‹_› hs
      · exact h.owned.piperead ‹_› hs
      · exact h.owned.pipeclose ‹_› hs
    exact ⟨ht.owned, hk.next ht.moves⟩

end Xv6.Pipe
