import Xv6.Lib.Trans
import Xv6.Console.Lemmas.Reads

/-! # Theorems about console input -/

namespace Xv6.Console

open Xv6.Lib List Prod

variable {buf : Bytes INPUT_BUF} {s : State}

def Reached (buf : Bytes INPUT_BUF) : State → Prop := Reach (· = start buf) step fun _ _ => True

theorem Reached.inv (h : Reached buf s) : Inv s := by
  refine Reach.inv ?_ (fun s a s' hs _ hst => hs.step hst) h
  rintro _ rfl
  exact inv_start buf

/-! ## Keys -/

@[simp] theorem Input.r_killLine (i : Input) (k : Nat) : (i.killLine k).r = i.r := by
  induction k generalizing i with
  | zero => rfl
  | succ k ih =>
    rw [killLine]
    split
    · exact ih _
    · rfl

theorem Input.r_key (i : Input) (c : BitVec 8) : (i.key c).r = i.r := by
  simp only [key]
  split_ifs <;> simp [put]

theorem Input.r_consoleintr (i : Input) (cs : List (BitVec 8)) : (i.consoleintr cs).r = i.r := by
  induction cs generalizing i with
  | nil => rfl
  | cons c cs ih => exact (ih _).trans (i.r_key c)

theorem Inv.unread_consoleintr (h : Inv s) (cs : List (BitVec 8)) :
    s.input.unread <+: (s.input.consoleintr cs).unread ∧
    ((∀ c ∈ cs, Edits c) → (s.input.consoleintr cs).unread = s.input.unread) := by
  rw [(h.follows.consoleintr cs).holds.unread, h.follows.holds.unread, Edited.taken_keys]
  constructor
  · exact (s.stream.text_keys cs).drop _
  · intro hc
    rw [s.stream.text_keys_edits hc]

/-! ## Reads -/

theorem filter_lt_append_filter_eq {m : Nat} {l : List (Nat × BitVec 8)} (h : ∀ d ∈ l, d.1 < m + 1)
    (ho : l.Pairwise (·.1 ≤ ·.1)) : l.filter (·.1 < m) ++ l.filter (·.1 = m) = l := by
  induction l with
  | nil => rfl
  | cons d l ih =>
    have hl : ∀ d' ∈ l, d'.1 < m + 1 := fun d' hd' => h d' (.tail _ hd')
    obtain ⟨hle, ho⟩ := pairwise_cons.mp ho
    by_cases hd : d.1 < m
    · simp [hd, hd.ne, ih hl ho]
    · -- from here on everything belongs to call `m`
      have heq : ∀ d' ∈ d :: l, d'.1 = m := by
        intro d' hd'
        have hlt := h d' hd'
        rcases mem_cons.mp hd' with rfl | hd'
        · omega
        · have := hle d' hd'
          omega
      rw [filter_eq_nil_iff.mpr fun d' hd' => by simp [heq d' hd'],
        filter_eq_self.mpr fun d' hd' => by simp [heq d' hd']]
      rfl

theorem flatMap_bytes (h : ∀ d ∈ s.delivered, d.1 < s.calls) (ho : s.delivered.Pairwise (·.1 ≤ ·.1)) :
    (range s.calls).flatMap s.bytes = s.delivered.map snd := by
  suffices hl : ∀ (m : Nat) (l : List (Nat × BitVec 8)), (∀ d ∈ l, d.1 < m) → l.Pairwise (·.1 ≤ ·.1) →
      (range m).flatMap (fun id => (l.filter (·.1 = id)).map snd) = l.map snd from
    hl s.calls s.delivered h ho
  intro m
  induction m with
  | zero =>
    intro l hlt _
    rw [eq_nil_iff_forall_not_mem.mpr fun d hd => Nat.not_lt_zero _ (hlt d hd)]
    rfl
  | succ m ih =>
    intro l hlt hs
    have hm := ih (l.filter (·.1 < m)) (by simp) (hs.filter _)
    have hid : ∀ id ∈ range m, ((l.filter (·.1 < m)).filter (·.1 = id)).map snd =
        (l.filter (·.1 = id)).map snd := by
      intro id hid
      rw [filter_filter]
      refine congrArg _ (filter_congr fun d _ => ?_)
      have := mem_range.mp hid
      by_cases hd : d.1 = id
      · simp [hd, this]
      · simp [hd]
    rw [flatMap_congr hid] at hm
    rw [range_succ, flatMap_append, hm, flatMap_singleton, ← map_append,
      filter_lt_append_filter_eq hlt hs]

theorem Inv.read_eof (h : Inv s) (hd : s.stream.text[s.stream.taken]? = some (C 'D')) {p : Nat} {n : Int} (hn : 0 < n)
    (hp : s.asleep p = none) :
    ∃ s', Console.step s (.read p n) = some s' ∧
      s'.returned = s.returned ++ [⟨⟨s.calls, n.toNat, []⟩, s.stream.taken + 1⟩] := by
  obtain ⟨q, hq⟩ : ∃ q, s.stream.text.drop s.stream.taken = C 'D' :: q := by
    obtain ⟨hlt, he⟩ := List.getElem?_eq_some_iff.mp hd
    exact ⟨_, he ▸ List.drop_eq_getElem_cons hlt⟩
  obtain ⟨k, hk⟩ : ∃ k, n.toNat = k + 1 := Nat.exists_eq_add_one.mpr (by omega)
  have hne : s.input.r ≠ s.input.w := fun he => by simpa [hq] using h.follows.holds.r_eq_w.mp he
  have hc : s.input.at' s.input.r = C 'D' := (hq ▸ h.follows.holds).take.1
  refine ⟨Console.consoleread s p n, ?_, ?_⟩
  · simp [Console.step, hp]
  · simp only [Console.consoleread, hk, Console.readLoop, if_neg hne, hc, if_true, lt_irrefl, if_false]
    simp only [State.return', State.countP_isTake, State.stream_take]
    rfl

/-- The three indices are in order and at most `INPUT_BUF` apart, also after they have wrapped around, and no key changes what is below
`w`. The reads have got the text up to a point, in order and without its `C('D')`, each of which made one read return 0. Every read
ended as it should. -/
theorem console_stream (h : Reached buf s) :
    (s.input.w - s.input.r).toNat ≤ (s.input.e - s.input.r).toNat ∧ (s.input.e - s.input.r).toNat ≤ INPUT_BUF ∧
    (∀ cs, (s.input.consoleintr cs).r = s.input.r ∧ s.input.unread <+: (s.input.consoleintr cs).unread ∧
      ((∀ c ∈ cs, Edits c) → (s.input.consoleintr cs).unread = s.input.unread)) ∧
    s.delivered.map snd = (s.stream.text.take s.stream.taken).filter (· ≠ C 'D') ∧
    (s.delivered.Pairwise (·.1 ≤ ·.1) → (range s.calls).flatMap s.bytes = s.delivered.map snd) ∧
    (∀ x ∈ s.returned, x.got = s.bytes x.id ∧ Ended s.stream.text x) ∧
    (s.stream.text.take s.stream.taken).count (C 'D') = s.returned.countP Ret.isEof ∧
    (s.stream.text[s.stream.taken]? = some (C 'D') → ∀ p n, 0 < n → s.asleep p = none → ∃ s',
      step s (.read p n) = some s' ∧ s'.returned = s.returned ++ [⟨⟨s.calls, n.toNat, []⟩, s.stream.taken + 1⟩]) := by
  have hi := h.inv
  refine ⟨?_, ?_, fun cs => ⟨s.input.r_consoleintr cs, hi.unread_consoleintr cs⟩, hi.delivered, flatMap_bytes hi.ids,
    fun x hx => (hi.returned x hx).2, hi.eofs, fun hd p n hn hp => hi.read_eof hd hn hp⟩
  · rw [hi.follows.holds.w_sub_r, hi.follows.holds.e_sub_r, length_append]
    exact Nat.le_add_right _ _
  · rw [hi.follows.holds.e_sub_r]
    exact hi.follows.holds.le

/-- Two lines with corrections, and two reads: the first has data when it comes to the `C('D')`. -/
theorem console_stream_two_reads :
    ∃ s, Reached (Bytes.fill INPUT_BUF 0) s ∧ s.returned.map (fun x => x.got) = [[97, 99, 10], [98], []] ∧
      s.delivered.map snd = (s.stream.text.take s.stream.taken).filter (· ≠ C 'D') := by
  have h0 : Reached (Bytes.fill INPUT_BUF 0) (start (Bytes.fill INPUT_BUF 0)) := .init rfl
  obtain ⟨s, hs, hp⟩ := Reach.of_runs
    [.read 1 5, .intr [97, 98, C 'H', 99, RETURN, 97, C 'U', 98, C 'D'], .wake 1, .read 2 5, .read 1 5]
    (fun s => s.returned.map (fun x => x.got) = [[97, 99, 10], [98], []]) h0 (by decide +kernel)
  exact ⟨s, hs, hp, (console_stream hs).2.2.2.1⟩

end Xv6.Console
