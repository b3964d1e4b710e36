import Xv6.Console.Lemmas.Stream

/-! # Reads take the stream apart -/

namespace Xv6.Console

open Xv6.Lib Function List

variable {s : State} {a : Edited} {c : BitVec 8} {q : List (BitVec 8)} {p id target n : Nat} {got : List (BitVec 8)}

/-! ## The stream -/

namespace Edited

@[simp] theorem taken_key (a : Edited) (c : BitVec 8) : (a.key c).taken = a.taken := by
  simp only [key, accept, enter, type]
  split_ifs <;> rfl

theorem text_key (a : Edited) (c : BitVec 8) : a.text <+: (a.key c).text := by
  simp only [key, accept, enter, type]
  split_ifs <;> simp

theorem text_key_edits (a : Edited) (h : Edits c) : (a.key c).text = a.text := by
  simp only [key]
  rcases h with rfl | rfl | rfl | rfl <;> simp [C, DEL]

@[simp] theorem taken_keys (a : Edited) (cs : List (BitVec 8)) : (cs.foldl key a).taken = a.taken := by
  induction cs generalizing a with
  | nil => rfl
  | cons c cs ih => simp [ih]

theorem text_keys (a : Edited) (cs : List (BitVec 8)) : a.text <+: (cs.foldl key a).text := by
  induction cs generalizing a with
  | nil => exact prefix_rfl
  | cons c cs ih => exact (a.text_key c).trans (ih _)

theorem text_keys_edits {cs : List (BitVec 8)} (a : Edited) (h : ∀ c ∈ cs, Edits c) : (cs.foldl key a).text = a.text := by
  induction cs generalizing a with
  | nil => rfl
  | cons c cs ih =>
    rw [foldl_cons, ih _ fun d hd => h d (.tail _ hd)]
    exact a.text_key_edits (h c (.head _))

theorem foldl_event_key (a : Edited) (cs : List (BitVec 8)) : (cs.map Ev.key).foldl event a = cs.foldl key a := by
  simp only [foldl_map]
  rfl

end Edited

theorem take_succ_of_drop {t : List (BitVec 8)} {k : Nat} (h : t.drop k = c :: q) :
    t.take (k + 1) = t.take k ++ [c] ∧ t.drop (k + 1) = q ∧ t[k]? = some c ∧ k + 1 ≤ t.length := by
  have hk : t[k]? = some c := by rw [← List.head?_drop, h]; rfl
  refine ⟨?_, ?_, hk, (List.getElem?_eq_some_iff.mp hk).1⟩
  · rw [List.take_add_one, hk]; rfl
  · rw [← List.tail_drop, h]; rfl

theorem Ended.mono {t t' : List (BitVec 8)} {x : Ret} (h : Ended t x) (hp : t <+: t') : Ended t' x := by
  have hm : ∀ i, t[i]? = some (C 'D') → t'[i]? = some (C 'D') := fun i hi => by
    obtain ⟨hlt, he⟩ := getElem?_eq_some_iff.mp hi
    rw [← he]
    exact prefix_iff_getElem?.mp hp i hlt
  refine ⟨h.le, h.newline, h.eof, ?_⟩
  rcases h.stop with hs | hs | ⟨hg, ht⟩ | ⟨hg, hpos, ht⟩
  · exact .inl hs
  · exact .inr (.inl hs)
  · exact .inr (.inr (.inl ⟨hg, hm _ ht⟩))
  · exact .inr (.inr (.inr ⟨hg, hpos, hm _ ht⟩))

namespace State

theorem countP_isTake (s : State) : s.events.countP Ev.isTake = s.stream.taken := by
  suffices h : ∀ (es : List Ev) (a : Edited), (es.foldl Edited.event a).taken = a.taken + es.countP Ev.isTake by
    simpa [stream, edited] using (h s.events ⟨[], [], 0⟩).symm
  intro es
  induction es with
  | nil => simp
  | cons e es ih =>
    intro a
    cases e with
    | key c => simp [ih, Edited.event, Ev.isTake]
    | take => simp [ih, Edited.event, countP_cons, Ev.isTake, add_assoc, add_comm 1]

theorem stream_take (s : State) : s.take.stream = { s.stream with taken := s.stream.taken + 1 } := by
  simp only [stream, take, edited, foldl_append]
  rfl

theorem bytes_deliver_self (s : State) (id : Nat) (c : BitVec 8) : (s.deliver id c).bytes id = s.bytes id ++ [c] := by
  simp [bytes, deliver]

theorem bytes_deliver_ne (s : State) {id id' : Nat} (c : BitVec 8) (h : id' ≠ id) : (s.deliver id c).bytes id' = s.bytes id' := by
  simp [bytes, deliver, h.symm]

theorem putBack_eq (s : State) : s.putBack = s := by
  simp [putBack]

end State

/-! ## The invariant -/

def Plain (l : List (BitVec 8)) : Prop := ∀ c ∈ l, c ≠ NEWLINE ∧ c ≠ C 'D'

structure Inv (s : State) : Prop where
  follows : Follows s.input s.stream
  delivered : s.delivered.map Prod.snd = (s.stream.text.take s.stream.taken).filter (· ≠ C 'D')
  ids : ∀ d ∈ s.delivered, d.1 < s.calls
  asleep : ∀ p x, s.asleep p = some x → x.id < s.calls ∧ x.got.length < x.target ∧ x.got = s.bytes x.id ∧ Plain x.got
  apart : ∀ p p' x x', s.asleep p = some x → s.asleep p' = some x' → x.id = x'.id → p = p'
  returned : ∀ x ∈ s.returned, x.id < s.calls ∧ x.got = s.bytes x.id ∧ Ended s.stream.text x
  once : ∀ x ∈ s.returned, ∀ p y, s.asleep p = some y → y.id ≠ x.id
  eofs : (s.stream.text.take s.stream.taken).count (C 'D') = s.returned.countP Ret.isEof

structure Runs (s : State) (id : Nat) : Prop where
  lt : id < s.calls
  asleep : ∀ p x, s.asleep p = some x → x.id ≠ id
  returned : ∀ x ∈ s.returned, x.id ≠ id

theorem inv_start (buf : Bytes INPUT_BUF) : Inv (start buf) where
  follows := ⟨Nat.le_refl 0, Nat.zero_le _, rfl, rfl, rfl, fun _ hc => by cases hc⟩
  delivered := rfl
  ids := by simp [start]
  asleep := by simp [start]
  apart := by simp [start]
  returned := by simp [start]
  once := by simp [start]
  eofs := rfl

namespace Inv

section

variable (h : Inv s)
include h

theorem intr (cs : List (BitVec 8)) : Inv { s with input := s.input.consoleintr cs, events := s.events ++ cs.map .key } := by
  have hst : edited (s.events ++ cs.map .key) = cs.foldl Edited.key s.stream := by
    rw [edited, foldl_append, Edited.foldl_event_key]
    rfl
  have ht : (edited (s.events ++ cs.map .key)).text.take (edited (s.events ++ cs.map .key)).taken =
      s.stream.text.take s.stream.taken := by
    obtain ⟨t, ht⟩ := Edited.text_keys s.stream cs
    rw [hst, Edited.taken_keys, ← ht, take_append_of_le_length h.follows.taken]
  have hp : s.stream.text <+: (edited (s.events ++ cs.map .key)).text := hst ▸ Edited.text_keys _ _
  exact
    { h with
      follows := (hst ▸ h.follows.consoleintr cs :)
      delivered := by rw [h.delivered, ← ht]; rfl
      returned := fun x hx => ⟨(h.returned x hx).1, (h.returned x hx).2.1, (h.returned x hx).2.2.mono hp⟩
      eofs := by rw [← h.eofs, ← ht]; rfl }

theorem kill (p : Nat) : Inv { s with killed := update s.killed p true } := { h with }

theorem follows_take (hd : s.stream.text.drop s.stream.taken = c :: q) :
    Follows s.take.input { s.stream with taken := s.stream.taken + 1 } := by
  obtain ⟨-, hq, -, hle⟩ := take_succ_of_drop hd
  refine ⟨hle, ?_⟩
  change Holds { s.input with r := s.input.r + 1 } (s.stream.text.drop (s.stream.taken + 1)) s.stream.line
  rw [hq]
  exact (hd ▸ h.follows.holds).take.2

theorem once_snoc {y : Ret} (hr : Runs s y.id) : ∀ x ∈ s.returned ++ [y], ∀ p z, s.asleep p = some z → z.id ≠ x.id := by
  intro x hx p z hz
  rcases mem_append.mp hx with hx | hx
  · exact h.once x hx p z hz
  · rw [mem_singleton.mp hx]
    exact hr.asleep p z hz

/-- A byte other than `C('D')` goes to a call. -/
theorem deliver (hr : Runs s id) (hd : s.stream.text.drop s.stream.taken = c :: q) (hc : c ≠ C 'D') : Inv (s.take.deliver id c) := by
  obtain ⟨ht, -⟩ := take_succ_of_drop hd
  have hst : (s.take.deliver id c).stream = { s.stream with taken := s.stream.taken + 1 } := s.stream_take
  have hb : ∀ id', id' ≠ id → (s.take.deliver id c).bytes id' = s.bytes id' := fun id' hne =>
    s.take.bytes_deliver_ne c hne
  refine { h with follows := hst ▸ h.follows_take hd, delivered := ?_, ids := ?_, asleep := ?_, returned := ?_, eofs := ?_ }
  · rw [hst]
    change (s.delivered ++ [(id, c)]).map Prod.snd = (s.stream.text.take (s.stream.taken + 1)).filter _
    rw [ht, map_append, filter_append, h.delivered]
    simp [hc]
  · intro d hd
    rcases mem_append.mp hd with hd | hd
    · exact h.ids d hd
    · rw [mem_singleton.mp hd]; exact hr.lt
  · intro p x hx
    obtain ⟨hlt, hl, hg, hp⟩ := h.asleep p x hx
    exact ⟨hlt, hl, by rw [hb _ (hr.asleep p x hx)]; exact hg, hp⟩
  · intro x hx
    obtain ⟨hlt, hg, he⟩ := h.returned x hx
    refine ⟨hlt, by rw [hb _ (hr.returned x hx)]; exact hg, ?_⟩
    rw [hst]
    exact he
  · rw [hst]
    change (s.stream.text.take (s.stream.taken + 1)).count (C 'D') = s.returned.countP Ret.isEof
    rw [ht, count_append, h.eofs]
    simp [hc]

theorem return' {x : Call} (hr : Runs s x.id) (hg : x.got = s.bytes x.id)
    (he : Ended s.stream.text ⟨x, s.stream.taken⟩) (hn : ¬ (0 < x.target ∧ x.got = [])) : Inv (s.return' x) := by
  refine { h with returned := ?_, once := h.once_snoc hr, eofs := ?_ }
  · intro y hy
    rcases mem_append.mp hy with hy | hy
    · exact h.returned y hy
    · rw [mem_singleton.mp hy, s.countP_isTake]
      exact ⟨hr.lt, hg, he⟩
  · change (s.stream.text.take s.stream.taken).count (C 'D') = (s.returned ++ [_]).countP Ret.isEof
    rw [countP_append, h.eofs]
    simp [Ret.isEof, hn]

/-- A read without data takes `C('D')` and returns 0. -/
theorem eof (hr : Runs s id) (hg : s.bytes id = []) (hpos : 0 < target)
    (hd : s.stream.text.drop s.stream.taken = C 'D' :: q) : Inv (s.take.return' ⟨id, target, []⟩) := by
  obtain ⟨ht, -, hk, -⟩ := take_succ_of_drop hd
  have hst : (s.take.return' ⟨id, target, []⟩).stream = { s.stream with taken := s.stream.taken + 1 } := s.stream_take
  refine { h with follows := hst ▸ h.follows_take hd, delivered := ?_, returned := ?_, once := h.once_snoc hr, eofs := ?_ }
  · rw [hst]
    change s.delivered.map Prod.snd = (s.stream.text.take (s.stream.taken + 1)).filter _
    rw [ht, filter_append, h.delivered]
    simp
  · intro y hy
    rw [hst]
    rcases mem_append.mp hy with hy | hy
    · exact h.returned y hy
    · rw [mem_singleton.mp hy, s.take.countP_isTake, s.stream_take]
      refine ⟨hr.lt, hg.symm, Nat.zero_le _, by simp, by simp, .inr (.inr (.inr ⟨rfl, Nat.succ_pos _, ?_⟩))⟩
      simpa using hk
  · rw [hst]
    change (s.stream.text.take (s.stream.taken + 1)).count (C 'D') = (s.returned ++ [_]).countP Ret.isEof
    rw [ht, count_append, countP_append, h.eofs]
    simp [Ret.isEof, hpos]

theorem sleep {x : Call} (hr : Runs s x.id) (hg : x.got = s.bytes x.id) (hp : Plain x.got)
    (hlt : x.got.length < x.target) : Inv (s.sleep p x) := by
  have hcases : ∀ {p' y}, (s.sleep p x).asleep p' = some y → (p' = p ∧ y = x) ∨ s.asleep p' = some y := by
    intro p' y hy
    by_cases hpp : p' = p
    · simp only [State.sleep, hpp, update_self, Option.some.injEq] at hy
      exact .inl ⟨hpp, hy.symm⟩
    · simp only [State.sleep, update_of_ne hpp] at hy
      exact .inr hy
  refine { h with asleep := ?_, apart := ?_, once := ?_ }
  · intro p' y hy
    rcases hcases hy with ⟨-, rfl⟩ | hy
    · exact ⟨hr.lt, hlt, hg, hp⟩
    · exact h.asleep p' y hy
  · intro p1 p2 x1 x2 h1 h2 he
    rcases hcases h1 with ⟨hp1, hx1⟩ | h1'
    · rcases hcases h2 with ⟨hp2, -⟩ | h2'
      · rw [hp1, hp2]
      · exact absurd (he.symm.trans (congrArg Call.id hx1)) (hr.asleep p2 x2 h2')
    · rcases hcases h2 with ⟨-, hx2⟩ | h2'
      · exact absurd (he.trans (congrArg Call.id hx2)) (hr.asleep p1 x1 h1')
      · exact h.apart p1 p2 x1 x2 h1' h2' he
  · intro y hy p' z hz
    rcases hcases hz with ⟨-, rfl⟩ | hz
    · exact (hr.returned y hy).symm
    · exact h.once y hy p' z hz

/-! ## The loop -/

theorem readLoop (hr : Runs s id) (hg : got = s.bytes id) (hp : Plain got) (hn : got.length + n = target) :
    Inv (readLoop p id target n got s) := by
  induction n generalizing s got with
  | zero =>
    refine h.return' hr hg ⟨hn.le, ?_, fun c hc => (hp c hc).2, .inl hn⟩ ?_
    · exact fun c hc => (hp c (mem_of_mem_dropLast hc)).1
    · rintro ⟨hpos, rfl⟩
      exact absurd hn hpos.ne
  | succ n ih =>
    rw [Console.readLoop]
    by_cases he : s.input.r = s.input.w
    · rw [if_pos he]
      split
      · exact h
      · exact h.sleep hr hg hp (Nat.lt_of_lt_of_eq (Nat.lt_add_of_pos_right n.succ_pos) hn)
    rw [if_neg he]
    obtain ⟨c, q, hd⟩ := exists_cons_of_ne_nil (mt h.follows.holds.r_eq_w.mpr he)
    obtain ⟨hc, -⟩ := (hd ▸ h.follows.holds).take
    simp only [hc]
    split
    · rename_i hD
      subst hD
      split
      · -- the read has data, and the C('D') stays
        rename_i hlt
        have hne : got ≠ [] := by
          rintro rfl
          simp at hn
          omega
        rw [s.putBack_eq]
        refine h.return' hr hg ⟨Nat.le.intro hn, ?_, fun c hc => (hp c hc).2, .inr (.inr (.inl ⟨hne, ?_⟩))⟩ ?_
        · exact fun c hc => (hp c (mem_of_mem_dropLast hc)).1
        · exact (take_succ_of_drop hd).2.2.1
        · exact fun h' => hne h'.2
      · rename_i hlt
        have hnil : got = [] := length_eq_zero_iff.mp (by omega)
        subst hnil
        exact h.eof hr hg.symm (by omega) hd
    · rename_i hD
      have h' := h.deliver hr hd hD
      have hr' : Runs (s.take.deliver id c) id := ⟨hr.lt, hr.asleep, hr.returned⟩
      have hg' : got ++ [c] = (s.take.deliver id c).bytes id := by
        rw [State.bytes_deliver_self, hg]
        rfl
      split
      · rename_i hN
        refine h'.return' hr' hg' ⟨?_, ?_, ?_, .inr (.inl ?_)⟩ (by simp)
        · simp only [length_append, length_singleton]
          omega
        · simpa using fun c hc => (hp c hc).1
        · intro b hb
          rcases mem_append.mp hb with hb | hb
          · exact (hp b hb).2
          · rw [mem_singleton.mp hb]; exact hD
        · simp [hN]
      · rename_i hN
        refine ih h' hr' hg' ?_ (by simp only [length_append, length_singleton]; omega)
        intro b hb
        rcases mem_append.mp hb with hb | hb
        · exact hp b hb
        · rw [mem_singleton.mp hb]; exact ⟨hN, hD⟩

theorem bytes_calls : s.bytes s.calls = [] := by
  simp only [State.bytes, map_eq_nil_iff, filter_eq_nil_iff]
  intro d hd
  have := h.ids d hd
  simp only [decide_eq_true_eq]
  omega

theorem consoleread (p : Nat) (n : Int) : Inv (consoleread s p n) := by
  have h' : Inv { s with calls := s.calls + 1 } :=
    { h with
      ids := fun d hd => Nat.lt_succ_of_lt (h.ids d hd)
      asleep := fun p x hx => ⟨Nat.lt_succ_of_lt (h.asleep p x hx).1, (h.asleep p x hx).2⟩
      returned := fun x hx => ⟨Nat.lt_succ_of_lt (h.returned x hx).1, (h.returned x hx).2⟩ }
  have hr : Runs { s with calls := s.calls + 1 } s.calls :=
    ⟨Nat.lt_succ_self _, fun p x hx => (h.asleep p x hx).1.ne, fun x hx => (h.returned x hx).1.ne⟩
  exact h'.readLoop hr h.bytes_calls.symm (by simp [Plain]) (by simp)

theorem wake {x : Call} (hx : s.asleep p = some x) : Inv (wake s p x) := by
  obtain ⟨hid, hlt, hg, hp⟩ := h.asleep p x hx
  have hof : ∀ {p' y}, update s.asleep p none p' = some y → p' ≠ p ∧ s.asleep p' = some y := by
    intro p' y hy
    by_cases hpp : p' = p
    · rw [hpp, update_self] at hy
      cases hy
    · rw [update_of_ne hpp] at hy
      exact ⟨hpp, hy⟩
  have h' : Inv { s with asleep := update s.asleep p none } :=
    { h with
      asleep := fun p' y hy => h.asleep p' y (hof hy).2
      apart := fun p1 p2 x1 x2 h1 h2 => h.apart p1 p2 x1 x2 (hof h1).2 (hof h2).2
      once := fun y hy p' z hz => h.once y hy p' z (hof hz).2 }
  have hr : Runs { s with asleep := update s.asleep p none } x.id :=
    ⟨hid, fun p' y hy he => (hof hy).1 (h.apart p' p y x (hof hy).2 hx he), fun y hy => (h.once y hy p x hx).symm⟩
  exact h'.readLoop hr hg hp (Nat.add_sub_cancel' hlt.le)

theorem step {s' : State} {a : Act} (hs : step s a = some s') : Inv s' := by
  cases a with
  | intr cs =>
    obtain rfl := Option.some.inj hs
    exact h.intr cs
  | read p n =>
    rw [Console.step] at hs
    split at hs
    · obtain rfl := Option.some.inj hs
      exact h.consoleread p n
    · cases hs
  | wake p =>
    obtain ⟨x, hx, rfl⟩ := Option.map_eq_some_iff.mp hs
    exact h.wake hx
  | kill p =>
    obtain rfl := Option.some.inj hs
    exact h.kill p

end

end Inv

end Xv6.Console
