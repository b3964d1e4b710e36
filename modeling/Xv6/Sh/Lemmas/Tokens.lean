import Xv6.Sh.Grammar

/-! # Offsets and tokens -/

namespace Xv6.Sh

open List

variable {buf : Str} {s es k : Nat} {f : BitVec 8 → Bool}

structure Cstr (buf : Str) (es : Nat) : Prop where
  nonzero : ∀ i < es, buf.getD i 0 ≠ 0
  nul : buf.getD es 0 = 0

theorem takeWhile_spec {α : Type} (f : α → Bool) (l : List α) (x : α) :
    (∀ i < (l.takeWhile f).length, f (l.getD i x) = true) ∧
      ((l.takeWhile f).length < l.length → f (l.getD (l.takeWhile f).length x) = false) := by
  induction l with
  | nil => exact ⟨nofun, nofun⟩
  | cons a l ih =>
    by_cases ha : f a = true
    · rw [takeWhile_cons_of_pos ha]
      refine ⟨fun i hi => ?_, fun hl => ?_⟩
      · cases i with
        | zero => exact ha
        | succ i => exact ih.1 i (Nat.lt_of_succ_lt_succ hi)
      · exact ih.2 (Nat.lt_of_succ_lt_succ hl)
    · rw [takeWhile_cons_of_neg ha]
      exact ⟨nofun, fun _ => by simpa using ha⟩

theorem cstr_strlen (buf : Str) : Cstr buf (strlen buf) := by
  obtain ⟨h1, h2⟩ := takeWhile_spec (fun c => decide (c ≠ 0)) buf 0
  refine ⟨fun i hi => by simpa using h1 i hi, ?_⟩
  by_cases hl : strlen buf < buf.length
  · exact of_not_not (of_decide_eq_false (h2 hl))
  · rw [getD_eq_getElem?_getD, getElem?_eq_none (not_lt.mp hl)]
    rfl

section

variable (h : Cstr buf es)
include h

theorem Cstr.le_length : es ≤ buf.length := by
  by_contra hl
  refine h.nonzero buf.length (by omega) ?_
  rw [getD_eq_getElem?_getD, getElem?_eq_none le_rfl]
  rfl

theorem Cstr.lt (hs : s ≤ es) (hz : buf.getD s 0 ≠ 0) : s < es := by
  rcases Nat.lt_or_eq_of_le hs with hlt | rfl
  · exact hlt
  · exact absurd h.nul hz

/-! ## `skip` -/

theorem Cstr.skip_spec (hs : s ≤ es) (f : BitVec 8 → Bool) :
    s ≤ skip buf f s es ∧ skip buf f s es ≤ es ∧ (skip buf f s es < es → f (buf.getD (skip buf f s es) 0) = false) := by
  have hl := h.le_length
  have hlen : ((buf.take es).drop s).length = es - s := by
    rw [length_drop, length_take]
    omega
  have hget (i : Nat) (hi : i < es - s) : ((buf.take es).drop s).getD i 0 = buf.getD (s + i) 0 := by
    rw [getD_eq_getElem?_getD, getElem?_drop, getElem?_take_of_lt (by omega), ← getD_eq_getElem?_getD]
  have hle := ( takeWhile_prefix f (l := (buf.take es).drop s)).length_le
  have hspec := (takeWhile_spec f ((buf.take es).drop s) 0).2
  unfold skip
  refine ⟨by omega, by omega, fun hlt => ?_⟩
  rw [← hget _ (by omega)]
  exact hspec (by omega)

theorem Cstr.skip_self (hf : s < es → f (buf.getD s 0) = false) : skip buf f s es = s := by
  unfold skip
  have hl := h.le_length
  by_cases hs : s < es
  · have hcons : (buf.take es).drop s = buf.getD s 0 :: (buf.take es).drop (s + 1) := by
      rw [drop_eq_getElem_cons (by rw [length_take]; omega), getElem_take, getD_eq_getElem?_getD,
        getElem?_eq_getElem (by omega), Option.getD_some]
    rw [hcons, takeWhile_cons_of_neg (by rw [hf hs]; nofun)]
    rfl
  · rw [drop_eq_nil_of_le (by rw [length_take]; omega)]
    rfl

theorem Cstr.skipWs_le (hs : s ≤ es) : s ≤ skipWs buf s es ∧ skipWs buf s es ≤ es :=
  ⟨(h.skip_spec hs _).1, (h.skip_spec hs _).2.1⟩

theorem Cstr.skipWs_skipWs (hs : s ≤ es) : skipWs buf (skipWs buf s es) es = skipWs buf s es :=
  h.skip_self (h.skip_spec hs _).2.2

end

/-! ## `gettoken` -/

def first (c : BitVec 8) : BitVec 8 := if c = ch '+' then ch '>' else c

theorem mem_plain : ∀ c, c ∈ str "|();&<" → c ∈ str "|();&<>+" ∧ c = first c := by decide

theorem mem_append : ch '+' ∈ str "|();&<>+" ∧ ch '>' = first (ch '+') := by decide

theorem mem_output : ch '>' ∈ str "|();&<>+" ∧ ch '>' = first (ch '>') := by decide

theorem not_mem_symbols : ∀ c, c ∉ str "|();&<" → c ≠ ch '>' → c ∉ symbols := by decide

theorem Cstr.token (h : Cstr buf es) (hs : s ≤ es) :
    skipWs buf s es = es ∧ (gettoken buf s es).ret = 0 ∧ (gettoken buf s es).s = es ∨
    skipWs buf s es < es ∧ skipWs buf s es < (gettoken buf s es).s ∧ (gettoken buf s es).s ≤ es ∧
      skipWs buf (gettoken buf s es).s es = (gettoken buf s es).s ∧
      ((gettoken buf s es).ret = ch 'a' ∧ buf.getD (skipWs buf s es) 0 ∉ symbols ∨
        (gettoken buf s es).ret ∈ str "|();&<>+" ∧ buf.getD (skipWs buf s es) 0 = first (gettoken buf s es).ret) := by
  obtain ⟨hq1, hq2⟩ := h.skipWs_le hs
  have hws := (h.skip_spec hs (· ∈ whitespace)).2.2
  change skipWs buf s es < es → decide (buf.getD (skipWs buf s es) 0 ∈ whitespace) = false at hws
  have hend {e : Nat} (he : e ≤ es) := h.skipWs_le he
  unfold gettoken
  generalize skipWs buf s es = q at hq1 hq2 hws ⊢
  dsimp only
  split
  · rename_i hz
    have hqe : q = es := by
      by_contra hne
      exact h.nonzero q (by omega) hz
    refine .inl ⟨hqe, hz, ?_⟩
    subst hqe
    exact h.skip_self fun hlt => absurd hlt (lt_irrefl _)
  · rename_i hz
    have hlt : q < es := h.lt hq2 hz
    refine .inr ⟨hlt, ?_⟩
    split
    · rename_i hc
      obtain ⟨h1, h2⟩ := hend (e := q + 1) hlt
      obtain ⟨h3, h4⟩ := mem_plain _ hc
      exact ⟨by dsimp only; omega, h2, h.skipWs_skipWs hlt, .inr ⟨h3, h4⟩⟩
    · rename_i hc
      split
      · rename_i hgt
        split
        · rename_i hgt'
          have hlt' : q + 1 < es := h.lt hlt (by rw [hgt']; decide)
          obtain ⟨h1, h2⟩ := hend (e := q + 2) hlt'
          exact ⟨by dsimp only; omega, h2, h.skipWs_skipWs hlt', .inr ⟨mem_append.1, hgt.trans mem_append.2⟩⟩
        · obtain ⟨h1, h2⟩ := hend (e := q + 1) hlt
          refine ⟨by dsimp only; omega, h2, h.skipWs_skipWs hlt, .inr ?_⟩
          dsimp only
          rw [hgt]
          exact mem_output
      · rename_i hgt
        have hsym := not_mem_symbols _ hc hgt
        obtain ⟨h3, h4, h5⟩ := h.skip_spec hq2 (fun c => decide (c ∉ whitespace ∧ c ∉ symbols))
        generalize skip buf (fun c => decide (c ∉ whitespace ∧ c ∉ symbols)) q es = eq at h3 h4 h5 ⊢
        have hne : q ≠ eq := by
          rintro rfl
          have := h5 hlt
          simp only [decide_eq_false_iff_not, not_and_or, Decidable.not_not] at this
          rcases this with hw | hw
          · exact absurd hw (of_decide_eq_false (hws hlt))
          · exact hsym hw
        obtain ⟨h1, h2⟩ := hend h4
        refine ⟨by dsimp only; omega, h2, h.skipWs_skipWs h4, .inl ⟨rfl, hsym⟩⟩

theorem gettoken_skipWs (h : Cstr buf es) (hs : s ≤ es) : gettoken buf (skipWs buf s es) es = gettoken buf s es := by
  unfold gettoken
  rw [h.skipWs_skipWs hs]

/-! ## The tokens from an offset on -/

theorem Cstr.tokens_fuel (h : Cstr buf es) {k' : Nat} (hs : s ≤ es) (hk : es < s + k) (hk' : es < s + k') :
    tokens buf es k s = tokens buf es k' s := by
  induction k generalizing s k' with
  | zero => omega
  | succ k ih =>
    cases k' with
    | zero => omega
    | succ k' =>
      simp only [tokens]
      rcases h.token hs with ⟨-, hr, -⟩ | ⟨-, h1, h2, -⟩
      · rw [if_pos hr, if_pos hr]
      · have := (h.skipWs_le hs).1
        rw [ih h2 (by omega) (by omega : es < (gettoken buf s es).s + k')]

def toks (buf : Str) (es s : Nat) : List Tok := tokens buf es (es + 1) s

variable {ts : List Tok} {c : BitVec 8} {q eq : Nat} {set : Str}

section

variable (h : Cstr buf es) (hs : s ≤ es)
include h hs

theorem Cstr.toks_skipWs : toks buf es (skipWs buf s es) = toks buf es s := by
  simp only [toks, tokens]
  rw [gettoken_skipWs h hs]

theorem Cstr.toks_eq :
    toks buf es s = [] ∧ (gettoken buf s es).ret = 0 ∧ skipWs buf s es = es ∧ (gettoken buf s es).s = es ∨
    (gettoken buf s es).s ≤ es ∧ s < (gettoken buf s es).s ∧ skipWs buf s es < es ∧
      ((gettoken buf s es).ret = ch 'a' ∧ buf.getD (skipWs buf s es) 0 ∉ symbols ∧
          toks buf es s = .word (gettoken buf s es).q (gettoken buf s es).eq :: toks buf es (gettoken buf s es).s ∨
        (gettoken buf s es).ret ∈ str "|();&<>+" ∧ buf.getD (skipWs buf s es) 0 = first (gettoken buf s es).ret ∧
          toks buf es s = .sym (gettoken buf s es).ret :: toks buf es (gettoken buf s es).s) := by
  have hle := (h.skipWs_le hs).1
  rcases h.token hs with ⟨hq, hr, he⟩ | ⟨hq, h1, h2, -, hr⟩
  · exact .inl ⟨by simp only [toks, tokens, if_pos hr], hr, hq, he⟩
  · have hfuel : tokens buf es es (gettoken buf s es).s = toks buf es (gettoken buf s es).s :=
      h.tokens_fuel h2 (by omega) (by omega)
    refine .inr ⟨h2, by omega, hq, ?_⟩
    rcases hr with ⟨hr, hc⟩ | ⟨hr, hc⟩
    · refine .inl ⟨hr, hc, ?_⟩
      rw [toks, tokens, ← hfuel]
      rw [if_neg (by rw [hr]; decide), if_pos hr]
    · refine .inr ⟨hr, hc, ?_⟩
      rw [toks, tokens, ← hfuel]
      rw [if_neg (fun h0 => absurd (h0 ▸ hr) (by decide)), if_neg (fun h0 => absurd (h0 ▸ hr) (by decide))]

theorem Cstr.toks_nil (ht : toks buf es s = []) : (gettoken buf s es).ret = 0 ∧ skipWs buf s es = es ∧ (gettoken buf s es).s = es := by
  rcases h.toks_eq hs with ⟨-, hr⟩ | ⟨-, -, -, ⟨-, -, he⟩ | ⟨-, -, he⟩⟩
  · exact hr
  · cases ht.symm.trans he
  · cases ht.symm.trans he

theorem Cstr.toks_word (ht : toks buf es s = .word q eq :: ts) :
    (gettoken buf s es).ret = ch 'a' ∧ (gettoken buf s es).q = q ∧ (gettoken buf s es).eq = eq ∧
      (gettoken buf s es).s ≤ es ∧ toks buf es (gettoken buf s es).s = ts := by
  rcases h.toks_eq hs with ⟨he, -⟩ | ⟨hle, -, -, ⟨hr, -, he⟩ | ⟨-, -, he⟩⟩
  · cases ht.symm.trans he
  · cases ht.symm.trans he
    exact ⟨hr, rfl, rfl, hle, rfl⟩
  · cases ht.symm.trans he

theorem Cstr.toks_sym (ht : toks buf es s = .sym c :: ts) :
    (gettoken buf s es).ret = c ∧ c ∈ str "|();&<>+" ∧ (gettoken buf s es).s ≤ es ∧ toks buf es (gettoken buf s es).s = ts := by
  rcases h.toks_eq hs with ⟨he, -⟩ | ⟨hle, -, -, ⟨hr, -, he⟩ | ⟨hr, -, he⟩⟩
  · cases ht.symm.trans he
  · cases ht.symm.trans he
  · cases ht.symm.trans he
    exact ⟨rfl, hr, hle, rfl⟩

theorem Cstr.length_toks : (toks buf es s).length ≤ es - s := by
  generalize hn : es - s = n
  induction n using Nat.strong_induction_on generalizing s with
  | _ n ih =>
    have hrec (hle : (gettoken buf s es).s ≤ es) (hlt : s < (gettoken buf s es).s) :
        (toks buf es (gettoken buf s es).s).length + 1 ≤ n := by
      have := ih (es - (gettoken buf s es).s) (by omega) hle rfl
      omega
    rcases h.toks_eq hs with ⟨he, -⟩ | ⟨hle, hlt, -, ⟨-, -, he⟩ | ⟨-, -, he⟩⟩
    · rw [he]
      exact Nat.zero_le _
    · rw [he]
      exact hrec hle hlt
    · rw [he]
      exact hrec hle hlt

end

/-! ## `peek` -/

local instance lawfulByte : LawfulBEq (BitVec 8) := inferInstance

def opens (set : Str) : List Tok → Bool
  | .sym c :: _ => first c ∈ set
  | _ => false

theorem Cstr.peek_eq (h : Cstr buf es) (hs : s ≤ es) (set : Str) (hset : ∀ c ∈ set, c ∈ symbols) :
    ∃ s', peek buf s es set = (opens set (toks buf es s), s') ∧ toks buf es s' = toks buf es s ∧ s' ≤ es := by
  refine ⟨skipWs buf s es, Prod.ext ?_ rfl, h.toks_skipWs hs, (h.skipWs_le hs).2⟩
  simp only [peek]
  rcases h.toks_eq hs with ⟨he, -, hq, -⟩ | ⟨-, -, hq, ⟨-, hc, he⟩ | ⟨-, hc, he⟩⟩
  · rw [he, hq, h.nul]
    simp [opens]
  · rw [he]
    simp only [opens, decide_eq_false_iff_not]
    exact fun hm => hc (hset _ hm.2)
  · rw [he]
    simp only [opens, hc]
    have hz := h.nonzero _ hq
    rw [hc] at hz
    simp only [hz, ne_eq, not_false_eq_true, true_and]

end Xv6.Sh
