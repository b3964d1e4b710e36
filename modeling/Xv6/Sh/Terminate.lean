import Xv6.Sh.Theorems

/-!
# The words after `nulterminate`

The character after a word is not part of any word, so the terminators do not hit the words.
-/

namespace Xv6.Sh

open List

variable {buf : Str} {s es k q eq : Nat} {ts : List Tok} {cmd : Cmd}

/-- The words of a command: the arguments and the files, each with its end. -/
def Cmd.words : Cmd → List (Nat × Nat)
  | .exec args => args
  | .redir cmd file efile _ _ => cmd.words ++ [(file, efile)]
  | .pipe left right => left.words ++ right.words
  | .list left right => left.words ++ right.words
  | .back cmd => cmd.words

def stringAt (buf : Str) (q : Nat) : Str := (buf.drop q).takeWhile (· ≠ 0)

/-! ## The words of the tokens -/

def Breaks (c : BitVec 8) : Prop := c ∈ whitespace ∨ c ∈ symbols

structure Spans (buf : Str) (es q eq : Nat) : Prop where
  le : q ≤ eq
  le_end : eq ≤ es
  inside : ∀ i, q ≤ i → i < eq → ¬ Breaks (buf.getD i 0)
  after : eq < es → Breaks (buf.getD eq 0)

theorem Cstr.skip_inside (h : Cstr buf es) {f : BitVec 8 → Bool} {i : Nat} (h1 : s ≤ i) (h2 : i < skip buf f s es) :
    f (buf.getD i 0) = true := by
  have hl := h.le_length
  have hle := ( takeWhile_prefix f (l := (buf.take es).drop s)).length_le
  have hspec := (takeWhile_spec f ((buf.take es).drop s) 0).1 (i - s)
  simp only [skip] at h2
  simp only [length_drop, length_take] at hle
  have hget : ((buf.take es).drop s).getD (i - s) 0 = buf.getD i 0 := by
    rw [getD_eq_getElem?_getD, getElem?_drop, getElem?_take_of_lt (by omega), ← getD_eq_getElem?_getD,
      Nat.add_sub_cancel' h1]
  rw [hget] at hspec
  exact hspec (by omega)

theorem Cstr.gettoken_spans (h : Cstr buf es) (hs : s ≤ es) (hr : (gettoken buf s es).ret = ch 'a') :
    Spans buf es (gettoken buf s es).q (gettoken buf s es).eq := by
  obtain ⟨-, hq⟩ := h.skipWs_le hs
  unfold gettoken at hr ⊢
  generalize skipWs buf s es = q at hq hr ⊢
  dsimp only at hr ⊢
  split at hr
  · rename_i hz
    exact absurd (hz.symm.trans hr) (by decide)
  · rename_i hz
    split at hr
    · rename_i hc
      rw [show buf.getD q 0 = ch 'a' from hr] at hc
      exact absurd hc (by decide)
    · rename_i hc
      split at hr
      · rename_i hgt
        split at hr
        · exact absurd (show ch '+' = ch 'a' from hr) (by decide)
        · exact absurd (hgt.symm.trans hr) (by decide)
      · rename_i hgt
        simp only [hz, hc, hgt, if_false]
        obtain ⟨h1, h2, h3⟩ := h.skip_spec hq fun c => decide (c ∉ whitespace ∧ c ∉ symbols)
        refine ⟨h1, h2, fun i hi1 hi2 => ?_, fun hlt => ?_⟩
        · simpa [Breaks, not_or] using h.skip_inside hi1 hi2
        · have hstop := h3 hlt
          simp only [decide_eq_false_iff_not, not_and_or, Decidable.not_not] at hstop
          exact hstop

theorem Cstr.word_spans (h : Cstr buf es) (hs : s ≤ es) (hw : .word q eq ∈ tokens buf es k s) : Spans buf es q eq := by
  induction k generalizing s with
  | zero => cases hw
  | succ k ih =>
    have ht := h.token hs
    simp only [tokens] at hw
    split at hw
    · cases hw
    · rename_i hz
      obtain ⟨-, h0, -⟩ | ⟨-, -, hle, -⟩ := ht
      · exact absurd h0 hz
      · rcases mem_cons.mp hw with he | hw
        · split at he
          · rename_i hr
            cases he
            exact h.gettoken_spans hs hr
          · cases he
        · exact ih hle hw

/-! ## The words of a command are words of its tokens -/

theorem words_wrap (rs : List Redir) (cmd : Cmd) : (rs.foldl Redir.wrap cmd).words = cmd.words ++ rs.map fun r => (r.file, r.efile) := by
  induction rs generalizing cmd with
  | nil => simp
  | cons r rs ih => simp [ih, Redir.wrap, Cmd.words]

theorem words_back (n : Nat) (cmd : Cmd) : (Cmd.back^[n] cmd).words = cmd.words := by
  induction n generalizing cmd with
  | zero => rfl
  | succ n ih => simp [ih, Cmd.words]

theorem Redirs.mem {rs : List Redir} (h : Redirs ts rs) : ∀ r ∈ rs, .word r.file r.efile ∈ ts := by
  induction h with
  | nil => simp
  | cons hr _ ih =>
    simp only [List.mem_cons, forall_eq_or_imp, List.mem_append]
    refine ⟨.inl ?_, fun r hr => .inr (ih r hr)⟩
    cases hr <;> simp

theorem Words.mem {ws : List (Nat × Nat)} {rs : List Redir} (h : Words ts ws rs) :
    (∀ w ∈ ws, .word w.1 w.2 ∈ ts) ∧ ∀ r ∈ rs, .word r.file r.efile ∈ ts := by
  induction h with
  | nil => simp
  | cons hr _ ih =>
    have hr := hr.mem
    constructor
    · intro w hw
      rcases mem_cons.mp hw with rfl | hw
      · simp
      · simp [ih.1 w hw]
    · intro r hm
      rcases List.mem_append.mp hm with hm | hm
      · simp [hr r hm]
      · simp [ih.2 r hm]

mutual

theorem Line.mem {ts : List Tok} {cmd : Cmd} (h : Line ts cmd) : ∀ w ∈ cmd.words, Tok.word w.1 w.2 ∈ ts := by
  match h with
  | .last n hp =>
    intro w hw
    rw [words_back] at hw
    simp [hp.mem w hw]
  | .semi n hp hl =>
    intro w hw
    rw [Cmd.words, words_back, List.mem_append] at hw
    rcases hw with hw | hw
    · simp [hp.mem w hw]
    · simp [hl.mem w hw]

theorem Pipe.mem {ts : List Tok} {cmd : Cmd} (h : Pipe ts cmd) : ∀ w ∈ cmd.words, Tok.word w.1 w.2 ∈ ts := by
  match h with
  | .last he => exact he.mem
  | .bar he hp =>
    intro w hw
    rcases List.mem_append.mp hw with hw | hw
    · simp [he.mem w hw]
    · simp [hp.mem w hw]

theorem Exec.mem {ts : List Tok} {cmd : Cmd} (h : Exec ts cmd) : ∀ w ∈ cmd.words, Tok.word w.1 w.2 ∈ ts := by
  match h with
  | .block hl hr =>
    intro w hw
    rw [words_wrap, List.mem_append, List.mem_map] at hw
    rcases hw with hw | ⟨r, hm, rfl⟩
    · simp [hl.mem w hw]
    · simp [hr.mem r hm]
  | .simple hr hw _ =>
    intro w hm
    rw [words_wrap, List.mem_append, List.mem_map] at hm
    rcases hm with hm | ⟨r, hm, rfl⟩
    · simp [hw.mem.1 w hm]
    · rcases List.mem_append.mp hm with hm | hm
      · simp [hr.mem r hm]
      · simp [hw.mem.2 r hm]

end

/-! ## The buffer -/

theorem getD_set (buf : Str) (e i : Nat) : (buf.set e 0).getD i 0 = if i = e then 0 else buf.getD i 0 := by
  simp only [getD_eq_getElem?_getD, getElem?_set]
  by_cases he : e = i
  · subst he
    by_cases hl : e < buf.length
    · simp [hl]
    · simp [hl]
  · rw [if_neg he, if_neg fun hi => he hi.symm]

def terminate (buf : Str) (ends : List Nat) : Str := ends.foldl (fun buf e => buf.set e 0) buf

theorem terminate_getD (ends : List Nat) (buf : Str) (i : Nat) : (terminate buf ends).getD i 0 = if i ∈ ends then 0 else buf.getD i 0 := by
  induction ends generalizing buf with
  | nil => simp [terminate]
  | cons e ends ih =>
    rw [terminate, foldl_cons, ← terminate, ih, getD_set]
    by_cases hi : i ∈ ends
    · simp [hi]
    · simp [hi]

/-- `nulterminate` writes a NUL at the end of each word. -/
theorem nulterminate_eq (cmd : Cmd) (buf : Str) : nulterminate cmd buf = terminate buf (cmd.words.map Prod.snd) := by
  induction cmd generalizing buf with
  | exec args => simp [nulterminate, Cmd.words, terminate, foldl_map]
  | redir cmd file efile mode fd ih => simp [nulterminate, Cmd.words, terminate, ih]
  | pipe left right ihl ihr | list left right ihl ihr => simp [nulterminate, Cmd.words, terminate, ihl, ihr]
  | back cmd ih => exact ih buf

theorem stringAt_eq {buf' : Str} (hle : q ≤ eq) (hlen : eq ≤ buf.length) (hin : ∀ i, q ≤ i → i < eq → buf'.getD i 0 = buf.getD i 0)
    (hnz : ∀ i, q ≤ i → i < eq → buf.getD i 0 ≠ 0) (hz : buf'.getD eq 0 = 0) : stringAt buf' q = (buf.take eq).drop q := by
  induction hn : eq - q generalizing q with
  | zero =>
    obtain rfl : q = eq := by omega
    simp only [stringAt, drop_take, Nat.sub_self, take_zero]
    cases hd : buf'.drop q with
    | nil => rfl
    | cons c l =>
      have hc : buf'.getD q 0 = c := by
        rw [getD_eq_getElem?_getD, ← head?_drop, hd]
        rfl
      obtain rfl : c = 0 := hc.symm.trans hz
      simp
  | succ n ih =>
    have hne : buf'.getD q 0 ≠ 0 := by
      rw [hin q (le_refl q) (by omega)]
      exact hnz q (le_refl q) (by omega)
    have hlt : q < buf'.length := by
      by_contra hge
      rw [getD_eq_getElem?_getD, getElem?_eq_none (by omega)] at hne
      exact hne rfl
    have hcons : buf'.drop q = buf'.getD q 0 :: buf'.drop (q + 1) := by
      rw [drop_eq_getElem_cons hlt, getD_eq_getElem?_getD, getElem?_eq_getElem hlt, Option.getD_some]
    have hcons' : (buf.take eq).drop q = buf.getD q 0 :: (buf.take eq).drop (q + 1) := by
      have hlt' : q < (buf.take eq).length := by simp; omega
      rw [drop_eq_getElem_cons hlt', getElem_take, getD_eq_getElem?_getD, getElem?_eq_getElem (by omega),
        Option.getD_some]
    have hrest : stringAt buf' (q + 1) = (buf.take eq).drop (q + 1) :=
      ih (by omega) (fun i h1 h2 => hin i (by omega) h2) (fun i h1 h2 => hnz i (by omega) h2) (by omega)
    rw [hcons', ← hrest, ← hin q (le_refl q) (by omega), stringAt, hcons, takeWhile_cons_of_pos (by simpa using hne)]
    rfl

/-- After `parsecmd`, each word of the command is the text of a word of the input. -/
theorem nulterminate_words {buf' : Str} (h : parsecmd buf = .ok (cmd, buf')) :
    ∀ w ∈ cmd.words, Tok.word w.1 w.2 ∈ tokenize buf ∧ stringAt buf' w.1 = (buf.take w.2).drop w.1 := by
  have hc := cstr_strlen buf
  obtain ⟨hline, hbuf⟩ : Line (tokenize buf) cmd ∧ buf' = nulterminate cmd buf := (ends_parsecmd buf).of_ok h
  have hspan {w : Nat × Nat} (hw : w ∈ cmd.words) : Spans buf (strlen buf) w.1 w.2 :=
    hc.word_spans (Nat.zero_le _) (hline.mem w hw)
  intro w hw
  have hs := hspan hw
  refine ⟨hline.mem w hw, ?_⟩
  rw [hbuf, nulterminate_eq]
  refine stringAt_eq hs.le (hs.le_end.trans hc.le_length) (fun i h1 h2 => ?_) (fun i h1 h2 => ?_) ?_
  · -- the character after a word is not inside another one
    have hi : i ∉ cmd.words.map Prod.snd := by
      intro hm
      obtain ⟨w', hw', rfl⟩ := mem_map.mp hm
      have hlt := hs.le_end
      exact hs.inside _ h1 h2 ((hspan hw').after (by omega))
    rw [terminate_getD, if_neg hi]
  · have hlt := hs.le_end
    exact hc.nonzero i (by omega)
  · rw [terminate_getD, if_pos (mem_map_of_mem hw)]

theorem nulterminate_words_redir : ∃ cmd buf', parsecmd (str "cat<in|wc") = .ok (cmd, buf') ∧ cmd.words = [(0, 3), (4, 6), (7, 9)] ∧
    stringAt buf' 0 = str "cat" ∧ stringAt buf' 4 = str "in" ∧ stringAt buf' 7 = str "wc" := by
  have hp : parsecmd (str "cat<in|wc") = .ok (.pipe (.redir (.exec [(0, 3)]) 4 6 Xv6.Ftable.O_RDONLY 0) (.exec [(7, 9)]),
      [99, 97, 116, 0, 105, 110, 0, 119, 99]) := by decide +kernel
  have hw := nulterminate_words hp
  exact ⟨_, _, hp, rfl, (hw (0, 3) (by decide)).2, (hw (4, 6) (by decide)).2, (hw (7, 9) (by decide)).2⟩

end Xv6.Sh
