import Xv6.Sh.Lemmas.Parse

/-!
# What the grammar derives is accepted
-/

namespace Xv6.Sh

open List

variable {buf : Str} {s es k argc : Nat} {cmd ret : Cmd} {ts rest : List Tok} {rs : List Redir} {ws : List (Nat × Nat)}
  {c : BitVec 8}

def Leaves (buf : Str) (es : Nat) (x : Except Stop (Cmd × Nat)) (cmd : Cmd) (rest : List Tok) : Prop :=
  ∃ s, x = .ok (cmd, s) ∧ s ≤ es ∧ toks buf es s = rest

/-! ## How derived tokens begin -/

theorem Redirs.not_opens {set : Str} (hr : Redirs ts rs) (hf : opens set rest = false)
    (hset : ∀ c, first c ∈ str "<>" → first c ∉ set) : opens set (ts ++ rest) = false := by
  cases hr with
  | nil => exact hf
  | cons h hr =>
    obtain ⟨c, q, eq, rfl, hc, -⟩ := h.eq (.exec [])
    exact decide_eq_false (hset c hc)

theorem Words.not_opens {set : Str} (hw : Words ts ws rs) (hf : opens set rest = false) : opens set (ts ++ rest) = false := by
  cases hw with
  | nil => exact hf
  | cons => rfl

theorem follow_sym {set : Str} (hc : c ∈ set) : Follow set (.sym c :: rest) := hc

theorem follow_back {set : Str} (hf : Follow set rest) (hset : ch '&' ∈ set) (n : Nat) :
    Follow set (replicate n (.sym (ch '&')) ++ rest) := by
  cases n with
  | zero => exact hf
  | succ n => exact hset

section

variable (h : Cstr buf es)
include h

theorem Cstr.toks_end : toks buf es es = [] := by
  have := h.length_toks (le_refl es)
  exact length_eq_zero_iff.mp (by omega)

theorem Cstr.peek_false (hs : s ≤ es) (set : Str) (hset : ∀ c ∈ set, c ∈ symbols) (ht : toks buf es s = rest)
    (hf : opens set rest = false) : ∃ s', peek buf s es set = (false, s') ∧ s' ≤ es ∧ toks buf es s' = rest := by
  obtain ⟨s', hp, ht', hle⟩ := h.peek_eq hs set hset
  rw [ht] at hp ht'
  rw [hf] at hp
  exact ⟨s', hp, hle, ht'⟩

theorem Cstr.peek_true (hs : s ≤ es) (set : Str) (hset : ∀ c ∈ set, c ∈ symbols) (ht : toks buf es s = .sym c :: rest)
    (hc : first c ∈ set) : ∃ s', peek buf s es set = (true, s') ∧ s' ≤ es ∧ toks buf es s' = .sym c :: rest ∧
      (gettoken buf s' es).ret = c ∧ (gettoken buf s' es).s ≤ es ∧ toks buf es (gettoken buf s' es).s = rest := by
  obtain ⟨s', hp, ht', hle⟩ := h.peek_eq hs set hset
  rw [ht] at hp ht'
  obtain ⟨hr, -, hle', ht''⟩ := h.toks_sym hle ht'
  exact ⟨s', hp.trans (Prod.ext (decide_eq_true hc) rfl), hle, ht', hr, hle', ht''⟩

/-! ## Loops -/

theorem Redirs.complete (hr : Redirs ts rs) (hs : s ≤ es) (ht : toks buf es s = ts ++ rest) (hf : opens (str "<>") rest = false)
    (hk : (toks buf es s).length < k) (cmd : Cmd) : Leaves buf es (parseredirs buf es k cmd s) (rs.foldl Redir.wrap cmd) rest := by
  induction hr generalizing k cmd s with
  | nil =>
    cases k with
    | zero => omega
    | succ k =>
      obtain ⟨s1, hp, hle, ht1⟩ := h.peek_false hs (str "<>") (by decide +kernel) ht hf
      simp only [parseredirs, hp]
      exact ⟨s1, rfl, hle, ht1⟩
  | cons hredir _ ih =>
    cases k with
    | zero => omega
    | succ k =>
      obtain ⟨c, q, eq, rfl, hc, hwrap⟩ := hredir.eq cmd
      simp only [cons_append, nil_append] at ht
      obtain ⟨s1, hp, -, -, hr, hle2, ht2⟩ := h.peek_true hs (str "<>") (by decide +kernel) ht hc
      obtain ⟨hr', hq, heq, hle3, ht3⟩ := h.toks_word hle2 ht2
      simp only [parseredirs, hp, if_true]
      rw [hr', if_neg (by decide +kernel), hr, hq, heq, hwrap]
      refine ih hle3 ht3 ?_ _
      rw [ht] at hk
      simp only [length_cons] at hk
      rw [ht3]
      omega

theorem Words.complete (hw : Words ts ws rs) (hs : s ≤ es) (ht : toks buf es s = ts ++ rest) (hf : Follow (str "|)&;") rest)
    (hn : argc + ws.length < MAXARGS) (hk : (toks buf es s).length < k) (ret : Cmd) :
    Leaves buf es (parseargs buf es k argc ret s) (rs.foldl Redir.wrap (ret.addArgs ws)) rest := by
  induction hw generalizing k argc ret s with
  | nil =>
    cases k with
    | zero => omega
    | succ k =>
      rw [nil_append] at ht
      cases rest with
      | nil =>
        obtain ⟨s1, hp, hle, ht1⟩ := h.peek_false hs (str "|)&;") (by decide +kernel) ht rfl
        obtain ⟨hr, -, he⟩ := h.toks_nil hle ht1
        simp only [parseargs, hp]
        rw [if_neg (by rintro ⟨⟩), if_pos hr]
        exact ⟨_, rfl, by rw [he], by rw [he, h.toks_end]⟩
      | cons t ts =>
        cases t with
        | sym c =>
          have hc : ∀ c ∈ str "|)&;", first c ∈ str "|)&;" := by decide +kernel
          obtain ⟨s1, hp, hle, ht1, -⟩ := h.peek_true hs (str "|)&;") (by decide +kernel) ht (hc c hf)
          simp only [parseargs, hp]
          exact ⟨s1, rfl, hle, ht1⟩
        | word q eq => exact absurd hf id
  | @cons ts1 ts2 q eq ws rs1 rs2 hr hw ih =>
    cases k with
    | zero => omega
    | succ k =>
      rw [cons_append, append_assoc] at ht
      obtain ⟨s1, hp, hle, ht1⟩ := h.peek_false hs (str "|)&;") (by decide +kernel) ht rfl
      obtain ⟨hr', hq, heq, hle2, ht2⟩ := h.toks_word hle ht1
      rw [length_cons] at hn
      have hlen := h.length_toks hle2
      have hopen : opens (str "<>") (ts2 ++ rest) = false := hw.not_opens (hf.not_opens (by decide +kernel))
      obtain ⟨s3, hparse, hle3, ht3⟩ := hr.complete h hle2 ht2 hopen (k := es + 1) (by omega) (ret.addArg (q, eq))
      simp only [parseargs, hp]
      rw [if_neg (by rintro ⟨⟩), hr', if_neg (by decide +kernel), if_neg (by decide +kernel), if_neg (by omega), hq, heq, hparse]
      have hlen' : (toks buf es s3).length < k := by
        rw [ht3]
        rw [ht] at hk
        simp only [length_cons, length_append] at hk ⊢
        omega
      have hn' : argc + 1 + ws.length < MAXARGS := by omega
      have hargs := ih hle3 ht3 hn' hlen' (rs1.foldl Redir.wrap (ret.addArg (q, eq)))
      rw [addArgs_wrap] at hargs
      rw [foldl_append]
      exact hargs

theorem Cstr.parseback_complete {n : Nat} (hs : s ≤ es) (ht : toks buf es s = replicate n (.sym (ch '&')) ++ rest)
    (hf : opens (str "&") rest = false) (hk : (toks buf es s).length < k) (cmd : Cmd) :
    Leaves buf es (parseback buf es k cmd s) (Cmd.back^[n] cmd) rest := by
  induction n generalizing k cmd s with
  | zero =>
    cases k with
    | zero => omega
    | succ k =>
      obtain ⟨s1, hp, hle, ht1⟩ := h.peek_false hs (str "&") (by decide +kernel) ht hf
      simp only [parseback, hp]
      exact ⟨s1, rfl, hle, ht1⟩
  | succ n ih =>
    cases k with
    | zero => omega
    | succ k =>
      rw [replicate_succ, cons_append] at ht
      obtain ⟨s1, hp, -, -, -, hle2, ht2⟩ := h.peek_true hs (str "&") (by decide +kernel) ht (by decide +kernel)
      simp only [parseback, hp]
      refine ih hle2 ht2 ?_ _
      rw [ht2]
      rw [ht, length_cons] at hk
      omega

/-! ## Completeness -/

mutual

theorem Line.complete {ts : List Tok} {cmd : Cmd} (hl : Line ts cmd) {s k : Nat} {rest : List Tok} (hs : s ≤ es)
    (ht : toks buf es s = ts ++ rest) (hf : Follow (str ")") rest) (hk : 4 * (toks buf es s).length + 4 ≤ k) :
    Leaves buf es (parseline buf es k s) cmd rest := by
  obtain ⟨k, rfl⟩ : ∃ k', k = k' + 1 := ⟨k - 1, by omega⟩
  match hl with
  | @Line.last _ c n hp =>
    rw [append_assoc] at ht
    have hfollow := follow_back (hf.mono (by decide : ∀ c ∈ str ")", c ∈ str ")&;")) (by decide +kernel) n
    obtain ⟨s1, hparse, hle1, ht1⟩ := Pipe.complete hp hs ht hfollow (k := k) (by omega)
    have hlen := h.length_toks hle1
    obtain ⟨s2, hback, hle2, ht2⟩ := h.parseback_complete hle1 ht1 (hf.not_opens (by decide +kernel)) (k := es + 1) (by omega) c
    obtain ⟨s3, hpeek, hle3, ht3⟩ := h.peek_false hle2 (str ";") (by decide +kernel) ht2 (hf.not_opens (by decide +kernel))
    simp only [parseline, hparse, hback, hpeek, bind, Except.bind]
    exact ⟨s3, rfl, hle3, ht3⟩
  | @Line.semi _ ts' c _ n hp hl' =>
    rw [append_assoc, append_assoc, cons_append] at ht
    have hsemi : Follow (str ")&;") (.sym (ch ';') :: (ts' ++ rest)) := follow_sym (by decide +kernel)
    have hfollow := follow_back hsemi (by decide +kernel) n
    obtain ⟨s1, hparse, hle1, ht1⟩ := Pipe.complete hp hs ht hfollow (k := k) (by omega)
    have hlen := h.length_toks hle1
    have hamp : opens (str "&") (.sym (ch ';') :: (ts' ++ rest)) = false :=
      decide_eq_false (show first (ch ';') ∉ str "&" by decide +kernel)
    obtain ⟨s2, hback, hle2, ht2⟩ := h.parseback_complete hle1 ht1 hamp (k := es + 1) (by omega) c
    obtain ⟨s3, hpeek, -, -, -, hle4, ht4⟩ := h.peek_true hle2 (str ";") (by decide +kernel) ht2 (by decide +kernel)
    have hlen' : 4 * (toks buf es (gettoken buf s3 es).s).length + 4 ≤ k := by
      rw [ht] at hk
      simp only [length_append, length_cons] at hk
      rw [ht4, length_append]
      omega
    obtain ⟨s5, hline, hle5, ht5⟩ := Line.complete hl' hle4 ht4 hf hlen'
    simp only [parseline, hparse, hback, hpeek, if_true, hline, bind, Except.bind]
    exact ⟨s5, rfl, hle5, ht5⟩

theorem Pipe.complete {ts : List Tok} {cmd : Cmd} (hp : Pipe ts cmd) {s k : Nat} {rest : List Tok} (hs : s ≤ es)
    (ht : toks buf es s = ts ++ rest) (hf : Follow (str ")&;") rest) (hk : 4 * (toks buf es s).length + 3 ≤ k) :
    Leaves buf es (parsepipe buf es k s) cmd rest := by
  obtain ⟨k, rfl⟩ : ∃ k', k = k' + 1 := ⟨k - 1, by omega⟩
  match hp with
  | .last he =>
    obtain ⟨s1, hparse, hle1, ht1⟩ := Exec.complete he hs ht (hf.mono (by decide +kernel)) (k := k) (by omega)
    obtain ⟨s2, hpeek, hle2, ht2⟩ := h.peek_false hle1 (str "|") (by decide +kernel) ht1 (hf.not_opens (by decide +kernel))
    simp only [parsepipe, hparse, hpeek, bind, Except.bind]
    exact ⟨s2, rfl, hle2, ht2⟩
  | .bar he hp' =>
    rw [append_assoc, cons_append] at ht
    obtain ⟨s1, hparse, hle1, ht1⟩ := Exec.complete he hs ht (follow_sym (by decide +kernel)) (k := k) (by omega)
    obtain ⟨s2, hpeek, -, -, -, hle3, ht3⟩ := h.peek_true hle1 (str "|") (by decide +kernel) ht1 (by decide +kernel)
    have hlen : 4 * (toks buf es (gettoken buf s2 es).s).length + 3 ≤ k := by
      rw [ht] at hk
      simp only [length_append, length_cons] at hk
      rw [ht3, length_append]
      omega
    obtain ⟨s4, hpipe, hle4, ht4⟩ := Pipe.complete hp' hle3 ht3 hf hlen
    simp only [parsepipe, hparse, hpeek, if_true, hpipe, bind, Except.bind]
    exact ⟨s4, rfl, hle4, ht4⟩

theorem Exec.complete {ts : List Tok} {cmd : Cmd} (he : Exec ts cmd) {s k : Nat} {rest : List Tok} (hs : s ≤ es)
    (ht : toks buf es s = ts ++ rest) (hf : Follow (str "|)&;") rest) (hk : 4 * (toks buf es s).length + 2 ≤ k) :
    Leaves buf es (parseexec buf es k s) cmd rest := by
  obtain ⟨k, rfl⟩ : ∃ k', k = k' + 1 := ⟨k - 1, by omega⟩
  match he with
  | @Exec.simple _ _ ws rs _ hr hw hn =>
    rw [append_assoc] at ht
    have hfollow {set : Str} (hset : ∀ c ∈ str "|)&;", first c ∉ set) := hw.not_opens (hf.not_opens hset)
    have hopen := hr.not_opens (hfollow (by decide : ∀ c ∈ str "|)&;", first c ∉ str "(")) (by decide +kernel)
    obtain ⟨s1, hpeek, hle1, ht1⟩ := h.peek_false hs (str "(") (by decide +kernel) ht hopen
    have hlen := h.length_toks hle1
    obtain ⟨s2, hparse, hle2, ht2⟩ := hr.complete h hle1 ht1 (hfollow (by decide +kernel)) (k := es + 1) (by omega) (.exec [])
    have hlen' := h.length_toks hle2
    have hn' : 0 + ws.length < MAXARGS := by omega
    have hargs := hw.complete h hle2 ht2 hf hn' (k := es + 1) (by omega) (rs.foldl Redir.wrap (.exec []))
    rw [addArgs_wrap, addArgs_exec, nil_append, ← foldl_append] at hargs
    simp only [parseexec, hpeek]
    rw [if_neg (by nofun), hparse]
    exact hargs
  | .block hl hr =>
    rw [cons_append, append_assoc, cons_append] at ht
    obtain ⟨s1, hpeek1, hle1, ht1, -⟩ := h.peek_true hs (str "(") (by decide +kernel) ht (by decide +kernel)
    obtain ⟨k, rfl⟩ : ∃ k', k = k' + 1 := ⟨k - 1, by omega⟩
    obtain ⟨s2, hpeek2, -, -, -, hle3, ht3⟩ := h.peek_true hle1 (str "(") (by decide +kernel) ht1 (by decide +kernel)
    have hlen : 4 * (toks buf es (gettoken buf s2 es).s).length + 4 ≤ k := by
      rw [ht, length_cons] at hk
      rw [ht3]
      omega
    obtain ⟨s4, hline, hle4, ht4⟩ := Line.complete hl hle3 ht3 (follow_sym (by decide +kernel)) hlen
    obtain ⟨s5, hpeek5, -, -, -, hle6, ht6⟩ := h.peek_true hle4 (str ")") (by decide +kernel) ht4 (by decide +kernel)
    have hlen' := h.length_toks hle6
    simp only [parseexec, hpeek1, if_true]
    simp only [parseblock, hpeek2, Bool.not_true, Bool.false_eq_true, if_false, hline, hpeek5, bind, Except.bind]
    exact hr.complete h hle6 ht6 (hf.not_opens (by decide +kernel)) (by omega) _

end

end

end Xv6.Sh
