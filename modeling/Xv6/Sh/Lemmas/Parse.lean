import Xv6.Lib.Ends
import Xv6.Sh.Lemmas.Tokens

/-!
# The parser and the grammar

Every function of the parser takes a prefix of the tokens that are left.
-/

namespace Xv6.Sh

open Xv6.Lib List

variable {buf : Str} {s es k argc : Nat} {cmd ret : Cmd} {ts rest : List Tok} {rs : List Redir} {c : BitVec 8} {set set' : Str}
  {l : List Tok}

def Panics (e : Stop) : Prop := ∃ p, e = .panic p

/-! ## Commands -/

def Cmd.addArgs (cmd : Cmd) (ws : List (Nat × Nat)) : Cmd := ws.foldl (fun cmd w => cmd.addArg w) cmd

theorem addArg_wrap (rs : List Redir) (cmd : Cmd) (w : Nat × Nat) :
    (rs.foldl Redir.wrap cmd).addArg w = rs.foldl Redir.wrap (cmd.addArg w) := by
  induction rs generalizing cmd with
  | nil => rfl
  | cons r rs ih => exact ih (r.wrap cmd)

theorem addArgs_wrap (rs : List Redir) (cmd : Cmd) (ws : List (Nat × Nat)) :
    (rs.foldl Redir.wrap cmd).addArgs ws = rs.foldl Redir.wrap (cmd.addArgs ws) := by
  induction ws generalizing cmd with
  | nil => rfl
  | cons w ws ih =>
    simp only [Cmd.addArgs, foldl_cons] at ih ⊢
    rw [addArg_wrap, ih]

theorem addArgs_exec (args ws : List (Nat × Nat)) : (Cmd.exec args).addArgs ws = .exec (args ++ ws) := by
  induction ws generalizing args with
  | nil => rw [append_nil]; rfl
  | cons w ws ih =>
    simp only [Cmd.addArgs, foldl_cons, Cmd.addArg] at ih ⊢
    rw [ih, append_assoc, singleton_append]

theorem redircmd_of_opens (hc : first c ∈ str "<>") (cmd : Cmd) (q eq : Nat) :
    ∃ r, IsRedir [.sym c, .word q eq] r ∧ redircmd c cmd q eq = r.wrap cmd := by
  have hc' : ∀ c, first c ∈ str "<>" → c = ch '<' ∨ c = ch '>' ∨ c = ch '+' := by decide +kernel
  rcases hc' c hc with rfl | rfl | rfl
  · exact ⟨_, .input q eq, rfl⟩
  · exact ⟨_, .output q eq, rfl⟩
  · exact ⟨_, .append q eq, rfl⟩

theorem IsRedir.eq {r : Redir} (h : IsRedir ts r) (cmd : Cmd) :
    ∃ c q eq, ts = [.sym c, .word q eq] ∧ first c ∈ str "<>" ∧ redircmd c cmd q eq = r.wrap cmd := by
  cases h with
  | input q eq | output q eq | append q eq => exact ⟨_, q, eq, rfl, by decide +kernel, rfl⟩

/-! ## What may follow -/

def Follow (set : Str) : List Tok → Prop
  | [] => True
  | .sym c :: _ => c ∈ set
  | .word _ _ :: _ => False

theorem Follow.not_opens (h : Follow set rest) (hs : ∀ c ∈ set, first c ∉ set') : opens set' rest = false := by
  cases rest with
  | nil => rfl
  | cons t ts =>
    cases t with
    | sym c => exact decide_eq_false (hs c h)
    | word q eq => rfl

theorem Follow.mono (h : Follow set rest) (hs : ∀ c ∈ set, c ∈ set') : Follow set' rest := by
  cases rest with
  | nil => trivial
  | cons t ts =>
    cases t with
    | sym c => exact hs c h
    | word q eq => exact h

theorem opens_true (h : opens set l = true) : ∃ c ts, l = .sym c :: ts ∧ first c ∈ set := by
  cases l with
  | nil => cases h
  | cons t ts =>
    cases t with
    | sym c => exact ⟨c, ts, rfl, of_decide_eq_true h⟩
    | word q eq => cases h

theorem opens_sym (c : BitVec 8) (hset : ∀ c', first c' ∈ set → c' = c) (h : opens set l = true) : ∃ ts, l = .sym c :: ts := by
  obtain ⟨c', ts, rfl, hc⟩ := opens_true h
  exact ⟨ts, by rw [hset c' hc]⟩

/-! ## Loops -/

section Sound

variable (h : Cstr buf es) {P : List Tok → Cmd → Prop} {x : Cmd × Nat}
include h

section

variable (hs : s ≤ es) (hk : (toks buf es s).length < k)
include hs hk

theorem Cstr.parseredirs_sound :
    Ends Panics (fun x => x.2 ≤ es ∧ ∃ ts rs, toks buf es s = ts ++ toks buf es x.2 ∧ Redirs ts rs ∧ x.1 = rs.foldl Redir.wrap cmd)
      (parseredirs buf es k cmd s) := by
  induction k generalizing cmd s with
  | zero => omega
  | succ k ih =>
    obtain ⟨s1, hpeek, ht, hle⟩ := h.peek_eq hs (str "<>") (by decide +kernel)
    simp only [parseredirs, hpeek]
    rw [← ht] at hk ⊢
    cases hb : opens (str "<>") (toks buf es s1) with
    | false => exact ⟨hle, [], [], rfl, .nil, rfl⟩
    | true =>
      obtain ⟨c, ts, htoks, hc⟩ := opens_true hb
      obtain ⟨hr, -, hle2, ht2⟩ := h.toks_sym hle htoks
      rw [if_pos rfl]
      split
      · exact ⟨_, rfl⟩
      · rename_i hw
        rw [htoks] at hk ⊢
        cases hts : toks buf es (gettoken buf s1 es).s with
        | nil =>
          rw [(h.toks_nil hle2 hts).1] at hw
          exact absurd (by decide +kernel) hw
        | cons t ts' =>
          cases t with
          | sym c' =>
            obtain ⟨hr', hc', -⟩ := h.toks_sym hle2 hts
            rw [hr'] at hw
            have : ∀ c ∈ str "|();&<>+", c ≠ ch 'a' := by decide +kernel
            exact absurd (this c' hc') hw
          | word q eq =>
            obtain ⟨-, hq, heq, hle3, ht3⟩ := h.toks_word hle2 hts
            rw [hr, hq, heq]
            obtain ⟨r, hredir, hwrap⟩ := redircmd_of_opens hc cmd q eq
            rw [hwrap]
            rw [← ht2, hts] at hk
            simp only [length_cons] at hk
            refine (ih hle3 (by rw [ht3]; omega)).imp ?_
            rintro ⟨c1, s3⟩ ⟨hle4, ts1, rs, htoks1, hrs, hcmd⟩
            refine ⟨hle4, _, r :: rs, ?_, .cons hredir hrs, hcmd⟩
            rw [← ht2, hts, ← ht3, htoks1]
            rfl

theorem Cstr.parseargs_sound (ha : argc < MAXARGS) :
    Ends Panics (fun x => x.2 ≤ es ∧ ∃ ts ws rs, toks buf es s = ts ++ toks buf es x.2 ∧ Words ts ws rs ∧
        argc + ws.length < MAXARGS ∧ x.1 = rs.foldl Redir.wrap (ret.addArgs ws)) (parseargs buf es k argc ret s) := by
  induction k generalizing argc ret s with
  | zero => omega
  | succ k ih =>
    obtain ⟨s1, hpeek, ht, hle⟩ := h.peek_eq hs (str "|)&;") (by decide +kernel)
    simp only [parseargs, hpeek]
    rw [← ht] at hk ⊢
    have hdone {s' : Nat} (hle' : s' ≤ es) (ht' : toks buf es s1 = toks buf es s') : s' ≤ es ∧ ∃ ts ws rs,
        toks buf es s1 = ts ++ toks buf es s' ∧ Words ts ws rs ∧ argc + ws.length < MAXARGS ∧
          ret = rs.foldl Redir.wrap (ret.addArgs ws) := ⟨hle', [], [], [], ht', .nil, ha, rfl⟩
    cases opens (str "|)&;") (toks buf es s1) with
    | true => exact hdone hle rfl
    | false =>
      rw [if_neg (by nofun)]
      cases hts : toks buf es s1 with
      | nil =>
        obtain ⟨hr, -, he⟩ := h.toks_nil hle hts
        rw [if_pos hr]
        have hend : toks buf es es = [] := by
          have := h.length_toks (le_refl es)
          exact length_eq_zero_iff.mp (by omega)
        rw [← hts]
        exact hdone (by rw [he]) (by rw [he, hts, hend])
      | cons t ts =>
        cases t with
        | sym c =>
          obtain ⟨hr, hc, -⟩ := h.toks_sym hle hts
          have hc' : ∀ c ∈ str "|();&<>+", c ≠ 0 ∧ c ≠ ch 'a' := by decide +kernel
          rw [hr, if_neg (hc' c hc).1, if_pos (hc' c hc).2]
          exact ⟨_, rfl⟩
        | word q eq =>
          obtain ⟨hr, hq, heq, hle2, ht2⟩ := h.toks_word hle hts
          rw [hr, if_neg (by decide +kernel), if_neg (by decide +kernel), hq, heq]
          split
          · exact ⟨_, rfl⟩
          · rename_i hargc
            have hlen := h.length_toks hle2
            refine (h.parseredirs_sound hle2 (by omega)).bind ?_
            rintro ⟨ret1, s3⟩ ⟨hle3, ts1, rs1, ht3, hrs, rfl⟩
            dsimp only at hle3 ht3 ⊢
            have hlen' : (toks buf es s3).length < k := by
              rw [hts, length_cons, ← ht2, ht3, length_append] at hk
              omega
            refine (ih hle3 hlen' (by omega)).imp ?_
            rintro ⟨ret2, s4⟩ ⟨hle4, ts2, ws, rs2, ht4, hws, hn, hret⟩
            refine ⟨hle4, _, (q, eq) :: ws, rs1 ++ rs2, ?_, .cons hrs hws, ?_, ?_⟩
            · rw [← ht2, ht3, ht4, cons_append, append_assoc]
            · rw [length_cons, ← Nat.add_assoc, Nat.add_right_comm]
              exact hn
            · rw [hret, addArgs_wrap, foldl_append]
              rfl

theorem Cstr.parseback_sound :
    Ends Panics (fun x => x.2 ≤ es ∧ ∃ n, toks buf es s = replicate n (.sym (ch '&')) ++ toks buf es x.2 ∧
        x.1 = Cmd.back^[n] cmd) (parseback buf es k cmd s) := by
  induction k generalizing cmd s with
  | zero => omega
  | succ k ih =>
    obtain ⟨s1, hpeek, ht, hle⟩ := h.peek_eq hs (str "&") (by decide +kernel)
    simp only [parseback, hpeek]
    rw [← ht] at hk ⊢
    cases hb : opens (str "&") (toks buf es s1) with
    | false => exact ⟨hle, 0, rfl, rfl⟩
    | true =>
      obtain ⟨ts, htoks⟩ := opens_sym (ch '&') (by decide +kernel) hb
      obtain ⟨-, -, hle2, ht2⟩ := h.toks_sym hle htoks
      rw [htoks, length_cons] at hk
      rw [if_pos rfl]
      refine (ih hle2 (by rw [ht2]; omega)).imp ?_
      rintro ⟨c1, s2⟩ ⟨hle3, n, ht3, hcmd⟩
      refine ⟨hle3, n + 1, ?_, ?_⟩
      · rw [htoks, ← ht2, ht3, replicate_succ]
        rfl
      · rw [hcmd]
        rfl

end

/-! ## Soundness -/

def Takes (P : List Tok → Cmd → Prop) (buf : Str) (es s : Nat) (x : Cmd × Nat) : Prop :=
  x.2 ≤ es ∧ ∃ ts, toks buf es s = ts ++ toks buf es x.2 ∧ P ts x.1

omit h in
theorem Takes.le (ht : Takes P buf es s x) : (toks buf es x.2).length ≤ (toks buf es s).length := by
  obtain ⟨-, ts, ht, -⟩ := ht
  rw [ht, length_append]
  omega

omit h in
theorem Takes.of_toks {s' : Nat} (ht : Takes P buf es s x) (hs : toks buf es s = toks buf es s') : Takes P buf es s' x := by
  obtain ⟨hle, ts, ht, hp⟩ := ht
  exact ⟨hle, ts, hs ▸ ht, hp⟩

theorem Cstr.parseblock_sound
    (hline : ∀ s ≤ es, 4 * (toks buf es s).length + 4 ≤ k → Ends Panics (Takes Line buf es s) (parseline buf es k s))
    (hs : s ≤ es) (hk : 4 * (toks buf es s).length ≤ k) : Ends Panics (Takes Exec buf es s) (parseblock buf es (k + 1) s) := by
  obtain ⟨s1, hpeek, ht, hle⟩ := h.peek_eq hs (str "(") (by decide +kernel)
  simp only [parseblock, hpeek]
  rw [← ht] at hk ⊢
  cases hb : opens (str "(") (toks buf es s1) with
  | false => exact ⟨_, rfl⟩
  | true =>
    obtain ⟨ts, htoks⟩ := opens_sym (ch '(') (by decide +kernel) hb
    obtain ⟨-, -, hle2, ht2⟩ := h.toks_sym hle htoks
    rw [htoks, length_cons] at hk
    refine (hline _ hle2 (by rw [ht2]; omega)).bind ?_
    rintro ⟨cmd, s3⟩ ⟨hle3, ts3, ht3, hl⟩
    dsimp only at hle3 ht3 hl ⊢
    obtain ⟨s4, hpeek4, ht4, hle4⟩ := h.peek_eq hle3 (str ")") (by decide +kernel)
    simp only [hpeek4]
    rw [← ht4] at ht3 ⊢
    cases hb4 : opens (str ")") (toks buf es s4) with
    | false => exact ⟨_, rfl⟩
    | true =>
      obtain ⟨ts4, htoks4⟩ := opens_sym (ch ')') (by decide +kernel) hb4
      obtain ⟨-, -, hle5, ht5⟩ := h.toks_sym hle4 htoks4
      have hlen := h.length_toks hle5
      refine (h.parseredirs_sound hle5 (by omega)).imp ?_
      rintro ⟨cmd', s6⟩ ⟨hle6, ts6, rs, ht6, hrs, rfl⟩
      refine ⟨hle6, _, ?_, .block hl hrs⟩
      rw [ht] at htoks
      rw [htoks, ← ht2, ht3, htoks4, ← ht5, ht6]
      simp

theorem Cstr.parseexec_sound
    (hblock : ∀ s ≤ es, 4 * (toks buf es s).length + 1 ≤ k → Ends Panics (Takes Exec buf es s) (parseblock buf es k s))
    (hs : s ≤ es) (hk : 4 * (toks buf es s).length + 1 ≤ k) : Ends Panics (Takes Exec buf es s) (parseexec buf es (k + 1) s) := by
  obtain ⟨s1, hpeek, ht, hle⟩ := h.peek_eq hs (str "(") (by decide +kernel)
  simp only [parseexec, hpeek]
  cases opens (str "(") (toks buf es s) with
  | true =>
    rw [if_pos rfl]
    exact (hblock s1 hle (by rw [ht]; exact hk)).imp fun x hx => hx.of_toks ht
  | false =>
    rw [if_neg (by rintro ⟨⟩)]
    have hlen := h.length_toks hle
    refine (h.parseredirs_sound hle (by omega)).bind ?_
    rintro ⟨ret, s2⟩ ⟨hle2, ts2, rs, ht2, hrs, rfl⟩
    dsimp only at hle2 ht2 ⊢
    have hlen := h.length_toks hle2
    refine (h.parseargs_sound hle2 (by omega) (by decide +kernel)).imp ?_
    rintro ⟨ret', s3⟩ ⟨hle3, ts3, ws, rs', ht3, hws, hn, hret⟩
    dsimp only at hle3 ht3 hret
    refine ⟨hle3, ts2 ++ ts3, by rw [← ht, ht2, ht3, append_assoc], ?_⟩
    have hcmd : ret' = (rs ++ rs').foldl Redir.wrap (.exec ws) := by
      rw [hret, addArgs_wrap, addArgs_exec, foldl_append, nil_append]
    rw [hcmd]
    exact .simple hrs hws (by omega)

theorem Cstr.parsepipe_sound
    (hexec : ∀ s ≤ es, 4 * (toks buf es s).length + 2 ≤ k → Ends Panics (Takes Exec buf es s) (parseexec buf es k s))
    (hpipe : ∀ s ≤ es, 4 * (toks buf es s).length + 3 ≤ k → Ends Panics (Takes Pipe buf es s) (parsepipe buf es k s))
    (hs : s ≤ es) (hk : 4 * (toks buf es s).length + 2 ≤ k) : Ends Panics (Takes Pipe buf es s) (parsepipe buf es (k + 1) s) := by
  simp only [parsepipe]
  refine (hexec s hs hk).bind ?_
  rintro ⟨cmd, s1⟩ hx
  have hlen := hx.le
  obtain ⟨hle1, ts1, ht1, he⟩ := hx
  dsimp only at hlen hle1 ht1 he ⊢
  obtain ⟨s2, hpeek, ht, hle⟩ := h.peek_eq hle1 (str "|") (by decide +kernel)
  simp only [hpeek]
  rw [← ht] at hlen ht1 ⊢
  cases hb : opens (str "|") (toks buf es s2) with
  | false => exact ⟨hle, ts1, ht1, .last he⟩
  | true =>
    obtain ⟨ts, htoks⟩ := opens_sym (ch '|') (by decide +kernel) hb
    obtain ⟨-, -, hle2, ht2⟩ := h.toks_sym hle htoks
    rw [htoks, length_cons] at hlen
    refine (hpipe _ hle2 (by rw [ht2]; omega)).bind ?_
    rintro ⟨right, s3⟩ ⟨hle3, ts3, ht3, hp⟩
    refine ⟨hle3, _, ?_, .bar he hp⟩
    rw [ht1, htoks, ← ht2, ht3]
    simp

theorem Cstr.parseline_sound
    (hpipe : ∀ s ≤ es, 4 * (toks buf es s).length + 3 ≤ k → Ends Panics (Takes Pipe buf es s) (parsepipe buf es k s))
    (hline : ∀ s ≤ es, 4 * (toks buf es s).length + 4 ≤ k → Ends Panics (Takes Line buf es s) (parseline buf es k s))
    (hs : s ≤ es) (hk : 4 * (toks buf es s).length + 3 ≤ k) : Ends Panics (Takes Line buf es s) (parseline buf es (k + 1) s) := by
  simp only [parseline]
  refine (hpipe s hs hk).bind ?_
  rintro ⟨cmd, s1⟩ hx
  have hlen := hx.le
  obtain ⟨hle1, ts1, ht1, hp⟩ := hx
  dsimp only at hlen hle1 ht1 hp ⊢
  have hlen1 := h.length_toks hle1
  refine (h.parseback_sound hle1 (by omega)).bind ?_
  rintro ⟨cmd', s2⟩ ⟨hle2, n, ht2, rfl⟩
  dsimp only at hle2 ht2 ⊢
  obtain ⟨s3, hpeek, ht, hle⟩ := h.peek_eq hle2 (str ";") (by decide +kernel)
  simp only [hpeek]
  rw [← ht] at ht2 ⊢
  rw [ht2] at ht1
  cases hb : opens (str ";") (toks buf es s3) with
  | false => exact ⟨hle, _, by rw [ht1, append_assoc], .last n hp⟩
  | true =>
    obtain ⟨ts, htoks⟩ := opens_sym (ch ';') (by decide +kernel) hb
    obtain ⟨-, -, hle3, ht3⟩ := h.toks_sym hle htoks
    rw [ht2, htoks, length_append, length_cons] at hlen
    refine (hline _ hle3 (by rw [ht3]; omega)).bind ?_
    rintro ⟨right, s4⟩ ⟨hle4, ts4, ht4, hl⟩
    refine ⟨hle4, _, ?_, .semi n hp hl⟩
    rw [ht1, htoks, ← ht3, ht4]
    simp

/-- With a fuel of four for each token, every function ends. -/
theorem Cstr.parse_sound (k : Nat) :
    (∀ s ≤ es, 4 * (toks buf es s).length + 4 ≤ k → Ends Panics (Takes Line buf es s) (parseline buf es k s)) ∧
    (∀ s ≤ es, 4 * (toks buf es s).length + 3 ≤ k → Ends Panics (Takes Pipe buf es s) (parsepipe buf es k s)) ∧
    (∀ s ≤ es, 4 * (toks buf es s).length + 2 ≤ k → Ends Panics (Takes Exec buf es s) (parseexec buf es k s)) ∧
    (∀ s ≤ es, 4 * (toks buf es s).length + 1 ≤ k → Ends Panics (Takes Exec buf es s) (parseblock buf es k s)) := by
  induction k with
  | zero => exact ⟨nofun, nofun, nofun, nofun⟩
  | succ k ih =>
    obtain ⟨hline, hpipe, hexec, hblock⟩ := ih
    refine ⟨fun s hs hk => ?_, fun s hs hk => ?_, fun s hs hk => ?_, fun s hs hk => ?_⟩
    · exact h.parseline_sound hpipe hline hs (by omega)
    · exact h.parsepipe_sound hexec hpipe hs (by omega)
    · exact h.parseexec_sound hblock hs (by omega)
    · exact h.parseblock_sound hline hs (by omega)

end Sound

end Xv6.Sh
