import Xv6.Sh.Lemmas.Complete

/-!
# The shell's parser: results
-/

namespace Xv6.Sh

open Xv6.Lib

theorem toks_zero (buf : Str) : toks buf (strlen buf) 0 = tokenize buf := rfl

theorem ends_parsecmd (buf : Str) : Ends Panics (fun x => Line (tokenize buf) x.1 ∧ x.2 = nulterminate x.1 buf) (parsecmd buf) := by
  have h := cstr_strlen buf
  have hlen := h.length_toks (Nat.zero_le _)
  have hk : 4 * (toks buf (strlen buf) 0).length + 4 ≤ 4 * strlen buf + 4 := by omega
  have hsound := (h.parse_sound (4 * strlen buf + 4)).1 0 (Nat.zero_le _) hk
  unfold parsecmd
  refine hsound.bind ?_
  rintro ⟨cmd, s⟩ ⟨hle, ts, ht, hl⟩
  obtain ⟨s', hpeek, ht', hle'⟩ := h.peek_eq hle [] nofun
  simp only [hpeek]
  split
  · exact ⟨_, rfl⟩
  · rename_i hs
    obtain rfl : s' = strlen buf := Decidable.of_not_not hs
    refine ⟨?_, rfl⟩
    rw [h.toks_end] at ht'
    rw [← ht', List.append_nil, toks_zero] at ht
    exact ht ▸ hl

/-- `parsecmd` returns a command if and only if the tokens of its input derive from `line`, and then it is the command that the derivation
determines; otherwise it panics. -/
theorem parsecmd_accepts (buf : Str) :
    (∀ cmd, parsecmd buf = .ok (cmd, nulterminate cmd buf) ↔ Line (tokenize buf) cmd) ∧
    ((∃ cmd, parsecmd buf = .ok (cmd, nulterminate cmd buf)) ∨ ∃ p, parsecmd buf = .error (.panic p)) := by
  have h := cstr_strlen buf
  have hlen := h.length_toks (Nat.zero_le _)
  have hk : 4 * (toks buf (strlen buf) 0).length + 4 ≤ 4 * strlen buf + 4 := by omega
  have hall := ends_parsecmd buf
  refine ⟨fun cmd => ⟨fun he => (hall.of_ok he).1, fun hl => ?_⟩, ?_⟩
  · have ht : toks buf (strlen buf) 0 = tokenize buf ++ [] := by rw [toks_zero, List.append_nil]
    obtain ⟨s, hparse, hle, hs⟩ := hl.complete h (Nat.zero_le _) ht trivial hk
    obtain ⟨-, hskip, -⟩ := h.toks_nil hle hs
    have hpeek : (peek buf s (strlen buf) []).2 = strlen buf := hskip
    simp only [parsecmd, hparse, bind, Except.bind, hpeek, ne_eq, not_true_eq_false, if_false]
    rfl
  · cases hp : parsecmd buf with
    | ok x =>
      obtain ⟨cmd, buf'⟩ := x
      have hbuf : buf' = nulterminate cmd buf := (hall.of_ok hp).2
      exact .inl ⟨cmd, by rw [hbuf]⟩
    | error e =>
      obtain ⟨p, rfl⟩ := hall.of_error hp
      exact .inr ⟨p, rfl⟩

/-- `a < b &` -/
example : parsecmd (str "a < b &") =
    .ok (.back (.redir (.exec [(0, 1)]) 4 5 Xv6.Ftable.O_RDONLY 0), [97, 0, 60, 32, 98, 0, 38]) := by decide +kernel

end Xv6.Sh
