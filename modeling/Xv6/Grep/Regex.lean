import Xv6.Grep.Model
import Xv6.Lib.Starts

/-!
# What the matcher of `grep` matches

A pattern is a list of items, and `match` finds a word of the concatenation of their languages.
-/

namespace Xv6.Grep

open Xv6.Lib Computability

variable {re text : List Byte} {c : Byte} {R : List Byte → Prop}

/-- A character or `.`, or one of them with `*`. -/
inductive Item
  | one (c : Byte)
  | many (c : Byte)
deriving DecidableEq

def charLang (c : Byte) : Language Byte := letter fun t => c = dot ∨ c = t

def Item.lang : Item → Language Byte
  | .one c => charLang c
  | .many c => (charLang c)∗

/-- The items of a pattern without its `^`, and if there is a `$` after them. -/
def items : List Byte → List Item × Bool
  | [] => ([], false)
  | [c] => if c = dollar then ([], true) else ([.one c], false)
  | c :: c' :: re =>
    if c' = star then (.many c :: (items re).1, (items re).2) else (.one c :: (items (c' :: re)).1, (items (c' :: re)).2)

/-- A pattern: `^` if it is the first character, the items, and `$` if it is the last one. -/
structure Pattern where
  atStart : Bool
  items : List Item
  atEnd : Bool
deriving DecidableEq

def pattern : List Byte → Pattern
  | [] => ⟨false, [], false⟩
  | c :: re => if c = caret then ⟨true, (items re).1, (items re).2⟩ else ⟨false, (items (c :: re)).1, (items (c :: re)).2⟩

def lang (is : List Item) : Language Byte := (is.map Item.lang).prod

def After (atEnd : Bool) (text : List Byte) : Prop := atEnd = true → text = []

/-! ## Reading patterns -/

def Item.spelling : Item → List Byte
  | .one c => [c]
  | .many c => [c, star]

def Pattern.spelling (p : Pattern) : List Byte :=
  (if p.atStart then [caret] else []) ++ p.items.flatMap Item.spelling ++ if p.atEnd then [dollar] else []

theorem items_spelling (re : List Byte) : (items re).1.flatMap Item.spelling ++ (if (items re).2 then [dollar] else []) = re := by
  induction re using items.induct with
  | case1 => rfl
  | case2 => rfl
  | case3 c hc => simp [items, hc, Item.spelling]
  | case4 c re ih => simpa [items, Item.spelling] using ih
  | case5 c c' re hc ih => simpa [items, hc, Item.spelling] using ih

theorem pattern_spelling (re : List Byte) : (pattern re).spelling = re := by
  cases re with
  | nil => rfl
  | cons c re =>
    by_cases hc : c = caret
    · simpa [pattern, Pattern.spelling, hc] using items_spelling re
    · simpa [pattern, Pattern.spelling, hc] using items_spelling (c :: re)

@[simp] theorem lang_nil : lang [] = 1 := rfl

@[simp] theorem lang_cons (i : Item) (is : List Item) : lang (i :: is) = i.lang * lang is := List.prod_cons

/-! ## The three functions -/

theorem matchone_iff {f : List Byte → Bool} (hf : ∀ text, f text = true ↔ R text) :
    matchone c f text = true ↔ Starts (charLang c) R text := by
  cases text with
  | nil => simp [matchone, charLang]
  | cons t text => simp [matchone, charLang, hf]

theorem matchstar_iff {f : List Byte → Bool} (hf : ∀ text, f text = true ↔ R text) :
    matchstar c f text = true ↔ Starts (charLang c)∗ R text := by
  induction text with
  | nil => simp [matchstar, charLang, hf]
  | cons t text ih =>
    rw [charLang] at ih
    simp only [matchstar, charLang, starts_kstar_letter_cons, Bool.or_eq_true, Bool.and_eq_true, hf, ih, decide_eq_true_eq]
    rw [or_comm (a := t = c), eq_comm (a := t)]

theorem matchhere_iff (re text : List Byte) : matchhere re text = true ↔ Starts (lang (items re).1) (After (items re).2) text := by
  induction re using items.induct generalizing text with
  | case1 => simp [matchhere, items, After]
  | case2 =>
    simp [matchhere, items, After]
  | case3 c hc =>
    simp only [matchhere, items, hc, if_false, lang_cons, lang_nil, mul_one, Item.lang]
    exact matchone_iff (by simp [After])
  | case4 c re ih =>
    simp only [matchhere, items, if_true, lang_cons, starts_mul, Item.lang]
    exact matchstar_iff fun text => ih text
  | case5 c c' re hc ih =>
    simp only [matchhere, items, hc, if_false, lang_cons, starts_mul, Item.lang]
    exact matchone_iff fun text => ih text

theorem matchLoop_iff : matchLoop re text = true ↔ ∃ pre rest, text = pre ++ rest ∧ matchhere re rest = true := by
  induction text with
  | nil => simp [matchLoop]
  | cons t text ih =>
    simp only [matchLoop, Bool.or_eq_true, ih]
    constructor
    · rintro (h | ⟨pre, rest, rfl, h⟩)
      · exact ⟨[], t :: text, rfl, h⟩
      · exact ⟨t :: pre, rest, rfl, h⟩
    · rintro ⟨pre, rest, he, h⟩
      cases pre with
      | nil => exact .inl (by rw [he]; exact h)
      | cons u pre =>
        obtain ⟨-, rfl⟩ : t = u ∧ text = pre ++ rest := by simpa using he
        exact .inr ⟨pre, rest, rfl, h⟩

/-- `match` finds a word of the pattern's language in the text, at its start after `^` and at its end before `$`. -/
theorem match_iff (re text : List Byte) : matchText re text = true ↔ ∃ pre mid post, text = pre ++ mid ++ post ∧
    mid ∈ lang (pattern re).items ∧ ((pattern re).atStart = true → pre = []) ∧ ((pattern re).atEnd = true → post = []) := by
  have here (re rest : List Byte) : matchhere re rest = true ↔
      ∃ mid post, rest = mid ++ post ∧ mid ∈ lang (items re).1 ∧ ((items re).2 = true → post = []) := by
    rw [matchhere_iff]
    constructor
    · rintro ⟨mid, hm, post, rfl, ha⟩
      exact ⟨mid, post, rfl, hm, ha⟩
    · rintro ⟨mid, post, rfl, hm, ha⟩
      exact ⟨mid, hm, post, rfl, ha⟩
  have somewhere (re : List Byte) : matchLoop re text = true ↔
      ∃ pre mid post, text = pre ++ mid ++ post ∧ mid ∈ lang (items re).1 ∧ ((items re).2 = true → post = []) := by
    rw [matchLoop_iff]
    constructor
    · rintro ⟨pre, rest, rfl, h⟩
      obtain ⟨mid, post, rfl, hm, ha⟩ := (here re rest).mp h
      exact ⟨pre, mid, post, (List.append_assoc ..).symm, hm, ha⟩
    · rintro ⟨pre, mid, post, rfl, hm, ha⟩
      exact ⟨pre, mid ++ post, List.append_assoc .., (here re _).mpr ⟨mid, post, rfl, hm, ha⟩⟩
  cases re with
  | nil => simpa [matchText, pattern, items] using somewhere []
  | cons c re =>
    by_cases hc : c = caret
    · simpa [matchText, pattern, hc] using here re text
    · simpa [matchText, pattern, hc] using somewhere (c :: re)

end Xv6.Grep
