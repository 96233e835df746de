import BaseLang.Proofs.Scanning.Separation
import Mathlib.Data.List.Basic

/-
  The patterns as regular expressions.

  A regular expression is read here as the libraries that search with one document it:
  the left side of an alternative is preferred to the right one, and a repetition goes on
  as long as it can. A pattern of the table is such an expression, anchored at the start
  of the text.

    1. `Regex.rests` — what an expression can leave of a text, the preferred match first;
       `Regex.lengths`, `Regex.find?` — the lengths of its matches and of that match;
    2. `Pattern.regex` — the expression of each pattern;
    3. `Pattern.find?_regex`, `Pattern.le_of_mem_lengths` — the preferred match of a
       pattern is as long as `matchLength` says, and no match of it is longer.
-/

namespace BaseLang

/-! ## Regular expressions -/

/-- A regular expression over characters. -/
inductive Regex where
  /-- The empty text. -/
  | empty
  /-- One character of a class. -/
  | one (class? : Char → Bool)
  | seq (r s : Regex)
  /-- Either of two, the left one preferred. -/
  | alt (r s : Regex)
  /-- Any number of repetitions, more of them preferred to fewer. -/
  | star (r : Regex)

namespace Regex

/-- What is left after at most so many repetitions of a step, each of which takes at least
one character. -/
def repeated (step : List Char → List (List Char)) : Nat → List Char → List (List Char)
  | 0, cs => [cs]
  | n + 1, cs => ((step cs).filter fun rest => rest.length < cs.length).flatMap (repeated step n) ++ [cs]

/-- What is left of a text after each match at its start, in the order of preference. A
repetition cannot take more than the text has. -/
def rests : Regex → List Char → List (List Char)
  | empty, cs => [cs]
  | one _, [] => []
  | one f, c :: cs => if f c then [cs] else []
  | seq r s, cs => (r.rests cs).flatMap s.rests
  | alt r s, cs => r.rests cs ++ s.rests cs
  | star r, cs => repeated r.rests cs.length cs

/-- The lengths of the matches at the start of a text, in the order of preference. -/
def lengths (r : Regex) (cs : List Char) : List Nat := (r.rests cs).map fun rest => cs.length - rest.length

def find? (r : Regex) (cs : List Char) : Option Nat := (r.lengths cs).head?

def plus (r : Regex) : Regex := seq r (star r)

def char (c : Char) : Regex := one (· == c)

def literal : List Char → Regex
  | [] => empty
  | c :: cs => seq (char c) (literal cs)

def within (first last c : Char) : Bool := first ≤ c && c ≤ last

/-! ### What an expression can leave -/

theorem repeated_eq (step : List Char → List (List Char)) : ∀ (n m : Nat) {cs : List Char},
    cs.length ≤ n → cs.length ≤ m → repeated step n cs = repeated step m cs
  | 0, 0, _, _, _ => rfl
  | 0, m + 1, cs, hn, _ => by
    rw [List.eq_nil_of_length_eq_zero (Nat.le_zero.1 hn)]
    simp [repeated]
  | n + 1, 0, cs, _, hm => by
    rw [List.eq_nil_of_length_eq_zero (Nat.le_zero.1 hm)]
    simp [repeated]
  | n + 1, m + 1, cs, hn, hm => by
    rw [repeated, repeated]
    congr 1
    refine List.flatMap_congr fun rest hrest => ?_
    have hless : rest.length < cs.length := by simpa using (List.mem_filter.1 hrest).2
    exact repeated_eq step n m (by omega) (by omega)

/-- A repetition takes one more step, or ends. -/
theorem rests_star (r : Regex) (cs : List Char) :
    (star r).rests cs =
      ((r.rests cs).filter fun rest => rest.length < cs.length).flatMap (star r).rests ++ [cs] := by
  rw [rests, repeated_eq r.rests cs.length (cs.length + 1) (Nat.le_refl _) (Nat.le_succ _), repeated]
  congr 1
  refine List.flatMap_congr fun rest hrest => ?_
  have hless : rest.length < cs.length := by simpa using (List.mem_filter.1 hrest).2
  exact repeated_eq r.rests _ _ (Nat.le_of_lt hless) (Nat.le_refl _)

theorem rests_seq_one (f : Char → Bool) (r : Regex) (c : Char) (cs : List Char) :
    (seq (one f) r).rests (c :: cs) = if f c then r.rests cs else [] := by
  rw [rests, rests]
  split
  · exact List.flatMap_singleton ..
  · rfl

/-- A repetition before something else: one more step, or what comes after it. -/
theorem rests_star_seq (r s : Regex) (cs : List Char) :
    (seq (star r) s).rests cs =
      ((r.rests cs).filter fun rest => rest.length < cs.length).flatMap (seq (star r) s).rests ++
        s.rests cs := by
  rw [rests, rests_star, List.flatMap_append, List.flatMap_assoc, List.flatMap_singleton]
  rfl

theorem rests_literal (text cs : List Char) :
    (literal text).rests cs = if text.isPrefixOf cs then [cs.drop text.length] else [] := by
  induction text generalizing cs with
  | nil => rfl
  | cons c text ih =>
    cases cs with
    | nil => rfl
    | cons d cs =>
      rw [literal, char, rests_seq_one, ih, List.isPrefixOf, Bool.beq_comm (a := d)]
      cases c == d <;> rfl

/-- Of these ends of matches the first is preferred, and it leaves the least. -/
def Prefers (rests : List (List Char)) (best : List Char) : Prop :=
  rests.head? = some best ∧ ∀ rest ∈ rests, best.length ≤ rest.length

theorem Prefers.single (best : List Char) : Prefers [best] best :=
  ⟨rfl, fun _ hrest => List.mem_singleton.1 hrest ▸ Nat.le_refl _⟩

/-- A class is repeated to the end of the run. -/
theorem prefers_star_one (f : Char → Bool) (cs : List Char) :
    Prefers ((star (one f)).rests cs) (cs.dropWhile f) := by
  induction cs with
  | nil => exact ⟨rfl, fun _ _ => Nat.zero_le _⟩
  | cons c cs ih =>
    rw [rests_star, rests, List.dropWhile_cons]
    split
    · obtain ⟨hhead, hleast⟩ := ih
      have hfilter : [cs].filter (fun rest => rest.length < (c :: cs).length) = [cs] := by simp
      rw [hfilter, List.flatMap_singleton]
      refine ⟨?_, fun rest hrest => ?_⟩
      · rw [List.head?_append, hhead]
        rfl
      · rcases List.mem_append.1 hrest with hrest | hrest
        · exact hleast rest hrest
        · rw [List.mem_singleton.1 hrest]
          exact Nat.le_succ_of_le (List.dropWhile_suffix f).length_le
    · exact .single _

end Regex

/-! ## The patterns -/

namespace Pattern

open Regex in
/-- A character of a string, or an escaped one: `[^"\\\n]|\\.`, where a dot is any character
but a line feed. -/
def stringPart : Regex :=
  alt (one fun c => c != '"' && c != '\\' && c != '\n') (seq (char '\\') (one (· != '\n')))

open Regex in
/-- The rest of a string after its opening quote. -/
def stringEnd : Regex := seq (star stringPart) (char '"')

open Regex in
/-- The regular expression of a pattern:
`\s+`, `\$[^\n]*`, `[a-zA-Z_][a-zA-Z0-9_]*`, `[0-9]+`, `"([^"\\\n]|\\.)*"`, or the text of a mark
itself. -/
def regex : Pattern → Regex
  | blanks => plus (one isBlank)
  | comment => seq (char '$') (star (one (· != '\n')))
  | word =>
    seq (one fun c => within 'a' 'z' c || within 'A' 'Z' c || c == '_')
      (star (one fun c => within 'a' 'z' c || within 'A' 'Z' c || within '0' '9' c || c == '_'))
  | numeral => plus (one (within '0' '9'))
  | quoted =>
    seq (char '"') stringEnd
  | mark _ text => literal text.toList

variable {p : Pattern} {cs : List Char}

theorem within_digit (c : Char) : Regex.within '0' '9' c = c.isDigit := rfl

theorem within_letter (c : Char) :
    (Regex.within 'a' 'z' c || Regex.within 'A' 'Z' c || c == '_') = isWordStart c := by
  have hupper : Regex.within 'A' 'Z' c = c.isUpper := (Bool.decide_and ..).symm
  have halpha : c.isAlpha = (c.isUpper || c.isLower) := rfl
  rw [isWordStart, halpha, hupper, Bool.or_comm (Regex.within 'a' 'z' c)]
  rfl

theorem within_part (c : Char) :
    (Regex.within 'a' 'z' c || Regex.within 'A' 'Z' c || Regex.within '0' '9' c || c == '_') =
      isWordPart c := by
  rw [isWordPart, ← within_letter, ← within_digit, Bool.or_right_comm]

theorem drop_takeWhile (f : Char → Bool) (cs : List Char) :
    cs.drop (cs.takeWhile f).length = cs.dropWhile f := by
  have h := @List.drop_left _ (cs.takeWhile f) (cs.dropWhile f)
  rwa [List.takeWhile_append_dropWhile] at h

/-- A character of one class and a run of another. -/
theorem rests_run (f g : Char → Bool) (c : Char) (cs : List Char) :
    if f c then
      Regex.Prefers ((Regex.seq (.one f) (.star (.one g))).rests (c :: cs))
        ((c :: cs).drop ((cs.takeWhile g).length + 1))
    else (Regex.seq (.one f) (.star (.one g))).rests (c :: cs) = [] := by
  rw [Regex.rests_seq_one, List.drop_succ_cons, drop_takeWhile]
  split
  · exact Regex.prefers_star_one g cs
  · rfl

/-- A run of a class that is not empty. -/
theorem rests_plus (f : Char → Bool) (cs : List Char) :
    if 0 < (cs.takeWhile f).length then
      Regex.Prefers ((Regex.plus (.one f)).rests cs) (cs.drop (cs.takeWhile f).length)
    else (Regex.plus (.one f)).rests cs = [] := by
  cases cs with
  | nil => rfl
  | cons c cs =>
    have hrun := rests_run f f c cs
    rw [List.takeWhile_cons]
    by_cases hc : f c = true
    · rw [if_pos hc] at hrun ⊢
      rwa [List.length_cons, if_pos (Nat.zero_lt_succ _)]
    · rw [if_neg hc] at hrun ⊢
      exact hrun

theorem rests_part (c : Char) (cs : List Char) :
    stringPart.rests (c :: cs) =
      (if c != '"' && c != '\\' && c != '\n' then [cs] else []) ++
        if c == '\\' then (Regex.one (· != '\n')).rests cs else [] := by
  rw [stringPart, Regex.rests, Regex.rests, Regex.char, Regex.rests_seq_one]

/-- One part of a string, when it can be taken in one way and the string does not end. -/
theorem rests_string_step {cs rest : List Char} (hpart : stringPart.rests cs = [rest])
    (hless : rest.length < cs.length) (hquote : cs.head? ≠ some '"') :
    stringEnd.rests cs = stringEnd.rests rest := by
  have hend : (Regex.char '"').rests cs = [] := by
    cases cs with
    | nil => rfl
    | cons c cs => exact if_neg (by simpa using hquote)
  rw [stringEnd, Regex.rests_star_seq, hpart, List.filter_singleton, decide_eq_true hless, cond_true,
    List.flatMap_singleton, hend, List.append_nil]

/-- A string that is closed is left behind its closing quote, and has no other match. -/
theorem rests_string (cs : List Char) :
    stringEnd.rests cs = ((closingQuote? cs).map fun n => cs.drop n).toList := by
  fun_induction closingQuote? cs
  case case1 => rfl
  case case2 cs =>
    rw [stringEnd, Regex.rests_star_seq, rests_part]
    rfl
  case case3 => rfl
  case case4 =>
    rw [stringEnd, Regex.rests_star_seq, rests_part]
    rfl
  case case5 c cs hc ih =>
    have hpart : stringPart.rests ('\\' :: c :: cs) = [cs] := by
      rw [rests_part, Regex.rests, if_pos (bne_iff_ne.2 hc)]
      rfl
    rw [rests_string_step hpart (by simp only [List.length_cons]; omega) (by simp), ih]
    cases closingQuote? cs <;> rfl
  case case6 =>
    rw [stringEnd, Regex.rests_star_seq, rests_part]
    rfl
  case case7 c cs hq hend hesc hc ih =>
    have hb := ne_backslash hend hesc
    have hq : c ≠ '"' := hq
    have hpart : stringPart.rests (c :: cs) = [cs] := by
      rw [rests_part, if_pos (by simp [hq, hb, hc]), if_neg (by simpa using hb), List.append_nil]
    rw [rests_string_step hpart (Nat.lt_succ_self _) (by simpa using hq), ih]
    cases closingQuote? cs <;> rfl

/-- A pattern that does not match leaves nothing, and one that does prefers its longest match. -/
theorem rests_regex (hp : p ∈ table) (cs : List Char) :
    if 0 < p.matchLength cs then Regex.Prefers (p.regex.rests cs) (cs.drop (p.matchLength cs))
    else p.regex.rests cs = [] := by
  cases p with
  | blanks => exact rests_plus isBlank cs
  | numeral => exact rests_plus Char.isDigit cs
  | comment =>
    cases cs with
    | nil => rfl
    | cons c cs =>
      have hrun := rests_run (· == '$') (· != '\n') c cs
      by_cases hc : c = '$'
      · subst hc
        exact hrun
      · rw [if_neg (by simpa using hc)] at hrun
        rwa [matchLength.eq_3 _ (by simp [hc])]
  | word =>
    cases cs with
    | nil => rfl
    | cons c cs =>
      have hrun := rests_run isWordStart isWordPart c cs
      rw [regex, funext within_letter, funext within_part, matchLength]
      by_cases hc : isWordStart c = true
      · rw [if_pos hc] at hrun ⊢
        rwa [if_pos (Nat.zero_lt_succ _)]
      · rw [if_neg hc] at hrun ⊢
        exact hrun
  | quoted =>
    cases cs with
    | nil => rfl
    | cons c cs =>
      rw [regex, Regex.char, Regex.rests_seq_one, rests_string]
      by_cases hc : c = '"'
      · subst hc
        rw [matchLength]
        cases closingQuote? cs with
        | none => rfl
        | some n => exact .single _
      · simp [matchLength, hc]
  | mark k t =>
    have ht : 0 < t.toList.length :=
      of_decide_eq_true (of_mark_mem (fun _ t => 0 < t.toList.length) (by decide) hp)
    rw [regex, Regex.rests_literal, matchLength]
    by_cases hpre : t.toList.isPrefixOf cs = true
    · rw [if_pos hpre, if_pos hpre, if_pos ht]
      exact .single _
    · rw [if_neg hpre, if_neg hpre]
      rfl

/-- The match that is found is as long as `matchLength` says. -/
theorem find?_regex (hp : p ∈ table) (cs : List Char) :
    p.regex.find? cs = if 0 < p.matchLength cs then some (p.matchLength cs) else none := by
  have hrests := rests_regex hp cs
  rw [Regex.find?, Regex.lengths]
  split at hrests
  · next hpos =>
    rw [if_pos hpos, List.head?_map, hrests.1, Option.map_some, List.length_drop,
      Nat.sub_sub_self (p.matchLength_le cs)]
  · next hzero =>
    rw [if_neg hzero, hrests]
    rfl

/-- No match is longer than `matchLength` says. -/
theorem le_of_mem_lengths (hp : p ∈ table) {cs : List Char} {n : Nat} (hn : n ∈ p.regex.lengths cs) :
    n ≤ p.matchLength cs := by
  have hrests := rests_regex hp cs
  obtain ⟨rest, hrest, rfl⟩ := List.mem_map.1 hn
  split at hrests
  · have hleast := hrests.2 rest hrest
    rw [List.length_drop] at hleast
    omega
  · rw [hrests] at hrest
    cases hrest

end Pattern

end BaseLang
