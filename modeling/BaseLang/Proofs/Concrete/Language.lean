import BaseLang.Proofs.Concrete.Programs
import BaseLang.Proofs.Grammar.Soundness
import BaseLang.Proofs.Scanning.Numerals

/-
  The parser accepts exactly the language of the documented grammar.

    1. `Source.inside` — no token of a derivation is an end of the input.
    2. `exists_source_of_parse` — what is parsed has a derivation.
    3. `Concrete.Source.parse_eq` — what has a derivation is parsed, to its program.
    4. `parse_language` — both, and that there is one derivation.
-/

namespace BaseLang

/-! ## Numerals -/

namespace Decimal

/-- At least one decimal digit and nothing else, with a value that a 32-bit integer can have. -/
def Fits (cs : List Char) : Prop :=
  cs ≠ [] ∧ cs.all Char.isDigit ∧ Nat.ofDigitChars 10 cs 0 ≤ 2147483647

instance (cs : List Char) : Decidable (Fits cs) := inferInstanceAs (Decidable (_ ∧ _ ∧ _))

theorem int32?_isSome {cs : List Char} (h : Fits cs) : (int32? cs).isSome := by
  obtain ⟨hne, hdigits, hle⟩ := h
  exact (int32?_isSome_iff hne hdigits).2 hle

end Decimal

/-! ## The end of the input -/

def beforeEnd (tokens : List Token) : List Token := tokens.takeWhile (·.kind != .endOfInput)

def Inside (ts : List Token) : Prop := ∀ t ∈ ts, t.kind ≠ .endOfInput

namespace Inside
variable {t : Token} {ts us : List Token}

theorem cons (ht : t.kind ≠ .endOfInput) (hs : Inside ts) : Inside (t :: ts) := by
  intro u hu
  rcases List.mem_cons.1 hu with rfl | hu
  · exact ht
  · exact hs u hu

theorem append (h : Inside ts) (h' : Inside us) : Inside (ts ++ us) := by
  intro u hu
  rcases List.mem_append.1 hu with hu | hu
  · exact h u hu
  · exact h' u hu

theorem flatMap {α : Type} {write : α → List Token} (h : ∀ a, Inside (write a)) (as : List α) :
    Inside (as.flatMap write) := by
  intro u hu
  obtain ⟨a, _, hu⟩ := List.mem_flatMap.1 hu
  exact h a u hu

theorem beforeEnd_eq (h : Inside ts) (hus : nextKind us = .endOfInput) : beforeEnd (ts ++ us) = ts := by
  have hall : ∀ t ∈ ts, (t.kind != .endOfInput) = true := fun t ht => bne_iff_ne.2 (h t ht)
  rw [beforeEnd, List.takeWhile_append_of_pos hall]
  cases us with
  | nil => exact List.append_nil ts
  | cons u us =>
    have hu : u.kind = .endOfInput := hus
    rw [List.takeWhile_cons_of_neg (by simp [hu]), List.append_nil]

end Inside

theorem inside_beforeEnd (tokens : List Token) : Inside (beforeEnd tokens) :=
  fun t ht => bne_iff_ne.1 (List.all_eq_true.1 List.all_takeWhile t ht)

theorem beforeEnd_split (tokens : List Token) :
    ∃ rest, tokens = beforeEnd tokens ++ rest ∧ nextKind rest = .endOfInput := by
  refine ⟨tokens.dropWhile (·.kind != .endOfInput), List.takeWhile_append_dropWhile.symm, ?_⟩
  cases h : tokens.dropWhile (·.kind != .endOfInput) with
  | nil => rfl
  | cons t ts =>
    have ht := List.head_dropWhile_not (·.kind != .endOfInput) (l := tokens) (by rw [h]; simp)
    simp only [h, List.head_cons, bne_eq_false_iff_eq] at ht
    exact ht

/-- What lies ahead are the tokens before the first end of the input, and then that end. -/
theorem ahead_ofTokens_split (tokens : List Token) :
    ∃ rest, (TokenStream.ofTokens tokens).ahead = beforeEnd tokens ++ rest ∧ nextKind rest = .endOfInput := by
  -- a last end of the input is all that may be missing
  have hmissing : ∃ tail, tokens = (TokenStream.ofTokens tokens).ahead ++ tail ∧
      nextKind tail = .endOfInput := by
    rw [TokenStream.ahead_ofTokens]
    split
    · next h =>
      obtain ⟨last, hlast, hk⟩ := Option.map_eq_some_iff.1 h
      obtain ⟨before, rfl⟩ := List.getLast?_eq_some_iff.1 hlast
      exact ⟨[last], by rw [List.dropLast_concat], hk⟩
    · exact ⟨[], (List.append_nil tokens).symm, rfl⟩
  obtain ⟨tail, htokens, htail⟩ := hmissing
  generalize (TokenStream.ofTokens tokens).ahead = ahead at htokens ⊢
  subst htokens
  obtain ⟨rest, hahead, hrest⟩ := beforeEnd_split ahead
  have hend : nextKind (rest ++ tail) = .endOfInput := by
    cases rest with
    | nil => exact htail
    | cons t rest => exact hrest
  refine ⟨rest, ?_, hrest⟩
  calc ahead = beforeEnd ahead ++ rest := hahead
    _ = beforeEnd (beforeEnd ahead ++ (rest ++ tail)) ++ rest := by
        rw [(inside_beforeEnd ahead).beforeEnd_eq hend]
    _ = beforeEnd (ahead ++ tail) ++ rest := by rw [← List.append_assoc, ← hahead]

/-! ## No derivation goes past the end -/

namespace Concrete

theorem OneOf.ne_end {ks : List TokenKind} (t : OneOf ks) (h : .endOfInput ∉ ks) :
    t.1.kind ≠ .endOfInput :=
  fun ht => h (ht ▸ t.2)

theorem OneOf.inside {ks : List TokenKind} (t : OneOf ks) {ts : List Token} (h : .endOfInput ∉ ks)
    (hs : Inside ts) : Inside (t.1 :: ts) :=
  .cons (t.ne_end h) hs

theorem inside_nil : Inside [] := nofun

mutual

theorem Exp.inside : {l : Level} → {s : Shape} → (e : Exp l s) → Inside e.tokens
  | _, _, .literal t => t.inside (by decide) inside_nil
  | _, _, .name t => t.inside (by decide) inside_nil
  | _, _, .group o e c => o.inside (by decide) (e.inside.append (c.inside (by decide) inside_nil))
  | _, _, .call callee o c => callee.inside.append (o.inside (by decide) (c.inside (by decide) inside_nil))
  | _, _, .callWith callee o args c =>
    callee.inside.append (o.inside (by decide) (args.inside.append (c.inside (by decide) inside_nil)))
  | _, _, .access base c f => base.inside.append (c.inside (by decide) (f.inside (by decide) inside_nil))
  | _, _, .unary op t e => t.inside (by cases op <;> decide) e.inside
  | _, _, .binary left op _ t right => left.inside.append (t.inside (by cases op <;> decide) right.inside)
  | _, _, .assign target t value => target.inside.append (t.inside (by decide) value.inside)
  | _, _, .lift _ e => e.inside

theorem Arguments.inside : (as : Arguments) → Inside as.tokens
  | .last e => e.inside
  | .more e c rest => e.inside.append (c.inside (by decide) rest.inside)

end

theorem Variable.inside (d : Variable) : Inside d.tokens := by
  obtain ⟨type, x, d⟩ := d
  have hname : Inside [x.1, d.1] := x.inside (by decide) (d.inside (by decide) inside_nil)
  cases type with
  | word t => exact t.inside (by decide) hname
  | tuple w y => exact w.inside (by decide) (y.inside (by decide) hname)

theorem Formal.inside (d : Formal) : Inside d.tokens :=
  d.type.inside (by decide) (d.name.inside (by decide) inside_nil)

theorem Formals.inside (fs : Formals) : Inside fs.tokens := by
  cases fs with
  | none => exact inside_nil
  | some first others => exact first.inside.append (.flatMap (fun d => d.1.inside (by decide) d.2.inside) others)

mutual

theorem Statement.inside : (s : Statement) → Inside s.tokens
  | .assign e d => e.inside.append (d.inside (by decide) inside_nil)
  | .call e d => e.inside.append (d.inside (by decide) inside_nil)
  | .increment e o d => e.inside.append (o.inside (by decide) (d.inside (by decide) inside_nil))
  | .decrement e o d => e.inside.append (o.inside (by decide) (d.inside (by decide) inside_nil))
  | .ifThen w cond body => w.inside (by decide) (cond.inside.append body.inside)
  | .ifElse w cond body v other =>
    w.inside (by decide) (cond.inside.append (body.inside.append (v.inside (by decide) other.inside)))
  | .whileDo w cond body => w.inside (by decide) (cond.inside.append body.inside)
  | .read w a e d =>
    w.inside (by decide) (a.inside (by decide) (e.inside.append (d.inside (by decide) inside_nil)))
  | .write w a e d =>
    w.inside (by decide) (a.inside (by decide) (e.inside.append (d.inside (by decide) inside_nil)))
  | .leave w d => w.inside (by decide) (d.inside (by decide) inside_nil)
  | .giveBack w e d => w.inside (by decide) (e.inside.append (d.inside (by decide) inside_nil))

theorem Block.inside : (b : Block) → Inside b.tokens
  | .mk o decls stmts c =>
    o.inside (by decide)
      ((Inside.flatMap Variable.inside decls).append (stmts.inside.append (c.inside (by decide) inside_nil)))

theorem Statements.inside : (ss : Statements) → Inside ss.tokens
  | .nil => inside_nil
  | .cons s rest => s.inside.append rest.inside

end

theorem Definition.inside (d : Definition) : Inside d.tokens := by
  cases d with
  | var d => exact d.inside
  | function result x o formals c body =>
    exact result.inside (by decide) (x.inside (by decide) (o.inside (by decide)
      (formals.inside.append (c.inside (by decide) body.inside))))
  | tuple w x o fields c d =>
    exact w.inside (by decide) (x.inside (by decide) (o.inside (by decide)
      ((Inside.flatMap Variable.inside fields).append (c.inside (by decide) (d.inside (by decide) inside_nil)))))

theorem Source.inside (d : Source) : Inside d.tokens := .flatMap Definition.inside d.definitions

end Concrete

/-! ## The language -/

open Concrete (Source Valued)

/-- What is parsed are the tokens before the first end of the input. -/
theorem derives_beforeEnd {tokens : List Token} {p : Program} (h : parse tokens = .ok p) :
    ∃ m, Grammar.Derives (beforeEnd tokens) p m := by
  obtain ⟨used, rest, m, hused, hrest, hd⟩ := Grammar.parse_reads h
  obtain ⟨rest', hbefore, hrest'⟩ := ahead_ofTokens_split tokens
  obtain ⟨d, rfl, -⟩ := Concrete.exists_source hd
  have htokens : d.tokens = beforeEnd tokens :=
    calc d.tokens = beforeEnd (d.tokens ++ rest) := (d.inside.beforeEnd_eq hrest).symm
      _ = beforeEnd (beforeEnd tokens ++ rest') := by rw [← hused, hbefore]
      _ = beforeEnd tokens := (inside_beforeEnd tokens).beforeEnd_eq hrest'
  exact ⟨m, htokens ▸ hd⟩

/-- What is parsed has a derivation, whose program is the one returned. -/
theorem exists_source_of_parse {tokens : List Token} {p : Program} (h : parse tokens = .ok p) :
    ∃ d : Source, d.tokens = beforeEnd tokens ∧ d.program = p := by
  obtain ⟨m, hd⟩ := derives_beforeEnd h
  exact Concrete.exists_source hd

/-- The tokens of a derivation are parsed, to the program of the derivation. -/
theorem Concrete.Source.parse_eq {d : Source} {tokens : List Token} (hv : Valued d.tokens)
    (h : d.tokens = beforeEnd tokens) : parse tokens = .ok d.program := by
  obtain ⟨m, hd⟩ := d.derives hv
  obtain ⟨rest, hahead, hrest⟩ := ahead_ofTokens_split tokens
  have hid := TokenStream.nextId_ofTokens tokens
  rw [← h] at hahead
  unfold parse
  generalize TokenStream.ofTokens tokens = s at hahead hid ⊢
  obtain ⟨ahead, x, sp, n⟩ := s
  obtain rfl : ahead = d.tokens ++ rest := hahead
  obtain rfl : n = 0 := hid
  rw [hd.program_run hrest]

/-- Tokens whose integer literals are numerals that fit into 32 bits are parsed if and only if
those before the first end of the input have a derivation as a program. The program returned is
that of the derivation, and there is no other derivation. -/
theorem parse_language {tokens : List Token}
    (h : ∀ t ∈ tokens, t.kind = .intLiteral → Decimal.Fits t.text.toList) :
    (∀ p, parse tokens = .ok p ↔ ∃ d : Source, d.tokens = beforeEnd tokens ∧ d.program = p) ∧
      ∀ d d' : Source, d.tokens = beforeEnd tokens → d'.tokens = beforeEnd tokens → d = d' := by
  have hvalued : Valued (beforeEnd tokens) := fun t ht hk =>
    Decimal.int32?_isSome (h t (List.takeWhile_sublist _ |>.subset ht) hk)
  refine ⟨fun p => ⟨exists_source_of_parse, ?_⟩, fun d d' hd hd' => Source.unique (hd.trans hd'.symm)⟩
  rintro ⟨d, hd, rfl⟩
  exact Source.parse_eq (hd ▸ hvalued) hd

/-- A function in which names, locations, a call and an assignment stand in parentheses, and
tokens after the end of the input: `x = (a):b. (f)(x, 1). (x)++. (a = b).` -/
def parenthesised : List Token :=
  ([(.voidWord, "void"), (.identifier, "main"), (.openCurly, "\x7b"), (.closeCurly, "\x7d"), (.openBracket, "["),
    (.identifier, "x"), (.assignment, "="), (.openParen, "("), (.identifier, "a"), (.closeParen, ")"),
    (.colon, ":"), (.identifier, "b"), (.dot, "."),
    (.openParen, "("), (.identifier, "f"), (.closeParen, ")"), (.openParen, "("), (.identifier, "x"),
    (.comma, ","), (.intLiteral, "1"), (.closeParen, ")"), (.dot, "."),
    (.openParen, "("), (.identifier, "x"), (.closeParen, ")"), (.plusPlus, "++"), (.dot, "."),
    (.openParen, "("), (.identifier, "a"), (.assignment, "="), (.identifier, "b"), (.closeParen, ")"), (.dot, "."),
    (.closeBracket, "]"), (.endOfInput, "EOF"), (.closeBracket, "]")] : List (TokenKind × String)).map
    fun (k, text) => ⟨k, text, .empty .nowhere⟩

theorem parse_language_parenthesised :
    (∀ t ∈ parenthesised, t.kind = .intLiteral → Decimal.Fits t.text.toList) ∧
      ∃ p, parse parenthesised = .ok p ∧ ∃ d : Source, d.tokens = beforeEnd parenthesised ∧ d.program = p ∧
        ∀ d' : Source, d'.tokens = beforeEnd parenthesised → d' = d := by
  have hfits : ∀ t ∈ parenthesised, t.kind = .intLiteral → Decimal.Fits t.text.toList := by decide +kernel
  have hok : (parse parenthesised).isOk = true := by decide +kernel
  obtain ⟨hparse, hunique⟩ := parse_language hfits
  cases hp : parse parenthesised with
  | error e =>
    rw [hp] at hok
    cases hok
  | ok p =>
    obtain ⟨d, hd, hprogram⟩ := (hparse p).1 hp
    exact ⟨hfits, p, rfl, d, hd, hprogram, fun d' hd' => hunique d' d hd' hd⟩

end BaseLang
