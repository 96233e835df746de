import BaseLang.Proofs.Scanning.Separation
import BaseLang.Tree

/-
  The trees that a text can have.

  A tree is printable if its leaves can be written: names scan to identifiers,
  string literals to string tokens, integer literals have no sign, and the types of
  results and formals are single words. How the leaves begin follows from the pattern
  that describes them.
-/

namespace BaseLang

def Ident.Printable (x : Ident) : Prop := IsToken .identifier x.name

def TypeName.IsSimple : TypeName → Prop
  | .tuple _ => False
  | _ => True

def TypeName.Printable : TypeName → Prop
  | .tuple x => x.Printable
  | _ => True

def VarDecl.Printable (d : VarDecl) : Prop := d.type.Printable ∧ d.name.Printable

def Loc.Printable : Loc → Prop
  | .ident x => x.Printable
  | .access _ base field => base.Printable ∧ field.Printable

mutual

def Expr.Printable : Expr → Prop
  | .logical _ _ => True
  | .int v _ => 0 ≤ v.toInt
  | .string t _ => IsToken .stringLiteral t
  | .loc l => l.Printable
  | .assign l v => l.Printable ∧ v.Printable
  | .call f args => f.Printable ∧ Expr.PrintableAll args
  | .unary _ v => v.Printable
  | .binary _ v w => v.Printable ∧ w.Printable

def Expr.PrintableAll : List Expr → Prop
  | [] => True
  | e :: es => e.Printable ∧ Expr.PrintableAll es

end

mutual

def Stmt.Printable : Stmt → Prop
  | .assign l v => l.Printable ∧ v.Printable
  | .increment l | .decrement l | .read l => l.Printable
  | .ifThen c b | .whileDo c b => c.Printable ∧ b.Printable
  | .ifElse c b b' => c.Printable ∧ b.Printable ∧ b'.Printable
  | .write v => v.Printable
  | .call f args => f.Printable ∧ Expr.PrintableAll args
  | .ret none _ => True
  | .ret (some v) _ => v.Printable

def Block.Printable : Block → Prop
  | .mk ds ss => (∀ d ∈ ds, d.Printable) ∧ Stmt.PrintableAll ss

def Stmt.PrintableAll : List Stmt → Prop
  | [] => True
  | s :: ss => s.Printable ∧ Stmt.PrintableAll ss

end

def Decl.Printable : Decl → Prop
  | .var d => d.Printable
  | .function d => d.result.IsSimple ∧ d.name.Printable ∧
      (∀ f ∈ d.formals, f.type.IsSimple ∧ f.name.Printable) ∧ d.body.Printable
  | .tuple d => d.name.Printable ∧ ∀ f ∈ d.fields, f.Printable

/-- Every leaf of the program can be written. -/
def Program.Printable (p : Program) : Prop := ∀ d ∈ p.decls, d.Printable

/-! ## How leaves are written -/

def TokenKind.isFixed : TokenKind → Bool
  | .endOfInput | .intLiteral | .stringLiteral | .identifier => false
  | _ => true

/-- A mark of the table has a kind that is written in one way. -/
theorem isFixed_of_mark {k : TokenKind} {t : String} (h : Pattern.mark k t ∈ Pattern.table) :
    k.isFixed = true :=
  Pattern.of_mark_mem (fun k _ => k.isFixed) (by decide) h

/-- A kind that is neither that of a word nor that of a mark is made by a numeral or a string. -/
theorem numeral_or_quoted {p : Pattern} {k : TokenKind} {text : List Char} (hp : p ∈ Pattern.table)
    (hk : p.kind? text = some k) (hword : k.isWord = false) (hfixed : k.isFixed = false) :
    p = .numeral ∨ p = .quoted := by
  cases p with
  | blanks | comment => cases hk
  | word =>
    have hmade := TokenKind.isWord_ofWord (String.ofList text)
    rw [Option.some.inj hk, hword] at hmade
    cases hmade
  | mark k t =>
    have hmark := isFixed_of_mark hp
    cases hk
    rw [hfixed] at hmark
    cases hmark
  | numeral => exact .inl rfl
  | quoted => exact .inr rfl

/-- An identifier is a word that is not reserved. -/
theorem isToken_identifier_iff {s : String} :
    IsToken .identifier s ↔
      (∃ c cs, s.toList = c :: cs ∧ isWordStart c = true ∧ cs.all isWordPart = true) ∧
        TokenKind.ofWord s = .identifier := by
  rw [isToken_iff]
  constructor
  · rintro ⟨p, hp, hlen, _, hk⟩
    have hpos := Pattern.matchLength_pos hp
    cases p with
    | blanks | comment | numeral | quoted => cases hk
    | mark k t =>
      have hfixed := isFixed_of_mark (List.mem_of_find?_eq_some hp)
      cases hk
      cases hfixed
    | word =>
      cases hcs : s.toList with
      | nil => rw [hcs] at hpos; cases hpos
      | cons c cs =>
        rw [hcs, Pattern.matchLength] at hpos hlen
        split at hpos
        · next hc =>
          rw [if_pos hc] at hlen
          refine ⟨⟨c, cs, rfl, hc, all_of_takeWhile (Nat.succ.inj hlen)⟩, ?_⟩
          rw [Pattern.kind?, String.ofList_toList] at hk
          exact Option.some.inj hk
        · cases hpos
  · rintro ⟨⟨c, cs, hs, hc, hcs⟩, hk⟩
    refine ⟨.word, by rw [hs]; exact Pattern.first?_word hc cs, ?_, (fun h => by cases h), ?_⟩
    · rw [hs, Pattern.matchLength, if_pos hc]
      rw [takeWhile_of_all hcs, List.length_cons]
    · rw [Pattern.kind?, String.ofList_toList, hk]

theorem isToken_stringLiteral {s : String} (h : IsToken .stringLiteral s) :
    ∃ cs, s.toList = '"' :: cs := by
  obtain ⟨p, hp, -, -, hk⟩ := isToken_iff.1 h
  rcases numeral_or_quoted (List.mem_of_find?_eq_some hp) hk rfl rfl with rfl | rfl
  · cases hk
  · obtain ⟨ds, _, hds, _⟩ := exists_closingQuote (Pattern.matchLength_pos hp)
    exact ⟨ds, hds⟩

/-- An integer without a sign is written as a numeral. -/
theorem isToken_int {v : Int32} (h : 0 ≤ v.toInt) :
    IsToken .intLiteral (String.ofList (Decimal.signed v.toInt)) := by
  have hsigned : Decimal.signed v.toInt = Decimal.natural v.toInt.natAbs := by
    rw [Decimal.signed, if_neg (by omega)]
  have hdigits : (Decimal.natural v.toInt.natAbs).all Char.isDigit = true :=
    List.all_eq_true.2 fun c hc => Decimal.isDigit_of_mem_natural hc
  have hvalue := Decimal.int32?_signed v
  rw [isToken_iff, String.toList_ofList]
  rw [hsigned] at hvalue ⊢
  refine ⟨.numeral, ?_, ?_, fun _ => by rw [hvalue]; rfl, rfl⟩
  · cases hcs : Decimal.natural v.toInt.natAbs with
    | nil => exact absurd hcs (Decimal.natural_ne_nil _)
    | cons c cs =>
      rw [hcs] at hdigits
      exact Pattern.first?_numeral (List.all_eq_true.1 hdigits c List.mem_cons_self) cs
  · rw [Pattern.matchLength, takeWhile_of_all hdigits]

end BaseLang
