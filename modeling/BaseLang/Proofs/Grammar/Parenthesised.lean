import BaseLang.Proofs.Grammar.Completeness
import BaseLang.Proofs.Grammar.Soundness
import BaseLang.Proofs.Tree.Relabelling

/-
  Precedence and associativity, for every expression and every way to parenthesise it.

  An expression is printed with parentheses at least where its operators need them: around
  a left operand of a lower level, a right operand of a level not higher, an operand of a
  unary operator that is a binary expression or an assignment. Further parentheses may stand
  around any expression, the names and locations among them.

    1. `Printed`, `PrintedArguments` — the printings, each under the level that what stands
       outside parentheses must have;
    2. `exists_printed` — every expression has one;
    3. `Printed.phrase` — a printing derives an expression that says the same;
    4. `expr_printed` — the reader of a power reads it back and stops at the token after it.
-/

namespace BaseLang.Grammar
open Reader

/-- The levels of the operators between operands, from the weakest to the strongest. -/
def operatorLevel : BinaryOp → Nat
  | .or => BindingPower.logicalOr.level
  | .and => BindingPower.logicalAnd.level
  | .equals | .notEquals | .less | .lessEq | .greater | .greaterEq => BindingPower.relational.level
  | .plus | .minus => BindingPower.additive.level
  | .times | .divide => BindingPower.multiplicative.level

theorem level_powerOf (op : BinaryOp) : (Rules.standard.powerOf op.kind).level = operatorLevel op := by
  cases op <;> rfl

mutual

/-- The tokens print the expression: names, texts and numbers are those of the tokens, and
binary expressions and assignments outside all parentheses are of level `n` at least. The
numbers of nodes and the positions of the expression are not those of the tokens. -/
inductive Printed : Nat → Expr → List Token → Prop
  | int {n t v p} (ht : t.kind = .intLiteral) (hv : Decimal.int32? t.text.toList = some v) :
      Printed n (.int v p) [t]
  | string {n t p} (ht : t.kind = .stringLiteral) : Printed n (.string t.text p) [t]
  | true {n t p} (ht : t.kind = .trueWord) : Printed n (.logical true p) [t]
  | false {n t p} (ht : t.kind = .falseWord) : Printed n (.logical false p) [t]
  | name {n t x} (ht : t.kind = .identifier) (hx : t.text = x.name) : Printed n (.loc (.ident x)) [t]
  | access {n m id base field ts c f} (h : Printed m (.loc base) ts) (hc : c.kind = .colon)
      (hf : f.kind = .identifier) (hx : f.text = field.name) :
      Printed n (.loc (.access id base field)) (ts ++ [c, f])
  | call {n m callee ts o c} (h : Printed m (.loc (.ident callee)) ts) (ho : o.kind = .openParen)
      (hc : c.kind = .closeParen) : Printed n (.call callee []) (ts ++ [o, c])
  | callWith {n m callee args ts o us c} (h : Printed m (.loc (.ident callee)) ts) (ho : o.kind = .openParen)
      (hargs : PrintedArguments args us) (hc : c.kind = .closeParen) :
      Printed n (.call callee args) (ts ++ o :: (us ++ [c]))
  | unary {n op v t ts} (ht : unaryOp? t.kind = some op) (h : Printed BindingPower.unary.level v ts) :
      Printed n (.unary op v) (t :: ts)
  | binary {n op v w ts t us} (hn : n ≤ operatorLevel op) (hv : Printed (operatorLevel op) v ts)
      (ht : t.kind = op.kind) (hw : Printed (operatorLevel op + 1) w us) :
      Printed n (.binary op v w) (ts ++ t :: us)
  | assign {n m l v ts t us} (hn : n ≤ BindingPower.assignment.level) (hl : Printed m (.loc l) ts)
      (ht : t.kind = .assignment) (hv : Printed BindingPower.assignment.level v us) :
      Printed n (.assign l v) (ts ++ t :: us)
  | group {n m e o ts c} (ho : o.kind = .openParen) (h : Printed m e ts) (hc : c.kind = .closeParen) :
      Printed n e (o :: (ts ++ [c]))

/-- The tokens print the arguments, with commas between them. -/
inductive PrintedArguments : List Expr → List Token → Prop
  | last {n e ts} (h : Printed n e ts) : PrintedArguments [e] ts
  | more {n e es ts c us} (h : Printed n e ts) (hc : c.kind = .comma) (hs : PrintedArguments es us) :
      PrintedArguments (e :: es) (ts ++ c :: us)

end

/-! ## Every expression has a printing -/

def plainToken (k : TokenKind) (text : String) : Token := ⟨k, text, .empty .nowhere⟩

theorem exists_printed_loc : ∀ (l : Loc) (n : Nat), ∃ ts, Printed n (.loc l) ts
  | .ident x, _ => ⟨[plainToken .identifier x.name], .name rfl rfl⟩
  | .access _ base field, _ => by
    obtain ⟨ts, h⟩ := exists_printed_loc base 0
    exact ⟨_, .access h (c := plainToken .colon ":") (f := plainToken .identifier field.name) rfl rfl rfl⟩

/-- What is printed somehow is printed in parentheses wherever it stands. -/
theorem Printed.grouped {n : Nat} {e : Expr} (h : ∃ m ts, Printed m e ts) : ∃ ts, Printed n e ts := by
  obtain ⟨m, ts, h⟩ := h
  exact ⟨_, .group (o := plainToken .openParen "(") (c := plainToken .closeParen ")") rfl h rfl⟩

theorem exists_unary_kind (op : UnaryOp) : ∃ k, unaryOp? k = some op := by
  cases op with
  | negate => exact ⟨.dash, rfl⟩
  | not => exact ⟨.tilde, rfl⟩

mutual

/-- A negative number has one as well, of a token that no text has. -/
theorem exists_printed : ∀ (e : Expr) (n : Nat), ∃ ts, Printed n e ts
  | .logical true _, _ => ⟨[plainToken .trueWord "true"], .true rfl⟩
  | .logical false _, _ => ⟨[plainToken .falseWord "false"], .false rfl⟩
  | .int v _, _ =>
    ⟨[plainToken .intLiteral (String.ofList (Decimal.signed v.toInt))], .int rfl (by
      rw [plainToken, String.toList_ofList, Decimal.int32?_signed])⟩
  | .string text _, _ => ⟨[plainToken .stringLiteral text], .string (t := plainToken .stringLiteral text) rfl⟩
  | .loc l, n => exists_printed_loc l n
  | .assign l v, n => by
    obtain ⟨ts, hl⟩ := exists_printed_loc l 0
    obtain ⟨us, hv⟩ := exists_printed v _
    exact Printed.grouped ⟨0, _, .assign (Nat.zero_le _) hl (t := plainToken .assignment "=") rfl hv⟩
  | .call f args, n => by
    obtain ⟨ts, hf⟩ := exists_printed_loc (.ident f) 0
    rcases exists_printed_arguments args with rfl | ⟨us, hargs⟩
    · exact ⟨_, .call hf (o := plainToken .openParen "(") (c := plainToken .closeParen ")") rfl rfl⟩
    · exact ⟨_, .callWith hf (o := plainToken .openParen "(") (c := plainToken .closeParen ")") rfl hargs rfl⟩
  | .unary op v, n => by
    obtain ⟨k, hk⟩ := exists_unary_kind op
    obtain ⟨ts, hv⟩ := exists_printed v _
    exact ⟨_, .unary (t := plainToken k "") hk hv⟩
  | .binary op v w, n => by
    obtain ⟨ts, hv⟩ := exists_printed v _
    obtain ⟨us, hw⟩ := exists_printed w _
    exact Printed.grouped ⟨0, _, .binary (Nat.zero_le _) hv (t := plainToken op.kind op.symbol) rfl hw⟩

theorem exists_printed_arguments : ∀ es : List Expr, es = [] ∨ ∃ ts, PrintedArguments es ts
  | [] => .inl rfl
  | e :: es => by
    obtain ⟨ts, h⟩ := exists_printed e 0
    rcases exists_printed_arguments es with rfl | ⟨us, hs⟩
    · exact .inr ⟨ts, .last h⟩
    · exact .inr ⟨_, .more h (c := plainToken .comma ",") rfl hs⟩

end

/-! ## A printing derives what it prints -/

/-- The expression says the same as the other: they agree up to positions and node numbers. -/
def Says (e e' : Expr) : Prop := e.relabel .erasing = e'.relabel .erasing

theorem Says.loc {e : Expr} {l : Loc} (h : Says e (.loc l)) :
    ∃ l', e = .loc l' ∧ l'.relabel .erasing = l.relabel .erasing := by
  cases e with
  | loc l' => exact ⟨l', rfl, Expr.loc.inj h⟩
  | logical _ _ | int _ _ | string _ _ | assign _ _ | call _ _ | unary _ _ | binary _ _ _ => cases h

/-- The tokens derive an expression that says the same as `e`. Its operators outside all
parentheses are of level `n` at least, or it is of no lower level than a unary one. -/
def Derivable (n : Nat) (e : Expr) (k : NodeId) (ts : List Token) : Prop :=
  ∃ p e' m, Phrase p k ts e' m ∧ Says e' e ∧ BindingPower.assignment.level ≤ p.level ∧
    (p.level < BindingPower.unary.level → n ≤ p.level)

namespace Derivable
variable {n : Nat} {e : Expr} {k : NodeId} {ts : List Token}

/-- What binds as strongly as a call stands anywhere. -/
theorem of_call {e' : Expr} {m : NodeId} (h : Phrase .call k ts e' m) (he : Says e' e) :
    Derivable n e k ts :=
  ⟨.call, e', m, h, he, by decide, fun hp => absurd hp (by decide)⟩

/-- Every expression stands where an assignment may. -/
theorem whole (h : Derivable n e k ts) : ∃ e' m, Phrase .assignment k ts e' m ∧ Says e' e := by
  obtain ⟨p, e', m, h, he, hp, -⟩ := h
  exact ⟨e', m, .weaken hp h, he⟩

/-- An expression of level `n` stands where the weaker powers are asked for. -/
theorem operand {q : BindingPower} (h : Derivable n e k ts) (hq : q.level ≤ n)
    (hu : q.level ≤ BindingPower.unary.level) : ∃ e' m, Phrase q k ts e' m ∧ Says e' e := by
  obtain ⟨p, e', m, h, he, -, hp⟩ := h
  refine ⟨e', m, .weaken ?_ h, he⟩
  rcases Nat.lt_or_ge p.level BindingPower.unary.level with hlt | hge
  · exact Nat.le_trans hq (hp hlt)
  · exact Nat.le_trans hu hge

/-- A location stands where a call may. -/
theorem place {l : Loc} (h : Derivable n (.loc l) k ts) :
    ∃ l' m, Phrase .call k ts (.loc l') m ∧ l'.relabel .erasing = l.relabel .erasing := by
  obtain ⟨p, e', m, h, he, -, -⟩ := h
  obtain ⟨l', rfl, hl⟩ := he.loc
  exact ⟨l', m, h.of_place rfl, hl⟩

theorem callee {x : Ident} (h : Derivable n (.loc (.ident x)) k ts) :
    ∃ y m, Phrase .call k ts (.loc (.ident y)) m ∧
      Relabelling.erasing.ident y = Relabelling.erasing.ident x := by
  obtain ⟨l, m, h, hl⟩ := h.place
  cases l with
  | ident y => exact ⟨y, m, h, Loc.ident.inj hl⟩
  | access _ _ _ => cases hl

end Derivable

mutual

/-- A printing derives what it prints, from any node number on. -/
theorem Printed.derives {n : Nat} {e : Expr} {ts : List Token} (k : NodeId) :
    Printed n e ts → Derivable n e k ts
  | .int ht hv => .of_call (.int ht hv) rfl
  | .string ht => .of_call (.string ht) rfl
  | .true ht => .of_call (.true ht) rfl
  | .false ht => .of_call (.false ht) rfl
  | .name ht hx => .of_call (.name ht) (by rw [Says, Expr.relabel, Loc.relabel, hx]; rfl)
  | .access h hc hf hx => by
    obtain ⟨base, m, h, hbase⟩ := (h.derives k).place
    refine .of_call (.access h hc hf) ?_
    rw [Says, Expr.relabel, Loc.relabel, hbase, hx]
    rfl
  | .call h ho hc => by
    obtain ⟨f, m, h, hf⟩ := (h.derives k).callee
    exact .of_call (.call h ho .none hc) (by rw [Says, Expr.relabel, hf]; rfl)
  | .callWith h ho hargs hc => by
    obtain ⟨f, m, h, hf⟩ := (h.derives k).callee
    obtain ⟨args, m', hargs, hes⟩ := hargs.derives m
    exact .of_call (.call h ho (.some hargs) hc) (by rw [Says, Expr.relabel, hf, hes]; rfl)
  | .unary ht h => by
    obtain ⟨e', m, h, he⟩ := (h.derives k).operand (q := .unary) (Nat.le_refl _) (Nat.le_refl _)
    exact ⟨.unary, _, m, .unary ht h, by rw [Says, Expr.relabel, he]; rfl, by decide,
      fun hp => absurd hp (by decide)⟩
  | @Printed.binary _ op _ _ _ _ _ hn hv ht hw => by
    have hlevel := level_powerOf op
    obtain ⟨-, hge, hle⟩ := binary_power op
    rw [hlevel] at hge hle
    have hunary : operatorLevel op < BindingPower.unary.level := Nat.lt_succ_of_le hle
    obtain ⟨v', m, hv, hsays⟩ := (hv.derives k).operand (q := Rules.standard.powerOf op.kind)
      (Nat.le_of_eq hlevel) (by omega)
    -- outside parentheses the right operand is of a higher level: equal ones group to the left
    obtain ⟨q, w', m', hw, he, -, hq⟩ := hw.derives m
    have htighter : (Rules.standard.powerOf op.kind).level < q.level := by omega
    refine ⟨_, _, m', .binary hv ht (by rw [ht]) htighter hw, by rw [Says, Expr.relabel, hsays, he]; rfl, ?_, ?_⟩
    · exact Nat.le_trans (Nat.le_of_succ_le hge) (Nat.le_of_eq hlevel.symm)
    · exact fun _ => Nat.le_trans hn (Nat.le_of_eq hlevel.symm)
  | .assign hn hl ht hv => by
    obtain ⟨l', m, hl, hsays⟩ := (hl.derives k).place
    obtain ⟨v', m', hv, he⟩ := (hv.derives m).whole
    exact ⟨.assignment, _, m', .assign hl ht hv, by rw [Says, Expr.relabel, hsays, he]; rfl, Nat.le_refl _,
      fun _ => hn⟩
  | .group ho h hc => by
    obtain ⟨e', m, h, he⟩ := (h.derives k).whole
    exact .of_call (.group ho h hc) he

theorem PrintedArguments.derives {es : List Expr} {ts : List Token} (k : NodeId) :
    PrintedArguments es ts → ∃ es' m, Commas (Phrase .assignment) k ts es' m ∧
      Expr.relabelAll .erasing es' = Expr.relabelAll .erasing es
  | .last h => by
    obtain ⟨e', m, h, he⟩ := (h.derives k).whole
    exact ⟨[e'], m, .one h, by rw [Expr.relabelAll, he]; rfl⟩
  | .more h hc hs => by
    obtain ⟨e', m, h, he⟩ := (h.derives k).whole
    obtain ⟨es', m', hs, hes⟩ := hs.derives m
    exact ⟨e' :: es', m', .more h hc hs, by rw [Expr.relabelAll, he, hes]; rfl⟩

end

/-! ## Reading a printing back -/

/-- Precedence and associativity are right. For each power from the weakest to that of unary
operators, an expression has printings whose binary expressions and assignments outside all
parentheses are of a higher level. Before a token that does not bind more strongly than the power,
each of them is read back, up to positions and node numbers, and nothing more than it is read. -/
theorem expr_printed (e : Expr) {bp : BindingPower} (hbp : bp.level ≤ BindingPower.unary.level) :
    (∃ ts, Printed (bp.level + 1) e ts) ∧
      ∀ ts, Printed (bp.level + 1) e ts →
        ∀ rest : List Token, Rules.standard.powerOf (nextKind rest) ≤ bp →
          ∀ (last : String) (span : Span) (k : NodeId), ∃ e' m,
            (expr .standard bp).run ⟨ts ++ rest, last, span, k⟩ = .ok e' ⟨rest, last, span, m⟩ ∧
              Says e' e := by
  refine ⟨exists_printed e _, fun ts h rest hrest last span k => ?_⟩
  obtain ⟨p, e', m, hphrase, he, hassign, hp⟩ := h.derives k
  have hle : (Rules.standard.powerOf (nextKind rest)).level ≤ bp.level := hrest
  have hu : BindingPower.unary.level = 8 := rfl
  -- what is read ends before the token: it does not bind more strongly than any operator read
  have hstops : Stops p (nextKind rest) := ⟨fun _ => by omega, fun _ => by omega⟩
  exact ⟨e', m, run_whole last span (hphrase.read_then hbp (fun _ => by omega) hstops) hrest, he⟩

def plainName (x : String) : Ident := ⟨0, x, .nowhere⟩

/-- The product of a negated sum and a call with an assignment: `-(a + 1) * f(x = y)`. -/
def signedProduct : Expr :=
  .binary .times (.unary .negate (.binary .plus (.loc (.ident (plainName "a"))) (.int 1 .nowhere)))
    (.call (plainName "f") [.assign (.ident (plainName "x")) (.loc (.ident (plainName "y")))])

/-- The callee stands in parentheses that are not needed: `-(a + 1) * (f)(x = y)`. -/
def signedProductTokens : List Token :=
  [plainToken .dash "-", plainToken .openParen "(", plainToken .identifier "a", plainToken .plus "+",
    plainToken .intLiteral "1", plainToken .closeParen ")", plainToken .star "*",
    plainToken .openParen "(", plainToken .identifier "f", plainToken .closeParen ")",
    plainToken .openParen "(", plainToken .identifier "x", plainToken .assignment "=",
    plainToken .identifier "y", plainToken .closeParen ")"]

theorem printed_signedProduct {n : Nat} (hn : n ≤ BindingPower.multiplicative.level) :
    Printed n signedProduct signedProductTokens := by
  have hname : ∀ (x : String) (m : Nat),
      Printed m (.loc (.ident (plainName x))) [plainToken .identifier x] := fun _ _ => .name rfl rfl
  have hone : Printed 7 (.int 1 .nowhere) [plainToken .intLiteral "1"] := .int rfl (by decide)
  have hsum : Printed 0 (.binary .plus (.loc (.ident (plainName "a"))) (.int 1 .nowhere))
      ([plainToken .identifier "a"] ++ plainToken .plus "+" :: [plainToken .intLiteral "1"]) :=
    .binary (Nat.zero_le _) (hname "a" _) rfl hone
  have hassign : Printed 0 (.assign (.ident (plainName "x")) (.loc (.ident (plainName "y"))))
      ([plainToken .identifier "x"] ++ plainToken .assignment "=" :: [plainToken .identifier "y"]) :=
    .assign (Nat.zero_le _) (hname "x" 0) rfl (hname "y" _)
  have hleft := Printed.unary (n := 7) (t := plainToken .dash "-") rfl
    (.group (o := plainToken .openParen "(") rfl hsum (c := plainToken .closeParen ")") rfl)
  have hcallee := Printed.group (n := 0) (o := plainToken .openParen "(") rfl (hname "f" 0)
    (c := plainToken .closeParen ")") rfl
  have hright := Printed.callWith (n := 8) hcallee (o := plainToken .openParen "(") rfl (.last hassign)
    (c := plainToken .closeParen ")") rfl
  exact @Printed.binary n .times _ _ _ (plainToken .star "*") _ hn hleft rfl hright

theorem expr_printed_signedProduct :
    ∃ e' m, (expr .standard .additive).run ⟨signedProductTokens ++ [plainToken .plus "+"], "", .empty .nowhere, 0⟩ =
        .ok e' ⟨[plainToken .plus "+"], "", .empty .nowhere, m⟩ ∧ Says e' signedProduct :=
  (expr_printed signedProduct (by decide)).2 signedProductTokens (printed_signedProduct (by decide)) _
    (by decide) _ _ _

end BaseLang.Grammar
