import BaseLang.Proofs.Parsing.Running

/-
  The bounds in reading expressions are never reached.

  `exprWithin` and `operators` count down from the number of tokens ahead. Each is
  shown to behave alike under every bound that is at least that number, because
  each form takes a token before it reads a part (`start_eq`, `continuation_eq`).
  What comes out are equations without bounds:

    1. `expr_run` — the form that begins an expression, then `continued`.
    2. `continued_run` — one operator and its operand, then `continued` again.
-/

namespace BaseLang.Reader

/-! ## Readers of expressions move forward -/

theorem Forward.target (e : Expr) : Forward (target e) := by
  unfold Reader.target
  split
  · exact .pure _
  · exact .throw _

/-- What each form that begins an expression does after its first token. -/
def afterStart (operand : Operands) : StartRule → Token → Reader Expr
  | .primary, t =>
    match t.kind with
    | .intLiteral =>
      match Decimal.int32? t.text.toList with
      | some value => return .int value t.start
      | none => throw ⟨.badNumber t.text, t.start⟩
    | .stringLiteral => return .string t.text t.start
    | .trueWord => return .logical true t.start
    | .falseWord => return .logical false t.start
    | .identifier => return .loc (.ident (← identOf t))
    | _ => throw ⟨.unexpected t.text, t.start⟩
  | .unary, t => do return .unary (if t.kind = .tilde then .not else .negate) (← operand .unary)
  | .group, _ => do
    let value ← operand .default
    let _ ← expect .closeParen
    return value

/-- What each form that continues an expression does after its operator. -/
def afterOperator (operand : Operands) (left : Expr) (power : BindingPower) :
    OperatorRule → Token → Reader Expr
  | .binary, t =>
    match BinaryOp.ofKind? t.kind with
    | none => throw ⟨.unexpected t.text, t.start⟩
    | some op => do return .binary op left (← operand power)
  | .assign, _ => do
    let place ← target left
    return .assign place (← operand .comma)
  | .call, t =>
    match left with
    | .loc (.ident callee) => do
      let args ← if (← kind) = .closeParen then pure [] else commaList (operand .default)
      let _ ← expect .closeParen
      return .call callee args
    | _ => throw ⟨.unexpectedWith t.text "only a function name can be called", t.start⟩
  | .access, t =>
    match left.place? with
    | none => throw ⟨.unexpectedWith t.text "field access needs a name on its left", t.start⟩
    | some base => do
      let id ← freshId
      return .loc (.access id base (← ident))

theorem start_eq (operand : Operands) (rule : StartRule) :
    start operand rule = advance >>= afterStart operand rule := by
  cases rule <;> rfl

theorem continuation_eq (operand : Operands) (left : Expr) (power : BindingPower)
    (rule : OperatorRule) :
    continuation operand left power rule = advance >>= afterOperator operand left power rule := by
  cases rule <;> rfl

section Operands
variable {operand : Operands} (h : ∀ power, Forward (operand power))
include h

theorem Forward.afterStart (rule : StartRule) (t : Token) : Forward (afterStart operand rule t) := by
  cases rule with
  | primary =>
    dsimp only [Reader.afterStart]
    split
    · split
      · exact .pure _
      · exact .throw _
    · exact .pure _
    · exact .pure _
    · exact .pure _
    · exact .bind (.identOf t) fun _ => .pure _
    · exact .throw _
  | unary => exact .bind (h _) fun _ => .pure _
  | group => exact .bind (h _) fun _ => .bind (.expect _) fun _ => .pure _

theorem Forward.afterOperator (left : Expr) (power : BindingPower) (rule : OperatorRule)
    (t : Token) : Forward (afterOperator operand left power rule t) := by
  cases rule with
  | binary =>
    dsimp only [Reader.afterOperator]
    split
    · exact .throw _
    · exact .bind (h _) fun _ => .pure _
  | assign => exact .bind (.target _) fun _ => .bind (h _) fun _ => .pure _
  | call =>
    dsimp only [Reader.afterOperator]
    split
    · have hclose : ∀ (callee : Ident) (args : List Expr), Forward (do
          let _ ← Reader.expect .closeParen
          return Expr.call callee args) := fun _ _ => .bind (.expect _) fun _ => .pure _
      exact .bind .kind fun _ => .ite (.bind (.pure _) fun _ => hclose _ _)
        (.bind (.commaList (h _)) fun _ => hclose _ _)
    · exact .throw _
  | access =>
    dsimp only [Reader.afterOperator]
    split
    · exact .throw _
    · exact .bind .freshId fun _ => .bind .ident fun _ => .pure _

theorem Forward.start (rule : StartRule) : Forward (start operand rule) := by
  rw [start_eq]
  exact .bind .advance (.afterStart h rule)

theorem Forward.continuation (left : Expr) (power : BindingPower) (rule : OperatorRule) :
    Forward (continuation operand left power rule) := by
  rw [continuation_eq]
  exact .bind .advance (.afterOperator h left power rule)

theorem Forward.operators (rules : Rules) :
    ∀ bound power left, Forward (operators rules operand bound power left)
  | 0, _, _ => .pure _
  | bound + 1, power, left => by
    unfold Reader.operators
    refine .bind .kind fun k => .ite (.pure _) ?_
    split
    · exact .pure _
    · exact .bind (.continuation h _ _ _) fun longer => operators rules bound power longer

end Operands

theorem Forward.exprWithin (rules : Rules) : ∀ bound power, Forward (exprWithin rules bound power)
  | 0, _ => .unexpected
  | bound + 1, power => by
    unfold Reader.exprWithin
    refine .bind .kind fun k => ?_
    split
    · exact .unexpected
    · exact .bind (.start (exprWithin rules bound) _) fun _ =>
        .operators (exprWithin rules bound) _ _ _ _

theorem Forward.expr (rules : Rules) (power : BindingPower) : Forward (expr rules power) :=
  .bind .remaining fun _ => .exprWithin rules _ _

/-! ## Operands that behave alike -/

section Alike
variable {s : TokenStream} {o₁ o₂ : Operands} (h : ∀ power, AgreeFrom s (o₁ power) (o₂ power))
  (hm : ∀ power, Forward (o₁ power))
include h hm

theorem AgreeFrom.afterStart (rule : StartRule) (t : Token) :
    AgreeFrom s (afterStart o₁ rule t) (afterStart o₂ rule t) := by
  cases rule with
  | primary => exact .refl _
  | unary => exact .bind (h _) (hm _) fun _ => .refl _
  | group => exact .bind (h _) (hm _) fun _ => .refl _

theorem AgreeFrom.afterOperator (left : Expr) (power : BindingPower) (rule : OperatorRule)
    (t : Token) :
    AgreeFrom s (afterOperator o₁ left power rule t) (afterOperator o₂ left power rule t) := by
  cases rule with
  | binary =>
    dsimp only [Reader.afterOperator]
    split
    · exact .refl _
    · exact .bind (h _) (hm _) fun _ => .refl _
  | assign => exact .bind (.refl _) (.target _) fun _ => .bind (h _) (hm _) fun _ => .refl _
  | call =>
    dsimp only [Reader.afterOperator]
    split
    · exact .bind (.refl _) .kind fun _ =>
        .ite (.refl _) (.bind (.commaList (h _) (hm _)) (.commaList (hm _)) fun _ => .refl _)
    · exact .refl _
  | access => exact .refl _

end Alike

/-! ## The rules of the language -/

/-- The end of the input begins nothing and continues nothing. -/
theorem standard_endOfInput :
    Rules.standard.start .endOfInput = none ∧ Rules.standard.operator .endOfInput = none ∧
      Rules.standard.stmt .endOfInput = none := ⟨rfl, rfl, rfl⟩

/-- The rules of the language have an entry for none of the ends of the input. -/
theorem ne_end_of_rule {ρ : Type} {entry : TokenKind → Option ρ} (hend : entry .endOfInput = none)
    {k : TokenKind} {rule : ρ} (h : entry k = some rule) : k ≠ .endOfInput := by
  rintro rfl
  rw [hend] at h
  cases h

theorem ahead_ne_nil {s : TokenStream} (h : s.current.kind ≠ .endOfInput) : s.ahead ≠ [] := by
  intro hs
  rw [TokenStream.current_of_ahead_eq_nil hs] at h
  exact h rfl

theorem length_advance_lt {s t : TokenStream} (h : s.ahead ≠ []) (ht : s.advance.LeadsTo t) :
    t.ahead.length < s.ahead.length := by
  have hle := ht.length_le
  have hpos := List.length_pos_iff.2 h
  rw [TokenStream.advance, List.length_tail] at hle
  omega

theorem standard_powerOf_endOfInput (power : BindingPower) :
    Rules.standard.powerOf .endOfInput ≤ power := Nat.zero_le _

theorem kind_run (s : TokenStream) : kind.run s = .ok s.current.kind s := rfl

theorem advance_run (s : TokenStream) : advance.run s = .ok s.current s.advance := rfl

theorem kind_of_length_le_zero {s : TokenStream} (h : s.ahead.length ≤ 0) :
    s.current.kind = .endOfInput := by
  rw [TokenStream.current_of_ahead_eq_nil (List.length_eq_zero_iff.1 (Nat.le_zero.1 h))]
  rfl

/-! ## Operators and expressions -/

/-- Where the input ends, the operators end. -/
theorem operators_at_end {s : TokenStream} (hs : s.current.kind = .endOfInput) (operand : Operands)
    (power : BindingPower) (first : Expr) :
    ∀ bound, (operators .standard operand bound power first).run s = .ok first s
  | 0 => rfl
  | bound + 1 => by
    rw [operators, EStateM.run_bind, kind_run, hs]
    dsimp only
    rw [if_pos (standard_powerOf_endOfInput power), EStateM.run_pure]

/-- Operators read alike under two bounds that both cover the tokens ahead, if their
operands do. -/
theorem operators_congr {o₁ o₂ : Operands} (hm : ∀ power, Forward (o₁ power)) :
    ∀ (b₁ b₂ : Nat) (s : TokenStream), s.ahead.length ≤ b₁ → s.ahead.length ≤ b₂ →
      (∀ power, AgreeFrom s (o₁ power) (o₂ power)) → ∀ power first,
      (operators .standard o₁ b₁ power first).run s =
        (operators .standard o₂ b₂ power first).run s := by
  intro b₁
  induction b₁ with
  | zero =>
    intro b₂ s h₁ _ _ power first
    have hs := kind_of_length_le_zero h₁
    rw [operators_at_end hs, operators_at_end hs]
  | succ b₁ ih =>
    intro b₂ s h₁ h₂ h power first
    cases b₂ with
    | zero =>
      have hs := kind_of_length_le_zero h₂
      rw [operators_at_end hs, operators_at_end hs]
    | succ b₂ =>
      rw [operators, operators, EStateM.run_bind, EStateM.run_bind, kind_run]
      dsimp only
      split
      · rfl
      cases ho : Rules.standard.operator s.current.kind with
      | none => rfl
      | some rule =>
        have hne : s.ahead ≠ [] := ahead_ne_nil fun hk => by
          rw [hk, standard_endOfInput.2.1] at ho
          cases ho
        simp only [continuation_eq, bind_assoc, EStateM.run_bind, advance_run]
        have hs : ∀ power, AgreeFrom s.advance (o₁ power) (o₂ power) :=
          fun p t ht => h p t ((TokenStream.LeadsTo.advance s).trans ht)
        -- both take the same operator, and go on with fewer tokens ahead
        have hfw := Forward.afterOperator hm first (Rules.standard.powerOf s.current.kind) rule
          s.current s.advance
        rw [← AgreeFrom.afterOperator hs hm first (Rules.standard.powerOf s.current.kind) rule
          s.current s.advance (.refl _)]
        cases hx : (afterOperator o₁ first (Rules.standard.powerOf s.current.kind) rule
          s.current).run s.advance with
        | error e t => rfl
        | ok longer t =>
          rw [hx] at hfw
          have hlt : t.ahead.length < s.ahead.length := length_advance_lt hne hfw
          exact ih b₂ t (by omega) (by omega) (fun p u hu => hs p u (hfw.trans hu)) power longer

/-- Where the input ends, no expression begins. -/
theorem exprWithin_at_end {s : TokenStream} (hs : s.current.kind = .endOfInput)
    (power : BindingPower) :
    ∀ bound, (exprWithin .standard bound power).run s = (unexpected : Reader Expr).run s
  | 0 => rfl
  | bound + 1 => by
    rw [exprWithin, EStateM.run_bind, kind_run, hs]
    rfl

/-- Expressions read alike under two bounds that both cover the tokens ahead. -/
theorem exprWithin_congr : ∀ (b₁ b₂ : Nat) (s : TokenStream), s.ahead.length ≤ b₁ →
    s.ahead.length ≤ b₂ → ∀ power,
    (exprWithin .standard b₁ power).run s = (exprWithin .standard b₂ power).run s := by
  intro b₁
  induction b₁ with
  | zero =>
    intro b₂ s h₁ _ power
    have hs := kind_of_length_le_zero h₁
    rw [exprWithin_at_end hs, exprWithin_at_end hs]
  | succ b₁ ih =>
    intro b₂ s h₁ h₂ power
    cases b₂ with
    | zero =>
      have hs := kind_of_length_le_zero h₂
      rw [exprWithin_at_end hs, exprWithin_at_end hs]
    | succ b₂ =>
      rw [exprWithin, exprWithin, EStateM.run_bind, EStateM.run_bind, kind_run]
      dsimp only
      cases ho : Rules.standard.start s.current.kind with
      | none => rfl
      | some rule =>
        have hne : s.ahead ≠ [] := ahead_ne_nil fun hk => by
          rw [hk, standard_endOfInput.1] at ho
          cases ho
        simp only [start_eq, bind_assoc, EStateM.run_bind, advance_run]
        have hm := Forward.exprWithin .standard b₁
        -- operands begin after the first token, where the smaller bounds suffice
        have hs : ∀ power, AgreeFrom s.advance (exprWithin .standard b₁ power)
            (exprWithin .standard b₂ power) := fun p t ht => by
          have hlt := length_advance_lt hne ht
          exact ih b₂ t (by omega) (by omega) p
        have hfw := Forward.afterStart hm rule s.current s.advance
        rw [← AgreeFrom.afterStart hs hm rule s.current s.advance (.refl _)]
        cases hx : (afterStart (exprWithin .standard b₁) rule s.current).run s.advance with
        | error e t => rfl
        | ok first t =>
          rw [hx] at hfw
          have hlt : t.ahead.length < s.ahead.length := length_advance_lt hne hfw
          exact operators_congr hm (b₁ + 1) (b₂ + 1) t (by omega) (by omega)
            (fun p u hu => hs p u (hfw.trans hu)) power first

/-- Under a bound that covers the tokens ahead, an expression reads as under the
bound that `expr` takes. -/
theorem agreeFrom_expr {s : TokenStream} {bound : Nat} (h : s.ahead.length ≤ bound)
    (power : BindingPower) :
    AgreeFrom s (exprWithin .standard bound power) (expr .standard power) :=
  fun t ht => exprWithin_congr bound t.ahead.length t (Nat.le_trans ht.length_le h) (Nat.le_refl _) power

/-- Continues an expression with the operators that follow it and bind more strongly
than the given power. -/
def continued (power : BindingPower) (first : Expr) : Reader Expr := do
  operators .standard (expr .standard) (← remaining) power first

theorem continued_run (power : BindingPower) (first : Expr) (s : TokenStream) :
    (continued power first).run s =
      if Rules.standard.powerOf s.current.kind ≤ power then .ok first s
      else
        match Rules.standard.operator s.current.kind with
        | none => .ok first s
        | some rule =>
          (continuation (expr .standard) first (Rules.standard.powerOf s.current.kind) rule >>=
            continued power).run s := by
  -- one more than the bound of `continued` shows the first round of the loop
  have hcont : (continued power first).run s =
      (operators .standard (expr .standard) (s.ahead.length + 1) power first).run s :=
    operators_congr (.expr .standard) _ _ s (Nat.le_refl _) (Nat.le_succ _) (fun _ => .refl _) _ _
  rw [hcont, operators, EStateM.run_bind, kind_run]
  dsimp only
  split
  · rfl
  cases Rules.standard.operator s.current.kind with
  | none => rfl
  | some rule =>
    dsimp only
    rw [EStateM.run_bind, EStateM.run_bind]
    have hfw := Forward.continuation (.expr .standard) first
      (Rules.standard.powerOf s.current.kind) rule s
    cases hx : (continuation (expr .standard) first (Rules.standard.powerOf s.current.kind)
      rule).run s with
    | error e t => rfl
    | ok longer t =>
      rw [hx] at hfw
      exact operators_congr (.expr .standard) _ _ t hfw.length_le (Nat.le_refl _) (fun _ => .refl _) _ _

theorem expr_run (power : BindingPower) (s : TokenStream) :
    (expr .standard power).run s =
      match Rules.standard.start s.current.kind with
      | none => (unexpected : Reader Expr).run s
      | some rule => (start (expr .standard) rule >>= continued power).run s := by
  have hexpr : (expr .standard power).run s =
      (exprWithin .standard (s.ahead.length + 1) power).run s :=
    exprWithin_congr _ _ s (Nat.le_refl _) (Nat.le_succ _) power
  rw [hexpr, exprWithin, EStateM.run_bind, kind_run]
  dsimp only
  cases Rules.standard.start s.current.kind with
  | none => rfl
  | some rule =>
    dsimp only
    have hm := Forward.exprWithin .standard s.ahead.length
    have hs : ∀ power, AgreeFrom s.advance (exprWithin .standard s.ahead.length power)
        (expr .standard power) := fun p =>
      agreeFrom_expr (TokenStream.LeadsTo.advance s).length_le p
    simp only [start_eq, bind_assoc, EStateM.run_bind, advance_run]
    have hfw := Forward.afterStart hm rule s.current s.advance
    rw [← AgreeFrom.afterStart hs hm rule s.current s.advance (.refl _)]
    cases hx : (afterStart (exprWithin .standard s.ahead.length) rule s.current).run s.advance with
    | error e t => rfl
    | ok first t =>
      rw [hx] at hfw
      have hle : t.ahead.length ≤ s.ahead.length :=
        ((TokenStream.LeadsTo.advance s).trans hfw).length_le
      exact operators_congr hm _ _ t (by omega) (Nat.le_refl _) (fun p u hu => hs p u (hfw.trans hu))
        power first

end BaseLang.Reader
