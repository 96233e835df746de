import BaseLang.Proofs.Parsing.ExpressionBounds

/-
  The operator loop can be left and entered again.

  An expression is read under a power: the loop over its operators goes on as long as an
  operator binds more strongly. To read it under a weaker power is therefore to read it under
  the stronger one first, and to go on with what comes out.

    1. `continued_of_stop`, `continued_of_operator` — where the loop stops, and one round of it;
    2. `continued_induction` — what holds where it stops, and of a round if it holds of what
       comes after, holds of the loop: a round takes a token;
    3. `continued_stops`, `expr_stops` — what is read ends where no operator follows that binds
       more strongly;
    4. `continued_split`, `expr_split` — the loop is the one under a stronger power and then
       itself, and so is the reading of an expression.
-/

namespace BaseLang.Reader

theorem powerOf_of_operator_eq_none {k : TokenKind} (h : Rules.standard.operator k = none)
    (q : BindingPower) : Rules.standard.powerOf k ≤ q := by
  have h0 : Rules.standard.powerOf k = .default := by
    cases k <;> first | rfl | cases h
  rw [h0]
  exact Nat.zero_le _

/-- What binds more strongly than something is an operator. -/
theorem exists_operator {k : TokenKind} {q : BindingPower} (h : ¬ Rules.standard.powerOf k ≤ q) :
    ∃ rule, Rules.standard.operator k = some rule :=
  Option.ne_none_iff_exists'.1 fun hnone => h (powerOf_of_operator_eq_none hnone q)

/-! ## Rounds of the loop -/

section Round
variable {power : BindingPower} {left : Expr} {s : TokenStream}

theorem continued_of_stop (h : Rules.standard.powerOf s.current.kind ≤ power) :
    (continued power left).run s = .ok left s := by
  rw [continued_run, if_pos h]

variable {rule : OperatorRule} (hrule : Rules.standard.operator s.current.kind = some rule)
include hrule

/-- At an operator that binds more strongly the loop takes the operator and what belongs to it, and
goes on. -/
theorem continued_of_operator (h : ¬ Rules.standard.powerOf s.current.kind ≤ power) :
    (continued power left).run s =
      (continuation (expr .standard) left (Rules.standard.powerOf s.current.kind) rule >>=
        continued power).run s := by
  rw [continued_run, if_neg h, hrule]

/-- Fewer tokens are ahead after that. -/
theorem length_lt_of_continuation {longer : Expr} {t : TokenStream}
    (h : (continuation (expr .standard) left power rule).run s = .ok longer t) :
    t.ahead.length < s.ahead.length := by
  have hforward := Forward.afterOperator (.expr .standard) left power rule s.current s.advance
  rw [continuation_eq, run_bind_ok (advance_run s)] at h
  rw [h] at hforward
  exact length_advance_lt (ahead_ne_nil (ne_end_of_rule standard_endOfInput.2.1 hrule)) hforward

end Round

/-- What holds wherever the loop stops, and at an operator if it holds of all that can come
after the operator, holds of the loop everywhere. -/
theorem continued_induction {motive : Expr → TokenStream → Prop} (power : BindingPower)
    (stop : ∀ left s, Rules.standard.powerOf s.current.kind ≤ power → motive left s)
    (operator : ∀ left s rule, ¬ Rules.standard.powerOf s.current.kind ≤ power →
      Rules.standard.operator s.current.kind = some rule →
      (∀ longer t, (continuation (expr .standard) left (Rules.standard.powerOf s.current.kind) rule).run s =
        .ok longer t → motive longer t) → motive left s)
    (left : Expr) (s : TokenStream) : motive left s := by
  induction hn : s.ahead.length using Nat.strongRecOn generalizing left s with
  | ind n ih =>
    by_cases hpower : Rules.standard.powerOf s.current.kind ≤ power
    · exact stop left s hpower
    · obtain ⟨rule, hrule⟩ := exists_operator hpower
      refine operator left s rule hpower hrule fun longer t hlonger => ?_
      exact ih _ (hn ▸ length_lt_of_continuation hrule hlonger) longer t rfl

/-! ## Where reading stops -/

/-- The operators end where none follows that binds more strongly. -/
theorem continued_stops {q : BindingPower} {left e : Expr} {s u : TokenStream}
    (h : (continued q left).run s = .ok e u) : Rules.standard.powerOf u.current.kind ≤ q := by
  induction left, s using continued_induction q with
  | stop left s hpower =>
    rw [continued_of_stop hpower] at h
    cases h
    exact hpower
  | operator left s rule hpower hrule ih =>
    rw [continued_of_operator hrule hpower] at h
    obtain ⟨longer, t, hlonger, hrest⟩ := bind_eq_ok h
    exact ih longer t hlonger hrest

theorem expr_stops {q : BindingPower} {s u : TokenStream} {e : Expr}
    (h : (expr .standard q).run s = .ok e u) : Rules.standard.powerOf u.current.kind ≤ q := by
  rw [expr_run] at h
  split at h
  · cases h
  · obtain ⟨first, t, -, hrest⟩ := bind_eq_ok h
    exact continued_stops hrest

/-! ## The loop in two parts -/

/-- The loop under a weaker power is the loop under the stronger one, and then it goes on. -/
theorem continued_split {weaker power : BindingPower} (hle : weaker ≤ power) (left : Expr) (s : TokenStream) :
    (continued weaker left).run s = (continued power left >>= continued weaker).run s := by
  induction left, s using continued_induction power with
  | stop left s hpower => rw [run_bind_ok (continued_of_stop hpower)]
  | operator left s rule hpower hrule ih =>
    -- both take the operator, and what belongs to it may fail to be read
    have hweaker : ¬ Rules.standard.powerOf s.current.kind ≤ weaker := fun h => hpower (Nat.le_trans h hle)
    rw [continued_of_operator hrule hweaker, EStateM.run_bind, EStateM.run_bind,
      continued_of_operator hrule hpower, EStateM.run_bind]
    cases hlonger : (continuation (expr .standard) left (Rules.standard.powerOf s.current.kind) rule).run s with
    | error e t => rfl
    | ok longer t => exact ih longer t hlonger

/-- The operator loop splits at any power. From every state of the reader, to read an expression
under a weaker power is to read one under the stronger power and to continue it with the operators
that follow under the weaker one: both give the same tree or the same error, leave the same tokens and
have handed out the same numbers. And where an expression has been read, the next token binds no more
strongly than the power says, or continues nothing. -/
theorem expr_split (power : BindingPower) (s : TokenStream) :
    (∀ weaker ≤ power,
      (expr .standard weaker).run s = (expr .standard power >>= continued weaker).run s) ∧
    ∀ e t, (expr .standard power).run s = .ok e t →
      Rules.standard.powerOf t.current.kind ≤ power ∨ Rules.standard.operator t.current.kind = none := by
  refine ⟨fun weaker hle => ?_, fun e t h => .inl (expr_stops h)⟩
  rw [expr_run, EStateM.run_bind, expr_run]
  cases Rules.standard.start s.current.kind with
  | none => rfl
  | some rule =>
    dsimp only
    rw [EStateM.run_bind, EStateM.run_bind]
    cases (start (expr .standard) rule).run s with
    | error e t => rfl
    | ok first t => exact continued_split hle first t

/-- A product, and a sum that breaks off: `a * b + )`. -/
def brokenSum : TokenStream :=
  ⟨[(.identifier, "a"), (.star, "*"), (.identifier, "b"), (.plus, "+"), (.closeParen, ")")].zipIdx.map
    fun ((kind, text), k) => ⟨kind, text, .empty ⟨1, k + 1⟩⟩, "EOF", .empty ⟨1, 6⟩, 7⟩

/-- The product is read under the power of sums; the error comes when the loop goes on. -/
theorem expr_split_brokenSum :
    BindingPower.default ≤ BindingPower.additive ∧
      (expr .standard .default).run brokenSum = (expr .standard .additive >>= continued .default).run brokenSum ∧
      (expr .standard .default).run brokenSum =
        .error ⟨.unexpected ")", ⟨1, 5⟩⟩ { brokenSum with ahead := brokenSum.ahead.drop 4, nextId := 9 } ∧
      ∃ e t, (expr .standard .additive).run brokenSum = .ok e t ∧ t.current.kind = .plus ∧
        (Rules.standard.powerOf t.current.kind ≤ .additive ∨ Rules.standard.operator t.current.kind = none) := by
  have hsplit := expr_split .additive brokenSum
  have hrun : (expr .standard .additive).run brokenSum =
      .ok (.binary .times (.loc (.ident ⟨7, "a", ⟨1, 1⟩⟩)) (.loc (.ident ⟨8, "b", ⟨1, 3⟩⟩)))
        { brokenSum with ahead := brokenSum.ahead.drop 3, nextId := 9 } := rfl
  exact ⟨by decide, hsplit.1 .default (by decide), rfl, _, _, hrun, rfl, hsplit.2 _ _ hrun⟩

end BaseLang.Reader
