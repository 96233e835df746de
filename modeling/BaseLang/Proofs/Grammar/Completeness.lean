import BaseLang.Proofs.Grammar.Derivation
import BaseLang.Proofs.Parsing.StatementBounds

/-
  Every derivation is read.

  `ReadBy r F` is the form of all that the reader `r` takes off the front of a
  stream, whatever follows, as long as the kind of the token after it satisfies `F`.
  Each form of the grammar is contained in the form that its reader reads:

    1. `Phrase.read_then` — an expression, up to the operators that may follow it.
    2. `Sentence.readBy`, `Body.readBy` — statements and blocks.
    3. `Derives.program_run` — whole programs.
-/

namespace BaseLang.Grammar
open Reader

variable {α : Type}

/-- What the reader takes off the front of a stream if the kind of the token after
it satisfies `F`. -/
def ReadBy (r : Reader α) (F : TokenKind → Prop) : Form α := fun n ts a m =>
  ∀ (rest : List Token) (x : String) (sp : Span), F (nextKind rest) →
    r.run ⟨ts ++ rest, x, sp, n⟩ = .ok a ⟨rest, x, sp, m⟩

/-- The run of tokens is not empty and the kind of its first token satisfies `P`. -/
def Begins (P : TokenKind → Prop) (ts : List Token) : Prop := ∃ t us, ts = t :: us ∧ P t.kind

theorem Begins.append {P : TokenKind → Prop} {ts us : List Token} (h : Begins P ts) :
    Begins P (ts ++ us) := by
  obtain ⟨t, vs, rfl, ht⟩ := h
  exact ⟨t, vs ++ us, rfl, ht⟩

theorem Begins.mono {P Q : TokenKind → Prop} {ts : List Token} (h : Begins P ts)
    (hpq : ∀ k, P k → Q k) : Begins Q ts := by
  obtain ⟨t, vs, rfl, ht⟩ := h
  exact ⟨t, vs, rfl, hpq _ ht⟩

theorem Begins.nextKind {P : TokenKind → Prop} {ts : List Token} (h : Begins P ts)
    (us : List Token) : P (nextKind (ts ++ us)) := by
  obtain ⟨t, vs, rfl, ht⟩ := h
  exact ht

/-! ## Lists -/

section Lists
variable {item : Reader α} {x : String} {sp : Span}

theorem many_stop {goesOn : TokenKind → Bool} (hc : Consumes item) {rest : List Token} {n : NodeId}
    (h : goesOn (nextKind rest) = false) :
    (many goesOn item).run ⟨rest, x, sp, n⟩ = .ok [] ⟨rest, x, sp, n⟩ := by
  rw [many_run hc, current_kind, h]
  rfl

theorem many_cons {goesOn : TokenKind → Bool} (hc : Consumes item) {ts rest us : List Token} {a : α}
    {as : List α} {n k m : NodeId} (h : goesOn (nextKind ts) = true)
    (ha : item.run ⟨ts, x, sp, n⟩ = .ok a ⟨rest, x, sp, k⟩)
    (has : (many goesOn item).run ⟨rest, x, sp, k⟩ = .ok as ⟨us, x, sp, m⟩) :
    (many goesOn item).run ⟨ts, x, sp, n⟩ = .ok (a :: as) ⟨us, x, sp, m⟩ := by
  rw [many_run hc, current_kind, if_pos h, run_bind_ok ha, run_bind_ok has]
  rfl

/-- A list whose items are read, each begun as `goesOn` demands, is read up to a
token with which no item begins. -/
theorem Repeated.readBy (goesOn : TokenKind → Bool) {F : TokenKind → Prop} (hc : Consumes item)
    {n m : NodeId} {ts : List Token} {as : List α}
    (h : Repeated (fun n ts a m => Begins (fun k => goesOn k = true ∧ F k) ts ∧ ReadBy item F n ts a m)
      n ts as m) :
    ReadBy (many goesOn item) (fun k => goesOn k = false ∧ F k) n ts as m := by
  intro rest x sp hrest
  induction h with
  | nil => exact many_stop hc hrest.1
  | @cons n ts a k us as m h hs ih =>
    obtain ⟨hbegin, hread⟩ := h
    have hnext : F (nextKind (us ++ rest)) := by
      cases hs with
      | nil => exact hrest.2
      | cons h' _ => exact (h'.1.append.nextKind rest).2
    rw [List.append_assoc]
    exact many_cons hc (hbegin.nextKind _).1 (hread _ x sp hnext) ih

/-- What follows the first item of a list with commas. -/
theorem Commas.many_run {F : TokenKind → Prop} (hc : Consumes item) (hF : F .comma) {n m : NodeId}
    {us rest : List Token} {as : List α} {c : Token} (h : Commas (ReadBy item F) n us as m)
    (hcomma : c.kind = .comma) (hrest : F (nextKind rest)) (hstop : nextKind rest ≠ .comma) :
    (many (· == .comma) (do let _ ← advance; item)).run ⟨c :: (us ++ rest), x, sp, n⟩ =
      .ok as ⟨rest, x, sp, m⟩ := by
  have hfirst : ((fun k => k == .comma) (nextKind (c :: (us ++ rest)))) = true := by
    rw [nextKind, hcomma]
    rfl
  induction h generalizing c with
  | one h =>
    refine many_cons (.afterComma hc) hfirst ?_ (many_stop (.afterComma hc) ?_)
    · exact h rest x sp hrest
    · exact beq_eq_false_iff_ne.2 hstop
  | @more n ts a k c' us as m h hc' _ ih =>
    refine many_cons (.afterComma hc) hfirst ?_ (ih hc' ?_)
    · rw [run_bind_ok (run_advance _ _), List.append_assoc]
      exact h _ x sp (by rw [List.cons_append, nextKind, hc']; exact hF)
    · rw [nextKind, hc']
      rfl

theorem Commas.readBy {F : TokenKind → Prop} (hc : Consumes item) (hF : F .comma) {n m : NodeId}
    {ts : List Token} {as : List α} (h : Commas (ReadBy item F) n ts as m) :
    ReadBy (commaList item) (fun k => F k ∧ k ≠ .comma) n ts as m := by
  intro rest x sp hrest
  cases h with
  | one h =>
    have hend : (fun k => k == TokenKind.comma) (nextKind rest) = false :=
      beq_eq_false_iff_ne.2 hrest.2
    rw [commaList, run_bind_ok (h rest x sp hrest.1),
      run_bind_ok (many_stop (.afterComma hc) hend)]
    rfl
  | @more _ ts a k c us as _ h hcomma hs =>
    have hfirst := h (c :: (us ++ rest)) x sp (by rw [nextKind, hcomma]; exact hF)
    rw [List.append_assoc, List.cons_append, commaList, run_bind_ok hfirst,
      run_bind_ok (Commas.many_run hc hF hs hcomma hrest.1 hrest.2)]
    rfl

theorem Commas.mono {G H : Form α} (hGH : ∀ n ts a m, G n ts a m → H n ts a m) {n : NodeId}
    {ts : List Token} {as : List α} {m : NodeId} (h : Commas G n ts as m) : Commas H n ts as m := by
  induction h with
  | one h => exact .one (hGH _ _ _ _ h)
  | more h hc _ ih => exact .more (hGH _ _ _ _ h) hc ih

theorem Commas.begins {G : Form α} {P : TokenKind → Prop}
    (hG : ∀ n ts a m, G n ts a m → Begins P ts) {n : NodeId} {ts : List Token} {as : List α}
    {m : NodeId} (h : Commas G n ts as m) : Begins P ts := by
  cases h with
  | one h => exact hG _ _ _ _ h
  | more h _ _ => exact (hG _ _ _ _ h).append

theorem Separated.mono {G H : Form α} (hGH : ∀ n ts a m, G n ts a m → H n ts a m) {n : NodeId}
    {ts : List Token} {as : List α} {m : NodeId} (h : Separated G n ts as m) :
    Separated H n ts as m := by
  cases h with
  | none => exact .none
  | some h => exact .some (h.mono hGH)

/-- A list with commas, or nothing, up to a token with which no item begins. -/
theorem separated_run {β : Type} {F : TokenKind → Prop} {close : TokenKind} (hc : Consumes item)
    (hF : F .comma) {n m : NodeId} {us rest : List Token} {as : List α} {c : Token}
    (h : Separated (fun n ts a m => Begins (· ≠ close) ts ∧ ReadBy item F n ts a m) n us as m)
    (hclose : c.kind = close) (hstop : F close ∧ close ≠ .comma) (f : List α → Reader β) :
    (do if (← kind) = close then f [] else commaList item >>= f : Reader β).run
      ⟨us ++ c :: rest, x, sp, n⟩ = (f as).run ⟨c :: rest, x, sp, m⟩ := by
  rw [run_bind_ok (run_kind _)]
  cases h with
  | none => rw [List.nil_append, nextKind, if_pos hclose]
  | some h =>
    have hfirst := (Commas.begins (fun _ _ _ _ h => h.1) h).nextKind (c :: rest)
    have hread := Commas.readBy hc hF (Commas.mono (fun _ _ _ _ h => h.2) h) (c :: rest) x sp
      (by rw [nextKind, hclose]; exact hstop)
    rw [if_neg hfirst, run_bind_ok hread]

end Lists

/-! ## Expressions -/

/-- No operator that binds more strongly than `p` comes next, nor an assignment
after an assignment: then an expression of power `p` ends. -/
def Stops (p : BindingPower) (k : TokenKind) : Prop :=
  (p.level ≤ 2 → (Rules.standard.powerOf k).level < 2) ∧
    (p.level ≤ 8 → (Rules.standard.powerOf k).level ≤ p.level)

/-- No operator comes next. -/
def Ends (k : TokenKind) : Prop := (Rules.standard.powerOf k).level = 0

theorem Stops.mono {p q : BindingPower} {k : TokenKind} (h : Stops q k)
    (hpq : q.level ≤ p.level) : Stops p k :=
  ⟨fun hp => h.1 (by omega), fun hp => Nat.le_trans (h.2 (by omega)) hpq⟩

theorem Ends.stops {k : TokenKind} (h : Ends k) (p : BindingPower) : Stops p k := by
  have h0 : (Rules.standard.powerOf k).level = 0 := h
  exact ⟨fun _ => by omega, fun _ => by omega⟩

section Expressions
variable {x : String} {sp : Span} {q : BindingPower}

theorem expr_cons {t : Token} {r : StartRule} (h : Rules.standard.start t.kind = some r)
    (rest : List Token) (n : NodeId) :
    (expr .standard q).run ⟨t :: rest, x, sp, n⟩ =
      (afterStart (expr .standard) r t >>= continued q).run ⟨rest, x, sp, n⟩ := by
  rw [expr_run, current_kind, nextKind, h]
  dsimp only
  rw [start_eq, bind_assoc, run_bind_ok (run_advance _ _)]

/-- An expression of one token. -/
theorem leaf_run {t : Token} {e : Expr} {rest : List Token} {n m : NodeId}
    (h : Rules.standard.start t.kind = some .primary)
    (he : (afterStart (expr .standard) .primary t).run ⟨rest, x, sp, n⟩ = .ok e ⟨rest, x, sp, m⟩) :
    (expr .standard q).run ⟨[t] ++ rest, x, sp, n⟩ = (continued q e).run ⟨rest, x, sp, m⟩ := by
  rw [List.singleton_append, expr_cons h, run_bind_ok he]

theorem continued_cons {t : Token} {r : OperatorRule} {left : Expr}
    (ho : Rules.standard.operator t.kind = some r)
    (hq : q.level < (Rules.standard.powerOf t.kind).level) (rest : List Token) (n : NodeId) :
    (continued q left).run ⟨t :: rest, x, sp, n⟩ =
      (afterOperator (expr .standard) left (Rules.standard.powerOf t.kind) r t >>=
        continued q).run ⟨rest, x, sp, n⟩ := by
  have hle : ¬ Rules.standard.powerOf t.kind ≤ q := Nat.not_le.2 hq
  rw [continued_run, current_kind, nextKind, ho, if_neg hle]
  dsimp only
  rw [continuation_eq, bind_assoc, run_bind_ok (run_advance _ _)]

theorem continued_stop {rest : List Token} {left : Expr} {n : NodeId}
    (h : Rules.standard.powerOf (nextKind rest) ≤ q) :
    (continued q left).run ⟨rest, x, sp, n⟩ = .ok left ⟨rest, x, sp, n⟩ := by
  rw [continued_run, current_kind, if_pos h]

/-- An expression that is read up to a token which does not continue it is read whole. -/
theorem run_whole (x : String) (sp : Span) {s : TokenStream} {rest : List Token} {e : Expr} {n : NodeId}
    (h : (expr .standard q).run s = (continued q e).run ⟨rest, x, sp, n⟩)
    (hstop : Rules.standard.powerOf (nextKind rest) ≤ q) :
    (expr .standard q).run s = .ok e ⟨rest, x, sp, n⟩ := by
  rw [h, continued_stop hstop]

theorem run_target (place : Loc) (s : TokenStream) :
    (target (.loc place)).run s = .ok place s := rfl

theorem unaryOp?_start {k : TokenKind} {op : UnaryOp} (h : unaryOp? k = some op) :
    Rules.standard.start k = some .unary := by
  cases k <;> first | rfl | cases h

/-- Every expression begins with a token that begins one, which begins no statement
and closes nothing. -/
theorem Phrase.begins {p : BindingPower} {n : NodeId} {ts : List Token} {e : Expr} {m : NodeId} :
    Phrase p n ts e m → Begins (fun k => (Rules.standard.start k).isSome) ts
  | .int ht _ | .string ht | .true ht | .false ht | .name ht | .group ht _ _ =>
    ⟨_, _, rfl, by rw [ht]; rfl⟩
  | .call h _ _ _ | .access h _ _ | .binary h _ _ _ _ | .assign h _ _ => h.begins.append
  | .unary ht _ => ⟨_, _, rfl, by dsimp only; rw [unaryOp?_start ht]; rfl⟩
  | .weaken _ h => h.begins

/-- The form of an argument: it begins like an expression and is read up to a token
that is no operator. -/
def Argument : Form Expr := fun n ts e m =>
  Begins (fun k => (Rules.standard.start k).isSome) ts ∧ ReadBy (expr .standard .default) Ends n ts e m

theorem Argument.intro {n : NodeId} {ts : List Token} {e : Expr} {m : NodeId}
    (hb : Begins (fun k => (Rules.standard.start k).isSome) ts)
    (h : ∀ (rest : List Token) (x : String) (sp : Span), Ends (nextKind rest) →
      (expr .standard .default).run ⟨ts ++ rest, x, sp, n⟩ =
        (continued .default e).run ⟨rest, x, sp, m⟩) : Argument n ts e m :=
  ⟨hb, fun rest x sp hend => run_whole x sp (h rest x sp hend) (Nat.le_of_eq hend)⟩

/-- The arguments of a call, up to the closing parenthesis. -/
theorem arguments_run {callee : Ident} {k m : NodeId} {us rest : List Token} {args : List Expr}
    {left : BindingPower} {o c : Token} (h : Separated Argument k us args m)
    (hc : c.kind = .closeParen) :
    (afterOperator (expr .standard) (.loc (.ident callee)) left .call o).run
        ⟨us ++ c :: rest, x, sp, k⟩ = .ok (.call callee args) ⟨rest, x, sp, m⟩ := by
  have hitems := h.mono fun _ _ _ _ h => And.intro
    (h.1.mono (Q := (· ≠ .closeParen)) fun _ hk => by rintro rfl; cases hk) h.2
  refine (separated_run (F := Ends) (.expr .default) rfl hitems hc ⟨rfl, by decide⟩
    fun args => expect .closeParen >>= fun _ => pure (Expr.call callee args)).trans ?_
  rw [run_bind_ok (run_expect hc rest)]
  rfl

theorem unaryOp?_eq {k : TokenKind} {op : UnaryOp} (h : unaryOp? k = some op) :
    (if k = .tilde then UnaryOp.not else .negate) = op := by
  cases k <;> cases h <;> rfl

end Expressions

mutual

/-- An expression is read up to the operators that continue it from outside. -/
theorem Phrase.read_then {p : BindingPower} {n : NodeId} {ts : List Token} {e : Expr} {m : NodeId}
    {q : BindingPower} {rest : List Token} {x : String} {sp : Span} (hq : q.level ≤ 8) :
    Phrase p n ts e m → (p.level ≤ 7 → q.level < p.level) → Stops p (nextKind rest) →
      (expr .standard q).run ⟨ts ++ rest, x, sp, n⟩ = (continued q e).run ⟨rest, x, sp, m⟩
  | .int ht hv, _, _ => leaf_run (by rw [ht]; rfl) (by simp only [afterStart, ht, hv]; rfl)
  | .string ht, _, _ => leaf_run (by rw [ht]; rfl) (by simp only [afterStart, ht]; rfl)
  | .true ht, _, _ => leaf_run (by rw [ht]; rfl) (by simp only [afterStart, ht]; rfl)
  | .false ht, _, _ => leaf_run (by rw [ht]; rfl) (by simp only [afterStart, ht]; rfl)
  | .name ht, _, _ => leaf_run (by rw [ht]; rfl) (by simp only [afterStart, ht]; rfl)
  | @Phrase.group _ o ts _ c _ ho h hc, _, _ => by
    -- within parentheses every operator is taken, and the closing one is none
    have hend : Ends (nextKind (c :: rest)) := by rw [nextKind, hc]; rfl
    have hin := run_whole x sp (h.read_then (q := .default) (by decide) (fun _ => by decide) (hend.stops _))
      (Nat.le_of_eq hend)
    have hts : o :: (ts ++ [c]) ++ rest = o :: (ts ++ c :: rest) := by simp
    rw [hts, expr_cons (r := .group) (by rw [ho]; rfl), afterStart, bind_assoc, run_bind_ok hin,
      bind_assoc, run_bind_ok (run_expect hc rest), pure_bind]
  | @Phrase.call _ ts _ _ o us _ c _ h ho hargs hc, _, _ => by
    have hts : ts ++ o :: (us ++ [c]) ++ rest = ts ++ o :: (us ++ c :: rest) := by simp
    have hpow : Rules.standard.powerOf o.kind = .call := by rw [ho]; rfl
    rw [hts, h.read_then hq (fun hp => absurd hp (by decide)) ⟨nofun, nofun⟩,
      continued_cons (r := .call) (by rw [ho]; rfl) (by rw [hpow]; exact Nat.lt_succ_of_le hq),
      run_bind_ok (arguments_run (Phrase.arguments hargs) hc)]
  | @Phrase.access _ ts _ _ c f h hc hf, _, _ => by
    have hts : ts ++ [c, f] ++ rest = ts ++ c :: f :: rest := by simp
    have hpow : Rules.standard.powerOf c.kind = .member := by rw [hc]; rfl
    rw [hts, h.read_then hq (fun hp => absurd hp (by decide)) ⟨nofun, nofun⟩,
      continued_cons (r := .access) (by rw [hc]; rfl)
        (by rw [hpow]; exact Nat.lt_succ_of_le (Nat.le_succ_of_le hq))]
    dsimp only [afterOperator, Expr.place?]
    rw [bind_assoc]
    refine (run_bind_ok (t := ⟨f :: rest, x, sp, _⟩) rfl).trans ?_
    rw [bind_assoc, run_bind_ok (run_ident hf rest), pure_bind]
  | @Phrase.unary _ t _ ts _ _ ht h, _, hs => by
    have hin := run_whole x sp (h.read_then (q := .unary) (by decide) (fun hp => absurd hp (by decide)) hs)
      (hs.2 (Nat.le_refl _))
    rw [List.cons_append, expr_cons (r := .unary) (unaryOp?_start ht), afterStart, bind_assoc,
      run_bind_ok hin, pure_bind, unaryOp?_eq ht]
  | @Phrase.binary _ _ ts _ _ t op us _ _ _ hl ht hp hpq hr, hqp, hs => by
    obtain ⟨hop, hge, hle⟩ := binary_power op
    rw [← ht, hp] at hge hle
    have hts : ts ++ t :: us ++ rest = ts ++ t :: (us ++ rest) := by simp
    -- the left side does not go on with the operator, nor the right side with the next
    -- one of the same power: operators associate to the left
    have hstop : Stops p (nextKind (t :: (us ++ rest))) :=
      ⟨fun h => by omega, fun _ => Nat.le_of_eq (by rw [nextKind, hp])⟩
    have hin := run_whole x sp (hr.read_then (q := p) (Nat.le_succ_of_le hle) (fun _ => hpq)
      (hs.mono (Nat.le_of_lt hpq))) (hs.2 (Nat.le_succ_of_le hle))
    rw [hts, hl.read_then hq hqp hstop,
      continued_cons (r := .binary) (by rw [ht]; exact hop) (by rw [hp]; exact hqp hle), hp]
    dsimp only [afterOperator]
    rw [ht, BinaryOp.ofKind?_eq_some_iff.2 rfl]
    dsimp only
    rw [bind_assoc, run_bind_ok hin, pure_bind]
  | @Phrase.assign _ ts _ _ t us _ _ h ht hv, hqp, hs => by
    have hts : ts ++ t :: us ++ rest = ts ++ t :: (us ++ rest) := by simp
    have hpow : Rules.standard.powerOf t.kind = .assignment := by rw [ht]; rfl
    -- the value may be an assignment itself: it is read with the power of a comma
    have hin := run_whole x sp (hv.read_then (q := .comma) (by decide) (fun _ => by decide) hs)
      (Nat.le_of_lt_succ (hs.1 (Nat.le_refl _)))
    rw [hts, h.read_then hq (fun hp => absurd hp (by decide)) ⟨nofun, nofun⟩,
      continued_cons (r := .assign) (by rw [ht]; rfl) (by rw [hpow]; exact hqp (by decide)),
      afterOperator, bind_assoc, run_bind_ok (run_target _ _), bind_assoc, run_bind_ok hin, pure_bind]
  | .weaken hpq h, hqp, hs =>
    h.read_then hq (fun hp => Nat.lt_of_lt_of_le (hqp (Nat.le_trans hpq hp)) hpq) (hs.mono hpq)

theorem Phrase.arguments {n : NodeId} {ts : List Token} {es : List Expr} {m : NodeId} :
    Separated (Phrase .assignment) n ts es m → Separated Argument n ts es m
  | .none => .none
  | .some h => .some (Phrase.argumentList h)

theorem Phrase.argumentList {n : NodeId} {ts : List Token} {es : List Expr} {m : NodeId} :
    Commas (Phrase .assignment) n ts es m → Commas Argument n ts es m
  | .one h => .one (.intro h.begins fun _ _ _ hend =>
      h.read_then (q := .default) (by decide) (fun _ => by decide) (hend.stops _))
  | .more h hc hs => .more (.intro h.begins fun _ _ _ hend =>
      h.read_then (q := .default) (by decide) (fun _ => by decide) (hend.stops _)) hc (Phrase.argumentList hs)

end

theorem Phrase.readBy {n : NodeId} {ts : List Token} {e : Expr} {m : NodeId}
    (h : Phrase .assignment n ts e m) : ReadBy (expr .standard .default) Ends n ts e m :=
  fun _ x sp hend => run_whole x sp (h.read_then (by decide) (fun _ => by decide) (hend.stops _))
    (Nat.le_of_eq hend)

/-! ## Types and declarations of names -/

def Anything (_ : TokenKind) : Prop := True

theorem SimpleType.typeName_run {t : Token} {type : TypeName} (h : SimpleType t type)
    (rest : List Token) (x : String) (sp : Span) (n : NodeId) :
    (typeName .standard).run ⟨t :: rest, x, sp, n⟩ = .ok type ⟨rest, x, sp, n⟩ ∧
      t.kind.isSimpleType = true := by
  cases h with
  | logical ht | integer ht | void ht =>
    refine ⟨?_, by rw [ht]; rfl⟩
    rw [typeName, run_bind_ok (run_kind _), nextKind, ht]
    refine (run_bind_ok (run_advance _ _)).trans ?_
    rw [ht]
    rfl

theorem SimpleType.readBy {t : Token} {type : TypeName} (h : SimpleType t type) (n : NodeId) :
    ReadBy (simpleType .standard) Anything n [t] type n := by
  intro rest x sp _
  obtain ⟨hrun, hsimple⟩ := h.typeName_run rest x sp n
  rw [List.singleton_append, simpleType, run_bind_ok (run_kind _), nextKind, if_pos hsimple, hrun]

theorem Typed.readBy {n : NodeId} {ts : List Token} {type : TypeName} {m : NodeId}
    (h : Typed n ts type m) : ReadBy (typeName .standard) Anything n ts type m := by
  intro rest x sp _
  cases h with
  | simple h => exact (h.typeName_run rest x sp n).1
  | tuple ht hu =>
    rw [List.cons_append, List.singleton_append, typeName, run_bind_ok (run_kind _), nextKind, ht]
    refine (run_bind_ok (run_expect ht _)).trans ?_
    rw [run_bind_ok (run_ident hu rest)]
    rfl

/-- A declaration begins with the first word of a type. -/
theorem Typed.begins {n : NodeId} {ts : List Token} {type : TypeName} {m : NodeId}
    (h : Typed n ts type m) : Begins (fun k => (k.isSimpleType || k == .tupleWord) = true) ts := by
  cases h with
  | simple h => cases h with
    | logical ht | integer ht | void ht => exact ⟨_, _, rfl, by rw [ht]; rfl⟩
  | tuple ht _ => exact ⟨_, _, rfl, by rw [ht]; rfl⟩

theorem of_type_word {k : TokenKind} (h : (k.isSimpleType || k == .tupleWord) = true) :
    k ≠ .endOfInput ∧ (k != .closeCurly) = true := by
  refine ⟨?_, bne_iff_ne.2 ?_⟩ <;> rintro rfl <;> cases h

theorem Variable.begins {n : NodeId} {ts : List Token} {d : VarDecl} {m : NodeId}
    (h : Variable n ts d m) : Begins (fun k => (k.isSimpleType || k == .tupleWord) = true) ts := by
  obtain ⟨h, _, _⟩ := h
  exact h.begins.append

theorem Variable.readBy {n : NodeId} {ts : List Token} {d : VarDecl} {m : NodeId}
    (h : Variable n ts d m) : ReadBy (varDecl .standard) Anything n ts d m := by
  intro rest x sp _
  obtain ⟨h, hu, hd⟩ := h
  rw [List.append_assoc, varDecl, run_bind_ok (h.readBy _ x sp trivial), List.cons_append,
    run_bind_ok (run_ident hu _), List.singleton_append, run_bind_ok (run_expect hd rest)]
  rfl

theorem Formal.readBy {n : NodeId} {ts : List Token} {d : VarDecl} {m : NodeId}
    (h : Formal n ts d m) : ReadBy (formal .standard) Anything n ts d m := by
  intro rest x sp _
  obtain ⟨h, hu⟩ := h
  rw [List.cons_append, formal, ← List.singleton_append, run_bind_ok (h.readBy n _ x sp trivial),
    List.singleton_append, run_bind_ok (run_ident hu rest)]
  rfl

/-! ## Statements and blocks -/

theorem ReadBy.unlessAtEnd {item : Reader α} {F : TokenKind → Prop} {note : String} {n : NodeId}
    {ts : List Token} {a : α} {m : NodeId} (hb : Begins (· ≠ .endOfInput) ts)
    (h : ReadBy item F n ts a m) :
    ReadBy (do if (← kind) = .endOfInput then unexpectedWith note else item) F n ts a m := by
  intro rest x sp hrest
  rw [run_bind_ok (run_kind _), if_neg (hb.nextKind rest), h rest x sp hrest]

theorem Repeated.mono {G H : Form α} (hGH : ∀ n ts a m, G n ts a m → H n ts a m) {n : NodeId}
    {ts : List Token} {as : List α} {m : NodeId} (h : Repeated G n ts as m) :
    Repeated H n ts as m := by
  induction h with
  | nil => exact .nil
  | cons h _ ih => exact .cons (hGH _ _ _ _ h) ih

/-- The kind of a token with which a statement begins. -/
def BeginsStmt (k : TokenKind) : Prop :=
  (Rules.standard.stmt k).isSome ∨ (Rules.standard.start k).isSome

theorem BeginsStmt.not_else {k : TokenKind} (h : BeginsStmt k) : k ≠ .elseWord := by
  rintro rfl
  rcases h with h | h <;> cases h

theorem BeginsStmt.goesOn {k : TokenKind} (h : BeginsStmt k) :
    (k != .closeBracket) = true ∧ k ≠ .elseWord :=
  ⟨bne_iff_ne.2 (by rintro rfl; rcases h with h | h <;> cases h), h.not_else⟩

theorem BeginsStmt.not_end {k : TokenKind} (h : BeginsStmt k) : k ≠ .endOfInput := by
  rintro rfl
  rcases h with h | h <;> cases h

theorem BeginsStmt.not_type {k : TokenKind} (h : BeginsStmt k) :
    (k.isSimpleType || k == .tupleWord) = false := by
  cases k <;> first | rfl | (rcases h with h | h <;> cases h)

/-- What begins an expression is not the first word of a statement. -/
theorem not_stmt_of_start {k : TokenKind} (h : (Rules.standard.start k).isSome) :
    Rules.standard.stmt k = none := by
  cases k <;> first | rfl | cases h

theorem Sentence.begins {n : NodeId} {ts : List Token} {s : Stmt} {m : NodeId}
    (h : Sentence n ts s m) : Begins BeginsStmt ts := by
  cases h with
  | assign h _ | call h _ | increment h _ _ | decrement h _ _ =>
    exact (h.begins.mono fun _ hk => .inr hk).append
  | ifThen hw _ _ | ifElse hw _ _ _ _ | whileDo hw _ _ | read hw _ _ _ | write hw _ _ _
  | leave hw _ | giveBack hw _ _ => exact ⟨_, _, rfl, .inl (by rw [hw]; rfl)⟩

section Statements
variable {x : String} {sp : Span}

theorem stmt_cons {t : Token} {r : StmtRule} (h : Rules.standard.stmt t.kind = some r)
    (rest : List Token) (n : NodeId) :
    (stmt .standard).run ⟨t :: rest, x, sp, n⟩ =
      (afterWord .standard (stmt .standard) r t).run ⟨rest, x, sp, n⟩ := by
  rw [stmt_run, current_kind, nextKind, h]
  dsimp only
  rw [run_bind_ok (run_advance _ _)]

/-- A statement that begins with an expression. -/
theorem stmt_phrase {n : NodeId} {ts rest : List Token} {e : Expr} {m : NodeId}
    (h : Phrase .assignment n ts e m) (hend : Ends (nextKind rest)) :
    (stmt .standard).run ⟨ts ++ rest, x, sp, n⟩ = (afterExpr e).run ⟨rest, x, sp, m⟩ := by
  rw [stmt_run, current_kind, not_stmt_of_start (h.begins.nextKind rest)]
  dsimp only
  rw [exprStmt_eq, run_bind_ok (h.readBy rest x sp hend)]

theorem afterExpr_dot {d : Token} (hd : d.kind = .dot) (e : Expr) (rest : List Token) (n : NodeId) :
    (afterExpr e).run ⟨d :: rest, x, sp, n⟩ =
      (match e with
        | .assign place value => pure (.assign place value)
        | .call callee args => pure (.call callee args)
        | _ => throw ⟨.invalidStatement, e.position⟩ : Reader Stmt).run ⟨rest, x, sp, n⟩ := by
  unfold afterExpr
  rw [run_bind_ok (run_kind _), nextKind, hd]
  exact run_bind_ok (run_advance _ _)

theorem afterExpr_step {o d : Token} (hd : d.kind = .dot) (place : Loc) (rest : List Token)
    (n : NodeId) :
    (o.kind = .plusPlus → (afterExpr (.loc place)).run ⟨o :: d :: rest, x, sp, n⟩ =
      .ok (.increment place) ⟨rest, x, sp, n⟩) ∧
    (o.kind = .minusMinus → (afterExpr (.loc place)).run ⟨o :: d :: rest, x, sp, n⟩ =
      .ok (.decrement place) ⟨rest, x, sp, n⟩) := by
  constructor
  all_goals
    intro ho
    unfold afterExpr
    rw [run_bind_ok (run_kind _), nextKind, ho]
    dsimp only
    rw [run_bind_ok (run_advance _ _), run_bind_ok (run_expect hd rest)]
    rfl

/-- An expression and a dot after it. -/
theorem Phrase.run_dot {n : NodeId} {ts : List Token} {e : Expr} {m : NodeId}
    (h : Phrase .assignment n ts e m) {d : Token} (hd : d.kind = .dot) (rest : List Token)
    (f : Expr → Reader α) :
    (expr .standard .default >>= fun e => expect .dot >>= fun _ => f e).run
        ⟨ts ++ d :: rest, x, sp, n⟩ = (f e).run ⟨rest, x, sp, m⟩ := by
  have hend : Ends (nextKind (d :: rest)) := by rw [nextKind, hd]; rfl
  rw [run_bind_ok (h.readBy _ x sp hend), run_bind_ok (run_expect hd rest)]

/-- A condition and the block after it. -/
theorem Phrase.run_block {n : NodeId} {ts : List Token} {cond : Expr} {k : NodeId}
    (h : Phrase .assignment n ts cond k) {us : List Token} {body : Block} {m : NodeId}
    (hb : Begins (· = .openBracket) us)
    (hbody : ReadBy (blockOf .standard (stmt .standard)) Anything k us body m) (rest : List Token)
    (f : Expr → Block → Reader α) :
    (expr .standard .default >>= fun e => blockOf .standard (stmt .standard) >>= fun b => f e b).run
        ⟨ts ++ (us ++ rest), x, sp, n⟩ = (f cond body).run ⟨rest, x, sp, m⟩ := by
  have hend : Ends (nextKind (us ++ rest)) := by rw [hb.nextKind rest]; rfl
  rw [run_bind_ok (h.readBy _ x sp hend), run_bind_ok (hbody rest x sp trivial)]

end Statements

theorem Body.begins {n : NodeId} {ts : List Token} {b : Block} {m : NodeId} (h : Body n ts b m) :
    Begins (· = .openBracket) ts := by
  obtain ⟨ho, _, _, _⟩ := h
  exact ⟨_, _, rfl, ho⟩

def Item : Form Stmt := fun n ts s m =>
  Begins BeginsStmt ts ∧ ReadBy (stmt .standard) (· ≠ .elseWord) n ts s m

/-- The block of declarations and statements that are read. -/
theorem blockOf_readBy {n k m : NodeId} {o c : Token} {ts us : List Token} {decls : List VarDecl}
    {stmts : List Stmt} (ho : o.kind = .openBracket) (hd : Repeated Variable n ts decls k)
    (hs : Repeated Item k us stmts m) (hc : c.kind = .closeBracket) :
    ReadBy (blockOf .standard (stmt .standard)) Anything n (o :: (ts ++ (us ++ [c])))
      (.mk decls stmts) m := by
  intro rest x sp _
  have hts : o :: (ts ++ (us ++ [c])) ++ rest = o :: (ts ++ (us ++ c :: rest)) := by simp
  have hdecls := Repeated.readBy (fun k => k.isSimpleType || k == .tupleWord)
    (F := Anything) (.varDecl .standard)
    (hd.mono fun _ _ _ _ h => ⟨h.begins.mono fun _ hk => ⟨hk, trivial⟩, h.readBy⟩)
  have hstmts := Repeated.readBy (· != .closeBracket) (F := (· ≠ .elseWord))
    (Consumes.unlessAtEnd "expected `]` to close the block" .stmt)
    (hs.mono fun _ _ _ _ h => ⟨h.1.mono fun _ hk => hk.goesOn,
      h.2.unlessAtEnd (h.1.mono fun _ hk => hk.not_end)⟩)
  have hnext : ((nextKind (us ++ c :: rest)).isSimpleType ||
      nextKind (us ++ c :: rest) == .tupleWord) = false := by
    cases hs with
    | nil => rw [List.nil_append, nextKind, hc]; rfl
    | cons h _ => exact (h.1.append.nextKind _).not_type
  rw [hts, blockOf, run_bind_ok (run_expect ho _),
    run_bind_ok (hdecls _ x sp ⟨hnext, trivial⟩),
    run_bind_ok (hstmts _ x sp (by rw [nextKind, hc]; exact ⟨rfl, by decide⟩)),
    run_bind_ok (run_expect hc rest)]
  rfl

mutual

theorem Sentence.readBy {n : NodeId} {ts : List Token} {s : Stmt} {m : NodeId} :
    Sentence n ts s m → ReadBy (stmt .standard) (· ≠ .elseWord) n ts s m
  | .assign h hd => fun rest x sp _ => by
    rw [List.append_assoc, List.singleton_append,
      stmt_phrase h (by rw [nextKind, hd]; rfl), afterExpr_dot hd]
    rfl
  | .call h hd => fun rest x sp _ => by
    rw [List.append_assoc, List.singleton_append,
      stmt_phrase h (by rw [nextKind, hd]; rfl), afterExpr_dot hd]
    rfl
  | .increment h ho hd => fun rest x sp _ => by
    rw [List.append_assoc, List.cons_append, List.singleton_append,
      stmt_phrase h (by rw [nextKind, ho]; rfl), (afterExpr_step hd _ _ _).1 ho]
  | .decrement h ho hd => fun rest x sp _ => by
    rw [List.append_assoc, List.cons_append, List.singleton_append,
      stmt_phrase h (by rw [nextKind, ho]; rfl), (afterExpr_step hd _ _ _).2 ho]
  | .ifThen hw h hb => fun rest x sp hrest => by
    rw [List.cons_append, List.append_assoc, stmt_cons (r := .ifElse) (by rw [hw]; rfl), afterWord,
      h.run_block hb.begins hb.readBy, run_bind_ok (run_kind _), if_neg hrest]
    rfl
  | @Sentence.ifElse _ w ts _ _ us _ _ v vs _ _ hw h hb hv ho => fun rest x sp _ => by
    have hts : w :: (ts ++ (us ++ v :: vs)) ++ rest = w :: (ts ++ (us ++ v :: (vs ++ rest))) := by simp
    rw [hts, stmt_cons (r := .ifElse) (by rw [hw]; rfl), afterWord,
      h.run_block hb.begins hb.readBy, run_bind_ok (run_kind _), nextKind, if_pos hv,
      run_bind_ok (run_advance _ _), run_bind_ok (ho.readBy rest x sp trivial)]
    rfl
  | .whileDo hw h hb => fun rest x sp _ => by
    rw [List.cons_append, List.append_assoc, stmt_cons (r := .whileDo) (by rw [hw]; rfl), afterWord,
      h.run_block hb.begins hb.readBy]
    rfl
  | @Sentence.read _ _ _ ts _ d _ hw ha h hd => fun rest x sp _ => by
    have hts : ts ++ [d] ++ rest = ts ++ d :: rest := by simp
    rw [List.cons_append, List.cons_append, hts, stmt_cons (r := .read) (by rw [hw]; rfl), afterWord,
      run_bind_ok (run_expect ha _), h.run_dot hd]
    rfl
  | @Sentence.write _ _ _ ts _ d _ hw ha h hd => fun rest x sp _ => by
    have hts : ts ++ [d] ++ rest = ts ++ d :: rest := by simp
    rw [List.cons_append, List.cons_append, hts, stmt_cons (r := .write) (by rw [hw]; rfl), afterWord,
      run_bind_ok (run_expect ha _), h.run_dot hd]
    rfl
  | .leave hw hd => fun rest x sp _ => by
    rw [List.cons_append, List.singleton_append, stmt_cons (r := .ret) (by rw [hw]; rfl), afterWord,
      run_bind_ok (run_kind _), nextKind, if_pos hd, pure_bind, run_bind_ok (run_expect hd rest)]
    rfl
  | @Sentence.giveBack _ _ ts _ d _ hw h hd => fun rest x sp _ => by
    have hts : ts ++ [d] ++ rest = ts ++ d :: rest := by simp
    -- no value begins with a dot, so that this is not taken for a return without one
    have hfirst : nextKind (ts ++ d :: rest) ≠ .dot := by
      intro hk
      have := h.begins.nextKind (d :: rest)
      rw [hk] at this
      cases this
    rw [List.cons_append, hts, stmt_cons (r := .ret) (by rw [hw]; rfl), afterWord,
      run_bind_ok (run_kind _), if_neg hfirst, bind_map_left, h.run_dot hd]
    rfl

theorem Body.readBy {n : NodeId} {ts : List Token} {b : Block} {m : NodeId} :
    Body n ts b m → ReadBy (blockOf .standard (stmt .standard)) Anything n ts b m
  | .mk ho hd hs hc => blockOf_readBy ho hd (Sentence.items hs) hc

theorem Sentence.items {n : NodeId} {ts : List Token} {ss : List Stmt} {m : NodeId} :
    Repeated Sentence n ts ss m → Repeated Item n ts ss m
  | .nil => .nil
  | .cons h hs => .cons ⟨h.begins, h.readBy⟩ (Sentence.items hs)

end

/-! ## Declarations and programs -/

theorem run_peekKind (t u v : Token) (rest : List Token) (x : String) (sp : Span) (n : NodeId) :
    (peekKind 2).run ⟨t :: u :: v :: rest, x, sp, n⟩ = .ok v.kind ⟨t :: u :: v :: rest, x, sp, n⟩ :=
  rfl

theorem run_simple_decl {t u v : Token} (ht : t.kind.isSimpleType = true) (rest : List Token)
    (x : String) (sp : Span) (n : NodeId) :
    (decl .standard).run ⟨t :: u :: v :: rest, x, sp, n⟩ =
      (if v.kind = .openCurly then .function <$> functionDecl .standard
        else .var <$> varDecl .standard : Reader Decl).run ⟨t :: u :: v :: rest, x, sp, n⟩ := by
  have hne : t.kind ≠ .tupleWord := by
    intro h
    rw [h] at ht
    cases ht
  rw [decl, run_bind_ok (run_kind _), nextKind, run_bind_ok (run_peekKind t u v rest x sp n),
    if_neg hne, if_pos ht]
  simp only [beq_iff_eq, map_eq_pure_bind]

theorem run_tuple_decl {t u v : Token} (ht : t.kind = .tupleWord) (rest : List Token)
    (x : String) (sp : Span) (n : NodeId) :
    (decl .standard).run ⟨t :: u :: v :: rest, x, sp, n⟩ =
      (if v.kind = .openCurly then .tuple <$> tupleDecl .standard
        else .var <$> varDecl .standard : Reader Decl).run ⟨t :: u :: v :: rest, x, sp, n⟩ := by
  rw [decl, run_bind_ok (run_kind _), nextKind, run_bind_ok (run_peekKind t u v rest x sp n),
    if_pos ht]
  simp only [beq_iff_eq, map_eq_pure_bind]

theorem run_map_ok {β : Type} {r : Reader α} {s t : TokenStream} {a : α} (h : r.run s = .ok a t)
    (f : α → β) : (f <$> r).run s = .ok (f a) t := by
  rw [map_eq_pure_bind, run_bind_ok h]
  rfl

/-- A formal begins with a word of a type. -/
theorem Formal.begins {n : NodeId} {ts : List Token} {d : VarDecl} {m : NodeId}
    (h : Formal n ts d m) : Begins (· ≠ .closeCurly) ts := by
  obtain ⟨h, _⟩ := h
  cases h with
  | logical ht | integer ht | void ht => exact ⟨_, _, rfl, by dsimp only; rw [ht]; nofun⟩

theorem Declared.readBy {n : NodeId} {ts : List Token} {d : Decl} {m : NodeId}
    (h : Declared n ts d m) : ReadBy (decl .standard) Anything n ts d m := by
  intro rest x sp _
  cases h with
  | var h =>
    -- the parser tells a variable by what follows the name, before it reads any of it
    have hread := h.readBy rest x sp trivial
    obtain ⟨h, hu, hd⟩ := h
    cases h with
    | simple h =>
      have hsimple := (h.typeName_run [] x sp n).2
      simp only [List.cons_append, List.nil_append] at hread ⊢
      rw [run_simple_decl hsimple, if_neg (by rw [hd]; decide), run_map_ok hread]
    | tuple ht hv =>
      simp only [List.cons_append, List.nil_append] at hread ⊢
      rw [run_tuple_decl ht, if_neg (by rw [hu]; decide), run_map_ok hread]
  | @function _ t result u o ts formals k c us body _ ht hu ho hf hc hb =>
    have hts : t :: u :: o :: (ts ++ c :: us) ++ rest = t :: u :: o :: (ts ++ c :: (us ++ rest)) := by
      simp
    have hresult := ht.readBy n (u :: o :: (ts ++ c :: (us ++ rest))) x sp trivial
    have hbody := hb.readBy rest x sp trivial
    rw [hts, run_simple_decl (ht.typeName_run [] x sp n).2, if_pos ho]
    refine run_map_ok ?_ _
    rw [List.singleton_append] at hresult
    rw [functionDecl, run_bind_ok hresult, run_bind_ok (run_ident hu _), run_bind_ok (run_expect ho _)]
    have hformals := hf.mono fun _ _ _ _ h => And.intro h.begins h.readBy
    refine (separated_run (F := Anything) (.formal .standard) trivial hformals hc ⟨trivial, by decide⟩
      fun formals => expect .closeCurly >>= fun _ =>
      block .standard >>= fun body => pure (FunctionDecl.mk result ⟨n, u.text, u.start⟩ formals body)).trans ?_
    rw [run_bind_ok (run_expect hc _), run_bind_ok ((block_run _).trans hbody)]
    rfl
  | @tuple _ t u o ts fields _ c d ht hu ho hf hc hd =>
    have hts : t :: u :: o :: (ts ++ [c, d]) ++ rest = t :: u :: o :: (ts ++ c :: d :: rest) := by simp
    have hfields := Repeated.readBy (· != .closeCurly) (F := Anything)
      (Consumes.unlessAtEnd "expected `\x7d` to close the tuple" (.varDecl .standard))
      (hf.mono fun _ _ _ _ h => ⟨h.begins.mono fun _ hk => ⟨(of_type_word hk).2, trivial⟩,
        h.readBy.unlessAtEnd (h.begins.mono fun _ hk => (of_type_word hk).1)⟩)
    rw [hts, run_tuple_decl ht, if_pos ho]
    refine run_map_ok ?_ _
    rw [tupleDecl, run_bind_ok (run_expect ht _), run_bind_ok (run_ident hu _),
      run_bind_ok (run_expect ho _),
      run_bind_ok (hfields _ x sp (by rw [nextKind, hc]; exact ⟨rfl, trivial⟩)),
      run_bind_ok (run_expect hc _), run_bind_ok (run_expect hd rest)]
    rfl

/-- A declaration begins with a word of a type, so that none begins at the end. -/
theorem Declared.begins {n : NodeId} {ts : List Token} {d : Decl} {m : NodeId}
    (h : Declared n ts d m) : Begins (· ≠ .endOfInput) ts := by
  cases h with
  | var h => exact h.begins.mono fun _ hk => (of_type_word hk).1
  | function ht _ _ _ _ _ => cases ht with
    | logical ht | integer ht | void ht => exact ⟨_, _, rfl, by dsimp only; rw [ht]; nofun⟩
  | tuple ht _ _ _ _ _ => exact ⟨_, _, rfl, by dsimp only; rw [ht]; nofun⟩

/-- A program is read from its tokens, to the first end of the input. -/
theorem Derives.program_run {ts : List Token} {p : Program} {m : NodeId} (h : Derives ts p m)
    {rest : List Token} (hrest : nextKind rest = .endOfInput) (x : String) (sp : Span) :
    (Reader.program .standard).run ⟨ts ++ rest, x, sp, 0⟩ = .ok p ⟨rest, x, sp, m⟩ := by
  have hread := Repeated.readBy (· != .endOfInput) (F := Anything) .decl
    (h.mono fun _ _ _ _ h => ⟨h.begins.mono fun _ hk => ⟨bne_iff_ne.2 hk, trivial⟩, h.readBy⟩)
    rest x sp ⟨by rw [hrest]; rfl, trivial⟩
  rw [Reader.program, run_bind_ok hread]
  rfl

/-- Every list of tokens with a derivation is parsed, to the program of the derivation. -/
theorem Derives.parse {ts : List Token} {p : Program} {m : NodeId} (h : Derives ts p m)
    {last : Token} (hlast : last.kind = .endOfInput) : parse (ts ++ [last]) = .ok p := by
  have hstream : TokenStream.ofTokens (ts ++ [last]) = ⟨ts ++ [], last.text, last.span, 0⟩ := by
    simp [TokenStream.ofTokens, hlast]
  rw [BaseLang.parse, hstream, h.program_run rfl]

end BaseLang.Grammar
