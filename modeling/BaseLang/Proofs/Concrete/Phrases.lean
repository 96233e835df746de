import BaseLang.Proofs.Concrete.Operators

/-
  The expressions of the grammar and those that are read.

  `Phrase` says how strongly the operators of an expression bind, `Exp` of which level it is.
  What is a phrase of some power is an expression of each level up to the level of that power,
  with the same tokens, tree and numbers, and the other way around as long as each integer
  literal has a value.

    1. `Exp.phrase` — an expression is a phrase.
    2. `exists_exp` — a phrase is an expression.
-/

namespace BaseLang.Concrete

open Grammar (Phrase Commas Separated)

/-- The power down to which the operators of an expression of a level bind. -/
def Level.power : Level → BindingPower
  | assignment => .assignment
  | disjunction => .logicalOr
  | conjunction => .logicalAnd
  | comparison => .relational
  | sum => .additive
  | product => .multiplicative
  | sign => .unary
  | primary => .call

namespace Level

theorem level_power (l : Level) : l.power.level = l.rank + 2 := by
  cases l <;> rfl

theorem powerOf_kind {l : Level} {op : BinaryOp} (h : op ∈ l.operators) :
    Rules.standard.powerOf op.kind = l.power := by
  rw [mem_operators.1 h]
  cases op <;> rfl

theorem power_lt_next {l : Level} (h : l ≠ .primary) : l.power.level < l.next.power.level := by
  rw [level_power, level_power, rank_next h]
  omega

theorem ne_primary {l : Level} {op : BinaryOp} (h : op ∈ l.operators) : l ≠ .primary := by
  rintro rfl
  cases h

end Level

/-- Each integer literal has a value. -/
def Valued (ts : List Token) : Prop :=
  ∀ t ∈ ts, t.kind = .intLiteral → (Decimal.int32? t.text.toList).isSome

namespace Valued
variable {t : Token} {ts us : List Token}

theorem append (h : Valued (ts ++ us)) : Valued ts ∧ Valued us :=
  ⟨fun t ht => h t (List.mem_append_left _ ht), fun t ht => h t (List.mem_append_right _ ht)⟩

theorem cons (h : Valued (t :: ts)) : Valued ts := fun u hu => h u (List.mem_cons_of_mem _ hu)

end Valued

@[simp] theorem Shape.expr_field (n : NodeId) (base : Loc) (f : Ident) :
    (Shape.place .field).expr (n, base, f) = .loc (.access n base f) := rfl

@[simp] theorem Shape.expr_call (f : Ident) (es : List Expr) : Shape.call.expr (f, es) = .call f es := rfl

@[simp] theorem Shape.expr_assignment (target : Loc) (value : Expr) :
    Shape.assignment.expr (target, value) = .assign target value := rfl

@[simp] theorem Shape.expr_other (e : Expr) : Shape.other.expr e = e := rfl

/-- The tree of an expression, and the first number that is left over. -/
def AnyExp.tree {l : Level} (e : AnyExp l) (n : NodeId) : Expr × NodeId :=
  (e.1.expr (e.2.tree n).1, (e.2.tree n).2)

/-! ## An expression is a phrase -/

theorem phrase_literal {t : OneOf [.intLiteral, .stringLiteral, .trueWord, .falseWord]} (h : Valued [t.1])
    (n : NodeId) : Phrase .call n [t.1] (literalTree t.1) n := by
  have ht := t.2
  simp only [List.mem_cons, List.not_mem_nil, or_false] at ht
  rcases ht with ht | ht | ht | ht <;> simp only [literalTree, ht]
  · obtain ⟨v, hv⟩ := Option.isSome_iff_exists.1 (h t.1 List.mem_cons_self ht)
    rw [hv]
    exact .int ht hv
  · exact .string ht
  · exact .true ht
  · exact .false ht

mutual

theorem Exp.phrase : {l : Level} → {s : Shape} → (e : Exp l s) → (n : NodeId) → Valued e.tokens →
    Phrase l.power n e.tokens (s.expr (e.tree n).1) (e.tree n).2
  | _, _, .literal _, n, h => phrase_literal h n
  | _, _, .name t, _, _ => .name t.kind
  | _, _, .group o e c, n, h => .group o.kind (e.phrase n h.cons.append.1) c.kind
  | _, _, .call callee o c, n, h => .call (callee.phrase n h.append.1) o.kind .none c.kind
  | _, _, .callWith callee o args c, n, h =>
    .call (callee.phrase n h.append.1) o.kind (.some (args.phrases _ h.append.2.cons.append.1)) c.kind
  | _, _, .access base c f, n, h => .access (base.phrase n h.append.1) c.kind f.kind
  | _, _, .unary op t e, n, h => .unary (by rw [t.kind]; cases op <;> rfl) (e.phrase n h.cons)
  | _, _, .binary left op hop t right, n, h =>
    .binary (left.phrase n h.append.1) t.kind (by rw [t.kind, Level.powerOf_kind hop])
      (Level.power_lt_next (Level.ne_primary hop)) (right.phrase _ h.append.2.cons)
  | _, _, .assign target t value, n, h =>
    .assign (target.phrase n h.append.1) t.kind (value.phrase _ h.append.2.cons)
  | _, _, .lift hl e, n, h => .weaken (Nat.le_of_lt (Level.power_lt_next hl)) (e.phrase n h)

theorem Arguments.phrases : (as : Arguments) → (n : NodeId) → Valued as.tokens →
    Commas (Phrase .assignment) n as.tokens (as.trees n).1 (as.trees n).2
  | .last e, n, h => .one (e.phrase n h)
  | .more e c rest, n, h => .more (e.phrase n h.append.1) c.kind (rest.phrases _ h.append.2.cons)

end

/-! ## A phrase is an expression -/

def Place.of : Loc → Place
  | .ident _ => .name
  | .access .. => .field

def Shape.of : Expr → Shape
  | .loc target => .place (.of target)
  | .call .. => .call
  | .assign .. => .assignment
  | _ => .other

/-- An expression is of the shape of its tree. -/
theorem Exp.shape_of : {l : Level} → {s : Shape} → (e : Exp l s) → (n : NodeId) →
    Shape.of (s.expr (e.tree n).1) = s
  | _, _, .literal t, n => by
    change Shape.of (literalTree t.1) = .other
    unfold literalTree
    split <;> rfl
  | _, _, .name _, _ | _, _, .call .., _ | _, _, .callWith .., _ | _, _, .access .., _
  | _, _, .unary .., _ | _, _, .binary .., _ | _, _, .assign .., _ => rfl
  | _, _, .group _ e _, n => e.shape_of n
  | _, _, .lift _ e, n => e.shape_of n

def OneOf.of {t : Token} {k : TokenKind} (h : t.kind = k) : OneOf [k] := ⟨t, List.mem_singleton.2 h⟩

/-- What is an expression is one of each lower level. -/
theorem AnyExp.lowered {l l' : Level} {d : AnyExp l'} {ts : List Token} {n m : NodeId} {e : Expr}
    (hts : d.tokens = ts)
    (htree : d.tree n = (e, m)) (hl : l.power.level ≤ l'.power.level) :
    ∃ d' : AnyExp l, d'.tokens = ts ∧ d'.tree n = (e, m) := by
  rw [Level.level_power, Level.level_power, Nat.add_le_add_iff_right] at hl
  obtain ⟨d', hts', htree'⟩ := d.2.exists_lower l hl
  exact ⟨⟨_, d'⟩, hts'.trans hts, by rw [← htree, tree, tree, htree']⟩

theorem AnyExp.exists_eq {l : Level} {e : AnyExp l} {n : NodeId} {s : Shape} (h : Shape.of (e.tree n).1 = s) :
    ∃ e' : Exp l s, e = ⟨s, e'⟩ := by
  obtain ⟨s', e⟩ := e
  obtain rfl : s' = s := (e.shape_of n).symm.trans h
  exact ⟨e, rfl⟩

/-- An expression with the tree of a location is one. -/
theorem AnyExp.exists_place {l : Level} (e : AnyExp l) {n m : NodeId} {target : Loc}
    (h : e.tree n = (.loc target, m)) :
    ∃ (p : Place) (e' : Exp l (.place p)), e = ⟨_, e'⟩ ∧ p.loc (e'.tree n).1 = target ∧ (e'.tree n).2 = m := by
  obtain ⟨e', rfl⟩ := exists_eq (s := .place (.of target)) (by rw [h]; rfl)
  simp only [tree, Prod.mk.injEq] at h
  exact ⟨_, e', rfl, Expr.loc.inj h.1, h.2⟩

/-- An expression with the tree of a name is one. -/
theorem AnyExp.exists_name {l : Level} (e : AnyExp l) {n m : NodeId} {x : Ident}
    (h : e.tree n = (.loc (.ident x), m)) : ∃ e' : Exp l (.place .name), e = ⟨_, e'⟩ ∧ e'.tree n = (x, m) := by
  obtain ⟨e', rfl⟩ := exists_eq (s := .place .name) (by rw [h]; rfl)
  simp only [tree, Prod.mk.injEq] at h
  exact ⟨e', rfl, Prod.ext (Loc.ident.inj (Expr.loc.inj h.1)) h.2⟩

theorem unaryOp?_eq_some {k : TokenKind} {op : UnaryOp} (h : Grammar.unaryOp? k = some op) : k = op.kind := by
  cases k <;> cases h <;> rfl

mutual

theorem exists_exp {p : BindingPower} {n : NodeId} {ts : List Token} {e : Expr} {m : NodeId} :
    Phrase p n ts e m → (l : Level) → l.power.level ≤ p.level →
      ∃ d : AnyExp l, d.tokens = ts ∧ d.tree n = (e, m)
  | @Phrase.int _ t v ht hv, l, hl => by
    have htree : literalTree t = .int v t.start := by
      simp only [literalTree, ht, hv, Option.getD_some]
    exact AnyExp.lowered (d := ⟨_, .literal ⟨t, by rw [ht]; decide⟩⟩) rfl (by rw [← htree]; rfl) hl
  | @Phrase.string _ t ht, l, hl => by
    have htree : literalTree t = .string t.text t.start := by simp only [literalTree, ht]
    exact AnyExp.lowered (d := ⟨_, .literal ⟨t, by rw [ht]; decide⟩⟩) rfl (by rw [← htree]; rfl) hl
  | @Phrase.true _ t ht, l, hl => by
    have htree : literalTree t = .logical true t.start := by simp only [literalTree, ht]
    exact AnyExp.lowered (d := ⟨_, .literal ⟨t, by rw [ht]; decide⟩⟩) rfl (by rw [← htree]; rfl) hl
  | @Phrase.false _ t ht, l, hl => by
    have htree : literalTree t = .logical false t.start := by simp only [literalTree, ht]
    exact AnyExp.lowered (d := ⟨_, .literal ⟨t, by rw [ht]; decide⟩⟩) rfl (by rw [← htree]; rfl) hl
  | .name ht, l, hl => AnyExp.lowered (d := ⟨_, .name (.of ht)⟩) rfl rfl hl
  | .group ho h hc, l, hl => by
    obtain ⟨⟨s, d⟩, rfl, htree⟩ := exists_exp h .assignment (by decide)
    exact AnyExp.lowered (d := ⟨s, .group (.of ho) d (.of hc)⟩) rfl htree hl
  | .call h ho .none hc, l, hl => by
    obtain ⟨d, rfl, htree⟩ := exists_exp h .primary (Nat.le_refl _)
    obtain ⟨f, rfl, hf⟩ := d.exists_name htree
    exact AnyExp.lowered (d := ⟨_, .call f (.of ho) (.of hc)⟩) rfl
      (by simp only [AnyExp.tree, Exp.tree, hf, Shape.expr_call]) hl
  | .call h ho (.some hargs) hc, l, hl => by
    obtain ⟨d, rfl, htree⟩ := exists_exp h .primary (Nat.le_refl _)
    obtain ⟨args, rfl, htrees⟩ := exists_arguments hargs
    obtain ⟨f, rfl, hf⟩ := d.exists_name htree
    exact AnyExp.lowered (d := ⟨_, .callWith f (.of ho) args (.of hc)⟩) rfl
      (by simp only [AnyExp.tree, Exp.tree, hf, htrees, Shape.expr_call]) hl
  | .access h hc hf, l, hl => by
    obtain ⟨d, rfl, htree⟩ := exists_exp h .primary (Nat.le_refl _)
    obtain ⟨p, base, rfl, hbase, hk⟩ := d.exists_place htree
    exact AnyExp.lowered (d := ⟨_, .access base (.of hc) (.of hf)⟩) rfl
      (by simp only [AnyExp.tree, Exp.tree, hbase, hk, Shape.expr_field, identTree, OneOf.of]) hl
  | @Phrase.unary _ _ op _ _ _ ht h, l, hl => by
    obtain ⟨⟨s, d⟩, rfl, htree⟩ := exists_exp h .sign (Nat.le_refl _)
    simp only [AnyExp.tree, Prod.mk.injEq] at htree
    exact AnyExp.lowered (d := ⟨_, .unary op (.of (unaryOp?_eq_some ht)) d⟩) rfl
      (by simp only [AnyExp.tree, Exp.tree, htree, Shape.expr_other]) hl
  | @Phrase.binary _ _ _ _ _ t op _ _ _ q h ht hp hq hr, l, hl => by
    have hop : op ∈ op.level.operators := Level.mem_operators.2 rfl
    rw [ht, Level.powerOf_kind hop] at hp
    have hnext : op.level.next.power.level ≤ q.level := by
      rw [Level.level_power, Level.rank_next (Level.ne_primary hop)]
      rw [← hp, Level.level_power] at hq
      omega
    obtain ⟨⟨s, left⟩, rfl, hleft⟩ := exists_exp h op.level (Nat.le_of_eq (congrArg _ hp))
    obtain ⟨⟨u, right⟩, rfl, hright⟩ := exists_exp hr op.level.next hnext
    simp only [AnyExp.tree, Prod.mk.injEq] at hleft hright
    exact AnyExp.lowered (d := ⟨_, .binary left op hop (.of ht) right⟩) rfl
      (by simp only [AnyExp.tree, Exp.tree, hleft, hright, Shape.expr_other]) (by rw [hp]; exact hl)
  | .assign h ht hv, l, hl => by
    obtain ⟨d, rfl, htree⟩ := exists_exp h .primary (Nat.le_refl _)
    obtain ⟨⟨s, value⟩, rfl, hvalue⟩ := exists_exp hv .assignment (Nat.le_refl _)
    obtain ⟨p, target, rfl, htarget, hk⟩ := d.exists_place htree
    simp only [AnyExp.tree, Prod.mk.injEq] at hvalue
    exact AnyExp.lowered (d := ⟨_, .assign target (.of ht) value⟩) rfl
      (by simp only [AnyExp.tree, Exp.tree, htarget, hk, hvalue, Shape.expr_assignment]) hl
  | .weaken hpq h, l, hl => exists_exp h l (Nat.le_trans hl hpq)

theorem exists_arguments {n : NodeId} {ts : List Token} {es : List Expr} {m : NodeId} :
    Commas (Phrase .assignment) n ts es m → ∃ d : Arguments, d.tokens = ts ∧ d.trees n = (es, m)
  | .one h => by
    obtain ⟨⟨s, d⟩, rfl, htree⟩ := exists_exp h .assignment (by decide)
    simp only [AnyExp.tree, Prod.mk.injEq] at htree
    exact ⟨.last d, rfl, by simp only [Arguments.trees, htree]⟩
  | .more h hc rest => by
    obtain ⟨⟨s, d⟩, rfl, htree⟩ := exists_exp h .assignment (by decide)
    obtain ⟨ds, rfl, htrees⟩ := exists_arguments rest
    simp only [AnyExp.tree, Prod.mk.injEq] at htree
    exact ⟨.more d (.of hc) ds, rfl, by simp only [Arguments.trees, htree, htrees]⟩

end

end BaseLang.Concrete
