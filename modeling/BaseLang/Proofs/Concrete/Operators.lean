import BaseLang.Proofs.Concrete.Syntax
import BaseLang.Proofs.Grammar.Completeness

/-
  Expressions are unambiguous.

  `Determined bound F write` says that whatever is written in at most that many tokens can be
  recovered from them, and so can the place where it stops, as long as the kind of the token
  after it satisfies `F`. For expressions of a level, no token may follow with which an
  expression of that level or of a higher one goes on.

  The productions of a level are recursive on the left, so that two derivations of one run of
  tokens do not have their parts at the same places. They are therefore compared as an operand
  and a list of what was put to its right.

    1. `Determined.chain` — a beginning, and then a list.
    2. `determined_operands` — a level of operators between operands.
    3. `determined_primary` — names, literals and parentheses, with calls and accesses.
    4. `determined_exp` — all levels.
-/

namespace BaseLang

/-- The level of the expressions that an operator forms. -/
def BinaryOp.level : BinaryOp → Concrete.Level
  | .or => .disjunction
  | .and => .conjunction
  | .equals | .notEquals | .less | .lessEq | .greater | .greaterEq => .comparison
  | .plus | .minus => .sum
  | .times | .divide => .product

theorem BinaryOp.kind_injective {op op' : BinaryOp} (h : op.kind = op'.kind) : op = op' := by
  cases op <;> cases op' <;> first | rfl | cases h

theorem UnaryOp.kind_injective {op op' : UnaryOp} (h : op.kind = op'.kind) : op = op' := by
  cases op <;> cases op' <;> first | rfl | cases h

namespace Concrete

open Grammar (Begins)

/-! ## What stops an expression -/

namespace Level

def rank : Level → Nat
  | assignment => 0
  | disjunction => 1
  | conjunction => 2
  | comparison => 3
  | sum => 4
  | product => 5
  | sign => 6
  | primary => 7

theorem rank_next {l : Level} (h : l ≠ .primary) : l.next.rank = l.rank + 1 := by
  cases l <;> first | rfl | exact absurd rfl h

theorem rank_le_next (l : Level) : l.rank ≤ l.next.rank := by
  cases l <;> decide

theorem rank_injective {l m : Level} (h : l.rank = m.rank) : l = m := by
  cases l <;> cases m <;> first | rfl | cases h

/-- What holds of a level, and of each level of which it holds of the next, holds of all lower
levels. -/
theorem descend {motive : Level → Prop} {l : Level} (h : motive l)
    (step : ∀ m, m ≠ .primary → motive m.next → motive m) (m : Level) (hm : m.rank ≤ l.rank) :
    motive m := by
  by_cases heq : m.rank = l.rank
  · exact rank_injective heq ▸ h
  · have hne : m ≠ .primary := by
      rintro rfl
      cases l <;> revert hm heq <;> decide
    have hnext := rank_next hne
    exact step m hne (descend h step m.next (by omega))
termination_by l.rank - m.rank

theorem mem_operators {l : Level} {op : BinaryOp} : op ∈ l.operators ↔ l = op.level := by
  cases l <;> cases op <;> decide

/-- The tokens with which an expression of a level goes on, after what could be one. -/
def continuations : Level → List TokenKind
  | assignment => [.assignment]
  | primary => [.openParen, .colon]
  | l => l.operators.map BinaryOp.kind

theorem kind_mem_continuations {l : Level} {op : BinaryOp} :
    op.kind ∈ l.continuations ↔ l = op.level := by
  cases l <;> cases op <;> decide

/-- No expression of the level, or of a higher one, goes on with a token of that kind. -/
def Stops (l : Level) (k : TokenKind) : Prop := ∀ m : Level, l.rank ≤ m.rank → k ∉ m.continuations

theorem Stops.mono {l m : Level} {k : TokenKind} (h : l.Stops k) (hlm : l.rank ≤ m.rank) : m.Stops k :=
  fun m' hm' => h m' (Nat.le_trans hlm hm')

theorem Stops.next {l : Level} {k : TokenKind} (h : l.Stops k) : l.next.Stops k := h.mono l.rank_le_next

/-- An operator ends its left operand. -/
theorem stops_kind {l : Level} {op : BinaryOp} (h : op ∈ l.operators) : l.next.Stops op.kind := by
  intro m hm hk
  rw [mem_operators] at h
  rw [kind_mem_continuations, ← h] at hk
  subst hk
  have hne : m ≠ .primary := by
    rintro rfl
    cases op <;> cases h
  rw [rank_next hne] at hm
  omega

theorem disjunction_stops_assignment : Level.disjunction.Stops .assignment := by
  intro m hm
  cases m <;> first | decide | exact absurd hm (by decide)

/-- The tokens that stand after whole expressions. -/
def closers : List TokenKind := [.closeParen, .comma, .dot, .plusPlus, .minusMinus, .openBracket]

theorem stops_of_mem_closers {k : TokenKind} (l : Level) (h : k ∈ closers) : l.Stops k := by
  intro m _
  revert k
  cases m <;> decide

/-- The tokens with which an expression of a level begins. -/
def starts : Level → List TokenKind
  | primary => [.intLiteral, .stringLiteral, .trueWord, .falseWord, .identifier, .openParen]
  | _ => [.dash, .tilde, .intLiteral, .stringLiteral, .trueWord, .falseWord, .identifier, .openParen]

theorem starts_next (l : Level) : l.next.starts ⊆ l.starts := by
  cases l <;> decide

theorem primary_starts_subset (l : Level) : Level.primary.starts ⊆ l.starts := by
  cases l <;> decide

end Level

namespace OneOf

theorem kind {k : TokenKind} (t : OneOf [k]) : t.1.kind = k := List.mem_singleton.1 t.2

theorem kind_eq {k k' : TokenKind} {t : OneOf [k]} {t' : OneOf [k']} (h : t.1 = t'.1) : k = k' := by
  rw [← t.kind, ← t'.kind, h]

/-- Tokens of different kinds are different. -/
theorem ne {ks ks' : List TokenKind} (t : OneOf ks) (t' : OneOf ks') (h : ∀ k ∈ ks, k ∉ ks') :
    t.1 ≠ t'.1 :=
  fun heq => h _ t.2 (heq ▸ t'.2)

theorem cons_inj {ks : List TokenKind} {t t' : OneOf ks} {ts ts' : List Token}
    (h : t.1 :: ts = t'.1 :: ts') : t = t' ∧ ts = ts' :=
  ⟨Subtype.ext (List.cons.inj h).1, (List.cons.inj h).2⟩

theorem stops {k : TokenKind} (t : OneOf [k]) {l : Level} {ts : List Token} (h : k ∈ Level.closers) :
    l.Stops (nextKind (t.1 :: ts)) := by
  rw [nextKind, t.kind]
  exact l.stops_of_mem_closers h

end OneOf

theorem Exp.begins : {l : Level} → {s : Shape} → (e : Exp l s) → Begins (· ∈ l.starts) e.tokens
  | _, _, .literal t => ⟨t.1, [], rfl, by
      have ht := t.2
      simp only [List.mem_cons, List.not_mem_nil, or_false] at ht
      rcases ht with ht | ht | ht | ht <;> simp [ht, Level.starts]⟩
  | _, _, .name t => ⟨t.1, [], rfl, by simp [t.kind, Level.starts]⟩
  | _, _, .group o _ _ => ⟨o.1, _, rfl, by simp [o.kind, Level.starts]⟩
  | _, _, .call callee _ _ => callee.begins.append
  | _, _, .callWith callee _ _ _ => callee.begins.append
  | _, _, .access base _ _ => base.begins.append
  | _, _, .unary op t _ => ⟨t.1, _, rfl, by
      rw [t.kind]
      cases op <;> simp [UnaryOp.kind, Level.starts]⟩
  | _, _, .binary left _ _ _ _ => left.begins.append
  | _, _, .assign target _ _ =>
    (target.begins.mono fun _ hk => Level.primary_starts_subset _ hk).append
  | _, _, .lift _ e => e.begins.mono fun _ hk => Level.starts_next _ hk

/-! ## Being determined by tokens -/

section Determined
variable {α β : Type} {bound : Nat} {F P : TokenKind → Prop} {write : α → List Token}

/-- What is written in at most that many tokens is known from them, and from any tokens after
them of which the first is of a kind that satisfies `F`. -/
def Determined (bound : Nat) (F : TokenKind → Prop) (write : α → List Token) : Prop :=
  ∀ ⦃a a' : α⦄ ⦃rest rest' : List Token⦄, (write a).length ≤ bound → F (nextKind rest) →
    F (nextKind rest') → write a ++ rest = write a' ++ rest' → a = a' ∧ rest = rest'

/-- The first token of a list and what follows it is that of an item, or follows the list. -/
theorem nextKind_flatMap (hP : ∀ a, Begins P (write a)) (hF : ∀ k, P k → F k) (as : List α)
    {rest : List Token} (hr : F (nextKind rest)) : F (nextKind (as.flatMap write ++ rest)) := by
  cases as with
  | nil => exact hr
  | cons a as =>
    rw [List.flatMap_cons, List.append_assoc]
    exact hF _ ((hP a).nextKind _)

/-- Things that are determined are so one after the other, up to a token with which none begins. -/
theorem Determined.list (h : Determined bound F write) (hP : ∀ a, Begins P (write a))
    (hF : ∀ k, P k → F k) : Determined bound (fun k => F k ∧ ¬ P k) (List.flatMap write) := by
  intro as
  induction as with
  | nil =>
    intro as' rest rest' _ hr _ heq
    cases as' with
    | nil => exact ⟨rfl, heq⟩
    | cons a' as' =>
      -- the first of these would stand where the list has ended
      rw [List.flatMap_nil, List.nil_append, List.flatMap_cons, List.append_assoc] at heq
      rw [heq] at hr
      exact absurd ((hP a').nextKind _) hr.2
  | cons a as ih =>
    intro as' rest rest' hlen hr hr' heq
    rw [List.flatMap_cons, List.append_assoc] at heq
    cases as' with
    | nil =>
      rw [List.flatMap_nil, List.nil_append] at heq
      rw [← heq] at hr'
      exact absurd ((hP a).nextKind _) hr'.2
    | cons a' as' =>
      rw [List.flatMap_cons, List.append_assoc] at heq
      rw [List.flatMap_cons, List.length_append] at hlen
      obtain ⟨rfl, hrest⟩ :=
        h (by omega) (nextKind_flatMap hP hF as hr.1) (nextKind_flatMap hP hF as' hr'.1) heq
      obtain ⟨rfl, rfl⟩ := ih (by omega) hr hr' hrest
      exact ⟨rfl, rfl⟩

/-- A beginning, and then a list. -/
theorem Determined.chain {item : β → List Token} (h : Determined bound F write)
    (hi : Determined bound F item) (hP : ∀ b, Begins P (item b)) (hF : ∀ k, P k → F k) :
    Determined bound (fun k => F k ∧ ¬ P k) fun p : α × List β => write p.1 ++ p.2.flatMap item := by
  rintro ⟨a, bs⟩ ⟨a', bs'⟩ rest rest' hlen hr hr' heq
  simp only [List.append_assoc, List.length_append] at hlen heq
  obtain ⟨rfl, hrest⟩ :=
    h (by omega) (nextKind_flatMap hP hF bs hr.1) (nextKind_flatMap hP hF bs' hr'.1) heq
  obtain ⟨rfl, rfl⟩ := hi.list hP hF (by omega) hr hr' hrest
  exact ⟨rfl, rfl⟩

end Determined

abbrev AnyExp (l : Level) := Σ s, Exp l s

def AnyExp.tokens {l : Level} (e : AnyExp l) : List Token := e.2.tokens

theorem AnyExp.begins {l : Level} (e : AnyExp l) : Begins (· ∈ l.starts) e.tokens := e.2.begins

/-- The expressions of that level of at most that many tokens are determined. -/
abbrev Known (bound : Nat) (l : Level) : Prop := Determined bound l.Stops (AnyExp.tokens (l := l))

theorem Determined.exp {bound : Nat} {l : Level} (h : Known bound l) {s s' : Shape} {e : Exp l s}
    {e' : Exp l s'} {rest rest' : List Token} (hlen : e.tokens.length ≤ bound) (hr : l.Stops (nextKind rest))
    (hr' : l.Stops (nextKind rest')) (heq : e.tokens ++ rest = e'.tokens ++ rest') :
    (⟨s, e⟩ : AnyExp l) = ⟨s', e'⟩ ∧ rest = rest' :=
  @h ⟨s, e⟩ ⟨s', e'⟩ rest rest' hlen hr hr' heq

/-! ## Operators between operands -/

/-- What is put to the right of an operand: an operator and another operand. -/
structure Step (l : Level) where
  op : BinaryOp
  h : op ∈ l.operators
  sign : OneOf [op.kind]
  operand : AnyExp l.next

def Step.tokens {l : Level} (st : Step l) : List Token := st.sign.1 :: st.operand.tokens

def Step.onto {l : Level} (left : AnyExp l) (st : Step l) : AnyExp l :=
  ⟨.other, .binary left.2 st.op st.h st.sign st.operand.2⟩

/-- Every expression of a level of operators is an operand with steps put to its right. -/
theorem Exp.exists_steps : {l : Level} → {s : Shape} → (e : Exp l s) → l.operators ≠ [] →
    (h : l ≠ .primary) → ∃ p : AnyExp l.next × List (Step l),
      (⟨s, e⟩ : AnyExp l) = p.2.foldl Step.onto ⟨p.1.1, .lift h p.1.2⟩ ∧
        e.tokens = p.1.tokens ++ p.2.flatMap Step.tokens
  | _, _, .lift _ e, _, _ => ⟨(⟨_, e⟩, []), rfl, (List.append_nil _).symm⟩
  | _, _, .binary left op hop t right, hl, h => by
    obtain ⟨⟨head, steps⟩, heq, hts⟩ := left.exists_steps hl h
    refine ⟨(head, steps ++ [⟨op, hop, t, ⟨_, right⟩⟩]), ?_, ?_⟩
    · rw [List.foldl_append, ← heq]
      rfl
    · rw [Exp.tokens, hts, List.flatMap_append, List.append_assoc]
      simp [Step.tokens, AnyExp.tokens]
  | _, _, .literal _, hl, _ | _, _, .name _, hl, _ | _, _, .group _ _ _, hl, _ | _, _, .call _ _ _, hl, _
  | _, _, .callWith _ _ _ _, hl, _ | _, _, .access _ _ _, hl, _ | _, _, .unary _ _ _, hl, _
  | _, _, .assign _ _ _, hl, _ => absurd rfl hl

theorem Step.determined {bound : Nat} {l : Level} (h : Known bound l.next) :
    Determined bound l.next.Stops (Step.tokens (l := l)) := by
  rintro ⟨op, hop, t, e⟩ ⟨op', hop', t', e'⟩ rest rest' hlen hr hr' heq
  simp only [Step.tokens, List.length_cons, List.cons_append, List.cons.injEq] at hlen heq
  obtain ⟨ht, heq⟩ := heq
  obtain ⟨rfl, rfl⟩ := h (by omega) hr hr' heq
  obtain rfl := BinaryOp.kind_injective (OneOf.kind_eq ht)
  obtain rfl := Subtype.ext ht
  exact ⟨rfl, rfl⟩

theorem Step.begins {l : Level} (st : Step l) : Begins (∃ op ∈ l.operators, · = op.kind) st.tokens :=
  ⟨st.sign.1, st.operand.tokens, rfl, st.op, st.h, st.sign.kind⟩

theorem determined_operands {bound : Nat} {l : Level} (hl : l.operators ≠ [])
    (h : Known bound l.next) : Known bound l := by
  have hne : l ≠ .primary := by
    rintro rfl
    exact hl rfl
  have hchain := h.chain (Step.determined h) Step.begins fun k ⟨op, hop, hk⟩ => hk ▸ Level.stops_kind hop
  -- a token that stops the level is none of its operators
  have hstop : ∀ k, l.Stops k → l.next.Stops k ∧ ¬ ∃ op ∈ l.operators, k = op.kind := by
    rintro k hk
    refine ⟨hk.next, ?_⟩
    rintro ⟨op, hop, rfl⟩
    exact hk l (Nat.le_refl _) (Level.kind_mem_continuations.2 (Level.mem_operators.1 hop))
  rintro ⟨s, e⟩ ⟨s', e'⟩ rest rest' hlen hr hr' heq
  obtain ⟨p, he, hts⟩ := e.exists_steps hl hne
  obtain ⟨p', he', hts'⟩ := e'.exists_steps hl hne
  simp only [AnyExp.tokens, hts, hts'] at hlen heq
  obtain ⟨rfl, rfl⟩ := hchain hlen (hstop _ hr) (hstop _ hr') heq
  exact ⟨he.trans he'.symm, rfl⟩

/-! ## Operators before operands -/

theorem determined_sign {bound : Nat} (ih : Known bound .sign) (h : Known (bound + 1) .primary) :
    Known (bound + 1) .sign := by
  -- an expression without an operator before it does not begin with one
  have hother : ∀ {op : UnaryOp} {t : Token} {ts us : List Token} {k : AnyExp .primary},
      t.kind = op.kind → t :: ts ≠ k.tokens ++ us := by
    rintro op t ts us k ht heq
    have hmem := k.begins.nextKind us
    rw [← heq, nextKind, ht] at hmem
    revert hmem
    cases op <;> decide
  rintro ⟨s, e⟩ ⟨s', e'⟩ rest rest' hlen hr hr' heq
  cases e with
  | unary op t e =>
    cases e' with
    | unary op' t' e' =>
      simp only [AnyExp.tokens, Exp.tokens, List.length_cons, List.cons_append, List.cons.injEq] at hlen heq
      obtain ⟨ht, heq⟩ := heq
      obtain ⟨he, rfl⟩ := ih.exp (by omega) hr hr' heq
      obtain rfl := UnaryOp.kind_injective (OneOf.kind_eq ht)
      obtain rfl := Subtype.ext ht
      cases he
      exact ⟨rfl, rfl⟩
    | lift hl e' => exact absurd heq (hother (k := ⟨_, e'⟩) t.kind)
    | binary _ _ hop => cases hop
  | lift hl e =>
    cases e' with
    | unary op' t' e' => exact absurd heq.symm (hother (k := ⟨_, e⟩) t'.kind)
    | lift hl' e' =>
      obtain ⟨he, rfl⟩ := h.exp hlen hr.next hr'.next heq
      cases he
      exact ⟨rfl, rfl⟩
    | binary _ _ hop => cases hop
  | binary _ _ hop => cases hop

/-! ## Calls and accesses -/

theorem Arguments.begins (as : Arguments) : Begins (· ∈ Level.assignment.starts) as.tokens := by
  cases as with
  | last e => exact e.begins
  | more e _ _ => exact e.begins.append

/-- Arguments are determined up to the parenthesis after them. -/
theorem Arguments.determined {bound : Nat} (h : Known bound .assignment) {d d' : OneOf [.closeParen]}
    {us us' : List Token} : (as as' : Arguments) → as.tokens.length ≤ bound →
      as.tokens ++ d.1 :: us = as'.tokens ++ d'.1 :: us' → as = as' ∧ d.1 :: us = d'.1 :: us'
  | .last e, .last e', hlen, heq => by
    obtain ⟨he, hrest⟩ := h.exp hlen (d.stops (by decide)) (d'.stops (by decide)) heq
    cases he
    exact ⟨rfl, hrest⟩
  | .last e, .more e' c' as', hlen, heq => by
    rw [Arguments.tokens, Arguments.tokens, List.append_assoc] at heq
    obtain ⟨-, hrest⟩ := h.exp hlen (d.stops (by decide)) (c'.stops (by decide)) heq
    exact (d.ne c' (by decide) (List.cons.inj hrest).1).elim
  | .more e c as, .last e', hlen, heq => by
    rw [Arguments.tokens, Arguments.tokens, List.append_assoc] at heq
    rw [Arguments.tokens, List.length_append] at hlen
    obtain ⟨-, hrest⟩ := h.exp (Nat.le_of_add_right_le hlen) (c.stops (by decide))
      (d'.stops (by decide)) heq
    exact (c.ne d' (by decide) (List.cons.inj hrest).1).elim
  | .more e c as, .more e' c' as', hlen, heq => by
    rw [Arguments.tokens, Arguments.tokens, List.append_assoc, List.append_assoc] at heq
    rw [Arguments.tokens, List.length_append, List.length_cons] at hlen
    obtain ⟨he, hrest⟩ := h.exp (Nat.le_of_add_right_le hlen) (c.stops (by decide))
      (c'.stops (by decide)) heq
    obtain ⟨rfl, hargs⟩ := OneOf.cons_inj hrest
    obtain ⟨rfl, htail⟩ := as.determined h as' (by omega) hargs
    cases he
    exact ⟨rfl, htail⟩

/-- A name, a literal, or an expression in parentheses. -/
inductive Atom where
  | literal (t : OneOf [.intLiteral, .stringLiteral, .trueWord, .falseWord])
  | name (t : OneOf [.identifier])
  | group (o : OneOf [.openParen]) (e : AnyExp .assignment) (c : OneOf [.closeParen])

namespace Atom

def exp : Atom → AnyExp .primary
  | .literal t => ⟨_, .literal t⟩
  | .name t => ⟨_, .name t⟩
  | .group o e c => ⟨e.1, .group o e.2 c⟩

def tokens (a : Atom) : List Token := a.exp.tokens

theorem tokens_group (o : OneOf [.openParen]) (e : AnyExp .assignment) (c : OneOf [.closeParen]) :
    (group o e c).tokens = o.1 :: (e.tokens ++ [c.1]) := rfl

end Atom

/-- What is put to the right of a callee or of the base of an access. -/
inductive Postfix where
  | call (o : OneOf [.openParen]) (c : OneOf [.closeParen])
  | callWith (o : OneOf [.openParen]) (args : Arguments) (c : OneOf [.closeParen])
  | access (c : OneOf [.colon]) (f : OneOf [.identifier])

namespace Postfix

def tokens : Postfix → List Token
  | .call o c => [o.1, c.1]
  | .callWith o args c => o.1 :: (args.tokens ++ [c.1])
  | .access c f => [c.1, f.1]

def onto : AnyExp .primary → Postfix → AnyExp .primary
  | ⟨.place .name, e⟩, .call o c => ⟨.call, .call e o c⟩
  | ⟨.place .name, e⟩, .callWith o args c => ⟨.call, .callWith e o args c⟩
  | ⟨.place _, e⟩, .access c f => ⟨.place .field, .access e c f⟩
  | e, _ => e

theorem begins (p : Postfix) : Begins (· ∈ [.openParen, .colon]) p.tokens := by
  cases p with
  | call o c | callWith o args c => exact ⟨o.1, _, rfl, by simp [o.kind]⟩
  | access c f => exact ⟨c.1, _, rfl, by simp [c.kind]⟩

end Postfix

/-- Every expression of the highest level is an atom with calls and accesses put to its right. -/
theorem Exp.exists_postfixes : {s : Shape} → (e : Exp .primary s) → ∃ p : Atom × List Postfix,
    (⟨s, e⟩ : AnyExp .primary) = p.2.foldl Postfix.onto p.1.exp ∧
      e.tokens = p.1.tokens ++ p.2.flatMap Postfix.tokens
  | _, .literal t => ⟨(.literal t, []), rfl, (List.append_nil _).symm⟩
  | _, .name t => ⟨(.name t, []), rfl, (List.append_nil _).symm⟩
  | _, .group o e c => ⟨(.group o ⟨_, e⟩ c, []), rfl, (List.append_nil _).symm⟩
  | _, .call callee o c => after (.call o c) callee.exists_postfixes rfl rfl
  | _, .callWith callee o args c => after (.callWith o args c) callee.exists_postfixes rfl rfl
  | _, @Exp.access p base c f => after (.access c f) base.exists_postfixes (by cases p <;> rfl) rfl
  | _, .lift h _ => absurd rfl h
where
  after {left whole : AnyExp .primary} (p : Postfix)
      (h : ∃ q : Atom × List Postfix, left = q.2.foldl Postfix.onto q.1.exp ∧
        left.tokens = q.1.tokens ++ q.2.flatMap Postfix.tokens)
      (hwhole : whole = Postfix.onto left p) (hts : whole.tokens = left.tokens ++ p.tokens) :
      ∃ q : Atom × List Postfix, whole = q.2.foldl Postfix.onto q.1.exp ∧
        whole.tokens = q.1.tokens ++ q.2.flatMap Postfix.tokens := by
    obtain ⟨⟨atom, ps⟩, heq, hleft⟩ := h
    refine ⟨(atom, ps ++ [p]), ?_, ?_⟩
    · rw [hwhole, List.foldl_append, ← heq]
      rfl
    · rw [hts, hleft, List.flatMap_append, List.append_assoc]
      simp

theorem Atom.determined {bound : Nat} (ih : Known bound .assignment) :
    Determined (bound + 1) (fun _ => True) Atom.tokens := by
  rintro a a' rest rest' hlen - - heq
  cases a with
  | literal t =>
    cases a' with
    | literal t' =>
      obtain ⟨rfl, rfl⟩ := OneOf.cons_inj heq
      exact ⟨rfl, rfl⟩
    | name t' => exact (t.ne t' (by decide) (List.cons.inj heq).1).elim
    | group o' e' c' => exact (t.ne o' (by decide) (List.cons.inj heq).1).elim
  | name t =>
    cases a' with
    | literal t' => exact (t.ne t' (by decide) (List.cons.inj heq).1).elim
    | name t' =>
      obtain ⟨rfl, rfl⟩ := OneOf.cons_inj heq
      exact ⟨rfl, rfl⟩
    | group o' e' c' => exact (t.ne o' (by decide) (List.cons.inj heq).1).elim
  | group o e c =>
    cases a' with
    | literal t' => exact (o.ne t' (by decide) (List.cons.inj heq).1).elim
    | name t' => exact (o.ne t' (by decide) (List.cons.inj heq).1).elim
    | group o' e' c' =>
      simp only [tokens_group, List.length_cons, List.length_append, List.cons_append, List.append_assoc,
        List.nil_append] at hlen heq
      obtain ⟨rfl, hinner⟩ := OneOf.cons_inj heq
      obtain ⟨rfl, hrest⟩ := ih (by omega) (c.stops (by decide)) (c'.stops (by decide)) hinner
      obtain ⟨rfl, rfl⟩ := OneOf.cons_inj hrest
      exact ⟨rfl, rfl⟩

theorem Postfix.determined {bound : Nat} (ih : Known bound .assignment) :
    Determined (bound + 1) (fun _ => True) Postfix.tokens := by
  rintro p p' rest rest' hlen - - heq
  -- a list of arguments does not begin as what ends it
  have hargs : ∀ {args : Arguments} {c : OneOf [.closeParen]} {us vs : List Token},
      c.1 :: us ≠ args.tokens ++ vs := by
    intro args c us vs h
    have hmem := args.begins.nextKind vs
    rw [← h, nextKind, c.kind] at hmem
    revert hmem
    decide
  cases p with
  | call o c =>
    cases p' with
    | call o' c' =>
      obtain ⟨rfl, hrest⟩ := OneOf.cons_inj heq
      obtain ⟨rfl, rfl⟩ := OneOf.cons_inj hrest
      exact ⟨rfl, rfl⟩
    | callWith o' args' c' =>
      have htail : c.1 :: rest = args'.tokens ++ c'.1 :: rest' := by simpa using (List.cons.inj heq).2
      exact absurd htail hargs
    | access c' f' => exact (o.ne c' (by decide) (List.cons.inj heq).1).elim
  | callWith o args c =>
    cases p' with
    | call o' c' =>
      have htail : c'.1 :: rest' = args.tokens ++ c.1 :: rest := by simpa using (List.cons.inj heq).2.symm
      exact absurd htail hargs
    | callWith o' args' c' =>
      simp only [tokens, List.length_cons, List.length_append, List.cons_append, List.append_assoc,
        List.nil_append] at hlen heq
      obtain ⟨rfl, hinner⟩ := OneOf.cons_inj heq
      obtain ⟨rfl, hrest⟩ := args.determined ih args' (by omega) hinner
      obtain ⟨rfl, rfl⟩ := OneOf.cons_inj hrest
      exact ⟨rfl, rfl⟩
    | access c' f' => exact (o.ne c' (by decide) (List.cons.inj heq).1).elim
  | access c f =>
    cases p' with
    | call o' c' => exact (c.ne o' (by decide) (List.cons.inj heq).1).elim
    | callWith o' args' c' => exact (c.ne o' (by decide) (List.cons.inj heq).1).elim
    | access c' f' =>
      obtain ⟨rfl, hrest⟩ := OneOf.cons_inj heq
      obtain ⟨rfl, rfl⟩ := OneOf.cons_inj hrest
      exact ⟨rfl, rfl⟩

theorem determined_primary {bound : Nat} (ih : Known bound .assignment) : Known (bound + 1) .primary := by
  have hchain := (Atom.determined ih).chain (Postfix.determined ih) Postfix.begins fun _ _ => trivial
  have hstop : ∀ k, Level.primary.Stops k → True ∧ k ∉ [TokenKind.openParen, .colon] :=
    fun k hk => ⟨trivial, hk .primary (Nat.le_refl _)⟩
  rintro ⟨s, e⟩ ⟨s', e'⟩ rest rest' hlen hr hr' heq
  obtain ⟨p, he, hts⟩ := e.exists_postfixes
  obtain ⟨p', he', hts'⟩ := e'.exists_postfixes
  simp only [AnyExp.tokens, hts, hts'] at hlen heq
  obtain ⟨rfl, rfl⟩ := hchain hlen (hstop _ hr) (hstop _ hr') heq
  exact ⟨he.trans he'.symm, rfl⟩

/-! ## Assignments -/

/-- An expression is also one of each lower level. -/
theorem Exp.exists_lower {l : Level} {s : Shape} (e : Exp l s) : ∀ m : Level, m.rank ≤ l.rank →
    ∃ e' : Exp m s, e'.tokens = e.tokens ∧ ∀ n, e'.tree n = e.tree n :=
  Level.descend ⟨e, rfl, fun _ => rfl⟩ fun _ hm ⟨e', hts, htree⟩ => ⟨.lift hm e', hts, htree⟩

theorem determined_assignment {bound : Nat} (ih : Known bound .assignment)
    (hp : Known (bound + 1) .primary) (hd : Known (bound + 1) .disjunction) :
    Known (bound + 1) .assignment := by
  have hsign : ∀ (t : OneOf [.assignment]) {ts : List Token},
      Level.disjunction.Stops (nextKind (t.1 :: ts)) := by
    intro t ts
    rw [nextKind, t.kind]
    exact Level.disjunction_stops_assignment
  -- what stands before the sign of an assignment is an expression of the next level by itself
  have hother : ∀ {p : Place} {s : Shape} {target : Exp .primary (.place p)} {t : OneOf [.assignment]}
      {e : Exp .disjunction s} {ts rest : List Token},
      target.tokens.length ≤ bound + 1 ∨ e.tokens.length ≤ bound + 1 →
      Level.assignment.Stops (nextKind rest) → target.tokens ++ t.1 :: ts ≠ e.tokens ++ rest := by
    intro p s target t e ts rest hlen hr heq
    obtain ⟨target', hts, -⟩ := target.exists_lower .disjunction (by decide)
    rw [← hts] at hlen heq
    have hrest : t.1 :: ts = rest := by
      cases hlen with
      | inl hlen => exact (hd.exp hlen (hsign t) hr.next heq).2
      | inr hlen => exact (hd.exp hlen hr.next (hsign t) heq.symm).2.symm
    rw [← hrest, nextKind, t.kind] at hr
    exact hr .assignment (Nat.le_refl _) (by decide)
  rintro ⟨s, e⟩ ⟨s', e'⟩ rest rest' hlen hr hr' heq
  cases e with
  | assign target t value =>
    simp only [AnyExp.tokens, Exp.tokens, List.length_append, List.length_cons, List.append_assoc] at hlen heq
    cases e' with
    | assign target' t' value' =>
      simp only [Exp.tokens, List.append_assoc] at heq
      obtain ⟨htarget, hrest⟩ := hp.exp (by omega)
        ((hsign t).mono (by decide)) ((hsign t').mono (by decide)) heq
      obtain ⟨rfl, hvalue⟩ := OneOf.cons_inj hrest
      obtain ⟨hv, rfl⟩ := ih.exp (by omega) hr hr' hvalue
      cases htarget
      cases hv
      exact ⟨rfl, rfl⟩
    | lift hl e' => exact absurd heq (hother (.inl (by omega)) hr')
    | binary _ _ hop => cases hop
  | lift hl e =>
    cases e' with
    | assign target' t' value' =>
      simp only [AnyExp.tokens, Exp.tokens, List.append_assoc] at hlen heq
      exact absurd heq.symm (hother (.inr hlen) hr)
    | lift hl' e' =>
      obtain ⟨he, rfl⟩ := hd.exp hlen hr.next hr'.next heq
      cases he
      exact ⟨rfl, rfl⟩
    | binary _ _ hop => cases hop
  | binary _ _ hop => cases hop

/-- Expressions are determined by their tokens. -/
theorem determined_exp : ∀ (bound : Nat) (l : Level), Known bound l
  | 0, l => by
    -- no expression is without tokens
    rintro e e' rest rest' hlen - - -
    obtain ⟨t, ts, hts, -⟩ := e.begins
    rw [hts] at hlen
    exact absurd hlen (by simp)
  | bound + 1, l => by
    have ih := determined_exp bound
    have hprimary := determined_primary (ih .assignment)
    have hsign := determined_sign (ih .sign) hprimary
    have hproduct : Known (bound + 1) .product := determined_operands (by decide) hsign
    have hsum : Known (bound + 1) .sum := determined_operands (by decide) hproduct
    have hcomparison : Known (bound + 1) .comparison := determined_operands (by decide) hsum
    have hconjunction : Known (bound + 1) .conjunction := determined_operands (by decide) hcomparison
    have hdisjunction : Known (bound + 1) .disjunction := determined_operands (by decide) hconjunction
    cases l with
    | assignment => exact determined_assignment (ih .assignment) hprimary hdisjunction
    | disjunction => exact hdisjunction
    | conjunction => exact hconjunction
    | comparison => exact hcomparison
    | sum => exact hsum
    | product => exact hproduct
    | sign => exact hsign
    | primary => exact hprimary

theorem Exp.determined {l : Level} {s s' : Shape} {e : Exp l s} {e' : Exp l s'} {rest rest' : List Token}
    (hr : l.Stops (nextKind rest)) (hr' : l.Stops (nextKind rest'))
    (heq : e.tokens ++ rest = e'.tokens ++ rest') : (⟨s, e⟩ : AnyExp l) = ⟨s', e'⟩ ∧ rest = rest' :=
  (determined_exp _ l).exp (Nat.le_refl _) hr hr' heq

/-- An expression and the token after it. -/
theorem Exp.determined_cons {l : Level} {s s' : Shape} {e : Exp l s} {e' : Exp l s'} {k : TokenKind}
    {t t' : OneOf [k]} {ts ts' : List Token} (hk : k ∈ Level.closers)
    (heq : e.tokens ++ t.1 :: ts = e'.tokens ++ t'.1 :: ts') :
    (⟨s, e⟩ : AnyExp l) = ⟨s', e'⟩ ∧ t = t' ∧ ts = ts' := by
  obtain ⟨he, hrest⟩ := Exp.determined (t.stops hk) (t'.stops hk) heq
  exact ⟨he, OneOf.cons_inj hrest⟩

end Concrete

end BaseLang
