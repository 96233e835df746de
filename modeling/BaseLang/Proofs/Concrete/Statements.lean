import BaseLang.Proofs.Concrete.Operators

/-
  Statements and programs are unambiguous.

  A statement that begins with a word is known by it. The others begin with an expression,
  and are known by its shape and by the token after it. After a statement there is no `else`,
  which would belong to it.

    1. `Statement.form_eq` — statements of the same tokens are of the same form.
    2. `Statement.determined`, `Block.determined` — statements and blocks.
    3. `Definition.determined` — declarations of a program.
    4. `Source.unique` — programs.
-/

namespace BaseLang.Concrete

open Grammar (Begins)

/-! ## Declarations of names -/

def typeWords : List TokenKind := [.logicalWord, .integerWord, .voidWord, .tupleWord]

namespace Typed

theorem begins (d : Typed) : Begins (· ∈ typeWords) d.tokens := by
  cases d with
  | word t => exact ⟨t.1, [], rfl, List.mem_append_left [TokenKind.tupleWord] t.2⟩
  | tuple w x => exact ⟨w.1, [x.1], rfl, by rw [w.kind]; decide⟩

theorem determined (bound : Nat) : Determined bound (fun _ => True) Typed.tokens := by
  rintro d d' rest rest' - - - heq
  cases d with
  | word t =>
    cases d' with
    | word t' =>
      obtain ⟨rfl, rfl⟩ := OneOf.cons_inj heq
      exact ⟨rfl, rfl⟩
    | tuple w' x' => exact (t.ne w' (by decide) (List.cons.inj heq).1).elim
  | tuple w x =>
    cases d' with
    | word t' => exact (w.ne t' (by decide) (List.cons.inj heq).1).elim
    | tuple w' x' =>
      obtain ⟨rfl, hrest⟩ := OneOf.cons_inj heq
      obtain ⟨rfl, rfl⟩ := OneOf.cons_inj hrest
      exact ⟨rfl, rfl⟩

end Typed

namespace Variable

theorem begins (d : Variable) : Begins (· ∈ typeWords) d.tokens := d.type.begins.append

theorem determined (bound : Nat) : Determined bound (fun _ => True) Variable.tokens := by
  rintro ⟨type, x, d⟩ ⟨type', x', d'⟩ rest rest' hlen - - heq
  simp only [tokens, List.append_assoc, List.length_append] at hlen heq
  obtain ⟨rfl, hrest⟩ := Typed.determined bound (by omega) trivial trivial heq
  obtain ⟨rfl, hdot⟩ := OneOf.cons_inj hrest
  obtain ⟨rfl, rfl⟩ := OneOf.cons_inj hdot
  exact ⟨rfl, rfl⟩

end Variable

theorem Formal.determined (bound : Nat) : Determined bound (fun _ => True) Formal.tokens := by
  rintro ⟨t, x⟩ ⟨t', x'⟩ rest rest' - - - heq
  obtain ⟨rfl, hrest⟩ := OneOf.cons_inj heq
  obtain ⟨rfl, rfl⟩ := OneOf.cons_inj hrest
  exact ⟨rfl, rfl⟩

/-! ## Statements and blocks -/

namespace Statement

/-- What tells a statement by its tokens: the shape of the expression with which it begins and
the token after it, or else its first token. -/
def form : Statement → Option Shape × TokenKind
  | .assign _ _ => (some .assignment, .dot)
  | .call _ _ => (some .call, .dot)
  | .increment (p := p) _ _ _ => (some (.place p), .plusPlus)
  | .decrement (p := p) _ _ _ => (some (.place p), .minusMinus)
  | .ifThen _ _ _ | .ifElse _ _ _ _ _ => (none, .ifWord)
  | .whileDo _ _ _ => (none, .whileWord)
  | .read _ _ _ _ => (none, .readWord)
  | .write _ _ _ _ => (none, .writeWord)
  | .leave _ _ | .giveBack _ _ _ => (none, .returnWord)

def words : List TokenKind := [.ifWord, .whileWord, .readWord, .writeWord, .returnWord]

/-- A statement begins with its word, or with an expression and the token after it. -/
theorem exists_form (s : Statement) :
    (∃ t ts, s.tokens = t :: ts ∧ s.form = (none, t.kind) ∧ t.kind ∈ words) ∨
      ∃ (e : AnyExp .assignment) (t : Token) (ts : List Token), s.tokens = e.tokens ++ t :: ts ∧
        s.form = (some e.1, t.kind) ∧ t.kind ∈ Level.closers := by
  cases s with
  | assign e d => exact .inr ⟨⟨_, e⟩, d.1, [], rfl, by rw [d.kind]; rfl, by rw [d.kind]; decide⟩
  | call e d =>
    obtain ⟨e', hts, -⟩ := e.exists_lower .assignment (by decide)
    exact .inr ⟨⟨_, e'⟩, d.1, [], by rw [AnyExp.tokens, hts]; rfl, by rw [d.kind]; rfl,
      by rw [d.kind]; decide⟩
  | increment e o d | decrement e o d =>
    obtain ⟨e', hts, -⟩ := e.exists_lower .assignment (by decide)
    exact .inr ⟨⟨_, e'⟩, o.1, [d.1], by rw [AnyExp.tokens, hts]; rfl, by rw [o.kind]; rfl,
      by rw [o.kind]; decide⟩
  | ifThen w _ _ | ifElse w _ _ _ _ | whileDo w _ _ | read w _ _ _ | write w _ _ _ | leave w _
  | giveBack w _ _ => exact .inl ⟨w.1, _, rfl, by rw [w.kind]; rfl, by rw [w.kind]; decide⟩

theorem begins (s : Statement) : Begins (· ∈ words ++ Level.assignment.starts) s.tokens := by
  rcases s.exists_form with ⟨t, ts, hts, -, ht⟩ | ⟨e, t, ts, hts, -, -⟩
  · exact ⟨t, ts, hts, List.mem_append_left _ ht⟩
  · rw [hts]
    exact (e.begins.mono fun _ hk => List.mem_append_right _ hk).append

theorem form_eq {s s' : Statement} {rest rest' : List Token}
    (heq : s.tokens ++ rest = s'.tokens ++ rest') : s.form = s'.form := by
  -- no expression begins with a word of a statement
  have hother : ∀ {t : Token} {ts us : List Token} {e : AnyExp .assignment}, t.kind ∈ words →
      t :: ts ≠ e.tokens ++ us := by
    intro t ts us e ht h
    have hstart := e.begins.nextKind us
    rw [← h, nextKind] at hstart
    revert hstart ht
    generalize t.kind = k
    cases k <;> decide
  rcases s.exists_form with ⟨t, ts, hts, hform, ht⟩ | ⟨e, t, ts, hts, hform, ht⟩ <;>
    rcases s'.exists_form with ⟨t', ts', hts', hform', ht'⟩ | ⟨e', t', ts', hts', hform', ht'⟩ <;>
      simp only [hts, hts', List.append_assoc, List.cons_append] at heq
  · rw [hform, hform', (List.cons.inj heq).1]
  · exact absurd heq (hother ht)
  · exact absurd heq.symm (hother ht')
  · have hstop := Level.assignment.stops_of_mem_closers ht
    have hstop' := Level.assignment.stops_of_mem_closers ht'
    obtain ⟨rfl, hrest⟩ := determined_exp _ _ (Nat.le_refl _) hstop hstop' heq
    rw [hform, hform', (List.cons.inj hrest).1]

end Statement

/-- A block begins with a bracket. -/
theorem Block.begins (b : Block) : Begins (· = .openBracket) b.tokens := by
  obtain ⟨o, decls, stmts, c⟩ := b
  exact ⟨o.1, _, rfl, o.kind⟩

theorem Block.stops (b : Block) (rest : List Token) :
    Level.assignment.Stops (nextKind (b.tokens ++ rest)) := by
  rw [b.begins.nextKind rest]
  exact Level.stops_of_mem_closers _ (by decide)

/-- What stands after declarations, or after the first statement, of a block. -/
theorem Statements.nextKind (ss : Statements) (c : OneOf [.closeBracket]) (rest : List Token) :
    nextKind (ss.tokens ++ c.1 :: rest) ∈ .closeBracket :: (Statement.words ++ Level.assignment.starts) := by
  cases ss with
  | nil =>
    rw [Statements.tokens, List.nil_append, BaseLang.nextKind, c.kind]
    exact List.mem_cons_self
  | cons s ss => exact List.mem_cons_of_mem _ (s.begins.append.nextKind _)

/-- No `else` stands after a statement of a block. -/
theorem Statements.next_ne_else (ss : Statements) (c : OneOf [.closeBracket]) (rest : List Token) :
    BaseLang.nextKind (ss.tokens ++ c.1 :: rest) ≠ .elseWord := by
  intro h
  have hk := ss.nextKind c rest
  rw [h] at hk
  revert hk
  decide

/-- No statement begins where a block is closed. -/
theorem closeBracket_ne (c : OneOf [.closeBracket]) (s : Statement) {ts us : List Token} :
    c.1 :: ts ≠ s.tokens ++ us := by
  intro h
  have hk := s.begins.nextKind us
  rw [← h, nextKind, c.kind] at hk
  revert hk
  decide

/-- No expression begins with a dot. -/
theorem dot_ne (d : OneOf [.dot]) {s : Shape} {e : Exp .assignment s} {ts us : List Token} :
    d.1 :: ts ≠ e.tokens ++ us := by
  intro h
  have hk := e.begins.nextKind us
  rw [← h, nextKind, d.kind] at hk
  revert hk
  decide

/-- A word, the condition after it and the block after that are known by their tokens, if the block
is. -/
theorem guard_determined {k : TokenKind} {s s' : Shape} {w w' : OneOf [k]} {cond : Exp .assignment s}
    {cond' : Exp .assignment s'} {body body' : Block} {us us' : List Token}
    (hbody : ∀ {vs vs' : List Token}, body.tokens ++ vs = body'.tokens ++ vs' → body = body' ∧ vs = vs')
    (heq : w.1 :: (cond.tokens ++ (body.tokens ++ us)) = w'.1 :: (cond'.tokens ++ (body'.tokens ++ us'))) :
    w = w' ∧ (⟨s, cond⟩ : AnyExp .assignment) = ⟨s', cond'⟩ ∧ body = body' ∧ us = us' := by
  obtain ⟨hw, hcond⟩ := OneOf.cons_inj heq
  obtain ⟨he, hrest⟩ := Exp.determined (body.stops us) (body'.stops us') hcond
  exact ⟨hw, he, hbody hrest⟩

/-- A word, the arrow after it and the expression after that are known by their tokens, the dot
included. -/
theorem arrow_determined {j k : TokenKind} {l : Level} {s s' : Shape} {w w' : OneOf [j]} {a a' : OneOf [k]}
    {e : Exp l s} {e' : Exp l s'} {d d' : OneOf [.dot]} {us us' : List Token}
    (heq : w.1 :: a.1 :: (e.tokens ++ d.1 :: us) = w'.1 :: a'.1 :: (e'.tokens ++ d'.1 :: us')) :
    w = w' ∧ a = a' ∧ (⟨s, e⟩ : AnyExp l) = ⟨s', e'⟩ ∧ d = d' ∧ us = us' := by
  obtain ⟨hw, harrow⟩ := OneOf.cons_inj heq
  obtain ⟨ha, hexp⟩ := OneOf.cons_inj harrow
  exact ⟨hw, ha, Exp.determined_cons (by decide) hexp⟩

mutual

theorem Statement.determined : (s s' : Statement) → {rest rest' : List Token} →
    nextKind rest ≠ .elseWord → nextKind rest' ≠ .elseWord → s.tokens ++ rest = s'.tokens ++ rest' →
      s = s' ∧ rest = rest'
  | .assign e d, s', rest, rest', _, _, heq => by
    have hform := Statement.form_eq heq
    cases s' with
    | assign e' d' =>
      simp only [Statement.tokens, List.append_assoc, List.cons_append, List.nil_append] at heq
      obtain ⟨he, rfl, rfl⟩ := Exp.determined_cons (by decide) heq
      cases he
      exact ⟨rfl, rfl⟩
    | _ => cases hform
  | .call e d, s', rest, rest', _, _, heq => by
    have hform := Statement.form_eq heq
    cases s' with
    | call e' d' =>
      simp only [Statement.tokens, List.append_assoc, List.cons_append, List.nil_append] at heq
      obtain ⟨he, rfl, rfl⟩ := Exp.determined_cons (by decide) heq
      cases he
      exact ⟨rfl, rfl⟩
    | _ => cases hform
  | .increment e o d, s', rest, rest', _, _, heq => by
    have hform := Statement.form_eq heq
    cases s' with
    | increment e' o' d' =>
      simp only [Statement.tokens, List.append_assoc, List.cons_append, List.nil_append] at heq
      obtain ⟨he, rfl, hrest⟩ := Exp.determined_cons (by decide) heq
      obtain ⟨rfl, rfl⟩ := OneOf.cons_inj hrest
      cases he
      exact ⟨rfl, rfl⟩
    | _ => cases hform
  | .decrement e o d, s', rest, rest', _, _, heq => by
    have hform := Statement.form_eq heq
    cases s' with
    | decrement e' o' d' =>
      simp only [Statement.tokens, List.append_assoc, List.cons_append, List.nil_append] at heq
      obtain ⟨he, rfl, hrest⟩ := Exp.determined_cons (by decide) heq
      obtain ⟨rfl, rfl⟩ := OneOf.cons_inj hrest
      cases he
      exact ⟨rfl, rfl⟩
    | _ => cases hform
  | .ifThen w cond body, s', rest, rest', hr, _, heq => by
    have hform := Statement.form_eq heq
    cases s' with
    | ifThen w' cond' body' =>
      simp only [Statement.tokens, List.append_assoc, List.cons_append] at heq
      obtain ⟨rfl, he, rfl, rfl⟩ := guard_determined (body.determined body') heq
      cases he
      exact ⟨rfl, rfl⟩
    | ifElse w' cond' body' v' other' =>
      simp only [Statement.tokens, List.append_assoc, List.cons_append] at heq
      obtain ⟨rfl, he, rfl, rfl⟩ := guard_determined (body.determined body') heq
      exact absurd v'.kind hr
    | _ => cases hform
  | .ifElse w cond body v other, s', rest, rest', _, hr', heq => by
    have hform := Statement.form_eq heq
    cases s' with
    | ifThen w' cond' body' =>
      simp only [Statement.tokens, List.append_assoc, List.cons_append] at heq
      obtain ⟨rfl, he, rfl, rfl⟩ := guard_determined (body.determined body') heq
      exact absurd v.kind hr'
    | ifElse w' cond' body' v' other' =>
      simp only [Statement.tokens, List.append_assoc, List.cons_append] at heq
      obtain ⟨rfl, he, rfl, helse⟩ := guard_determined (body.determined body') heq
      obtain ⟨rfl, hother⟩ := OneOf.cons_inj helse
      obtain ⟨rfl, rfl⟩ := other.determined other' hother
      cases he
      exact ⟨rfl, rfl⟩
    | _ => cases hform
  | .whileDo w cond body, s', rest, rest', _, _, heq => by
    have hform := Statement.form_eq heq
    cases s' with
    | whileDo w' cond' body' =>
      simp only [Statement.tokens, List.append_assoc, List.cons_append] at heq
      obtain ⟨rfl, he, rfl, rfl⟩ := guard_determined (body.determined body') heq
      cases he
      exact ⟨rfl, rfl⟩
    | _ => cases hform
  | .read w a e d, s', rest, rest', _, _, heq => by
    have hform := Statement.form_eq heq
    cases s' with
    | read w' a' e' d' =>
      simp only [Statement.tokens, List.append_assoc, List.cons_append, List.nil_append] at heq
      obtain ⟨rfl, rfl, he, rfl, rfl⟩ := arrow_determined heq
      cases he
      exact ⟨rfl, rfl⟩
    | _ => cases hform
  | .write w a e d, s', rest, rest', _, _, heq => by
    have hform := Statement.form_eq heq
    cases s' with
    | write w' a' e' d' =>
      simp only [Statement.tokens, List.append_assoc, List.cons_append, List.nil_append] at heq
      obtain ⟨rfl, rfl, he, rfl, rfl⟩ := arrow_determined heq
      cases he
      exact ⟨rfl, rfl⟩
    | _ => cases hform
  | .leave w d, s', rest, rest', _, _, heq => by
    have hform := Statement.form_eq heq
    cases s' with
    | leave w' d' =>
      obtain ⟨rfl, hdot⟩ := OneOf.cons_inj heq
      obtain ⟨rfl, rfl⟩ := OneOf.cons_inj hdot
      exact ⟨rfl, rfl⟩
    | giveBack w' e' d' =>
      simp only [Statement.tokens, List.append_assoc, List.cons_append, List.nil_append] at heq
      exact absurd (List.cons.inj heq).2 (dot_ne d)
    | _ => cases hform
  | .giveBack w e d, s', rest, rest', _, _, heq => by
    have hform := Statement.form_eq heq
    cases s' with
    | leave w' d' =>
      simp only [Statement.tokens, List.append_assoc, List.cons_append, List.nil_append] at heq
      exact absurd (List.cons.inj heq).2.symm (dot_ne d')
    | giveBack w' e' d' =>
      simp only [Statement.tokens, List.append_assoc, List.cons_append, List.nil_append] at heq
      obtain ⟨rfl, hexp⟩ := OneOf.cons_inj heq
      obtain ⟨he, rfl, rfl⟩ := Exp.determined_cons (by decide) hexp
      cases he
      exact ⟨rfl, rfl⟩
    | _ => cases hform

theorem Block.determined : (b b' : Block) → {rest rest' : List Token} →
    b.tokens ++ rest = b'.tokens ++ rest' → b = b' ∧ rest = rest'
  | .mk o decls stmts c, .mk o' decls' stmts' c', rest, rest', heq => by
    simp only [Block.tokens, List.append_assoc, List.cons_append, List.nil_append] at heq
    obtain ⟨rfl, hin⟩ := OneOf.cons_inj heq
    -- what stands after the declarations begins no other
    have hstop : ∀ (ss : Statements) (c : OneOf [.closeBracket]) (us : List Token),
        nextKind (ss.tokens ++ c.1 :: us) ∉ typeWords := by
      intro ss c us
      have hk := ss.nextKind c us
      generalize nextKind (ss.tokens ++ c.1 :: us) = k at hk
      revert hk
      cases k <;> decide
    obtain ⟨rfl, hstmts⟩ := (Variable.determined _).list Variable.begins (fun _ _ => trivial)
      (Nat.le_refl _) ⟨trivial, hstop stmts c rest⟩ ⟨trivial, hstop stmts' c' rest'⟩ hin
    obtain ⟨rfl, hclose⟩ := stmts.determined stmts' hstmts
    obtain ⟨rfl, rfl⟩ := OneOf.cons_inj hclose
    exact ⟨rfl, rfl⟩

theorem Statements.determined : (ss ss' : Statements) → {c c' : OneOf [.closeBracket]} →
    {us us' : List Token} → ss.tokens ++ c.1 :: us = ss'.tokens ++ c'.1 :: us' →
      ss = ss' ∧ c.1 :: us = c'.1 :: us'
  | .nil, .nil, c, c', us, us', heq => ⟨rfl, heq⟩
  | .nil, .cons s' ss', c, c', us, us', heq => by
    rw [Statements.tokens, Statements.tokens, List.append_assoc] at heq
    exact absurd heq (closeBracket_ne c s')
  | .cons s ss, .nil, c, c', us, us', heq => by
    rw [Statements.tokens, Statements.tokens, List.append_assoc] at heq
    exact absurd heq.symm (closeBracket_ne c' s)
  | .cons s ss, .cons s' ss', c, c', us, us', heq => by
    simp only [Statements.tokens, List.append_assoc] at heq
    obtain ⟨rfl, hrest⟩ := s.determined s' (ss.next_ne_else c us) (ss'.next_ne_else c' us') heq
    obtain ⟨rfl, hclose⟩ := ss.determined ss' hrest
    exact ⟨rfl, hclose⟩

end

/-! ## Programs -/

namespace Formals

theorem following_begins (d : OneOf [.comma] × Formal) : Begins (· = .comma) (following d) :=
  ⟨d.1.1, d.2.tokens, rfl, d.1.kind⟩

theorem following_determined (bound : Nat) : Determined bound (fun _ => True) following := by
  rintro ⟨c, d⟩ ⟨c', d'⟩ rest rest' - - - heq
  obtain ⟨rfl, hd⟩ := OneOf.cons_inj heq
  obtain ⟨rfl, rfl⟩ := Formal.determined _ (Nat.le_refl _) trivial trivial hd
  exact ⟨rfl, rfl⟩

/-- Formals are determined up to the brace after them. -/
theorem determined {fs fs' : Formals} {c c' : OneOf [.closeCurly]} {us us' : List Token}
    (heq : fs.tokens ++ c.1 :: us = fs'.tokens ++ c'.1 :: us') : fs = fs' ∧ c.1 :: us = c'.1 :: us' := by
  have hstop : ∀ (c : OneOf [.closeCurly]) (us : List Token), nextKind (c.1 :: us) ≠ .comma := by
    intro c us
    rw [nextKind, c.kind]
    decide
  cases fs with
  | none =>
    cases fs' with
    | none => exact ⟨rfl, heq⟩
    | some first' others' => exact (c.ne first'.type (by decide) (List.cons.inj heq).1).elim
  | some first others =>
    cases fs' with
    | none => exact (c'.ne first.type (by decide) (List.cons.inj heq).1.symm).elim
    | some first' others' =>
      have hchain := (Formal.determined (some first others).tokens.length).chain (following_determined _)
        following_begins fun _ _ => trivial
      obtain ⟨hfs, hrest⟩ := @hchain (first, others) (first', others') _ _ (Nat.le_refl _)
        ⟨trivial, hstop c us⟩ ⟨trivial, hstop c' us'⟩ heq
      cases hfs
      exact ⟨rfl, hrest⟩

end Formals

namespace Definition

theorem begins (d : Definition) : Begins (· ∈ typeWords) d.tokens := by
  cases d with
  | var d => exact d.begins
  | function result name o formals c body =>
    exact ⟨result.1, _, rfl, List.mem_append_left [TokenKind.tupleWord] result.2⟩
  | tuple w name o fields c d => exact ⟨w.1, _, rfl, by rw [w.kind]; decide⟩

/-- What tells a declaration by its tokens: whether the first is `tuple`, and the third. -/
def form : Definition → Bool × TokenKind
  | .var ⟨.word _, _, _⟩ => (false, .dot)
  | .var ⟨.tuple _ _, _, _⟩ => (true, .identifier)
  | .function .. => (false, .openCurly)
  | .tuple .. => (true, .openCurly)

theorem exists_form (d : Definition) :
    ∃ t u v ts, d.tokens = t :: u :: v :: ts ∧ d.form = (t.kind == .tupleWord, v.kind) := by
  have hword : ∀ w : TypeWord, (w.1.kind == .tupleWord) = false := by
    rintro ⟨w, hw⟩
    simp only [List.mem_cons, List.not_mem_nil, or_false] at hw
    rcases hw with hw | hw | hw <;> rw [hw] <;> rfl
  match d with
  | .var ⟨.word w, x, d⟩ => exact ⟨w.1, x.1, d.1, [], rfl, by rw [hword, d.kind]; rfl⟩
  | .var ⟨.tuple w y, x, d⟩ => exact ⟨w.1, y.1, x.1, [d.1], rfl, by rw [w.kind, x.kind]; rfl⟩
  | .function result x o _ _ _ => exact ⟨result.1, x.1, o.1, _, rfl, by rw [hword, o.kind]; rfl⟩
  | .tuple w x o _ _ _ => exact ⟨w.1, x.1, o.1, _, rfl, by rw [w.kind, o.kind]; rfl⟩

theorem form_eq {d d' : Definition} {rest rest' : List Token}
    (heq : d.tokens ++ rest = d'.tokens ++ rest') : d.form = d'.form := by
  obtain ⟨t, u, v, ts, hts, hform⟩ := d.exists_form
  obtain ⟨t', u', v', ts', hts', hform'⟩ := d'.exists_form
  simp only [hts, hts', List.cons_append, List.cons.injEq] at heq
  rw [hform, hform', heq.1, heq.2.2.1]

theorem determined (bound : Nat) : Determined bound (fun _ => True) Definition.tokens := by
  have hbrace : ∀ (c : OneOf [.closeCurly]) (us : List Token), nextKind (c.1 :: us) ∉ typeWords := by
    intro c us
    rw [nextKind, c.kind]
    decide
  rintro d d' rest rest' - - - heq
  have hform := form_eq heq
  cases d with
  | var d =>
    cases d' with
    | var d' =>
      obtain ⟨rfl, rfl⟩ := Variable.determined _ (Nat.le_refl _) trivial trivial heq
      exact ⟨rfl, rfl⟩
    | function => obtain ⟨_ | _, _, _⟩ := d <;> cases hform
    | tuple => obtain ⟨_ | _, _, _⟩ := d <;> cases hform
  | function result x o formals c body =>
    cases d' with
    | var d' => obtain ⟨_ | _, _, _⟩ := d' <;> cases hform
    | function result' x' o' formals' c' body' =>
      simp only [tokens, List.append_assoc, List.cons_append] at heq
      obtain ⟨rfl, hx⟩ := OneOf.cons_inj heq
      obtain ⟨rfl, ho⟩ := OneOf.cons_inj hx
      obtain ⟨rfl, hformals⟩ := OneOf.cons_inj ho
      obtain ⟨rfl, hc⟩ := Formals.determined hformals
      obtain ⟨rfl, hbody⟩ := OneOf.cons_inj hc
      obtain ⟨rfl, rfl⟩ := body.determined body' hbody
      exact ⟨rfl, rfl⟩
    | tuple => cases hform
  | tuple w x o fields c d =>
    cases d' with
    | var d' => obtain ⟨_ | _, _, _⟩ := d' <;> cases hform
    | function => cases hform
    | tuple w' x' o' fields' c' d' =>
      simp only [tokens, List.append_assoc, List.cons_append, List.nil_append] at heq
      obtain ⟨rfl, hx⟩ := OneOf.cons_inj heq
      obtain ⟨rfl, ho⟩ := OneOf.cons_inj hx
      obtain ⟨rfl, hfields⟩ := OneOf.cons_inj ho
      obtain ⟨rfl, hc⟩ := (Variable.determined _).list Variable.begins (fun _ _ => trivial) (Nat.le_refl _)
        ⟨trivial, hbrace c _⟩ ⟨trivial, hbrace c' _⟩ hfields
      obtain ⟨rfl, hd⟩ := OneOf.cons_inj hc
      obtain ⟨rfl, rfl⟩ := OneOf.cons_inj hd
      exact ⟨rfl, rfl⟩

end Definition

/-- A program has one derivation. -/
theorem Source.unique {d d' : Source} (h : d.tokens = d'.tokens) : d = d' := by
  have hend : True ∧ nextKind [] ∉ typeWords := ⟨trivial, by decide⟩
  obtain ⟨hds, -⟩ := (Definition.determined _).list Definition.begins (fun _ _ => trivial) (Nat.le_refl _)
    hend hend (congrArg (· ++ []) h)
  cases d
  cases hds
  rfl

end BaseLang.Concrete
