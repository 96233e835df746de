import BaseLang.Proofs.Parsing.Running

/-
  The grammar of the language, as derivations.

  A derivation says that a run of tokens has the form of a phrase, which tree that
  phrase has, and which node numbers its names and accesses take: the first number
  goes in, the first one left over comes out. Nothing here mentions a reader.

    1. `Commas`, `Separated`, `Repeated` — lists of phrases of one form.
    2. `Phrase` — expressions, under the power down to which their operators bind.
    3. `Sentence`, `Body` — statements and blocks.
    4. `Declared`, `Derives` — declarations and programs.
-/

namespace BaseLang

/-- A form of phrase: the first node number, the tokens, the tree and the first
number left over. -/
abbrev Form (α : Type) := NodeId → List Token → α → NodeId → Prop

namespace Grammar

/-! ## Lists of phrases -/

section Lists
variable {α : Type}

/-- Phrases of one form with commas between them, at least one. -/
inductive Commas (G : Form α) : Form (List α)
  | one {n ts a m} (h : G n ts a m) : Commas G n ts [a] m
  | more {n ts a k c us as m} (h : G n ts a k) (hc : c.kind = .comma) (rest : Commas G k us as m) :
      Commas G n (ts ++ c :: us) (a :: as) m

/-- Phrases of one form with commas between them, or nothing. -/
inductive Separated (G : Form α) : Form (List α)
  | none {n} : Separated G n [] [] n
  | some {n ts as m} (h : Commas G n ts as m) : Separated G n ts as m

/-- Phrases of one form, each right after the other. -/
inductive Repeated (G : Form α) : Form (List α)
  | nil {n} : Repeated G n [] [] n
  | cons {n ts a k us as m} (h : G n ts a k) (rest : Repeated G k us as m) :
      Repeated G n (ts ++ us) (a :: as) m

variable {G : Form α} {P : α → Prop} {Q : Token → Prop} {n m : NodeId} {ts : List Token} {as : List α}

/-- What is so for every phrase of such tokens is so for each of those with commas between. -/
theorem Commas.forall (h : Commas G n ts as m) (hts : ∀ t ∈ ts, Q t)
    (hG : ∀ n ts a m, G n ts a m → (∀ t ∈ ts, Q t) → P a) : ∀ a ∈ as, P a := by
  induction h with
  | one h => exact List.forall_mem_singleton.2 (hG _ _ _ _ h hts)
  | more h _ _ ih =>
    rw [List.forall_mem_append, List.forall_mem_cons] at hts
    exact List.forall_mem_cons.2 ⟨hG _ _ _ _ h hts.1, ih hts.2.2⟩

theorem Separated.forall (h : Separated G n ts as m) (hts : ∀ t ∈ ts, Q t)
    (hG : ∀ n ts a m, G n ts a m → (∀ t ∈ ts, Q t) → P a) : ∀ a ∈ as, P a := by
  cases h with
  | none => exact nofun
  | some h => exact h.forall hts hG

theorem Repeated.forall (h : Repeated G n ts as m) (hts : ∀ t ∈ ts, Q t)
    (hG : ∀ n ts a m, G n ts a m → (∀ t ∈ ts, Q t) → P a) : ∀ a ∈ as, P a := by
  induction h with
  | nil => exact nofun
  | cons h _ ih =>
    rw [List.forall_mem_append] at hts
    exact List.forall_mem_cons.2 ⟨hG _ _ _ _ h hts.1, ih hts.2⟩

end Lists

/-! ## Expressions -/

def unaryOp? : TokenKind → Option UnaryOp
  | .dash => some .negate
  | .tilde => some .not
  | _ => none

/-- An expression all of whose operators outside parentheses bind at least as
strongly as the given power. Operators of one power group to the left, assignments
to the right. An access is numbered after its base and before its field. -/
inductive Phrase : BindingPower → Form Expr
  | int {n t v} (ht : t.kind = .intLiteral) (hv : Decimal.int32? t.text.toList = some v) :
      Phrase .call n [t] (.int v t.start) n
  | string {n t} (ht : t.kind = .stringLiteral) : Phrase .call n [t] (.string t.text t.start) n
  | true {n t} (ht : t.kind = .trueWord) : Phrase .call n [t] (.logical true t.start) n
  | false {n t} (ht : t.kind = .falseWord) : Phrase .call n [t] (.logical false t.start) n
  | name {n t} (ht : t.kind = .identifier) :
      Phrase .call n [t] (.loc (.ident ⟨n, t.text, t.start⟩)) (n + 1)
  | group {n o ts e c m} (ho : o.kind = .openParen) (h : Phrase .assignment n ts e m)
      (hc : c.kind = .closeParen) : Phrase .call n (o :: (ts ++ [c])) e m
  | call {n ts callee k o us args c m} (h : Phrase .call n ts (.loc (.ident callee)) k)
      (ho : o.kind = .openParen) (hargs : Separated (Phrase .assignment) k us args m)
      (hc : c.kind = .closeParen) : Phrase .call n (ts ++ o :: (us ++ [c])) (.call callee args) m
  | access {n ts base k c f} (h : Phrase .call n ts (.loc base) k) (hc : c.kind = .colon)
      (hf : f.kind = .identifier) :
      Phrase .call n (ts ++ [c, f]) (.loc (.access k base ⟨k + 1, f.text, f.start⟩)) (k + 2)
  | unary {n t op ts e m} (ht : unaryOp? t.kind = some op) (h : Phrase .unary n ts e m) :
      Phrase .unary n (t :: ts) (.unary op e) m
  | binary {p n ts left k t op us right m q} (hl : Phrase p n ts left k)
      (ht : t.kind = op.kind) (hp : Rules.standard.powerOf t.kind = p)
      (hq : p.level < q.level) (hr : Phrase q k us right m) :
      Phrase p n (ts ++ t :: us) (.binary op left right) m
  | assign {n ts target k t us value m} (h : Phrase .call n ts (.loc target) k)
      (ht : t.kind = .assignment) (hv : Phrase .assignment k us value m) :
      Phrase .assignment n (ts ++ t :: us) (.assign target value) m
  | weaken {p q n ts e m} (hpq : q.level ≤ p.level) (h : Phrase p n ts e m) : Phrase q n ts e m

/-- An operator between operands binds more strongly than an assignment and less
strongly than an operator before an operand. -/
theorem binary_power (op : BinaryOp) :
    Rules.standard.operator op.kind = some .binary ∧
      3 ≤ (Rules.standard.powerOf op.kind).level ∧ (Rules.standard.powerOf op.kind).level ≤ 7 := by
  cases op <;> decide

/-! ## Types and declarations of names -/

inductive SimpleType : Token → TypeName → Prop
  | logical {t} (ht : t.kind = .logicalWord) : SimpleType t .logical
  | integer {t} (ht : t.kind = .integerWord) : SimpleType t .integer
  | void {t} (ht : t.kind = .voidWord) : SimpleType t .void

inductive Typed : Form TypeName
  | simple {n t type} (h : SimpleType t type) : Typed n [t] type n
  | tuple {n t u} (ht : t.kind = .tupleWord) (hu : u.kind = .identifier) :
      Typed n [t, u] (.tuple ⟨n, u.text, u.start⟩) (n + 1)

/-- A variable or a field: a type, a name and a dot. -/
inductive Variable : Form VarDecl
  | mk {n ts type k u d} (h : Typed n ts type k) (hu : u.kind = .identifier)
      (hd : d.kind = .dot) : Variable n (ts ++ [u, d]) ⟨type, ⟨k, u.text, u.start⟩⟩ (k + 1)

/-- A formal of a function: a type of one word and a name. -/
inductive Formal : Form VarDecl
  | mk {n t type u} (h : SimpleType t type) (hu : u.kind = .identifier) :
      Formal n [t, u] ⟨type, ⟨n, u.text, u.start⟩⟩ (n + 1)

/-! ## Statements and blocks -/

mutual

inductive Sentence : Form Stmt
  | assign {n ts target value d m} (h : Phrase .assignment n ts (.assign target value) m)
      (hd : d.kind = .dot) : Sentence n (ts ++ [d]) (.assign target value) m
  | call {n ts callee args d m} (h : Phrase .assignment n ts (.call callee args) m)
      (hd : d.kind = .dot) : Sentence n (ts ++ [d]) (.call callee args) m
  | increment {n ts target o d m} (h : Phrase .assignment n ts (.loc target) m)
      (ho : o.kind = .plusPlus) (hd : d.kind = .dot) : Sentence n (ts ++ [o, d]) (.increment target) m
  | decrement {n ts target o d m} (h : Phrase .assignment n ts (.loc target) m)
      (ho : o.kind = .minusMinus) (hd : d.kind = .dot) :
      Sentence n (ts ++ [o, d]) (.decrement target) m
  | ifThen {n w ts cond k us body m} (hw : w.kind = .ifWord) (h : Phrase .assignment n ts cond k)
      (hb : Body k us body m) : Sentence n (w :: (ts ++ us)) (.ifThen cond body) m
  | ifElse {n w ts cond k us body j v vs other m} (hw : w.kind = .ifWord)
      (h : Phrase .assignment n ts cond k) (hb : Body k us body j) (hv : v.kind = .elseWord)
      (ho : Body j vs other m) :
      Sentence n (w :: (ts ++ (us ++ v :: vs))) (.ifElse cond body other) m
  | whileDo {n w ts cond k us body m} (hw : w.kind = .whileWord)
      (h : Phrase .assignment n ts cond k) (hb : Body k us body m) :
      Sentence n (w :: (ts ++ us)) (.whileDo cond body) m
  | read {n w a ts target d m} (hw : w.kind = .readWord) (ha : a.kind = .readArrow)
      (h : Phrase .assignment n ts (.loc target) m) (hd : d.kind = .dot) :
      Sentence n (w :: a :: (ts ++ [d])) (.read target) m
  | write {n w a ts value d m} (hw : w.kind = .writeWord) (ha : a.kind = .writeArrow)
      (h : Phrase .assignment n ts value m) (hd : d.kind = .dot) :
      Sentence n (w :: a :: (ts ++ [d])) (.write value) m
  | leave {n w d} (hw : w.kind = .returnWord) (hd : d.kind = .dot) :
      Sentence n [w, d] (.ret none w.start) n
  | giveBack {n w ts value d m} (hw : w.kind = .returnWord) (h : Phrase .assignment n ts value m)
      (hd : d.kind = .dot) : Sentence n (w :: (ts ++ [d])) (.ret (some value) w.start) m

/-- A block: declarations, then statements, in square brackets. -/
inductive Body : Form Block
  | mk {n o ts decls k us stmts c m} (ho : o.kind = .openBracket)
      (hd : Repeated Variable n ts decls k) (hs : Repeated Sentence k us stmts m)
      (hc : c.kind = .closeBracket) : Body n (o :: (ts ++ (us ++ [c]))) (.mk decls stmts) m

end

/-! ## Declarations and programs -/

inductive Declared : Form Decl
  | var {n ts d m} (h : Variable n ts d m) : Declared n ts (.var d) m
  | function {n t result u o ts formals k c us body m} (ht : SimpleType t result)
      (hu : u.kind = .identifier) (ho : o.kind = .openCurly)
      (hf : Separated Formal (n + 1) ts formals k) (hc : c.kind = .closeCurly)
      (hb : Body k us body m) :
      Declared n (t :: u :: o :: (ts ++ c :: us))
        (.function ⟨result, ⟨n, u.text, u.start⟩, formals, body⟩) m
  | tuple {n t u o ts fields m c d} (ht : t.kind = .tupleWord) (hu : u.kind = .identifier)
      (ho : o.kind = .openCurly) (hf : Repeated Variable (n + 1) ts fields m)
      (hc : c.kind = .closeCurly) (hd : d.kind = .dot) :
      Declared n (t :: u :: o :: (ts ++ [c, d])) (.tuple ⟨⟨n, u.text, u.start⟩, fields⟩) m

/-- A program whose nodes are numbered from zero. -/
def Derives (ts : List Token) (p : Program) (m : NodeId) : Prop := Repeated Declared 0 ts p.decls m

end Grammar

end BaseLang
