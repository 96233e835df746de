import BaseLang.Parsing.Rules
import BaseLang.Text.Decimal

/-
  The documented grammar, as the type of its derivations.

  A derivation of the grammar is a tree of tokens. Each constructor is a production, and
  what it needs of its tokens and parts is in the types of its arguments, so that nothing
  that the grammar does not allow can be written down. There is no parser here, and none
  of its tables.

  An expression is of a level: assignments are lowest, names and literals highest. It also
  has a shape, which parentheses keep: `(f)` is a name as `f` is, so that it can be called.

    1. `Exp`, `Arguments` — expressions;
    2. `Statement`, `Block` — statements, declarations of variables among them;
    3. `Definition`, `Source` — declarations of a program, and programs;
    4. for each of them `tokens`, the tokens that are derived, and `tree`, the syntax tree,
       whose names and accesses are numbered in their order.
-/

namespace BaseLang

def UnaryOp.kind : UnaryOp → TokenKind
  | .negate => .dash
  | .not => .tilde

namespace Concrete

/-- A token of one of these kinds. -/
abbrev OneOf (kinds : List TokenKind) := { t : Token // t.kind ∈ kinds }

/-! ## Levels and shapes of expressions -/

/-- The levels of expressions, lowest first. -/
inductive Level where
  | assignment
  | disjunction
  | conjunction
  | comparison
  | sum
  | product
  | sign
  | primary
  deriving DecidableEq, Repr

namespace Level

/-- The next higher level. There is none above the last. -/
def next : Level → Level
  | assignment => disjunction
  | disjunction => conjunction
  | conjunction => comparison
  | comparison => sum
  | sum => product
  | product => sign
  | sign | primary => primary

/-- The operators between operands that form the expressions of a level. -/
def operators : Level → List BinaryOp
  | disjunction => [.or]
  | conjunction => [.and]
  | comparison => [.equals, .notEquals, .less, .greater, .lessEq, .greaterEq]
  | sum => [.plus, .minus]
  | product => [.times, .divide]
  | assignment | sign | primary => []

end Level

/-- What an expression in any number of parentheses is: a name or a field, which are
locations, a call, an assignment, or something else. -/
inductive Place where
  | name
  | field
  deriving DecidableEq, Repr

@[inherit_doc Place]
inductive Shape where
  | place (p : Place)
  | call
  | assignment
  | other
  deriving DecidableEq, Repr

/-- The tree of a location of that shape: an identifier, or the number, the base and the
identifier of an access. -/
def Place.Tree : Place → Type
  | .name => Ident
  | .field => NodeId × Loc × Ident

def Place.loc : (p : Place) → p.Tree → Loc
  | .name, x => .ident x
  | .field, (id, base, f) => .access id base f

/-- The tree of an expression of that shape. -/
def Shape.Tree : Shape → Type
  | .place p => p.Tree
  | .call => Ident × List Expr
  | .assignment => Loc × Expr
  | .other => Expr

def Shape.expr : (s : Shape) → s.Tree → Expr
  | .place p, x => .loc (p.loc x)
  | .call, (callee, args) => .call callee args
  | .assignment, (target, value) => .assign target value
  | .other, e => e

/-! ## Expressions -/

mutual

/-- An expression of that level and shape. -/
inductive Exp : Level → Shape → Type
  | literal (t : OneOf [.intLiteral, .stringLiteral, .trueWord, .falseWord]) : Exp .primary .other
  | name (t : OneOf [.identifier]) : Exp .primary (.place .name)
  | group {s} (o : OneOf [.openParen]) (e : Exp .assignment s) (c : OneOf [.closeParen]) : Exp .primary s
  | call (callee : Exp .primary (.place .name)) (o : OneOf [.openParen]) (c : OneOf [.closeParen]) :
      Exp .primary .call
  | callWith (callee : Exp .primary (.place .name)) (o : OneOf [.openParen]) (args : Arguments)
      (c : OneOf [.closeParen]) : Exp .primary .call
  | access {p} (base : Exp .primary (.place p)) (c : OneOf [.colon]) (f : OneOf [.identifier]) :
      Exp .primary (.place .field)
  | unary {s} (op : UnaryOp) (t : OneOf [op.kind]) (e : Exp .sign s) : Exp .sign .other
  | binary {l s u} (left : Exp l s) (op : BinaryOp) (h : op ∈ l.operators) (t : OneOf [op.kind])
      (right : Exp l.next u) : Exp l .other
  | assign {p s} (target : Exp .primary (.place p)) (t : OneOf [.assignment])
      (value : Exp .assignment s) : Exp .assignment .assignment
  /-- An expression of the next higher level. -/
  | lift {l s} (h : l ≠ .primary) (e : Exp l.next s) : Exp l s

/-- The arguments of a call, at least one. -/
inductive Arguments : Type
  | last {s} (e : Exp .assignment s)
  | more {s} (e : Exp .assignment s) (c : OneOf [.comma]) (rest : Arguments)

end

mutual

def Exp.tokens : {l : Level} → {s : Shape} → Exp l s → List Token
  | _, _, .literal t => [t.1]
  | _, _, .name t => [t.1]
  | _, _, .group o e c => o.1 :: (e.tokens ++ [c.1])
  | _, _, .call callee o c => callee.tokens ++ [o.1, c.1]
  | _, _, .callWith callee o args c => callee.tokens ++ o.1 :: (args.tokens ++ [c.1])
  | _, _, .access base c f => base.tokens ++ [c.1, f.1]
  | _, _, .unary _ t e => t.1 :: e.tokens
  | _, _, .binary left _ _ t right => left.tokens ++ t.1 :: right.tokens
  | _, _, .assign target t value => target.tokens ++ t.1 :: value.tokens
  | _, _, .lift _ e => e.tokens

def Arguments.tokens : Arguments → List Token
  | .last e => e.tokens
  | .more e c rest => e.tokens ++ c.1 :: rest.tokens

end

def literalTree (t : Token) : Expr :=
  match t.kind with
  | .intLiteral => .int ((Decimal.int32? t.text.toList).getD 0) t.start
  | .stringLiteral => .string t.text t.start
  | .trueWord => .logical true t.start
  | _ => .logical false t.start

/-- The name that a token is, under that number. -/
def identTree (n : NodeId) (t : Token) : Ident := ⟨n, t.text, t.start⟩

mutual

/-- The tree of an expression whose first node has that number, and the first number that
is left over. -/
def Exp.tree : {l : Level} → {s : Shape} → Exp l s → NodeId → s.Tree × NodeId
  | _, _, .literal t, n => (literalTree t.1, n)
  | _, _, .name t, n => (identTree n t.1, n + 1)
  | _, _, .group _ e _, n => e.tree n
  | _, _, .call callee _ _, n =>
    let (f, k) := callee.tree n
    ((f, []), k)
  | _, _, .callWith callee _ args _, n =>
    let (f, k) := callee.tree n
    let (es, m) := args.trees k
    ((f, es), m)
  | _, _, .access (p := p) base _ f, n =>
    let (x, k) := base.tree n
    ((k, p.loc x, identTree (k + 1) f.1), k + 2)
  | _, _, .unary (s := s) op _ e, n =>
    let (x, m) := e.tree n
    (.unary op (s.expr x), m)
  | _, _, .binary (s := s) (u := u) left op _ _ right, n =>
    let (x, k) := left.tree n
    let (y, m) := right.tree k
    (.binary op (s.expr x) (u.expr y), m)
  | _, _, .assign (p := p) (s := s) target _ value, n =>
    let (x, k) := target.tree n
    let (y, m) := value.tree k
    ((p.loc x, s.expr y), m)
  | _, _, .lift _ e, n => e.tree n

def Arguments.trees : Arguments → NodeId → List Expr × NodeId
  | .last (s := s) e, n =>
    let (x, m) := e.tree n
    ([s.expr x], m)
  | .more (s := s) e _ rest, n =>
    let (x, k) := e.tree n
    let (es, m) := rest.trees k
    (s.expr x :: es, m)

end

/-! ## Declarations of names -/

abbrev TypeWord := OneOf [.logicalWord, .integerWord, .voidWord]

/-- A written type: a word, or the name of a tuple type. -/
inductive Typed where
  | word (t : TypeWord)
  | tuple (w : OneOf [.tupleWord]) (x : OneOf [.identifier])

structure Variable where
  type : Typed
  name : OneOf [.identifier]
  dot : OneOf [.dot]

structure Formal where
  type : TypeWord
  name : OneOf [.identifier]

inductive Formals where
  | none
  | some (first : Formal) (others : List (OneOf [.comma] × Formal))

def wordTree (t : Token) : TypeName :=
  match t.kind with
  | .logicalWord => .logical
  | .integerWord => .integer
  | _ => .void

namespace Typed

def tokens : Typed → List Token
  | .word t => [t.1]
  | .tuple w x => [w.1, x.1]

def tree : Typed → NodeId → TypeName × NodeId
  | .word t, n => (wordTree t.1, n)
  | .tuple _ x, n => (.tuple (identTree n x.1), n + 1)

end Typed

namespace Variable

def tokens (d : Variable) : List Token := d.type.tokens ++ [d.name.1, d.dot.1]

def tree (d : Variable) (n : NodeId) : VarDecl × NodeId :=
  let (type, k) := d.type.tree n
  (⟨type, identTree k d.name.1⟩, k + 1)

end Variable

namespace Formal

def tokens (d : Formal) : List Token := [d.type.1, d.name.1]

def tree (d : Formal) (n : NodeId) : VarDecl × NodeId := (⟨wordTree d.type.1, identTree n d.name.1⟩, n + 1)

end Formal

/-- The trees of things that are numbered one after the other. -/
def treesOf {α β : Type} (tree : α → NodeId → β × NodeId) : List α → NodeId → List β × NodeId
  | [], n => ([], n)
  | a :: as, n =>
    let (b, k) := tree a n
    let (bs, m) := treesOf tree as k
    (b :: bs, m)

namespace Formals

def following (d : OneOf [.comma] × Formal) : List Token := d.1.1 :: d.2.tokens

def tokens : Formals → List Token
  | .none => []
  | .some first others => first.tokens ++ others.flatMap following

def trees : Formals → NodeId → List VarDecl × NodeId
  | .none, n => ([], n)
  | .some first others, n => treesOf Formal.tree (first :: others.map Prod.snd) n

end Formals

/-! ## Statements -/

/-- A location: a name or a field, in any number of parentheses. -/
abbrev Location (p : Place) := Exp .primary (.place p)

mutual

inductive Statement : Type
  | assign (e : Exp .assignment .assignment) (d : OneOf [.dot])
  | call (e : Exp .primary .call) (d : OneOf [.dot])
  | increment {p} (e : Location p) (o : OneOf [.plusPlus]) (d : OneOf [.dot])
  | decrement {p} (e : Location p) (o : OneOf [.minusMinus]) (d : OneOf [.dot])
  | ifThen {s} (w : OneOf [.ifWord]) (cond : Exp .assignment s) (body : Block)
  | ifElse {s} (w : OneOf [.ifWord]) (cond : Exp .assignment s) (body : Block) (v : OneOf [.elseWord])
      (other : Block)
  | whileDo {s} (w : OneOf [.whileWord]) (cond : Exp .assignment s) (body : Block)
  | read {p} (w : OneOf [.readWord]) (a : OneOf [.readArrow]) (e : Location p) (d : OneOf [.dot])
  | write {s} (w : OneOf [.writeWord]) (a : OneOf [.writeArrow]) (e : Exp .assignment s) (d : OneOf [.dot])
  | leave (w : OneOf [.returnWord]) (d : OneOf [.dot])
  | giveBack {s} (w : OneOf [.returnWord]) (e : Exp .assignment s) (d : OneOf [.dot])

/-- Declarations, then statements, in square brackets. -/
inductive Block : Type
  | mk (o : OneOf [.openBracket]) (decls : List Variable) (stmts : Statements) (c : OneOf [.closeBracket])

inductive Statements : Type
  | nil
  | cons (s : Statement) (rest : Statements)

end

mutual

def Statement.tokens : Statement → List Token
  | .assign e d => e.tokens ++ [d.1]
  | .call e d => e.tokens ++ [d.1]
  | .increment e o d | .decrement e o d => e.tokens ++ [o.1, d.1]
  | .ifThen w cond body => w.1 :: (cond.tokens ++ body.tokens)
  | .ifElse w cond body v other => w.1 :: (cond.tokens ++ (body.tokens ++ v.1 :: other.tokens))
  | .whileDo w cond body => w.1 :: (cond.tokens ++ body.tokens)
  | .read w a e d => w.1 :: a.1 :: (e.tokens ++ [d.1])
  | .write w a e d => w.1 :: a.1 :: (e.tokens ++ [d.1])
  | .leave w d => [w.1, d.1]
  | .giveBack w e d => w.1 :: (e.tokens ++ [d.1])

def Block.tokens : Block → List Token
  | .mk o decls stmts c => o.1 :: (decls.flatMap Variable.tokens ++ (stmts.tokens ++ [c.1]))

def Statements.tokens : Statements → List Token
  | .nil => []
  | .cons s rest => s.tokens ++ rest.tokens

end

mutual

def Statement.tree : Statement → NodeId → Stmt × NodeId
  | .assign e _, n =>
    let ((target, value), m) := e.tree n
    (.assign target value, m)
  | .call e _, n =>
    let ((callee, args), m) := e.tree n
    (.call callee args, m)
  | .increment (p := p) e _ _, n =>
    let (x, m) := e.tree n
    (.increment (p.loc x), m)
  | .decrement (p := p) e _ _, n =>
    let (x, m) := e.tree n
    (.decrement (p.loc x), m)
  | .ifThen (s := s) _ cond body, n =>
    let (x, k) := cond.tree n
    let (b, m) := body.tree k
    (.ifThen (s.expr x) b, m)
  | .ifElse (s := s) _ cond body _ other, n =>
    let (x, k) := cond.tree n
    let (b, j) := body.tree k
    let (b', m) := other.tree j
    (.ifElse (s.expr x) b b', m)
  | .whileDo (s := s) _ cond body, n =>
    let (x, k) := cond.tree n
    let (b, m) := body.tree k
    (.whileDo (s.expr x) b, m)
  | .read (p := p) _ _ e _, n =>
    let (x, m) := e.tree n
    (.read (p.loc x), m)
  | .write (s := s) _ _ e _, n =>
    let (x, m) := e.tree n
    (.write (s.expr x), m)
  | .leave w _, n => (.ret none w.1.start, n)
  | .giveBack (s := s) w e _, n =>
    let (x, m) := e.tree n
    (.ret (some (s.expr x)) w.1.start, m)

def Block.tree : Block → NodeId → BaseLang.Block × NodeId
  | .mk _ decls stmts _, n =>
    let (ds, k) := treesOf Variable.tree decls n
    let (ss, m) := stmts.trees k
    (.mk ds ss, m)

def Statements.trees : Statements → NodeId → List Stmt × NodeId
  | .nil, n => ([], n)
  | .cons s rest, n =>
    let (x, k) := s.tree n
    let (xs, m) := rest.trees k
    (x :: xs, m)

end

/-! ## Programs -/

inductive Definition where
  | var (d : Variable)
  | function (result : TypeWord) (name : OneOf [.identifier]) (o : OneOf [.openCurly]) (formals : Formals)
      (c : OneOf [.closeCurly]) (body : Block)
  | tuple (w : OneOf [.tupleWord]) (name : OneOf [.identifier]) (o : OneOf [.openCurly])
      (fields : List Variable) (c : OneOf [.closeCurly]) (d : OneOf [.dot])

namespace Definition

def tokens : Definition → List Token
  | .var d => d.tokens
  | .function result name o formals c body =>
    result.1 :: name.1 :: o.1 :: (formals.tokens ++ c.1 :: body.tokens)
  | .tuple w name o fields c d =>
    w.1 :: name.1 :: o.1 :: (fields.flatMap Variable.tokens ++ [c.1, d.1])

def tree : Definition → NodeId → Decl × NodeId
  | .var d, n =>
    let (x, m) := d.tree n
    (.var x, m)
  | .function result name _ formals _ body, n =>
    let (ds, k) := formals.trees (n + 1)
    let (b, m) := body.tree k
    (.function ⟨wordTree result.1, identTree n name.1, ds, b⟩, m)
  | .tuple _ name _ fields _ _, n =>
    let (ds, m) := treesOf Variable.tree fields (n + 1)
    (.tuple ⟨identTree n name.1, ds⟩, m)

end Definition

/-- A program, as a derivation. -/
structure Source where
  definitions : List Definition

namespace Source

def tokens (d : Source) : List Token := d.definitions.flatMap Definition.tokens

/-- The program of a derivation, whose nodes are numbered from zero. -/
def program (d : Source) : Program := ⟨(treesOf Definition.tree d.definitions 0).1⟩

end Source

end Concrete

end BaseLang
