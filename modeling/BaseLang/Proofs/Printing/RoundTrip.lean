import BaseLang.Proofs.Grammar.Completeness
import BaseLang.Proofs.Grammar.Numbering
import BaseLang.Proofs.Printing.Canonical
import BaseLang.Proofs.Printing.Parsed

/-
  Printing and parsing again.

  The canonical text of a printable program scans to the tokens of its pieces
  (`Printer.scans_text`), which derive a program that says the same
  (`Grammar.derives_of_lexemes`) and so are parsed to it (`Derives.parse`). The text
  shows neither numbers nor positions, so that it is the same again.
-/

namespace BaseLang

/-! ## The text shows neither numbers nor positions -/

namespace Printer

def KeepsNames (r : Relabelling) : Prop := ∀ x, (r.ident x).name = x.name

section Relabelled
variable {r : Relabelling}

theorem ident_relabel (hr : KeepsNames r) (x : Ident) : ident Ident.name (r.ident x) = ident Ident.name x := by
  rw [ident, ident, hr]

theorem loc_relabel (hr : KeepsNames r) : ∀ l : Loc, loc Ident.name (l.relabel r) = loc Ident.name l
  | .ident x => ident_relabel hr x
  | .access _ base field => by
    rw [Loc.relabel, loc, loc, loc_relabel hr base, ident_relabel hr]

mutual

theorem expr_relabel (hr : KeepsNames r) : ∀ e : Expr, expr Ident.name (e.relabel r) = expr Ident.name e
  | .logical true _ | .logical false _ | .int _ _ | .string _ _ => rfl
  | .loc l => loc_relabel hr l
  | .assign l v => by rw [Expr.relabel, expr, expr, loc_relabel hr, expr_relabel hr v]
  | .call f args => by rw [Expr.relabel, expr, expr, ident_relabel hr, exprs_relabel hr args]
  | .unary .negate v | .unary .not v => by rw [Expr.relabel, expr, expr, expr_relabel hr v]
  | .binary op v w => by rw [Expr.relabel, expr, expr, expr_relabel hr v, expr_relabel hr w]

theorem exprs_relabel (hr : KeepsNames r) : ∀ es : List Expr,
    exprs Ident.name (Expr.relabelAll r es) = exprs Ident.name es
  | [] => rfl
  | e :: es => by rw [Expr.relabelAll, exprs, exprs, expr_relabel hr e, exprs_relabel hr es]

end

theorem type_relabel (hr : KeepsNames r) (t : TypeName) : type (t.relabel r) = type t := by
  cases t with
  | tuple x => rw [TypeName.relabel, type, type, hr]
  | _ => rfl

theorem typed_relabel (hr : KeepsNames r) (d : VarDecl) : typed Ident.name (d.relabel r) = typed Ident.name d := by
  rw [VarDecl.relabel, typed, typed, type_relabel hr, ident_relabel hr]

theorem varDecl_relabel (hr : KeepsNames r) (depth : Nat) (d : VarDecl) :
    varDecl Ident.name depth (d.relabel r) = varDecl Ident.name depth d := by
  rw [varDecl, varDecl, typed_relabel hr]

theorem varDecls_relabel (hr : KeepsNames r) (depth : Nat) (ds : List VarDecl) :
    (ds.map (VarDecl.relabel r)).flatMap (varDecl Ident.name depth) =
      ds.flatMap (varDecl Ident.name depth) := by
  have hd : (fun d : VarDecl => varDecl Ident.name depth (d.relabel r)) = varDecl Ident.name depth :=
    funext fun d => varDecl_relabel hr depth d
  rw [List.flatMap_map, hd]

mutual

theorem stmt_relabel (hr : KeepsNames r) (depth : Nat) : ∀ s : Stmt,
    stmt Ident.name depth (s.relabel r) = stmt Ident.name depth s
  | .assign l v => by rw [Stmt.relabel, stmt, stmt, loc_relabel hr, expr_relabel hr]
  | .increment l | .decrement l | .read l => by rw [Stmt.relabel, stmt, stmt, loc_relabel hr]
  | .ifThen c b | .whileDo c b => by
    rw [Stmt.relabel, stmt, stmt, expr_relabel hr, block_relabel hr (depth + 1) b]
  | .ifElse c b b' => by
    rw [Stmt.relabel, stmt, stmt, expr_relabel hr, block_relabel hr (depth + 1) b,
      block_relabel hr (depth + 1) b']
  | .write v => by rw [Stmt.relabel, stmt, stmt, expr_relabel hr]
  | .call f args => by
    rw [Stmt.relabel, stmt, stmt, ← expr_relabel hr (.call f args)]
    rfl
  | .ret none _ => rfl
  | .ret (some v) _ => by rw [Stmt.relabel, Option.map_some, stmt, stmt, expr_relabel hr]

theorem block_relabel (hr : KeepsNames r) (depth : Nat) : ∀ b : Block,
    block Ident.name depth (b.relabel r) = block Ident.name depth b
  | .mk ds ss => by
    rw [Block.relabel, block, block, varDecls_relabel hr, stmts_relabel hr depth ss]

theorem stmts_relabel (hr : KeepsNames r) (depth : Nat) : ∀ ss : List Stmt,
    stmts Ident.name depth (Stmt.relabelAll r ss) = stmts Ident.name depth ss
  | [] => rfl
  | s :: ss => by rw [Stmt.relabelAll, stmts, stmts, stmt_relabel hr depth s, stmts_relabel hr depth ss]

end

theorem decl_relabel (hr : KeepsNames r) (d : Decl) : decl Ident.name (d.relabel r) = decl Ident.name d := by
  cases d with
  | var d => exact varDecl_relabel hr 0 d
  | function d =>
    have hformals : (d.formals.map (VarDecl.relabel r)).map (typed Ident.name) =
        d.formals.map (typed Ident.name) := by
      rw [List.map_map]
      exact List.map_congr_left fun d _ => typed_relabel hr d
    simp only [Decl.relabel, FunctionDecl.relabel, decl, type_relabel hr, ident_relabel hr, hformals,
      block_relabel hr]
  | tuple d =>
    simp only [Decl.relabel, TupleDecl.relabel, decl, ident_relabel hr, varDecls_relabel hr]

end Relabelled

end Printer

theorem Program.text_relabel {r : Relabelling} (hr : Printer.KeepsNames r) (p : Program) :
    (p.relabel r).text = p.text := by
  have hpieces : Printer.program Ident.name (p.relabel r) = Printer.program Ident.name p := by
    have hd : (fun d : Decl => Printer.decl Ident.name (d.relabel r)) = Printer.decl Ident.name :=
      funext fun d => Printer.decl_relabel hr d
    rw [Program.relabel, Printer.program, Printer.program, List.flatMap_map, hd]
  rw [Program.text, Program.render, hpieces]
  rfl

/-- Programs that say the same have one text. -/
theorem Program.text_congr {p q : Program} (h : p.erase = q.erase) : p.text = q.text := by
  rw [← p.text_relabel (r := .erasing) fun _ => rfl, ← q.text_relabel (r := .erasing) fun _ => rfl]
  exact congrArg Program.text h

/-! ## The round trip -/

/-- The canonical text of a printable program parses to a program that says the same,
with its nodes numbered from zero. -/
theorem ofSource?_text {p : Program} (h : p.Printable) :
    ∃ q, Program.ofSource? p.text = .ok q ∧ q.erase = p.erase ∧
      q.nodes = List.range q.nodes.length := by
  obtain ⟨ts, stop, hscan, hls⟩ := scan_eq_ok_iff.1 (Printer.scans_text h)
  obtain ⟨q, m, hd, herase⟩ := Grammar.derives_of_lexemes h ts hls
  have hparse : parse (ts ++ [.endOfInput stop]) = .ok q := hd.parse rfl
  refine ⟨q, ?_, herase, Grammar.parse_nodes hparse⟩
  rw [Program.ofSource?, hscan]
  exact hparse

/-- Printing a program and parsing the text gives the program back: all that it says, for
every program that can be written, and its node numbers as well, for every program that
was parsed. Printed once more, it has the same text. -/
theorem print_parse :
    (∀ p : Program, p.Printable → ∃ q, Program.ofSource? p.text = .ok q ∧ q.erase = p.erase ∧
      q.nodes = List.range q.nodes.length ∧ q.text = p.text) ∧
    (∀ (source : String) (p : Program), Program.ofSource? source = .ok p →
      p.Printable ∧ ∃ q, Program.ofSource? p.text = .ok q ∧ q.unplaced = p.unplaced ∧
        q.text = p.text) := by
  constructor
  · intro p hp
    obtain ⟨q, hq, herase, hnodes⟩ := ofSource?_text hp
    exact ⟨q, hq, herase, hnodes, Program.text_congr herase⟩
  · intro source p hsource
    rw [Program.ofSource?] at hsource
    cases hscan : scan source with
    | error e => rw [hscan] at hsource; cases hsource
    | ok tokens =>
      rw [hscan] at hsource
      have hp := printable_of_parse hscan hsource
      obtain ⟨q, hq, herase, hnodes⟩ := ofSource?_text hp
      have hsame := Program.unplaced_of_numbered herase hnodes (Grammar.parse_nodes hsource)
      exact ⟨hp, q, hq, hsame, Program.text_congr herase⟩

/-- A function that returns a field with two signs before it. -/
def signedField : Program :=
  ⟨[.function ⟨.integer, ⟨7, "f", .nowhere⟩, [], .mk []
    [.ret (some (.unary .negate (.unary .negate
      (.loc (.access 7 (.ident ⟨7, "t", .nowhere⟩) ⟨7, "x", .nowhere⟩))))) .nowhere]⟩]⟩

theorem signedField_printable : signedField.Printable := by
  have hname : ∀ c ∈ ['f', 't', 'x'], IsToken .identifier (String.ofList [c]) := by
    intro c hc
    refine isToken_identifier_iff.2 ⟨⟨c, [], String.toList_ofList, ?_, rfl⟩, ?_⟩
    all_goals
      simp only [List.mem_cons, List.not_mem_nil, or_false] at hc
      rcases hc with rfl | rfl | rfl <;> decide
  intro d hd
  cases List.mem_singleton.1 hd
  exact ⟨trivial, hname 'f' (by decide), nofun, nofun, ⟨hname 't' (by decide), hname 'x' (by decide)⟩,
    trivial⟩

theorem print_parse_signedField :
    signedField.Printable ∧ ∃ q, Program.ofSource? signedField.text = .ok q ∧
      q.erase = signedField.erase ∧ q.nodes = List.range q.nodes.length ∧
      ∃ q', Program.ofSource? q.text = .ok q' ∧ q'.unplaced = q.unplaced := by
  obtain ⟨q, hq, herase, hnodes, _⟩ := print_parse.1 signedField signedField_printable
  obtain ⟨_, q', hq', hsame, _⟩ := print_parse.2 signedField.text q hq
  exact ⟨signedField_printable, q, hq, herase, hnodes, q', hq', hsame⟩

end BaseLang
