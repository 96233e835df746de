import BaseLang.Proofs.Grammar.Placing
import BaseLang.Proofs.Printing.RoundTrip
import BaseLang.Proofs.Renaming.Analysis
import Mathlib.Data.List.Nodup

/-
  Programs at other positions.

  Neither pass looks at positions: of a program that is moved the same is found out, and
  reported at the new ones. So what is known of programs whose marks are at different places
  says something of every program that is parsed, also of one from a line so long that its
  columns do not fit in 32 bits.

    1. `analyze_moving` — the analysis of a program that is moved is that of the program,
       with its diagnostics moved, for every program and every map of positions;
    2. `Program.exists_moving` — a program that is like another up to positions is that
       program moved, if its marks are at different places;
    3. `exists_spread` — such a program there is for every program that is parsed.
-/

namespace BaseLang

/-! ## Moving a program -/

namespace Renaming

/-- Other positions, and the same names and numbers. -/
def moving (f : Position → Position) : Renaming where
  name := id
  node := id
  place := f
  name_injective := Function.injective_id
  node_injective := Function.injective_id

variable (f : Position → Position)

theorem labels_moving : (moving f).labels = .moving f := rfl

mutual

theorem ty_moving : ∀ t : Ty, (moving f).ty t = t
  | .logical | .integer | .void | .string | .tupleInstance _ | .tupleDef _ | .error => rfl
  | .function result params => by rw [ty, ty_moving result, tys_moving params]

theorem tys_moving : ∀ ts : List Ty, (moving f).tys ts = ts
  | [] => rfl
  | t :: ts => by rw [tys, ty_moving t, tys_moving ts]

end

theorem scope_moving : (moving f).scope = id := funext fun s => List.map_id s

theorem kind_moving (k : SymbolKind) : (moving f).kind k = k := by
  cases k with
  | «variable» type => rw [kind, ty_moving]
  | function result params => rw [kind, ty_moving, tys_moving]
  | tupleInstance name definition => rfl
  | tupleDef fields => rw [kind, table, scope_moving, List.map_id, id]

theorem symbol_moving : (moving f).symbol = id := by
  funext s
  rw [symbol, kind_moving]
  rfl

theorem nodes_moving {α : Type} (m : NodeMap α) : (moving f).nodes m = m := by
  rw [nodes]
  exact congrArg NodeMap.mk (List.map_id m.entries)

/-- What is known of names and accesses does not depend on positions. -/
theorem resolution_moving (r : Resolution) : (moving f).resolution r = r := by
  rw [resolution, symbol_moving, nodes_moving, nodes_moving, Array.map_id]

end Renaming

/-- The diagnostics at their new positions. That a value is missing has none. -/
def Diagnostics.move (f : Position → Position) (ds : Diagnostics) : Diagnostics :=
  ds.map fun d => if d.kind = .returnValueMissing then d else ⟨f d.position, d.kind⟩

theorem Diagnostics.kinds_move (f : Position → Position) (ds : Diagnostics) : (ds.move f).kinds = ds.kinds :=
  (Renaming.moving f).kinds_diagnostics ds

/-- What the analysis finds out about a program that is moved. -/
theorem analyze_moving (f : Position → Position) (p : Program) :
    ∃ a, analyze p = .ok a ∧
      analyze (p.relabel (.moving f)) = .ok ⟨a.resolution, a.diagnostics.move f⟩ := by
  obtain ⟨a, ha, hmoved⟩ := (Renaming.moving f).analyze_labels p
  rw [Renaming.labels_moving, Renaming.analysis, Renaming.resolution_moving] at hmoved
  exact ⟨a, ha, hmoved⟩

/-! ## A program at other positions -/

/-- Different values can be taken to any others. -/
theorem exists_map_eq {α β : Type} [DecidableEq α] [Inhabited β] : ∀ {xs : List α} {ys : List β},
    xs.Nodup → xs.length = ys.length → ∃ f : α → β, xs.map f = ys
  | [], [], _, _ => ⟨fun _ => default, rfl⟩
  | x :: xs, y :: ys, hnodup, hlength => by
    obtain ⟨hx, hxs⟩ := List.nodup_cons.1 hnodup
    obtain ⟨f, hf⟩ := exists_map_eq hxs (Nat.succ.inj hlength)
    refine ⟨fun a => if a = x then y else f a, ?_⟩
    rw [List.map_cons, if_pos rfl, ← hf]
    congr 1
    apply List.map_congr_left
    intro a ha
    have hne : a ≠ x := fun heq => hx (heq ▸ ha)
    exact if_neg hne

/-- A program that is like another up to positions is that program moved. -/
theorem Program.exists_moving {p q : Program} (h : p.unplaced = q.unplaced)
    (hnodup : (p.marks.map Prod.snd).Nodup) : ∃ f, p.relabel (.moving f) = q := by
  have hkinds := Program.marks_kinds h
  have hlength : (p.marks.map Prod.snd).length = (q.marks.map Prod.snd).length := by
    have := congrArg List.length hkinds
    simpa only [List.length_map] using this
  obtain ⟨f, hf⟩ := exists_map_eq hnodup hlength
  refine ⟨f, Program.eq_moving h ?_⟩
  calc p.marks.map (Mark.move f)
      = ((p.marks.map Prod.fst).zip ((p.marks.map Prod.snd).map f)) := by
        rw [List.map_map, List.zip_map']
        rfl
    _ = (q.marks.map Prod.fst).zip (q.marks.map Prod.snd) := by rw [hkinds, hf]
    _ = q.marks := by rw [List.zip_map', List.map_id']

/-! ## A place for each mark -/

/-- The tokens at other places, one on each line. -/
def apart (ts : List Token) : List Token :=
  ts.zipIdx.map fun (t, i) => t.move fun _ => ⟨i + 1, 1⟩

theorem map_lexeme_apart (ts : List Token) : (apart ts).map Token.lexeme = ts.map Token.lexeme := by
  have hlexeme : (Token.lexeme ∘ fun (ti : Token × Nat) => ti.1.move fun _ => ⟨ti.2 + 1, 1⟩) =
      Token.lexeme ∘ Prod.fst := rfl
  rw [apart, List.map_map, hlexeme, ← List.map_map, List.zipIdx_map_fst]

theorem starts_apart (ts : List Token) : ((apart ts).map Token.start).Nodup := by
  have hstart : (Token.start ∘ fun (ti : Token × Nat) => ti.1.move fun _ => ⟨ti.2 + 1, 1⟩) =
      (fun i => ⟨i + 1, 1⟩) ∘ Prod.snd := rfl
  rw [apart, List.map_map, hstart, ← List.map_map, List.zipIdx_map_snd]
  refine List.Nodup.map (fun i j hij => ?_) (List.nodup_range' 1)
  injection hij with hline _
  exact Nat.succ.inj hline

/-- A program that was parsed is one in which each mark has a place of its own, moved. That
one is the program itself where 32 bits are enough for the columns of the source. -/
theorem exists_spread {source : String} {p : Program} (h : Program.ofSource? source = .ok p) :
    ∃ u f, u.nodes.Nodup ∧ (u.marks.map Prod.snd).Nodup ∧ u.unplaced = p.unplaced ∧
      p = u.relabel (.moving f) ∧ (utf8Length source.toList < 2 ^ 32 - 1 → u = p ∧ f = id) := by
  obtain ⟨tokens, hscan, hparse⟩ := ofSource?_eq_ok h
  by_cases hsize : utf8Length source.toList < 2 ^ 32 - 1
  case pos =>
    have hid : p.marks.map (Mark.move id) = p.marks := List.map_id _
    exact ⟨p, id, Grammar.parse_nodup hparse, (marks_nodup hsize h).1, rfl,
      (Program.eq_moving rfl hid).symm, fun _ => ⟨rfl, rfl⟩⟩
  case neg =>
    -- the tokens of the canonical text, apart from each other, derive such a program
    have hprintable := printable_of_parse hscan hparse
    obtain ⟨ts, _, _, hts⟩ := scan_eq_ok_iff.1 (Printer.scans_text hprintable)
    obtain ⟨u, m, hd, herase⟩ := Grammar.derives_of_lexemes hprintable (apart ts)
      ((map_lexeme_apart ts).trans hts)
    have hnodes : u.nodes.Nodup := hd.nodes_eq ▸ List.nodup_range
    have hmarks : (u.marks.map Prod.snd).Nodup := hd.marks.nodup (starts_apart ts)
    have hsame : u.unplaced = p.unplaced := Program.unplaced_of_numbered herase hd.nodes_range
      (Grammar.parse_nodes hparse)
    obtain ⟨f, hf⟩ := Program.exists_moving hsame hmarks
    exact ⟨u, f, hnodes, hmarks, hsame, hf.symm, fun hlt => absurd hlt hsize⟩

end BaseLang
