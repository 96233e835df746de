import BaseLang.Proofs.Renaming.OneSymbol
import BaseLang.Proofs.Renaming.Typing
import BaseLang.Proofs.Resolving.Nominal
import BaseLang.Proofs.Resolving.WellFormed
import Mathlib.Logic.Equiv.Basic

/-
  Renaming one symbol consistently keeps what the analysis finds out.

  Every identifier that stands for the symbol, the declared one among them, gets a name that
  occurs nowhere. The symbol may hide others of its old name, and be hidden by others; all
  these keep their names.

    1. `Resolution.renaming` — the relabelling of the program;
    2. `Program.resolved_renaming` — the resolver ends in the renamed state, with the same
       links and the same accesses, if it had nothing to report;
    3. `Resolution.reads_renaming` — for types, which hold the names of tuple types, this is
       to swap the old name of a tuple type with the new one, since tuple types of one name
       are one type;
    4. `analysis_of_renaming` — the theorem, for every program that was parsed and of whose
       names nothing is reported.
-/

namespace BaseLang

/-! ## The change of a program -/

/-- Gives each identifier that stands for the symbol another name. -/
def Resolution.renaming (r : Resolution) (s : SymbolId) (n : String) : Relabelling where
  ident x := if r.linkOf x = some s then { x with name := n } else x
  access := id
  position := id

namespace Renaming

/-- Two names for each other. -/
def swapping (m n : String) : Renaming where
  name := Equiv.swap m n
  node := id
  place := id
  name_injective := (Equiv.swap m n).injective
  node_injective := Function.injective_id

/-- Diagnostics hold no names. -/
theorem diagnostics_swapping (m n : String) (ds : Diagnostics) : (swapping m n).diagnostics ds = ds := by
  have hsame : (swapping m n).diagnostic = id := by
    funext d
    rw [diagnostic]
    split <;> rfl
  rw [diagnostics, hsame, List.map_id]

end Renaming

namespace Resolution
variable (r : Resolution) (s : SymbolId) (n : String)

/-- The name of the symbol if it is a tuple type, and otherwise the new name. -/
def typeName : String :=
  match r.symbol? s with
  | some t => if t.isTupleDef then t.name else n
  | none => n

/-- The new name of the symbol. In types it is swapped with the old one. -/
def newName : NewName := ⟨s, n, .swapping (r.typeName s n) n⟩

variable {r s n}

theorem applies_renaming (h : (r.newName s n).Unused r) : (r.newName s n).Applies (r.renaming s n) r where
  idents x id hx := by
    show (if r.linkOf x = some s then { x with name := n } else x) =
      { x with name := if id = s then n else x.name }
    rw [hx]
    by_cases hid : id = s
    · rw [if_pos (congrArg some hid), if_pos hid]
    · rw [if_neg fun heq => hid (Option.some.inj heq), if_neg hid]
  numbers x := by
    show (if r.linkOf x = some s then { x with name := n } else x).id = x.id
    split <;> rfl
  accesses _ := rfl
  unused := h

/-! ## Types -/

/-- The name of a tuple type changes in types as it changes in scopes. -/
theorem swap_typeName (hr : r.Nominal) (h : (r.newName s n).Unused r) {id : SymbolId} {t : Symbol}
    (ht : r.symbol? id = some t) (htuple : t.isTupleDef = true) :
    Equiv.swap (r.typeName s n) n t.name = if id = s then n else t.name := by
  have hname : t.name ≠ n := h id t ht
  by_cases hid : id = s
  · have hold : r.typeName s n = t.name := by
      rw [typeName, ← hid, ht]
      exact if_pos htuple
    rw [if_pos hid, hold, Equiv.swap_apply_left]
  · -- another tuple type has another name
    have hold : t.name ≠ r.typeName s n := by
      rw [typeName]
      cases hs : r.symbol? s with
      | none => exact hname
      | some u =>
        dsimp only
        split
        · next hu => exact fun heq => hid (hr.names id t s u ht htuple hs hu heq)
        · exact hname
    rw [if_neg hid, Equiv.swap_apply_of_ne_of_ne hold hname]

theorem ty_symbolAt (hr : r.Nominal) (hsound : r.Sound) (h : (r.newName s n).Unused r) {id : SymbolId}
    {t : Symbol} (ht : r.symbol? id = some t) :
    ((r.newName s n).symbolAt id t).ty = (r.newName s n).types.ty t.ty := by
  have hkind := hsound.symbols id t ht
  have htype := fun htuple => swap_typeName hr h ht htuple
  obtain ⟨name, kind⟩ := t
  cases kind with
  | «variable» type => obtain rfl | rfl := hkind <;> rfl
  | function result params => rfl
  | tupleInstance written definition =>
    obtain ⟨-, u, fields, hu, rfl, hk⟩ := hkind
    have hwritten := swap_typeName hr h hu (by rw [Symbol.isTupleDef, hk])
    exact congrArg Ty.tupleInstance hwritten.symm
  | tupleDef fields => exact congrArg Ty.tupleDef (htype rfl).symm

theorem symbolOf_renaming (h : (r.newName s n).Unused r) (x : Ident) :
    ((r.newName s n).resolution r).symbolOf ((r.renaming s n).ident x) =
      (r.linkOf x).bind fun id => (r.symbol? id).map ((r.newName s n).symbolAt id) := by
  rw [symbolOf, linkOf, (applies_renaming h).numbers]
  exact congrArg (r.linkOf x).bind (funext ((r.newName s n).symbol?_resolution r))

/-- Types are read in the renamed program as they are in the program. -/
theorem reads_renaming (hr : r.Nominal) (hsound : r.Sound) (h : (r.newName s n).Unused r) :
    (r.newName s n).types.Reads (r.renaming s n) r ((r.newName s n).resolution r) where
  positions _ := rfl
  places x := by
    show (if r.linkOf x = some s then { x with name := n } else x).position = x.position
    split <;> rfl
  types x := by
    rw [symbolOf_renaming h, symbolOf]
    cases r.linkOf x with
    | none => rfl
    | some id =>
      rw [Option.bind_some, Option.bind_some]
      cases hid : r.symbol? id with
      | none => rfl
      | some t => exact congrArg some (ty_symbolAt hr hsound h hid)
  signatures x := by
    rw [symbolOf_renaming h, symbolOf]
    cases r.linkOf x with
    | none => rfl
    | some id =>
      rw [Option.bind_some, Option.bind_some]
      cases r.symbol? id with
      | none => rfl
      | some t =>
        obtain ⟨name, kind⟩ := t
        cases kind <;> rfl
  accesses _ := rfl

end Resolution

/-! ## Programs -/

namespace Program
variable {tokens : List Token} {p : Program} (hp : parse tokens = .ok p) {s : SymbolId} {n : String}
  (hn : ∀ x ∈ p.idents, x.name ≠ n)
include hp hn

/-- Every symbol has the name of an identifier, so that a name which occurs nowhere is that
of no symbol. -/
theorem unused_newName : (p.resolved.resolution.newName s n).Unused p.resolved.resolution := by
  intro id t ht
  obtain ⟨d, -, hlink⟩ := Program.declared (Grammar.parse_nodup hp) ht
  obtain ⟨x, hx, -, u, hu, hname⟩ := (resolved_records (Grammar.parse_results hp)).links _ _ hlink
  rw [ht] at hu
  cases hu
  rw [hname]
  exact hn x hx

theorem resolved_renaming (hquiet : p.resolved.diagnostics = []) :
    (p.relabel (p.resolved.resolution.renaming s n)).resolved =
      (p.resolved.resolution.newName s n).binding p.resolved := by
  have hnodup := Grammar.parse_nodup hp
  have hsimple := Grammar.parse_simple hp
  have hfound : Binding.start.found p.steps = [] := p.resolved_diagnostics ▸ hquiet
  have happlies := Resolution.applies_renaming (unused_newName hp (s := s) hn)
  have hstart : (p.resolved.resolution.newName s n).binding .start = .start :=
    congrArg (fun symbols => Binding.mk .empty ⟨symbols, .empty, .empty⟩ []) Array.mapIdx_empty
  rw [← p.steps_nodes] at hnodup
  have hwalk := NewName.binding_walk p.steps Binding.sound_start
    (fun scope d hd => hsimple d (heading_mem hd)) (fun _ _ => rfl) hnodup happlies hfound
  rw [hstart] at hwalk
  rw [Program.resolved, steps_relabel]
  exact hwalk

end Program

/-- Renaming one symbol consistently keeps the analysis. In a parsed program of whose names
nothing is reported, let the declared name of a symbol and every identifier that stands for
it get a name that occurs nowhere. Then nothing is reported of the names of the program that
results, its identifiers and accesses stand for the same symbols as before, which have the
same names but for the one, and the same is reported of its types at the same positions. -/
theorem analysis_of_renaming {tokens : List Token} {p : Program} {r : Resolution} {s : SymbolId}
    {t : Symbol} {n : String} (hp : parse tokens = .ok p) (hr : resolveNames p = .ok (r, []))
    (hs : r.symbol? s = some t) (hn : ∀ x ∈ p.idents, x.name ≠ n) :
    (∃! x, p.Declares x ∧ r.linkOf x = some s) ∧
      ∃ r', resolveNames (p.relabel (r.renaming s n)) = .ok (r', []) ∧
        r'.links = r.links ∧ r'.accesses = r.accesses ∧
        (∀ id, (r'.symbol? id).map Symbol.name =
          (r.symbol? id).map fun u => if id = s then n else u.name) ∧
        Typing.checkProgram r' (p.relabel (r.renaming s n)) = Typing.checkProgram r p := by
  obtain ⟨rfl, hquiet⟩ := Prod.mk.inj (Except.ok.inj ((resolveNames_eq p).symm.trans hr))
  have hunused := Program.unused_newName hp (s := s) hn
  have hresolved := Program.resolved_renaming hp (s := s) hn hquiet
  have hsound := (resolved_sound p).resolution
  have hreads := Resolution.reads_renaming (p.resolved_nominal.resolution (resolved_sound p)) hsound hunused
  refine ⟨Program.existsUnique_declares (Grammar.parse_nodup hp) hs,
    (p.resolved.resolution.newName s n).resolution p.resolved.resolution, ?_, rfl, rfl, ?_, ?_⟩
  · rw [resolveNames_eq, hresolved]
    exact congrArg (fun ds => Except.ok (_, ds)) hquiet
  · intro id
    rw [NewName.symbol?_resolution, Option.map_map]
    rfl
  · have htypes := hreads.checkProgram fun f hf =>
      NewName.ty_of_idents_eq_nil _ (Grammar.parse_simple hp f hf).1
    rw [htypes]
    exact Renaming.diagnostics_swapping _ n _

/-- A tuple type, two variables of it, and a function with a formal of its name, in which one
variable is assigned to the other. -/
def hiddenTypeTokens : List Token :=
  [(.tupleWord, "tuple"), (.identifier, "pair"), (.openCurly, "\x7b"),
    (.integerWord, "integer"), (.identifier, "n"), (.dot, "."), (.closeCurly, "\x7d"), (.dot, "."),
    (.tupleWord, "tuple"), (.identifier, "pair"), (.identifier, "x"), (.dot, "."),
    (.tupleWord, "tuple"), (.identifier, "pair"), (.identifier, "y"), (.dot, "."),
    (.voidWord, "void"), (.identifier, "f"), (.openCurly, "\x7b"),
    (.integerWord, "integer"), (.identifier, "pair"), (.closeCurly, "\x7d"), (.openBracket, "["),
    (.identifier, "pair"), (.plusPlus, "++"), (.dot, "."),
    (.identifier, "x"), (.assignment, "="), (.identifier, "y"), (.dot, "."), (.closeBracket, "]")].map
    fun (kind, text) => ⟨kind, text, ⟨.nowhere, .nowhere⟩⟩

/-- The tuple type gets another name; the formal keeps its own. That a tuple is assigned is
reported of both programs. -/
theorem analysis_of_renaming_hidden_type :
    ∃ p r t, parse hiddenTypeTokens = .ok p ∧ resolveNames p = .ok (r, []) ∧ r.symbol? 1 = some t ∧
      (∀ x ∈ p.idents, x.name ≠ "couple") ∧
      p.idents.map Ident.name = ["pair", "n", "pair", "x", "pair", "y", "f", "pair", "pair", "x", "y"] ∧
      (p.relabel (r.renaming 1 "couple")).idents.map Ident.name =
        ["couple", "n", "couple", "x", "couple", "y", "f", "pair", "pair", "x", "y"] ∧
      Typing.checkProgram r p = [⟨.nowhere, .assignTupleVariable⟩] ∧
      (∃! x, p.Declares x ∧ r.linkOf x = some 1) ∧
      ∃ r', resolveNames (p.relabel (r.renaming 1 "couple")) = .ok (r', []) ∧
        r'.links = r.links ∧ r'.accesses = r.accesses ∧
        (∀ id, (r'.symbol? id).map Symbol.name =
          (r.symbol? id).map fun u => if id = 1 then "couple" else u.name) ∧
        Typing.checkProgram r' (p.relabel (r.renaming 1 "couple")) = Typing.checkProgram r p := by
  have hrun : (parse hiddenTypeTokens).toOption.bind (fun p => (resolveNames p).toOption.map fun a =>
        (a.2, (a.1.symbol? 1).isSome, p.idents.map Ident.name,
          (p.relabel (a.1.renaming 1 "couple")).idents.map Ident.name, Typing.checkProgram a.1 p)) =
      some ([], true, ["pair", "n", "pair", "x", "pair", "y", "f", "pair", "pair", "x", "y"],
        ["couple", "n", "couple", "x", "couple", "y", "f", "pair", "pair", "x", "y"],
        [⟨.nowhere, .assignTupleVariable⟩]) := by decide +kernel
  cases hp : parse hiddenTypeTokens with
  | error e =>
    rw [hp] at hrun
    cases hrun
  | ok p =>
    have hr := resolveNames_eq p
    rw [hp, Except.toOption, Option.bind_some, hr] at hrun
    simp only [Except.toOption, Option.map_some, Option.some.injEq, Prod.mk.injEq] at hrun
    obtain ⟨hclean, hs, hnames, hrenamed, hfaults⟩ := hrun
    rw [hclean] at hr
    obtain ⟨t, ht⟩ := Option.isSome_iff_exists.1 hs
    have hn : ∀ x ∈ p.idents, x.name ≠ "couple" := by
      intro x hx
      have hin : x.name ∈ p.idents.map Ident.name := List.mem_map_of_mem hx
      rw [hnames] at hin
      exact fun heq => absurd (heq ▸ hin) (by decide)
    exact ⟨p, _, t, rfl, hr, ht, hn, hnames, hrenamed, hfaults, analysis_of_renaming hp hr ht hn⟩

end BaseLang
