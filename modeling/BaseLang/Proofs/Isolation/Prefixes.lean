import BaseLang.Proofs.Isolation.Bodies
import BaseLang.Proofs.Isolation.Typing

/-
  Later declarations do not change the verdict on earlier ones.

  The resolver goes through the declarations once, in their order, and changes nothing that
  it has found out before. Types are checked with what it has found out in the end, which
  for the earlier declarations is what it had found out when it came to the later ones:

    1. `resolved_append` — more declarations are resolved by going on from the state in
       which the earlier ones have been;
    2. `links_append`, `embeds_append` — what has been found out then stays;
    3. `analysis_of_earlier` — so the earlier declarations have the same diagnostics, symbols
       and links, whatever follows them.
-/

namespace BaseLang

variable (earlier later : List Decl)

def laterSteps : List Step := Decl.stepsOfAll earlier.length later

theorem resolved_append : (Program.mk (earlier ++ later)).resolved =
    (laterSteps earlier later).foldl Binding.after (Program.mk earlier).resolved := by
  rw [Program.resolved, Program.steps, Decl.stepsOfAll_append, List.foldl_append, Nat.zero_add]
  rfl

/-- The later declarations touch their own nodes only. -/
theorem evolves_append : Binding.Evolves (later.flatMap Decl.nodes) (Program.mk earlier).resolved
    (Program.mk (earlier ++ later)).resolved := by
  have hevolves := Binding.evolves_walk (laterSteps earlier later) (Program.mk earlier).resolved
  rwa [laterSteps, Decl.stepsOfAll_nodes, ← laterSteps, ← resolved_append] at hevolves

theorem keeps_append : (Program.mk earlier).resolved.resolution.Keeps
    (Program.mk (earlier ++ later)).resolved.resolution := by
  rw [resolved_append]
  exact Binding.keeps_walk _ _

variable {earlier later}

/-- The nodes of the earlier declarations are not those of the later ones. -/
theorem earlier_nodes_disjoint (hnodup : (Program.mk (earlier ++ later)).nodes.Nodup) :
    ∀ i ∈ (Program.mk earlier).nodes, i ∉ later.flatMap Decl.nodes := by
  rw [Program.nodes, List.flatMap_append] at hnodup
  intro i hi hlater
  exact (List.nodup_append.1 hnodup).2.2 i hi i hlater rfl

/-- The faults of the earlier declarations are the same with what is found out in the end. -/
theorem checkProgram_append (hnodup : (Program.mk (earlier ++ later)).nodes.Nodup) :
    Typing.checkProgram (Program.mk (earlier ++ later)).resolved.resolution ⟨earlier ++ later⟩ =
      Typing.checkProgram (Program.mk earlier).resolved.resolution ⟨earlier⟩ ++
        later.flatMap (Typing.checkDecl (Program.mk (earlier ++ later)).resolved.resolution) := by
  have hevolves := evolves_append earlier later
  have hembeds := (keeps_append earlier later).embeds (resolved_sound _).resolution hevolves.links
    hevolves.accesses
  have hsame := hembeds.checkDecls (earlier_nodes_disjoint hnodup)
  rw [Typing.checkProgram, List.flatMap_append, hsame]
  rfl

/-- Later declarations do not change the verdict on earlier ones. Whatever declarations
follow, what is reported on the names and on the types of the earlier ones alone comes first
in what is reported on all, the symbols of the earlier ones come first, with their parameters
and fields, and the names and the accesses in them stand for the same. -/
theorem analysis_of_earlier (earlier later : List Decl) (hnodup : (Program.mk (earlier ++ later)).nodes.Nodup) :
    ∃ r names r' names', resolveNames ⟨earlier⟩ = .ok (r, names) ∧
      resolveNames ⟨earlier ++ later⟩ = .ok (r', names') ∧
      names <+: names' ∧
      Typing.checkProgram r ⟨earlier⟩ <+: Typing.checkProgram r' ⟨earlier ++ later⟩ ∧
      r.symbols.toList <+: r'.symbols.toList ∧
      ∀ i ∈ (Program.mk earlier).nodes,
        r'.links.find? i = r.links.find? i ∧ r'.accesses.find? i = r.accesses.find? i := by
  have hevolves := evolves_append earlier later
  refine ⟨_, _, _, _, resolveNames_eq _, resolveNames_eq _, ?_, ?_, (keeps_append _ _).symbols_isPrefix, ?_⟩
  · obtain ⟨found, hfound⟩ := hevolves.diagnostics
    exact ⟨found, hfound.symm⟩
  · rw [checkProgram_append hnodup]
    exact List.prefix_append _ _
  · intro i hi
    have hi := earlier_nodes_disjoint hnodup i hi
    exact ⟨hevolves.links i hi, hevolves.accesses i hi⟩

/-- A tuple type, and a function that calls itself with an argument too many. -/
def selfCalling : List Decl :=
  [.tuple ⟨⟨0, "pair", .nowhere⟩, [⟨.integer, ⟨1, "n", .nowhere⟩⟩]⟩,
    .function ⟨.integer, ⟨2, "f", .nowhere⟩, [⟨.integer, ⟨3, "x", .nowhere⟩⟩],
      .mk [] [.ret (some (.call ⟨4, "f", .nowhere⟩ [.int 1 .nowhere, .int 2 .nowhere])) .nowhere]⟩]

/-- Declarations of the same names, and one of another. -/
def redeclaring : List Decl :=
  [.function ⟨.logical, ⟨5, "f", .nowhere⟩, [], .mk [] []⟩,
    .var ⟨.tuple ⟨6, "pair", .nowhere⟩, ⟨7, "y", .nowhere⟩⟩,
    .tuple ⟨⟨8, "pair", .nowhere⟩, [⟨.logical, ⟨9, "n", .nowhere⟩⟩]⟩]

theorem analysis_of_earlier_redeclaring :
    (Program.mk (selfCalling ++ redeclaring)).nodes.Nodup ∧
      ∃ r names r' names', resolveNames ⟨selfCalling⟩ = .ok (r, names) ∧
        resolveNames ⟨selfCalling ++ redeclaring⟩ = .ok (r', names') ∧
        names <+: names' ∧
        Typing.checkProgram r ⟨selfCalling⟩ <+: Typing.checkProgram r' ⟨selfCalling ++ redeclaring⟩ ∧
        r.symbols.toList <+: r'.symbols.toList ∧
        ∀ i ∈ (Program.mk selfCalling).nodes,
          r'.links.find? i = r.links.find? i ∧ r'.accesses.find? i = r.accesses.find? i := by
  have hnodup : (Program.mk (selfCalling ++ redeclaring)).nodes.Nodup := by decide
  exact ⟨hnodup, analysis_of_earlier selfCalling redeclaring hnodup⟩

end BaseLang
