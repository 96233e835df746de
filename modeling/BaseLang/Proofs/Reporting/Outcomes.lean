import BaseLang.Command
import BaseLang.Proofs.Grammar.Placing
import BaseLang.Proofs.Reporting.Snippets
import BaseLang.Proofs.Resolving.Runs

/-
  What a run of the command comes to.

  A script sees the exit status, the messages and the output file. They are decided at
  different places of the command, and still go together:

    1. `Snippet.render_ne_empty`, `Diagnostic.newline_not_mem_text` — a snippet is not empty,
       and the text of a diagnostic is one line;
    2. `Command.Lists` — messages that list diagnostics in their order, as snippets or as
       lines that can be told apart again;
    3. `Command.run_unread`, `run_refused`, `run_checked` — the run for a file that is not
       read, for a text that is no program and for a program, whose snippets can be drawn;
    4. `Command.Consistent` — what status, messages and output have to do with each other
       and with the passes, and `run_consistent`: every run is so, if its snippets can be drawn;
    5. `run_breaks_off` — a run that one snippet keeps from coming to an outcome.
-/

namespace BaseLang

/-! ## Messages -/

theorem Snippet.render_ne_empty (title : String) (p : Position) (source file : String) :
    Snippet.render title p source file ≠ "" := by
  intro h
  have hheading := (String.append_eq_empty_iff.1 h).1
  exact absurd (String.append_eq_empty_iff.1 hheading).2 (by decide)

theorem Position.newline_not_mem_text (p : Position) : '\n' ∉ p.text.toList := by
  have hnumber (n : Nat) : '\n' ∉ (toString n).toList := by
    have hdigits : (toString n).toList = Decimal.natural n := by simp [Decimal.natural, toString, Nat.repr]
    rw [hdigits]
    exact fun h => by cases Decimal.isDigit_of_mem_natural h
  rw [Position.text, String.toList_append, String.toList_append, List.mem_append, List.mem_append, not_or, not_or]
  exact ⟨⟨hnumber p.line, by decide⟩, hnumber p.column⟩

/-- A literal is compared with its characters; decoding it from its bytes would be slow. -/
theorem newline_not_mem_ofList {s : String} {cs : List Char} (hs : s = String.ofList cs) (h : '\n' ∉ cs) :
    '\n' ∉ s.toList := by
  rwa [hs, String.toList_ofList]

theorem DiagnosticKind.newline_not_mem_text (k : DiagnosticKind) : '\n' ∉ k.text.toList := by
  cases k <;> exact newline_not_mem_ofList rfl (by decide)

/-- The text of a diagnostic is one line. -/
theorem Diagnostic.newline_not_mem_text (d : Diagnostic) : '\n' ∉ d.text.toList := by
  rw [Diagnostic.text, String.toList_append, String.toList_append, List.mem_append, List.mem_append, not_or, not_or]
  exact ⟨⟨d.position.newline_not_mem_text, by decide⟩, d.kind.newline_not_mem_text⟩

namespace Lines

theorem split_of_newline_not_mem {cs : List Char} (h : '\n' ∉ cs) : split cs = [cs] := by
  induction cs with
  | nil => rfl
  | cons c cs ih =>
    rw [List.mem_cons, not_or] at h
    rw [split_cons (Ne.symm h.1), ih h.2]
    rfl

/-- Lines that are written one after the other are found again, in their order. -/
theorem split_flatMap {α : Type} (text : α → List Char) (rest : List Char) : ∀ xs : List α,
    (∀ x ∈ xs, '\n' ∉ text x) →
      split (xs.flatMap (fun x => text x ++ ['\n']) ++ rest) = xs.map text ++ split rest
  | [], _ => rfl
  | x :: xs, h => by
    obtain ⟨hx, hxs⟩ := List.forall_mem_cons.1 h
    have hshape : (x :: xs).flatMap (fun x => text x ++ ['\n']) ++ rest =
        text x ++ '\n' :: (xs.flatMap (fun x => text x ++ ['\n']) ++ rest) := by
      simp only [List.flatMap_cons, List.append_assoc, List.cons_append, List.nil_append]
    rw [hshape, split_append_newline, split_of_newline_not_mem hx, split_flatMap text rest xs hxs]
    rfl

end Lines

/-! ## Sources -/

/-- A source is refused by the scanner, or by the parser once it is scanned. -/
theorem ofSource?_eq_error_iff {source : String} {e : SyntaxError} :
    Program.ofSource? source = .error e ↔
      scan source = .error e ∨ ∃ tokens, scan source = .ok tokens ∧ parse tokens = .error e := by
  rw [Program.ofSource?]
  cases scan source with
  | error e' => simp [Except.bind]
  | ok tokens => simp [Except.bind]

namespace Command
variable {c : Command} {source : String} {contents : Except FileError String} {writing : Except FileError Unit}

/-! ## Runs -/

/-- What is said about a diagnostic, if it can be drawn. -/
def reported (c : Command) (source : String) (d : Diagnostic) : String :=
  if c.context then Snippet.render d.kind.text d.position source c.file else d.text ++ "\n"

theorem diagnosticMessage_eq {d : Diagnostic} (h : c.context = true → Snippet.fits d.position source = true) :
    c.diagnosticMessage source d = some (c.reported source d) := by
  rw [diagnosticMessage, reported]
  split
  · next hcontext => exact Snippet.render?_of_fits (h hcontext) _ _
  · rfl

theorem reported_ne_empty (c : Command) (source : String) (d : Diagnostic) : c.reported source d ≠ "" := by
  rw [reported]
  split
  · exact Snippet.render_ne_empty _ _ _ _
  · exact fun h => absurd (String.append_eq_empty_iff.1 h).2 (by decide)

/-- Messages that can all be drawn are all said. -/
theorem say_map_some (messages : List String) : say (messages.map some) = .ok (String.join messages) := by
  induction messages with
  | nil => rfl
  | cons message rest ih =>
    have hjoin : message ++ String.join rest = String.join (message :: rest) := by
      rw [← String.toList_inj, String.toList_append, String.toList_join, String.toList_join, List.flatMap_cons]
    rw [List.map_cons, say, ih]
    exact congrArg Except.ok hjoin

def reports (c : Command) (source : String) (ds : Diagnostics) : String := String.join (ds.map (c.reported source))

def readFailure (c : Command) (e : FileError) : String :=
  "basec: cannot read " ++ c.file ++ ": " ++ e.message ++ "\n"

theorem readFailure_ne_empty (c : Command) (e : FileError) : c.readFailure e ≠ "" :=
  fun h => absurd (String.append_eq_empty_iff.1 h).2 (by decide)

def writeFailure (c : Command) (writing : Except FileError Unit) : String :=
  match c.output?, writing with
  | some output, .error e => "basec: cannot write " ++ output ++ ": " ++ e.message ++ "\n"
  | _, _ => ""

/-- What is said about diagnostics is nothing exactly if there are none. -/
theorem reports_eq_empty_iff {ds : Diagnostics} : c.reports source ds = "" ↔ ds = [] := by
  rw [reports, ← String.toList_eq_nil_iff, String.toList_join, List.flatMap_eq_nil_iff]
  refine ⟨fun h => ?_, fun h => by rw [h]; exact fun _ hm => by cases hm⟩
  cases ds with
  | nil => rfl
  | cons d ds =>
    have hd := h _ (List.mem_map_of_mem List.mem_cons_self)
    exact absurd (String.toList_eq_nil_iff.1 hd) (c.reported_ne_empty source d)

/-- Nothing is said about writing exactly if it does not fail or is not asked for. -/
theorem writeFailure_eq_empty_iff :
    c.writeFailure writing = "" ↔ (c.output? ≠ none → writing = .ok ()) := by
  obtain ⟨file, output?, context⟩ := c
  cases output? with
  | none => simp [writeFailure]
  | some output =>
    cases writing with
    | ok _ => simp [writeFailure]
    | error e => simp [writeFailure, String.append_eq_empty_iff]

theorem run_unread (e : FileError) : c.run (.error e) writing = .ok ⟨false, c.readFailure e, none⟩ := rfl

theorem run_refused {e : SyntaxError} (h : Program.ofSource? source = .error e)
    (hfits : Snippet.fits e.position source = true) :
    c.run (.ok source) writing = .ok ⟨false, Snippet.render e.title e.position source c.file, none⟩ := by
  have hsaid : say [c.errorMessage source e] = .ok (Snippet.render e.title e.position source c.file) := by
    rw [errorMessage, Snippet.render?_of_fits hfits, say, say]
    exact congrArg Except.ok String.append_empty
  simp only [run, examine, h, hsaid, Except.map, finish]
  cases c.output? <;> rfl

/-- At an error whose snippet cannot be drawn the run breaks off, and nothing is said. -/
theorem run_broken {e : SyntaxError} (h : Program.ofSource? source = .error e)
    (hfits : Snippet.fits e.position source = false) : c.run (.ok source) writing = .error ⟨""⟩ := by
  have hsaid : say [c.errorMessage source e] = .error ⟨""⟩ := by
    rw [errorMessage, Snippet.render?, hfits]
    rfl
  simp only [run, examine, h, hsaid, Except.map]

/-- What the run for a program comes to. The output is written before the status is decided,
and what went wrong with it is said after the diagnostics. -/
def outcomeOf (c : Command) (source : String) (p : Program) (a : Analysis) (writing : Except FileError Unit) :
    Outcome :=
  match c.output?, writing with
  | none, _ => ⟨a.diagnostics.isEmpty, c.reports source a.diagnostics, none⟩
  | some _, .ok () =>
    ⟨a.diagnostics.isEmpty, c.reports source a.diagnostics, some (p.annotatedText a.resolution)⟩
  | some _, .error _ => ⟨false, c.reports source a.diagnostics ++ c.writeFailure writing, none⟩

section Checked
variable {p : Program} {a : Analysis}

/-- The run for a source that is a program whose diagnostics can all be drawn. -/
theorem run_checked (h : Program.ofSource? source = .ok p) (ha : analyze p = .ok a)
    (hfits : c.context = true → ∀ d ∈ a.diagnostics, Snippet.fits d.position source = true) :
    c.run (.ok source) writing = .ok (c.outcomeOf source p a writing) := by
  have hmessages : a.diagnostics.map (c.diagnosticMessage source) =
      (a.diagnostics.map (c.reported source)).map some := by
    rw [List.map_map]
    exact List.map_congr_left fun d hd => diagnosticMessage_eq fun hcontext => hfits hcontext d hd
  obtain ⟨file, output?, context⟩ := c
  simp only [run, examine, h, ha, hmessages, say_map_some, Except.map, finish, Analysis.hasErrors, Bool.not_not]
  cases output? with
  | none => rfl
  | some output =>
    cases writing with
    | ok _ => rfl
    | error e => simp only [outcomeOf, writeFailure, reports, String.append_assoc]

theorem messages_outcomeOf (c : Command) (source : String) (p : Program) (a : Analysis)
    (writing : Except FileError Unit) :
    (c.outcomeOf source p a writing).messages = c.reports source a.diagnostics ++ c.writeFailure writing := by
  obtain ⟨file, output?, context⟩ := c
  cases output? with
  | none => exact String.append_empty.symm
  | some output =>
    cases writing with
    | ok _ => exact String.append_empty.symm
    | error e => rfl

theorem success_outcomeOf :
    (c.outcomeOf source p a writing).success = true ↔
      a.diagnostics = [] ∧ (c.output? ≠ none → writing = .ok ()) := by
  obtain ⟨file, output?, context⟩ := c
  cases output? with
  | none => simp [outcomeOf]
  | some output => cases writing <;> simp [outcomeOf]

/-- The annotated text is written if it can be, whether or not there are diagnostics. -/
theorem written_outcomeOf {text : String} :
    (c.outcomeOf source p a writing).written? = some text ↔
      c.output? ≠ none ∧ writing = .ok () ∧ text = p.annotatedText a.resolution := by
  obtain ⟨file, output?, context⟩ := c
  cases output? with
  | none => simp [outcomeOf]
  | some output => cases writing <;> simp [outcomeOf, eq_comm]

end Checked

/-! ## Showing lines of the source -/

/-- Whether lines of the source are shown changes neither whether it is clean nor the annotated text. -/
theorem examine_same {context : Bool} {report report' : Report} (h : c.examine source = .ok report)
    (h' : ({ c with context } : Command).examine source = .ok report') :
    report'.clean = report.clean ∧ report'.rendering? = report.rendering? := by
  have hmap {messages : Except Abort String} {f : String → Report} {report : Report}
      (h : messages.map f = .ok report) : ∃ text, report = f text := by
    cases messages with
    | error _ => cases h
    | ok text =>
      cases h
      exact ⟨text, rfl⟩
  rw [examine] at h h'
  cases hsource : Program.ofSource? source with
  | error e =>
    rw [hsource] at h h'
    obtain ⟨_, rfl⟩ := hmap h
    obtain ⟨_, rfl⟩ := hmap h'
    exact ⟨rfl, rfl⟩
  | ok p =>
    simp only [hsource] at h h'
    cases ha : analyze p with
    | error e =>
      rw [ha] at h h'
      cases h
      cases h'
      exact ⟨rfl, rfl⟩
    | ok a =>
      rw [ha] at h h'
      obtain ⟨_, rfl⟩ := hmap h
      obtain ⟨_, rfl⟩ := hmap h'
      exact ⟨rfl, rfl⟩

/-- Nor does it change the status and the output of a run that comes to its end both ways. -/
theorem run_same {context : Bool} {o o' : Outcome} (h : c.run contents writing = .ok o)
    (h' : ({ c with context } : Command).run contents writing = .ok o') :
    o'.success = o.success ∧ o'.written? = o.written? := by
  cases contents with
  | error e =>
    cases h
    cases h'
    exact ⟨rfl, rfl⟩
  | ok source =>
    rw [run] at h h'
    cases hreport : c.examine source with
    | error _ => rw [hreport] at h; cases h
    | ok report =>
      cases hreport' : ({ c with context } : Command).examine source with
      | error _ => simp only [hreport'] at h'; cases h'
      | ok report' =>
        obtain ⟨hclean, hrendering⟩ := examine_same hreport hreport'
        simp only [hreport, hreport', Except.map, Except.ok.injEq] at h h'
        subst h h'
        rw [finish, finish, hclean, hrendering]
        cases c.output? with
        | none => exact ⟨rfl, rfl⟩
        | some output =>
          cases report.rendering? with
          | none => exact ⟨rfl, rfl⟩
          | some text => cases writing <;> exact ⟨rfl, rfl⟩

/-! ## Consistent outcomes -/

/-- The messages list the diagnostics in their order and end like this. With lines of the
source each diagnostic is a snippet, and without them it is one line. -/
structure Lists (c : Command) (source : String) (ds : Diagnostics) (rest messages : String) : Prop where
  snippets : c.context = true →
    messages = String.join (ds.map fun d => Snippet.render d.kind.text d.position source c.file) ++ rest
  lines : c.context = false → messages = String.join (ds.map fun d => d.text ++ "\n") ++ rest
  apart : c.context = false →
    Lines.split messages.toList = ds.map (·.text.toList) ++ Lines.split rest.toList

/-- The outcome fits what the passes say of the file. -/
structure Consistent (c : Command) (contents : Except FileError String)
    (writing : Except FileError Unit) (o : Outcome) : Prop where
  /-- It is a success exactly if nothing is said. -/
  silent : o.success = true ↔ o.messages = ""
  /-- It is a success exactly if nothing is wrong with the file, the program and the output. -/
  clean : o.success = true ↔ ∃ source tokens p a, contents = .ok source ∧ scan source = .ok tokens ∧
    parse tokens = .ok p ∧ analyze p = .ok a ∧ a.diagnostics = [] ∧ (c.output? ≠ none → writing = .ok ())
  /-- A file that cannot be read leads to one message and no output. -/
  unread : ∀ e, contents = .error e → o.messages = c.readFailure e ∧ o.written? = none
  /-- An error of the scanner or the parser leads to one snippet and no output. -/
  refused : ∀ source e, contents = .ok source →
    (scan source = .error e ∨ ∃ tokens, scan source = .ok tokens ∧ parse tokens = .error e) →
    o.messages = Snippet.render e.title e.position source c.file ∧ o.written? = none
  /-- A program is analysed, its diagnostics are listed, and its annotated text is the output
  if there is one that can be written, whatever the diagnostics are. -/
  checked : ∀ source tokens p, contents = .ok source → scan source = .ok tokens → parse tokens = .ok p →
    ∃ a, analyze p = .ok a ∧ c.Lists source a.diagnostics (c.writeFailure writing) o.messages ∧
      ∀ text, o.written? = some text ↔
        c.output? ≠ none ∧ writing = .ok () ∧ text = p.annotatedText a.resolution

theorem lists_reports (c : Command) (source : String) (ds : Diagnostics) (rest : String) :
    c.Lists source ds rest (c.reports source ds ++ rest) := by
  have hlines (h : c.context = false) : c.reported source = fun d => d.text ++ "\n" :=
    funext fun d => by simp [reported, h]
  refine ⟨fun h => ?_, fun h => ?_, fun h => ?_⟩
  · have hsnippets : c.reported source =
        fun d => Snippet.render d.kind.text d.position source c.file :=
      funext fun d => if_pos h
    rw [reports, hsnippets]
  · rw [reports, hlines h]
  · rw [reports, hlines h, String.toList_append, String.toList_join, List.flatMap_map]
    simp only [String.toList_append]
    exact Lines.split_flatMap _ _ ds fun d _ => d.newline_not_mem_text

theorem consistent_unread (c : Command) (e : FileError) (writing : Except FileError Unit) :
    c.Consistent (.error e) writing ⟨false, c.readFailure e, none⟩ := by
  refine ⟨⟨nofun, fun h => absurd h (c.readFailure_ne_empty e)⟩, ⟨nofun, ?_⟩, ?_, nofun, nofun⟩
  · rintro ⟨_, _, _, _, h, -⟩
    cases h
  · intro e' h
    cases h
    exact ⟨rfl, rfl⟩

theorem consistent_refused {e : SyntaxError} (h : Program.ofSource? source = .error e) :
    c.Consistent (.ok source) writing ⟨false, Snippet.render e.title e.position source c.file, none⟩ := by
  have hnone {tokens p} (hscan : scan source = .ok tokens) (hparse : parse tokens = .ok p) : False := by
    rw [ofSource?_eq_ok_iff.2 ⟨tokens, hscan, hparse⟩] at h
    cases h
  refine ⟨?_, ?_, nofun, ?_, ?_⟩
  · exact ⟨nofun, fun hempty => absurd hempty (Snippet.render_ne_empty _ _ _ _)⟩
  · refine ⟨nofun, ?_⟩
    rintro ⟨_, tokens, p, -, hsource, hscan, hparse, -⟩
    cases hsource
    exact (hnone hscan hparse).elim
  · intro _ e' hsource herror
    cases hsource
    rw [ofSource?_eq_error_iff.2 herror] at h
    cases h
    exact ⟨rfl, rfl⟩
  · intro _ tokens p hsource hscan hparse
    cases hsource
    exact (hnone hscan hparse).elim

theorem consistent_checked {p : Program} {a : Analysis} (h : Program.ofSource? source = .ok p)
    (ha : analyze p = .ok a) : c.Consistent (.ok source) writing (c.outcomeOf source p a writing) := by
  have hmessages := c.messages_outcomeOf source p a writing
  obtain ⟨tokens, hscan, hparse⟩ := ofSource?_eq_ok h
  have same {tokens' p'} (hscan' : scan source = .ok tokens') (hparse' : parse tokens' = .ok p') :
      p' = p := by
    rw [hscan] at hscan'
    cases hscan'
    rw [hparse] at hparse'
    cases hparse'
    rfl
  refine ⟨?_, ?_, nofun, ?_, ?_⟩
  · rw [success_outcomeOf, hmessages, String.append_eq_empty_iff, reports_eq_empty_iff, writeFailure_eq_empty_iff]
  · rw [success_outcomeOf]
    refine ⟨fun hok => ⟨source, tokens, p, a, rfl, hscan, hparse, ha, hok⟩, ?_⟩
    rintro ⟨_, tokens', p', a', hsource, hscan', hparse', ha', hok⟩
    cases hsource
    obtain rfl : p' = p := same hscan' hparse'
    rw [ha'] at ha
    cases ha
    exact hok
  · intro _ e hsource herror
    cases hsource
    rw [ofSource?_eq_error_iff.2 herror] at h
    cases h
  · intro _ tokens' p' hsource hscan' hparse'
    cases hsource
    obtain rfl : p' = p := same hscan' hparse'
    exact ⟨a, ha, hmessages ▸ c.lists_reports source a.diagnostics _, fun text => written_outcomeOf⟩

/-- All snippets that the run shows can be drawn: the one about an error that stops it, and those
about the diagnostics if lines of the source are shown. -/
structure Draws (c : Command) (source : String) : Prop where
  refused : ∀ e, (scan source = .error e ∨ ∃ tokens, scan source = .ok tokens ∧ parse tokens = .error e) →
    Snippet.fits e.position source = true
  checked : c.context = true → ∀ tokens p a, scan source = .ok tokens → parse tokens = .ok p →
    analyze p = .ok a → ∀ d ∈ a.diagnostics, Snippet.fits d.position source = true

/-- Status, messages and output fit together in every run whose snippets can be drawn, for every
file, whatever reading and writing come to. Showing lines of the source changes the messages only. -/
theorem run_consistent (c : Command) (contents : Except FileError String) (writing : Except FileError Unit)
    (hdraws : ∀ source, contents = .ok source → c.Draws source) :
    ∃ o, c.run contents writing = .ok o ∧ c.Consistent contents writing o ∧
      ∀ context other, ({ c with context } : Command).run contents writing = .ok other →
        other.success = o.success ∧ other.written? = o.written? := by
  suffices hrun : ∃ o, c.run contents writing = .ok o ∧ c.Consistent contents writing o by
    obtain ⟨o, ho, hconsistent⟩ := hrun
    exact ⟨o, ho, hconsistent, fun context other hother => run_same ho hother⟩
  cases contents with
  | error e => exact ⟨_, run_unread e, c.consistent_unread e writing⟩
  | ok source =>
    have hsource := hdraws source rfl
    cases h : Program.ofSource? source with
    | error e =>
      exact ⟨_, run_refused h (hsource.refused e (ofSource?_eq_error_iff.1 h)), consistent_refused h⟩
    | ok p =>
      obtain ⟨a, ha⟩ : ∃ a, analyze p = .ok a := ⟨_, analyze_eq p⟩
      obtain ⟨tokens, hscan, hparse⟩ := ofSource?_eq_ok h
      exact ⟨_, run_checked h ha fun hcontext => hsource.checked hcontext tokens p a hscan hparse ha,
        consistent_checked h ha⟩

/-- An assignment to a name that is not declared. -/
def unboundSource : String := "void f\x7b\x7d [ y = 1. ]"

theorem run_consistent_unbound :
    (⟨"a.base", some "out", true⟩ : Command).Draws unboundSource ∧
      ∃ o, (⟨"a.base", some "out", true⟩ : Command).run (.ok unboundSource) (.error .isADirectory) = .ok o ∧
        (⟨"a.base", some "out", true⟩ : Command).Consistent (.ok unboundSource) (.error .isADirectory) o ∧
        ∀ context other,
          (⟨"a.base", some "out", context⟩ : Command).run (.ok unboundSource) (.error .isADirectory) = .ok other →
            other.success = o.success ∧ other.written? = o.written? := by
  have hscan : scan unboundSource = .ok [⟨.voidWord, "void", ⟨⟨1, 1⟩, ⟨1, 5⟩⟩⟩,
      ⟨.identifier, "f", ⟨⟨1, 6⟩, ⟨1, 7⟩⟩⟩, ⟨.openCurly, "\x7b", ⟨⟨1, 7⟩, ⟨1, 8⟩⟩⟩,
      ⟨.closeCurly, "\x7d", ⟨⟨1, 8⟩, ⟨1, 9⟩⟩⟩, ⟨.openBracket, "[", ⟨⟨1, 10⟩, ⟨1, 11⟩⟩⟩,
      ⟨.identifier, "y", ⟨⟨1, 12⟩, ⟨1, 13⟩⟩⟩, ⟨.assignment, "=", ⟨⟨1, 14⟩, ⟨1, 15⟩⟩⟩,
      ⟨.intLiteral, "1", ⟨⟨1, 16⟩, ⟨1, 17⟩⟩⟩, ⟨.dot, ".", ⟨⟨1, 17⟩, ⟨1, 18⟩⟩⟩,
      ⟨.closeBracket, "]", ⟨⟨1, 19⟩, ⟨1, 20⟩⟩⟩, .endOfInput ⟨1, 20⟩] := by decide +kernel
  have hsource : Program.ofSource? unboundSource = .ok ⟨[.function ⟨.void, ⟨0, "f", ⟨1, 6⟩⟩, [],
      .mk [] [.assign (.ident ⟨1, "y", ⟨1, 12⟩⟩) (.int 1 ⟨1, 16⟩)]⟩]⟩ := by
    rw [Program.ofSource?, hscan]
    rfl
  have hdraws : (⟨"a.base", some "out", true⟩ : Command).Draws unboundSource := by
    refine ⟨fun e he => ?_, fun _ tokens p a htokens hp ha d hd => ?_⟩
    · rw [ofSource?_eq_error_iff.2 he] at hsource
      cases hsource
    · rw [ofSource?_eq_ok_iff.2 ⟨tokens, htokens, hp⟩] at hsource
      cases hsource
      cases ha
      obtain rfl : d = ⟨⟨1, 12⟩, .undeclaredIdentifier⟩ := List.mem_singleton.1 hd
      decide +kernel
  refine ⟨hdraws, run_consistent ⟨"a.base", some "out", true⟩ (.ok unboundSource) (.error .isADirectory) ?_⟩
  intro source h
  cases h
  exact hdraws

/-! ## A run that breaks off -/

/-- One line of letters, and a character after them with which no token starts. -/
def longLine (letters : Nat) : String := String.ofList (List.replicate letters 'x' ++ [';'])

/-- The scanner fails behind the letters. -/
theorem scan_longLine (n : Nat) :
    scan (longLine (n + 1)) = .error ⟨.unrecognised ";", .narrow ⟨1, n + 2⟩⟩ := by
  have hplace : Position.after (List.replicate (n + 1) 'x') = ⟨1, n + 2⟩ := by
    have hletters := Position.after_append [] (newline_not_mem_replicate (c := 'x') (by decide) (n + 1))
    rw [utf8Length_replicate (by decide)] at hletters
    rw [← List.nil_append (List.replicate (n + 1) 'x'), hletters, Position.mk.injEq]
    exact ⟨rfl, Nat.add_comm 1 (n + 1)⟩
  have hnone : Pattern.first? [';'] = none := by decide
  have hstuck : Stuck (List.replicate (n + 1) 'x') [';'] ⟨.unrecognised ";", ⟨1, n + 2⟩⟩ := by
    rw [← hplace]
    exact .unrecognised (Pattern.first?_eq_none_iff.1 hnone)
  have hletters : (List.replicate n 'x').all isWordPart = true :=
    List.all_eq_true.2 fun c hc => by rw [List.eq_of_mem_replicate hc]; decide
  have hline : LongestScan [] ('x' :: List.replicate n 'x' ++ [';']) _ :=
    .word (by decide) hletters (by simp [isWordPart, isWordStart]) (.stuck hstuck)
  exact hline.tokens_eq (.start (longLine (n + 1))) (Cursor.stands_start _) String.toList_ofList

/-- The line is shown from its first character on, so that the field of a caret is as wide as
its column. -/
theorem fits_longLine (n column : Nat) :
    Snippet.fits ⟨1, column⟩ (longLine (n + 1)) = decide (column ≤ Snippet.widest) := by
  have hline : '\n' ∉ List.replicate (n + 1) 'x' ++ [';'] := by
    rw [List.mem_append, not_or]
    exact ⟨newline_not_mem_replicate (by decide) _, by decide⟩
  have hshown : Lines.line? (longLine (n + 1)) 1 = some (longLine (n + 1)) := by
    rw [Lines.line?, longLine, String.toList_ofList, Lines.split_of_newline_not_mem hline]
    exact congrArg (some ∘ String.ofList) (Lines.dropEndWhile_concat _ (by decide) [])
  rw [Snippet.fits, hshown, Option.all_some, Snippet.caretWidth, longLine, String.toList_ofList]
  rfl

/-- A run prints no snippet for an error of the scanner that is too far to the right: the
snippet cannot be drawn. -/
theorem run_breaks_off :
    scan (longLine 70000) = .error ⟨.unrecognised ";", ⟨1, 70001⟩⟩ ∧
      (⟨"a.base", none, false⟩ : Command).run (.ok (longLine 70000)) (.ok ()) = .error ⟨""⟩ := by
  have hscan : scan (longLine 70000) = .error ⟨.unrecognised ";", ⟨1, 70001⟩⟩ := scan_longLine 69999
  refine ⟨hscan, run_broken (ofSource?_eq_error_iff.2 (.inl hscan)) ?_⟩
  exact fits_longLine 69999 70001

end Command

end BaseLang
