import LosslessScss.Proofs.Acceptance
import LosslessScss.Proofs.Output
import LosslessScss.Proofs.Settings

/-!
# Verdicts

Whether an input has an output is decided by its tokens and their brackets, whatever the settings
are (`Settings.output_iff_accepts`).  A call writes what each of its inputs is worth, one after
another, and its exit code tells whether all of them were accepted (`CommandLine.verdict_process`);
what an input is worth does not depend on the other ones.
-/

namespace LosslessScss

/-! ### Accepted inputs -/

/-- The input is accepted: its tokens can be read and, unless they alone are written, their
brackets match and are nested no deeper than allowed. -/
def Emission.Accepts (e : Emission) (source : String) : Prop :=
  ∃ ts, tokenize source = .ok ts ∧ (e ≠ .tokens → Balanced maxNesting ts [])

/-- A text is parsed if its tokens can be read and are balanced. -/
theorem parse_iff_balanced {source : String} :
  (∃ n, parse source = .ok n) ↔ ∃ ts, tokenize source = .ok ts ∧ Balanced maxNesting ts []
  := by
  constructor
  · rintro ⟨n, parsed⟩
    obtain ⟨p, finished⟩ := TokenStream.finished_of_stylesheet parsed
    have tokens : tokenize source = .ok (Lexer.ofString source).stream.tokens :=
      tokenize_eq_ok_iff.mpr ⟨Lexer.failure_of_stream finished, rfl⟩
    exact ⟨_, tokens, (TokenStream.stylesheet_iff_balanced finished).mp ⟨n, parsed⟩⟩
  · rintro ⟨ts, tokens, balanced⟩
    obtain ⟨rfl, p, finished⟩ := Lexer.stream_of_all tokens
    exact (TokenStream.stylesheet_iff_balanced finished).mpr balanced

theorem Emission.accepts_iff_parse {e : Emission} (other : e ≠ .tokens) {source : String} :
  e.Accepts source ↔ ∃ n, parse source = .ok n
  := by
  simp only [Accepts, other, ne_eq, not_false_eq_true, forall_const, parse_iff_balanced]

namespace Settings

variable {c : Settings} {source : String}

/-- The tree of an input is never found to stand for another text. -/
theorem output_check {n : Node} (check : c.emission = .check) (parsed : parse source = .ok n) :
  c.output source = .ok "ok"
  := by
  have same : firstDifference source.toUTF8.toList n.written.toUTF8.toList = none :=
    firstDifference_eq_none_iff.mpr (by rw [written_of_parsed parsed])
  rw [output, check]
  simp only [parsed, same]

/-- An input fails only because it cannot be read. -/
theorem output_ne_changed (c : Settings) (source : String) (byte : Nat) :
  c.output source ≠ .error (.changed byte)
  := by
  cases emission : c.emission with
  | tokens =>
    rw [output, emission]
    cases tokenize source <;> simp
  | check =>
    cases parsed : parse source with
    | error =>
      rw [output, emission]
      simp [parsed]
    | ok n => simp [output_check emission parsed]
  | tree | source =>
    rw [output, emission]
    cases parse source <;> simp

theorem output_iff_accepts (c : Settings) (source : String) :
  (∃ x, c.output source = .ok x) ↔ c.emission.Accepts source
  := by
  cases emission : c.emission with
  | tokens =>
    rw [output, emission]
    cases tokens : tokenize source <;> simp [Emission.Accepts, tokens]
  | check =>
    rw [Emission.accepts_iff_parse (by decide)]
    cases parsed : parse source with
    | error =>
      rw [output, emission]
      simp [parsed]
    | ok n => simp [output_check emission parsed]
  | tree | source =>
    rw [output, emission, Emission.accepts_iff_parse (by decide)]
    cases parse source <;> simp

end Settings

/-! ### Inputs -/

/-- The inputs can be read, and these are their names and texts: the standard input alone if no
file is given, and otherwise the files in their order. -/
inductive CommandLine.Reads (files : Files) (stdin : Option String) :
    List String → List (String × String) → Prop where
  | stdin {text} (read : stdin = some text) : Reads files stdin [] [("<stdin>", text)]
  | files {name names inputs}
      (read : List.Forall₂ (fun name input => input.1 = name ∧ files name = some input.2)
        (name :: names) inputs) :
      Reads files stdin (name :: names) inputs

/-- What a call writes for an input: what the emission asks for and the end of a line if the input
is accepted, and nothing if it is not. -/
inductive Settings.Writes (c : Settings) : String × String → String → Prop where
  | check {name source} (check : c.emission = .check) (accepted : c.emission.Accepts source) :
      Writes c (name, source) (name ++ ": ok\n")
  | source {name source} (sources : c.emission = .source) (accepted : c.emission.Accepts source) :
      Writes c (name, source) (source ++ "\n")
  | json {name source x} (json : c.emission = .tree ∨ c.emission = .tokens)
      (accepted : c.emission.Accepts source) (output : c.output source = .ok x) :
      Writes c (name, source) (x ++ "\n")
  | nothing {name source} (refused : ¬ c.emission.Accepts source) : Writes c (name, source) ""

namespace CommandLine

variable {files : Files} {stdin : Option String} {names : List String}
  {inputs : List (String × String)}

/-- A list is mapped if each of its members is. -/
theorem mapM_eq_some_iff {α β : Type} {f : α → Option β} {as : List α} {bs : List β} :
  as.mapM f = some bs ↔ List.Forall₂ (fun a b => f a = some b) as bs
  := by
  induction as generalizing bs with
  | nil => cases bs <;> simp
  | cons a as ih =>
    rw [List.mapM_cons]
    cases bs with
    | nil => cases f a <;> cases as.mapM f <;> simp
    | cons b bs =>
      rw [List.forall₂_cons, ← ih]
      cases f a <;> cases as.mapM f <;> simp

theorem inputs_eq_some_iff :
  CommandLine.inputs files stdin names = some inputs ↔ Reads files stdin names inputs
  := by
  cases names with
  | nil =>
    constructor
    · intro given
      obtain ⟨text, read, rfl⟩ := Option.map_eq_some_iff.mp given
      exact .stdin read
    · rintro ⟨read⟩
      exact Option.map_eq_some_iff.mpr ⟨_, read, rfl⟩
  | cons name names =>
    have member (name : String) (input : String × String) :
        (files name).map (fun text => (name, text)) = some input
          ↔ input.1 = name ∧ files name = some input.2 := by
      rw [Option.map_eq_some_iff]
      constructor
      · rintro ⟨text, read, rfl⟩
        exact ⟨rfl, read⟩
      · rintro ⟨rfl, read⟩
        exact ⟨_, read, rfl⟩
    rw [CommandLine.inputs, mapM_eq_some_iff]
    · simp only [member]
      constructor
      · exact .files
      · rintro ⟨⟩
        assumption
    · exact nofun

theorem mapM_eq_none_iff {α β : Type} {f : α → Option β} {as : List α} :
  as.mapM f = none ↔ ∃ a ∈ as, f a = none
  := by
  induction as with
  | nil => simp
  | cons a as ih =>
    simp only [List.mapM_cons, List.mem_cons, exists_eq_or_imp, ← ih]
    cases f a <;> cases as.mapM f <;> simp

theorem inputs_eq_none_iff :
  CommandLine.inputs files stdin names = none
    ↔ names = [] ∧ stdin = none ∨ ∃ name ∈ names, files name = none
  := by
  cases names with
  | nil => simp [CommandLine.inputs]
  | cons name names =>
    rw [CommandLine.inputs, mapM_eq_none_iff]
    · simp
    · exact nofun

/-! ### Verdicts -/

/-- An accepted input puts its line in front of what the others are worth. -/
theorem process_accepted {c : Settings} {source : String} (accepted : c.emission.Accepts source)
    (name : String) (rest : List (String × String)) :
  ∃ x, c.Writes (name, source) x ∧
    process c ((name, source) :: rest)
      = { process c rest with output := x ++ (process c rest).output }
  := by
  obtain ⟨x, output⟩ := (c.output_iff_accepts source).mpr accepted
  have processed : process c ((name, source) :: rest)
      = { process c rest with output := line c name x ++ (process c rest).output } := by
    rw [process, output]
  refine ⟨line c name x, ?_, processed⟩
  cases emission : c.emission with
  | check =>
    obtain ⟨n, parsed⟩ := (Emission.accepts_iff_parse (by rw [emission]; decide)).mp accepted
    rw [Settings.output_check emission parsed] at output
    obtain rfl := Except.ok.inj output
    have written : line c name "ok" = name ++ ": ok\n" := by
      rw [line, if_pos emission, String.append_assoc, String.append_assoc]
      rfl
    rw [written]
    exact .check emission accepted
  | source =>
    rw [line, if_neg (by rw [emission]; decide), Settings.output_source emission output]
    exact .source emission accepted
  | tree | tokens =>
    rw [line, if_neg (by rw [emission]; decide)]
    exact .json (by simp [emission]) accepted output

/-- An input that is not accepted writes nothing, and the call fails. -/
theorem process_refused {c : Settings} {source : String} (refused : ¬ c.emission.Accepts source)
    (name : String) (rest : List (String × String)) :
  process c ((name, source) :: rest) = { process c rest with code := 1 }
  := by
  rw [← c.output_iff_accepts] at refused
  rw [process]
  cases output : c.output source with
  | error => rfl
  | ok x => exact absurd ⟨x, output⟩ refused

/-- What is written for the inputs is what is written for each of them, and the exit code tells
whether all of them are accepted. -/
theorem verdict_process (c : Settings) (inputs : List (String × String)) :
  (∃ outputs, List.Forall₂ c.Writes inputs outputs ∧
      (process c inputs).output = String.join outputs) ∧
    ((process c inputs).code = 0 ∧ (∀ i ∈ inputs, c.emission.Accepts i.2) ∨
      (process c inputs).code = 1 ∧ ∃ i ∈ inputs, ¬ c.emission.Accepts i.2)
  := by
  induction inputs with
  | nil => exact ⟨⟨[], .nil, rfl⟩, .inl ⟨rfl, nofun⟩⟩
  | cons input rest ih =>
    obtain ⟨name, source⟩ := input
    obtain ⟨⟨outputs, writes, output⟩, code⟩ := ih
    by_cases accepted : c.emission.Accepts source
    case pos =>
      obtain ⟨x, written, processed⟩ := process_accepted accepted name rest
      rw [processed]
      refine ⟨⟨x :: outputs, .cons written writes, ?_⟩, ?_⟩
      · rw [String.join_cons, output]
      · simpa [accepted] using code
    case neg =>
      rw [process_refused accepted]
      refine ⟨⟨"" :: outputs, .cons (.nothing accepted) writes, ?_⟩, ?_⟩
      · rw [String.join_cons, String.empty_append, output]
      · exact .inr ⟨rfl, _, List.mem_cons_self, accepted⟩

end CommandLine

/-- A call with settings and inputs that can be read writes what each of its inputs is worth, in
their order, and ends with 0 if all of them are accepted and with 1 otherwise; where the settings
file is refused or an input cannot be read it writes nothing and ends with 1.  There are settings
unless their file is refused.  An input has an output exactly if it is accepted, and it fails only
because it cannot be read. -/
theorem verdict_of_run (files : Files) (stdin : Option String) (arguments : List String)
    (a : Arguments) (given : Arguments.ofList arguments = .ok a) :
  (∀ c unknown inputs, Settings.load files a = .ok (c, unknown) →
      CommandLine.Reads files stdin a.files inputs →
        (∃ outputs, List.Forall₂ c.Writes inputs outputs ∧
          (CommandLine.run files stdin arguments).output = String.join outputs) ∧
        ((CommandLine.run files stdin arguments).code = 0
          ↔ ∀ i ∈ inputs, c.emission.Accepts i.2) ∧
        ((CommandLine.run files stdin arguments).code = 1
          ↔ ∃ i ∈ inputs, ¬ c.emission.Accepts i.2)) ∧
    ((∃ path, a.config = some path ∧ Settings.Refuses files path) ∨
        (a.files = [] ∧ stdin = none) ∨ (∃ name ∈ a.files, files name = none) →
      CommandLine.run files stdin arguments = ⟨1, ""⟩) ∧
    ((∃ r, Settings.load files a = .ok r) ↔
      ¬∃ path, a.config = some path ∧ Settings.Refuses files path) ∧
    ∀ (c : Settings) source, ((∃ x, c.output source = .ok x) ↔ c.emission.Accepts source) ∧
      ∀ byte, c.output source ≠ .error (.changed byte)
  := by
  refine ⟨?_, ?_, ?_, ?_⟩
  · intro c unknown inputs loaded reads
    have ran : CommandLine.run files stdin arguments = CommandLine.process c inputs := by
      rw [CommandLine.run, given]
      simp only [loaded, CommandLine.inputs_eq_some_iff.mpr reads]
    obtain ⟨written, ⟨code, accepted⟩ | ⟨code, refused⟩⟩ := CommandLine.verdict_process c inputs
    · rw [ran, code]
      exact ⟨written, by simpa using accepted, by simpa using accepted⟩
    · rw [ran, code]
      exact ⟨written, by simpa using refused, by simpa using refused⟩
  · intro missing
    rw [CommandLine.run, given]
    obtain refused | unread := missing
    · obtain ⟨f, failed⟩ := Settings.load_fails_iff.mpr refused
      simp only [failed]
    · simp only [CommandLine.inputs_eq_none_iff.mpr unread]
      cases Settings.load files a <;> rfl
  · rw [← Settings.load_fails_iff]
    cases Settings.load files a <;> simp
  · intro c source
    exact ⟨c.output_iff_accepts source, c.output_ne_changed source⟩

/-- Of three files the second one leaves a bracket open, and the other two are found to be kept; as
a settings file it is refused. -/
theorem verdict_of_run_open :
  let files : Files := fun name => if name = "b" then some "(" else some "p"
  Arguments.ofList ["a", "b", "c"] = .ok { Arguments.none with files := ["a", "b", "c"] } ∧
    CommandLine.run files none ["a", "b", "c"] = ⟨1, "a: ok\nc: ok\n"⟩ ∧
    (∃ outputs, List.Forall₂ Settings.initial.Writes [("a", "p"), ("b", "("), ("c", "p")] outputs ∧
      String.join outputs = "a: ok\nc: ok\n" ∧
      ∃ i ∈ [("a", "p"), ("b", "("), ("c", "p")], ¬ Emission.check.Accepts i.2) ∧
    CommandLine.run files none ["--config", "b", "a"] = ⟨1, ""⟩
  := by
  intro files
  have given : Arguments.ofList ["a", "b", "c"]
      = .ok { Arguments.none with files := ["a", "b", "c"] } := by
    decide +kernel
  have reads : CommandLine.Reads files none ["a", "b", "c"] [("a", "p"), ("b", "("), ("c", "p")] :=
    CommandLine.inputs_eq_some_iff.mp (by decide +kernel)
  have ran : CommandLine.run files none ["a", "b", "c"] = ⟨1, "a: ok\nc: ok\n"⟩ := by
    decide +kernel
  have configured : Arguments.ofList ["--config", "b", "a"]
      = .ok { Arguments.none with files := ["a"], config := some "b" } := by
    decide +kernel
  have refuses : Settings.Refuses files "b" := .noJson rfl (by decide +kernel)
  obtain ⟨⟨outputs, writes, output⟩, _, failed⟩ :=
    (verdict_of_run files none _ _ given).1 .initial [] _ (by decide +kernel) reads
  rw [ran] at output failed
  refine ⟨given, ran, ⟨outputs, writes, output.symm, failed.mp rfl⟩, ?_⟩
  exact (verdict_of_run files none _ _ configured).2.1 (.inl ⟨"b", rfl, refuses⟩)

end LosslessScss
