import ExprScript.CommandLine.Command
import ExprScript.Proofs.Scripts

namespace ExprScript

/-- The arguments hand a text over to be run: the text itself, or a file that holds it, apart from
the ends of its lines. -/
inductive Submits (file? : Path → Option ByteArray) : List String → String → Prop where
  | text {source : String} (h : source ≠ "-") : Submits file? ["run", source] source
  | file {path raw : String} (h : file? (.ofString path) = some raw.toUTF8) :
    Submits file? ["run_file", path] (.ofList (Text.unifyNewlines raw.toList))
  | fileAlone {path raw : String} (hpath : path ≠ "run_prompt")
    (h : file? (.ofString path) = some raw.toUTF8) :
    Submits file? [path] (.ofList (Text.unifyNewlines raw.toList))

namespace Outcome

/-- The outcome of a run: all its output, and a report with its own exit code if it failed. -/
def ofRun (r : Run) : Outcome :=
  match r.error with
  | none => ⟨0, r.output, "", none⟩
  | some why => ⟨70, r.output, why.report, none⟩

/-- The outcome for a script that is not run. -/
def rejected (s : Script) : Outcome := ⟨65, "", String.join s.reports, none⟩

theorem ofSource_of_sound {source : String} (h : (Script.read source).isSound = true) :
    ofSource source = ofRun (run .empty (Script.read source).statements) := by
  unfold ofSource
  rw [runSource_of_sound h]
  generalize run .empty (Script.read source).statements = r
  obtain ⟨output, b, error⟩ := r
  cases error <;> rfl

theorem ofSource_of_unsound {source : String} (h : (Script.read source).isSound = false) :
    ofSource source = rejected (Script.read source) := by
  unfold ofSource
  rw [runSource_of_unsound h]
  rfl

theorem ofOutlines_of_sound {source : String} (h : (Script.read source).isSound = true) :
    (ofOutlines source).exit ≠ 65 := by
  simp only [ofOutlines, Diagnostics.ofScript_eq, h, Bool.not_true, Bool.false_eq_true, if_false]
  split <;> simp [done, crashed]

theorem ofOutlines_of_unsound {source : String} (h : (Script.read source).isSound = false) :
    ofOutlines source = rejected (Script.read source) := by
  simp [ofOutlines, Diagnostics.ofScript_eq, h, rejected]

theorem ofRun_exit (r : Run) : (ofRun r).exit ≠ 65 := by
  unfold ofRun
  split <;> simp

/-- The outlines of a text are refused exactly when the text is not run. -/
theorem ofOutlines_exit_iff (source : String) :
    ((ofOutlines source).exit = 65 ↔ (ofSource source).exit = 65) ∧
      ((ofSource source).exit = 65 → (ofSource source).output = "" ∧
        (ofOutlines source).output = "") := by
  cases h : (Script.read source).isSound with
  | true =>
    have hran := ofRun_exit (run .empty (Script.read source).statements)
    rw [ofSource_of_sound h]
    simp [ofOutlines_of_sound h, hran]
  | false => simp [ofOutlines_of_unsound h, ofSource_of_unsound h, rejected]

theorem ofFile_exit_iff (path : Path) (found : Option ByteArray) :
    ((ofFile path found ofOutlines).exit = 65 ↔ (ofFile path found ofSource).exit = 65) ∧
      ((ofFile path found ofSource).exit = 65 → (ofFile path found ofSource).output = "" ∧
        (ofFile path found ofOutlines).output = "") := by
  cases found with
  | none => simp [ofFile]
  | some bytes =>
    cases htext : scriptText? bytes with
    | none => simp [ofFile, htext, crashed]
    | some source =>
      simp only [ofFile, htext]
      exact ofOutlines_exit_iff source

theorem ofFile_toUTF8 (path : Path) (raw : String) (use : String → Outcome) :
    ofFile path (some raw.toUTF8) use = use (.ofList (Text.unifyNewlines raw.toList)) := by
  have htext : String.fromUTF8? raw.toUTF8 = some raw := dif_pos raw.isValidUTF8
  simp only [ofFile, scriptText?, htext, Option.map_some]

end Outcome

theorem Submits.execute_eq {file? : Path → Option ByteArray} {args : List String} {source : String}
    (h : Submits file? args source) (input : Input) :
    (Command.ofArguments args).execute file? input = .ofSource source := by
  cases h with
  | text h =>
    have hcommand : Command.ofArguments ["run", source] = .runText source := by
      simp [Command.ofArguments]
    rw [hcommand]
    rfl
  | @file path raw h =>
    change Outcome.ofFile _ (file? _) _ = _
    rw [h, Outcome.ofFile_toUTF8]
  | @fileAlone path raw hpath h =>
    have hcommand : Command.ofArguments [path] = .runFile (.ofString path) := by
      simp [Command.ofArguments]
    rw [hcommand]
    change Outcome.ofFile _ (file? _) _ = _
    rw [h, Outcome.ofFile_toUTF8]

/-- What a text handed over does depends on the phase that fails. When reading it finds errors, they
are all reported, in their order in the text and those of its pieces first, and nothing is run.
Otherwise the statements are run, and a report says if that failed. The outlines of a file are
refused exactly when the file is not run. -/
theorem execute_by_phase :
    (∀ file? args source, Submits file? args source → ∀ input,
      let script := Script.read source
      script.IsReadingOf source ∧
      (Command.ofArguments args).execute file? input =
        (if script.lexical = [] ∧ script.syntactic = [] then
          .ofRun (run .empty script.statements)
        else ⟨65, "", String.join (script.lexical.map LexicalError.report ++
          script.syntactic.map SyntaxError.report), none⟩) ∧
      (script.lexical ≠ [] ∨ script.syntactic ≠ [] →
        ∀ b, (runSource b source).output = "" ∧ (runSource b source).bindings = b)) ∧
    ∀ file? path input,
      let ran := (Command.ofArguments ["run_file", path]).execute file? input
      let outlined := (Command.ofArguments ["print_ast", path]).execute file? input
      (outlined.exit = 65 ↔ ran.exit = 65) ∧
        (ran.exit = 65 → ran.output = "" ∧ outlined.output = "") := by
  refine ⟨fun file? args source h input => ?_, fun file? path input => ?_⟩
  · intro script
    refine ⟨Script.read_isReadingOf source, ?_, fun hwrong b => ?_⟩
    · rw [h.execute_eq]
      split
      · rename_i hsound
        exact Outcome.ofSource_of_sound (Script.isSound_iff.mpr hsound)
      · rename_i hwrong
        rw [← Script.isSound_iff, Bool.not_eq_true] at hwrong
        exact Outcome.ofSource_of_unsound hwrong
    · have hunsound : script.isSound = false := by
        rw [Bool.eq_false_iff, Ne, Script.isSound_iff]
        tauto
      rw [runSource_of_unsound hunsound]
      exact ⟨rfl, rfl⟩
  · exact Outcome.ofFile_exit_iff _ _

/-- A text in which a character and two statements are wrong. -/
theorem execute_by_phase_wrong :
    let file? : Path → Option ByteArray := fun _ => some "print 1 +;\r\nvar @;".toUTF8
    let ran := (Command.ofArguments ["run_file", "bad.rox"]).execute file? ⟨"", false⟩
    let outlined := (Command.ofArguments ["print_ast", "bad.rox"]).execute file? ⟨"", false⟩
    Submits file? ["run_file", "bad.rox"] "print 1 +;\nvar @;" ∧
      ran = ⟨65, "", "[line 2] Error: Unexpected character.\n" ++
        "[line 1] Error at ';': Expect expression.\n" ++
        "[line 2] Error at ';': Expect variable name.\n", none⟩ ∧
      outlined.exit = 65 ∧ outlined.output = "" := by
  intro file? ran outlined
  have htext : String.ofList (Text.unifyNewlines "print 1 +;\r\nvar @;".toList) =
      "print 1 +;\nvar @;" := by decide
  have hsubmits : Submits file? ["run_file", "bad.rox"] "print 1 +;\nvar @;" := by
    rw [← htext]
    exact .file rfl
  obtain ⟨-, hexecute, -⟩ := execute_by_phase.1 file? _ _ hsubmits ⟨"", false⟩
  have hexit : ran.exit = 65 := (congrArg Outcome.exit hexecute).trans (by decide +kernel)
  obtain ⟨hsame, hempty⟩ := execute_by_phase.2 file? "bad.rox" ⟨"", false⟩
  exact ⟨hsubmits, hexecute.trans (by decide +kernel), hsame.mpr hexit, (hempty hexit).2⟩

end ExprScript
