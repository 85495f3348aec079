import ExprScript.CommandLine.Command
import ExprScript.Proofs.Reports

namespace ExprScript

namespace Text

/-- Lines that are typed one by one are the lines of the input. -/
theorem lines_join {ls : List String} (h : ∀ line ∈ ls, '\n' ∉ line.toList) :
    lines (String.join (ls.map (· ++ "\n"))) = ls := by
  have hpieces : (String.join (ls.map (· ++ "\n"))).toList.splitOn '\n' =
      ls.map String.toList ++ [[]] := by
    induction ls with
    | nil => rfl
    | cons line ls ih =>
      obtain ⟨hline, hls⟩ := List.forall_mem_cons.mp h
      have hfree : ∀ c ∈ line.toList, (c == '\n') = false := by
        intro c hc
        exact beq_eq_false_iff_ne.mpr fun hsame => hline (hsame ▸ hc)
      rw [List.map_cons, String.join_cons, String.toList_append, String.toList_append,
        List.append_assoc, List.splitOn, show "\n".toList = ['\n'] from rfl,
        List.singleton_append, List.splitOnP_append_cons_of_forall_mem hfree '\n' rfl]
      have hrest := ih hls
      rw [List.splitOn] at hrest
      rw [hrest]
      rfl
  simp only [lines, hpieces, List.map_append, List.map_map]
  simp

end Text

/-- Forgets of what sort the reported errors were. What was written stays. -/
def Diagnostics.reset (d : Diagnostics) : Diagnostics :=
  { d with hadError := false, hadRuntimeError := false }

/-- Runs a source text with a reporter that is kept from text to text. A text is not run as long as
the reporter remembers an error, of this text or of an earlier one. -/
def runSourceWith (d : Diagnostics) (b : Bindings) (source : String) : Session :=
  let script := Script.read source
  let found := (d.lexical script.lexical).syntactic script.syntactic
  if found.hadError then ⟨"", found, b⟩
  else
    let done := run b script.statements
    let diagnostics := match done.error with
      | some e => found.runtime e
      | none => found
    ⟨done.output, diagnostics, done.bindings⟩

theorem runSourceWith_empty (b : Bindings) (source : String) :
    runSourceWith .empty b source = runSource b source := rfl

/-- A reporter that remembers nothing adds to its text what a new one writes. -/
theorem runSourceWith_reset (d : Diagnostics) (b : Bindings) (source : String) :
    runSourceWith d.reset b source =
      { runSource b source with
        diagnostics := { (runSource b source).diagnostics with
          text := d.text ++ (runSource b source).diagnostics.text } } := by
  have hfound (s : Script) : (d.reset.lexical s.lexical).syntactic s.syntactic =
      ⟨d.text ++ String.join s.reports, !s.isSound, false⟩ := by
    unfold Diagnostics.lexical Diagnostics.syntactic
    rw [Diagnostics.foldl_reports Diagnostics.reportLine_eq,
      Diagnostics.foldl_reports Diagnostics.reportToken_eq]
    simp [Diagnostics.reset, Script.reports, Script.isSound, String.append_assoc]
  cases hs : (Script.read source).isSound with
  | false =>
    rw [runSource_of_unsound hs]
    simp [runSourceWith, hfound, hs]
  | true =>
    obtain ⟨hlexical, hsyntactic⟩ := Script.isSound_iff.mp hs
    have hclean := hfound (Script.read source)
    simp only [Script.reports, hlexical, hsyntactic, List.map_nil, List.append_nil,
      String.join_nil, String.append_empty, hs, Bool.not_true] at hclean
    rw [runSource_of_sound hs]
    simp only [runSourceWith, hlexical, hsyntactic, hclean, Session.ofRun]
    cases (run b (Script.read source).statements).error with
    | none => simp [Diagnostics.ofEnd, Diagnostics.empty]
    | some e =>
      rw [← Diagnostics.runtime_empty]
      simp [Diagnostics.runtime, Diagnostics.reportRuntime, Diagnostics.empty, String.append_assoc]

namespace Prompt

/-- Answers lines with one reporter for all of them, which forgets its errors behind every line. -/
def conversation (d : Diagnostics) (b : Bindings) : List String → Session
  | [] => ⟨sign, d, b⟩
  | line :: rest =>
    if ends line then ⟨sign, d, b⟩
    else
      let answer := runSourceWith d b line
      let others := conversation answer.diagnostics.reset answer.bindings rest
      { others with output := sign ++ answer.output ++ others.output }

/-- The lines in front of the first one that ends a dialogue. -/
def heard (lines : List String) : List String := lines.takeWhile fun line => !ends line

/-- The bindings that lines leave, each run on those that the line before leaves. -/
def leftBy (b : Bindings) (lines : List String) : Bindings :=
  lines.foldl (fun b line => (runSource b line).bindings) b

/-- What the lines that are heard show and leave, one after the other. -/
def answers (b : Bindings) : List String → List Session
  | [] => []
  | line :: rest =>
    if ends line then [] else runSource b line :: answers (runSource b line).bindings rest

variable (b : Bindings) (lines : List String)

theorem heard_cons (line : String) :
    heard (line :: lines) = if ends line then [] else line :: heard lines := by
  cases h : ends line <;> simp [heard, h]

/-- A line is answered as by itself, on the bindings that the lines in front of it leave. -/
theorem answers_getElem? (k : Nat) :
    (answers b lines)[k]? =
      ((heard lines)[k]?).map (runSource (leftBy b ((heard lines).take k))) := by
  induction lines generalizing b k with
  | nil => rfl
  | cons line rest ih =>
    rw [heard_cons, answers]
    split
    · rfl
    · cases k with
      | zero => rfl
      | succ k =>
        rw [List.getElem?_cons_succ, List.getElem?_cons_succ, ih, List.take_succ_cons]
        rfl

/-- A conversation is made of the answers to the lines that are heard. -/
theorem conversation_reset (d : Diagnostics) :
    conversation d.reset b lines =
      ⟨String.join ((answers b lines).map fun a => sign ++ a.output) ++ sign,
        ⟨d.text ++ String.join ((answers b lines).map fun a => a.diagnostics.text), false, false⟩,
        leftBy b (heard lines)⟩ := by
  induction lines generalizing d b with
  | nil => simp [conversation, answers, heard, leftBy, Diagnostics.reset]
  | cons line rest ih =>
    rw [conversation, answers, heard_cons]
    split
    · simp [leftBy, Diagnostics.reset]
    · simp only [runSourceWith_reset, ih, List.map_cons, String.join_cons, String.append_assoc]
      rfl

/-- The dialogue shows what a conversation with one reporter does. -/
theorem dialogue_eq :
    dialogue b lines =
      ⟨(conversation .empty b lines).output, (conversation .empty b lines).diagnostics.text,
        (conversation .empty b lines).bindings⟩ := by
  have hempty : Diagnostics.empty = Diagnostics.empty.reset := rfl
  rw [hempty, conversation_reset]
  induction lines generalizing b with
  | nil => simp [dialogue, answers, heard, leftBy, Diagnostics.empty]
  | cons line rest ih =>
    rw [dialogue, answers, heard_cons]
    split
    · simp [leftBy, Diagnostics.empty]
    · simp only [ih, List.map_cons, String.join_cons, String.append_assoc, Diagnostics.empty,
        String.empty_append]
      rfl

/-- Lines that only report errors of their text can be left out: the other lines are answered as
before, and the same bindings are left. The marks say which lines stay. -/
theorem answers_kept {marks : List (String × Bool)}
    (h : ∀ m ∈ marks, m.2 = false → ends m.1 = false ∧ (Script.read m.1).isSound = false) :
    answers b ((marks.filter Prod.snd).map Prod.fst) =
        (((answers b (marks.map Prod.fst)).zip marks).filter fun a => a.2.2).map Prod.fst ∧
      leftBy b (heard ((marks.filter Prod.snd).map Prod.fst)) =
        leftBy b (heard (marks.map Prod.fst)) := by
  induction marks generalizing b with
  | nil => exact ⟨rfl, rfl⟩
  | cons m marks ih =>
    obtain ⟨hm, hmarks⟩ := List.forall_mem_cons.mp h
    obtain ⟨line, stays⟩ := m
    cases stays with
    | true =>
      obtain ⟨hanswers, hleft⟩ := ih (b := (runSource b line).bindings) hmarks
      rw [List.filter_cons_of_pos rfl, List.map_cons, List.map_cons, heard_cons, heard_cons,
        answers, answers]
      split
      · exact ⟨rfl, rfl⟩
      · refine ⟨?_, hleft⟩
        rw [List.zip_cons_cons, List.filter_cons_of_pos rfl, List.map_cons, hanswers]
    | false =>
      obtain ⟨hends, hunsound⟩ := hm rfl
      have hsame : (runSource b line).bindings = b := by rw [runSource_of_unsound hunsound]
      obtain ⟨hanswers, hleft⟩ := ih (b := b) hmarks
      rw [List.filter_cons_of_neg (by simp), List.map_cons, heard_cons, answers, hends]
      simp only [Bool.false_eq_true, if_false, hsame]
      refine ⟨?_, ?_⟩
      · rw [List.zip_cons_cons, List.filter_cons_of_neg (by simp), hanswers]
      · rw [hleft, leftBy, leftBy, List.foldl_cons, hsame]

/-- Lines do not suffer from the errors of others. With one reporter for the whole conversation, the
lines in front of the first one that ends it are each run as by themselves, by a reporter that
remembers nothing, on the bindings that the lines before leave. The program shows that conversation
and exits normally. Leaving out lines that only report errors of their text changes neither what the
others show nor the bindings in the end. -/
theorem conversation_isolates_lines :
    (∀ (b : Bindings) (lines : List String),
      (∀ k, (answers b lines)[k]? =
        ((heard lines)[k]?).map (runSourceWith .empty (leftBy b ((heard lines).take k)))) ∧
      conversation .empty b lines =
        ⟨String.join ((answers b lines).map fun a => sign ++ a.output) ++ sign,
          ⟨String.join ((answers b lines).map fun a => a.diagnostics.text), false, false⟩,
          leftBy b (heard lines)⟩) ∧
    (∀ (lines : List String), (∀ line ∈ lines, '\n' ∉ line.toList) →
      ∀ args ∈ [[], ["run_prompt"]], ∀ file? interrupted,
        (Command.ofArguments args).execute file?
            ⟨String.join (lines.map (· ++ "\n")), interrupted⟩ =
          ⟨0, (conversation .empty .empty lines).output,
            (conversation .empty .empty lines).diagnostics.text, none⟩) ∧
    ∀ (b : Bindings) (marks : List (String × Bool)),
      (∀ m ∈ marks, m.2 = false → ends m.1 = false ∧ (Script.read m.1).isSound = false) →
        answers b ((marks.filter Prod.snd).map Prod.fst) =
            (((answers b (marks.map Prod.fst)).zip marks).filter fun a => a.2.2).map Prod.fst ∧
          leftBy b (heard ((marks.filter Prod.snd).map Prod.fst)) =
            leftBy b (heard (marks.map Prod.fst)) := by
  refine ⟨fun b lines => ⟨fun k => ?_, ?_⟩, ?_, fun b marks => answers_kept b⟩
  · rw [answers_getElem?]
    exact Option.map_congr fun line _ => (runSourceWith_empty _ line).symm
  · have hempty : Diagnostics.empty = Diagnostics.empty.reset := rfl
    rw [hempty, conversation_reset, Diagnostics.empty, String.empty_append]
  · intro lines h args hargs file? interrupted
    have hcommand : Command.ofArguments args = .prompt := by
      simp only [List.mem_cons, List.not_mem_nil, or_false] at hargs
      rcases hargs with rfl | rfl <;> rfl
    rw [hcommand, Command.execute, Text.lines_join h, dialogue_eq]

/-- Two lines with errors of their text are left out of a dialogue that goes on to the letter c. -/
theorem conversation_isolates_lines_declare :
    let marks := [("var x;", true), ("print ;", false), ("print -x;", true), ("@", false),
      ("print x;", true), (" c ", true), ("print nil;", true)]
    let kept := ["var x;", "print -x;", "print x;", " c ", "print nil;"]
    answers .empty kept =
        (((answers .empty (marks.map Prod.fst)).zip marks).filter fun a => a.2.2).map Prod.fst ∧
      (Command.ofArguments []).execute (fun _ => none) ⟨String.join (kept.map (· ++ "\n")), false⟩ =
        ⟨0, "> > > nil\n> ", "Operand must be a number.\n[line 1]\n", none⟩ := by
  intro marks kept
  have hmarks : ∀ m ∈ marks, m.2 = false →
      ends m.1 = false ∧ (Script.read m.1).isSound = false := by decide +kernel
  obtain ⟨hanswers, -⟩ := conversation_isolates_lines.2.2 .empty marks hmarks
  have hshown := conversation_isolates_lines.2.1 kept (by decide) [] (by simp) (fun _ => none) false
  exact ⟨hanswers, hshown.trans (by decide +kernel)⟩

end Prompt

end ExprScript
