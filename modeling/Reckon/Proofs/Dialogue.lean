import Reckon.Proofs.Restore

/-! Conversation and script. A conversation runs the lines before the first that ends it, each
with the result and the warnings that the script of the same bytes reports. What it writes is the
script's output with prompts and echoes between, and its errors go by another heading. -/

set_option autoImplicit false

namespace Reckon
namespace Session

theorem reports_take (s : Session) (number k : Nat) (lines : List (List Char)) :
    (s.reports number (lines.take k)).1 = (s.reports number lines).1.take k := by
  induction lines generalizing s number k with
  | nil => simp [reports]
  | cons line lines ih =>
    cases k with
    | zero => rfl
    | succ k => rw [List.take_succ_cons, reports_cons, ih, reports_cons, List.take_succ_cons]

theorem reports_interactive (s : Session) (interactive : Bool) (number : Nat)
    (lines : List (List Char)) :
    reports { s with interactive } number lines =
      ((s.reports number lines).1, { (s.reports number lines).2 with interactive }) := by
  induction lines generalizing s number with
  | nil => rfl
  | cons line lines ih =>
    have hnext : (report { s with interactive } number line).2 =
        { (s.report number line).2 with interactive } := rfl
    rw [reports_cons, hnext, ih, reports_cons]
    rfl

theorem named_of_mem_results {s : Session} {number : Nat} {lines : List (List Char)} :
    ∀ r ∈ (s.reports number lines).1.map Report.result, LineResult.Named r := by
  intro r hr
  obtain ⟨a, ha, rfl⟩ := List.mem_map.1 hr
  obtain ⟨store, log, line, hline⟩ := exists_runLine_of_mem_reports ha
  rw [hline]
  exact LineResult.named_runLine store log line

end Session

abbrev Answer := LineResult × List Diagnostic

def Report.answer (r : Report) : Answer := (r.result, r.diagnostics)

namespace Cli

structure Exchange where
  line : List Char
  answer : Answer

/-- What a conversation runs, and the session at its end. -/
def exchanges (s : Session) : List (List Char) → List Exchange × Session
  | [] => ([], s)
  | line :: lines =>
    if isExit line then ([], s)
    else
      let (r, s) := s.execute line
      let (ds, s) := s.takeDiagnostics
      let (more, s) := exchanges s lines
      (⟨line, r, ds⟩ :: more, s)

def shown (echo : Bool) (a : Answer) : List Emit := prompt :: result echo "Error: " a.2 a.1

theorem exchanges_of_isExit {line : List Char} (h : isExit line = true) (s : Session)
    (lines : List (List Char)) : exchanges s (line :: lines) = ([], s) := if_pos h

theorem exchanges_cons {line : List Char} (h : isExit line = false) (s : Session) (number : Nat)
    (lines : List (List Char)) :
    exchanges s (line :: lines) =
      (⟨line, (s.report number line).1.answer⟩ :: (exchanges (s.report number line).2 lines).1,
        (exchanges (s.report number line).2 lines).2) := by
  rw [exchanges, if_neg (by simp [h])]
  rfl

theorem turns_cons {line : List Char} (h : isExit line = false) (s : Session) (number : Nat)
    (lines : List (List Char)) :
    turns s (line :: lines) =
      (shown s.interactive (s.report number line).1.answer ++
          (turns (s.report number line).2 lines).1,
        (turns (s.report number line).2 lines).2) := by
  rw [turns, turn?, if_neg (by simp [h])]
  rfl

/-- The loop writes a prompt and an answer for each line that it runs, and a last prompt. -/
theorem turns_eq_exchanges (s : Session) (lines : List (List Char)) :
    turns s lines =
      ((exchanges s lines).1.flatMap (fun e => shown s.interactive e.answer) ++ [prompt],
        (exchanges s lines).2) := by
  induction lines generalizing s with
  | nil => rfl
  | cons line lines ih =>
    cases h : isExit line with
    | true =>
      rw [exchanges_of_isExit h, turns, turn?, if_pos h]
      rfl
    | false =>
      have hkind : (s.report 0 line).2.interactive = s.interactive := rfl
      rw [exchanges_cons h s 0, turns_cons h s 0, ih, hkind, List.flatMap_cons, List.append_assoc]

/-- A conversation runs the lines before the first that ends it, and each comes to what a script
of these lines reports. -/
theorem exchanges_eq_reports (s : Session) (number : Nat) (lines : List (List Char)) :
    (exchanges s lines).1.map Exchange.line = lines.take (lines.findIdx isExit) ∧
    (exchanges s lines).1.map Exchange.answer =
      (s.reports number (lines.take (lines.findIdx isExit))).1.map Report.answer ∧
    (exchanges s lines).2 = (s.reports number (lines.take (lines.findIdx isExit))).2 := by
  induction lines generalizing s number with
  | nil => exact ⟨rfl, rfl, rfl⟩
  | cons line lines ih =>
    cases h : isExit line with
    | true => simp [exchanges_of_isExit h, List.findIdx_cons, h, Session.reports]
    | false =>
      obtain ⟨hlines, hanswers, hend⟩ := ih (s.report number line).2 (number + 1)
      rw [exchanges_cons h s number, List.findIdx_cons, h, cond_false, List.take_succ_cons,
        Session.reports_cons]
      exact ⟨congrArg (line :: ·) hlines, congrArg (_ :: ·) hanswers, hend⟩

def isPrompt (c : Char) : Bool := c == '>' || c == ' '

def isResult (line : List Char) : Bool := "Result: ".toList.isPrefixOf line

/-- The lines of an output that show a result, without the prompts before it. -/
def resultLines (output : List Char) : List (List Char) :=
  ((Text.lines output).map (List.dropWhile isPrompt)).filter isResult

theorem feed_notMem_of_isPrompt {p : List Char} (h : ∀ c ∈ p, isPrompt c = true) : '\n' ∉ p :=
  fun hmem => absurd (h _ hmem) (by decide)

theorem resultLines_of_isPrompt {p : List Char} (h : ∀ c ∈ p, isPrompt c = true) :
    resultLines p = [] := by
  have hdrop : p.dropWhile isPrompt = [] := List.dropWhile_eq_nil_iff.2 h
  rw [resultLines, Text.lines_of_notMem (feed_notMem_of_isPrompt h)]
  split
  · rfl
  · rw [List.map_singleton, hdrop]
    rfl

theorem resultLines_append {p w : List Char} (hp : ∀ c ∈ p, isPrompt c = true)
    (hfeed : '\n' ∉ w) (hreturn : '\r' ∉ w) (rest : List Char) :
    resultLines (p ++ (w ++ '\n' :: rest)) =
      [w.dropWhile isPrompt].filter isResult ++ resultLines rest := by
  have hfeeds : '\n' ∉ p ++ w := by simp [feed_notMem_of_isPrompt hp, hfeed]
  have hreturns : '\r' ∉ p ++ w := by
    have hnot : '\r' ∉ p := fun hmem => absurd (hp _ hmem) (by decide)
    simp [hnot, hreturn]
  rw [resultLines, ← List.append_assoc, Text.lines_append hfeeds,
    Text.dropReturn_of_notMem hreturns, List.map_cons, List.dropWhile_append_of_pos hp,
    ← List.singleton_append, List.filter_append]
  rfl

def resultLine? : LineResult → Option (List Char)
  | .ok (.printed v) => some ("Result: ".toList ++ v.chars)
  | _ => none

theorem filter_isResult (cs : List Char) :
    [("Result: ".toList ++ cs).dropWhile isPrompt].filter isResult = ["Result: ".toList ++ cs] := by
  have hkeep : ("Result: ".toList ++ cs).dropWhile isPrompt = "Result: ".toList ++ cs := rfl
  have hresult : isResult ("Result: ".toList ++ cs) = true :=
    List.isPrefixOf_iff_prefix.2 (List.prefix_append _ _)
  rw [hkeep, List.filter_singleton, hresult]
  rfl

/-- An assignment that is echoed does not look like a result: a blank follows the name. -/
theorem isResult_echo {name : String} (h : (Token.name name).Writable) (rest : List Char) :
    isResult ((name.toList ++ ' ' :: rest).dropWhile isPrompt) = false := by
  obtain ⟨c, v, hname, hc, -⟩ := Pattern.mem_name.1 h.1
  have hstart : ¬ isPrompt c = true := by
    intro hp
    rcases Bool.or_eq_true_iff.1 hp with hp | hp
    · rw [beq_iff_eq.1 hp] at hc
      revert hc
      decide
    · rw [beq_iff_eq.1 hp] at hc
      revert hc
      decide
  have hkeep : (name.toList ++ ' ' :: rest).dropWhile isPrompt = name.toList ++ ' ' :: rest := by
    rw [hname, List.cons_append, List.dropWhile_cons_of_neg hstart]
  rw [hkeep, Bool.eq_false_iff]
  intro hresult
  obtain ⟨tail, htail⟩ := List.isPrefixOf_iff_prefix.1 hresult
  have hafter := congrArg (List.dropWhile Lexeme.isNamePart) htail
  rw [List.dropWhile_append_of_pos (Token.isNamePart_of_writable h)] at hafter
  have hcolon : ("Result: ".toList ++ tail).dropWhile Lexeme.isNamePart = ':' :: ' ' :: tail := rfl
  have hblank : (' ' :: rest).dropWhile Lexeme.isNamePart = ' ' :: rest := rfl
  rw [hcolon, hblank] at hafter
  cases hafter

def outChars (emits : List Emit) : List Char := (emits.filterMap Emit.out?).flatMap String.toList

theorem toList_output (r : Run) : r.output.toList = outChars r.emits := String.toList_join

theorem outChars_append (as bs : List Emit) : outChars (as ++ bs) = outChars as ++ outChars bs := by
  simp [outChars]

theorem outChars_flatMap {α : Type} (f : α → List Emit) (xs : List α) :
    outChars (xs.flatMap f) = xs.flatMap fun x => outChars (f x) := by
  simp [outChars, List.filterMap_flatMap, List.flatMap_assoc]

def said (echo : Bool) : LineResult → List Char
  | .ok o => outChars (outcome echo o)
  | .error _ => []

theorem outChars_result (echo : Bool) (heading : String) (a : Answer) :
    outChars (result echo heading a.2 a.1) = said echo a.1 := by
  have hwarnings : outChars (warnings a.2) = [] := by
    simp [outChars, warnings, List.filterMap_map, Function.comp_def, Emit.out?]
  obtain ⟨r, ds⟩ := a
  cases r with
  | error e =>
    show outChars (warnings ds ++ [Emit.err (heading ++ e.message ++ "\n")]) = []
    rw [outChars_append, hwarnings]
    rfl
  | ok o =>
    show outChars (warnings ds ++ outcome echo o) = outChars (outcome echo o)
    rw [outChars_append, hwarnings, List.nil_append]

theorem said_cases (echo : Bool) {r : LineResult} (h : LineResult.Named r) :
    (said echo r = [] ∧ resultLine? r = none) ∨
      ∃ w, said echo r = w ++ ['\n'] ∧ '\n' ∉ w ∧ '\r' ∉ w ∧
        [w.dropWhile isPrompt].filter isResult = (resultLine? r).toList := by
  cases r with
  | error e => exact .inl ⟨rfl, rfl⟩
  | ok o =>
    cases o with
    | empty => exact .inl ⟨rfl, rfl⟩
    | printed v =>
      have hle : ∀ c ∈ "Result: ".toList ++ v.chars, 32 ≤ c.toNat := by
        have hlabel : "Result: ".toList.all (32 ≤ ·.toNat) = true := by decide
        refine List.forall_mem_append.2 ⟨fun c hc => Text.le_of_all hlabel hc, fun c hc => ?_⟩
        have := Value.le_of_mem_chars hc
        omega
      obtain ⟨hfeed, hreturn⟩ := Text.ends_notMem hle
      refine .inr ⟨"Result: ".toList ++ v.chars, ?_, hfeed, hreturn, ?_⟩
      · simp [said, outcome, outChars, Emit.out?, Value.text]
      · rw [filter_isResult, resultLine?, Option.toList_some]
    | assigned name v =>
      cases echo with
      | false => exact .inl ⟨rfl, rfl⟩
      | true =>
        have hname := h name v rfl
        have hle : ∀ c ∈ (Entry.line (name, v)).toList, 32 ≤ c.toNat :=
          fun c hc => Entry.le_of_mem_line (e := (name, v)) hname hc
        obtain ⟨hfeed, hreturn⟩ := Text.ends_notMem hle
        refine .inr ⟨_, ?_, hfeed, hreturn, ?_⟩
        · simp [said, outcome, outChars, Emit.out?, Entry.line]
        · rw [Entry.toList_line, List.filter_singleton, isResult_echo hname]
          rfl

/-- Prompts before the results make no difference to the lines that show them. -/
theorem resultLines_said {p lead tail : List Char} (hp : ∀ c ∈ p, isPrompt c = true)
    (hlead : ∀ c ∈ lead, isPrompt c = true) (htail : ∀ c ∈ tail, isPrompt c = true) (echo : Bool)
    {rs : List LineResult} (h : ∀ r ∈ rs, LineResult.Named r) :
    resultLines (p ++ (rs.flatMap (fun r => lead ++ said echo r) ++ tail)) =
      rs.filterMap resultLine? := by
  -- `p` holds the prompts that lines without an output left at the start of this one.
  induction rs generalizing p with
  | nil => exact resultLines_of_isPrompt (List.forall_mem_append.2 ⟨hp, htail⟩)
  | cons r rs ih =>
    obtain ⟨hr, hrs⟩ := List.forall_mem_cons.1 h
    have hfront : ∀ c ∈ p ++ lead, isPrompt c = true := List.forall_mem_append.2 ⟨hp, hlead⟩
    rw [List.flatMap_cons]
    rcases said_cases echo hr with ⟨hsaid, hnone⟩ | ⟨w, hsaid, hfeed, hreturn, hline⟩
    · have hnext := ih hfront hrs
      rw [hsaid, List.filterMap_cons_none hnone, ← hnext]
      simp only [List.append_nil, List.append_assoc]
    · have hnext := ih (p := []) (by simp) hrs
      have hthis := resultLines_append hfront hfeed hreturn
        (rs.flatMap (fun r => lead ++ said echo r) ++ tail)
      rw [List.nil_append] at hnext
      rw [hnext, hline] at hthis
      rw [List.filterMap_eq_flatMap_toList, List.flatMap_cons, ← List.filterMap_eq_flatMap_toList,
        ← hthis, hsaid]
      simp only [List.append_assoc, List.cons_append, List.nil_append]

theorem resultLines_banner (rest : List Char) :
    resultLines (outChars [banner] ++ rest) = resultLines rest := by
  obtain ⟨w, htext, hfeed, hreturn, hother⟩ : ∃ w, outChars [banner] = w ++ ['\n'] ∧
      '\n' ∉ w ∧ '\r' ∉ w ∧ [w.dropWhile isPrompt].filter isResult = [] := by
    refine ⟨"Interactive interpreter mode. Type 'exit' to exit.".toList, ?_, ?_, ?_, ?_⟩
    all_goals decide +kernel
  have hline := resultLines_append (p := []) (by simp) hfeed hreturn rest
  rw [hother, List.nil_append, List.nil_append] at hline
  rw [htext, List.append_assoc]
  exact hline

theorem resultLines_conversation {answers : List Answer}
    (h : ∀ r ∈ answers.map Prod.fst, LineResult.Named r) :
    resultLines (outChars (banner :: (answers.flatMap (shown true) ++ [prompt]))) =
      (answers.map Prod.fst).filterMap resultLine? := by
  have hprompt : ∀ c ∈ "> ".toList, isPrompt c = true := List.all_eq_true.1 rfl
  have hshown : ∀ a, outChars (shown true a) = "> ".toList ++ said true a.1 := by
    intro a
    rw [shown, ← List.singleton_append, outChars_append, outChars_result]
    rfl
  have hresults := resultLines_said (p := []) (by simp) hprompt hprompt true h
  rw [List.flatMap_map] at hresults
  rw [← List.singleton_append, outChars_append, resultLines_banner, outChars_append,
    outChars_flatMap]
  simp only [hshown]
  exact hresults

theorem resultLines_batch {rs : List Report}
    (h : ∀ r ∈ rs.map Report.result, LineResult.Named r) :
    resultLines (outChars (rs.flatMap report)) = (rs.map Report.result).filterMap resultLine? := by
  have hnone : ∀ c ∈ [], isPrompt c = true := by simp
  have hreport : ∀ r, outChars (report r) = said false r.result :=
    fun r => outChars_result false _ r.answer
  have hresults := resultLines_said (p := []) hnone hnone hnone false h
  rw [List.flatMap_map, List.append_nil] at hresults
  rw [outChars_flatMap]
  simp only [hreport]
  exact hresults

/-- What is written to the second channel about a line: its warnings, and its error under the
given heading. -/
def complaints (heading : String) (a : Answer) : List String :=
  a.2.map (fun d => "Warning: " ++ d.message ++ "\n") ++
    match a.1 with
    | .ok _ => []
    | .error e => [heading ++ e.message ++ "\n"]

theorem filterMap_err?_result (echo : Bool) (heading : String) (a : Answer) :
    (result echo heading a.2 a.1).filterMap Emit.err? = complaints heading a := by
  obtain ⟨r, ds⟩ := a
  have hwarnings : (warnings ds).filterMap Emit.err? =
      ds.map fun d => "Warning: " ++ d.message ++ "\n" := by
    simp [warnings, List.filterMap_map, Function.comp_def, Emit.err?]
  unfold result complaints
  rw [List.filterMap_append, hwarnings]
  cases r with
  | error e => rfl
  | ok o =>
    cases o with
    | empty => rfl
    | printed v => rfl
    | assigned name v => cases echo <;> rfl

theorem errors_conversation (answers : List Answer) :
    (banner :: (answers.flatMap (shown true) ++ [prompt])).filterMap Emit.err? =
      answers.flatMap (complaints "Error: ") := by
  have hshown : ∀ a, (shown true a).filterMap Emit.err? = complaints "Error: " a :=
    fun a => filterMap_err?_result true "Error: " a
  have hlast : [prompt].filterMap Emit.err? = [] := rfl
  have hfirst : banner.err? = none := rfl
  rw [List.filterMap_cons_none hfirst, List.filterMap_append, hlast, List.append_nil,
    List.filterMap_flatMap]
  simp only [hshown]

theorem errors_batch (rs : List Report) :
    (rs.flatMap report).filterMap Emit.err? =
      rs.flatMap fun r => complaints ("Error on line " ++ toString r.line ++ ": ") r.answer := by
  have hreport : ∀ r, (report r).filterMap Emit.err? =
      complaints ("Error on line " ++ toString r.line ++ ": ") r.answer :=
    fun r => filterMap_err?_result false _ r.answer
  rw [List.filterMap_flatMap]
  simp only [hreport]

theorem exchanges_sourceLines {bytes : List UInt8} (h : 13 ∉ bytes) {lines : List (List Char)}
    (hlines : lines = Text.lines (Text.decode bytes)) :
    (exchanges (.fresh true) (Text.sourceLines bytes)).1.map Exchange.line =
      lines.take (lines.findIdx isExit) ∧
    (exchanges (.fresh true) (Text.sourceLines bytes)).1.map Exchange.answer =
      (((Session.fresh false).reports 1 lines).1.take (lines.findIdx isExit)).map Report.answer ∧
    (exchanges (.fresh true) (Text.sourceLines bytes)).2.store =
      ((Session.fresh false).reports 1 (lines.take (lines.findIdx isExit))).2.store := by
  obtain ⟨hrun, hanswers, hend⟩ := exchanges_eq_reports (.fresh true) 1 lines
  have hfresh := Session.reports_interactive (.fresh false) true 1
    (lines.take (lines.findIdx isExit))
  rw [Text.sourceLines_eq_lines h, ← hlines, ← Session.reports_take]
  exact ⟨hrun, hanswers.trans (congrArg (fun p => p.1.map Report.answer) hfresh),
    (congrArg Session.store hend).trans (congrArg (fun p => p.2.store) hfresh)⟩

theorem conversation_eq {bytes : List UInt8} {answers : List Answer}
    (h : (exchanges (.fresh true) (Text.sourceLines bytes)).1.map Exchange.answer = answers) :
    conversation bytes = banner :: (answers.flatMap (shown true) ++ [prompt]) := by
  rw [conversation, turns_eq_exchanges, ← h, List.flatMap_map]
  rfl

/-- For bytes without a carriage return, a conversation runs the lines of their text before the
first that ends it. Each comes to what the script of that text reports, and the store at the end
is the one after as many lines of the script. If no line ends it, the two outputs show the same
results, and the two error outputs differ in the headings of errors. -/
theorem exchanges_and_streams_agree (bytes : List UInt8) (h : 13 ∉ bytes) :
    let lines := Text.lines (Text.decode bytes)
    let k := lines.findIdx isExit
    let script := (Session.fresh false).runScript (Text.decode bytes)
    let talk := exchanges (.fresh true) (Text.sourceLines bytes)
    turns (.fresh true) (Text.sourceLines bytes) =
      (talk.1.flatMap (fun e => shown true e.answer) ++ [prompt], talk.2) ∧
    talk.1.map Exchange.line = lines.take k ∧
    talk.1.map Exchange.answer = (script.1.take k).map Report.answer ∧
    talk.2.store = ((Session.fresh false).reports 1 (lines.take k)).2.store ∧
    ((∀ line ∈ lines, isExit line = false) →
      ∀ (input : List UInt8) (file : Option (List UInt8)) (path : String),
        let conversation := Command.run bytes file .interactive
        let batch := Command.run input (some bytes) (.runFile path)
        talk.2.store = script.2.store ∧
        resultLines conversation.output.toList =
          (script.1.map Report.result).filterMap resultLine? ∧
        resultLines batch.output.toList = (script.1.map Report.result).filterMap resultLine? ∧
        conversation.errors =
          String.join (script.1.flatMap fun r => complaints "Error: " r.answer) ∧
        batch.errors = String.join (script.1.flatMap fun r =>
          complaints ("Error on line " ++ toString r.line ++ ": ") r.answer)) := by
  intro lines k script talk
  obtain ⟨hlines, hanswers, hstore⟩ := exchanges_sourceLines h rfl
  refine ⟨turns_eq_exchanges _ _, hlines, hanswers, hstore, fun hnone input file path => ?_⟩
  have hwhole : lines.take k = lines := by
    have hk : k = lines.length := List.findIdx_eq_length.2 hnone
    rw [hk, List.take_length]
  have hall : script.1.take k = script.1 := by
    have hsame := Session.reports_take (.fresh false) 1 k lines
    rw [hwhole] at hsame
    exact hsame.symm
  have hemits : conversation bytes =
      banner :: ((script.1.map Report.answer).flatMap (shown true) ++ [prompt]) :=
    conversation_eq (hanswers.trans (congrArg (List.map Report.answer) hall))
  have hresults : (script.1.map Report.answer).map Prod.fst = script.1.map Report.result :=
    List.map_map
  have hnames : ∀ r ∈ script.1.map Report.result, LineResult.Named r :=
    Session.named_of_mem_results
  have hshows : resultLines (outChars (conversation bytes)) =
      (script.1.map Report.result).filterMap resultLine? := by
    rw [hemits, resultLines_conversation (hresults ▸ hnames), hresults]
  have herrors : (conversation bytes).filterMap Emit.err? =
      script.1.flatMap fun r => complaints "Error: " r.answer := by
    rw [hemits, errors_conversation, List.flatMap_map]
  refine ⟨?_, ?_, ?_, ?_, ?_⟩
  · exact hstore.trans (congrArg (fun ls => ((Session.fresh false).reports 1 ls).2.store) hwhole)
  · exact (congrArg resultLines (toList_output _)).trans hshows
  · exact (congrArg resultLines (toList_output _)).trans (resultLines_batch hnames)
  · exact congrArg String.join herrors
  · exact congrArg String.join (errors_batch script.1)

/-- The bytes of `x=2`, a line that ends within a character, an empty line and `print(x)`. -/
theorem agreement_after_truncated_character :
    let bytes : List UInt8 := [0x78, 0x3D, 0x32, 0x0A, 0xE2, 0x82, 0x0A, 0x0A, 0x70, 0x72, 0x69,
      0x6E, 0x74, 0x28, 0x78, 0x29]
    let conversation := Command.run bytes none .interactive
    let batch := Command.run [] (some bytes) (.runFile "path")
    (exchanges (.fresh true) (Text.sourceLines bytes)).1.map Exchange.line =
      ["x=2".toList, ['\uFFFD'], [], "print(x)".toList] ∧
    resultLines conversation.output.toList = ["Result: 2".toList] ∧
    resultLines batch.output.toList = ["Result: 2".toList] ∧
    conversation.errors = "Warning: Unknown token '\uFFFD' at column 1.\n" ++
      "Error: Syntax error at end of input.\n" ∧
    batch.errors = "Warning: Unknown token '\uFFFD' at column 1.\n" ++
      "Error on line 2: Syntax error at end of input.\n" := by
  intro bytes conversation batch
  obtain ⟨-, hlines, -, -, hstreams⟩ := exchanges_and_streams_agree bytes (by decide)
  obtain ⟨-, hshown, hprinted, herrors, hlisted⟩ := hstreams (by decide +kernel) [] none "path"
  refine ⟨hlines.trans (by decide +kernel), hshown.trans (by decide +kernel),
    hprinted.trans (by decide +kernel), herrors.trans (by decide +kernel),
    hlisted.trans (by decide +kernel)⟩

end Cli
end Reckon
