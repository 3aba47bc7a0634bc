import FormulaQuiz.Proofs.FileCheck
import FormulaQuiz.Proofs.Lines
import FormulaQuiz.Proofs.Preview

/-!
# The frame of a report

A report is printed line by line, and its readers go by the label at the front of each line.  All
that an author wrote stands in string literals, so the lines and their labels depend on the frame of
the report only: on what came of the command and on how many parts there are, and on no text.
-/

namespace FormulaQuiz

/-! ## Documents of reports -/

theorem Variation.isPlain_toJson (v : Variation) : (v.toJson Json.float).IsPlain := by
  simp [toJson, ShownVariable.toJson, AnswerOption.toJson]

theorem Preview.isPlain_toJson (p : Preview) : (p.toJson Json.float).IsPlain := by
  simp [toJson, FinalAnswerPreview.toJson, Variation.isPlain_toJson]

theorem Cli.Failure.isPlain_of_detail? {failure : Failure} {json : Json}
    (h : failure.detail? = some json) : json.IsPlain := by
  unfold detail? at h
  split at h
  · cases h
    simp
  · cases h
    simp
  · exact nomatch h

/-- The line breaks between brackets around a number of parts that have the same number of them. -/
def evenBreaks (count each : ℕ) : ℕ := if count = 0 then 0 else count + 1 + count * each

theorem Json.blockBreaks_replicate (count each : ℕ) :
    blockBreaks (List.replicate count each) = evenBreaks count each := by
  simp [blockBreaks, evenBreaks]

/-- The line breaks of the document of a variation: an input has four members, an option three. -/
def documentBreaks (inputs options : ℕ) : ℕ := 3 + evenBreaks inputs 5 + evenBreaks options 4

@[simp] theorem Json.breaks_text (s : String) : (text s).breaks = 0 := by
  simp [text, breaks]

@[simp] theorem Json.breaks_text? (s : Option String) : (text? s).breaks = 0 := by
  cases s with
  | none => simp [text?, breaks]
  | some s => exact breaks_text s

@[simp] theorem Json.breaks_float (x : Float) : (float x).breaks = 0 := by
  unfold float
  split <;> simp [breaks]

theorem Json.breaks_ofMembers (members : List (String × Json)) :
    (ofMembers members).breaks = blockBreaks (members.map fun member ↦ member.2.breaks) := by
  rw [ofMembers, breaks, breaksMembers_eq, List.map_map]
  rfl

/-- The line breaks of items, each of which has the same number of them. -/
theorem Json.breaks_array_map {α : Type} {toJson : α → Json} {each : ℕ}
    (h : ∀ a, (toJson a).breaks = each) (items : List α) :
    (array (items.map toJson)).breaks = evenBreaks items.length each := by
  rw [breaks, breaksItems_eq, List.map_map, ← blockBreaks_replicate]
  congr 1
  exact List.map_eq_replicate_iff.mpr fun a _ ↦ h a

theorem ShownVariable.breaks_toJson (v : ShownVariable) : (v.toJson Json.float).breaks = 5 := by
  simp [toJson, Json.breaks_ofMembers, Json.blockBreaks]

theorem AnswerOption.breaks_toJson (o : AnswerOption) : o.toJson.breaks = 4 := by
  simp [toJson, Json.breaks_ofMembers, Json.blockBreaks, Json.breaks]

theorem Variation.breaks_toJson (v : Variation) :
    (v.toJson Json.float).breaks = documentBreaks v.shown.length v.answers.length := by
  simp [toJson, Json.breaks_ofMembers, Json.blockBreaks, documentBreaks,
    Json.breaks_array_map ShownVariable.breaks_toJson,
    Json.breaks_array_map AnswerOption.breaks_toJson, Nat.add_assoc]

/-! ## Parts of variations -/

/-- A variation shows every input, and has an option more than there are to be wrong. -/
theorem Settings.length_of_generate {σ : Type} [Random.WordSource σ] {q : Question} {s : Settings}
    {randomize : Bool} {source rest : σ} {v : Variation}
    (h : (s.generate q randomize).Gives source v rest) :
    v.shown.length = q.inputs.length ∧ v.answers.length = s.decoyCount + 1 := by
  obtain ⟨p, hpreview, rfl⟩ := exists_preview_of_generate h
  obtain ⟨cs, -, -, -, hperm, progress, hshown, hbound⟩ := columns_of_preview hpreview
  constructor
  · rw [hshown]
    simpa using congrArg List.length (Question.map_shownInputs hbound)
  · simpa using hperm.length_eq

/-- The inputs of a question are those of its draft. -/
theorem Question.length_inputs {d : Draft} {q : Question} (h : ofDraft d = .ok q) :
    q.inputs.length = d.variables.countP fun v ↦ !v.isFinalAnswer := by
  have hmakes := (makes_of_ofDraft h).variables
  rw [inputs, ← List.countP_eq_length_filter]
  generalize d.variables = given, q.variables = made at hmakes
  induction hmakes with
  | nil => rfl
  | cons hmade _ ih => rw [List.countP_cons, List.countP_cons, ih, hmade.isFinalAnswer]

/-- A variation that is made for a request has parts as its draft says. -/
theorem Request.length_of_generate {r : Request} {seed : UInt64} {v : Variation}
    (h : r.generate seed = .ok v) :
    v.shown.length = r.draft.variables.countP (fun w ↦ !w.isFinalAnswer) ∧
      v.answers.length = r.settings.decoyCount + 1 := by
  rw [generate] at h
  obtain ⟨q, hq, h⟩ := Except.bind_eq_ok_iff.mp h
  obtain ⟨_, -, h⟩ := Except.bind_eq_ok_iff.mp h
  rcases hrun : (r.settings.generate q r.randomize : Trial Random.ChaCha Variation).outcome
    (Random.ChaCha.ofSeed seed) with ⟨result, rest⟩
  obtain rfl : result = .ok v := (congrArg Prod.fst hrun).symm.trans h
  rw [← Question.length_inputs hq]
  exact Settings.length_of_generate hrun

/-! ## Codes -/

theorem Formula.Fault.newline_notMem_code (fault : Fault) : '\n' ∉ fault.code.toList := by
  cases fault <;> rw [code] <;> decide +kernel

theorem StepFault.newline_notMem_code (fault : StepFault) : '\n' ∉ fault.code.toList := by
  cases fault with
  | formula fault => exact fault.newline_notMem_code
  | _ =>
    rw [code]
    decide +kernel

theorem Fault.newline_notMem_code (fault : Fault) : '\n' ∉ fault.code.toList := by
  cases fault with
  | step fault report => exact fault.newline_notMem_code
  | _ =>
    rw [code]
    decide +kernel

namespace Cli

/-! ## Labels -/

/-- What a line is about. -/
inductive Label where
  | result
  | errorCode
  | errorMessage
  | errorDetail
  | variation
  | preview
  | fileOk
  | fileError
  | checked
deriving DecidableEq, Repr

namespace Label

/-- All labels. -/
def all : List Label :=
  [result, errorCode, errorMessage, errorDetail, variation, preview, fileOk, fileError, checked]

/-- The text at the front of a line. -/
def text : Label → String
  | result => "RESULT:"
  | errorCode => "ERROR_CODE:"
  | errorMessage => "ERROR_MSG_JSON:"
  | errorDetail => "ERROR_DETAIL_JSON:"
  | variation => "INSTANCE_JSON:"
  | preview => "PREVIEW_JSON:"
  | fileOk => "FILE_OK:"
  | fileError => "FILE_ERROR:"
  | checked => "CHECKED:"

/-- The label of a line, if it has one. -/
def of? (line : String) : Option Label :=
  all.find? fun label ↦ label.text.toList.isPrefixOf line.toList

/-- A line has the label at its front: no label is the start of another. -/
theorem of?_append (label : Label) (rest : String) : of? (label.text ++ rest) = some label := by
  rw [of?, String.toList_append]
  cases label <;> rfl

theorem newline_notMem_text (label : Label) : '\n' ∉ label.text.toList := by
  cases label <;> decide

/-- Whatever stands behind the text of a label, the line has the label. -/
theorem of?_eq_some {line : String} (label : Label) (h : label.text.toList <+: line.toList) :
    of? line = some label := by
  obtain ⟨rest, h⟩ := h
  have hline : line = label.text ++ String.ofList rest := by
    rw [← String.toList_inj, ← h, String.toList_append, String.toList_ofList]
  rw [hline, of?_append]

theorem of?_ok : of? "RESULT:OK" = some result := of?_eq_some result (by decide)

theorem of?_error : of? "RESULT:ERROR" = some result := of?_eq_some result (by decide)

theorem exists_head_text (label : Label) : ∃ c cs, label.text.toList = c :: cs ∧ c ∉ margin := by
  cases label <;> exact ⟨_, _, rfl, by decide⟩

/-- A line that begins in the margin has no label. -/
theorem of?_eq_none {line : String} (h : ∃ d ∈ line.toList.head?, d ∈ margin) :
    of? line = none := by
  obtain ⟨d, hd, hmargin⟩ := h
  refine List.find?_eq_none.mpr ?_
  intro label _ hstarts
  obtain ⟨c, cs, htext, hc⟩ := label.exists_head_text
  obtain ⟨rest, hrest⟩ := List.isPrefixOf_iff_prefix.mp hstarts
  rw [← hrest, htext] at hd
  cases hd
  exact hc hmargin

end Label

/-! ## Frames -/

/-- All that the lines of a report depend on. -/
inductive Frame where
  /-- A failure, of which more may be told. -/
  | failure (detailed : Bool)
  /-- A variation, on one line or on several, with a number of inputs. -/
  | variation (pretty : Bool) (inputs : ℕ)
  | preview
  /-- Files, each of them with a valid question or without one. -/
  | files (valid : List Bool)

namespace Frame

/-- Whether the command has succeeded. -/
def succeeds : Frame → Bool
  | failure _ => false
  | variation _ _ => true
  | preview => true
  | files valid => valid.all id

/-- The labels of the lines, some of which have none. -/
def labels : Frame → List (Option Label)
  | failure detailed =>
    [some .result, some .errorCode, some .errorMessage] ++
      if detailed then [some .errorDetail] else []
  | variation pretty inputs =>
    [some .result, some .variation] ++
      List.replicate (if pretty then documentBreaks inputs 4 else 0) none
  | preview => [some .result, some .preview]
  | files valid =>
    [some .result] ++ (if valid.all id then [] else [some .errorCode, some .errorMessage]) ++
      valid.map (fun ok ↦ if ok then some .fileOk else some .fileError) ++ [some .checked]

end Frame

/-- The frame of what comes of a command when its absolute path names the given tree. -/
inductive Command.HasFrame (path : String) (tree : Option FileTree) (entropy : UInt64) :
    Command → Frame → Prop
  | failure {command : Command} {failure : Failure}
      (h : command.outcome path tree entropy = .error failure) :
      HasFrame path tree entropy command (.failure failure.detail?.isSome)
  | variation {definition : String} {seed : Option UInt64} {randomize pretty : Bool} {draft : Draft}
      {v : Variation} (hdraft : draftAt path tree = .ok draft)
      (h : Request.generate { draft, randomize } (seed.getD entropy) = .ok v) :
      HasFrame path tree entropy (.generate definition seed randomize pretty)
        (.variation pretty (draft.variables.countP fun v ↦ !v.isFinalAnswer))
  | preview {definition : String} {seed : Option UInt64} {randomize : Bool} {draft : Draft}
      {p : Preview} (hdraft : draftAt path tree = .ok draft)
      (h : draft.preview randomize (seed.getD entropy) = .ok p) :
      HasFrame path tree entropy (.preview definition seed randomize) .preview
  | files {dir : String} {entries : List (String × FileTree)}
      (htree : tree = some (.directory entries)) (h : questionFiles (.directory entries) ≠ []) :
      HasFrame path tree entropy (.check dir)
        (.files ((questionFiles (.directory entries)).map fun f ↦ HasQuestion f.bytes))

/-- What is printed of a report. -/
def Report.printed (report : Report) : String := String.join (report.lines.map (· ++ "\n"))

/-- A report is printed as its frame says. -/
structure Report.IsFramed (report : Report) (frame : Frame) : Prop where
  /-- The lines that are printed are those of the report. -/
  lines : report.printed.toList.splitOn '\n' = report.lines.map String.toList ++ [[]]
  labels : report.lines.map Label.of? = frame.labels
  /-- The first line is the verdict, and the exit code is the same verdict. -/
  verdict : report.lines.head? = some (if frame.succeeds then "RESULT:OK" else "RESULT:ERROR") ∧
    report.exitCode = if frame.succeeds then 0 else 1
  /-- No other line is taken for a verdict. -/
  once : ∀ line ∈ report.lines.tail, ¬ "RESULT:".toList <+: line.toList

theorem Frame.result_notMem_tail (frame : Frame) : some .result ∉ frame.labels.tail := by
  cases frame with
  | failure detailed => cases detailed <;> simp [labels]
  | variation pretty inputs => simp [labels]
  | preview => simp [labels]
  | files valid =>
    have hmap : some Label.result ∉
        valid.map fun ok ↦ if ok then some Label.fileOk else some .fileError := by
      simp only [List.mem_map, not_exists, not_and]
      intro ok _
      cases ok <;> simp
    cases hall : valid.all id <;> simp [labels, hall, hmap]

/-- Lines that have no line break are printed one by one. -/
theorem Report.splitOn_printed {report : Report}
    (h : ∀ line ∈ report.lines, '\n' ∉ line.toList) :
    report.printed.toList.splitOn '\n' = report.lines.map String.toList ++ [[]] := by
  have hprinted : report.printed.toList =
      ['\n'].intercalate (report.lines.map String.toList ++ [[]]) := by
    rw [printed]
    induction report.lines with
    | nil => rfl
    | cons line lines ih =>
      rw [List.map_cons, List.map_cons, List.cons_append,
        List.intercalate_cons_of_ne_nil (by simp), ← ih]
      simp
  rw [hprinted]
  refine List.splitOn_intercalate _ ?_ (by simp)
  rw [List.forall_mem_append, List.forall_mem_map]
  exact ⟨h, by simp⟩

/-- A report is framed by the labels of its lines and by its verdict. -/
theorem Report.isFramed_of {report : Report} {frame : Frame}
    (hlines : ∀ line ∈ report.lines, '\n' ∉ line.toList)
    (hlabels : report.lines.map Label.of? = frame.labels)
    (hverdict : ∃ rest, report =
      if frame.succeeds then ⟨0, "RESULT:OK" :: rest⟩ else ⟨1, "RESULT:ERROR" :: rest⟩) :
    report.IsFramed frame where
  lines := splitOn_printed hlines
  labels := hlabels
  verdict := by
    obtain ⟨rest, hverdict⟩ := hverdict
    rw [hverdict]
    cases frame.succeeds <;> exact ⟨rfl, rfl⟩
  once := by
    intro line hline hstarts
    refine frame.result_notMem_tail ?_
    rw [← hlabels, ← List.map_tail, ← Label.of?_eq_some .result hstarts]
    exact List.mem_map_of_mem hline

/-! ## Lines on failures -/

theorem newline_notMem_literal (text : String) : '\n' ∉ (literal text).toList :=
  Json.newline_notMem_compact _ (Json.isPlain_text text)

theorem Failure.newline_notMem_code (failure : Failure) : '\n' ∉ failure.code.toList := by
  cases failure with
  | question fault => exact fault.newline_notMem_code
  | _ => simp [code]

theorem newline_notMem_of_mem_failureLines (failure : Failure) :
    ∀ line ∈ failureLines failure, '\n' ∉ line.toList := by
  have hcode := failure.newline_notMem_code
  have hmessage := newline_notMem_literal failure.message
  rw [failureLines, List.forall_mem_append]
  refine ⟨?_, ?_⟩
  · simp [hcode, hmessage]
  · cases hdetail : failure.detail? with
    | none => simp
    | some json => simp [Json.newline_notMem_compact json (Failure.isPlain_of_detail? hdetail)]

theorem labels_failureLines (failure : Failure) :
    (failureLines failure).map Label.of? = (Frame.failure failure.detail?.isSome).labels := by
  have hcode : Label.of? ("ERROR_CODE:" ++ failure.code) = some .errorCode :=
    Label.of?_append .errorCode _
  have hmessage : Label.of? ("ERROR_MSG_JSON:" ++ literal failure.message) = some .errorMessage :=
    Label.of?_append .errorMessage _
  have hdetail : (failure.detail?.map fun json ↦ "ERROR_DETAIL_JSON:" ++ json.compact).toList.map
      Label.of? = if failure.detail?.isSome then [some .errorDetail] else [] := by
    cases failure.detail? with
    | none => rfl
    | some json => exact congrArg ([·]) (Label.of?_append .errorDetail json.compact)
  rw [failureLines, Frame.labels, List.map_append, hdetail, List.map_cons, List.map_cons,
    List.map_singleton, Label.of?_error, hcode, hmessage]

/-- The report on a failure is framed. -/
theorem isFramed_ofFailure (failure : Failure) :
    (Report.ofFailure failure).IsFramed (.failure failure.detail?.isSome) :=
  Report.isFramed_of (newline_notMem_of_mem_failureLines failure) (labels_failureLines failure)
    ⟨_, rfl⟩

/-! ## Lines of documents -/

section Documents

variable {name : String} {label : Label} {pretty : Bool} {json : Json}

theorem spans_document (hplain : json.IsPlain) :
    Spans (if pretty then json.pretty else json.compact).toList
      (if pretty then json.breaks else 0) := by
  cases pretty with
  | true => exact Json.spans_prettyAt 0 json hplain
  | false => exact spans_zero (Json.newline_notMem_compact json hplain)

theorem newline_notMem_of_mem_ofDocument :
    ∀ line ∈ (Report.ofDocument name pretty json).lines, '\n' ∉ line.toList := by
  rw [Report.ofDocument, List.forall_mem_cons, List.forall_mem_map]
  refine ⟨by decide, ?_⟩
  intro line hline
  rw [String.toList_ofList]
  exact newline_notMem_of_mem_splitLines line hline

/-- The first line of a document has the label, and the others are in the margin. -/
theorem labels_ofDocument (hname : name ++ ":" = label.text) (hplain : json.IsPlain) :
    (Report.ofDocument name pretty json).lines.map Label.of? =
      [some .result, some label] ++
        List.replicate (if pretty then json.breaks else 0) none := by
  obtain ⟨first, rest, h⟩ := exists_splitLines (if pretty then json.pretty else json.compact).toList
  obtain ⟨hlength, hmargin⟩ := length_of_splitLines (spans_document hplain) h
  have hlabel : Label.of? (String.ofList (label.text.toList ++ first)) = some label := by
    refine Label.of?_eq_some label ?_
    rw [String.toList_ofList]
    exact List.prefix_append _ _
  have hrest : rest.map (Label.of? ∘ String.ofList) = List.replicate rest.length none := by
    refine List.map_eq_replicate_iff.mpr fun line hline ↦ Label.of?_eq_none ?_
    rw [String.toList_ofList]
    exact hmargin line hline
  rw [Report.ofDocument, hname, String.toList_append,
    splitLines_append label.newline_notMem_text h, ← hlength, ← hrest]
  simp only [List.map_cons, List.map_map, hlabel, List.cons_append, List.nil_append]
  rfl

/-- The report on a document is framed by its line breaks. -/
theorem isFramed_ofDocument {frame : Frame} (hname : name ++ ":" = label.text)
    (hplain : json.IsPlain) (hsucceeds : frame.succeeds = true)
    (hlabels : frame.labels = [some .result, some label] ++
      List.replicate (if pretty then json.breaks else 0) none) :
    (Report.ofDocument name pretty json).IsFramed frame := by
  refine Report.isFramed_of newline_notMem_of_mem_ofDocument ?_ ?_
  · rw [labels_ofDocument hname hplain, hlabels]
  · rw [hsucceeds]
    exact ⟨_, rfl⟩

end Documents

/-! ## Lines on files -/

section Files

variable {files : List FoundFile}

/-- What a line on a file tells is told by its label. -/
theorem label_check (f : FoundFile) : Label.of? f.check.line =
    if decide (HasQuestion f.bytes) then some .fileOk else some .fileError := by
  rcases line_check f with ⟨hvalid, hline⟩ | ⟨hfaulty, failure, -, hline⟩
  · rw [hline, decide_eq_true hvalid]
    exact Label.of?_append .fileOk _
  · rw [hline, decide_eq_false hfaulty]
    simp only [String.append_assoc]
    exact Label.of?_append .fileError _

theorem newline_notMem_check (f : FoundFile) : '\n' ∉ f.check.line.toList := by
  have hpath := newline_notMem_literal f.relative
  rcases line_check f with ⟨-, hline⟩ | ⟨-, failure, -, hline⟩
  · simp [hline, hpath]
  · simp [hline, hpath, failure.newline_notMem_code, newline_notMem_literal failure.message]

/-- The lines on files and on their number. -/
def fileLines (files : List FoundFile) : List String :=
  files.map (fun f ↦ f.check.line) ++ ["CHECKED:" ++ Decimal.natText files.length]

theorem newline_notMem_of_mem_fileLines : ∀ line ∈ fileLines files, '\n' ∉ line.toList := by
  rw [fileLines, List.forall_mem_append, List.forall_mem_map, List.forall_mem_singleton]
  refine ⟨fun f _ ↦ newline_notMem_check f, ?_⟩
  simp [Decimal.newline_notMem_natText]

theorem labels_fileLines : (fileLines files).map Label.of? =
    (files.map fun f ↦ decide (HasQuestion f.bytes)).map
      (fun ok ↦ if ok then some .fileOk else some .fileError) ++ [some .checked] := by
  rw [fileLines, List.map_append, List.map_map, List.map_map]
  congr 1
  · exact List.map_congr_left fun f _ ↦ label_check f
  · exact congrArg ([·]) (Label.of?_append .checked _)

/-- The report on files is framed by which of them have valid questions. -/
theorem isFramed_ofFiles (files : List FoundFile) :
    (Report.ofFiles (files.map FoundFile.check)).IsFramed
      (.files (files.map fun f ↦ decide (HasQuestion f.bytes))) := by
  have hvalid : ((files.map fun f ↦ decide (HasQuestion f.bytes)).all id = true) ↔
      (files.countP fun f ↦ ¬ HasQuestion f.bytes) = 0 := by
    simp [List.countP_eq_zero]
  rw [ofFiles_check]
  dsimp only
  split
  next hnone =>
    have hall := hvalid.mpr hnone
    refine Report.isFramed_of ?_ ?_ ⟨_, (if_pos hall).symm⟩
    · exact List.forall_mem_cons.mpr ⟨by decide, newline_notMem_of_mem_fileLines⟩
    · rw [List.map_cons, Label.of?_ok, Frame.labels, if_pos hall, List.append_nil,
        List.append_assoc]
      exact congrArg (some Label.result :: ·) labels_fileLines
  next hsome =>
    have hall := mt hvalid.mp hsome
    refine Report.isFramed_of ?_ ?_ ⟨_, (if_neg hall).symm⟩
    · refine List.forall_mem_append.mpr ⟨?_, newline_notMem_of_mem_fileLines⟩
      simp [newline_notMem_literal]
    · have hmessage := Label.of?_append .errorMessage (literal (Decimal.natText
        (files.countP fun f ↦ ¬ HasQuestion f.bytes) ++ " of " ++ Decimal.natText files.length ++
          " definitions failed."))
      rw [List.map_append, Frame.labels, if_neg hall, List.append_assoc]
      exact congrArg₂ (fun message rest ↦ [some .result, some .errorCode, message] ++ rest)
        hmessage labels_fileLines

end Files

/-! ## Reports of commands -/

theorem orFailure_eq_ok_iff {α : Type} {x : Except Fault α} {a : α} :
    orFailure x = .ok a ↔ x = .ok a := by
  cases x with
  | ok a => simp [orFailure]
  | error fault => simp [orFailure]

namespace Command

variable {command : Command} {path : String} {tree : Option FileTree} {entropy : UInt64}
  {frame : Frame}

/-- What comes of a command has a frame. -/
theorem exists_hasFrame (command : Command) (path : String) (tree : Option FileTree)
    (entropy : UInt64) : ∃ frame, command.HasFrame path tree entropy frame := by
  cases h : command.outcome path tree entropy with
  | error failure => exact ⟨_, .failure h⟩
  | ok report =>
    cases command with
    | generate definition seed randomize pretty =>
      obtain ⟨draft, hdraft, h⟩ := Except.bind_eq_ok_iff.mp h
      obtain ⟨v, hv, h⟩ := Except.bind_eq_ok_iff.mp h
      exact ⟨_, .variation hdraft (orFailure_eq_ok_iff.mp hv)⟩
    | preview definition seed randomize =>
      obtain ⟨draft, hdraft, h⟩ := Except.bind_eq_ok_iff.mp h
      obtain ⟨p, hp, h⟩ := Except.bind_eq_ok_iff.mp h
      exact ⟨_, .preview hdraft (orFailure_eq_ok_iff.mp hp)⟩
    | check dir =>
      have h : checkReport path tree = .ok report := h
      unfold checkReport at h
      split at h
      · exact nomatch h
      · exact nomatch h
      next entries =>
        split at h
        · exact nomatch h
        next hfound => exact ⟨_, .files rfl hfound⟩

theorem report_of_outcome {made : Report} (h : command.outcome path tree entropy = .ok made) :
    command.report path tree entropy = made := by
  rw [report, h]

/-- A command prints what its frame says, whatever its texts are. -/
theorem isFramed_of_hasFrame (h : command.HasFrame path tree entropy frame) :
    (command.report path tree entropy).IsFramed frame := by
  cases h with
  | @failure command failure h =>
    rw [report, h]
    exact isFramed_ofFailure failure
  | @variation definition seed randomize pretty draft v hdraft h =>
    have hmade : (generate definition seed randomize pretty).outcome path tree entropy =
        .ok (.ofDocument "INSTANCE_JSON" pretty (v.toJson Json.float)) :=
      Except.bind_eq_ok_iff.mpr ⟨draft, hdraft,
        Except.bind_eq_ok_iff.mpr ⟨v, orFailure_eq_ok_iff.mpr h, rfl⟩⟩
    obtain ⟨hshown, hanswers⟩ := Request.length_of_generate h
    rw [report_of_outcome hmade]
    have hname : "INSTANCE_JSON" ++ ":" = Label.variation.text := rfl
    refine isFramed_ofDocument hname v.isPlain_toJson rfl ?_
    rw [Frame.labels, v.breaks_toJson, hshown, hanswers]
  | @preview definition seed randomize draft p hdraft h =>
    have hmade : (preview definition seed randomize).outcome path tree entropy =
        .ok (.ofDocument "PREVIEW_JSON" false (p.toJson Json.float)) :=
      Except.bind_eq_ok_iff.mpr ⟨draft, hdraft,
        Except.bind_eq_ok_iff.mpr ⟨p, orFailure_eq_ok_iff.mpr h, rfl⟩⟩
    rw [report_of_outcome hmade]
    have hname : "PREVIEW_JSON" ++ ":" = Label.preview.text := rfl
    exact isFramed_ofDocument hname p.isPlain_toJson rfl rfl
  | @files dir entries htree h =>
    rw [htree, report_eq_ofFiles dir path entropy h]
    exact isFramed_ofFiles _

/-- What a command prints has a frame, and any frame that it has tells all of its lines: the number
of lines, the label of each and the verdict depend on no text. -/
theorem isFramed_report (command : Command) (path : String) (tree : Option FileTree)
    (entropy : UInt64) : (∃ frame, command.HasFrame path tree entropy frame) ∧
      ∀ frame, command.HasFrame path tree entropy frame →
        (command.report path tree entropy).IsFramed frame :=
  ⟨exists_hasFrame command path tree entropy, fun _ ↦ isFramed_of_hasFrame⟩

end Command

end Cli

end FormulaQuiz
