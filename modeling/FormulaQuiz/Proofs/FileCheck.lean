import Mathlib.Data.List.Forall2
import Mathlib.Data.List.Nodup
import Mathlib.Data.List.Perm.Basic
import Mathlib.Data.List.Sort
import Mathlib.Data.String.Basic
import FormulaQuiz.Cli.Report

/-!
# The check of a directory

A check reports on each file with a question once, however deep it lies, in the order of the bytes
of the paths.  What it says of a file follows from the path and the bytes of that file alone, and
its verdict from what it says of all of them.
-/

namespace FormulaQuiz.Cli

/-! ## The order of bytes -/

section Utf8

/-- The bytes of a text. -/
def utf8 (s : String) : List UInt8 := s.toUTF8.data.toList

/-- The bytes of a text are those of its characters, one after another. -/
theorem utf8_eq (s : String) : utf8 s = s.toList.flatMap String.utf8EncodeChar := by
  unfold utf8 String.toUTF8
  rw [← String.utf8Encode_toList, List.utf8Encode, List.data_toByteArray]

/-- The bytes of a lesser character are less, whatever stands after them. -/
theorem utf8EncodeChar_append_lt {c d : Char} (h : c < d) (xs ys : List UInt8) :
    String.utf8EncodeChar c ++ xs < String.utf8EncodeChar d ++ ys := by
  have less : c.val.toNat < d.val.toNat := h
  have most : d.val.toNat < 0x110000 := d.valid.elim (by omega) (by omega)
  simp only [String.utf8EncodeChar]
  -- how many bytes each character has
  split_ifs <;>
    simp only [List.cons_append, List.nil_append, List.cons_lt_cons_iff, UInt8.lt_iff_toNat_lt,
      ← UInt8.toNat_inj, UInt8.toNat_ofNat'] <;>
    simp (disch := omega) only [Nat.mod_eq_of_lt] <;>
    omega

/-- A text comes before another in the order of bytes. -/
def Precedes (s t : String) : Prop := List.Lex (· < ·) (utf8 s) (utf8 t)

/-- Bytes are in the order of the characters that they stand for. -/
theorem lex_flatMap_utf8EncodeChar {cs ds : List Char} (h : List.Lex (· < ·) cs ds) :
    List.Lex (· < ·) (cs.flatMap String.utf8EncodeChar) (ds.flatMap String.utf8EncodeChar) := by
  induction h with
  | @nil d ds =>
    rw [List.flatMap_nil, List.flatMap_cons]
    obtain ⟨x, xs, eq⟩ := List.exists_cons_of_ne_nil (@String.utf8EncodeChar_ne_nil d)
    rw [eq]
    exact .nil
  | rel less =>
    rw [List.flatMap_cons, List.flatMap_cons, List.lex_lt]
    exact utf8EncodeChar_append_lt less _ _
  | cons _ ih =>
    rw [List.flatMap_cons, List.flatMap_cons]
    exact List.Lex.append_left _ ih _

/-- Texts are in the order of their bytes. -/
theorem precedes_of_lt {s t : String} (h : s < t) : Precedes s t := by
  unfold Precedes
  rw [utf8_eq, utf8_eq]
  exact lex_flatMap_utf8EncodeChar (List.lex_lt.mpr (String.lt_iff_toList_lt.mp h))

end Utf8

/-! ## Places in a tree -/

section Places

namespace FileTree

/-- The file at a place of a tree, for a tree at the end of the given way: for each directory that
is passed, the place has the number of the entry to take. -/
def fileAt? (way : List String) : List ℕ → FileTree → Option FoundFile
  | [], file bytes => some ⟨way, bytes⟩
  | i :: place, directory entries =>
    entries[i]?.bind fun entry ↦ fileAt? (way ++ [entry.1]) place entry.2
  | _, _ => none

/-- The places lead to the files: every place with a file is among them, once. -/
structure Leads (way : List String) (tree : FileTree) (places : List (List ℕ))
    (files : List FoundFile) : Prop where
  nodup : places.Nodup
  mem : ∀ {place}, (fileAt? way place tree).isSome → place ∈ places
  at_places : places.Forall₂ (fun place f ↦ fileAt? way place tree = some f) files

variable {way : List String} {name : String} {tree : FileTree} {entries : List (String × FileTree)}

/-- A file is the only one of its tree. -/
theorem leads_file (way : List String) (bytes : ByteArray) :
    Leads way (file bytes) [[]] [⟨way, bytes⟩] where
  nodup := List.nodup_singleton _
  mem := by
    intro place found
    cases place with
    | nil => exact List.mem_singleton_self _
    | cons i place => cases found
  at_places := .cons rfl .nil

/-- An empty directory has no file. -/
theorem leads_nil (way : List String) : Leads way (directory []) [] [] where
  nodup := List.nodup_nil
  mem := by
    intro place found
    cases place <;> cases found
  at_places := .nil

/-- A place in a directory without its first entry, seen from the directory. -/
def later : List ℕ → List ℕ
  | [] => []
  | i :: place => (i + 1) :: place

/-- Different places stay different. -/
theorem later_injective : Function.Injective later := by
  intro place place' eq
  cases place <;> cases place' <;> simp_all [later]

/-- What lies later in a directory. -/
theorem fileAt?_later (way : List String) (place : List ℕ) :
    fileAt? way (later place) (directory ((name, tree) :: entries)) =
      fileAt? way place (directory entries) := by
  cases place <;> rfl

/-- The files of a directory are those of its first entry and those of the others. -/
theorem Leads.cons {places places' files files'} (first : Leads (way ++ [name]) tree places files)
    (others : Leads way (directory entries) places' files') :
    Leads way (directory ((name, tree) :: entries))
      (places.map (0 :: ·) ++ places'.map later) (files ++ files') where
  nodup := by
    refine List.nodup_append.mpr ⟨first.nodup.map (List.cons_injective),
      others.nodup.map later_injective, ?_⟩
    intro place left place' right eq
    obtain ⟨_, _, rfl⟩ := List.mem_map.mp left
    obtain ⟨rest, _, rfl⟩ := List.mem_map.mp right
    cases rest <;> simp [later] at eq
  mem := by
    intro place found
    match place, found with
    | 0 :: place, found => exact List.mem_append_left _ (List.mem_map_of_mem (first.mem found))
    | (i + 1) :: place, found =>
      have listed : i :: place ∈ places' := others.mem found
      exact List.mem_append_right _ (List.mem_map_of_mem listed)
  at_places := by
    refine List.rel_append (List.forall₂_map_left_iff.mpr first.at_places)
      (List.forall₂_map_left_iff.mpr ?_)
    exact others.at_places.imp fun place f here ↦ (fileAt?_later way place).trans here

mutual

/-- Places lead to all files of a tree. -/
theorem exists_leads_filesUnder (way : List String) :
    (tree : FileTree) → ∃ places, Leads way tree places (tree.filesUnder way)
  | file bytes => ⟨_, leads_file way bytes⟩
  | directory entries => exists_leads_filesOf way entries

/-- Places lead to all files of some entries. -/
theorem exists_leads_filesOf (way : List String) :
    (entries : List (String × FileTree)) →
      ∃ places, Leads way (directory entries) places (filesOf way entries)
  | [] => ⟨_, leads_nil way⟩
  | (name, tree) :: entries =>
    have ⟨_, first⟩ := exists_leads_filesUnder (way ++ [name]) tree
    have ⟨_, others⟩ := exists_leads_filesOf way entries
    ⟨_, first.cons others⟩

end

/-- Places lead to the files of a kind, in whatever order these are. -/
theorem Leads.exists_of_perm {places files files'} (h : Leads way tree places files)
    {p : FoundFile → Bool} (perm : (files.filter p).Perm files') :
    ∃ places' : List (List ℕ), places'.Nodup ∧
      (∀ place, place ∈ places' ↔ ∃ f, fileAt? way place tree = some f ∧ p f) ∧
      places'.Forall₂ (fun place f ↦ fileAt? way place tree = some f) files' := by
  have kept := List.rel_filter (p := fun place ↦ (fileAt? way place tree).any p) (q := p)
    (fun place f (here : fileAt? way place tree = some f) ↦ by
      show (Option.any p (fileAt? way place tree) = true ↔ p f = true)
      rw [here, Option.any_some]) h.at_places
  have moved : Relation.Comp (List.Forall₂ _) List.Perm _ files' := ⟨_, kept, perm⟩
  rw [List.forall₂_comp_perm_eq_perm_comp_forall₂] at moved
  obtain ⟨places', same, at_places⟩ := moved
  refine ⟨places', same.nodup_iff.mp (h.nodup.filter _), fun place ↦ ?_, at_places⟩
  rw [← same.mem_iff, List.mem_filter, Option.any_eq_true]
  constructor
  · rintro ⟨-, f, here, good⟩
    exact ⟨f, here, good⟩
  · rintro ⟨f, here, good⟩
    exact ⟨h.mem (here ▸ rfl), f, here, good⟩

end FileTree

end Places

/-! ## The files with questions -/

section QuestionFiles

variable {f g : FoundFile}

/-- When a file stands before another. -/
theorem FoundFile.before_iff :
    f.before g ↔ f.relative < g.relative ∨
      f.relative = g.relative ∧ ¬ List.Lex (· < ·) g.components f.components := by
  unfold before
  split_ifs with same
  · rw [Bool.not_eq_true', List.lex_eq_false_iff_not_lex]
    simp [same]
  · rw [decide_eq_true_iff, le_iff_lt_or_eq]
    simp [same]

/-- The order of the files is transitive. -/
theorem FoundFile.before_trans (f g h : FoundFile) (fg : f.before g) (gh : g.before h) :
    f.before h := by
  rw [FoundFile.before_iff] at *
  rcases fg with fg | ⟨fg, fg'⟩ <;> rcases gh with gh | ⟨gh, gh'⟩
  · exact .inl (fg.trans gh)
  · exact .inl (gh ▸ fg)
  · exact .inl (fg ▸ gh)
  · refine .inr ⟨fg.trans gh, ?_⟩
    rw [List.not_lex_lt] at *
    exact List.le_trans fg' gh'

/-- The order of the files is total. -/
theorem FoundFile.before_total (f g : FoundFile) : (f.before g || g.before f) = true := by
  rw [Bool.or_eq_true, FoundFile.before_iff, FoundFile.before_iff]
  rcases lt_trichotomy f.relative g.relative with less | same | more
  · exact .inl (.inl less)
  · rw [List.not_lex_lt, List.not_lex_lt]
    exact (List.le_total f.components g.components).imp (.inr ⟨same, ·⟩) (.inr ⟨same.symm, ·⟩)
  · exact .inr (.inl more)

/-- The files with questions are in the order of the bytes of their paths. -/
theorem pairwise_questionFiles (tree : FileTree) :
    (questionFiles tree).Pairwise fun f g ↦
      Precedes f.relative g.relative ∨ f.relative = g.relative := by
  refine (List.pairwise_mergeSort FoundFile.before_trans FoundFile.before_total _).imp ?_
  intro f g before
  exact (FoundFile.before_iff.mp before).imp precedes_of_lt And.left

/-- The path of a file from the root, if the directory has the given path. -/
def FoundFile.path (f : FoundFile) (dir : String) : String :=
  dir ++ "/" ++ "/".intercalate f.components

/-- A file has a question if its path ends in the suffix, whatever the path of the directory. -/
theorem FoundFile.hasQuestion_iff (f : FoundFile) (dir : String) :
    f.hasQuestion ↔ definitionSuffix.toList <:+ (f.path dir).toList := by
  have slashed : (f.path dir).toList = dir.toList ++ ("/" ++ "/".intercalate f.components).toList := by
    rw [path, String.append_assoc, String.toList_append]
  rw [hasQuestion, List.isSuffixOf_iff_suffix, slashed]
  constructor
  · exact fun ends ↦ ends.trans (List.suffix_append _ _)
  · intro ends
    -- the suffix has no slash, so it cannot reach into the path of the directory
    refine (List.suffix_or_suffix_of_suffix ends (List.suffix_append _ _)).resolve_right ?_
    intro reaches
    have slash : '/' ∈ definitionSuffix.toList :=
      reaches.subset (by rw [String.toList_append]; exact List.mem_cons_self)
    revert slash
    decide

end QuestionFiles

/-! ## The report -/

section Reports

variable {bytes : ByteArray} {f : FoundFile}

/-- The bytes are a text, the text is a draft, and the draft is valid. -/
def HasQuestion (bytes : ByteArray) : Prop :=
  ∃ text draft question, String.fromUTF8? bytes = some text ∧ Draft.ofText? text = some draft ∧
    draft.validate = .ok question

/-- Nothing is wrong with bytes that are a valid question. -/
theorem failureOf?_eq_none_iff : failureOf? bytes = none ↔ HasQuestion bytes := by
  unfold failureOf? draftOfBytes HasQuestion
  cases decoded : String.fromUTF8? bytes with
  | none => simp [bind, Except.bind]
  | some text =>
    cases read : Draft.ofText? text with
    | none => simp [bind, Except.bind, read]
    | some draft =>
      cases valid : draft.validate with
      | error fault => simp [bind, Except.bind, orFailure, read, valid]
      | ok question => simp [bind, Except.bind, orFailure, read, valid]

instance (bytes : ByteArray) : Decidable (HasQuestion bytes) :=
  decidable_of_iff ((failureOf? bytes).isNone = true)
    (Option.isNone_iff_eq_none.trans failureOf?_eq_none_iff)

/-- The line on a file tells whether it has a valid question. -/
theorem line_check (f : FoundFile) :
    HasQuestion f.bytes ∧ f.check.line = "FILE_OK:" ++ literal f.relative ∨
      ¬ HasQuestion f.bytes ∧ ∃ failure, failureOf? f.bytes = some failure ∧
        f.check.line = "FILE_ERROR:" ++ literal f.relative ++ "|" ++ failure.code ++ "|" ++
          literal failure.message := by
  rw [← failureOf?_eq_none_iff, FoundFile.check, CheckedFile.line]
  cases failed : failureOf? f.bytes with
  | none => exact .inl ⟨rfl, rfl⟩
  | some failure => exact .inr ⟨nofun, failure, rfl, rfl⟩

/-- The report on files tells how many of them have no valid question. -/
theorem ofFiles_check (files : List FoundFile) :
    Report.ofFiles (files.map FoundFile.check) =
      let failed := files.countP fun f ↦ ¬ HasQuestion f.bytes
      let lines := files.map (fun f ↦ f.check.line) ++
        ["CHECKED:" ++ Decimal.natText files.length]
      if failed = 0 then ⟨0, "RESULT:OK" :: lines⟩
      else ⟨1, ["RESULT:ERROR", "ERROR_CODE:CLI_CHECK_FAILED",
        "ERROR_MSG_JSON:" ++ literal (Decimal.natText failed ++ " of " ++
          Decimal.natText files.length ++ " definitions failed.")] ++ lines⟩ := by
  have count : ((files.map FoundFile.check).filter fun f ↦ f.failure.isSome).length =
      files.countP fun f ↦ ¬ HasQuestion f.bytes := by
    rw [← List.countP_eq_length_filter, List.countP_map]
    refine List.countP_congr fun f _ ↦ ?_
    rw [decide_eq_true_iff, ← failureOf?_eq_none_iff, ← ne_eq, ← Option.isSome_iff_ne_none]
    rfl
  simp only [Report.ofFiles, count, List.length_map, List.map_map]
  rfl

/-- A check reports on the files with questions if there are any. -/
theorem report_eq_ofFiles (dir path : String) (entropy : UInt64)
    {entries : List (String × FileTree)} (some : questionFiles (.directory entries) ≠ []) :
    (Command.check dir).report path (.some (.directory entries)) entropy =
      Report.ofFiles ((questionFiles (.directory entries)).map FoundFile.check) := by
  have checked : checkReport path (.some (.directory entries)) =
      .ok (.ofFiles ((questionFiles (.directory entries)).map FoundFile.check)) := by
    rw [checkReport]
    cases files : questionFiles (.directory entries) with
    | nil => exact absurd files some
    | cons f files => rfl
  rw [Command.report, Command.outcome, checked]

/-- What is reported on a directory with the given path: `files` are those with questions, and
`places` tells where they lie. -/
structure Report.TellsOf (report : Report) (path : String) (directory : FileTree)
    (places : List (List ℕ)) (files : List FoundFile) : Prop where
  /-- No file has two lines. -/
  nodup : places.Nodup
  /-- A file has a line if its path ends in the suffix, and nothing else has. -/
  mem_iff : ∀ place, place ∈ places ↔ ∃ f, directory.fileAt? [] place = some f ∧
    definitionSuffix.toList <:+ (f.path path).toList
  at_places : places.Forall₂ (fun place f ↦ directory.fileAt? [] place = some f) files
  /-- The lines are in the order of the bytes of the paths that they show. -/
  ascending : files.Pairwise fun f g ↦ Precedes f.relative g.relative ∨ f.relative = g.relative
  /-- The line on a file follows from that file. -/
  line : ∀ f ∈ files,
    HasQuestion f.bytes ∧ f.check.line = "FILE_OK:" ++ literal f.relative ∨
      ¬ HasQuestion f.bytes ∧ ∃ failure, failureOf? f.bytes = some failure ∧
        f.check.line = "FILE_ERROR:" ++ literal f.relative ++ "|" ++ failure.code ++ "|" ++
          literal failure.message
  /-- The verdict counts the files without a valid question. -/
  eq : report =
    let failed := files.countP fun f ↦ ¬ HasQuestion f.bytes
    let lines := files.map (fun f ↦ f.check.line) ++ ["CHECKED:" ++ Decimal.natText files.length]
    if failed = 0 then ⟨0, "RESULT:OK" :: lines⟩
    else ⟨1, ["RESULT:ERROR", "ERROR_CODE:CLI_CHECK_FAILED",
      "ERROR_MSG_JSON:" ++ literal (Decimal.natText failed ++ " of " ++
        Decimal.natText files.length ++ " definitions failed.")] ++ lines⟩

/-- A check of a directory with a file with a question reports on all of them. -/
theorem exists_tellsOf_report (dir path : String) (entropy : UInt64)
    {entries : List (String × FileTree)}
    (found : ∃ place f, (FileTree.directory entries).fileAt? [] place = some f ∧
      definitionSuffix.toList <:+ (f.path path).toList) :
    ∃ places files, ((Command.check dir).report path (some (.directory entries)) entropy).TellsOf
      path (.directory entries) places files := by
  obtain ⟨_, leads⟩ := FileTree.exists_leads_filesUnder [] (.directory entries)
  have sorted : ((FileTree.directory entries).files.filter FoundFile.hasQuestion).Perm
      (questionFiles (.directory entries)) := (List.mergeSort_perm _ _).symm
  obtain ⟨places, nodup, mem_iff, at_places⟩ := leads.exists_of_perm sorted
  simp only [FoundFile.hasQuestion_iff _ path] at mem_iff
  refine ⟨places, questionFiles (.directory entries), nodup, mem_iff, at_places,
    pairwise_questionFiles _, fun f _ ↦ line_check f, ?_⟩
  rw [← ofFiles_check]
  -- the given place leads to a file, so there are files to tell of
  obtain ⟨place, f, here, ends⟩ := found
  refine report_eq_ofFiles dir path entropy fun empty ↦ ?_
  have same := at_places.length_eq
  rw [empty, List.length_nil, List.length_eq_zero_iff] at same
  exact absurd ((mem_iff place).mpr ⟨f, here, ends⟩) (same ▸ List.not_mem_nil)

/-- A file that lies deeper has its line, next to one that is no question. -/
theorem exists_tellsOf_report_nested :
    let bytes := "?".toUTF8
    let tree : List (String × FileTree) :=
      [("notes.txt", .file bytes), ("unit", .directory [("ohm.question.json", .file bytes)])]
    ∃ places files, ((Command.check "quiz").report "/quiz" (some (.directory tree)) 0).TellsOf
      "/quiz" (.directory tree) places files := by
  intro bytes tree
  refine exists_tellsOf_report "quiz" "/quiz" 0 ⟨[1, 0], ⟨["unit", "ohm.question.json"], bytes⟩,
    rfl, ?_⟩
  decide

end Reports

end FormulaQuiz.Cli
