import FormulaQuiz.Proofs.Identifiers
import Mathlib.Data.List.SplitBy

/-!
# Names are replaced all at once

A text is made of runs, of identifier characters and of other characters in turn.  Replacing a name
of identifier characters takes each run that is the name to the replacement, and leaves all others;
so the result has its runs at the same places, and the next name finds nothing that was not there
before.  Substituting name after name is then one pass over the runs, in whatever order the names
come.
-/

namespace FormulaQuiz

namespace Text

open Formula (lastOf)

/-! ## Runs -/

/-- The longest runs of identifier characters and of other characters of which a text is made. -/
def runs (cs : List Char) : List (List Char) :=
  cs.splitBy fun c d ↦ isIdentifierChar c == isIdentifierChar d

/-- A text of characters of one kind, identifier characters or others, and of at least one. -/
structure IsRun (kind : Bool) (u : List Char) : Prop where
  ne : u ≠ []
  chars : ∀ c ∈ u, isIdentifierChar c = kind

/-- Runs of both kinds in turn, the first one of a given kind. -/
inductive Alternates : Bool → List (List Char) → Prop where
  | nil {kind : Bool} : Alternates kind []
  | cons {kind : Bool} {u : List Char} {us : List (List Char)} :
    IsRun kind u → Alternates (!kind) us → Alternates kind (u :: us)

section Runs

variable {kind : Bool} {u : List Char} {us : List (List Char)}

theorem IsWord.isRun (h : IsWord u) : IsRun true u := ⟨h.ne, h.chars⟩

theorem IsRun.isWord (h : IsRun true u) : IsWord u := ⟨h.ne, h.chars⟩

theorem IsRun.getLast? (h : IsRun kind u) : ∀ c ∈ u.getLast?, isIdentifierChar c = kind :=
  fun c hc ↦ h.chars c (List.mem_of_mem_getLast? hc)

/-- A text of runs begins as its first run does. -/
theorem Alternates.head?_flatten (h : Alternates kind us) :
    ∀ c ∈ us.flatten.head?, isIdentifierChar c = kind := by
  cases h with
  | nil => exact nofun
  | @cons _ u us run _ =>
    intro c hc
    rw [List.flatten_cons, List.head?_append_of_ne_nil _ run.ne] at hc
    exact run.chars c (List.mem_of_mem_head? hc)

/-- Runs in turn are the runs of the text that they make. -/
theorem Alternates.runs_flatten (h : Alternates kind us) : runs us.flatten = us := by
  induction h with
  | nil => rfl
  | @cons kind u us run turn ih =>
    have own : runs u = [u] := by
      apply List.splitBy_of_isChain run.ne
      apply List.Pairwise.isChain
      apply List.pairwise_of_forall_mem_list
      intro c hc d hd
      rw [run.chars c hc, run.chars d hd, beq_self_eq_true]
    have apart : runs (u ++ us.flatten) = runs u ++ runs us.flatten := by
      apply List.splitBy_append
      intro c hc d hd
      rw [run.getLast? c hc, turn.head?_flatten d hd]
      cases kind <;> rfl
    rw [List.flatten_cons, apart, own, ih, List.singleton_append]

/-- Every text is made of runs in turn. -/
theorem exists_alternates (cs : List Char) : ∃ kind us, Alternates kind us ∧ us.flatten = cs := by
  induction cs with
  | nil => exact ⟨true, [], .nil, rfl⟩
  | cons c cs ih =>
    obtain ⟨kind, us, turn, rfl⟩ := ih
    have single : IsRun (isIdentifierChar c) [c] :=
      ⟨List.cons_ne_nil c [], List.forall_mem_singleton.mpr rfl⟩
    cases turn with
    | nil => exact ⟨_, [[c]], .cons single .nil, rfl⟩
    | @cons _ u us run turn =>
      by_cases same : isIdentifierChar c = kind
      · subst same
        refine ⟨_, (c :: u) :: us, .cons ⟨List.cons_ne_nil c u, ?_⟩ turn, rfl⟩
        exact List.forall_mem_cons.mpr ⟨rfl, run.chars⟩
      · obtain rfl : kind = !isIdentifierChar c := Bool.eq_not.mpr (Ne.symm same)
        exact ⟨_, [c] :: u :: us, .cons single (.cons run turn), rfl⟩

theorem exists_alternates_runs (cs : List Char) :
    ∃ kind, Alternates kind (runs cs) ∧ (runs cs).flatten = cs := by
  obtain ⟨kind, us, turn, rfl⟩ := exists_alternates cs
  rw [turn.runs_flatten]
  exact ⟨kind, turn, rfl⟩

theorem ne_nil_of_mem_runs {cs : List Char} (h : u ∈ runs cs) : u ≠ [] :=
  List.ne_nil_of_mem_splitBy h

end Runs

/-! ## Replacing one name -/

section Replacing

variable {kind : Bool} {n w u : List Char} {us : List (List Char)} {b : Option Char}

/-- What is no identifier character is left as it is. -/
theorem IsWord.replaceFrom_others (hn : IsWord n) (h : ∀ c ∈ u, isIdentifierChar c = false) :
    replaceFrom n w 0 b u = u := by
  induction u generalizing b with
  | nil => rfl
  | cons c u ih =>
    obtain ⟨hc, hu⟩ := List.forall_mem_cons.mp h
    rw [hn.replaceFrom_cons hc, ih hu]

/-- A run of other characters is no word. -/
theorem IsWord.ne_of_isRun (hn : IsWord n) (h : IsRun false u) : u ≠ n := by
  rintro rfl
  obtain ⟨c, cs, rfl, hc, -⟩ := hn.exists_cons
  rw [h.chars c List.mem_cons_self] at hc
  exact Bool.false_ne_true hc

/-- A run is replaced as a whole, if no identifier character stands in front of a word. -/
theorem IsRun.replaceFrom (h : IsRun kind u) (hn : IsWord n)
    (hb : kind = true → b.any isIdentifierChar = false) :
    replaceFrom n w 0 b u = if u = n then w else u := by
  cases kind with
  | true => exact hn.replaceFrom_word h.isWord (hb rfl)
  | false => rw [hn.replaceFrom_others h.chars, if_neg (hn.ne_of_isRun h)]

/-- In a text of runs in turn each run is replaced on its own. -/
theorem Alternates.replaceFrom_flatten (h : Alternates kind us) (hn : IsWord n)
    (hb : kind = true → b.any isIdentifierChar = false) :
    replaceFrom n w 0 b us.flatten = us.flatMap fun u ↦ if u = n then w else u := by
  induction h generalizing b with
  | nil => rfl
  | @cons kind u us run turn ih =>
    have last : (lastOf b u).any isIdentifierChar = kind := by
      rw [lastOf, List.getLast?_eq_some_getLast run.ne, Option.some_or]
      exact run.chars _ (List.getLast_mem run.ne)
    have boundary : glued u.getLast? us.flatten.head? = false := by
      rw [List.getLast?_eq_some_getLast run.ne, glued, Option.any_some,
        run.chars _ (List.getLast_mem run.ne)]
      cases first : us.flatten.head? with
      | none => exact Bool.and_false kind
      | some d =>
        rw [Option.any_some, turn.head?_flatten d first]
        cases kind <;> rfl
    have others : (!kind) = true → (lastOf b u).any isIdentifierChar = false := by
      intro other
      rw [last]
      exact Bool.not_eq_true' kind ▸ other
    rw [List.flatten_cons, hn.replaceFrom_append boundary (Nat.zero_le _), run.replaceFrom hn hb,
      ih others, List.flatMap_cons]

/-- The kinds of the runs stay when a word is replaced by a word. -/
theorem Alternates.replace (h : Alternates kind us) (hn : IsWord n) (hw : IsWord w) :
    Alternates kind (us.map fun u ↦ if u = n then w else u) := by
  induction h with
  | nil => exact .nil
  | @cons kind u us run _ ih =>
    refine .cons ?_ ih
    dsimp only
    split
    next own =>
      cases kind with
      | true => exact hw.isRun
      | false => exact absurd own (hn.ne_of_isRun run)
    next => exact run

/-- The runs of a text after a name of identifier characters has been replaced. -/
theorem runs_replaceSymbol {name word : String}
    (hname : ∀ c ∈ name.toList, isIdentifierChar c = true) (hw : IsWord word.toList)
    (source : String) :
    runs (replaceSymbol source name word).toList =
      (runs source.toList).map fun u ↦ if u = name.toList then word.toList else u := by
  rw [replaceSymbol]
  split
  next empty =>
    have same : ∀ u ∈ runs source.toList, (if u = name.toList then word.toList else u) = u := by
      intro u hu
      rw [String.isEmpty_iff.mp empty, if_neg]
      exact ne_nil_of_mem_runs hu
    rw [List.map_congr_left same, List.map_id']
  next nonempty =>
    have hn : IsWord name.toList := ⟨fun nil ↦ nonempty (by simpa using nil), hname⟩
    obtain ⟨kind, turn, whole⟩ := exists_alternates_runs source.toList
    have replaced : replaceFrom name.toList word.toList 0 none source.toList = _ :=
      whole ▸ turn.replaceFrom_flatten hn fun _ ↦ rfl
    rw [String.toList_ofList, replaced, List.flatMap_def, (turn.replace hn hw).runs_flatten]

end Replacing

end Text

/-! ## Replacing all names -/

namespace AliasTable

open Text (IsWord isIdentifierChar runs)

variable {entries : List (String × String)}

/-- The runs of a text after some names have been replaced, one after the other. -/
theorem runs_foldl (plain : Plain entries) (source : String) :
    runs (entries.foldl (fun text (name, word) ↦ Text.replaceSymbol text name word) source).toList =
      (runs source.toList).map fun u ↦ (follow entries (String.ofList u)).toList := by
  induction entries generalizing source with
  | nil => simp [follow]
  | cons e entries ih =>
    obtain ⟨⟨hname, hword⟩, others⟩ := List.forall_mem_cons.mp plain
    rw [List.foldl_cons, ih others, Text.runs_replaceSymbol hname hword, List.map_map]
    apply List.map_congr_left
    intro u _
    simp only [Function.comp_apply, follow, List.foldl_cons, apply_ite String.ofList,
      String.ofList_toList, ← String.toList_inj, String.toList_ofList]

/-- A run of a text, or the alias in its place if it is a name. -/
def inPlaceOf (t : AliasTable) (run : List Char) : List Char :=
  (t.alias? (String.ofList run)).elim run String.toList

/-- In whatever order the names are gone through, a run becomes its alias if it is a name. -/
theorem Sound.follow_eq {t : AliasTable} (sound : t.Sound) (told : t.Told t.names)
    (order : entries.Perm t.entries) (run : List Char) :
    (follow entries (String.ofList run)).toList = t.inPlaceOf run := by
  have names : (entries.map (·.1)).Perm t.names := order.map _
  rw [inPlaceOf]
  cases own : t.alias? (String.ofList run) with
  | none =>
    have unknown : String.ofList run ∉ entries.map (·.1) :=
      fun known ↦ alias?_eq_none_iff.mp own (names.mem_iff.mp known)
    rw [follow_of_notMem unknown, String.toList_ofList, Option.elim_none]
  | some word =>
    have entry := (alias?_eq_some_iff sound.nodup).mp own
    have apart : word ∉ entries.map (·.1) :=
      fun known ↦ told word (mem_aliases own) word (names.mem_iff.mp known) List.infix_rfl
    rw [follow_of_mem (names.nodup_iff.mpr sound.nodup) (order.mem_iff.mpr entry) apart,
      Option.elim_some]

/-- With the aliases of the beginning, substituting names of identifier characters replaces each run
of identifier characters that is a name by its alias and leaves all else, at once; and so do passes
for the names in any other order. -/
theorem substitute_eq_flatMap_runs {σ : Type} [Random.WordSource σ] {policy : AliasPolicy}
    {names : List String} {t : AliasTable} {source rest : σ}
    (h : (ofNames policy names).Gives source t rest)
    (hnames : ∀ name ∈ names, ∀ c ∈ name.toList, isIdentifierChar c = true) (text : String) :
    t.substitute text = String.ofList ((runs text.toList).flatMap t.inPlaceOf) ∧
      ∀ order : List (String × String), order.Perm t.entries →
        order.foldl (fun text (name, word) ↦ Text.replaceSymbol text name word) text =
          t.substitute text := by
  obtain ⟨sound, -, told, known⟩ := sound_ofNames h
  have told : t.Told t.names := fun word hword n hn ↦ told word hword n ((known n).mp hn)
  have plain := sound.plain fun n hn ↦ hnames n ((known n).mp hn)
  have passes : ∀ order : List (String × String), order.Perm t.entries →
      order.foldl (fun text (name, word) ↦ Text.replaceSymbol text name word) text =
        String.ofList ((runs text.toList).flatMap t.inPlaceOf) := by
    intro order perm
    have pieces := runs_foldl (fun e he ↦ plain e (perm.mem_iff.mp he)) text
    rw [List.map_congr_left fun run _ ↦ sound.follow_eq told perm run] at pieces
    obtain ⟨-, -, whole⟩ := Text.exists_alternates_runs
      (order.foldl (fun text (name, word) ↦ Text.replaceSymbol text name word) text).toList
    rw [List.flatMap_def, ← pieces, whole, String.ofList_toList]
  have own : t.substitute text = _ := passes _ (List.mergeSort_perm t.entries before)
  exact ⟨own, fun order perm ↦ (passes order perm).trans own.symm⟩

/-- Of two names one begins with the other; the shorter one also stands at the end of a word. -/
theorem substitute_longer_name : ∃ t rest word,
    (ofNames ⟨8, 1000⟩ ["R_1", "R_12"]).Gives (Random.ChaCha.ofSeed 7) t rest ∧
      t.alias? "R_12" = some word ∧
      t.substitute "xR_1+R_12" = String.ofList ("xR_1+".toList ++ word.toList) := by
  obtain ⟨t, rest, gives, known⟩ : ∃ t rest,
      (ofNames ⟨8, 1000⟩ ["R_1", "R_12"]).Gives (Random.ChaCha.ofSeed 7) t rest ∧
        (t.names == ["R_1", "R_12"]) = true := Trial.exists_gives_of_any (by decide +kernel)
  rw [beq_iff_eq] at known
  obtain ⟨word, own⟩ := Option.isSome_iff_exists.mp
    (isSome_alias?_iff.mpr (known ▸ by decide : "R_12" ∈ t.names))
  have none (run : String) (h : run ∉ ["R_1", "R_12"]) : t.alias? run = none :=
    alias?_eq_none_iff.mpr (known ▸ h)
  refine ⟨t, rest, word, gives, own, ?_⟩
  have chars : ∀ name ∈ ["R_1", "R_12"], ∀ c ∈ name.toList, isIdentifierChar c = true := by
    rintro name hname
    rcases (by simpa using hname : name = "R_1" ∨ name = "R_12") with rfl | rfl
    · exact List.all_eq_true.mp (by decide)
    · exact List.all_eq_true.mp (by decide)
  have pieces : runs "xR_1+R_12".toList = ["xR_1".toList, "+".toList, "R_12".toList] := by decide
  rw [(substitute_eq_flatMap_runs gives chars _).1, pieces]
  simp [inPlaceOf, own, none]

end AliasTable

end FormulaQuiz
