import FormulaQuiz.Proofs.Taking

/-!
# The words that become parts of a statement

A form of its own begins with a word where an operand may begin.  So if the words at such places are
known, it is known that there are forms, and the statement that is read fits.  What is read of the
terms in a statement is taken for granted here: it is what `Readers.Read` says.
-/

namespace FormulaQuiz.Formula.Parser

variable {v : Vocabulary} {free : Bool}

/-! ## Terms in terms -/

/-- Where an operand may begin a term is read that fits; after it anything goes. -/
def Reads (v : Vocabulary) (p : Parser Term) : Prop :=
  Meets (Orderly v true) p fun t rest ↦ t.Fits v ∧ Orderly v false rest

/-- The same of one of a sequence, which may be a new variable. -/
def ReadsStatement (v : Vocabulary) (p : Parser Term) : Prop :=
  Meets (Orderly v true) p fun t rest ↦ t.FitsAs v true ∧ Orderly v false rest

theorem Reads.readsStatement {p : Parser Term} (h : Reads v p) : ReadsStatement v p :=
  Meets.imp h fun _ _ ht ↦ ⟨ht.1.fitsAs, ht.2⟩

/-- Terms are read so in all formulas and functions. -/
def Readers.Read (v : Vocabulary) (read : Readers) : Prop :=
  ∀ mode : Mode, mode.context ≠ .script → Reads v (read.expression mode) ∧
    (mode.outermost = false → ReadsStatement v (read.statement mode))

theorem meets_items {item : Parser Term} (h : Reads v item) (close : Token) (count : ℕ) :
    Meets (Orderly v true) (items item close count) fun ts rest ↦
      Term.FitsAll v ts ∧ Orderly v false rest := by
  induction count with
  | zero => exact meets_failure
  | succ count ih =>
    refine (meets_accept close).bind fun closes ↦ ?_
    cases closes with
    | true => exact meets_pure fun _ hrest ↦ ⟨trivial, hrest.mono⟩
    | false =>
      refine Meets.bind h fun t ↦ Meets.of_and fun ht ↦ (meets_accept .comma).bind fun more ↦ ?_
      cases more with
      | true =>
        exact ih.bind fun ts ↦ meets_pure fun _ hts ↦
          ⟨⟨ht, hts.1⟩, hts.2⟩
      | false =>
        exact (meets_expect close).bind fun _ ↦ meets_pure fun _ hrest ↦
          ⟨⟨ht, trivial⟩, hrest.mono⟩

theorem meets_entries {item : Parser Term} (h : Reads v item) (count : ℕ) (seen : List String) :
    Meets (Orderly v true) (entries item count seen) fun entries rest ↦
      Term.FitsAll v entries.2 ∧ Orderly v false rest := by
  induction count generalizing seen with
  | zero => exact meets_failure
  | succ count ih =>
    refine (meets_accept .closeBrace).bind fun closes ↦ ?_
    cases closes with
    | true => exact meets_pure fun _ hrest ↦ ⟨trivial, hrest.mono⟩
    | false =>
      refine meets_take.bind fun token ↦ ?_
      extract_lets next
      have hnext : ∀ key, Meets (Orderly v true) (next key) fun entries rest ↦
          Term.FitsAll v entries.2 ∧ Orderly v false rest := by
        intro key
        refine meets_guard fun _ ↦ (meets_expect .colon).bind fun _ ↦
          Meets.bind h fun t ↦ Meets.of_and fun ht ↦ (meets_accept .comma).bind fun more ↦ ?_
        cases more with
        | true =>
          exact (ih _).bind fun _ ↦ meets_pure fun _ hts ↦
            ⟨⟨ht, hts.1⟩, hts.2⟩
        | false =>
          exact (meets_expect .closeBrace).bind fun _ ↦ meets_pure fun _ hrest ↦
            ⟨⟨ht, trivial⟩, hrest.mono⟩
      cases token with
      | word key =>
        dsimp only
        split
        · exact hnext key
        · exact meets_failure
      | text key => exact hnext key
      | _ => exact meets_failure

theorem meets_parameters (count : ℕ) (seen : List String) :
    Meets (Orderly v true) (parameters count seen) fun _ rest ↦ Orderly v true rest := by
  induction count generalizing seen with
  | zero => exact meets_failure
  | succ count ih =>
    refine (meets_accept (.operator .pipe)).bind fun closes ↦ ?_
    cases closes with
    | true => exact meets_pure fun _ hrest ↦ hrest
    | false =>
      refine meets_name.bind fun parameter ↦ meets_guard fun _ ↦
        (meets_accept .comma).bind fun more ↦ ?_
      cases more with
      | true => exact (ih _).bind fun _ ↦ meets_pure fun _ hrest ↦ hrest
      | false =>
        exact (meets_expect (.operator .pipe)).bind fun _ ↦ meets_pure fun _ hrest ↦ hrest

section Readers

variable {read : Readers} {count : ℕ} {mode : Mode} (hread : read.Read v)
include hread

theorem reads_possibleStatement (hmode : mode.context ≠ .script)
    (houter : mode.outermost = false) : ReadsStatement v (possibleStatement read mode) := by
  refine meets_peek fun t? ↦ Meets.of_imp ?_ fun _ h ↦ h.2
  split
  · exact meets_pure fun _ hrest ↦ ⟨trivial, hrest.mono⟩
  · refine (meets_accept .semicolon).bind fun ends ↦ ?_
    cases ends with
    | true => exact meets_pure fun _ hrest ↦ ⟨trivial, hrest.mono⟩
    | false => exact (hread mode hmode).2 houter

theorem reads_expressionStatement (hmode : mode.context ≠ .script) :
    Reads v (expressionStatement read mode) := by
  refine meets_deeper 1 hmode fun mode hmode ↦ ?_
  refine Meets.bind (hread mode hmode).1 fun t ↦ Meets.of_and fun ht ↦ ?_
  refine meets_peek fun t? ↦ ?_
  extract_lets next
  have hnone : Meets (Orderly v false) (next none) fun t rest ↦
      t.Fits v ∧ Orderly v false rest := meets_pure fun _ hrest ↦ ⟨ht, hrest⟩
  have hsome : ∀ token op, token.bars = false →
      Meets (fun ts ↦ ts.head? = some token ∧ Orderly v false ts) (next (some op)) fun t rest ↦
        t.Fits v ∧ Orderly v false rest := by
    intro token op hbars
    refine meets_take_head.bind fun _ ↦ ?_
    rw [hbars]
    exact Meets.bind (hread mode hmode).1 fun value ↦ Meets.of_and fun hvalue ↦ meets_guard fun _ ↦
      meets_pure fun _ hrest ↦ ⟨⟨ht, hvalue⟩, hrest⟩
  split
  · exact hsome _ _ rfl
  · exact hsome _ _ rfl
  · exact hnone.of_imp fun _ h ↦ h.2

theorem reads_block (hmode : mode.context ≠ .script) :
    Meets (Orderly v free) (block read count mode) fun t rest ↦
      t.Fits v ∧ Orderly v false rest := by
  refine (meets_expect .openBrace).bind fun _ ↦ ?_
  rw [if_neg hmode]
  refine Meets.bind (reads_expressionStatement hread hmode) fun t ↦ Meets.of_and fun ht ↦ ?_
  exact (meets_expect .closeBrace).bind fun _ ↦ meets_pure fun _ hrest ↦
    ⟨⟨ht, trivial⟩, hrest.mono⟩

/-! ### Forms of their own -/

theorem reads_condition (hmode : mode.context ≠ .script) : Reads v (condition read mode) := by
  refine (meets_refuse .openBrace).bind fun _ ↦ Meets.bind (hread mode hmode).1 fun t ↦ ?_
  refine Meets.of_and fun ht ↦ meets_guard fun _ ↦ (meets_refuse .equals).bind fun _ ↦ ?_
  exact meets_pure fun _ hrest ↦ ⟨ht, hrest⟩

section Forms

variable (hforms : v.forms)
include hforms

theorem reads_conditional (count : ℕ) (hmode : mode.context ≠ .script) :
    Reads v (conditional read count mode) := by
  induction count generalizing mode with
  | zero => exact meets_failure
  | succ count ih =>
    refine meets_deeper 1 hmode fun mode hmode ↦ Meets.bind (reads_condition hread hmode) fun test ↦
      Meets.of_and fun htest ↦ Meets.bind (reads_block hread hmode) fun yes ↦
        Meets.of_and fun hyes ↦ (meets_accept (.word "else")).bind fun goesOn ↦ ?_
    cases goesOn with
    | false => exact meets_pure fun _ hrest ↦ ⟨⟨hforms, htest, hyes, trivial⟩, hrest⟩
    | true =>
      refine (meets_accept (.word "if")).bind fun again ↦ ?_
      have hlast : ∀ no : Term, Meets (fun rest ↦ no.Fits v ∧ Orderly v false rest)
          (pure (Term.conditional test yes no)) fun t rest ↦ t.Fits v ∧ Orderly v false rest :=
        fun no ↦ meets_pure fun _ hno ↦ ⟨⟨hforms, htest, hyes, hno.1⟩, hno.2⟩
      cases again with
      | true => exact Meets.bind (ih hmode) hlast
      | false => exact Meets.bind (reads_block hread hmode) hlast

omit hforms in
theorem meets_patterns (count : ℕ) (hmode : mode.context ≠ .script) :
    Meets (Orderly v true) (patterns read count mode) fun ts rest ↦
      Term.FitsAll v ts ∧ Orderly v false rest := by
  induction count with
  | zero => exact meets_failure
  | succ count ih =>
    have hpattern : Reads v (read.expression { mode with pipes := false }) :=
      (hread { mode with pipes := false } hmode).1
    refine Meets.bind hpattern fun t ↦ Meets.of_and fun ht ↦ meets_guard fun _ ↦
      (meets_accept (.operator .pipe)).bind fun more ↦ ?_
    cases more with
    | true => exact ih.bind fun ts ↦ meets_pure fun _ hts ↦ ⟨⟨ht, hts.1⟩, hts.2⟩
    | false => exact meets_pure fun _ hrest ↦ ⟨⟨ht, trivial⟩, hrest⟩

omit hforms in
/-- A comma or the end of the selection must follow an action, since the action is no block. -/
theorem meets_action (hmode : mode.context ≠ .script) :
    Meets (Orderly v free) (action read mode) fun p rest ↦
      (p.1.Fits v ∧ p.2 = true) ∧ Orderly v false rest := by
  refine (meets_expect .arrow).bind fun _ ↦ ?_
  rw [if_neg hmode]
  exact Meets.bind (hread mode hmode).1 fun t ↦ meets_pure fun _ ht ↦ ⟨⟨ht.1, rfl⟩, ht.2⟩

omit hread hforms in
theorem meets_endCase :
    Meets (Orderly v false) (endCase true) fun _ rest ↦ Orderly v true rest := by
  refine (meets_accept .comma).bind fun more ↦ ?_
  cases more with
  | true => exact meets_pure fun _ hrest ↦ hrest
  | false =>
    refine meets_peek fun t? ↦ ?_
    rw [guard]
    split
    next hend =>
      refine meets_pure fun ts hts ↦ ?_
      have hhead : (ts.head? == some Token.closeBrace) = true := by rw [hts.1]; exact hend
      exact Orderly.of_head? hts.2 hhead nofun
    next => exact meets_failure

omit hforms in
/-- The action of a case, and the cases after it. -/
theorem meets_caseAction (hmode : mode.context ≠ .script) {values : List Term} {test : Term}
    {more : Parser (List Case × Option Term)} (hvalues : Term.FitsAll v values) (htest : test.Fits v)
    (hmore : Meets (Orderly v true) more fun p rest ↦
      (Case.FitsAll v p.1 ∧ ∀ t ∈ p.2, t.Fits v) ∧ Orderly v false rest) :
    Meets (Orderly v false) (do
        let (t, needed) ← action read mode
        endCase needed
        let (rest, otherwise?) ← more
        return (Case.mk values test t :: rest, otherwise?)) fun p rest ↦
      (Case.FitsAll v p.1 ∧ ∀ t ∈ p.2, t.Fits v) ∧ Orderly v false rest := by
  refine Meets.bind (meets_action hread hmode) fun p ↦ Meets.of_and fun hp ↦ ?_
  obtain ⟨t, needed⟩ := p
  obtain ⟨ht, rfl⟩ := hp
  refine meets_endCase.bind fun _ ↦ hmore.bind fun q ↦ meets_pure fun _ hq ↦ ?_
  exact ⟨⟨⟨⟨hvalues, htest, ht⟩, hq.1.1⟩, hq.1.2⟩, hq.2⟩

omit hforms in
theorem meets_cases (count : ℕ) (hmode : mode.context ≠ .script) {otherwise? : Option Term}
    (hotherwise : ∀ t ∈ otherwise?, t.Fits v) :
    Meets (Orderly v true) (cases read count mode otherwise?) fun p rest ↦
      (Case.FitsAll v p.1 ∧ ∀ t ∈ p.2, t.Fits v) ∧ Orderly v false rest := by
  induction count generalizing otherwise? with
  | zero => exact meets_failure
  | succ count ih =>
    refine (meets_accept .closeBrace).bind fun closes ↦ ?_
    cases closes with
    | true => exact meets_pure fun _ hrest ↦ ⟨⟨trivial, hotherwise⟩, hrest.mono⟩
    | false =>
      refine meets_guard fun _ ↦ (meets_accept (.word "_")).bind fun last ↦ ?_
      cases last with
      | true =>
        refine Meets.bind (meets_action hread hmode) fun p ↦ Meets.of_and fun hp ↦ ?_
        obtain ⟨t, needed⟩ := p
        obtain ⟨ht, rfl⟩ := hp
        exact meets_endCase.bind fun _ ↦ ih fun u hu ↦ Option.some.inj hu ▸ ht
      | false =>
        refine Meets.bind (meets_patterns hread count hmode) fun values ↦
          Meets.of_and fun hvalues ↦ (meets_accept (.word "if")).bind fun guarded ↦ ?_
        cases guarded with
        | true =>
          exact Meets.bind (reads_condition hread hmode) fun test ↦ Meets.of_and fun htest ↦
            meets_caseAction hread hmode hvalues htest (ih hotherwise)
        | false => exact meets_caseAction hread hmode hvalues trivial (ih hotherwise)

theorem reads_selection (hmode : mode.context ≠ .script) :
    Reads v (selection read count mode) := by
  refine meets_deeper 1 hmode fun mode hmode ↦ Meets.bind (hread mode hmode).1 fun subject ↦
    Meets.of_and fun hsubject ↦ (meets_expect .openBrace).bind fun _ ↦ ?_
  have hnone : ∀ t ∈ (none : Option Term), t.Fits v := fun t ht ↦ nomatch ht
  refine (meets_cases hread count hmode hnone).bind fun p ↦ meets_pure fun _ hp ↦ ?_
  obtain ⟨⟨hcases, hotherwise⟩, hrest⟩ := hp
  refine ⟨⟨hforms, hsubject, hcases, ?_⟩, hrest⟩
  cases h : p.2 with
  | none => trivial
  | some t => exact hotherwise t h

theorem reads_whileLoop (guarded : Bool) (hmode : mode.context ≠ .script) :
    Reads v (whileLoop read count guarded mode) := by
  refine meets_deeper 1 hmode fun mode hmode ↦ ?_
  have hnext : ∀ {free : Bool} {test : Term}, test.Fits v → Meets (Orderly v free) (do
      return Term.whileLoop test (← block read count mode.looping)) fun t rest ↦
        t.Fits v ∧ Orderly v false rest := by
    intro free test htest
    have hlooping : mode.looping.context ≠ .script := hmode
    exact Meets.bind (reads_block hread hlooping) fun body ↦ meets_pure fun _ hbody ↦
      ⟨⟨hforms, htest, hbody.1⟩, hbody.2⟩
  cases guarded with
  | true =>
    exact Meets.bind (reads_condition hread hmode) fun test ↦ Meets.of_and fun htest ↦ hnext htest
  | false => exact hnext trivial

theorem reads_doLoop (hmode : mode.context ≠ .script) : Reads v (doLoop read count mode) := by
  refine meets_deeper 1 hmode fun mode hmode ↦ ?_
  have hlooping : mode.looping.context ≠ .script := hmode
  refine Meets.bind (reads_block hread hlooping) fun body ↦ Meets.of_and fun hbody ↦
    (meets_accept (.word "while")).bind fun goesOn ↦ ?_
  have hlast : Meets (Orderly v true) (do
      return Term.doLoop body (← condition read mode) goesOn) fun t rest ↦
        t.Fits v ∧ Orderly v false rest :=
    Meets.bind (reads_condition hread hmode) fun test ↦ meets_pure fun _ htest ↦
      ⟨⟨hforms, hbody, htest.1⟩, htest.2⟩
  cases goesOn with
  | true => exact hlast
  | false => exact (meets_expect (.word "until")).bind fun _ ↦ hlast

theorem reads_forLoop (hmode : mode.context ≠ .script) : Reads v (forLoop read count mode) := by
  refine meets_deeper 1 hmode fun mode hmode ↦ (meets_accept .opening).bind fun pair ↦ ?_
  have hnext : ∀ (free : Bool) (names : List String), Meets (Orderly v free) (do
      expect (.word "in")
      refuse .openBrace
      let items ← read.expression mode
      guard (!items.isSingle)
      let body ← block read count (mode.declaring (names.map (·, false))).looping
      return Term.forLoop names items body) fun t rest ↦ t.Fits v ∧ Orderly v false rest := by
    intro free names
    refine (meets_expect (.word "in")).bind fun _ ↦ (meets_refuse .openBrace).bind fun _ ↦
      Meets.bind (hread mode hmode).1 fun items ↦ Meets.of_and fun hitems ↦ meets_guard fun _ ↦ ?_
    have hbody : Meets (Orderly v false)
        (block read count (mode.declaring (names.map (·, false))).looping) fun t rest ↦
          t.Fits v ∧ Orderly v false rest := reads_block hread hmode
    exact hbody.bind fun body ↦ meets_pure fun _ hbody ↦ ⟨⟨hforms, hitems, hbody.1⟩, hbody.2⟩
  cases pair with
  | true =>
    refine meets_name.bind fun item ↦ (meets_expect .comma).bind fun _ ↦ ?_
    refine meets_name.bind fun counter ↦ meets_guard fun _ ↦ ?_
    exact (meets_expect .closing).bind fun _ ↦ hnext false [item, counter]
  | false => exact meets_name.bind fun item ↦ hnext true [item]

theorem reads_attempt (hmode : mode.context ≠ .script) : Reads v (attempt read count mode) := by
  refine meets_deeper 1 hmode fun mode hmode ↦ Meets.bind (reads_block hread hmode) fun body ↦
    Meets.of_and fun hbody ↦ (meets_expect (.word "catch")).bind fun _ ↦
      (meets_accept .opening).bind fun named ↦ ?_
  have hnext : ∀ (free : Bool) (failed? : Option String), Meets (Orderly v free) (do
      let handler ← block read count (mode.declaring (failed?.toList.map (·, false)))
      return Term.attempt body failed? handler) fun t rest ↦ t.Fits v ∧ Orderly v false rest := by
    intro free failed?
    have hhandler : Meets (Orderly v free)
        (block read count (mode.declaring (failed?.toList.map (·, false)))) fun t rest ↦
          t.Fits v ∧ Orderly v false rest := reads_block hread hmode
    exact hhandler.bind fun handler ↦ meets_pure fun _ hhandler ↦
      ⟨⟨hforms, hbody, hhandler.1⟩, hhandler.2⟩
  cases named with
  | true =>
    refine meets_name.bind fun failed ↦ (meets_expect .closing).bind fun _ ↦ ?_
    exact hnext false (some failed)
  | false => exact hnext true none

theorem reads_declaration (constant : Bool) (hmode : mode.context ≠ .script) :
    ReadsStatement v (declaration read constant mode) := by
  refine meets_deeper 1 hmode fun mode hmode ↦ meets_name.bind fun declared ↦
    (meets_accept .equals).bind fun valued ↦ ?_
  cases valued with
  | true =>
    exact Meets.bind (hread mode hmode).1 fun value ↦ meets_pure fun _ hvalue ↦
      ⟨⟨rfl, hforms, hvalue.1⟩, hvalue.2⟩
  | false => exact meets_pure fun _ hrest ↦ ⟨⟨rfl, hforms, trivial⟩, hrest.mono⟩

omit hforms in
theorem reads_possibleValue (outermost : Bool) (hmode : mode.context ≠ .script) :
    Reads v (possibleValue read outermost mode) := by
  have hatEnd : Meets (Orderly v true) (atEnd outermost) fun _ rest ↦ Orderly v true rest := by
    refine meets_peek fun t? ↦ ?_
    split <;> exact meets_pure fun _ h ↦ h.2
  refine hatEnd.bind fun ends ↦ ?_
  cases ends with
  | true => exact meets_pure fun _ hrest ↦ ⟨trivial, hrest.mono⟩
  | false => exact meets_deeper 1 hmode fun mode hmode ↦ (hread mode hmode).1

/-- What follows a word of a form of its own; in blocks nothing is offered to other scripts. -/
theorem reads_wordStatement {word : String} {p : Parser Term}
    (h : wordStatement? read count word mode = some p) (hmode : mode.context ≠ .script)
    (houter : word = "export" → mode.outermost = false) : ReadsStatement v p := by
  have hdeeper : ∀ {reader : Mode → Parser Term},
      (∀ {mode : Mode}, mode.context ≠ .script → Reads v (reader mode)) →
        ReadsStatement v (do reader (← mode.deeper 1)) := fun hreader ↦
    Reads.readsStatement (meets_deeper 1 hmode fun _ hmode ↦ hreader hmode)
  unfold wordStatement? at h
  split at h <;> cases h
  · exact hdeeper (reads_conditional hread hforms count)
  · exact hdeeper (reads_selection hread hforms)
  · exact hdeeper (reads_whileLoop hread hforms true)
  · exact hdeeper (reads_whileLoop hread hforms false)
  · exact hdeeper (reads_doLoop hread hforms)
  · exact hdeeper (reads_forLoop hread hforms)
  · exact meets_guard fun _ ↦ meets_pure fun _ hrest ↦ ⟨hforms, hrest.mono⟩
  · exact meets_guard fun _ ↦ Meets.bind (reads_possibleValue hread false hmode) fun t ↦
      meets_pure fun _ ht ↦ ⟨⟨hforms, ht.1⟩, ht.2⟩
  · exact Meets.bind (reads_possibleValue hread mode.outermost hmode) fun t ↦
      meets_pure fun _ ht ↦ ⟨⟨hforms, ht.1⟩, ht.2⟩
  · exact Meets.bind (reads_possibleValue hread mode.outermost hmode) fun t ↦
      meets_pure fun _ ht ↦ ⟨⟨hforms, ht.1⟩, ht.2⟩
  · exact hdeeper (reads_attempt hread hforms)
  · exact meets_deeper 1 hmode fun _ hmode ↦ reads_declaration hread hforms false hmode
  · exact meets_deeper 1 hmode fun _ hmode ↦ reads_declaration hread hforms true hmode
  · refine meets_deeper 2 hmode fun mode hmode ↦ Meets.bind (hread mode hmode).1 fun path ↦
      Meets.of_and fun hpath ↦ (meets_accept (.word "as")).bind fun named ↦ ?_
    cases named with
    | true => exact meets_name.bind fun _ ↦ meets_pure fun _ hrest ↦ ⟨⟨hforms, hpath⟩, hrest.mono⟩
    | false => exact meets_pure fun _ hrest ↦ ⟨⟨hforms, hpath⟩, hrest⟩
  · refine meets_option fun mode' hmode' ↦ meets_guard fun houtermost ↦ ?_
    rw [(of_deeper hmode').2, houter rfl] at houtermost
    exact Bool.noConfusion houtermost

end Forms

omit hread in
theorem mem_formWords_of_wordStatement? {word : String} {p : Parser Term}
    (h : wordStatement? read count word mode = some p) : word ∈ formWords := by
  unfold wordStatement? at h
  split at h <;> first | decide | exact nomatch h

theorem reads_statementStep (hmode : mode.context ≠ .script) (houter : mode.outermost = false) :
    ReadsStatement v (statementStep read count mode) := by
  have hexpression : ∀ {P : List Token → Prop}, (∀ ts, P ts → Orderly v true ts) →
      Meets P (expressionStatement read mode) fun t rest ↦
        t.FitsAs v true ∧ Orderly v false rest := fun hP ↦
    (reads_expressionStatement hread hmode).readsStatement.of_imp hP
  refine meets_peek fun t? ↦ ?_
  split
  · refine meets_deeper 1 hmode fun mode hmode ↦ ?_
    exact ((reads_block hread hmode).of_imp fun _ h ↦ h.2).imp fun _ _ ht ↦ ⟨ht.1.fitsAs, ht.2⟩
  next word =>
    split
    next p hp =>
      -- the word is where an operand may begin, so it may begin a form
      have hform := mem_formWords_of_wordStatement? hp
      have htake : Meets (fun ts ↦ ts.head? = some (.word word) ∧ Orderly v true ts) take
          fun _ rest ↦ v.forms ∧ Orderly v true rest := by
        rintro (_ | ⟨token, ts⟩) ⟨hhead, hts⟩ _ _ ⟨⟩
        cases hhead
        exact ⟨(hts.1 word rfl rfl).form hform, hts.2.2⟩
      exact htake.bind fun _ ↦ Meets.of_and fun hforms ↦
        reads_wordStatement hread hforms hp hmode fun _ ↦ houter
    next => exact hexpression fun _ h ↦ h.2
  · exact hexpression fun _ h ↦ h.2

end Readers

end FormulaQuiz.Formula.Parser
