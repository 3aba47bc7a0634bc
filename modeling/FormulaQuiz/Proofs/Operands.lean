import FormulaQuiz.Proofs.Statements

/-!
# The words that become parts of a term

A word is read as a variable, or as a function that is called, only where an operand may begin, and
as a method only after a point.  So if the words at such places are known, the term that is read
fits, whatever its readers are in each other.
-/

namespace FormulaQuiz.Formula

namespace Parser

/-- A term fits before some tokens: it may also be a word that a parenthesis behind it calls. -/
def FitsBefore (v : Vocabulary) (t : Term) (ts : List Token) : Prop :=
  t.Fits v ∨ ∃ w, t = .variable w ∧ v.function w ∧ ts.head? = some .opening

section Readers

variable {v : Vocabulary} {read : Readers} {count : ℕ} {mode : Mode} (hread : read.Read v)
include hread

theorem reads_closure (hasParameters : Bool) :
    Reads v (closure read count hasParameters mode) := by
  refine meets_guard fun hmode ↦ ?_
  extract_lets next
  have hnext : ∀ names, Meets (Orderly v true) (next names) fun t rest ↦
      t.Fits v ∧ Orderly v false rest := by
    refine fun names ↦ meets_option fun mode' hmode' ↦ ?_
    obtain ⟨hcontext, houter⟩ := of_deeper hmode'
    have hclosure : mode'.context ≠ .script := hcontext ▸ nofun
    exact Meets.bind (reads_possibleStatement hread hclosure houter) fun body ↦
      Meets.of_and fun hbody ↦ meets_pure fun _ hrest ↦ ⟨⟨rfl, hbody⟩, hrest⟩
  cases hasParameters with
  | true => exact (meets_parameters count []).bind hnext
  | false => exact hnext []

theorem meets_templateParts (count : ℕ) (hmode : mode.context ≠ .script) :
    Meets (Orderly v true) (templateParts read count mode) fun ts rest ↦
      Term.FitsAll v ts ∧ Orderly v false rest := by
  induction count with
  | zero => exact meets_failure
  | succ count ih =>
    refine Meets.bind (reads_block hread hmode) fun t ↦ Meets.of_and fun ht ↦
      meets_take.bind fun token ↦ ?_
    cases token with
    | text content =>
      exact meets_pure fun _ hrest ↦ ⟨⟨ht, trivial, trivial⟩, hrest.mono⟩
    | templateText content =>
      exact ih.bind fun ts ↦ meets_pure fun _ hts ↦
        ⟨⟨ht, trivial, hts.1⟩, hts.2⟩
    | _ => exact meets_failure

theorem meets_arguments (hmode : mode.context ≠ .script) :
    Meets (Orderly v true) (arguments read count mode) fun ts rest ↦
      Term.FitsAll v ts ∧ Orderly v false rest := by
  refine (meets_accept .closing).bind fun closes ↦ ?_
  cases closes with
  | true => exact meets_pure fun _ hrest ↦ ⟨trivial, hrest⟩
  | false =>
    exact meets_deeper 1 hmode fun mode hmode ↦ meets_items (hread mode hmode).1 .closing count

theorem meets_indices (count : ℕ) (hmode : mode.context ≠ .script) (left? : Option Term)
    (optional : Bool) : Meets (Orderly v true) (indices read count mode left? optional)
      fun links rest ↦ Link.FitsAll v links ∧ Orderly v false rest := by
  induction count generalizing mode left? optional with
  | zero => exact meets_failure
  | succ count ih =>
    have hmore : ∀ (mode : Mode) (optional : Bool) (link : Link), mode.context ≠ .script →
        link.Fits v →
        Meets (Orderly v true) (do
            return link :: (← indices read count (← mode.deeper 1) none optional))
          fun links rest ↦ Link.FitsAll v links ∧ Orderly v false rest :=
      fun mode optional link hmode hlink ↦ meets_deeper 1 hmode fun mode hmode ↦
        (ih hmode none optional).bind fun links ↦ meets_pure fun _ hlinks ↦
          ⟨⟨hlink, hlinks.1⟩, hlinks.2⟩
    refine meets_deeper 1 hmode fun mode' hmode' ↦ Meets.bind (hread mode' hmode').1 fun index ↦
      Meets.of_and fun hindex ↦ meets_guard fun _ ↦ (meets_expect .closeBracket).bind fun _ ↦
        (meets_accept .openBracket).bind fun opens ↦ ?_
    cases opens with
    | true => exact hmore mode false _ hmode hindex
    | false =>
      refine (meets_accept .optionalBracket).bind fun opens ↦ ?_
      cases opens with
      | true => exact hmore mode true _ hmode hindex
      | false =>
        exact meets_pure fun _ hrest ↦ ⟨⟨hindex, trivial⟩, hrest.mono⟩

theorem meets_links (count : ℕ) (hmode : mode.context ≠ .script) (left? : Option Term) :
    Meets (Orderly v false) (links read count mode left?) fun links rest ↦
      Link.FitsAll v links ∧ Orderly v false rest := by
  induction count generalizing mode left? with
  | zero => exact meets_failure
  | succ count ih =>
    have hmore : ∀ (link : Link) {mode : Mode}, mode.context ≠ .script → link.Fits v →
        Meets (Orderly v false) (do return link :: (← links read count mode none))
          fun links rest ↦ Link.FitsAll v links ∧ Orderly v false rest :=
      fun link _ hmode hlink ↦ (ih hmode none).bind fun links ↦ meets_pure fun _ hlinks ↦
        ⟨⟨hlink, hlinks.1⟩, hlinks.2⟩
    refine meets_accept_point.bind fun points ↦ ?_
    cases points with
    | true =>
      refine meets_deeper 1 hmode fun mode hmode ↦ meets_take_method.bind fun token ↦ ?_
      cases token with
      | word part =>
        have hpart : ∀ ts : List Token, (∀ w, Token.word part = .word w →
            ts.head? = some .opening → v.method w) ∧ Orderly v true ts →
              ((ts.head? == some .opening) = true → v.method part) ∧ Orderly v true ts :=
          fun _ h ↦ ⟨fun hhead ↦ h.1 part rfl (head?_eq_opening_iff.mp hhead), h.2⟩
        refine (meets_accept_opening (P := (· = true → v.method part))).bind (fun calls ↦ ?_)
          |>.of_imp hpart
        cases calls with
        | true =>
          exact Meets.of_and fun hmethod ↦ meets_guard fun _ ↦
            Meets.bind (meets_arguments hread hmode) fun ts ↦ Meets.of_and fun hts ↦
              hmore (.method part ts) hmode ⟨hmethod rfl, hts⟩
        | false =>
          exact meets_guard fun _ ↦ (hmore (.property part) hmode trivial).of_imp fun _ h ↦ h.2.mono
      | _ => exact meets_failure
    | false =>
      have hparts : ∀ optional, Meets (Orderly v true) (do
            let parts ← indices read count (← mode.deeper 1) left? optional
            return parts ++ (← links read count mode none))
          fun links rest ↦ Link.FitsAll v links ∧ Orderly v false rest :=
        fun optional ↦ meets_deeper 1 hmode fun mode' hmode' ↦
          Meets.bind (meets_indices hread count hmode' left? optional) fun parts ↦
            Meets.of_and fun hparts ↦ (ih hmode none).bind fun links ↦ meets_pure fun _ hlinks ↦
              ⟨Link.fitsAll_append.mpr ⟨hparts, hlinks.1⟩,
                hlinks.2⟩
      refine (meets_accept .optionalBracket).bind fun optional ↦ ?_
      cases optional with
      | true => exact hparts true
      | false =>
        refine (meets_accept .openBracket).bind fun opens ↦ ?_
        cases opens with
        | true => exact hparts false
        | false => exact meets_pure fun _ hrest ↦ ⟨trivial, hrest⟩

theorem meets_wordOperand (word : String) (hmode : mode.context ≠ .script) :
    Meets (fun rest ↦ v.Admits word rest ∧ Orderly v true rest)
      (wordOperand read count word mode) fun t rest ↦
        (FitsBefore v t rest ∨ Stuck rest) ∧ Orderly v false rest := by
  have hpure : Meets (fun rest ↦ v.Admits word rest ∧ Orderly v true rest)
      (pure (.variable word)) fun t rest ↦
        (FitsBefore v t rest ∨ Stuck rest) ∧ Orderly v false rest := by
    refine meets_pure fun rest h ↦ ⟨?_, h.2.mono⟩
    rcases h.1.known with hvalue | hfunction | hstuck
    · exact .inl (.inl hvalue)
    · exact .inl (.inr ⟨word, rfl, hfunction⟩)
    · exact .inr hstuck
  -- the word of a form is where an operand may begin, so it may begin its form
  have hform : ∀ {p : Parser Term}, word ∈ formWords → (v.forms → Reads v p) →
      Meets (fun rest ↦ v.Admits word rest ∧ Orderly v true rest) p fun t rest ↦
        (FitsBefore v t rest ∨ Stuck rest) ∧ Orderly v false rest := by
    rintro p hword hp ts ⟨hadmits, hts⟩ t rest h
    obtain ⟨ht, hrest⟩ := hp (hadmits.form hword) hts h
    exact ⟨.inl (.inl ht), hrest⟩
  have hblock : ∀ {p : Parser Term}, Reads v p → Reads v (do return .block [← p]) := fun hp ↦
    Meets.bind hp fun t ↦ meets_pure fun _ ht ↦ ⟨⟨ht.1, trivial⟩, ht.2⟩
  unfold wordOperand
  split_ifs with htrue hfalse hif hswitch hthis hname hcallable
  · exact meets_pure fun _ h ↦ ⟨.inl (.inl trivial), h.2.mono⟩
  · exact meets_pure fun _ h ↦ ⟨.inl (.inl trivial), h.2.mono⟩
  · subst hif
    exact hform (by decide) fun hforms ↦ meets_deeper 1 hmode fun _ hmode ↦
      hblock (reads_conditional hread hforms count hmode)
  · subst hswitch
    exact hform (by decide) fun hforms ↦ meets_deeper 1 hmode fun _ hmode ↦
      hblock (reads_selection hread hforms hmode)
  · subst hthis
    exact meets_guard fun _ ↦ meets_pure fun _ h ↦
      ⟨.inl (.inl (h.1.form (by decide))), h.2.mono⟩
  · exact hpure
  · refine meets_peek fun t? ↦ ?_
    split
    · exact hpure.of_imp fun _ h ↦ h.2
    · exact hpure.of_imp fun _ h ↦ h.2
    · exact meets_failure
  · refine meets_guard fun h ↦ ?_
    have hloop : word ∈ ["while", "loop", "do", "for"] := List.contains_iff_mem.mp h.2
    simp only [List.mem_cons, List.not_mem_nil, or_false] at hloop
    obtain rfl | rfl | rfl | rfl := hloop
    · exact hform (by decide) fun hforms ↦ hblock
        (meets_deeper 1 hmode fun _ hmode ↦ reads_whileLoop hread hforms true hmode)
    · exact hform (by decide) fun hforms ↦ hblock
        (meets_deeper 1 hmode fun _ hmode ↦ reads_whileLoop hread hforms false hmode)
    · exact hform (by decide) fun hforms ↦ hblock
        (meets_deeper 1 hmode fun _ hmode ↦ reads_doLoop hread hforms hmode)
    · exact hform (by decide) fun hforms ↦ hblock
        (meets_deeper 1 hmode fun _ hmode ↦ reads_forLoop hread hforms hmode)

theorem meets_primary (hmode : mode.context ≠ .script) (token : Token) :
    Meets (fun rest ↦ (∀ w, token = .word w → v.Admits w rest) ∧
        Orderly v (!token.bars) rest)
      (primary read count mode token) fun t rest ↦
        (FitsBefore v t rest ∨ Stuck rest) ∧ Orderly v false rest := by
  have hreads : ∀ {p : Parser Term}, Reads v p →
      Meets (fun rest ↦ (∀ w, token = .word w → v.Admits w rest) ∧
          Orderly v true rest) p
        fun t rest ↦ (FitsBefore v t rest ∨ Stuck rest) ∧ Orderly v false rest :=
    fun h ↦ (h.of_imp fun _ hrest ↦ hrest.2).imp fun _ _ ht ↦ ⟨.inl (.inl ht.1), ht.2⟩
  cases token with
  | number x | integer n | text content | character c =>
    exact meets_pure fun _ hrest ↦ ⟨.inl (.inl trivial), hrest.2.mono⟩
  | templateText content =>
    exact hreads (meets_deeper 1 hmode fun mode hmode ↦
      (meets_templateParts hread count hmode).bind fun ts ↦ meets_pure fun _ hts ↦
        ⟨⟨trivial, hts.1⟩, hts.2⟩)
  | opening =>
    exact hreads (meets_deeper 1 hmode fun mode hmode ↦ Meets.bind (hread mode hmode).1 fun t ↦
      Meets.of_and fun ht ↦ (meets_expect .closing).bind fun _ ↦ meets_pure fun _ hrest ↦
        ⟨ht, hrest⟩)
  | openBracket =>
    exact hreads (meets_deeper 2 hmode fun mode hmode ↦
      (meets_items (hread mode hmode).1 .closeBracket count).bind fun ts ↦
        meets_pure fun _ hts ↦ hts)
  | openRecord =>
    exact hreads (meets_deeper 2 hmode fun mode hmode ↦
      (meets_entries (hread mode hmode).1 count []).bind fun entries ↦ meets_pure fun _ hts ↦ hts)
  | openBrace =>
    refine hreads (meets_guard fun _ ↦ meets_deeper 1 hmode fun mode hmode ts hts _ _ h ↦ ?_)
    have hwhole : Orderly v true (.openBrace :: ts) := ⟨nofun, nofun, hts⟩
    exact reads_block hread hmode hwhole h
  | operator op =>
    cases op with
    | either => exact hreads (reads_closure hread false)
    | pipe => exact hreads (reads_closure hread true)
    | _ => exact meets_failure
  | word w =>
    rintro ts ⟨hw, hts⟩
    exact meets_wordOperand hread w hmode ⟨hw w rfl, hts⟩
  | _ => exact meets_failure

theorem meets_called (count : ℕ) (hmode : mode.context ≠ .script) (t : Term) :
    Meets (fun rest ↦ FitsBefore v t rest ∧ Orderly v false rest) (called read count mode t)
      fun t rest ↦ t.Fits v ∧ Orderly v false rest := by
  induction count generalizing t with
  | zero => cases t <;> exact meets_failure
  | succ count ih =>
    have hforeign : ∀ path, (∃ w ∈ path.head?, v.value w) → Meets (Orderly v true)
        (do called read count mode (.foreign path (← name))) fun t rest ↦
          t.Fits v ∧ Orderly v false rest :=
      fun path hpath ↦ meets_name.bind fun word ↦ (ih (.foreign path word)).of_imp fun _ h ↦
        ⟨.inl hpath, h.mono⟩
    have hother : (∀ w, t ≠ .variable w) →
        Meets (fun rest ↦ FitsBefore v t rest ∧ Orderly v false rest) (pure t) fun t rest ↦
          t.Fits v ∧ Orderly v false rest := fun hne ↦
      meets_pure fun _ h ↦ ⟨h.1.resolve_right fun ⟨w, hw, _⟩ ↦ hne w hw, h.2⟩
    cases t with
    | «variable» word =>
      have hword : ∀ ts : List Token, FitsBefore v (.variable word) ts ∧ Orderly v false ts →
          (v.value word ∨ v.function word ∧ (ts.head? == some .opening) = true) ∧
            Orderly v false ts := by
        rintro ts ⟨hvalue | ⟨w, ⟨⟩, hfunction, hhead⟩, hts⟩
        · exact ⟨.inl hvalue, hts⟩
        · exact ⟨.inr ⟨hfunction, head?_eq_opening_iff.mpr hhead⟩, hts⟩
      refine (meets_accept_opening (P := fun calls ↦
        v.value word ∨ v.function word ∧ calls = true)).bind (fun calls ↦ ?_) |>.of_imp hword
      refine Meets.of_and fun hknown ↦ ?_
      cases calls with
      | true =>
        exact Meets.bind (meets_arguments hread hmode) fun ts ↦ Meets.of_and fun hts ↦
          meets_pure fun _ hrest ↦ ⟨⟨hknown.imp_right And.left, hts⟩, hrest⟩
      | false =>
        have hvalue : v.value word := hknown.resolve_right fun h ↦ Bool.false_ne_true h.2
        refine (meets_accept .bang).bind fun calls ↦ ?_
        cases calls with
        | true =>
          exact (meets_expect .opening).bind fun _ ↦ Meets.bind (meets_arguments hread hmode)
            fun ts ↦ Meets.of_and fun hts ↦ meets_pure fun _ hrest ↦ ⟨⟨.inl hvalue, hts⟩, hrest⟩
        | false =>
          refine (meets_accept .doubleColon).bind fun goesOn ↦ ?_
          cases goesOn with
          | true => exact hforeign [word] ⟨word, rfl, hvalue⟩
          | false => exact meets_pure fun _ hrest ↦ ⟨hvalue, hrest⟩
    | foreign path word =>
      refine Meets.of_imp (P := fun ts ↦ (∃ w ∈ path.head?, v.value w) ∧ Orderly v false ts) ?_
        fun _ h ↦ ⟨h.1.resolve_right fun ⟨_, hw, _⟩ ↦ (nomatch hw), h.2⟩
      refine Meets.of_and fun hpath ↦ (meets_accept .opening).bind fun calls ↦ ?_
      cases calls with
      | true =>
        exact Meets.bind (meets_arguments hread hmode) fun ts ↦ meets_pure fun _ hts ↦ hts
      | false =>
        refine (meets_refuse .bang).bind fun _ ↦ (meets_accept .doubleColon).bind fun goesOn ↦ ?_
        cases goesOn with
        | true =>
          obtain ⟨w, hw, hvalue⟩ := hpath
          refine hforeign (path ++ [word]) ⟨w, ?_, hvalue⟩
          rw [List.head?_append, Option.mem_def.mp hw, Option.some_or]
          rfl
        | false => exact meets_pure fun _ hrest ↦ ⟨hpath, hrest⟩
    | _ => exact hother nofun

omit hread in
theorem meets_called_stuck {t : Term} :
    Meets Stuck (called read count mode t) fun _ rest ↦ Stuck rest := by
  rintro _ ⟨ts, rfl⟩ t' rest h
  cases count with
  | zero => cases t <;> exact nomatch h
  | succ count =>
    cases t <;>
    · cases h
      exact List.prefix_append ..

omit hread in
theorem meets_links_stuck {left? : Option Term} :
    Meets Stuck (links read count mode left?) fun _ _ ↦ False := by
  rintro _ ⟨ts, rfl⟩ _ _ h
  cases count with
  | zero => exact nomatch h
  | succ count =>
    rw [links] at h
    generalize mode.deeper 1 = deeper at h
    cases deeper <;> exact nomatch h

theorem reads_operand (count : ℕ) (hmode : mode.context ≠ .script) :
    Reads v (operand read count mode) := by
  induction count generalizing mode with
  | zero => exact meets_failure
  | succ count ih =>
    refine meets_take_word.bind fun token ↦ ?_
    have hplain : Meets (fun rest ↦ (∀ w, token = .word w → v.Admits w rest) ∧
        Orderly v (!token.bars) rest) (do
          let t ← primary read count mode token
          let t ← called read count mode t
          return t.follow (← links read count mode (some t))) fun t rest ↦
        t.Fits v ∧ Orderly v false rest := by
      refine (meets_primary hread hmode token).bind fun t ↦ ?_
      rintro rest ⟨ht | hstuck, hrest⟩
      · refine Meets.bind (meets_called hread count hmode t) (fun t ↦ Meets.of_and fun ht ↦
          (meets_links hread count hmode (some t)).bind fun links ↦ meets_pure fun _ hlinks ↦ ?_)
          ⟨ht, hrest⟩
        exact ⟨Term.fits_follow.mpr ⟨ht, hlinks.1⟩, hlinks.2⟩
      · exact meets_called_stuck.bind (fun t ↦ meets_links_stuck.bind fun _ _ h ↦ h.elim) hstuck
    cases token with
    | sign minus =>
      refine (meets_deeper 1 hmode fun mode hmode ↦ Meets.bind (ih hmode) fun t ↦
        meets_pure fun _ ht ↦ ?_).of_imp fun _ h ↦ h.2
      exact ⟨Term.fits_withSign.mpr ht.1, ht.2⟩
    | bang =>
      exact (meets_deeper 1 hmode fun mode hmode ↦ Meets.bind (ih hmode) fun t ↦
        meets_pure fun _ ht ↦ ht).of_imp fun _ h ↦ h.2
    | _ => exact hplain

omit hread in
/-- An operator that is found is the token in front, after which an operand may begin. -/
theorem meets_nextOperator? (pipes : Bool) {P : List Token → Prop} :
    Meets P (nextOperator? pipes) fun op? rest ↦
      (op?.isSome = true → ∃ token, rest.head? = some token ∧ token.bars = false) ∧ P rest := by
  refine meets_peek fun t? ↦ ?_
  cases t? with
  | none => exact meets_pure fun _ h ↦ ⟨nofun, h.2⟩
  | some token =>
    have hbars : ∀ op, token.operator? = some op → token.bars = false := by
      intro op hop
      cases token <;> first | rfl | exact nomatch hop
    dsimp only
    split
    next heq =>
      split
      · exact meets_pure fun _ h ↦ ⟨fun _ ↦ ⟨token, h.1, hbars _ heq⟩, h.2⟩
      · exact meets_pure fun _ h ↦ ⟨nofun, h.2⟩
    next op? _ =>
      cases hop : token.operator? with
      | none => exact meets_pure fun _ h ↦ ⟨nofun, h.2⟩
      | some op => exact meets_pure fun _ h ↦ ⟨fun _ ↦ ⟨token, h.1, hbars op hop⟩, h.2⟩

theorem reads_operators (count : ℕ) (hmode : mode.context ≠ .script) (floor : ℕ) {left : Term}
    (hleft : left.Fits v) :
    Meets (Orderly v false) (operators read count mode floor left) fun t rest ↦
      t.Fits v ∧ Orderly v false rest := by
  induction count generalizing mode floor left with
  | zero => exact meets_failure
  | succ count ih =>
    refine (meets_nextOperator? mode.pipes).bind fun op? ↦ ?_
    cases op? with
    | none => exact meets_pure fun _ h ↦ ⟨hleft, h.2⟩
    | some op =>
      dsimp only
      split
      · exact meets_pure fun _ h ↦ ⟨hleft, h.2⟩
      · rintro ts ⟨hfound, hts⟩
        obtain ⟨token, hhead, hbars⟩ := hfound rfl
        refine (meets_take_head.bind fun _ ↦ ?_) ⟨hhead, hts⟩
        rw [hbars]
        refine Meets.bind (reads_operand hread count hmode) fun right ↦ Meets.of_and fun hright ↦
          (meets_nextOperator? true).bind fun next? ↦ ?_
        have hnext : ∀ right : Term, right.Fits v →
            Meets (Orderly v false) (do
                let whole ← Term.combine? op left right
                operators read count (← mode.deeper 1) floor whole) fun t rest ↦
              t.Fits v ∧ Orderly v false rest := by
          intro right hright
          refine meets_option fun whole hwhole ↦ meets_deeper 1 hmode fun mode hmode ↦
            ih hmode floor ?_
          rw [Term.combine?] at hwhole
          split at hwhole
          · exact nomatch hwhole
          · cases hwhole
            exact ⟨hleft, hright⟩
        split
        · exact (meets_deeper 1 hmode fun mode hmode ↦ Meets.bind (ih hmode op.precedence hright)
            fun right ↦ Meets.of_and fun hright ↦ hnext right hright).of_imp fun _ h ↦ h.2
        · exact (hnext right hright).of_imp fun _ h ↦ h.2

theorem reads_expressionStep (hmode : mode.context ≠ .script) :
    Reads v (expressionStep read count mode) :=
  meets_deeper 1 hmode fun _ hmode ↦ Meets.bind (reads_operand hread count hmode) fun _ ↦
    Meets.of_and fun ht ↦ reads_operators hread count hmode 1 ht

end Readers

/-- By induction on the number of tokens that may be read. -/
theorem read_expression_statement (v : Vocabulary) (count : ℕ) :
    Readers.Read v ⟨expression count, statement count⟩ := by
  induction count with
  | zero => exact fun _ _ ↦ ⟨meets_failure, fun _ ↦ meets_failure⟩
  | succ count ih =>
    exact fun mode hmode ↦ ⟨reads_expressionStep ih hmode, reads_statementStep ih hmode⟩

end Parser

/-- A formula whose words are known where an operand may begin is read as a term that fits. -/
theorem Term.fits_ofFormula? {v : Vocabulary} {text : String} {tokens : List Token} {t : Term}
    (htokens : Token.ofText? text = some tokens) (horderly : Orderly v true tokens)
    (ht : Term.ofFormula? text = some t) : t.Fits v := by
  rw [Term.ofFormula?, Parser.whole?, htokens, Option.bind_eq_bind, Option.bind_some] at ht
  obtain ⟨⟨u, rest⟩, hread, ht⟩ := Option.bind_eq_some_iff.mp ht
  obtain ⟨-, -, hu⟩ := Option.bind_eq_some_iff.mp ht
  cases hu
  have hreads := Parser.read_expression_statement v (2 * tokens.length + 2) (.outer .formula) nofun
  exact (hreads.1 horderly hread).1

end FormulaQuiz.Formula
