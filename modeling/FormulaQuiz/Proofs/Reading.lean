import FormulaQuiz.Formula.Parser
import FormulaQuiz.Proofs.Renaming

/-!
# Reading formulas that differ in their aliases

Each reader, run on tokens that are alike, fails on both or reads two terms that are alike and
leaves tokens that are alike.  Authors' formulas have numbers, words, arithmetic and parentheses
only, so most forms of the script language are never begun.
-/

namespace FormulaQuiz.Formula

variable {ρ : Renaming}

/-- Whether an operator is one of arithmetic. -/
def Operator.isArithmetic : Operator → Bool
  | add | subtract | multiply | divide | modulo | power => true
  | _ => false

/-- Tokens of authors' formulas that differ in an alias, if at all. -/
inductive Token.Alike (ρ : Renaming) : Token → Token → Prop where
  | number (x : Float) : Alike ρ (.number x) (.number x)
  | word {u v : String} (h : ρ.Corresponds u v) : Alike ρ (.word u) (.word v)
  | sign (minus : Bool) : Alike ρ (.sign minus) (.sign minus)
  | operator {op : Operator} (h : op.isArithmetic = true) : Alike ρ (.operator op) (.operator op)
  | opening : Alike ρ .opening .opening
  | closing : Alike ρ .closing .closing
  | comma : Alike ρ .comma .comma

theorem Lexeme.Alike.token {a a' : Lexeme} (h : Lexeme.Alike ρ a a') :
    Token.Alike ρ a.token a'.token := by
  cases h with
  | name h => exact .word (.name h)
  | same ha =>
    cases a with
    | numeral text => exact .number _
    | word w =>
      obtain ⟨hkept, havoids⟩ := ha.word w rfl
      exact .word (.own hkept havoids)
    | power stars => exact .operator rfl
    | sign minus => exact .sign minus
    | operator symbol =>
      obtain ⟨op, hop⟩ := Option.isSome_iff_exists.mp ha.isProper
      have harithmetic : op.isArithmetic = true := by
        unfold productOperator? at hop
        split at hop <;> cases hop <;> rfl
      rw [Lexeme.token, hop]
      exact .operator harithmetic
    | opening => exact .opening
    | closing => exact .closing
    | comma => exact .comma
    | other text => exact ha.isProper.elim

/-- Terms that differ in aliases, with nothing in them but numbers, variables, arithmetic and
calls. -/
inductive Term.Alike (ρ : Renaming) : Term → Term → Prop where
  | number (x : Float) : Alike ρ (.number x) (.number x)
  | word {u v : String} (h : ρ.Corresponds u v) : Alike ρ (.variable u) (.variable v)
  | signed {t t' : Term} (minus : Bool) (h : Alike ρ t t') :
      Alike ρ (.signed minus t) (.signed minus t')
  | binary {op : Operator} {l l' r r' : Term} (hop : op.isArithmetic = true) (hl : Alike ρ l l')
      (hr : Alike ρ r r') : Alike ρ (.binary op l r) (.binary op l' r')
  | call {u v : String} {ts ts' : List Term} (h : ρ.Corresponds u v)
      (hts : List.Forall₂ (Alike ρ) ts ts') : Alike ρ (.call u false ts) (.call v false ts')

theorem Term.Alike.withSign {t t' : Term} (h : Term.Alike ρ t t') (minus : Bool) :
    Term.Alike ρ (t.withSign minus) (t'.withSign minus) := by
  cases h with
  | number x => exact .number _
  | word h => exact .signed minus (.word h)
  | signed minus' h => exact .signed minus (.signed minus' h)
  | binary hop hl hr => exact .signed minus (.binary hop hl hr)
  | call h hts => exact .signed minus (.call h hts)

namespace Parser

variable {α α' β β' : Type}

/-- Two readers, run on tokens that are alike, fail both or read what corresponds. -/
def Agrees (ρ : Renaming) (S : α → α' → Prop) (p : Parser α) (p' : Parser α') : Prop :=
  ∀ ⦃ts ts' : List Token⦄, List.Forall₂ (Token.Alike ρ) ts ts' →
    (p ts = none ∧ p' ts' = none) ∨
      ∃ a rest a' rest', p ts = some (a, rest) ∧ p' ts' = some (a', rest') ∧ S a a' ∧
        List.Forall₂ (Token.Alike ρ) rest rest'

section Agrees

variable {S : α → α' → Prop} {S' : β → β' → Prop} {p : Parser α} {p' : Parser α'}

theorem agrees_pure {a : α} {a' : α'} (h : S a a') : Agrees ρ S (pure a) (pure a') :=
  fun _ _ hts ↦ .inr ⟨_, _, _, _, rfl, rfl, h, hts⟩

theorem agrees_failure : Agrees ρ S failure failure := fun _ _ _ ↦ .inl ⟨rfl, rfl⟩

theorem bind_of_some {f : α → Parser β} {a : α} {ts rest : List Token} (h : p ts = some (a, rest)) :
    (p >>= f) ts = f a rest := by
  change (p ts).bind (fun x ↦ f x.1 x.2) = _
  rw [h, Option.bind_some]

theorem bind_of_none {f : α → Parser β} {ts : List Token} (h : p ts = none) :
    (p >>= f) ts = none := by
  change (p ts).bind (fun x ↦ f x.1 x.2) = _
  rw [h, Option.bind_none]

theorem Agrees.bind (h : Agrees ρ S p p') {f : α → Parser β} {f' : α' → Parser β'}
    (hf : ∀ a a', S a a' → Agrees ρ S' (f a) (f' a')) : Agrees ρ S' (p >>= f) (p' >>= f') := by
  intro ts ts' hts
  rcases h hts with ⟨hp, hp'⟩ | ⟨a, rest, a', rest', hp, hp', ha, hrest⟩
  · exact .inl ⟨bind_of_none hp, bind_of_none hp'⟩
  · rw [bind_of_some hp, bind_of_some hp']
    exact hf a a' ha hrest

theorem Agrees.deeper {mode : Mode} (n : ℕ) {f : Mode → Parser α} {f' : Mode → Parser α'}
    (hmode : mode.context = .formula)
    (hf : ∀ mode' : Mode, mode'.context = .formula → Agrees ρ S (f mode') (f' mode')) :
    Agrees ρ S (liftM (mode.deeper n) >>= f) (liftM (mode.deeper n) >>= f') := by
  rw [Mode.deeper]
  split
  · exact hf _ hmode
  · exact agrees_failure

end Agrees

/-! ## Taking tokens -/

theorem agrees_take : Agrees ρ (Token.Alike ρ) take take := by
  intro ts ts' hts
  cases hts with
  | nil => exact .inl ⟨rfl, rfl⟩
  | cons ha hts => exact .inr ⟨_, _, _, _, rfl, rfl, ha, hts⟩

/-- A token is taken from both or from none, if both have it in front or none. -/
theorem agrees_accept {token : Token}
    (h : ∀ a a', Token.Alike ρ a a' → (a == token) = (a' == token)) :
    Agrees ρ Eq (accept token) (accept token) := by
  intro ts ts' hts
  cases hts with
  | nil => exact .inr ⟨_, _, _, _, rfl, rfl, rfl, .nil⟩
  | @cons a a' ts ts' ha hts =>
    have haccept : ∀ (a : Token) ts, accept token (a :: ts) =
        if (a == token) = true then some (true, ts) else some (false, a :: ts) := by
      intro a ts
      change (if (a == token) = true then _ else _ : Parser Bool) (a :: ts) = _
      split <;> rfl
    rw [haccept, haccept, h a a' ha]
    split
    · exact .inr ⟨_, _, _, _, rfl, rfl, rfl, hts⟩
    · exact .inr ⟨_, _, _, _, rfl, rfl, rfl, .cons ha hts⟩

/-- No token of an author's formula is a certain other one. -/
theorem agrees_accept_absent {token : Token}
    (h : ∀ a a', Token.Alike ρ a a' → (a == token) = false ∧ (a' == token) = false) :
    Agrees ρ (fun b b' ↦ b = false ∧ b' = false) (accept token) (accept token) := by
  intro ts ts' hts
  rcases agrees_accept (fun a a' ha ↦ (h a a' ha).1.trans (h a a' ha).2.symm) hts with
    hnone | ⟨b, rest, b', rest', hb, hb', hbb', hrest⟩
  · exact .inl hnone
  · refine .inr ⟨b, rest, b', rest', hb, hb', ?_, hrest⟩
    subst hbb'
    rw [and_self]
    cases hts with
    | nil =>
      cases hb
      rfl
    | @cons a a' ts ts' ha hts =>
      change (if (a == token) = true then _ else _ : Parser Bool) (a :: ts) = _ at hb
      rw [(h a a' ha).1, if_neg Bool.false_ne_true] at hb
      cases hb
      rfl

theorem agrees_guard (b : Prop) [Decidable b] :
    Agrees ρ (fun _ _ ↦ True) (guard b) (guard b) := by
  by_cases h : b
  · rw [guard, if_pos h]
    exact agrees_pure trivial
  · rw [guard, if_neg h]
    exact agrees_failure

theorem agrees_expect {token : Token}
    (h : ∀ a a', Token.Alike ρ a a' → (a == token) = (a' == token)) :
    Agrees ρ (fun _ _ ↦ True) (expect token) (expect token) :=
  (agrees_accept h).bind fun b b' hb ↦ by
    subst hb
    exact agrees_guard _

theorem agrees_accept_opening : Agrees ρ Eq (accept .opening) (accept .opening) :=
  agrees_accept fun a a' ha ↦ by cases ha <;> rfl

theorem agrees_accept_closing : Agrees ρ Eq (accept .closing) (accept .closing) :=
  agrees_accept fun a a' ha ↦ by cases ha <;> rfl

theorem agrees_accept_comma : Agrees ρ Eq (accept .comma) (accept .comma) :=
  agrees_accept fun a a' ha ↦ by cases ha <;> rfl

theorem agrees_expect_closing :
    Agrees ρ (fun _ _ ↦ True) (expect .closing) (expect .closing) :=
  agrees_expect fun a a' ha ↦ by cases ha <;> rfl

/-! ## Operands -/

section Operands

variable {read : Readers} {count : ℕ} {mode : Mode}

/-- In a formula a word that evaluation does not keep to itself is a variable, or nothing. -/
theorem wordOperand_eq {w : String} (hmode : mode.context = .formula) (hw : isKept w = false) :
    wordOperand read count w mode = if isName w then pure (.variable w) else failure := by
  have hne : ∀ k, isKept k = true → w ≠ k := by
    rintro k hk rfl
    exact Bool.false_ne_true (hw.symm.trans hk)
  have hcallable : callableWords.contains w = false := by
    rw [isKept, Bool.or_eq_false_iff, Bool.or_eq_false_iff] at hw
    exact hw.1.2
  rw [wordOperand, if_neg (hne _ (by decide)), if_neg (hne _ (by decide)),
    if_neg (hne _ (by decide)), if_neg (hne _ (by decide)), if_neg (hne _ (by decide)), hcallable,
    if_neg Bool.false_ne_true, hmode]
  rfl

theorem agrees_wordOperand {u v : String} (hmode : mode.context = .formula)
    (h : ρ.Corresponds u v) :
    Agrees ρ (Term.Alike ρ) (wordOperand read count u mode) (wordOperand read count v mode) := by
  rw [wordOperand_eq hmode h.isKept.1, wordOperand_eq hmode h.isKept.2, h.isName_eq]
  split
  · exact agrees_pure (.word h)
  · exact agrees_failure

/-- Expressions are read alike in all modes of formulas. -/
def Readers.Agrees (ρ : Renaming) (read : Readers) : Prop :=
  ∀ mode : Mode, mode.context = .formula →
    Parser.Agrees ρ (Term.Alike ρ) (read.expression mode) (read.expression mode)

theorem agrees_items {item : Parser Term} (h : Agrees ρ (Term.Alike ρ) item item) (count : ℕ) :
    Agrees ρ (List.Forall₂ (Term.Alike ρ)) (items item .closing count)
      (items item .closing count) := by
  induction count with
  | zero => exact agrees_failure
  | succ count ih =>
    refine agrees_accept_closing.bind fun closes _ hcloses ↦ ?_
    subst hcloses
    cases closes with
    | true => exact agrees_pure .nil
    | false =>
      refine h.bind fun t t' ht ↦ agrees_accept_comma.bind fun goesOn _ hgoesOn ↦ ?_
      subst hgoesOn
      cases goesOn with
      | true => exact ih.bind fun ts ts' hts ↦ agrees_pure (.cons ht hts)
      | false => exact agrees_expect_closing.bind fun _ _ _ ↦ agrees_pure (.cons ht .nil)

variable (hread : read.Agrees ρ)
include hread

theorem agrees_arguments (hmode : mode.context = .formula) :
    Agrees ρ (List.Forall₂ (Term.Alike ρ)) (arguments read count mode)
      (arguments read count mode) := by
  refine agrees_accept_closing.bind fun closes _ hcloses ↦ ?_
  subst hcloses
  cases closes with
  | true => exact agrees_pure .nil
  | false => exact Agrees.deeper 1 hmode fun mode' hmode' ↦ agrees_items (hread mode' hmode') count

theorem agrees_primary {a a' : Token} (hmode : mode.context = .formula) (ha : Token.Alike ρ a a') :
    Agrees ρ (Term.Alike ρ) (primary read count mode a) (primary read count mode a') := by
  cases ha with
  | number x => exact agrees_pure (.number x)
  | word h => exact agrees_wordOperand hmode h
  | opening =>
    exact Agrees.deeper 1 hmode fun mode' hmode' ↦ (hread mode' hmode').bind fun t t' ht ↦
      agrees_expect_closing.bind fun _ _ _ ↦ agrees_pure ht
  | @operator op hop =>
    cases op with
    | pipe | either => exact absurd hop Bool.false_ne_true
    | _ => exact agrees_failure
  | sign | closing | comma => exact agrees_failure

theorem agrees_called {t t' : Term} (hmode : mode.context = .formula) (ht : Term.Alike ρ t t') :
    Agrees ρ (Term.Alike ρ) (called read count mode t) (called read count mode t') := by
  cases count with
  | zero => exact agrees_failure
  | succ count =>
    cases ht with
    | word h =>
      refine agrees_accept_opening.bind fun opens _ hopens ↦ ?_
      subst hopens
      cases opens with
      | true => exact (agrees_arguments hread hmode).bind fun ts ts' hts ↦ agrees_pure (.call h hts)
      | false =>
        have hbang := @agrees_accept_absent ρ .bang fun a a' ha ↦ by
          cases ha <;> exact ⟨rfl, rfl⟩
        refine hbang.bind ?_
        rintro _ _ ⟨rfl, rfl⟩
        have hcolon := @agrees_accept_absent ρ .doubleColon fun a a' ha ↦ by
          cases ha <;> exact ⟨rfl, rfl⟩
        refine hcolon.bind ?_
        rintro _ _ ⟨rfl, rfl⟩
        exact agrees_pure (.word h)
    | number x => exact agrees_pure (.number x)
    | signed minus h => exact agrees_pure (.signed minus h)
    | binary hop hl hr => exact agrees_pure (.binary hop hl hr)
    | call h hts => exact agrees_pure (.call h hts)

omit hread in
/-- Nothing follows an operand of a formula. -/
theorem agrees_links (left? left?' : Option Term) :
    Agrees ρ (fun ls ls' ↦ ls = [] ∧ ls' = []) (links read count mode left?)
      (links read count mode left?') := by
  cases count with
  | zero => exact agrees_failure
  | succ count =>
    have hpoint := @agrees_accept_absent ρ .point fun a a' ha ↦ by
      cases ha <;> exact ⟨rfl, rfl⟩
    refine hpoint.bind ?_
    rintro _ _ ⟨rfl, rfl⟩
    have hoptional := @agrees_accept_absent ρ .optionalBracket fun a a' ha ↦ by
      cases ha <;> exact ⟨rfl, rfl⟩
    refine hoptional.bind ?_
    rintro _ _ ⟨rfl, rfl⟩
    have hbracket := @agrees_accept_absent ρ .openBracket fun a a' ha ↦ by
      cases ha <;> exact ⟨rfl, rfl⟩
    refine hbracket.bind ?_
    rintro _ _ ⟨rfl, rfl⟩
    exact agrees_pure ⟨rfl, rfl⟩

theorem agrees_operand (hmode : mode.context = .formula) :
    Agrees ρ (Term.Alike ρ) (operand read count mode) (operand read count mode) := by
  induction count generalizing mode with
  | zero => exact agrees_failure
  | succ count ih =>
    have hplain : ∀ {a a'}, Token.Alike ρ a a' →
        Agrees ρ (Term.Alike ρ)
          (do
            let t ← primary read count mode a
            let t ← called read count mode t
            return t.follow (← links read count mode (some t)))
          (do
            let t ← primary read count mode a'
            let t ← called read count mode t
            return t.follow (← links read count mode (some t))) := by
      intro a a' ha
      refine (agrees_primary hread hmode ha).bind fun t t' ht ↦
        (agrees_called hread hmode ht).bind fun r r' hr ↦ (agrees_links _ _).bind ?_
      rintro _ _ ⟨rfl, rfl⟩
      exact agrees_pure hr
    refine agrees_take.bind fun a a' ha ↦ ?_
    cases ha with
    | sign minus =>
      exact Agrees.deeper 1 hmode fun mode' hmode' ↦ (ih hmode').bind fun t t' ht ↦
        agrees_pure (ht.withSign minus)
    | number x => exact hplain (.number x)
    | word h => exact hplain (.word h)
    | operator h => exact hplain (.operator h)
    | opening => exact hplain .opening
    | closing => exact hplain .closing
    | comma => exact hplain .comma

end Operands

/-! ## Operators -/

theorem operator?_of_alike {a a' : Token} (h : Token.Alike ρ a a') :
    a.operator? = a'.operator? ∧ ∀ op ∈ a.operator?, op.isArithmetic = true := by
  cases h with
  | @word u v h =>
    have hne : ∀ w, isKept w = false → w ≠ "in" := by
      rintro _ hw rfl
      exact absurd hw (by decide)
    rw [Token.operator?, Token.operator?, if_neg (hne u h.isKept.1), if_neg (hne v h.isKept.2)]
    exact ⟨rfl, nofun⟩
  | operator hop =>
    refine ⟨rfl, ?_⟩
    rintro _ ⟨⟩
    exact hop
  | sign minus =>
    refine ⟨rfl, ?_⟩
    rintro _ ⟨⟩
    cases minus <;> rfl
  | number | opening | closing | comma => exact ⟨rfl, nofun⟩

/-- The same operator of arithmetic comes next, or none. -/
theorem agrees_nextOperator? (pipes : Bool) :
    Agrees ρ (fun op? op?' ↦ op? = op?' ∧ ∀ op ∈ op?, op.isArithmetic = true)
      (nextOperator? pipes) (nextOperator? pipes) := by
  intro ts ts' hts
  have hnext : ∀ {a : Token}, a.operator? ≠ some .pipe → ∀ ts,
      nextOperator? pipes (a :: ts) = some (a.operator?, a :: ts) := by
    intro a ha ts
    have hpeek : peek (a :: ts) = some (some a, a :: ts) := rfl
    rw [nextOperator?, bind_of_some hpeek]
    dsimp only
    cases hop : a.operator? with
    | none => rfl
    | some op =>
      cases op with
      | pipe => exact absurd hop ha
      | _ => rfl
  cases hts with
  | nil => exact .inr ⟨_, _, _, _, rfl, rfl, ⟨rfl, nofun⟩, .nil⟩
  | @cons a a' ts ts' ha hts =>
    obtain ⟨heq, harithmetic⟩ := operator?_of_alike ha
    have hpipe : a.operator? ≠ some .pipe := fun h ↦ absurd (harithmetic _ h) Bool.false_ne_true
    exact .inr ⟨_, _, _, _, hnext hpipe ts, hnext (heq ▸ hpipe) ts', ⟨heq, harithmetic⟩,
      .cons ha hts⟩

theorem combine?_of_isArithmetic {op : Operator} (h : op.isArithmetic = true) (l r : Term) :
    Term.combine? op l r = some (.binary op l r) := by
  rw [Term.combine?, if_neg]
  rintro ⟨rfl | rfl, -⟩ <;> exact absurd h Bool.false_ne_true

section Operators

variable {read : Readers} {count : ℕ} {mode : Mode} (hread : read.Agrees ρ)
include hread

theorem agrees_operators (hmode : mode.context = .formula) (floor : ℕ) {left left' : Term}
    (hleft : Term.Alike ρ left left') :
    Agrees ρ (Term.Alike ρ) (operators read count mode floor left)
      (operators read count mode floor left') := by
  induction count generalizing mode floor left left' with
  | zero => exact agrees_failure
  | succ count ih =>
    refine (agrees_nextOperator? _).bind ?_
    rintro op? _ ⟨rfl, hop⟩
    cases op? with
    | none => exact agrees_pure hleft
    | some op =>
      have harithmetic := hop op rfl
      dsimp only
      split
      · exact agrees_pure hleft
      · refine agrees_take.bind fun _ _ _ ↦ (agrees_operand hread hmode).bind fun r r' hr ↦
          (agrees_nextOperator? true).bind ?_
        rintro next _ ⟨rfl, -⟩
        have hwhole : ∀ {r r'}, Term.Alike ρ r r' →
            Agrees ρ (Term.Alike ρ)
              (do
                let whole ← Term.combine? op left r
                operators read count (← mode.deeper 1) floor whole)
              (do
                let whole ← Term.combine? op left' r'
                operators read count (← mode.deeper 1) floor whole) := by
          intro r r' hr
          rw [combine?_of_isArithmetic harithmetic, combine?_of_isArithmetic harithmetic]
          exact Agrees.deeper 1 hmode fun mode' hmode' ↦
            ih hmode' floor (.binary harithmetic hleft hr)
        split
        · exact Agrees.deeper 1 hmode fun mode' hmode' ↦
            (ih hmode' op.precedence hr).bind fun t t' ht ↦ hwhole ht
        · exact hwhole hr

theorem agrees_expressionStep (hmode : mode.context = .formula) :
    Agrees ρ (Term.Alike ρ) (expressionStep read count mode) (expressionStep read count mode) :=
  Agrees.deeper 1 hmode fun _ hmode' ↦ (agrees_operand hread hmode').bind fun _ _ ht ↦
    agrees_operators hread hmode' 1 ht

end Operators

theorem agrees_expression (count : ℕ) {mode : Mode} (hmode : mode.context = .formula) :
    Agrees ρ (Term.Alike ρ) (expression count mode) (expression count mode) := by
  induction count generalizing mode with
  | zero => exact agrees_failure
  | succ count ih => exact agrees_expressionStep (fun _ ↦ ih) hmode

end Parser

/-- Tokens that are alike are read as terms that are alike, or not at all. -/
theorem Term.ofFormula?_alike {text text' : String} {ts ts' : List Token}
    (h : Token.ofText? text = some ts) (h' : Token.ofText? text' = some ts')
    (hts : List.Forall₂ (Token.Alike ρ) ts ts') :
    (Term.ofFormula? text = none ∧ Term.ofFormula? text' = none) ∨
      ∃ t t', Term.ofFormula? text = some t ∧ Term.ofFormula? text' = some t' ∧
        Term.Alike ρ t t' := by
  have hwhole : ∀ {text ts}, Token.ofText? text = some ts → Term.ofFormula? text =
      (Parser.expression (2 * ts.length + 2) (.outer .formula) ts).bind fun x ↦
        if x.2.isEmpty then some x.1 else none := by
    intro text ts h
    rw [Term.ofFormula?, Parser.whole?, h]
    refine congrArg (Option.bind (Parser.expression _ _ ts)) (funext fun x ↦ ?_)
    change (guard (x.2.isEmpty = true) : Option Unit).bind (fun _ ↦ some x.1) = _
    by_cases hrest : x.2.isEmpty = true
    · rw [guard, if_pos hrest, if_pos hrest]
      rfl
    · rw [guard, if_neg hrest, if_neg hrest]
      rfl
  have hmode : (Mode.outer .formula).context = .formula := rfl
  rw [hwhole h, hwhole h', ← hts.length_eq]
  rcases Parser.agrees_expression (2 * ts.length + 2) hmode hts with
    ⟨hn, hn'⟩ | ⟨t, rest, t', rest', ht, ht', htt', hrest⟩
  · rw [hn, hn']
    exact .inl ⟨rfl, rfl⟩
  · rw [ht, ht']
    cases hrest with
    | nil => exact .inr ⟨t, t', rfl, rfl, htt'⟩
    | cons => exact .inl ⟨rfl, rfl⟩

end FormulaQuiz.Formula
