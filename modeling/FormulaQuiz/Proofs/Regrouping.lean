import FormulaQuiz.Formula.Grouping
import FormulaQuiz.Proofs.Grammar

/-!
# Signs in front of powers

Parentheses around each chain of powers under a sign turn what authors mean into what evaluation
reads.  What is grouped in a part of a formula depends on what follows only as far as a chain of
powers goes, so the parts of an author's formula are grouped one after the other.
-/

namespace FormulaQuiz.Formula

/-- The operator of a product that a character is. -/
def productOperator? : Char → Option Operator
  | '*' => some .multiply
  | '/' => some .divide
  | '%' => some .modulo
  | _ => none

/-- What a lexeme is to the grammar; a numeral is the number that it denotes. -/
def Lexeme.piece : Lexeme → Piece
  | .numeral text => .number (Decimal.numeralValue text.toList)
  | .word text => .name text
  | .sign minus => .sign minus
  | .operator symbol => (productOperator? symbol).elim .other .times
  | .power _ => .power
  | .opening => .opening
  | .closing => .closing
  | .comma => .comma
  | .other _ => .other

/-- How the lexemes are made that are one thing to the grammar. -/
def Piece.IsOf : Piece → Lexeme → Prop
  | .number _, a => ∃ text, a = .numeral text
  | .name text, a => a = .word text
  | .sign minus, a => a = .sign minus
  | .times _, a => ∃ symbol, a = .operator symbol
  | .power, a => ∃ stars, a = .power stars
  | .opening, a => a = .opening
  | .closing, a => a = .closing
  | .comma, a => a = .comma
  | .other, _ => True

theorem Lexeme.isOf_of_piece {a : Lexeme} {q : Piece} (h : a.piece = q) : q.IsOf a := by
  subst h
  cases a with
  | operator symbol =>
    rw [piece]
    cases productOperator? symbol with
    | none => trivial
    | some op => exact ⟨symbol, rfl⟩
  | numeral text => exact ⟨text, rfl⟩
  | power stars => exact ⟨stars, rfl⟩
  | other text => trivial
  | _ => rfl

/-! ## Parentheses -/

/-- All parentheses of a list are closed in it. -/
def Closed (p : List Lexeme) : Prop :=
  ∀ depth s, closingLength (depth + 1) (p ++ s) = (closingLength (depth + 1) s).map (· + p.length)

section Closed

variable {reader : Reader} {k : Kind} {t : Term} {p q s : List Lexeme} {a : Lexeme}

theorem closed_nil : Closed [] := fun depth s ↦ by simp

theorem Closed.append (hp : Closed p) (hq : Closed q) : Closed (p ++ q) := fun depth s ↦ by
  rw [List.append_assoc, hp, hq, Option.map_map, List.length_append]
  congr 1
  funext n
  simp only [Function.comp_apply]
  omega

theorem closed_single (ho : a.piece ≠ .opening) (hc : a.piece ≠ .closing) : Closed [a] :=
  fun depth s ↦ by
    cases a with
    | opening => exact (ho rfl).elim
    | closing => exact (hc rfl).elim
    | _ => rfl

theorem Closed.group (hp : Closed p) : Closed (.opening :: p ++ [.closing]) := fun depth s ↦ by
  rw [List.append_assoc]
  change (closingLength (depth + 2) (p ++ .closing :: s)).map (· + 1) = _
  rw [hp (depth + 1)]
  change (((closingLength (depth + 1) s).map (· + 1)).map (· + p.length)).map (· + 1) = _
  rw [Option.map_map, Option.map_map]
  congr 1
  funext n
  simp only [Function.comp_apply, List.length_cons, List.length_append, List.length_nil]
  omega

/-- What is read as a part of a formula has all its parentheses closed. -/
theorem Derives.closed (h : Derives Lexeme.piece reader k t p) : Closed p := by
  have hsingle : ∀ {a : Lexeme} {q : Piece}, a.piece = q → q ≠ .opening → q ≠ .closing →
      Closed [a] := fun ha ho hc ↦ closed_single (ha ▸ ho) (ha ▸ hc)
  induction h with
  | sum _ _ ih ih' | product _ _ ih ih' | someArguments _ _ ih ih' => exact ih.append ih'
  | endSum | endProduct | noArguments | noMore => exact closed_nil
  | addend ha _ _ ih ih' | factor ha _ _ ih ih' | oneMore ha _ _ ih ih' =>
    exact ((hsingle ha nofun nofun).append ih).append ih'
  | sign ha _ ih => exact (hsingle ha nofun nofun).append ih
  | unsigned _ ih | noPower _ ih => exact ih
  | power ha _ _ ih ih' => exact ih.append ((hsingle ha nofun nofun).append ih')
  | number ha | name ha => exact hsingle ha nofun nofun
  | group ha hb _ ih =>
    obtain rfl := Lexeme.isOf_of_piece ha
    obtain rfl := Lexeme.isOf_of_piece hb
    exact ih.group
  | call hn ha hb _ ih =>
    obtain rfl := Lexeme.isOf_of_piece ha
    obtain rfl := Lexeme.isOf_of_piece hb
    exact (hsingle hn nofun nofun).append ih.group

/-- The parenthesis in front is closed behind a list that closes its own. -/
theorem Closed.closingLength (hp : Closed p) (s : List Lexeme) :
    closingLength 1 (p ++ .closing :: s) = some (p.length + 1) := by
  rw [hp 0]
  simp only [FormulaQuiz.Formula.closingLength, Nat.sub_self, if_true, Option.map_some]
  rw [Nat.add_comm]

end Closed

/-! ## Lengths of operands and chains -/

section Lengths

variable {t : Term} {p s : List Lexeme} {a : Lexeme} {n : ℕ}

theorem powersLength_append (p s : List Lexeme) :
    powersLength p.length (p ++ s) = (powersLength 0 s).map (· + p.length) := by
  induction p with
  | nil => simp
  | cons a p ih =>
    change (powersLength p.length (p ++ s)).map (· + 1) = _
    rw [ih, Option.map_map]
    rfl

/-- No powers follow an operand where its chain ends. -/
theorem powersLength_of_ends (hs : Ends Lexeme.piece .author (.level .power) s) :
    powersLength 0 s = some 0 := by
  cases s with
  | nil => rfl
  | cons a s =>
    cases a with
    | power stars => exact (hs.not_cons rfl).elim
    | _ => rfl

/-- An operand without signs is read up to its end. -/
theorem operandLength_of_primary (h : Derives Lexeme.piece .author (.level .primary) t p)
    (hs : Ends Lexeme.piece .author (.level .primary) s) :
    operandLength (p ++ s) = some p.length := by
  cases h with
  | number ha =>
    obtain ⟨text, rfl⟩ := Lexeme.isOf_of_piece ha
    rfl
  | name ha =>
    obtain rfl := Lexeme.isOf_of_piece ha
    cases s with
    | nil => rfl
    | cons b s =>
      cases b with
      | opening => exact (hs.not_cons rfl).elim
      | _ => rfl
  | group ha hb hp =>
    obtain rfl := Lexeme.isOf_of_piece ha
    obtain rfl := Lexeme.isOf_of_piece hb
    rw [List.append_assoc]
    change (closingLength 1 (_ ++ .closing :: s)).map (· + 1) = _
    rw [hp.closed.closingLength, Option.map_some, List.length_append]
    rfl
  | call hn ha hb hp =>
    obtain rfl := Lexeme.isOf_of_piece hn
    obtain rfl := Lexeme.isOf_of_piece ha
    obtain rfl := Lexeme.isOf_of_piece hb
    rw [List.append_assoc]
    change (closingLength 1 (_ ++ .closing :: s)).map (· + 2) = _
    rw [hp.closed.closingLength, Option.map_some, List.length_append]
    rfl

theorem chainLength_eq (hn : operandLength s = some n) {m : ℕ} (hm : powersLength n s = some m) :
    chainLength s = if m = n then none else some m := by
  rw [chainLength, hn]
  change (powersLength n s >>= _) = _
  rw [hm]
  rfl

end Lengths

/-! ## Grouping -/

/-- A part of a formula is grouped by itself, and evaluation reads the result as a term. -/
def Groups (afterOperand : Bool) (k : Kind) (t : Term) (p s : List Lexeme) : Prop :=
  ∃ out, groupFrom afterOperand (p ++ s) = out ++ groupFrom true s ∧
    Derives Lexeme.piece .evaluation k t out

/-- What grouping does to a part of a formula, whatever follows it.  An operand with signs and powers
is a power to evaluation, and if it has no powers of its own, also a signed operand. -/
def Regrouped : Kind → Term → List Lexeme → Prop
  | .level .primary, t, p => ∀ s, Ends Lexeme.piece .author (.level .primary) s →
    Groups false (.level .primary) t p s
  | .level .signed, t, p | .level .power, t, p => ∀ s, Ends Lexeme.piece .author (.level .power) s →
    ∃ n, operandLength (p ++ s) = some n ∧ powersLength n (p ++ s) = some p.length ∧
      Groups false (.level .power) t p s ∧ (n = p.length → Groups false (.level .signed) t p s)
  | .sums left, t, p => ∀ s, Ends Lexeme.piece .author (.sums left) s →
    Groups true (.sums left) t p s
  | .products left, t, p => ∀ s, Ends Lexeme.piece .author (.products left) s →
    Groups true (.products left) t p s
  | .more, t, p => ∀ s, Ends Lexeme.piece .author .more s → Groups true .more t p s
  | k, t, p => ∀ s, Ends Lexeme.piece .author k s → Groups false k t p s

section Groups

variable {t u : Term} {p q s : List Lexeme} {a : Lexeme} {afterOperand : Bool} {k k' : Kind}

@[simp] theorem groupFrom_nil : groupFrom afterOperand [] = [] := by rw [groupFrom]

theorem groupFrom_cons (h : ∀ minus, a ≠ .sign minus) :
    groupFrom afterOperand (a :: s) = a :: groupFrom a.endsOperand s := by
  cases a with
  | sign minus => exact (h minus rfl).elim
  | _ =>
    rw [groupFrom]
    exact h

theorem groupFrom_sign_true (minus : Bool) (s : List Lexeme) :
    groupFrom true (.sign minus :: s) = .sign minus :: groupFrom false s := by
  rw [groupFrom]
  rfl

theorem groupFrom_sign_none (minus : Bool) (h : chainLength s = none) :
    groupFrom false (.sign minus :: s) = .sign minus :: groupFrom false s := by
  rw [groupFrom]
  simp only [h]
  rfl

theorem groupFrom_sign_some (minus : Bool) (h : chainLength (p ++ s) = some p.length) :
    groupFrom false (.sign minus :: (p ++ s)) =
      .sign minus :: .opening :: groupFrom false p ++ .closing :: groupFrom true s := by
  rw [groupFrom]
  simp only [h, Bool.false_eq_true, if_false, List.take_left, List.drop_left]

/-- Whether the text to the left ends an operand makes no difference unless a sign follows. -/
theorem groupFrom_of_ends (hs : Ends Lexeme.piece .author .arguments s) (b : Bool) :
    groupFrom afterOperand s = groupFrom b s := by
  cases s with
  | nil => rw [groupFrom_nil, groupFrom_nil]
  | cons a s =>
    have ha : ∀ minus, a ≠ .sign minus := by
      rintro minus rfl
      exact hs.not_cons rfl
    rw [groupFrom_cons ha, groupFrom_cons ha]

theorem groupFrom_word (text : String) (s : List Lexeme) :
    groupFrom afterOperand (.word text :: s) = .word text :: groupFrom true s :=
  groupFrom_cons fun _ ↦ nofun

theorem groupFrom_operator (symbol : Char) (s : List Lexeme) :
    groupFrom afterOperand (.operator symbol :: s) = .operator symbol :: groupFrom false s :=
  groupFrom_cons fun _ ↦ nofun

theorem groupFrom_power (stars : Bool) (s : List Lexeme) :
    groupFrom afterOperand (.power stars :: s) = .power stars :: groupFrom false s :=
  groupFrom_cons fun _ ↦ nofun

theorem groupFrom_comma (s : List Lexeme) :
    groupFrom afterOperand (.comma :: s) = .comma :: groupFrom false s :=
  groupFrom_cons fun _ ↦ nofun

theorem groupFrom_opening (s : List Lexeme) :
    groupFrom afterOperand (.opening :: s) = .opening :: groupFrom false s :=
  groupFrom_cons fun _ ↦ nofun

theorem groupFrom_closing (s : List Lexeme) :
    groupFrom afterOperand (.closing :: s) = .closing :: groupFrom true s :=
  groupFrom_cons fun _ ↦ nofun

/-- Parts that are grouped one after the other are grouped together. -/
theorem Groups.append {t'' : Term} {k'' : Kind} (hp : Groups afterOperand k t p (q ++ s))
    (hq : Groups true k' u q s)
    (h : ∀ {p q}, Derives Lexeme.piece .evaluation k t p → Derives Lexeme.piece .evaluation k' u q →
      Derives Lexeme.piece .evaluation k'' t'' (p ++ q)) :
    Groups afterOperand k'' t'' (p ++ q) s := by
  obtain ⟨out, hout, hp⟩ := hp
  obtain ⟨out', hout', hq⟩ := hq
  exact ⟨out ++ out', by rw [List.append_assoc, hout, hout', List.append_assoc], h hp hq⟩

/-- An operator stands between the parts that are grouped one after the other. -/
theorem Groups.lead {t'' : Term} {k'' : Kind}
    (ha : ∀ s, groupFrom afterOperand (a :: s) = a :: groupFrom false s)
    (hp : Groups false k t p (q ++ s)) (hq : Groups true k' u q s)
    (h : ∀ {p q}, Derives Lexeme.piece .evaluation k t p → Derives Lexeme.piece .evaluation k' u q →
      Derives Lexeme.piece .evaluation k'' t'' (a :: p ++ q)) :
    Groups afterOperand k'' t'' (a :: p ++ q) s := by
  obtain ⟨out, hout, hp⟩ := hp
  obtain ⟨out', hout', hq⟩ := hq
  refine ⟨a :: out ++ out', ?_, h hp hq⟩
  rw [List.append_assoc, List.cons_append, ha, hout, hout', List.append_assoc, List.cons_append]

/-- What stands in parentheses is grouped by itself. -/
theorem Groups.group {u : Term} (hp : Groups false k t p (.closing :: s))
    (h : ∀ {p}, Derives Lexeme.piece .evaluation k t p →
      Derives Lexeme.piece .evaluation k' u (.opening :: p ++ [.closing])) :
    Groups afterOperand k' u (.opening :: p ++ [.closing]) s := by
  obtain ⟨out, hout, hp⟩ := hp
  refine ⟨.opening :: out ++ [.closing], ?_, h hp⟩
  rw [List.append_assoc, List.cons_append, groupFrom_opening, List.singleton_append, hout,
    groupFrom_closing, List.append_assoc]
  rfl

/-- A lexeme that is an operand is kept. -/
theorem Groups.single (ha : ∀ minus, a ≠ .sign minus) (hend : a.endsOperand = true)
    (h : Derives Lexeme.piece .evaluation k t [a]) : Groups afterOperand k t [a] s :=
  ⟨[a], by rw [List.singleton_append, groupFrom_cons ha, hend]; rfl, h⟩

theorem Groups.imp {u : Term} (hp : Groups afterOperand k t p s)
    (h : ∀ {p}, Derives Lexeme.piece .evaluation k t p → Derives Lexeme.piece .evaluation k' u p) :
    Groups afterOperand k' u p s := by
  obtain ⟨out, hout, hp⟩ := hp
  exact ⟨out, hout, h hp⟩

/-- A sign is kept in front of an operand without powers, and an operand with powers is put in
parentheses behind it. -/
theorem Regrouped.sign (h : Regrouped (.level .signed) t p) (minus : Bool) :
    Regrouped (.level .signed) (.signed minus t) (.sign minus :: p) := by
  intro s hs
  obtain ⟨n, hn, hm, -, hsigned⟩ := h s hs
  have hlength : operandLength (.sign minus :: p ++ s) = some (n + 1) := by
    change (operandLength (p ++ s)).map (· + 1) = _
    rw [hn, Option.map_some]
  have hpowers : powersLength (n + 1) (.sign minus :: p ++ s) = some (p.length + 1) := by
    change (powersLength n (p ++ s)).map (· + 1) = _
    rw [hm, Option.map_some]
  have hchain := chainLength_eq hn hm
  refine ⟨n + 1, hlength, hpowers, ?_⟩
  rcases eq_or_ne p.length n with heq | hne
  · rw [if_pos heq] at hchain
    obtain ⟨out, hout, hp⟩ := hsigned heq.symm
    have hgroups : Groups false (.level .signed) (.signed minus t) (.sign minus :: p) s :=
      ⟨.sign minus :: out, by rw [List.cons_append, groupFrom_sign_none minus hchain, hout]; rfl,
        .sign rfl hp⟩
    exact ⟨hgroups.imp .noPower, fun _ ↦ hgroups⟩
  · rw [if_neg hne] at hchain
    -- what is put in parentheses is grouped as if nothing followed
    obtain ⟨_, -, -, ⟨out, hout, hp⟩, -⟩ := h [] ends_nil
    rw [List.append_nil, groupFrom_nil, List.append_nil] at hout
    refine ⟨⟨.sign minus :: .opening :: out ++ [.closing], ?_, ?_⟩, fun hn ↦ ?_⟩
    · rw [List.cons_append, groupFrom_sign_some minus hchain, hout]
      simp
    · exact .noPower (.sign rfl (.unsigned (.group rfl rfl hp.sum_of_factor)))
    · exact absurd (Nat.succ.inj hn).symm hne

/-- Powers are kept: the operand before them and the one behind are grouped one after the other. -/
theorem Regrouped.power (h : Regrouped (.level .primary) t p)
    (hp : Derives Lexeme.piece .author (.level .primary) t p)
    (h' : Regrouped (.level .signed) u q) (stars : Bool) :
    Regrouped (.level .power) (.binary .power t u) (p ++ .power stars :: q) := by
  intro s hs
  obtain ⟨n, hn, hm, ⟨out', hout', hq⟩, -⟩ := h' s hs
  have hbase : Ends Lexeme.piece .author (.level .primary) (.power stars :: q ++ s) :=
    ends_cons.mpr rfl
  have hpowers : powersLength 0 (.power stars :: q ++ s) = some (q.length + 1) := by
    change (operandLength (q ++ s) >>= fun operand ↦ powersLength operand (q ++ s) >>= _) = _
    rw [hn]
    change (powersLength n (q ++ s) >>= _) = _
    rw [hm]
    rfl
  obtain ⟨out, hout, hp'⟩ := h _ hbase
  refine ⟨p.length, ?_, ?_, ⟨out ++ .power stars :: out', ?_, .power rfl (.unsigned hp') hq⟩,
    fun hlength ↦ ?_⟩
  · rw [List.append_assoc]
    exact operandLength_of_primary hp hbase
  · rw [List.append_assoc, powersLength_append, hpowers, Option.map_some, List.length_append,
      List.length_cons, Nat.add_comm]
  · rw [List.append_assoc, hout, List.cons_append, groupFrom_power, hout']
    simp
  · rw [List.length_append, List.length_cons] at hlength
    omega

theorem Regrouped.noPower (h : Regrouped (.level .primary) t p)
    (hp : Derives Lexeme.piece .author (.level .primary) t p) : Regrouped (.level .power) t p := by
  intro s hs
  have hgroups := h s hs.base
  refine ⟨p.length, operandLength_of_primary hp hs.base, ?_, ?_, fun _ ↦ hgroups.imp .unsigned⟩
  · rw [powersLength_append, powersLength_of_ends hs, Option.map_some, Nat.zero_add]
  · exact hgroups.imp fun hp ↦ .noPower (.unsigned hp)

/-- What authors mean by a part of a formula is what evaluation reads from the part with its chains
grouped. -/
theorem Derives.regrouped (h : Derives Lexeme.piece .author k t p) : Regrouped k t p := by
  induction h with
  | sum _ hq ih ih' => exact fun s hs ↦ (ih _ (hs.sums hq)).append (ih' s hs) .sum
  | endSum => exact fun s _ ↦ ⟨[], rfl, .endSum⟩
  | addend ha _ hq ih ih' =>
    intro s hs
    obtain rfl := Lexeme.isOf_of_piece ha
    exact .lead (groupFrom_sign_true _) (ih _ (Ends.sums hs hq)) (ih' s hs) (.addend ha)
  | product _ hq ih ih' =>
    intro s hs
    obtain ⟨_, -, -, hp, -⟩ := ih _ (hs.products hq)
    exact hp.append (ih' s hs) .product
  | endProduct => exact fun s _ ↦ ⟨[], rfl, .endProduct⟩
  | factor ha _ hq ih ih' =>
    intro s hs
    obtain ⟨symbol, rfl⟩ := Lexeme.isOf_of_piece ha
    obtain ⟨_, -, -, hp, -⟩ := ih _ (Ends.products hs hq)
    exact .lead (groupFrom_operator symbol) hp (ih' s hs) (.factor ha)
  | sign ha _ ih =>
    obtain rfl := Lexeme.isOf_of_piece ha
    exact ih.sign _
  | unsigned _ ih => exact ih
  | power ha hp _ ih ih' =>
    obtain ⟨stars, rfl⟩ := Lexeme.isOf_of_piece ha
    exact ih.power hp ih' stars
  | noPower hp ih => exact ih.noPower hp
  | number ha =>
    intro s _
    obtain ⟨text, rfl⟩ := Lexeme.isOf_of_piece ha
    exact .single (fun _ ↦ nofun) rfl (.number ha)
  | name ha =>
    intro s _
    obtain rfl := Lexeme.isOf_of_piece ha
    exact .single (fun _ ↦ nofun) rfl (.name ha)
  | group ha hb hp ih =>
    intro s _
    obtain rfl := Lexeme.isOf_of_piece ha
    obtain rfl := Lexeme.isOf_of_piece hb
    exact (ih _ (ends_closing rfl)).group (.group rfl rfl)
  | @call ts p n a b text hn ha hb hp ih =>
    intro s _
    obtain rfl := Lexeme.isOf_of_piece hn
    obtain rfl := Lexeme.isOf_of_piece ha
    obtain rfl := Lexeme.isOf_of_piece hb
    obtain ⟨out, hout, hq⟩ := ih (.closing :: s) (ends_closing rfl)
    refine ⟨.word text :: .opening :: out ++ [.closing], ?_, .call hn rfl rfl hq⟩
    rw [List.append_assoc, List.cons_append, List.cons_append, groupFrom_word, groupFrom_opening,
      List.singleton_append, hout, groupFrom_closing, List.append_assoc]
    rfl
  | noArguments =>
    exact fun s hs ↦ ⟨[], groupFrom_of_ends hs true, .noArguments⟩
  | someArguments _ hq ih ih' =>
    exact fun s hs ↦ (ih _ (hs.more hq)).append (ih' s hs) .someArguments
  | noMore => exact fun s _ ↦ ⟨[], rfl, .noMore⟩
  | oneMore ha _ hq ih ih' =>
    intro s hs
    obtain rfl := Lexeme.isOf_of_piece ha
    exact .lead groupFrom_comma (ih _ (Ends.more hs hq)) (ih' s hs) (.oneMore ha)

/-- What authors mean by a formula is what evaluation reads from its grouped lexemes. -/
theorem Derives.grouped (h : Derives Lexeme.piece .author (.level .sum) t p) :
    Derives Lexeme.piece .evaluation (.level .sum) t (grouped p) := by
  obtain ⟨out, hout, hp⟩ := h.regrouped [] ends_nil
  rw [List.append_nil, groupFrom_nil, List.append_nil] at hout
  rw [FormulaQuiz.Formula.grouped, hout]
  exact hp

end Groups

end FormulaQuiz.Formula
