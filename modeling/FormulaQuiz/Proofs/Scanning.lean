import FormulaQuiz.Proofs.Infinities
import FormulaQuiz.Proofs.Operands
import FormulaQuiz.Proofs.Words

/-!
# The tokens of any formula

A formula that its authors may not write is rewritten for evaluation too, and what stands in it
beside the grammar may begin a text that swallows lexemes and spaces.  But such a text ends in a
character that belongs to no other class, so the words that are read after it are words of the
formula again.
-/

namespace FormulaQuiz.Formula

open Lexeme (isOther)

variable {c d : Char} {cs q xs : List Char} {n : ℕ} {blocks : List ℕ}

/-- Whether a token is no word and opens no parenthesis, and an operand may begin after it. -/
def Token.isNeutral : Token → Bool
  | .word _ | .opening => false
  | token => !token.bars

theorem orderly_append {v : Vocabulary} {free : Bool} {own ts : List Token}
    (hown : ∀ t ∈ own, t.isNeutral = true) (h : Orderly v true ts) :
    Orderly v free (own ++ ts) := by
  induction own generalizing free with
  | nil =>
    cases free with
    | true => exact h
    | false => exact h.mono
  | cons t own ih =>
    have ht := hown t List.mem_cons_self
    refine ⟨?_, ?_, ?_⟩
    · rintro w rfl
      exact nomatch ht
    · rintro rfl
      exact nomatch ht
    · exact ih fun u hu ↦ hown u (List.mem_cons_of_mem t hu)

/-- The first `n` characters of a text end in one that belongs to no other class, and `q` follows. -/
def Passes (n : ℕ) (cs q : List Char) : Prop :=
  ∃ p d, cs = p ++ d :: q ∧ p.length + 1 = n ∧ isOther d = true

theorem Passes.cons (h : Passes n cs q) (c : Char) : Passes (n + 1) (c :: cs) q := by
  obtain ⟨p, d, rfl, hn, hd⟩ := h
  exact ⟨c :: p, d, rfl, congrArg (· + 1) hn, hd⟩

theorem Passes.readFrom? (h : Passes n cs q) :
    Token.readFrom? n blocks cs = Token.readFrom? 0 blocks q := by
  obtain ⟨p, d, rfl, rfl, -⟩ := h
  have hlength : p.length + 1 = (p ++ [d]).length := by simp
  rw [hlength, List.append_cons p d q, readFrom?_append]

theorem Passes.of_drop {k : ℕ} (h : Passes n (cs.drop k) q) : Passes (n + k) cs q := by
  obtain ⟨p, d, hdrop, rfl, hd⟩ := h
  have hk : k < cs.length := by
    by_contra hk
    rw [List.drop_eq_nil_of_le (not_lt.mp hk)] at hdrop
    exact List.append_ne_nil_of_right_ne_nil p (List.cons_ne_nil d q) hdrop.symm
  refine ⟨cs.take k ++ p, d, ?_, ?_, hd⟩
  · rw [List.append_assoc, ← hdrop, List.take_append_drop]
  · rw [List.length_append, List.length_take, min_eq_left hk.le]
    omega

theorem passes_of_prefix (h : xs <+: cs) (hne : xs ≠ []) (hxs : ∀ d ∈ xs, isOther d = true) :
    ∃ q, Passes xs.length cs q := by
  obtain ⟨q, rfl⟩ := h
  refine ⟨q, xs.dropLast, xs.getLast hne, ?_, ?_, hxs _ (List.getLast_mem hne)⟩
  · rw [List.append_cons, List.dropLast_append_getLast]
  · rw [List.length_dropLast]
    have := List.length_pos_of_ne_nil hne
    omega

/-! ## Texts in a formula -/

theorem passes_quoted? {quote : Char} {content : List Char} (hquote : isOther quote = true)
    (h : Token.quoted? quote cs = some (content, n)) : ∃ q, Passes n cs q := by
  fun_induction Token.quoted? quote cs generalizing content n with
  | case1 | case6 | case7 => exact nomatch h
  | case2 ds ih =>
    obtain ⟨⟨content, n⟩, hrest, ⟨⟩⟩ := Option.map_eq_some_iff.mp h
    exact (ih hrest).imp fun _ hq ↦ (hq.cons quote).cons quote
  | case3 d ds =>
    cases h
    exact ⟨d :: ds, [], quote, rfl, rfl, hquote⟩
  | case4 =>
    cases h
    exact ⟨[], [], quote, rfl, rfl, hquote⟩
  | case5 d ds _ _ ih =>
    obtain ⟨⟨content, n⟩, hrest, ⟨⟩⟩ := Option.map_eq_some_iff.mp h
    exact (ih hrest).imp fun _ hq ↦ (hq.cons d).cons _
  | case8 c cs _ _ ih =>
    obtain ⟨⟨content, n⟩, hrest, ⟨⟩⟩ := Option.map_eq_some_iff.mp h
    exact (ih hrest).imp fun _ hq ↦ hq.cons c

theorem passes_rawQuoted? {signs content : List Char} (hsigns : ∀ d ∈ signs, d = '#')
    (h : Token.rawQuoted? signs cs = some (content, n)) : ∃ q, Passes n cs q := by
  fun_induction Token.rawQuoted? signs cs generalizing content n with
  | case1 => exact nomatch h
  | case2 c cs hends =>
    cases h
    obtain ⟨rfl, hprefix⟩ := hends
    have hquote : '"' :: signs <+: '"' :: cs :=
      List.cons_prefix_cons.mpr ⟨rfl, List.isPrefixOf_iff_prefix.mp hprefix⟩
    have hothers : ∀ d ∈ '"' :: signs, isOther d = true := by
      refine List.forall_mem_cons.mpr ⟨by decide, fun d hd ↦ ?_⟩
      rw [hsigns d hd]
      decide
    exact passes_of_prefix hquote (List.cons_ne_nil _ _) hothers
  | case3 c cs _ ih =>
    obtain ⟨⟨content, n⟩, hrest, ⟨⟩⟩ := Option.map_eq_some_iff.mp h
    exact (ih hrest).imp fun _ hq ↦ hq.cons c

theorem passes_templatePart? {content : List Char} {ended : Bool}
    (h : Token.templatePart? cs = some (content, n, ended)) : ∃ q, Passes n cs q := by
  fun_induction Token.templatePart? cs generalizing content n ended with
  | case1 => exact nomatch h
  | case2 ds ih =>
    obtain ⟨⟨content, n, ended⟩, hrest, ⟨⟩⟩ := Option.map_eq_some_iff.mp h
    exact (ih hrest).imp fun _ hq ↦ (hq.cons _).cons _
  | case3 d ds =>
    cases h
    exact ⟨d :: ds, [], _, rfl, rfl, by decide⟩
  | case4 =>
    cases h
    exact ⟨[], [], _, rfl, rfl, by decide⟩
  | case5 c cs _ hblock =>
    cases h
    obtain ⟨rfl, -⟩ := hblock
    exact ⟨cs, [], _, rfl, rfl, by decide⟩
  | case6 c cs _ _ ih =>
    obtain ⟨⟨content, n, ended⟩, hrest, ⟨⟩⟩ := Option.map_eq_some_iff.mp h
    exact (ih hrest).imp fun _ hq ↦ hq.cons c

theorem passes_symbol? {token : Token} (hc : isOther c = true)
    (h : Token.symbol? (c :: cs) = some (token, n)) :
    token.isNeutral = true ∧ ∃ q, Passes n (c :: cs) q := by
  have hall : (Token.symbols.all fun entry ↦ entry.1.head?.any fun d ↦ !isOther d ||
      entry.1.all isOther && entry.2.all Token.isNeutral) = true := by
    rfl
  obtain ⟨⟨symbol, token?⟩, hfind, h⟩ := Option.bind_eq_some_iff.mp h
  obtain ⟨t, htoken, h⟩ := Option.bind_eq_some_iff.mp h
  cases h
  have hprefix := List.isPrefixOf_iff_prefix.mp
    (List.find?_some (p := fun entry : List Char × _ ↦ entry.1.isPrefixOf (c :: cs)) hfind)
  have hentry := List.all_eq_true.mp hall _ (List.mem_of_find?_eq_some hfind)
  cases symbol with
  | nil => exact nomatch hentry
  | cons d ds =>
    obtain ⟨rfl, -⟩ := List.cons_prefix_cons.mp hprefix
    rw [List.head?_cons, Option.any_some, hc, Bool.not_true, Bool.false_or, Bool.and_eq_true,
      List.all_eq_true, htoken] at hentry
    exact ⟨hentry.2, passes_of_prefix hprefix (List.cons_ne_nil d ds) hentry.1⟩

theorem passes_literal? {token : Token} (hc : isOther c = true)
    (h : Token.literal? c cs = some (token, n)) :
    token.isNeutral = true ∧ ∃ q, Passes n (c :: cs) q := by
  unfold Token.literal? at h
  split at h
  · obtain ⟨⟨content, n⟩, hquoted, ⟨⟩⟩ := Option.bind_eq_some_iff.mp h
    exact ⟨rfl, (passes_quoted? hc hquoted).imp fun _ hq ↦ hq.cons c⟩
  · split at h
    · obtain ⟨⟨content, n⟩, hquoted, h⟩ := Option.bind_eq_some_iff.mp h
      dsimp only at h
      split at h
      · cases h
        exact ⟨rfl, (passes_quoted? hc hquoted).imp fun _ hq ↦ hq.cons c⟩
      · exact nomatch h
    · obtain ⟨⟨content, n⟩, hquoted, ⟨⟩⟩ := Option.bind_eq_some_iff.mp h
      have hsigns : ∀ d ∈ (c :: cs).takeWhile (· == '#'), d = '#' :=
        fun d hd ↦ beq_iff_eq.mp (List.mem_takeWhile_imp (p := (· == '#')) hd)
      exact ⟨rfl, (passes_rawQuoted? hsigns hquoted).imp fun _ hq ↦ hq.of_drop.cons c⟩

/-- What is read from a character that belongs to no other class is no word and ends in such a
character. -/
theorem exists_of_readFrom?_cons {tokens : List Token} (hc : isOther c = true)
    (h : Token.readFrom? 0 blocks (c :: cs) = some tokens) :
    ∃ own ts n q blocks', tokens = own ++ ts ∧ own ≠ [] ∧ (∀ t ∈ own, t.isNeutral = true) ∧
      Passes n (c :: cs) q ∧ Token.readFrom? 0 blocks' q = some ts := by
  have hchar := isIdentifierChar_of_isOther hc
  rw [Token.readFrom?, if_neg (Bool.eq_false_iff.mp (isBlank_of_isOther hc))] at h
  split at h
  · obtain ⟨⟨content, n, ended⟩, hpart, h⟩ := Option.bind_eq_some_iff.mp h
    obtain ⟨ts, hts, ⟨⟩⟩ := Option.bind_eq_some_iff.mp h
    obtain ⟨q, hq⟩ := passes_templatePart? hpart
    rw [hq.readFrom?] at hts
    refine ⟨[_], ts, n + 1, q, _, rfl, List.cons_ne_nil _ _, List.forall_mem_singleton.mpr ?_,
      hq.cons c, hts⟩
    cases ended <;> rfl
  · split at h
    · obtain ⟨⟨content, n, ended⟩, hpart, h⟩ := Option.bind_eq_some_iff.mp h
      obtain ⟨ts, hts, ⟨⟩⟩ := Option.bind_eq_some_iff.mp h
      obtain ⟨q, hq⟩ := passes_templatePart? hpart
      rw [hq.readFrom?] at hts
      refine ⟨[_, _], ts, n + 1, q, _, rfl, List.cons_ne_nil _ _, List.forall_mem_cons.mpr ⟨rfl,
        List.forall_mem_singleton.mpr ?_⟩, hq.cons c, hts⟩
      cases ended <;> rfl
    · obtain ⟨⟨token, n⟩, hread, h⟩ := Option.bind_eq_some_iff.mp h
      obtain ⟨ts, hts, ⟨⟩⟩ := Option.bind_eq_some_iff.mp h
      obtain ⟨hneutral, q, hq⟩ : token.isNeutral = true ∧ ∃ q, Passes n (c :: cs) q := by
        unfold Token.read? at hread
        split at hread
        next hstart =>
          rw [isIdentifierChar_of_isIdentifierStart hstart] at hchar
          exact Bool.noConfusion hchar
        · split at hread
          next hdigit =>
            rw [Text.isIdentifierChar, Bool.or_eq_false_iff] at hchar
            exact absurd hdigit (Bool.eq_false_iff.mp hchar.2)
          · split at hread
            · exact passes_literal? hc hread
            · exact passes_symbol? hc hread
      have hskip : Token.readFrom? n (Token.blocksAfter token blocks) (c :: cs) = some ts := by
        obtain ⟨p, d, -, rfl, -⟩ := id hq
        exact hts
      rw [hq.readFrom?] at hskip
      exact ⟨[token], ts, n, q, _, rfl, List.cons_ne_nil _ _,
        List.forall_mem_singleton.mpr hneutral, hq, hskip⟩

/-! ## Lexemes as they are written -/

/-- Lexemes as they are written for evaluation, each with a space in front. -/
def spaced (ls : List Lexeme) : List Char := ls.flatMap (' ' :: ·.render)

theorem spaced_cons (l : Lexeme) (ls : List Lexeme) :
    spaced (l :: ls) = ' ' :: (l.render ++ spaced ls) := rfl

theorem separates_spaced (ls : List Lexeme) : Separates (spaced ls) := by
  cases ls with
  | nil => exact nofun
  | cons l ls =>
    rintro d ⟨⟩
    rfl

theorem readFrom?_space (cs : List Char) :
    Token.readFrom? 0 blocks (' ' :: cs) = Token.readFrom? 0 blocks cs := by
  rw [Token.readFrom?, if_pos (by decide)]

theorem intercalate_render (l : Lexeme) (ls : List Lexeme) :
    [' '].intercalate ((l :: ls).map Lexeme.render) = l.render ++ spaced ls := by
  induction ls generalizing l with
  | nil => exact (List.intercalate_singleton ..).trans (List.append_nil _).symm
  | cons m ls ih =>
    rw [List.map_cons, List.map_cons, List.intercalate_cons_cons, ← List.map_cons, ih m, spaced_cons,
      List.append_assoc]
    rfl

theorem readFrom?_spaced (ls : List Lexeme) :
    Token.readFrom? 0 blocks (spaced ls) =
      Token.readFrom? 0 blocks ([' '].intercalate (ls.map Lexeme.render)) := by
  cases ls with
  | nil => rfl
  | cons l ls => rw [intercalate_render, spaced_cons, readFrom?_space]

/-- How a numeral that no float can hold is written. -/
theorem floatLiteral_of_isFinite {cs : List Char}
    (h : (Decimal.numeralValue cs).isFinite = false) :
    Lexeme.floatLiteral (Decimal.numeralValue cs) = "inf.0".toList := by
  have hinfinite : Rounding.Infinite (Decimal.numeralValue cs) .positive :=
    Rounding.infinite_nearestFloat h
  generalize Decimal.numeralValue cs = x at *
  have hnone : Dyadic.ofFloat? x = none := by rw [Dyadic.ofFloat?, hinfinite]
  have hnaN : ¬x.isNaN = true := by
    change ¬x.toModel.unpack.isNaN = true
    rw [hinfinite]
    exact Bool.false_ne_true
  have hnonneg : ¬x < 0 := (hinfinite.gt Rounding.is_zero).2
  have hchars : Decimal.Layout.plain.chars x = "inf".toList := by
    rw [Decimal.Layout.chars, hnone]
    dsimp only
    rw [if_neg hnaN, if_neg hnonneg]
  rw [Lexeme.floatLiteral, hchars]
  rfl

theorem isOther_of_isIdentifierChar (h : Text.isIdentifierChar c = true) : isOther c = false :=
  Bool.eq_false_iff.mpr fun hc ↦ Bool.eq_false_iff.mp (isIdentifierChar_of_isOther hc) h

theorem isOther_of_isDigit (h : Decimal.isDigit c = true) : isOther c = false :=
  isOther_of_isIdentifierChar (Bool.or_eq_true_iff.mpr (.inr h))

theorem isOther_of_all (h : cs.all (!isOther ·) = true) (hd : d ∈ cs) : isOther d = false :=
  (Bool.not_eq_true' _).mp (List.all_eq_true.mp h d hd)

theorem isOther_of_mem_floatLiteral {cs : List Char}
    (h : d ∈ Lexeme.floatLiteral (Decimal.numeralValue cs)) : isOther d = false := by
  cases hfinite : (Decimal.numeralValue cs).isFinite with
  | true =>
    obtain ⟨whole, fraction, hpoint, -⟩ := exists_hasPoint_of_isFinite hfinite
    rw [hpoint.eq] at h
    rcases List.mem_append.mp h with h | h
    · exact isOther_of_isDigit (hpoint.whole d h)
    · rcases List.mem_cons.mp h with rfl | h
      · decide
      · exact isOther_of_isDigit (hpoint.fraction d h)
  | false =>
    rw [floatLiteral_of_isFinite hfinite] at h
    exact isOther_of_all rfl h

/-- Only a lexeme of no other class has such a character. -/
theorem eq_other_of_mem_render {l : Lexeme} (hl : l.IsScanned) (hd : d ∈ l.render)
    (hother : isOther d = true) : ∃ text, l = .other text := by
  have hnot : isOther d ≠ false := Bool.ne_false_iff.mpr hother
  cases l with
  | other text => exact ⟨text, rfl⟩
  | numeral text => exact absurd (isOther_of_mem_floatLiteral hd) hnot
  | word text =>
    obtain ⟨c, cs, htext, hc, hcs⟩ := hl
    change d ∈ text.toList at hd
    rw [htext] at hd
    rcases List.mem_cons.mp hd with rfl | hd
    · exact absurd (isOther_of_isIdentifierStart hc) hnot
    · exact absurd (isOther_of_isIdentifierChar (hcs d hd)) hnot
  | operator symbol =>
    obtain ⟨op, hop⟩ := Option.isSome_iff_exists.mp hl
    obtain rfl := List.mem_singleton.mp hd
    unfold productOperator? at hop
    split at hop <;> first | exact absurd rfl hnot | exact nomatch hop
  | sign minus =>
    cases minus <;> obtain rfl := List.mem_singleton.mp hd <;> exact absurd rfl hnot
  | power stars =>
    have hstars : ['*', '*'].all (!isOther ·) = true := by decide
    exact absurd (isOther_of_all hstars hd) hnot
  | opening | closing | comma =>
    obtain rfl := List.mem_singleton.mp hd
    exact absurd rfl hnot

/-- Characters that belong to no other class, and lexemes after them, in which the words are known
where an operand may begin. -/
structure Lies (v : Vocabulary) (free : Bool) (xs : List Char) (ls : List Lexeme) : Prop where
  others : ∀ d ∈ xs, isOther d = true
  scanned : ∀ l ∈ ls, l.IsScanned
  orderly : Lexeme.Orderly v free ls
  free : xs ≠ [] → free = true

section Lies

variable {v : Vocabulary} {free : Bool} {ls : List Lexeme}

/-- After the first character of a lexeme of no other class, there is such a text. -/
theorem lies_tail {text : String} (htext : text.toList = c :: cs)
    (hcs : ∀ d ∈ cs, isOther d = true) (hls : ∀ l ∈ ls, l.IsScanned)
    (horderly : Lexeme.Orderly v (!(Lexeme.other text).bars) ls) :
    Lies v (!(Lexeme.other text).bars) cs ls := by
  refine ⟨hcs, hls, horderly, fun hne ↦ ?_⟩
  rw [Lexeme.bars_other htext fun _ ↦ hne, Bool.not_false]

/-- Inside of a lexeme there is such a text after a character that belongs to no other class. -/
theorem lies_of_render {l : Lexeme} (hl : l.IsScanned) (hls : ∀ l ∈ ls, l.IsScanned)
    (horderly : Lexeme.Orderly v (!l.bars) ls) {p : List Char} (hrender : l.render = p ++ d :: q)
    (hd : isOther d = true) : Lies v true q ls := by
  have hmem : d ∈ l.render := hrender ▸ List.mem_append_right p List.mem_cons_self
  obtain ⟨text, rfl⟩ := eq_other_of_mem_render hl hmem hd
  obtain ⟨c, cs, htext, -, hcs⟩ := hl
  change text.toList = p ++ d :: q at hrender
  have hpoint : c = '.' → cs ≠ [] := by
    rintro rfl rfl
    obtain rfl := List.mem_singleton.mp (show d ∈ ['.'] from htext ▸ hmem)
    exact absurd hd (by decide)
  rw [Lexeme.bars_other htext hpoint] at horderly
  refine ⟨fun e he ↦ hcs e ?_, hls, horderly, fun _ ↦ rfl⟩
  rw [htext] at hrender
  cases p with
  | nil => exact (List.cons.inj hrender).2 ▸ he
  | cons c' p =>
    rw [(List.cons.inj hrender).2]
    exact List.mem_append_right p (List.mem_cons_of_mem d he)

/-- After a character that belongs to no other class, there is such a text again. -/
theorem Lies.after (h : Lies v free xs ls) {p : List Char} (hcs : xs ++ spaced ls = p ++ d :: q)
    (hd : isOther d = true) : ∃ xs' ls', q = xs' ++ spaced ls' ∧ Lies v true xs' ls' := by
  induction ls generalizing free xs p with
  | nil =>
    rw [spaced, List.flatMap_nil, List.append_nil] at hcs
    subst hcs
    exact ⟨q, [], (List.append_nil q).symm,
      fun e he ↦ h.others e (List.mem_append_right p (List.mem_cons_of_mem d he)), nofun, trivial,
      fun _ ↦ rfl⟩
  | cons l ls ih =>
    have hne : d ≠ ' ' := by
      rintro rfl
      exact absurd hd (by decide)
    obtain ⟨hl, hls⟩ := List.forall_mem_cons.mp h.scanned
    have hlies : Lies v false [] ls := ⟨nofun, hls, h.orderly.2.2.mono, fun hnil ↦ absurd rfl hnil⟩
    -- the character stands after the space in front of the lexeme, or before it
    rcases List.append_eq_append_iff.mp hcs with ⟨p', rfl, hspaced⟩ | ⟨xs', rfl, hq⟩
    · obtain ⟨p', rfl⟩ : ∃ r, p' = ' ' :: r := by
        cases p' with
        | nil => exact absurd (List.cons.inj hspaced).1.symm hne
        | cons e r => exact ⟨r, by rw [(List.cons.inj hspaced).1]⟩
      have hwhole : l.render ++ spaced ls = p' ++ d :: q := (List.cons.inj hspaced).2
      rcases List.append_eq_append_iff.mp hwhole with ⟨r, -, hspaced⟩ | ⟨r, hrender, hq⟩
      · exact ih hlies hspaced
      · cases r with
        | nil => exact ih (p := []) hlies hq.symm
        | cons e r =>
          obtain ⟨rfl, rfl⟩ := List.cons.inj hq
          exact ⟨r, ls, rfl, lies_of_render hl hls h.orderly.2.2 hrender hd⟩
    · cases xs' with
      | nil => exact absurd (List.cons.inj hq).1 hne
      | cons e xs' =>
        obtain ⟨rfl, rfl⟩ := List.cons.inj hq
        have hfree := h.free (List.append_ne_nil_of_right_ne_nil p (List.cons_ne_nil d xs'))
        exact ⟨xs', l :: ls, rfl,
          fun e he ↦ h.others e (List.mem_append_right p (List.mem_cons_of_mem d he)), h.scanned,
          hfree ▸ h.orderly, fun _ ↦ rfl⟩

end Lies

/-! ## Tokens as they are read -/

section Tokens

variable {v : Vocabulary} {free : Bool} {ls : List Lexeme} {ts : List Token}

/-- What is read in front of a text is its first token. -/
theorem exists_of_readFrom? {token : Token} (hc : Begins c)
    (hread : Token.read? c cs = some (token, n)) (hts : Token.readFrom? 0 blocks (c :: cs) = some ts) :
    ∃ ts', ts = token :: ts' ∧
      Token.readFrom? (n - 1) (Token.blocksAfter token blocks) cs = some ts' := by
  rw [Token.readFrom?, if_neg (Bool.eq_false_iff.mp hc.blank), if_neg hc.template,
    if_neg fun h ↦ hc.block h.1, hread, Option.bind_eq_bind, Option.bind_some] at hts
  obtain ⟨ts', hts', ⟨⟩⟩ := Option.bind_eq_some_iff.mp hts
  exact ⟨ts', rfl, hts'⟩

theorem blocksAfter_token (l : Lexeme) : Token.blocksAfter l.token blocks = blocks := by
  cases l <;> cases blocks <;> rfl

/-- A lexeme of the grammar is read as its token. -/
theorem exists_of_readFrom?_render {l : Lexeme} (hl : l.IsProper)
    (hts : Token.readFrom? 0 blocks (l.render ++ spaced ls) = some ts) :
    ∃ ts', ts = l.token :: ts' ∧ Token.readFrom? 0 blocks (spaced ls) = some ts' := by
  obtain ⟨c, tail, hrender, hread⟩ := exists_isRead hl
  rw [hrender] at hts
  obtain ⟨ts', rfl, hts'⟩ :=
    exists_of_readFrom? hread.begins (hread.read _ (separates_spaced ls)) hts
  rw [Nat.add_sub_cancel, readFrom?_append, blocksAfter_token] at hts'
  exact ⟨ts', rfl, hts'⟩

theorem bars_token {l : Lexeme} (hl : l.IsProper) : l.token.bars = l.bars := by
  cases l with
  | other text => exact hl.elim
  | _ => rfl

theorem eq_word_of_token {l : Lexeme} {w : String} (h : l.token = .word w) : l = .word w := by
  cases l with
  | word text =>
    cases h
    rfl
  | _ => exact nomatch h

theorem token_ne_point {l : Lexeme} (hl : l.IsProper) : l.token ≠ .point := by
  cases l with
  | other text => exact hl.elim
  | _ => exact nofun

theorem eq_opening_of_token {l : Lexeme} (h : l.token = .opening) : l = .opening := by
  cases l with
  | opening => rfl
  | _ => exact nomatch h

/-- A number that no float can hold is read as a word at which readers stop, a point and a number. -/
theorem stuck_of_numeral {text : String} (hproper : ¬ (Lexeme.numeral text).IsProper)
    (hts : Token.readFrom? 0 blocks ((Lexeme.numeral text).render ++ spaced ls) = some ts) :
    ∃ ts', ts = .word "inf" :: .point :: .integer 0 :: ts' ∧
      Token.readFrom? 0 blocks (spaced ls) = some ts' := by
  change Token.readFrom? 0 blocks (Lexeme.floatLiteral _ ++ spaced ls) = some ts at hts
  rw [floatLiteral_of_isFinite (Bool.eq_false_iff.mpr hproper)] at hts
  have hword : Token.read? 'i' ('n' :: 'f' :: '.' :: '0' :: spaced ls) =
      some (.word "inf", 3) := rfl
  have hzero : Token.read? '0' (spaced ls) = some (.integer 0, 1) := by
    cases ls with
    | nil => rfl
    | cons l ls => rfl
  obtain ⟨ts₁, rfl, hts₁⟩ :=
    exists_of_readFrom? (begins_of_le (by decide) (by decide) (by decide)) hword hts
  have hpoint : Token.readFrom? 0 blocks ('.' :: '0' :: spaced ls) = some ts₁ := by
    cases blocks <;> exact hts₁
  obtain ⟨ts₂, rfl, hts₂⟩ :=
    exists_of_readFrom? (begins_of_le (by decide) (by decide) (by decide)) rfl hpoint
  obtain ⟨ts₃, rfl, hts₃⟩ :=
    exists_of_readFrom? (begins_of_le (by decide) (by decide) (by decide)) hzero hts₂
  refine ⟨ts₃, rfl, ?_⟩
  cases blocks <;> exact hts₃

/-- It is read with no words but that one. -/
theorem orderly_of_numeral {text : String} (hproper : ¬ (Lexeme.numeral text).IsProper)
    (hbehind : ∀ {blocks ts}, Token.readFrom? 0 blocks (spaced ls) = some ts → Orderly v false ts)
    (hts : Token.readFrom? 0 blocks ((Lexeme.numeral text).render ++ spaced ls) = some ts) :
    Orderly v free ts := by
  obtain ⟨ts', rfl, hts'⟩ := stuck_of_numeral hproper hts
  refine ⟨fun w hw _ ↦ ?_, nofun, nofun, nofun, nofun, nofun, hbehind hts'⟩
  cases hw
  exact ⟨fun hmem ↦ absurd hmem (by decide), .inr (.inr ⟨ts', rfl⟩)⟩

/-- What a lexeme is read as begins with its token, with a word at which readers stop, or with a
token that is no word and opens no parenthesis. -/
theorem cases_of_readFrom? {l : Lexeme} (hl : l.IsScanned)
    (hts : Token.readFrom? 0 blocks (l.render ++ spaced ls) = some ts) :
    (∃ ts', ts = l.token :: ts' ∧ Token.readFrom? 0 blocks (spaced ls) = some ts') ∨
      (∃ w ts', ts = .word w :: ts' ∧ Stuck ts') ∨
      ∃ token ts', ts = token :: ts' ∧ token ≠ .opening ∧ ∀ w, token ≠ .word w := by
  by_cases hproper : l.IsProper
  · exact .inl (exists_of_readFrom?_render hproper hts)
  · cases l with
    | numeral text =>
      obtain ⟨ts', rfl, -⟩ := stuck_of_numeral hproper hts
      exact .inr (.inl ⟨"inf", _, rfl, ts', rfl⟩)
    | other text =>
      obtain ⟨c, cs, htext, hc, -⟩ := hl
      change Token.readFrom? 0 blocks (text.toList ++ spaced ls) = some ts at hts
      rw [htext] at hts
      rcases hc with rfl | hc
      · obtain ⟨ts', rfl, -⟩ :=
          exists_of_readFrom? (begins_of_le (by decide) (by decide) (by decide)) rfl hts
        exact .inr (.inr ⟨_, ts', rfl, nofun, nofun⟩)
      · obtain ⟨own, ts', -, -, -, rfl, hne, hown, -⟩ := exists_of_readFrom?_cons hc hts
        obtain ⟨token, own, rfl⟩ := List.exists_cons_of_ne_nil hne
        have hneutral := hown token List.mem_cons_self
        refine .inr (.inr ⟨token, own ++ ts', rfl, ?_, ?_⟩)
        · rintro rfl
          exact nomatch hneutral
        · rintro w rfl
          exact nomatch hneutral
    | _ => exact absurd hl hproper

/-- A parenthesis is the first token just if it is the first lexeme. -/
theorem head?_eq_opening_of_readFrom? (hls : ∀ l ∈ ls, l.IsScanned)
    (hts : Token.readFrom? 0 blocks (spaced ls) = some ts) :
    ts.head? = some .opening ↔ ls.head? = some .opening := by
  cases ls with
  | nil =>
    cases hts
    exact ⟨nofun, nofun⟩
  | cons l ls =>
    rw [spaced_cons, readFrom?_space] at hts
    constructor
    · intro hhead
      rcases cases_of_readFrom? (hls l List.mem_cons_self) hts with
        ⟨ts', rfl, -⟩ | ⟨w, ts', rfl, -⟩ | ⟨token, ts', rfl, hne, -⟩
      · rw [eq_opening_of_token (Option.some.inj hhead), List.head?_cons]
      · exact nomatch hhead
      · exact absurd (Option.some.inj hhead) hne
    · intro hhead
      obtain rfl := Option.some.inj hhead
      obtain ⟨ts', rfl, -⟩ := exists_of_readFrom?_render (l := .opening) trivial hts
      rfl

/-- A word that is called is a lexeme, and so is its parenthesis. -/
theorem exists_of_readFrom?_eq_call {w : String} (hls : ∀ l ∈ ls, l.IsScanned)
    (hts : Token.readFrom? 0 blocks (spaced ls) = some (.word w :: .opening :: ts)) :
    ∃ ls', ls = .word w :: .opening :: ls' := by
  cases ls with
  | nil => exact nomatch hts
  | cons l ls =>
    obtain ⟨hl, hrest⟩ := List.forall_mem_cons.mp hls
    rw [spaced_cons, readFrom?_space] at hts
    rcases cases_of_readFrom? hl hts with ⟨ts', heq, hts'⟩ | ⟨w, ts', heq, hstuck⟩ |
      ⟨token, ts', heq, -, hne⟩
    · obtain ⟨htoken, rfl⟩ := List.cons.inj heq
      obtain rfl := eq_word_of_token htoken.symm
      have hhead : ls.head? = some .opening := (head?_eq_opening_of_readFrom? hrest hts').mp rfl
      cases ls with
      | nil => exact nomatch hhead
      | cons l ls => exact ⟨ls, by rw [Option.some.inj hhead]⟩
    · obtain ⟨-, rfl⟩ := List.cons.inj heq
      obtain ⟨_, hstuck⟩ := hstuck
      exact nomatch hstuck
    · exact absurd (List.cons.inj heq).1.symm (hne w)

/-- What is read of such a text has words only where they are known. -/
theorem Lies.readFrom? (hform : ∀ w, v.value w ∨ v.function w → w ∈ formWords → v.forms)
    (h : Lies v free xs ls) (hts : Token.readFrom? 0 blocks (xs ++ spaced ls) = some ts) :
    Orderly v free ts := by
  -- by the length of the text, since what is read may end inside of a later lexeme
  induction hlength : (xs ++ spaced ls).length using Nat.strong_induction_on
    generalizing xs ls free blocks ts with
  | _ m ih =>
  cases xs with
  | cons c xs =>
    obtain ⟨own, ts', n, q, blocks', rfl, -, hown, ⟨p, d, hcs, -, hd⟩, hts'⟩ :=
      exists_of_readFrom?_cons (h.others c List.mem_cons_self) hts
    change c :: xs ++ spaced ls = p ++ d :: q at hcs
    obtain ⟨xs', ls', rfl, h'⟩ := h.after hcs hd
    refine orderly_append hown (ih _ ?_ h' hts' rfl)
    rw [← hlength, hcs, @List.length_append _ p, List.length_cons]
    omega
  | nil =>
    cases ls with
    | nil =>
      cases hts
      trivial
    | cons l ls =>
      rw [List.nil_append, spaced_cons, readFrom?_space] at hts
      rw [List.nil_append, spaced_cons, List.length_cons, List.length_append] at hlength
      obtain ⟨hl, hls⟩ := List.forall_mem_cons.mp h.scanned
      have hlies : Lies v (!l.bars) [] ls :=
        ⟨nofun, hls, h.orderly.2.2, fun hnil ↦ absurd rfl hnil⟩
      have hbehind : ∀ {blocks ts}, Token.readFrom? 0 blocks (spaced ls) = some ts →
          Orderly v (!l.bars) ts := fun hts ↦ ih (spaced ls).length (by omega) hlies hts rfl
      by_cases hproper : l.IsProper
      · obtain ⟨ts', rfl, hts'⟩ := exists_of_readFrom?_render hproper hts
        refine ⟨fun w hw hfree ↦ ?_, fun hpoint ↦ absurd hpoint (token_ne_point hproper),
          bars_token hproper ▸ hbehind hts'⟩
        have hknown := h.orderly.1 w (eq_word_of_token hw) hfree
        refine ⟨hform w (hknown.imp_right And.left), hknown.imp_right fun hcall ↦ .inl ?_⟩
        exact ⟨hcall.1, (head?_eq_opening_of_readFrom? hls hts').mpr hcall.2⟩
      · cases l with
        | numeral text => exact orderly_of_numeral hproper hbehind hts
        | other text =>
          obtain ⟨c, cs, htext, hc, hcs⟩ := hl
          have htail := lies_tail htext hcs hls h.orderly.2.2
          change Token.readFrom? 0 blocks (text.toList ++ spaced ls) = some ts at hts
          change text.toList.length + (spaced ls).length + 1 = m at hlength
          rw [htext] at hts hlength
          rw [← List.length_append] at hlength
          rcases hc with rfl | hc
          · obtain ⟨ts', rfl, hts'⟩ :=
              exists_of_readFrom? (begins_of_le (by decide) (by decide) (by decide)) rfl hts
            have hshort : (cs ++ spaced ls).length < m := by
              rw [← hlength]
              exact Nat.lt_succ_of_lt (Nat.lt_succ_self _)
            refine ⟨nofun, fun _ w ts'' hcall ↦ ?_, (ih _ hshort htail hts' rfl).mono⟩
            subst hcall
            cases cs with
            | nil =>
              obtain ⟨ls', rfl⟩ := exists_of_readFrom?_eq_call hls hts'
              have hpoint : text = "." := String.toList_inj.mp htext
              exact h.orderly.2.1 (by rw [hpoint]) w ls' rfl
            | cons d cs =>
              -- what is read from a character of no other class is no word
              obtain ⟨own, _, _, _, _, heq, hne, hown, -⟩ :=
                exists_of_readFrom?_cons (hcs d List.mem_cons_self) hts'
              obtain ⟨token, own, rfl⟩ := List.exists_cons_of_ne_nil hne
              obtain ⟨rfl, -⟩ := List.cons.inj heq
              exact nomatch hown _ List.mem_cons_self
          · rw [Lexeme.bars_other htext (by rintro rfl; exact absurd hc (by decide))] at htail
            have hwhole : Lies v true (c :: cs) ls :=
              { htail with
                others := List.forall_mem_cons.mpr ⟨hc, hcs⟩
                free := fun _ ↦ rfl }
            exact orderly_append (List.forall_mem_nil _) (ih _ (by omega) hwhole hts rfl)
        | _ => exact absurd hl hproper

end Tokens

/-- A formula is read as a term in which all words are symbols. -/
theorem Term.fits_ofChars {source : String} {t : Term}
    (ht : Term.ofFormula? (evaluationText source) = some t) : t.Fits (.ofChars source.toList) := by
  obtain ⟨ts, hts, -⟩ := Option.bind_eq_some_iff.mp ht
  refine Term.fits_ofFormula? hts ?_ ht
  rw [Token.ofText?, evaluationText, String.toList_ofList, ← readFrom?_spaced] at hts
  have hlies : Lies (.ofChars source.toList) true [] (grouped (lexemes source)) :=
    ⟨List.forall_mem_nil _, fun _ ↦ isScanned_of_mem_grouped, orderly_grouped source, fun _ ↦ rfl⟩
  refine hlies.readFrom? (fun w hw hform ↦ ?_) hts
  rcases hw with hvalue | hfunction
  · exact ⟨_, hvalue, hform⟩
  · exact ⟨_, hfunction, hform⟩

/-- The evaluation of a formula asks for no names but its symbols. -/
theorem Term.mem_symbols_of_mem_names {source : String} {t : Term}
    (ht : Term.ofFormula? (evaluationText source) = some t) :
    ∀ w ∈ t.names, w ∈ (symbols source).map (·.name) := by
  intro w hw
  rcases (Term.fits_ofChars ht).names w hw with hvalue | hfunction
  · exact List.mem_map.mpr ⟨_, hvalue, rfl⟩
  · exact List.mem_map.mpr ⟨_, hfunction, rfl⟩

end FormulaQuiz.Formula
