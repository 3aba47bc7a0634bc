import FormulaQuiz.Formula.Parser
import FormulaQuiz.Proofs.Usage
import Mathlib.Data.Option.Basic

/-!
# What readers know of the tokens

A word is read as a variable, or as a function that is called, only where an operand may begin, and
as a method only after a point.  `Orderly` tells that the words at such places are known.  Each
reader is described by what it does to the tokens: `Meets` is the triple of what is known before,
the reader, and what is known after it.
-/

namespace FormulaQuiz.Formula

/-- Whether no operand begins after a token: after a number, a point, or a closing parenthesis. -/
def Token.bars : Token → Bool
  | .number _ | .integer _ | .point | .closing => true
  | _ => false

/-- Whether a point and a number follow, where no reader goes on after a word. -/
def Stuck (ts : List Token) : Prop := [.point, .integer 0] <+: ts

/-- A word before some tokens is known, or no reader goes on after it; and it may begin a form. -/
structure Vocabulary.Admits (v : Vocabulary) (w : String) (ts : List Token) : Prop where
  form : w ∈ formWords → v.forms
  known : v.value w ∨ v.function w ∧ ts.head? = some .opening ∨ Stuck ts

/-- Where an operand may begin (`free` tells whether one may begin in front) the words are known,
and so are those that are called after a point. -/
def Orderly (v : Vocabulary) : (free : Bool) → List Token → Prop
  | _, [] => True
  | free, token :: ts =>
    (∀ w, token = .word w → free = true → v.Admits w ts) ∧
      (token = .point → ∀ w ts', ts = .word w :: .opening :: ts' → v.method w) ∧
      Orderly v (!token.bars) ts

variable {v : Vocabulary} {free : Bool}

/-- Less is required where no operand begins. -/
theorem Orderly.mono {ts : List Token} (h : Orderly v free ts) : Orderly v false ts := by
  cases ts with
  | nil => trivial
  | cons token ts => exact ⟨fun _ _ ↦ nofun, h.2⟩

/-- More is not required, if the token in front is no word. -/
theorem Orderly.of_head? {token : Token} {ts : List Token} (h : Orderly v false ts)
    (hhead : (ts.head? == some token) = true) (htoken : ∀ w, token ≠ .word w) :
    Orderly v true ts := by
  cases ts with
  | nil => exact nomatch hhead
  | cons t ts =>
    change (t == token) = true at hhead
    refine ⟨?_, h.2⟩
    rintro w rfl
    cases token <;> first | exact absurd rfl (htoken _) | exact Bool.noConfusion hhead

/-- Tokens that are the same but for a number bar the same. -/
theorem Token.bars_of_beq {t u : Token} (h : (t == u) = true) : t.bars = u.bars := by
  cases t <;> cases u <;> first | rfl | exact Bool.noConfusion h

namespace Parser

variable {α β : Type}

/-- What is known of the tokens before a reader that succeeds, and of what it reads and leaves. -/
def Meets (P : List Token → Prop) (p : Parser α) (Q : α → List Token → Prop) : Prop :=
  ∀ ⦃ts⦄, P ts → ∀ ⦃a rest⦄, p ts = some (a, rest) → Q a rest

section Meets

variable {P : List Token → Prop} {Q M : α → List Token → Prop} {Q' : β → List Token → Prop}
  {p : Parser α}

theorem meets_pure {a : α} (h : ∀ ts, P ts → Q a ts) : Meets P (pure a) Q := by
  rintro ts hts _ _ ⟨⟩
  exact h ts hts

theorem meets_failure : Meets P failure Q := fun _ _ _ _ h ↦ nomatch h

theorem Meets.bind (h : Meets P p M) {f : α → Parser β} (hf : ∀ a, Meets (M a) (f a) Q') :
    Meets P (p >>= f) Q' := by
  intro ts hts b rest hb
  change (p ts).bind (fun x ↦ f x.1 x.2) = _ at hb
  obtain ⟨⟨a, mid⟩, ha, hb⟩ := Option.bind_eq_some_iff.mp hb
  exact hf a (h hts ha) hb

theorem Meets.imp (h : Meets P p M) (hQ : ∀ a ts, M a ts → Q a ts) : Meets P p Q :=
  fun _ hts _ _ ha ↦ hQ _ _ (h hts ha)

/-- What does not depend on the tokens may be assumed. -/
theorem Meets.of_and {A : Prop} (h : A → Meets P p Q) : Meets (fun ts ↦ A ∧ P ts) p Q :=
  fun _ hts ↦ h hts.1 hts.2

theorem Meets.of_imp {R : List Token → Prop} (h : Meets P p Q) (hP : ∀ ts, R ts → P ts) :
    Meets R p Q := fun _ hts ↦ h (hP _ hts)

/-- Something is taken from an option, if it is there. -/
theorem meets_option {o : Option β} {f : β → Parser α} (h : ∀ b, o = some b → Meets P (f b) Q) :
    Meets P (liftM o >>= f) Q := by
  cases o with
  | none => exact meets_failure
  | some b => exact h b rfl

theorem meets_guard {c : Prop} [Decidable c] {f : Unit → Parser α} (h : c → Meets P (f ()) Q) :
    Meets P (guard c >>= f) Q := by
  by_cases hc : c
  · rw [guard, if_pos hc]
    exact h hc
  · rw [guard, if_neg hc]
    exact meets_failure

/-- A mode that is deeper belongs to the same context, and is in a block if the other is. -/
theorem of_deeper {mode mode' : Mode} {n : ℕ} (h : mode.deeper n = some mode') :
    mode'.context = mode.context ∧ mode'.outermost = mode.outermost := by
  rw [Mode.deeper] at h
  split at h
  · cases h
    exact ⟨rfl, rfl⟩
  · exact nomatch h

theorem meets_deeper {mode : Mode} (n : ℕ) {f : Mode → Parser α} (hmode : mode.context ≠ .script)
    (h : ∀ mode' : Mode, mode'.context ≠ .script → Meets P (f mode') Q) :
    Meets P (liftM (mode.deeper n) >>= f) Q :=
  meets_option fun mode' hmode' ↦ h mode' ((of_deeper hmode').1 ▸ hmode)

end Meets

/-! ## Taking tokens -/

section Taking

variable {P : List Token → Prop} {Q : α → List Token → Prop}

theorem meets_peek {f : Option Token → Parser α}
    (h : ∀ t?, Meets (fun ts ↦ ts.head? = t? ∧ P ts) (f t?) Q) : Meets P (peek >>= f) Q :=
  fun ts hts _ _ ha ↦ h ts.head? ⟨rfl, hts⟩ ha

theorem meets_take : Meets (Orderly v free) take fun token rest ↦
    Orderly v (!token.bars) rest := by
  rintro (_ | ⟨token, ts⟩) hts _ _ ⟨⟩
  exact hts.2.2

theorem meets_take_word : Meets (Orderly v true) take fun token rest ↦
    (∀ w, token = .word w → v.Admits w rest) ∧ Orderly v (!token.bars) rest := by
  rintro (_ | ⟨token, ts⟩) hts _ _ ⟨⟩
  exact ⟨fun w hw ↦ hts.1 w hw rfl, hts.2.2⟩

/-- The token that is taken is the one in front. -/
theorem meets_take_head {token : Token} :
    Meets (fun ts ↦ ts.head? = some token ∧ Orderly v free ts) take fun _ rest ↦
      Orderly v (!token.bars) rest := by
  rintro (_ | ⟨token, ts⟩) ⟨hhead, hts⟩ _ _ ⟨⟩
  cases hhead
  exact hts.2.2

/-- A token is taken from the front, or the tokens stay as they are. -/
theorem meets_accept (token : Token) : Meets (Orderly v free) (accept token) fun taken rest ↦
    Orderly v (bif taken then !token.bars else free) rest := by
  intro ts hts taken rest ha
  cases ts with
  | nil =>
    cases ha
    exact hts
  | cons t ts =>
    change (if (t == token) = true then _ else _ : Parser Bool) (t :: ts) = _ at ha
    split at ha
    next heq =>
      cases ha
      rw [cond_true, ← Token.bars_of_beq heq]
      exact hts.2.2
    next =>
      cases ha
      exact hts

/-- A word after a point that a parenthesis follows is known as a method. -/
def AfterPoint (v : Vocabulary) (ts : List Token) : Prop :=
  Orderly v false ts ∧ ∀ w ts', ts = .word w :: .opening :: ts' → v.method w

theorem meets_accept_point : Meets (Orderly v free) (accept .point) fun taken rest ↦
    bif taken then AfterPoint v rest else Orderly v free rest := by
  intro ts hts taken rest ha
  cases ts with
  | nil =>
    cases ha
    exact hts
  | cons t ts =>
    change (if (t == .point) = true then _ else _ : Parser Bool) (t :: ts) = _ at ha
    split at ha
    next heq =>
      cases ha
      obtain rfl : t = .point := by
        cases t <;> first | rfl | exact Bool.noConfusion heq
      exact ⟨hts.2.2, hts.2.1 rfl⟩
    next =>
      cases ha
      exact hts

theorem meets_take_method : Meets (AfterPoint v) take fun token rest ↦
    (∀ w, token = .word w → rest.head? = some .opening → v.method w) ∧
      Orderly v (!token.bars) rest := by
  rintro (_ | ⟨token, ts⟩) ⟨hts, hmethod⟩ _ _ ⟨⟩
  refine ⟨?_, hts.2.2⟩
  rintro w rfl hhead
  cases ts with
  | nil => exact nomatch hhead
  | cons t ts =>
    cases hhead
    exact hmethod w ts rfl

/-- A parenthesis is taken just if it is in front. -/
theorem meets_accept_opening {P : Bool → Prop} :
    Meets (fun ts ↦ P (ts.head? == some .opening) ∧ Orderly v free ts) (accept .opening)
      fun taken rest ↦ P taken ∧ Orderly v (bif taken then true else free) rest := by
  rintro ts ⟨hP, hts⟩ taken rest ha
  refine ⟨?_, meets_accept .opening hts ha⟩
  have htaken : taken = (ts.head? == some .opening) := by
    cases ts with
    | nil =>
      cases ha
      rfl
    | cons t ts =>
      change (if (t == .opening) = true then _ else _ : Parser Bool) (t :: ts) = _ at ha
      split at ha
      next heq =>
        cases ha
        exact heq.symm
      next heq =>
        cases ha
        exact (Bool.eq_false_iff.mpr heq).symm
  rwa [htaken]

theorem head?_eq_opening_iff {ts : List Token} :
    (ts.head? == some .opening) = true ↔ ts.head? = some .opening := by
  constructor
  · intro h
    cases ts with
    | nil => exact nomatch h
    | cons t ts =>
      change (t == Token.opening) = true at h
      have ht : t = .opening := by
        cases t <;> first | rfl | exact Bool.noConfusion h
      rw [ht, List.head?_cons]
  · intro h
    rw [h]
    rfl

/-- A token must be in front. -/
theorem meets_expect (token : Token) : Meets (Orderly v free) (expect token) fun _ rest ↦
    Orderly v (!token.bars) rest := by
  refine (meets_accept token).bind fun taken ↦ ?_
  cases taken with
  | true => exact meets_pure fun _ h ↦ h
  | false => exact meets_failure

theorem meets_refuse (token : Token) : Meets P (refuse token) fun _ ts ↦ P ts := by
  refine meets_peek fun t? ↦ ?_
  rw [guard]
  split
  · exact meets_pure fun _ h ↦ h.2
  · exact meets_failure

theorem meets_name : Meets (Orderly v free) name fun _ rest ↦ Orderly v true rest := by
  refine meets_take.bind fun token ↦ ?_
  cases token with
  | word w =>
    dsimp only
    split
    · exact meets_pure fun _ h ↦ h
    · exact meets_failure
  | _ => exact meets_failure

end Taking

end Parser

end FormulaQuiz.Formula
