import FormulaQuiz.Formula.Term
import Mathlib.Data.List.Basic

/-!
# Two readings of a formula

Authors and evaluation read the same operators.  Sums and products group to the left, powers to the
right; but a sign binds more loosely than a power for authors, and more tightly in evaluation.
`Derives` is the grammar of both, and `Derives.unique` says that no text has two readings.
-/

namespace FormulaQuiz.Formula

/-- What a piece of a formula is to a grammar. -/
inductive Piece where
  | number (x : Float)
  | name (text : String)
  /-- A plus or minus sign, between operands or in front of one. -/
  | sign (minus : Bool)
  /-- An operator that binds as a product does. -/
  | times (op : Operator)
  | power
  | opening
  | closing
  | comma
  /-- What no formula has. -/
  | other

/-- Who reads a formula. -/
inductive Reader where
  | author
  | evaluation

/-- How tightly the parts of an expression hold together. -/
inductive Level where
  | sum
  | product
  | signed
  | power
  | primary

namespace Reader

/-- What the operators of a product, and the power operator, may have to their right. -/
def factor : Reader → Level
  | author => .signed
  | evaluation => .power

/-- What a sign may have to its right, if that is no sign. -/
def unsigned : Reader → Level
  | author => .power
  | evaluation => .primary

/-- What the power operator may have to its left. -/
def base : Reader → Level
  | author => .primary
  | evaluation => .signed

end Reader

/-- What is read from a part of a formula. -/
inductive Kind where
  | level (l : Level)
  /-- The rest of a sum after the term that was read so far. -/
  | sums (left : Term)
  /-- The rest of a product after the term that was read so far. -/
  | products (left : Term)
  /-- The arguments of a call, as a list. -/
  | arguments
  /-- The arguments after another, as a list. -/
  | more

/-- The operator that a sign between operands is. -/
def signOperator (minus : Bool) : Operator := if minus then .subtract else .add

section Derives

variable {α β : Type} (piece : α → Piece) (reader : Reader)

/-- A part of a formula is read as a term. -/
inductive Derives : Kind → Term → List α → Prop where
  | sum {t u p q} : Derives (.level .product) t p → Derives (.sums t) u q →
    Derives (.level .sum) u (p ++ q)
  | endSum {t} : Derives (.sums t) t []
  | addend {left t u p q a minus} (ha : piece a = .sign minus) : Derives (.level .product) t p →
    Derives (.sums (.binary (signOperator minus) left t)) u q → Derives (.sums left) u (a :: p ++ q)
  | product {t u p q} : Derives (.level reader.factor) t p → Derives (.products t) u q →
    Derives (.level .product) u (p ++ q)
  | endProduct {t} : Derives (.products t) t []
  | factor {left t u p q a op} (ha : piece a = .times op) : Derives (.level reader.factor) t p →
    Derives (.products (.binary op left t)) u q → Derives (.products left) u (a :: p ++ q)
  | sign {t p a minus} (ha : piece a = .sign minus) : Derives (.level .signed) t p →
    Derives (.level .signed) (.signed minus t) (a :: p)
  | unsigned {t p} : Derives (.level reader.unsigned) t p → Derives (.level .signed) t p
  | power {t u p q a} (ha : piece a = .power) : Derives (.level reader.base) t p →
    Derives (.level reader.factor) u q → Derives (.level .power) (.binary .power t u) (p ++ a :: q)
  | noPower {t p} : Derives (.level reader.base) t p → Derives (.level .power) t p
  | number {a x} (ha : piece a = .number x) : Derives (.level .primary) (.number x) [a]
  | name {a text} (ha : piece a = .name text) : Derives (.level .primary) (.variable text) [a]
  | group {t p a b} (ha : piece a = .opening) (hb : piece b = .closing) :
    Derives (.level .sum) t p → Derives (.level .primary) t (a :: p ++ [b])
  | call {ts p n a b text} (hn : piece n = .name text) (ha : piece a = .opening)
    (hb : piece b = .closing) : Derives .arguments (.list ts) p →
    Derives (.level .primary) (.call text false ts) (n :: a :: p ++ [b])
  | noArguments : Derives .arguments (.list []) []
  | someArguments {t ts p q} : Derives (.level .sum) t p → Derives .more (.list ts) q →
    Derives .arguments (.list (t :: ts)) (p ++ q)
  | noMore : Derives .more (.list []) []
  | oneMore {t ts p q a} (ha : piece a = .comma) : Derives (.level .sum) t p →
    Derives .more (.list ts) q → Derives .more (.list (t :: ts)) (a :: p ++ q)

end Derives

namespace Derives

variable {α β : Type} {piece : α → Piece} {piece' : β → Piece} {reader : Reader} {k : Kind}
  {l : Level} {t t' : Term} {p p' s s' : List α}

/-- Pieces of another kind that are the same to the grammar are read in the same way. -/
theorem map (f : α → β) (h : Derives piece reader k t p)
    (hf : ∀ a ∈ p, piece' (f a) = piece a) : Derives piece' reader k t (p.map f) := by
  induction h with
  | sum _ _ ih ih' =>
    obtain ⟨hp, hq⟩ := List.forall_mem_append.mp hf
    rw [List.map_append]
    exact .sum (ih hp) (ih' hq)
  | endSum => exact .endSum
  | addend ha _ _ ih ih' =>
    obtain ⟨hap, hq⟩ := List.forall_mem_append.mp hf
    obtain ⟨ha', hp⟩ := List.forall_mem_cons.mp hap
    rw [List.map_append]
    exact .addend (ha'.trans ha) (ih hp) (ih' hq)
  | product _ _ ih ih' =>
    obtain ⟨hp, hq⟩ := List.forall_mem_append.mp hf
    rw [List.map_append]
    exact .product (ih hp) (ih' hq)
  | endProduct => exact .endProduct
  | factor ha _ _ ih ih' =>
    obtain ⟨hap, hq⟩ := List.forall_mem_append.mp hf
    obtain ⟨ha', hp⟩ := List.forall_mem_cons.mp hap
    rw [List.map_append]
    exact .factor (ha'.trans ha) (ih hp) (ih' hq)
  | sign ha _ ih =>
    obtain ⟨ha', hp⟩ := List.forall_mem_cons.mp hf
    exact .sign (ha'.trans ha) (ih hp)
  | unsigned _ ih => exact .unsigned (ih hf)
  | power ha _ _ ih ih' =>
    obtain ⟨hp, haq⟩ := List.forall_mem_append.mp hf
    obtain ⟨ha', hq⟩ := List.forall_mem_cons.mp haq
    rw [List.map_append]
    exact .power (ha'.trans ha) (ih hp) (ih' hq)
  | noPower _ ih => exact .noPower (ih hf)
  | number ha => exact .number ((List.forall_mem_singleton.mp hf).trans ha)
  | name ha => exact .name ((List.forall_mem_singleton.mp hf).trans ha)
  | group ha hb _ ih =>
    obtain ⟨hap, hb'⟩ := List.forall_mem_append.mp hf
    obtain ⟨ha', hp⟩ := List.forall_mem_cons.mp hap
    rw [List.map_append]
    exact .group (ha'.trans ha) ((List.forall_mem_singleton.mp hb').trans hb) (ih hp)
  | call hn ha hb _ ih =>
    obtain ⟨hnap, hb'⟩ := List.forall_mem_append.mp hf
    obtain ⟨hn', hap⟩ := List.forall_mem_cons.mp hnap
    obtain ⟨ha', hp⟩ := List.forall_mem_cons.mp hap
    rw [List.map_append]
    exact .call (hn'.trans hn) (ha'.trans ha) ((List.forall_mem_singleton.mp hb').trans hb) (ih hp)
  | noArguments => exact .noArguments
  | someArguments _ _ ih ih' =>
    obtain ⟨hp, hq⟩ := List.forall_mem_append.mp hf
    rw [List.map_append]
    exact .someArguments (ih hp) (ih' hq)
  | noMore => exact .noMore
  | oneMore ha _ _ ih ih' =>
    obtain ⟨hap, hq⟩ := List.forall_mem_append.mp hf
    obtain ⟨ha', hp⟩ := List.forall_mem_cons.mp hap
    rw [List.map_append]
    exact .oneMore (ha'.trans ha) (ih hp) (ih' hq)

/-- What is read is all of a formula's own pieces. -/
theorem ne_other (h : Derives piece reader k t p) : ∀ a ∈ p, piece a ≠ .other := by
  induction h <;> simp_all [or_imp]

/-- An operand of a product is a sum by itself. -/
theorem sum_of_factor (h : Derives piece reader (.level reader.factor) t p) :
    Derives piece reader (.level .sum) t p := by
  have hsum := Derives.sum (.product h .endProduct) .endSum
  rwa [List.append_nil, List.append_nil] at hsum

/-! ## No formula has two readings -/

/-- What is read first is not a closing parenthesis. -/
theorem exists_head (h : Derives piece reader (.level l) t p) :
    ∃ a q, p = a :: q ∧ piece a ≠ .closing := by
  generalize hk : Kind.level l = k at h
  induction h generalizing l with
  | sum _ _ ih | product _ _ ih =>
    obtain ⟨a, q, rfl, ha⟩ := ih rfl
    exact ⟨a, _, rfl, ha⟩
  | power _ _ _ ih =>
    obtain ⟨a, q, rfl, ha⟩ := ih rfl
    exact ⟨a, _, rfl, ha⟩
  | unsigned _ ih | noPower _ ih => exact ih rfl
  | sign ha | number ha | name ha | group ha | call ha =>
    exact ⟨_, _, rfl, fun hclosing ↦ Piece.noConfusion (ha.symm.trans hclosing)⟩
  | _ => exact nomatch hk

/-- What is read without a sign does not begin with one. -/
theorem exists_head_unsigned (h : Derives piece reader (.level reader.unsigned) t p) :
    ∃ a q, p = a :: q ∧ ∀ minus, piece a ≠ .sign minus := by
  have hprimary : ∀ {t p}, Derives piece reader (.level .primary) t p →
      ∃ a q, p = a :: q ∧ ∀ minus, piece a ≠ .sign minus := by
    intro t p h
    cases h with
    | number ha | name ha | group ha | call ha =>
      exact ⟨_, _, rfl, fun _ hsign ↦ Piece.noConfusion (ha.symm.trans hsign)⟩
  cases reader with
  | author =>
    cases h with
    | power _ h =>
      obtain ⟨a, q, rfl, ha⟩ := hprimary h
      exact ⟨a, _, rfl, ha⟩
    | noPower h => exact hprimary h
  | evaluation => exact hprimary h

end Derives

/-- Whether a piece after a part of a formula may belong to the part. -/
def Reader.continues (reader : Reader) (k : Kind) : Piece → Bool
  | .opening => true
  | .closing => false
  | .power =>
    match reader, k with
    | _, .level .primary | .evaluation, .level .signed => false
    | _, _ => true
  | .times _ =>
    match k with
    | .level .signed | .level .power | .level .primary => false
    | _ => true
  | .sign _ =>
    match k with
    | .level .sum | .sums _ | .arguments | .more => true
    | _ => false
  | .number _ | .name _ | .comma | .other =>
    match k with
    | .arguments | .more => true
    | _ => false

section Ends

variable {α : Type} (piece : α → Piece) (reader : Reader)

/-- What follows a part of a formula does not belong to the part. -/
def Ends (k : Kind) (s : List α) : Prop := ∀ a ∈ s.head?, reader.continues k (piece a) = false

end Ends

section Unique

variable {α : Type} {piece : α → Piece} {reader : Reader} {k k' : Kind} {t t' : Term}
  {p p' q s s' : List α} {a : α}

theorem ends_cons : Ends piece reader k (a :: s) ↔ reader.continues k (piece a) = false := by
  simp [Ends]

theorem ends_nil : Ends piece reader k [] := by simp [Ends]

theorem Ends.mono (h : Ends piece reader k s)
    (hk : ∀ q, reader.continues k q = false → reader.continues k' q = false) :
    Ends piece reader k' s := fun a ha ↦ hk _ (h a ha)

theorem Ends.not_cons (h : Ends piece reader k (a :: s))
    (ha : reader.continues k (piece a) = true) : False :=
  Bool.eq_false_iff.mp (ends_cons.mp h) ha

/-- What follows a part of a formula does not begin with a piece that the part goes on with. -/
theorem Ends.ne_cons {r : Piece} (h : Ends piece reader k s) (ha : piece a = r)
    (hr : reader.continues k r = true) : s ≠ a :: q := by
  rintro rfl
  exact h.not_cons (ha ▸ hr)

/-- The operand before other operands of a sum ends where they begin. -/
theorem Ends.sums (hs : Ends piece reader (.level .sum) s) (h : Derives piece reader (.sums t) t' q) :
    Ends piece reader (.level .product) (q ++ s) := by
  cases h with
  | endSum => exact hs.mono fun q ↦ by cases q <;> first | exact id | exact fun _ ↦ rfl
  | addend ha =>
    refine ends_cons.mpr ?_
    rw [ha]
    rfl

theorem Ends.products (hs : Ends piece reader (.level .product) s)
    (h : Derives piece reader (.products t) t' q) :
    Ends piece reader (.level reader.factor) (q ++ s) := by
  cases h with
  | endProduct =>
    cases reader <;> exact hs.mono fun q ↦ by cases q <;> first | exact id | exact fun _ ↦ rfl
  | factor ha =>
    refine ends_cons.mpr ?_
    rw [ha]
    cases reader <;> rfl

theorem Ends.more (hs : Ends piece reader .arguments s) (h : Derives piece reader .more t q) :
    Ends piece reader (.level .sum) (q ++ s) := by
  cases h with
  | noMore => exact hs.mono fun q ↦ by cases q <;> first | exact id | exact fun _ ↦ rfl
  | oneMore ha =>
    refine ends_cons.mpr ?_
    rw [ha]
    rfl

theorem Ends.unsigned (hs : Ends piece reader (.level .signed) s) :
    Ends piece reader (.level reader.unsigned) s := by
  cases reader <;> exact hs.mono fun q ↦ by cases q <;> exact id

theorem Ends.factor (hs : Ends piece reader (.level .power) s) :
    Ends piece reader (.level reader.factor) s := by
  cases reader <;> exact hs.mono fun q ↦ by cases q <;> exact id

theorem Ends.base (hs : Ends piece reader (.level .power) s) :
    Ends piece reader (.level reader.base) s := by
  cases reader <;> exact hs.mono fun q ↦ by cases q <;> first | exact id | exact fun _ ↦ rfl

theorem ends_base_power (ha : piece a = .power) : Ends piece reader (.level reader.base) (a :: s) := by
  refine ends_cons.mpr ?_
  rw [ha]
  cases reader <;> rfl

theorem ends_closing (ha : piece a = .closing) : Ends piece reader k (a :: s) := by
  refine ends_cons.mpr ?_
  rw [ha]
  rfl

theorem continues_power : reader.continues (.level .power) .power = true := by cases reader <;> rfl

theorem continues_arguments (ha : piece a ≠ .closing) :
    reader.continues .arguments (piece a) = true := by
  cases h : piece a <;> first | rfl | exact absurd h ha

/-- Two readings from the front of one text, each of which ends where the text does not go on, are
the same. -/
theorem Derives.unique (h : Derives piece reader k t p) (h' : Derives piece reader k t' p')
    (heq : p ++ s = p' ++ s') (hs : Ends piece reader k s) (hs' : Ends piece reader k s') :
    p = p' ∧ t = t' := by
  induction h generalizing t' p' s s' with
  | sum _ hq ih ih' =>
    cases h' with
    | sum hp' hq' =>
      rw [List.append_assoc, List.append_assoc] at heq
      obtain ⟨rfl, rfl⟩ := ih hp' heq (hs.sums hq) (hs'.sums hq')
      exact (ih' hq' (List.append_cancel_left heq) hs hs').imp (congrArg _) id
  | endSum =>
    cases h' with
    | endSum => exact ⟨rfl, rfl⟩
    | addend ha =>
      exact absurd heq (hs.ne_cons ha rfl)
  | addend ha _ hq ih ih' =>
    cases h' with
    | endSum =>
      exact absurd heq.symm (hs'.ne_cons ha rfl)
    | addend ha' hp' hq' =>
      simp only [List.cons_append, List.append_assoc, List.cons.injEq] at heq ⊢
      obtain ⟨rfl, heq⟩ := heq
      obtain rfl := Piece.sign.inj (ha.symm.trans ha')
      obtain ⟨rfl, rfl⟩ := ih hp' heq (Ends.sums hs hq) (Ends.sums hs' hq')
      exact (ih' hq' (List.append_cancel_left heq) hs hs').imp (fun hq ↦ ⟨rfl, congrArg _ hq⟩) id
  | product _ hq ih ih' =>
    cases h' with
    | product hp' hq' =>
      rw [List.append_assoc, List.append_assoc] at heq
      obtain ⟨rfl, rfl⟩ := ih hp' heq (hs.products hq) (hs'.products hq')
      exact (ih' hq' (List.append_cancel_left heq) hs hs').imp (congrArg _) id
  | endProduct =>
    cases h' with
    | endProduct => exact ⟨rfl, rfl⟩
    | factor ha =>
      exact absurd heq (hs.ne_cons ha rfl)
  | factor ha _ hq ih ih' =>
    cases h' with
    | endProduct =>
      exact absurd heq.symm (hs'.ne_cons ha rfl)
    | factor ha' hp' hq' =>
      simp only [List.cons_append, List.append_assoc, List.cons.injEq] at heq ⊢
      obtain ⟨rfl, heq⟩ := heq
      obtain rfl := Piece.times.inj (ha.symm.trans ha')
      obtain ⟨rfl, rfl⟩ := ih hp' heq (Ends.products hs hq) (Ends.products hs' hq')
      exact (ih' hq' (List.append_cancel_left heq) hs hs').imp (fun hq ↦ ⟨rfl, congrArg _ hq⟩) id
  | sign ha _ ih =>
    cases h' with
    | sign ha' hp' =>
      obtain ⟨rfl, htail⟩ := List.cons.inj heq
      obtain rfl := Piece.sign.inj (ha.symm.trans ha')
      exact (ih hp' htail hs hs').imp (congrArg _) (congrArg _)
    | unsigned hp' =>
      obtain ⟨a', q, rfl, ha'⟩ := hp'.exists_head_unsigned
      exact (ha' _ ((List.cons.inj heq).1 ▸ ha)).elim
  | unsigned hp ih =>
    cases h' with
    | sign ha' =>
      obtain ⟨a', q, rfl, ha⟩ := hp.exists_head_unsigned
      exact (ha _ ((List.cons.inj heq).1 ▸ ha')).elim
    | unsigned hp' => exact ih hp' heq hs.unsigned hs'.unsigned
  | power ha _ _ ih ih' =>
    cases h' with
    | power ha' hp' hq' =>
      rw [List.append_assoc, List.append_assoc] at heq
      obtain ⟨rfl, rfl⟩ := ih hp' heq (ends_base_power ha) (ends_base_power ha')
      obtain ⟨rfl, htail⟩ := List.cons.inj (List.append_cancel_left heq)
      exact (ih' hq' htail hs.factor hs'.factor).imp (congrArg fun q ↦ _ ++ _ :: q) (congrArg _)
    | noPower hp' =>
      rw [List.append_assoc] at heq
      obtain ⟨rfl, -⟩ := ih hp' heq (ends_base_power ha) hs'.base
      exact absurd (List.append_cancel_left heq).symm (hs'.ne_cons ha continues_power)
  | noPower _ ih =>
    cases h' with
    | power ha' hp' =>
      rw [List.append_assoc] at heq
      obtain ⟨rfl, -⟩ := ih hp' heq hs.base (ends_base_power ha')
      exact absurd (List.append_cancel_left heq) (hs.ne_cons ha' continues_power)
    | noPower hp' => exact ih hp' heq hs.base hs'.base
  | number ha =>
    cases h' with
    | number ha' =>
      obtain ⟨rfl, -⟩ := List.cons.inj heq
      exact ⟨rfl, congrArg _ (Piece.number.inj (ha.symm.trans ha'))⟩
    | name ha' | group ha' | call ha' =>
      exact Piece.noConfusion (ha.symm.trans ((List.cons.inj heq).1 ▸ ha'))
  | name ha =>
    cases h' with
    | name ha' =>
      obtain ⟨rfl, -⟩ := List.cons.inj heq
      exact ⟨rfl, congrArg _ (Piece.name.inj (ha.symm.trans ha'))⟩
    | call _ ha' =>
      exact absurd (List.cons.inj heq).2 (hs.ne_cons ha' rfl)
    | number ha' | group ha' =>
      exact Piece.noConfusion (ha.symm.trans ((List.cons.inj heq).1 ▸ ha'))
  | group ha hb _ ih =>
    cases h' with
    | group ha' hb' hp' =>
      simp only [List.cons_append, List.append_assoc, List.cons.injEq] at heq ⊢
      obtain ⟨rfl, heq⟩ := heq
      obtain ⟨rfl, rfl⟩ := ih hp' heq (ends_closing hb) (ends_closing hb')
      obtain ⟨rfl, -⟩ := List.cons.inj (List.append_cancel_left heq)
      exact ⟨⟨rfl, rfl⟩, rfl⟩
    | number ha' | name ha' | call ha' =>
      exact Piece.noConfusion (ha.symm.trans ((List.cons.inj heq).1 ▸ ha'))
  | call hn ha hb _ ih =>
    cases h' with
    | call hn' ha' hb' hp' =>
      simp only [List.cons_append, List.append_assoc, List.cons.injEq] at heq ⊢
      obtain ⟨rfl, rfl, heq⟩ := heq
      obtain rfl := Piece.name.inj (hn.symm.trans hn')
      obtain ⟨rfl, hts⟩ := ih hp' heq (ends_closing hb) (ends_closing hb')
      obtain ⟨rfl, -⟩ := List.cons.inj (List.append_cancel_left heq)
      exact ⟨⟨rfl, rfl, rfl⟩, congrArg _ (Term.list.inj hts)⟩
    | name hn' =>
      exact absurd (List.cons.inj heq).2.symm (hs'.ne_cons ha rfl)
    | number ha' | group ha' =>
      exact Piece.noConfusion (hn.symm.trans ((List.cons.inj heq).1 ▸ ha'))
  | noArguments =>
    cases h' with
    | noArguments => exact ⟨rfl, rfl⟩
    | someArguments hp' =>
      obtain ⟨a, q, rfl, ha⟩ := hp'.exists_head
      exact absurd heq (hs.ne_cons rfl (continues_arguments ha))
  | someArguments hp hq ih ih' =>
    cases h' with
    | noArguments =>
      obtain ⟨a, q, rfl, ha⟩ := hp.exists_head
      exact absurd heq.symm (hs'.ne_cons rfl (continues_arguments ha))
    | someArguments hp' hq' =>
      rw [List.append_assoc, List.append_assoc] at heq
      obtain ⟨rfl, rfl⟩ := ih hp' heq (hs.more hq) (hs'.more hq')
      refine (ih' hq' (List.append_cancel_left heq) hs hs').imp (congrArg _) fun hts ↦ ?_
      rw [Term.list.inj hts]
  | noMore =>
    cases h' with
    | noMore => exact ⟨rfl, rfl⟩
    | oneMore ha =>
      exact absurd heq (hs.ne_cons ha rfl)
  | oneMore ha _ hq ih ih' =>
    cases h' with
    | noMore =>
      exact absurd heq.symm (hs'.ne_cons ha rfl)
    | oneMore ha' hp' hq' =>
      simp only [List.cons_append, List.append_assoc, List.cons.injEq] at heq ⊢
      obtain ⟨rfl, heq⟩ := heq
      obtain ⟨rfl, rfl⟩ := ih hp' heq (Ends.more hs hq) (Ends.more hs' hq')
      refine (ih' hq' (List.append_cancel_left heq) hs hs').imp (fun hq ↦ ⟨rfl, congrArg _ hq⟩) ?_
      intro hts
      rw [Term.list.inj hts]

/-- What is read from all of a text is one term. -/
theorem Derives.eq_of_whole (h : Derives piece reader k t p) (h' : Derives piece reader k t' p) :
    t = t' := by
  have heq : p ++ [] = p ++ [] := rfl
  exact (h.unique h' heq ends_nil ends_nil).2

end Unique

end FormulaQuiz.Formula
