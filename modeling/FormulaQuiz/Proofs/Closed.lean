import FormulaQuiz.Formula.Call
import FormulaQuiz.Proofs.Outcomes
import FormulaQuiz.Proofs.Usage

/-!
# Terms and values that ask for known variables only

A term is closed under some names if it asks for no other variables.  A function without name keeps
the variables around it, so its body is closed under its parameters, and it may stand anywhere in a
value.  What operators, functions and links make of closed values is closed again.
-/

namespace FormulaQuiz.Formula

/-! ## Terms -/

/-- Which names a term may call, as functions and as methods, and what else it may do. -/
structure Repertoire where
  function : String → Prop
  method : String → Prop
  /-- Whether a term may ask for variables that there are not. -/
  strays : Prop
  /-- Whether a term may be of a form of its own, such as a loop or an attempt. -/
  forms : Prop
  /-- No script is run, since that might ask for any variable. -/
  ne_eval : ∀ {name}, function name → name ≠ "eval"

/-- A variable may be asked for beside some that there are. -/
def Repertoire.Admits (k : Repertoire) (names : List String) (name : String) : Prop :=
  name ∈ names ∨ k.strays

theorem Repertoire.Admits.mono {k : Repertoire} {names names' : List String} {name : String}
    (h : k.Admits names name) (hnames : names ⊆ names') : k.Admits names' name :=
  h.imp_left fun hmem ↦ hnames hmem

mutual

/-- A term that asks for no variables but those of some names, and calls what it may. -/
def Term.Closed (k : Repertoire) (names : List String) : Term → Prop
  | .unit | .number _ | .integer _ | .truth _ | .text _ | .character _ => True
  | .variable name => k.Admits names name
  | .foreign path _ => path = ["global"] → k.strays
  | .list items | .record _ items | .template items | .foreignCall _ _ items | .block items =>
    Term.ClosedAll k names items
  | .signed _ t | .negated t => t.Closed k names
  | .binary _ l r | .assign _ l r => l.Closed k names ∧ r.Closed k names
  | .call name _ items => k.function name ∧ Term.ClosedAll k names items
  | .chain base links => base.Closed k names ∧ Link.ClosedAll k names links
  | .closure parameters captured body =>
    (∀ name ∈ captured, k.Admits names name) ∧ body.Closed k (captured ++ parameters)
  | .self | .next => k.forms
  | .declare _ _ t | .leave t | .result t | .raise t | .loadModule t => k.forms ∧ t.Closed k names
  | .whileLoop l r | .doLoop l r _ => k.forms ∧ l.Closed k names ∧ r.Closed k names
  | .forLoop new l r => k.forms ∧ l.Closed k names ∧ r.Closed k (new ++ names)
  | .attempt l new r => k.forms ∧ l.Closed k names ∧ r.Closed k (new.toList ++ names)
  | .conditional guard yes no =>
    k.forms ∧ guard.Closed k names ∧ yes.Closed k names ∧ no.Closed k names
  | .selection subject cases otherwise =>
    k.forms ∧ subject.Closed k names ∧ Case.ClosedAll k names cases ∧ otherwise.Closed k names
  | .publish name => k.forms ∧ k.Admits names name

/-- Terms that ask for no variables but those of some names. -/
def Term.ClosedAll (k : Repertoire) (names : List String) : List Term → Prop
  | [] => True
  | t :: ts => t.Closed k names ∧ Term.ClosedAll k names ts

/-- A link whose terms ask for no variables but those of some names. -/
def Link.Closed (k : Repertoire) (names : List String) : Link → Prop
  | .method name arguments => k.method name ∧ Term.ClosedAll k names arguments
  | .property _ => True
  | .index _ t => t.Closed k names

/-- Links whose terms ask for no variables but those of some names. -/
def Link.ClosedAll (k : Repertoire) (names : List String) : List Link → Prop
  | [] => True
  | l :: ls => l.Closed k names ∧ Link.ClosedAll k names ls

/-- A case whose terms ask for no variables but those of some names. -/
def Case.Closed (k : Repertoire) (names : List String) : Case → Prop
  | .mk patterns guard action =>
    Term.ClosedAll k names patterns ∧ guard.Closed k names ∧ action.Closed k names

/-- Cases whose terms ask for no variables but those of some names. -/
def Case.ClosedAll (k : Repertoire) (names : List String) : List Case → Prop
  | [] => True
  | c :: cs => c.Closed k names ∧ Case.ClosedAll k names cs

end

section Terms

variable {k : Repertoire} {names bound : List String} {v : Vocabulary}

theorem Term.closedAll_iff {ts : List Term} :
    Term.ClosedAll k names ts ↔ ∀ t ∈ ts, t.Closed k names := by
  induction ts with
  | nil => exact ⟨fun _ ↦ nofun, fun _ ↦ trivial⟩
  | cons t ts ih => rw [Term.ClosedAll, ih, List.forall_mem_cons]

theorem Link.closedAll_iff {ls : List Link} :
    Link.ClosedAll k names ls ↔ ∀ l ∈ ls, l.Closed k names := by
  induction ls with
  | nil => exact ⟨fun _ ↦ nofun, fun _ ↦ trivial⟩
  | cons l ls ih => rw [Link.ClosedAll, ih, List.forall_mem_cons]

theorem Term.Fits.declared {t : Term} (h : t.Fits v) : t.declared = [] := by
  cases t with
  | declare => exact Bool.noConfusion h.1
  | _ => rfl

mutual

/-- The variables that a term leaves to its surroundings stand for values. -/
theorem Term.FitsAs.free : ∀ {bound : List String} {new : Bool} {t : Term}, t.FitsAs v new →
    ∀ w ∈ t.free bound, v.value w
  | bound, _, .variable name, h => by
    rw [Term.free]
    split
    · exact nofun
    · exact List.forall_mem_singleton.mpr h
  | _, _, .list items, h | _, _, .record _ items, h | _, _, .template items, h
  | _, _, .foreignCall _ _ items, h | _, _, .block items, h => by
    rw [Term.free]
    exact Term.FitsAll.free h
  | _, _, .call _ _ items, h => by
    rw [Term.free]
    exact Term.FitsAll.free h.2
  | _, _, .signed _ t, h | _, _, .negated t, h => by
    rw [Term.free]
    exact Term.FitsAs.free (t := t) h
  | _, _, .declare _ _ t, h => by
    rw [Term.free]
    exact h.2.2.free
  | _, _, .leave t, h | _, _, .result t, h | _, _, .raise t, h | _, _, .loadModule t, h => by
    rw [Term.free]
    exact h.2.free
  | _, _, .binary _ l r, h | _, _, .assign _ l r, h => by
    rw [Term.free]
    exact List.forall_mem_append.mpr ⟨h.1.free, h.2.free⟩
  | _, _, .whileLoop l r, h | _, _, .doLoop l r _, h | _, _, .forLoop _ l r, h
  | _, _, .attempt l _ r, h => by
    rw [Term.free]
    exact List.forall_mem_append.mpr ⟨h.2.1.free, h.2.2.free⟩
  | _, _, .chain base links, h => by
    rw [Term.free]
    exact List.forall_mem_append.mpr ⟨h.1.free, Link.FitsAll.free h.2⟩
  | _, _, .closure parameters captured body, h => by
    rw [Term.free, h.1]
    exact fun w hw ↦ h.2.free w (List.mem_eraseDups.mp (List.mem_filter.mp hw).1)
  | _, _, .conditional guard yes no, h => by
    rw [Term.free]
    refine List.forall_mem_append.mpr ⟨List.forall_mem_append.mpr ⟨h.2.1.free, ?_⟩, ?_⟩
    · exact h.2.2.1.free
    · exact h.2.2.2.free
  | _, _, .selection subject cases otherwise, h => by
    rw [Term.free]
    refine List.forall_mem_append.mpr ⟨List.forall_mem_append.mpr ⟨h.2.1.free, ?_⟩, ?_⟩
    · exact Case.FitsAll.free h.2.2.1
    · exact h.2.2.2.free
  | _, _, .unit, _ | _, _, .number _, _ | _, _, .integer _, _ | _, _, .truth _, _
  | _, _, .text _, _ | _, _, .character _, _ | _, _, .foreign _ _, _ | _, _, .self, _
  | _, _, .next, _ => by
    rw [Term.free]
    exact nofun

theorem Term.FitsAll.free : ∀ {bound : List String} {ts : List Term}, Term.FitsAll v ts →
    ∀ w ∈ Term.freeAll bound ts, v.value w
  | _, [], _ => nofun
  | _, _ :: _, h => List.forall_mem_append.mpr ⟨h.1.free, Term.FitsAll.free h.2⟩

theorem Link.Fits.free : ∀ {bound : List String} {l : Link}, l.Fits v →
    ∀ w ∈ l.free bound, v.value w
  | _, .method _ _, h => Term.FitsAll.free h.2
  | _, .property _, _ => nofun
  | _, .index _ t, h => Term.FitsAs.free (t := t) h

theorem Link.FitsAll.free : ∀ {bound : List String} {ls : List Link}, Link.FitsAll v ls →
    ∀ w ∈ Link.freeAll bound ls, v.value w
  | _, [], _ => nofun
  | _, _ :: _, h => List.forall_mem_append.mpr ⟨h.1.free, Link.FitsAll.free h.2⟩

theorem Case.Fits.free : ∀ {bound : List String} {c : Case}, c.Fits v →
    ∀ w ∈ c.free bound, v.value w
  | _, .mk _ _ _, h => by
    rw [Case.free]
    refine List.forall_mem_append.mpr ⟨List.forall_mem_append.mpr ⟨?_, h.2.1.free⟩, h.2.2.free⟩
    exact Term.FitsAll.free h.1

theorem Case.FitsAll.free : ∀ {bound : List String} {cs : List Case}, Case.FitsAll v cs →
    ∀ w ∈ Case.freeAll bound cs, v.value w
  | _, [], _ => nofun
  | _, _ :: _, h => List.forall_mem_append.mpr ⟨h.1.free, Case.FitsAll.free h.2⟩

end

/-- What is read from known words may be called, and has no forms but those that it may have. -/
structure Vocabulary.Within (v : Vocabulary) (k : Repertoire) : Prop where
  global : v.value "global" → k.strays
  function : ∀ w, v.value w ∨ v.function w → k.function w
  method : ∀ w, v.method w → k.method w
  forms : v.forms → k.forms

/-- Variables that are admitted are so beside new ones, which are too. -/
theorem Repertoire.admits_append {new : List String} (h : ∀ w ∈ bound, k.Admits names w) :
    ∀ w ∈ new ++ bound, k.Admits (new ++ names) w :=
  List.forall_mem_append.mpr ⟨fun _ hw ↦ .inl (List.mem_append_left names hw),
    fun w hw ↦ (h w hw).mono (List.subset_append_right new names)⟩

mutual

/-- A term that is read from known words is closed under the variables that it leaves to its
surroundings, and more. -/
theorem Term.FitsAs.closed (hv : v.Within k) : ∀ {names bound : List String} {new : Bool}
    {t : Term}, t.FitsAs v new → (∀ w ∈ bound, k.Admits names w) →
      (∀ w ∈ t.free bound, k.Admits names w) → t.Closed k names
  | _, bound, _, .variable name, _, hbound, hfree => by
    rw [Term.free] at hfree
    split at hfree
    next hmem => exact hbound name (List.contains_iff_mem.mp hmem)
    next => exact hfree name List.mem_cons_self
  | _, _, _, .foreign path name, h, _, _ => by
    obtain ⟨w, hw, hvalue⟩ := h
    rintro rfl
    cases hw
    exact hv.global hvalue
  | _, _, _, .list items, h, hbound, hfree | _, _, _, .record _ items, h, hbound, hfree
  | _, _, _, .template items, h, hbound, hfree | _, _, _, .foreignCall _ _ items, h, hbound, hfree
  | _, _, _, .block items, h, hbound, hfree => by
    rw [Term.free] at hfree
    exact Term.FitsAll.closed hv h hbound hfree
  | _, _, _, .call name _ items, h, hbound, hfree => by
    rw [Term.free] at hfree
    exact ⟨hv.function name h.1, Term.FitsAll.closed hv h.2 hbound hfree⟩
  | _, _, _, .signed _ t, h, hbound, hfree | _, _, _, .negated t, h, hbound, hfree => by
    rw [Term.free] at hfree
    exact Term.FitsAs.closed (t := t) hv h hbound hfree
  | _, _, _, .declare _ _ t, h, hbound, hfree => by
    rw [Term.free] at hfree
    exact ⟨hv.forms h.2.1, h.2.2.closed hv hbound hfree⟩
  | _, _, _, .leave t, h, hbound, hfree | _, _, _, .result t, h, hbound, hfree
  | _, _, _, .raise t, h, hbound, hfree | _, _, _, .loadModule t, h, hbound, hfree => by
    rw [Term.free] at hfree
    exact ⟨hv.forms h.1, h.2.closed hv hbound hfree⟩
  | _, _, _, .binary _ l r, h, hbound, hfree | _, _, _, .assign _ l r, h, hbound, hfree => by
    rw [Term.free, List.forall_mem_append] at hfree
    exact ⟨h.1.closed hv hbound hfree.1, h.2.closed hv hbound hfree.2⟩
  | _, _, _, .whileLoop l r, h, hbound, hfree | _, _, _, .doLoop l r _, h, hbound, hfree => by
    rw [Term.free, List.forall_mem_append] at hfree
    exact ⟨hv.forms h.1, h.2.1.closed hv hbound hfree.1, h.2.2.closed hv hbound hfree.2⟩
  | names, _, _, .forLoop new l r, h, hbound, hfree => by
    rw [Term.free, List.forall_mem_append] at hfree
    refine ⟨hv.forms h.1, h.2.1.closed hv hbound hfree.1, ?_⟩
    exact h.2.2.closed hv (Repertoire.admits_append hbound) fun w hw ↦
      (hfree.2 w hw).mono (List.subset_append_right new names)
  | names, _, _, .attempt l new r, h, hbound, hfree => by
    rw [Term.free, List.forall_mem_append] at hfree
    refine ⟨hv.forms h.1, h.2.1.closed hv hbound hfree.1, ?_⟩
    exact h.2.2.closed hv (Repertoire.admits_append hbound) fun w hw ↦
      (hfree.2 w hw).mono (List.subset_append_right new.toList names)
  | _, _, _, .chain base links, h, hbound, hfree => by
    rw [Term.free, List.forall_mem_append] at hfree
    exact ⟨h.1.closed hv hbound hfree.1, Link.FitsAll.closed hv h.2 hbound hfree.2⟩
  | names, bound, _, .closure parameters captured body, h, hbound, hfree => by
    rw [Term.free] at hfree
    have hparameters := List.subset_append_right captured parameters
    refine ⟨fun w hw ↦ ?_, h.2.closed hv (fun w hw ↦ .inl (hparameters hw)) fun w hw ↦ .inl ?_⟩
    · by_cases hmem : w ∈ bound
      · exact hbound w hmem
      · exact hfree w (List.mem_filter.mpr ⟨hw, by simpa using hmem⟩)
    · rw [h.1]
      exact List.mem_append_left _ (List.mem_eraseDups.mpr hw)
  | _, _, _, .conditional guard yes no, h, hbound, hfree => by
    rw [Term.free, List.forall_mem_append, List.forall_mem_append] at hfree
    refine ⟨hv.forms h.1, h.2.1.closed hv hbound hfree.1.1, ?_, ?_⟩
    · exact h.2.2.1.closed hv hbound hfree.1.2
    · exact h.2.2.2.closed hv hbound hfree.2
  | _, _, _, .selection subject cases otherwise, h, hbound, hfree => by
    rw [Term.free, List.forall_mem_append, List.forall_mem_append] at hfree
    refine ⟨hv.forms h.1, h.2.1.closed hv hbound hfree.1.1, ?_, ?_⟩
    · exact Case.FitsAll.closed hv h.2.2.1 hbound hfree.1.2
    · exact h.2.2.2.closed hv hbound hfree.2
  | _, _, _, .self, h, _, _ | _, _, _, .next, h, _, _ => hv.forms h
  | _, _, _, .unit, _, _, _ | _, _, _, .number _, _, _, _ | _, _, _, .integer _, _, _, _
  | _, _, _, .truth _, _, _, _ | _, _, _, .text _, _, _, _ | _, _, _, .character _, _, _, _ =>
    trivial

theorem Term.FitsAll.closed (hv : v.Within k) : ∀ {names bound : List String} {ts : List Term},
    Term.FitsAll v ts → (∀ w ∈ bound, k.Admits names w) →
      (∀ w ∈ Term.freeAll bound ts, k.Admits names w) → Term.ClosedAll k names ts
  | _, _, [], _, _, _ => trivial
  | _, _, t :: ts, h, hbound, hfree => by
    rw [Term.freeAll, Term.Fits.declared h.1, List.forall_mem_append] at hfree
    exact ⟨h.1.closed hv hbound hfree.1, Term.FitsAll.closed hv h.2 hbound hfree.2⟩

theorem Link.Fits.closed (hv : v.Within k) : ∀ {names bound : List String} {l : Link}, l.Fits v →
    (∀ w ∈ bound, k.Admits names w) → (∀ w ∈ l.free bound, k.Admits names w) → l.Closed k names
  | _, _, .method name _, h, hbound, hfree =>
    ⟨hv.method name h.1, Term.FitsAll.closed hv h.2 hbound hfree⟩
  | _, _, .property _, _, _, _ => trivial
  | _, _, .index _ t, h, hbound, hfree => Term.FitsAs.closed (t := t) hv h hbound hfree

theorem Link.FitsAll.closed (hv : v.Within k) : ∀ {names bound : List String} {ls : List Link},
    Link.FitsAll v ls → (∀ w ∈ bound, k.Admits names w) →
      (∀ w ∈ Link.freeAll bound ls, k.Admits names w) → Link.ClosedAll k names ls
  | _, _, [], _, _, _ => trivial
  | _, _, l :: ls, h, hbound, hfree => by
    rw [Link.freeAll, List.forall_mem_append] at hfree
    exact ⟨h.1.closed hv hbound hfree.1, Link.FitsAll.closed hv h.2 hbound hfree.2⟩

theorem Case.Fits.closed (hv : v.Within k) : ∀ {names bound : List String} {c : Case}, c.Fits v →
    (∀ w ∈ bound, k.Admits names w) → (∀ w ∈ c.free bound, k.Admits names w) → c.Closed k names
  | _, _, .mk _ _ _, h, hbound, hfree => by
    rw [Case.free, List.forall_mem_append, List.forall_mem_append] at hfree
    refine ⟨Term.FitsAll.closed hv h.1 hbound hfree.1.1, ?_, ?_⟩
    · exact h.2.1.closed hv hbound hfree.1.2
    · exact h.2.2.closed hv hbound hfree.2

theorem Case.FitsAll.closed (hv : v.Within k) : ∀ {names bound : List String} {cs : List Case},
    Case.FitsAll v cs → (∀ w ∈ bound, k.Admits names w) →
      (∀ w ∈ Case.freeAll bound cs, k.Admits names w) → Case.ClosedAll k names cs
  | _, _, [], _, _, _ => trivial
  | _, _, c :: cs, h, hbound, hfree => by
    rw [Case.freeAll, List.forall_mem_append] at hfree
    exact ⟨h.1.closed hv hbound hfree.1, Case.FitsAll.closed hv h.2 hbound hfree.2⟩

end

end Terms

/-! ## Values -/

/-- What a function value calls asks for no variables but its parameters. -/
def Callable.Closed (k : Repertoire) : Callable → Prop
  | .named _ => True
  | .closure parameters body => body.Closed k parameters

mutual

/-- A value whose functions ask for no variables but their parameters. -/
def Value.Closed (k : Repertoire) : Value → Prop
  | .list items => Value.ClosedAll k items
  | .record entries => Value.ClosedEntries k entries
  | .function f given => f.Closed k ∧ Argument.ClosedAll k given
  | _ => True
termination_by structural v => v

/-- Values whose functions ask for no variables but their parameters. -/
def Value.ClosedAll (k : Repertoire) : List Value → Prop
  | [] => True
  | v :: vs => v.Closed k ∧ Value.ClosedAll k vs
termination_by structural vs => vs

/-- Entries of a record whose functions ask for no variables but their parameters. -/
def Value.ClosedEntries (k : Repertoire) : List (String × Value) → Prop
  | [] => True
  | entry :: entries => Value.ClosedEntry k entry ∧ Value.ClosedEntries k entries
termination_by structural entries => entries

/-- An entry of a record whose functions ask for no variables but their parameters. -/
def Value.ClosedEntry (k : Repertoire) : String × Value → Prop
  | (_, v) => v.Closed k
termination_by structural entry => entry

/-- An argument whose functions ask for no variables but their parameters. -/
def Argument.Closed (k : Repertoire) : Argument → Prop
  | .value v => v.Closed k
  | .cell _ => True
termination_by structural a => a

/-- Arguments whose functions ask for no variables but their parameters. -/
def Argument.ClosedAll (k : Repertoire) : List Argument → Prop
  | [] => True
  | a :: as => a.Closed k ∧ Argument.ClosedAll k as
termination_by structural as => as

end

variable {k : Repertoire}

theorem Argument.closedAll_iff {as : List Argument} :
    Argument.ClosedAll k as ↔ ∀ a ∈ as, a.Closed k := by
  induction as with
  | nil => exact ⟨fun _ ↦ nofun, fun _ ↦ trivial⟩
  | cons a as ih => rw [Argument.ClosedAll, ih, List.forall_mem_cons]

namespace Value

variable {v w part i : Value} {name : String} {entries : List (String × Value)}

theorem closedAll_iff {vs : List Value} : ClosedAll k vs ↔ ∀ v ∈ vs, v.Closed k := by
  induction vs with
  | nil => exact ⟨fun _ ↦ nofun, fun _ ↦ trivial⟩
  | cons v vs ih => rw [ClosedAll, ih, List.forall_mem_cons]

theorem closedEntries_iff : ClosedEntries k entries ↔ ∀ e ∈ entries, e.2.Closed k := by
  induction entries with
  | nil => exact ⟨fun _ ↦ nofun, fun _ ↦ trivial⟩
  | cons entry entries ih =>
    obtain ⟨name, v⟩ := entry
    rw [ClosedEntries, ih, List.forall_mem_cons, ClosedEntry]

theorem IsFlat.closed (h : v.IsFlat) : v.Closed k := by
  cases v with
  | list | record | function => exact absurd h id
  | _ => trivial

theorem closed_of_lookup (h : ClosedEntries k entries) (hv : entries.lookup name = some v) :
    v.Closed k := by
  obtain ⟨front, back, rfl, -⟩ := List.lookup_eq_some_iff.mp hv
  exact closedEntries_iff.mp h (name, v) (List.mem_append_right _ List.mem_cons_self)

theorem closed_getD_lookup (h : ClosedEntries k entries) :
    ((entries.lookup name).getD .unit).Closed k := by
  cases hv : entries.lookup name with
  | none => trivial
  | some v => exact closed_of_lookup h hv

theorem closed_putEntry (hv : v.Closed k) (h : ClosedEntries k entries) :
    ClosedEntries k (putEntry name v entries) := by
  induction entries with
  | nil => exact ⟨hv, trivial⟩
  | cons entry entries ih =>
    obtain ⟨key, w⟩ := entry
    rw [putEntry]
    split
    · exact ⟨hv, h⟩
    · split
      · exact ⟨hv, h.2⟩
      · exact ⟨h.1, ih h.2⟩

theorem closed_ofEntries (h : ClosedEntries k entries) : (ofEntries entries).Closed k := by
  have hfold : ∀ sorted, ClosedEntries k sorted →
      ClosedEntries k (entries.foldl (fun sorted (name, v) ↦ putEntry name v sorted) sorted) := by
    induction entries with
    | nil => exact fun _ hsorted ↦ hsorted
    | cons entry entries ih =>
      obtain ⟨name, v⟩ := entry
      exact fun sorted hsorted ↦ ih h.2 _ (closed_putEntry h.1 hsorted)
  exact hfold [] trivial

theorem closed_set {items : List Value} (hpart : part.Closed k) (h : ClosedAll k items) (n : ℕ) :
    (Value.list (items.set n part)).Closed k := by
  refine closedAll_iff.mpr fun w hw ↦ ?_
  rcases List.mem_or_eq_of_mem_set hw with hw | rfl
  · exact closedAll_iff.mp h w hw
  · exact hpart

/-! ### Parts -/

theorem yields_getProperty (name : String) (hv : v.Closed k) :
    Yields (Value.Closed k) (getProperty name v) := by
  have hother : Yields (Value.Closed k) ((otherFunction? name v).getD (.error .failed)) := by
    cases hr : otherFunction? name v with
    | none => rfl
    | some r => exact (yields_otherFunction? hr).mono fun _ ↦ IsFlat.closed
  cases v with
  | record entries => exact closed_getD_lookup hv
  | _ =>
    simp only [getProperty]
    split
    · exact hother
    · rfl

theorem yields_putProperty (name : String) (hpart : part.Closed k) (hv : v.Closed k) :
    Yields (Value.Closed k) (putProperty name part v) := by
  cases v with
  | record entries => exact closed_putEntry hpart hv
  | _ => rfl

theorem yields_elim {v? : Option Value} (h : ∀ v, v? = some v → v.Closed k) :
    Yields (Value.Closed k) (v?.elim (.error .failed) .ok) := by
  cases v? with
  | none => rfl
  | some v => exact h v rfl

theorem yields_getIndex (i : Value) (hv : v.Closed k) : Yields (Value.Closed k) (getIndex i v) := by
  refine yields_elim fun w hw ↦ ?_
  split at hw
  · obtain ⟨place, -, hplace⟩ := Option.bind_eq_some_iff.mp hw
    exact closedAll_iff.mp hv w (List.mem_of_getElem? hplace)
  · cases hw
    exact closed_getD_lookup hv
  · obtain ⟨c, -, rfl⟩ := Option.map_eq_some_iff.mp hw
    trivial
  · obtain ⟨place, -, rfl⟩ := Option.map_eq_some_iff.mp hw
    trivial
  · exact nomatch hw

theorem yields_putIndex (i : Value) (hpart : part.Closed k) (hv : v.Closed k) :
    Yields (Value.Closed k) (putIndex i part v) := by
  refine yields_elim fun w hw ↦ ?_
  split at hw
  · obtain ⟨place, -, rfl⟩ := Option.map_eq_some_iff.mp hw
    exact closed_set hpart hv place
  · cases hw
    exact closed_putEntry hpart hv
  · obtain ⟨place, -, rfl⟩ := Option.map_eq_some_iff.mp hw
    trivial
  · obtain ⟨place, -, rfl⟩ := Option.map_eq_some_iff.mp hw
    exact IsFlat.closed trivial
  · exact nomatch hw

end Value

namespace LinkValue

variable {link : LinkValue} {v part : Value}

/-- A link whose values have functions that ask for no variables but their parameters. -/
def Closed (k : Repertoire) : LinkValue → Prop
  | .method _ arguments => Value.ClosedAll k arguments
  | _ => True

theorem yields_get (link : LinkValue) (hv : v.Closed k) : Yields (Value.Closed k) (link.get v) := by
  cases link with
  | method name arguments => rfl
  | property name => exact Value.yields_getProperty name hv
  | index optional i => exact Value.yields_getIndex i hv

theorem yields_put (link : LinkValue) (hpart : part.Closed k) (hv : v.Closed k) :
    Yields (Value.Closed k) (link.put part v) := by
  cases link with
  | method name arguments => rfl
  | property name => exact Value.yields_putProperty name hpart hv
  | index optional i => exact Value.yields_putIndex i hpart hv

theorem closed_update (link : LinkValue) (hpart : part.Closed k) (hv : v.Closed k) :
    (link.update part v).Closed k := by
  have hproperty : ∀ name, ((LinkValue.property name).update part v).Closed k := by
    intro name
    cases v with
    | record entries =>
      rw [update]
      split
      · exact Value.closed_putEntry hpart hv
      · exact hv
    | _ => exact hv
  cases link with
  | method name arguments => exact hv
  | property name => exact hproperty name
  | index optional i =>
    cases i with
    | text name => exact hproperty name
    | integer n =>
      cases v with
      | list items =>
        rw [update]
        split
        · exact Value.closed_set hpart hv _
        · exact hv
      | _ => exact hv
    | _ => exact hv

end LinkValue

end FormulaQuiz.Formula
