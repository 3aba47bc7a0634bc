import FormulaQuiz.Proofs.Options

/-!
# Which wrong values a pool has

Every deviation offers a wrong value, and an offer is taken if it is neither the right value nor one
that was taken before.  The pool has what is taken, in the order of the deviations; what is left out
is only what is there already, and a pool fails only for having too little.
-/

namespace FormulaQuiz

/-- What a deviation offers: the right value moved by it, at the author's precision. -/
def Decoy.offer (value : Float) (places : UInt8) (deviation : Float) : Decoy :=
  ⟨deviation, roundTo (value * (1 + deviation)) places⟩

/-- The offers that are marked. -/
def marked (offers : List Decoy) (marks : List Bool) : List Decoy :=
  ((offers.zip marks).filter (·.2)).map (·.1)

/-- An offer is marked just if its value differs from the right one, from the values seen before all
offers, and from those marked before it. -/
structure Takes (value : Float) (seen : List Float) (offers : List Decoy) (marks : List Bool) :
    Prop where
  length : marks.length = offers.length
  takes : ∀ (i : ℕ) (h : i < offers.length), marks[i]? = some true ↔
    (offers[i].value == value) = false ∧ (∀ x ∈ seen, (x == offers[i].value) = false) ∧
      ∀ (j : ℕ) (hj : j < i), marks[j]? = some true → (offers[j].value == offers[i].value) = false

section Takes

variable {value : Float} {seen : List Float} {offer : Decoy} {offers : List Decoy}
  {marks : List Bool}

/-- An offer that is new is marked, and then it counts as seen. -/
theorem Takes.take (hvalue : (offer.value == value) = false)
    (hseen : ∀ x ∈ seen, (x == offer.value) = false)
    (rest : Takes value (offer.value :: seen) offers marks) :
    Takes value seen (offer :: offers) (true :: marks) := by
  refine ⟨congrArg (· + 1) rest.length, fun i hi ↦ ?_⟩
  cases i with
  | zero => exact iff_of_true rfl ⟨hvalue, hseen, fun j hj ↦ absurd hj (Nat.not_lt_zero j)⟩
  | succ i =>
    refine (rest.takes i (Nat.lt_of_succ_lt_succ hi)).trans ⟨?_, ?_⟩
    · rintro ⟨hne, hbefore, hmarked⟩
      obtain ⟨hfirst, hbefore⟩ := List.forall_mem_cons.mp hbefore
      refine ⟨hne, hbefore, fun j hj hmark ↦ ?_⟩
      cases j with
      | zero => exact hfirst
      | succ j => exact hmarked j (Nat.lt_of_succ_lt_succ hj) hmark
    · rintro ⟨hne, hbefore, hmarked⟩
      have hfirst := hmarked 0 (Nat.succ_pos i) rfl
      exact ⟨hne, List.forall_mem_cons.mpr ⟨hfirst, hbefore⟩, fun j hj hmark ↦
        hmarked (j + 1) (Nat.succ_lt_succ hj) hmark⟩

/-- An offer that is not new is left out. -/
theorem Takes.leave (hold : (offer.value == value) = true ∨ ∃ x ∈ seen, (x == offer.value) = true)
    (rest : Takes value seen offers marks) :
    Takes value seen (offer :: offers) (false :: marks) := by
  refine ⟨congrArg (· + 1) rest.length, fun i hi ↦ ?_⟩
  cases i with
  | zero =>
    refine iff_of_false nofun ?_
    rintro ⟨hne, hbefore, -⟩
    rcases hold with heq | ⟨x, hx, heq⟩
    · exact Bool.eq_false_iff.mp hne heq
    · exact Bool.eq_false_iff.mp (hbefore x hx) heq
  | succ i =>
    refine (rest.takes i (Nat.lt_of_succ_lt_succ hi)).trans ⟨?_, ?_⟩
    · rintro ⟨hne, hbefore, hmarked⟩
      refine ⟨hne, hbefore, fun j hj hmark ↦ ?_⟩
      cases j with
      | zero => exact nomatch hmark
      | succ j => exact hmarked j (Nat.lt_of_succ_lt_succ hj) hmark
    · rintro ⟨hne, hbefore, hmarked⟩
      exact ⟨hne, hbefore, fun j hj hmark ↦ hmarked (j + 1) (Nat.succ_lt_succ hj) hmark⟩

/-- The wrong values are the offers that are taken. -/
theorem exists_takes (value : Float) (places : UInt8) (seen ds : List Float) :
    ∃ marks, Takes value seen (ds.map (Decoy.offer value places)) marks ∧
      decoysFrom value places seen ds = marked (ds.map (Decoy.offer value places)) marks := by
  induction ds generalizing seen with
  | nil => exact ⟨[], ⟨rfl, fun i h ↦ absurd h (Nat.not_lt_zero i)⟩, rfl⟩
  | cons d ds ih =>
    rw [decoysFrom]
    split
    next hold =>
      rw [Bool.or_eq_true, List.any_eq_true] at hold
      obtain ⟨marks, rest, heq⟩ := ih seen
      exact ⟨false :: marks, rest.leave hold, heq⟩
    next hnew =>
      rw [Bool.not_eq_true, Bool.or_eq_false_iff, List.any_eq_false] at hnew
      obtain ⟨marks, rest, heq⟩ := ih (roundTo (value * (1 + d)) places :: seen)
      refine ⟨true :: marks, rest.take hnew.1 fun x hx ↦ Bool.eq_false_iff.mpr (hnew.2 x hx), ?_⟩
      exact congrArg (Decoy.offer value places d :: ·) heq

/-- What is left out is there already: it is the right value, or one taken before. -/
theorem Takes.of_left (h : Takes value [] offers marks) {i : ℕ} (hi : i < offers.length)
    (hleft : marks[i]? = some false) : (offers[i].value == value) = true ∨
      ∃ (j : ℕ) (hj : j < i), marks[j]? = some true ∧
        (offers[j].value == offers[i].value) = true := by
  by_contra hnone
  simp only [not_or, not_exists, not_and, Bool.not_eq_true] at hnone
  have htaken := (h.takes i hi).mpr ⟨hnone.1, List.forall_mem_nil _, hnone.2⟩
  rw [hleft] at htaken
  exact nomatch htaken

/-- What is taken keeps its order. -/
theorem Takes.sublist_marked (h : Takes value seen offers marks) :
    (marked offers marks).Sublist offers := by
  have hzip := (List.filter_sublist (p := (·.2)) (l := offers.zip marks)).map Prod.fst
  rwa [List.map_fst_zip h.length.ge] at hzip

end Takes

/-- For the deviations of a range the wrong values are the offers that are neither the right value
nor one taken before; they differ, and keep the order of the deviations.  There is a pool just if
they are enough, and a pool as well as its fault has a label for every deviation. -/
theorem decoyPool_eq_marked {range : DecoyRange} {ds : List Float}
    (accepted : range.deviations = .ok ds) (name : String) (value : Float) (places : UInt8)
    (required : ℕ) :
    ∃ marks : List Bool,
      let offers := ds.map (Decoy.offer value places)
      let candidates := marked offers marks
      marks.length = offers.length ∧
      (∀ (i : ℕ) (h : i < offers.length),
        (marks[i]? = some true ↔ (offers[i].value == value) = false ∧
          ∀ (j : ℕ) (hj : j < i), marks[j]? = some true →
            (offers[j].value == offers[i].value) = false) ∧
        (marks[i]? = some false → (offers[i].value == value) = true ∨
          ∃ (j : ℕ) (hj : j < i), marks[j]? = some true ∧
            (offers[j].value == offers[i].value) = true)) ∧
      (∀ c ∈ candidates, (c.value == value) = false) ∧
      candidates.Pairwise (fun c c' ↦ (c.value == c'.value) = false) ∧
      (candidates.map (·.deviation)).Sublist ds ∧
      decoyPool name value places range required =
        if required ≤ candidates.length then
          .ok ⟨name, value, ds.map percentLabel, candidates⟩
        else .error (.insufficientDecoys name (ds.map percentLabel)) := by
  obtain ⟨marks, takes, heq⟩ := exists_takes value places [] ds
  refine ⟨marks, takes.length, fun i h ↦ ⟨?_, takes.of_left h⟩, ?_, ?_, ?_, ?_⟩
  · rw [takes.takes i h, and_iff_right (List.forall_mem_nil _)]
  · rw [← heq]
    exact fun c hc ↦ (beq_eq_false_of_mem_decoysFrom hc).1
  · rw [← heq]
    exact pairwise_decoysFrom
  · have hdeviations := takes.sublist_marked.map Decoy.deviation
    rwa [List.map_map, show Decoy.deviation ∘ Decoy.offer value places = id from rfl,
      List.map_id] at hdeviations
  · rw [decoyPool_eq accepted, heq]

theorem decoyPool_eq_marked_default : ∃ ds marks pool, defaultDecoys.deviations = .ok ds ∧
    decoyPool "n" 2 0 defaultDecoys 3 = .ok pool ∧
    pool.candidates = marked (ds.map (Decoy.offer 2 0)) marks ∧
    pool.candidates.map (·.value) = [0, 1, 3, 4] := by
  obtain ⟨pool, hpool, hvalues⟩ := Except.exists_eq_ok_of_any
    (show (decoyPool "n" 2 0 defaultDecoys 3).toOption.any
      (fun pool ↦ decide (pool.candidates.map (·.value) = [0, 1, 3, 4])) = true by decide +kernel)
  obtain ⟨ds, accepted, -⟩ := Except.bind_eq_ok_iff.mp hpool
  obtain ⟨marks, -, -, -, -, -, heq⟩ := decoyPool_eq_marked accepted "n" 2 0 3
  rw [hpool] at heq
  split at heq
  · cases heq
    exact ⟨ds, marks, _, accepted, hpool, rfl, of_decide_eq_true hvalues⟩
  · exact nomatch heq

end FormulaQuiz
