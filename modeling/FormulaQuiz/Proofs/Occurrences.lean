import FormulaQuiz.Text.Symbol
import Mathlib.Data.Nat.Basic

/-!
# Which occurrences of a symbol are replaced

A text is cut at some places where a symbol stands, and the pieces are joined by its replacement.
The places are those that a scan from the left takes, and they depend on the text alone: what has
been replaced already is not looked at.  Every other place where the symbol stands overlaps one that
is taken.
-/

namespace FormulaQuiz.Text

/-- A symbol stands behind the first `start` characters of a text, glued on neither side. -/
def StandsBehind (symbol cs : List Char) (start : ℕ) : Prop :=
  ∃ left right, cs = left ++ symbol ++ right ∧ left.length = start ∧
    glued symbol.head? left.getLast? = false ∧ glued symbol.getLast? right.head? = false

/-- The places that are taken in a scan from `start`: the first one where the symbol stands, and then
those of the scan from its end. -/
inductive Picks (symbol cs : List Char) : (start : ℕ) → (places : List ℕ) → Prop
  | done {start : ℕ} : (∀ i, start ≤ i → ¬StandsBehind symbol cs i) → Picks symbol cs start []
  | pick {start i : ℕ} {places : List ℕ} : start ≤ i → StandsBehind symbol cs i →
    (∀ j, start ≤ j → j < i → ¬StandsBehind symbol cs j) →
      Picks symbol cs (i + symbol.length) places → Picks symbol cs start (i :: places)

/-- Where the gaps between some pieces begin, if a gap has `width` characters and `start` characters
stand in front of the first piece. -/
def gaps (width : ℕ) : (start : ℕ) → List (List Char) → List ℕ
  | start, u :: v :: us =>
    (start + u.length) :: gaps width (start + u.length + width) (v :: us)
  | _, _ => []

section Picks

variable {symbol cs front rest : List Char} {start i : ℕ} {places places' : List ℕ}

/-- Whether a symbol stands at the front of the rest of a text is seen in the whole text. -/
theorem standsAt_iff : standsAt symbol front.getLast? rest = true ↔
    StandsBehind symbol (front ++ rest) front.length := by
  rw [standsAt, Bool.and_eq_true, Bool.and_eq_true, Bool.not_eq_true', Bool.not_eq_true',
    List.isPrefixOf_iff_prefix]
  constructor
  · rintro ⟨⟨⟨right, rfl⟩, hleft⟩, hright⟩
    rw [List.drop_left] at hright
    exact ⟨front, right, (List.append_assoc ..).symm, rfl, hleft, hright⟩
  · rintro ⟨left, right, heq, hlength, hleft, hright⟩
    rw [List.append_assoc] at heq
    obtain ⟨rfl, rfl⟩ := List.append_inj heq hlength.symm
    rw [List.drop_left]
    exact ⟨⟨List.prefix_append symbol right, hleft⟩, hright⟩

theorem StandsBehind.add_length_le (h : StandsBehind symbol cs i) :
    i + symbol.length ≤ cs.length := by
  obtain ⟨left, right, rfl, rfl, -⟩ := h
  rw [List.length_append, List.length_append]
  omega

/-- Where the symbol does not stand, a scan goes on behind the next character. -/
theorem Picks.of_succ (h : Picks symbol cs (start + 1) places)
    (hnot : ¬StandsBehind symbol cs start) : Picks symbol cs start places := by
  have hskip : ∀ i, start ≤ i → StandsBehind symbol cs i → start + 1 ≤ i := by
    intro i hle hi
    rcases Nat.eq_or_lt_of_le hle with rfl | hlt
    · exact absurd hi hnot
    · exact hlt
  cases h with
  | done hnone => exact .done fun i hle hi ↦ hnone i (hskip i hle hi) hi
  | pick hle hi hfirst hrest =>
    exact .pick (Nat.le_of_succ_le hle) hi
      (fun j hj hlt hstands ↦ hfirst j (hskip j hj hstands) hlt hstands) hrest

/-- A scan has one outcome. -/
theorem Picks.unique (h : Picks symbol cs start places) (h' : Picks symbol cs start places') :
    places = places' := by
  induction h generalizing places' with
  | done hnone =>
    cases h' with
    | done => rfl
    | pick hle hi => exact absurd hi (hnone _ hle)
  | @pick start i places hle hi hfirst _ ih =>
    cases h' with
    | done hnone => exact absurd hi (hnone _ hle)
    | @pick _ j _ hle' hj hfirst' hrest' =>
      rcases lt_trichotomy i j with hlt | rfl | hlt
      · exact absurd hi (hfirst' i hle hlt)
      · rw [ih hrest']
      · exact absurd hj (hfirst j hle' hlt)

/-- Where the symbol stands behind the start of a scan, the place is taken, or it lies inside of a
place that is taken. -/
theorem Picks.mem_or_overlaps (h : Picks symbol cs start places) (hle : start ≤ i)
    (hi : StandsBehind symbol cs i) :
    i ∈ places ∨ ∃ j ∈ places, j < i ∧ i < j + symbol.length := by
  induction h with
  | done hnone => exact absurd hi (hnone i hle)
  | @pick start j places hj _ hfirst _ ih =>
    rcases lt_or_ge i (j + symbol.length) with hlt | hge
    · rcases lt_trichotomy i j with hbefore | rfl | hbehind
      · exact absurd hi (hfirst i hle hbefore)
      · exact .inl List.mem_cons_self
      · exact .inr ⟨j, List.mem_cons_self, hbehind, hlt⟩
    · refine (ih hge).imp (List.mem_cons_of_mem j) ?_
      rintro ⟨k, hk, hinside⟩
      exact ⟨k, List.mem_cons_of_mem j hk, hinside⟩

end Picks

/-! ## Replacing is cutting and joining -/

section Pieces

variable {symbol replacement : List Char}

/-- What belongs to an occurrence that is replaced is passed over. -/
theorem replaceFrom_skip (front q rest : List Char) :
    replaceFrom symbol replacement q.length front.getLast? (q ++ rest) =
      replaceFrom symbol replacement 0 (front ++ q).getLast? rest := by
  induction q generalizing front with
  | nil => rw [List.append_nil, List.length_nil, List.nil_append]
  | cons c q ih =>
    have hlast : (front ++ [c]).getLast? = some c := List.getLast?_concat
    rw [List.length_cons, List.cons_append, replaceFrom, ← hlast, ih, List.append_assoc]
    rfl

theorem gaps_cons (width start : ℕ) (c : Char) (u : List Char) (us : List (List Char)) :
    gaps width start ((c :: u) :: us) = gaps width (start + 1) (u :: us) := by
  cases us with
  | nil => rfl
  | cons v us => rw [gaps, gaps, List.length_cons, Nat.add_comm u.length, ← Nat.add_assoc]

theorem intercalate_cons (separator : List Char) (c : Char) (u : List Char)
    (us : List (List Char)) :
    separator.intercalate ((c :: u) :: us) = c :: separator.intercalate (u :: us) := by
  cases us with
  | nil => rw [List.intercalate_singleton, List.intercalate_singleton]
  | cons v us => rw [List.intercalate_cons_cons, List.intercalate_cons_cons, List.cons_append,
      List.cons_append]

/-- The rest of a text has pieces between which the symbol stands, and they are joined by its
replacement; the scan of the text from there takes the places between them. -/
theorem exists_pieces (hne : symbol ≠ []) (front cs : List Char) :
    ∃ u us, cs = symbol.intercalate (u :: us) ∧
      (∀ replacement, replaceFrom symbol replacement 0 front.getLast? cs =
        replacement.intercalate (u :: us)) ∧
      Picks symbol (front ++ cs) front.length (gaps symbol.length front.length (u :: us)) := by
  induction hlength : cs.length using Nat.strong_induction_on generalizing front cs with
  | _ n ih =>
  cases cs with
  | nil =>
    refine ⟨[], [], List.intercalate_singleton.symm, fun _ ↦ List.intercalate_singleton.symm, ?_⟩
    refine .done fun i hle hi ↦ ?_
    have hlong := hi.add_length_le
    have hpos := List.length_pos_iff.mpr hne
    rw [List.append_nil] at hlong
    omega
  | cons c cs =>
    rw [List.length_cons] at hlength
    by_cases hstands : standsAt symbol front.getLast? (c :: cs) = true
    · have hbehind := standsAt_iff.mp hstands
      obtain ⟨rest, hrest⟩ : symbol <+: c :: cs := by
        rw [standsAt, Bool.and_eq_true, Bool.and_eq_true, List.isPrefixOf_iff_prefix] at hstands
        exact hstands.1.1
      obtain ⟨d, q, rfl⟩ := List.exists_cons_of_ne_nil hne
      rw [List.cons_append] at hrest
      obtain ⟨rfl, rfl⟩ := List.cons.inj hrest
      rw [List.length_append] at hlength
      obtain ⟨u, us, hcut, hjoin, hpicks⟩ := ih rest.length (by omega) (front ++ d :: q) rest rfl
      rw [List.append_assoc, List.length_append] at hpicks
      refine ⟨[], u :: us, ?_, fun replacement ↦ ?_, ?_⟩
      · rw [List.intercalate_cons_cons, ← hcut]
        rfl
      · have hlast : (front ++ [d]).getLast? = some d := List.getLast?_concat
        rw [replaceFrom, if_pos hstands, List.length_cons, Nat.add_sub_cancel, ← hlast,
          replaceFrom_skip, List.append_assoc, List.singleton_append, hjoin,
          List.intercalate_cons_cons, List.nil_append]
      · exact .pick le_rfl hbehind (fun j hle hlt ↦ absurd hlt (not_lt.mpr hle)) hpicks
    · have hbehind := mt standsAt_iff.mpr hstands
      obtain ⟨u, us, hcut, hjoin, hpicks⟩ := ih cs.length (by omega) (front ++ [c]) cs rfl
      rw [List.append_assoc, List.length_append, List.singleton_append] at hpicks
      refine ⟨c :: u, us, ?_, fun replacement ↦ ?_, ?_⟩
      · rw [intercalate_cons, ← hcut]
      · have hlast : (front ++ [c]).getLast? = some c := List.getLast?_concat
        rw [replaceFrom, if_neg hstands, ← hlast, hjoin, intercalate_cons]
      · rw [gaps_cons]
        exact hpicks.of_succ hbehind

end Pieces

/-! ## Strings -/

theorem map_toList_ofList (us : List (List Char)) :
    (us.map String.ofList).map String.toList = us := by
  rw [List.map_map]
  exact List.map_id'' (fun _ ↦ String.toList_ofList) us

theorem ofList_intercalate (separator : String) (us : List (List Char)) :
    String.ofList (separator.toList.intercalate us) =
      separator.intercalate (us.map String.ofList) := by
  rw [← String.toList_inj, String.toList_ofList, String.toList_intercalate, map_toList_ofList]

/-- The bytes in front of a character are those of a text. -/
theorem exists_append_of_isValid {source : String} {stop : ℕ}
    (h : String.Pos.Raw.IsValid source ⟨stop⟩) :
    ∃ left right, source = left ++ right ∧ left.utf8ByteSize = stop ∧
      source.toByteArray.extract 0 stop = left.toByteArray := by
  obtain ⟨left, right, rfl, hstop⟩ := String.Pos.Raw.isValid_iff_exists_append.mp h
  have hsize : stop = left.utf8ByteSize := congrArg String.Pos.Raw.byteIdx hstop
  refine ⟨left, right, rfl, hsize.symm, ?_⟩
  rw [String.toByteArray_append, ByteArray.extract_append_eq_left]
  rw [String.size_toByteArray, hsize]

/-- The bytes of a symbol are found in those of a text only where its characters stand. -/
theorem exists_append_of_extract {source symbol : String} (hne : symbol ≠ "") {start : ℕ}
    (h : source.toByteArray.extract start (start + symbol.utf8ByteSize) = symbol.toByteArray) :
    ∃ left right, source = left ++ symbol ++ right ∧ left.utf8ByteSize = start := by
  have hpos : 0 < symbol.utf8ByteSize :=
    Nat.pos_of_ne_zero (mt String.utf8ByteSize_eq_zero_iff.mp hne)
  have hsize := congrArg ByteArray.size h
  rw [ByteArray.size_extract, String.size_toByteArray, String.size_toByteArray] at hsize
  have hend : start + symbol.utf8ByteSize ≤ source.utf8ByteSize := by omega
  have hvalid : (source.toByteArray.extract start (start + symbol.utf8ByteSize)).IsValidUTF8 :=
    h ▸ symbol.isValidUTF8
  rw [String.Pos.Raw.isValidUTF8_extract_iff ⟨start⟩ ⟨start + symbol.utf8ByteSize⟩
    (String.Pos.Raw.le_iff.mpr (Nat.le_add_right ..)) (String.Pos.Raw.le_iff.mpr hend)] at hvalid
  obtain heq | ⟨hstart, hstop⟩ := hvalid
  · have hbytes := congrArg String.Pos.Raw.byteIdx heq
    exact absurd hbytes (by dsimp only; omega)
  · obtain ⟨left, -, -, hlength, hleft⟩ := exists_append_of_isValid hstart
    obtain ⟨left', right, rfl, -, hleft'⟩ := exists_append_of_isValid hstop
    have hsplit : left' = left ++ symbol := by
      rw [← String.toByteArray_inj, String.toByteArray_append, ← hleft', ← hleft, ← h]
      exact ByteArray.extract_eq_extract_append_extract start (Nat.zero_le _) (Nat.le_add_right ..)
    exact ⟨left, right, congrArg (· ++ right) hsplit, hlength⟩

/-- Replacing a symbol cuts a text into pieces, which do not depend on the replacement, and joins them
by it.  The text is cut at the places that a scan from the left takes; where else the symbol stands, it
begins inside of one of them.  An occurrence in the bytes of the text is one in its characters, so
that no character is cut. -/
theorem replaceSymbol_eq_intercalate {source symbol : String} (hne : symbol ≠ "") :
    ∃ (pieces : List String) (places : List ℕ), pieces ≠ [] ∧
      source = symbol.intercalate pieces ∧
      (∀ replacement, replaceSymbol source symbol replacement = replacement.intercalate pieces) ∧
      places = gaps symbol.length 0 (pieces.map String.toList) ∧
      (∀ picked, Picks symbol.toList source.toList 0 picked ↔ picked = places) ∧
      (∀ i, StandsBehind symbol.toList source.toList i →
        i ∈ places ∨ ∃ j ∈ places, j < i ∧ i < j + symbol.length) ∧
      ∀ start, source.toByteArray.extract start (start + symbol.utf8ByteSize) =
        symbol.toByteArray →
          ∃ left right, source = left ++ symbol ++ right ∧ left.utf8ByteSize = start := by
  have hchars : symbol.toList ≠ [] := mt String.toList_eq_nil_iff.mp hne
  obtain ⟨u, us, hcut, hjoin, hpicks⟩ := exists_pieces hchars [] source.toList
  refine ⟨(u :: us).map String.ofList, _, List.cons_ne_nil _ _, ?_, fun replacement ↦ ?_, rfl, ?_, ?_,
    fun _ ↦ exists_append_of_extract hne⟩
  · rw [← ofList_intercalate, ← hcut, String.ofList_toList]
  · rw [replaceSymbol, if_neg (by rwa [String.isEmpty_iff]), ← ofList_intercalate, ← hjoin]
    rfl
  · intro picked
    rw [map_toList_ofList, ← String.length_toList]
    exact ⟨fun h ↦ h.unique hpicks, fun h ↦ h ▸ hpicks⟩
  · intro i hi
    rw [map_toList_ofList, ← String.length_toList]
    exact hpicks.mem_or_overlaps (Nat.zero_le i) hi

/-- Of two occurrences that overlap the first one is replaced. -/
theorem replaceSymbol_overlapping : replaceSymbol "ΩΩΩ+ΩΩ" "ΩΩ" "R" = "RΩ+R" ∧
    ∃ pieces : List String, "ΩΩ".intercalate pieces = "ΩΩΩ+ΩΩ" ∧ "R".intercalate pieces = "RΩ+R" ∧
      Picks "ΩΩ".toList "ΩΩΩ+ΩΩ".toList 0 (gaps "ΩΩ".length 0 (pieces.map String.toList)) := by
  have hreplaced : replaceSymbol "ΩΩΩ+ΩΩ" "ΩΩ" "R" = "RΩ+R" := by decide +kernel
  obtain ⟨pieces, places, -, hcut, hjoin, hplaces, hpicks, -⟩ :=
    @replaceSymbol_eq_intercalate "ΩΩΩ+ΩΩ" "ΩΩ" (by decide)
  refine ⟨hreplaced, pieces, hcut.symm, (hjoin "R").symm.trans hreplaced, ?_⟩
  exact (hpicks _).mpr hplaces.symm

end FormulaQuiz.Text
