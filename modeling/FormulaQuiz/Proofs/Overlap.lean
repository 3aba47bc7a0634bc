import FormulaQuiz.Proofs.Marks
import FormulaQuiz.Proofs.Substitution

/-!
# Names that contain an alias

A new alias is told from every name that is there, but a name that is added later is not compared
with the aliases that are there.  If none of them stands in it, aliases are told from all names, and
substitution leaves an alias as it is once it is in the text.
-/

namespace FormulaQuiz.AliasTable

variable {t : AliasTable}

/-- No alias stands in a name that is newer. -/
def Ahead (t : AliasTable) : Prop :=
  t.entries.Pairwise fun older newer ↦ ¬ older.2.toList <:+: newer.1.toList

/-- Aliases never stand in their own name or in an older one. -/
theorem Sound.told_iff (h : t.Sound) : t.Told t.names ↔ t.Ahead := by
  constructor
  · intro htold
    refine List.pairwise_of_forall_mem_list fun older holder newer hnewer ↦ ?_
    exact htold _ (List.mem_map_of_mem holder) _ (List.mem_map_of_mem hnewer)
  · intro hahead word hword name hname
    obtain ⟨e, he, rfl⟩ := List.mem_map.mp hword
    obtain ⟨e', he', rfl⟩ := List.mem_map.mp hname
    have hboth : t.entries.Pairwise fun x y ↦
        ¬ x.2.toList <:+: y.1.toList ∧ ¬ y.2.toList <:+: x.1.toList :=
      hahead.and h.fresh
    have hsymm : Std.Symm fun x y : String × String ↦
        ¬ x.2.toList <:+: y.1.toList ∧ ¬ y.2.toList <:+: x.1.toList := ⟨fun _ _ hxy ↦ hxy.symm⟩
    by_cases heq : e = e'
    · exact heq ▸ h.own e he
    · exact (hboth.forall he he' heq).1

/-- Names may be added to those of the beginning.  The aliases are told from all names iff none
stands in a newer name, as it is before any name is added; and then a text with the aliases is the
text in which every name that is replaced is a mark, which no later replacement touches. -/
theorem told_iff_ahead {σ : Type} [Random.WordSource σ] {policy : AliasPolicy}
    {names calls : List String} {t' : AliasTable} {source rest start rest' : σ}
    {results : List (Except Fault String)} (hgives : (ofNames policy names).Gives source t rest)
    (hrun : (t.assignEach calls).run start = ((results, t'), rest')) :
    t.Ahead ∧ (t'.Told t'.names ↔ t'.Ahead) ∧
      (t'.Ahead → ∀ text,
        t'.substitute text = String.ofList (Mark.text t'.word (Mark.ofText t'.names text))) := by
  obtain ⟨hsound, -, htold, hnames⟩ := sound_ofNames hgives
  have hsound' := (sound_assignEach hsound hrun).1
  refine ⟨?_, hsound'.told_iff, fun hahead text ↦ ?_⟩
  · exact hsound.told_iff.mp fun word hword n hn ↦ htold word hword n ((hnames n).mp hn)
  · exact substitute_eq (hsound'.distinct (hsound'.told_iff.mpr hahead)) text

/-- A name of its own is added to two others. -/
theorem ahead_of_new_name : ∃ t rest word t' rest',
    (ofNames ⟨8, 1000⟩ ["a", "F"]).Gives (Random.ChaCha.ofSeed 1) t rest ∧
      (t.assignEach ["q"]).run rest = (([.ok word], t'), rest') ∧ t'.Ahead ∧
      t'.substitute "q * a" =
        String.ofList (Mark.text t'.word (Mark.ofText t'.names "q * a")) := by
  obtain ⟨⟨word, t'⟩, rest', hgives, htest⟩ : ∃ given rest,
      ((do (← ofNames ⟨8, 1000⟩ ["a", "F"]).assign "q") :
        Trial Random.ChaCha (String × AliasTable)).Gives (Random.ChaCha.ofSeed 1) given rest ∧
      (given.2.aliases.all fun word ↦ given.2.names.all fun name ↦ !standsIn word name) = true :=
    Trial.exists_gives_of_any (by decide +kernel)
  obtain ⟨t, rest, hnames, hassign⟩ := Trial.gives_bind_iff.mp hgives
  have hrun : (t.assignEach ["q"]).run rest = (([.ok word], t'), rest') := by
    rw [run_assignEach_cons, hassign]
    rfl
  have htold : t'.Told t'.names := by
    rw [Told]
    simpa only [List.all_eq_true, Bool.not_eq_true', ← Bool.not_eq_true, standsIn_iff] using htest
  obtain ⟨-, hiff, hsubstitute⟩ := told_iff_ahead hnames hrun
  have hahead := hiff.mp htold
  exact ⟨t, rest, word, t', rest', hnames, hrun, hahead, hsubstitute hahead "q * a"⟩

/-- A name that is the alias of another one takes the place of that alias. -/
theorem substitute_alias_of_later_name : ∃ t rest word t' rest',
    (ofNames ⟨8, 1000⟩ ["resistance"]).Gives (Random.ChaCha.ofSeed 1) t rest ∧
      (t.assign "zpgjzhcf").Gives rest (word, t') rest' ∧ ¬ t'.Told t'.names ∧
      t'.alias? "resistance" = some "zpgjzhcf" ∧ t'.substitute "resistance" = word := by
  obtain ⟨⟨word, t'⟩, rest', hgives, htest⟩ : ∃ given rest,
      ((do (← ofNames ⟨8, 1000⟩ ["resistance"]).assign "zpgjzhcf") :
        Trial Random.ChaCha (String × AliasTable)).Gives (Random.ChaCha.ofSeed 1) given rest ∧
      (given.2.alias? "resistance" == some "zpgjzhcf" &&
        given.2.substitute "resistance" == given.1) = true := by
    refine Trial.exists_gives_of_any ?_
    simp only [substitute_eq_foldl]
    decide +kernel
  obtain ⟨t, rest, hnames, hassign⟩ := Trial.gives_bind_iff.mp hgives
  rw [Bool.and_eq_true, beq_iff_eq, beq_iff_eq] at htest
  refine ⟨t, rest, word, t', rest', hnames, hassign, fun htold ↦ ?_, htest.1, htest.2⟩
  obtain ⟨hname, rfl, hfresh⟩ := assign_gives hassign
  have hsound := (sound_ofNames hnames).1.push hname hfresh fun _ hn ↦ hn
  have hmem := List.mem_map_of_mem (f := Prod.snd) ((alias?_eq_some_iff hsound.nodup).mp htest.1)
  refine htold _ hmem "zpgjzhcf" ?_ List.infix_rfl
  rw [names_push]
  exact List.mem_append_right _ List.mem_cons_self

end FormulaQuiz.AliasTable
