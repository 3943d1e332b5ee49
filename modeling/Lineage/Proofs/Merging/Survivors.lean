import Lineage.Proofs.Merging.Renaming

/-!
# Merging is one renaming

A run changes the resolution one fold at a time. All its folds amount to a single renaming,
made at once, by which every folded class goes by the name of its survivor.

`Renamed` is the invariant, over the folds that have been made. Its step is the renaming of one
more class, and the classes that live on in another are those that were folded into it so far.

The difficulty is in the base classes. A fold renames a set and drops repeats at once, and so does
every later fold, while the one renaming is made of all lists put together and drops repeats at the
end. Sets keep the order of insertion, so the two have to agree in order as well. They do, since
what is dropped early has been met before: lists are compared by their first occurrences
(`SameFirsts`), which renaming, appending and filtering leave alone.

A class that comes to have itself for a base class loses it in a fold. So the result speaks of
the base classes of a class other than itself.

Main result: `run_renames_resolution`.
-/

namespace Lineage.Merging

variable {t : TypeTable} {r : Resolution} {ps : List Procedure} {s : State} {k d : TypeId}

/-! ## The invariant -/

/-- The base classes of the parts of a class, by the names of their survivors. -/
def partBases (r : Resolution) (m : MergeReport) (c : TypeId) : List TypeId :=
  ((parts m.folds c).flatMap fun e => (r.basesOf e).elements).map m.survivor

/-- The resolution of a state is `r` with every folded class under the name of its survivor. -/
structure Renamed (r : Resolution) (s : State) : Prop where
  names : s.resolution.names = r.names.map fun _ id => s.report.survivor id
  references : s.resolution.references = r.references.map fun _ id => s.report.survivor id
  keys : s.resolution.bases.keys = r.bases.keys.filter (· ∉ s.report.merged.keys)
  bases : ∀ c ∈ s.resolution.bases.keys,
    SameFirsts ((s.resolution.basesOf c).elements.filter (· ≠ c))
      ((partBases r s.report c).filter (· ≠ c))
  self : ∀ c ∈ s.resolution.bases.keys, c ∈ s.resolution.basesOf c →
    c ∈ r.basesOf c ∧ foldedInto s.report.folds c = []
  gone : ∀ c ∈ s.report.merged.keys, c ∉ s.resolution.procedures.keys
  ascending : ∀ c, (s.resolution.proceduresOf c).Pairwise (· < ·)
  positions : ∀ c i, i ∈ s.resolution.proceduresOf c ↔
    ∃ e, s.report.survivor e = c ∧ i ∈ r.proceduresOf e

theorem renamed_start (h : Resolution.ofTable t ps = .ok r) : Renamed r ⟨t, r, .empty⟩ where
  names := r.names.map_eq_self.symm
  references := r.references.map_eq_self.symm
  keys := (List.filter_eq_self.2 fun c _ => by simp).symm
  bases c _ := by
    rw [partBases, parts_eq_singleton (by simp), List.flatMap_singleton,
      MergeReport.survivor_empty, List.map_id]
    exact .refl _
  self c _ hc := ⟨hc, rfl⟩
  gone c hc := absurd hc List.not_mem_nil
  ascending := Resolution.pairwise_proceduresOf h
  positions c i := by simp

/-- The classes with base classes are the definitions that are not folded. -/
theorem Renamed.mem_keys_iff (h : Renamed r s) (ht : Resolution.ofTable t ps = .ok r)
    {c : TypeId} :
    c ∈ s.resolution.bases.keys ↔ c ∈ t.realIds ∧ c ∉ s.report.merged.keys := by
  rw [h.keys, Resolution.keys_bases ht, List.mem_filter, decide_eq_true_iff]

/-! ## One more fold -/

section Step

variable {m m' : MergeReport}

/-- A map of ids is renamed once more. -/
theorem map_survivor_fold {α : Type} (hf : Fresh m k d) (hm : m'.merged = m.merged.insert d k)
    (ids : OrderedMap α TypeId) :
    (ids.map fun _ id => m.survivor id).map (fun _ id => renamed k d id) =
      ids.map fun _ id => m'.survivor id := by
  rw [OrderedMap.map_map]
  exact OrderedMap.map_congr fun _ id => (survivor_fold hf hm id).symm

/-- The base classes of parts are renamed once more. -/
theorem map_renamed_partBases (hf : Fresh m k d) (hm : m'.merged = m.merged.insert d k)
    (c : TypeId) :
    (partBases r m c).map (renamed k d) =
      ((parts m.folds c).flatMap fun e => (r.basesOf e).elements).map m'.survivor := by
  rw [partBases, List.map_map]
  exact List.map_congr_left fun id _ => (survivor_fold hf hm id).symm

/-- The kept class gets the base classes of the duplicate as well. -/
theorem partBases_kept (hf : Fresh m k d) (hm : m'.merged = m.merged.insert d k)
    (hfolds : m'.folds = m.folds ++ [(k, d)]) :
    partBases r m' k = (partBases r m k ++ partBases r m d).map (renamed k d) := by
  have more : parts m'.folds k = parts m.folds k ++ parts m.folds d := by
    rw [parts_eq_singleton hf.childless, hfolds, parts_concat_kept]
  rw [List.map_append, map_renamed_partBases hf hm, map_renamed_partBases hf hm, partBases, more,
    List.flatMap_append, List.map_append]

theorem partBases_of_ne {c : TypeId} (hf : Fresh m k d) (hm : m'.merged = m.merged.insert d k)
    (hfolds : m'.folds = m.folds ++ [(k, d)]) (hc : c ≠ k) :
    partBases r m' c = (partBases r m c).map (renamed k d) := by
  rw [map_renamed_partBases hf hm, partBases, hfolds, parts_concat_of_ne _ _ (Ne.symm hc)]

end Step

/-- The base classes of the kept class after a fold. -/
theorem Renamed.bases_kept (h : Renamed r s) (hf : Fresh s.report k d)
    (hk : k ∈ s.resolution.bases.keys) (hd : d ∈ s.resolution.bases.keys) :
    SameFirsts (((rename k d s.resolution).basesOf k).elements.filter (· ≠ k))
      (((partBases r s.report k ++ partBases r s.report d).map (renamed k d)).filter (· ≠ k)) := by
  have own := (h.bases k hk).filter (· ≠ d)
  have given := (h.bases d hd).filter (· ≠ k)
  refine (sameFirsts_basesOf_kept hd hf.ne).trans ?_
  rw [filter_map_renamed_kept, filter_map_renamed_kept, List.filter_append, List.filter_append,
    List.filter_append, List.filter_append]
  refine own.append ?_
  -- The two classes are left out in one order here and in the other order there.
  rw [List.filter_filter, List.filter_filter] at given ⊢
  simpa only [Bool.and_comm] using given

/-- The base classes of any other class after a fold. -/
theorem Renamed.bases_other {c : TypeId} (h : Renamed r s) (hf : Fresh s.report k d)
    (hd : d ∈ s.resolution.bases.keys) (hc : c ∈ s.resolution.bases.keys) (hck : c ≠ k)
    (hcd : c ≠ d) :
    SameFirsts (((rename k d s.resolution).basesOf c).elements.filter (· ≠ c))
      (((partBases r s.report c).map (renamed k d)).filter (· ≠ c)) := by
  rw [basesOf_rename_of_ne hd hf.ne hck hc hcd]
  refine (sameFirsts_renameBases k d c _).trans ?_
  rw [filter_map_renamed_of_ne hck hcd, filter_map_renamed_of_ne hck hcd]
  exact (h.bases c hc).map (renamed k d)

/-- A fold that is made keeps the invariant. -/
theorem renamed_fold {pre post : List (TypeId × TypeId)} {removed : ClassRecord}
    (ht : Resolution.ofTable t ps = .ok r) (hp : plan t = pre ++ (k, d) :: post)
    (hrec : Recorded pre s) (h : Renamed r s) (hremoved : s.table.classRecord? d = some removed) :
    Renamed r (fold k s d) := by
  have hf : Fresh s.report k d := hrec.fresh hp
  have hm := merged_fold (k := k) hremoved
  have hfolds := folds_fold (k := k) hremoved hf.duplicate
  have hres := resolution_fold (k := k) hremoved
  have hmem : (k, d) ∈ plan t := mem_plan_of_eq_append hp
  have hk := (h.mem_keys_iff ht).2 ⟨(mem_realIds_of_mem_plan hmem).1, hf.kept⟩
  have hd := (h.mem_keys_iff ht).2 ⟨(mem_realIds_of_mem_plan hmem).2, hf.duplicate⟩
  have keys : (fold k s d).resolution.bases.keys = s.resolution.bases.keys.filter (· ≠ d) := by
    rw [hres]
    exact keys_mergeBases _ hk hd hf.ne
  constructor
  case names =>
    rw [hres, rename, h.names]
    exact map_survivor_fold hf hm r.names
  case references =>
    rw [hres, rename, h.references]
    exact map_survivor_fold hf hm r.references
  case keys =>
    rw [keys, h.keys, List.filter_filter]
    refine List.filter_congr fun c _ => ?_
    simp [mem_merged_fold_iff hremoved, and_comm]
  case bases =>
    intro c hc
    rw [keys, List.mem_filter] at hc
    have hcd : c ≠ d := by simpa using hc.2
    by_cases hck : c = k
    · subst hck
      rw [hres, partBases_kept hf hm hfolds]
      exact h.bases_kept hf hk hd
    · rw [hres, partBases_of_ne hf hm hfolds hck]
      exact h.bases_other hf hd hc.1 hck hcd
  case self =>
    intro c hc hself
    rw [keys, List.mem_filter] at hc
    have hcd : c ≠ d := by simpa using hc.2
    by_cases hck : c = k
    · subst hck
      rw [hres] at hself
      exact absurd hself (not_mem_basesOf_kept hd hf.ne)
    · rw [hres, basesOf_rename_of_ne hd hf.ne hck hc.1 hcd] at hself
      obtain ⟨old, none⟩ := h.self c hc.1 (mem_of_mem_renameBases hself)
      rw [hfolds, foldedInto_concat, if_neg (Ne.symm hck), List.append_nil]
      exact ⟨old, none⟩
  case gone =>
    intro c hc
    rw [hres]
    rcases (mem_merged_fold_iff hremoved).1 hc with hc | rfl
    · have hck : c ≠ k := fun e => hf.kept (e ▸ hc)
      exact fun hmem => h.gone c hc (mem_keys_mergeProcedures hck hmem)
    · exact not_mem_keys_mergeProcedures hf.ne
  case ascending =>
    intro c
    rw [hres]
    exact pairwise_proceduresOf_rename hf.ne h.ascending
  case positions =>
    intro c i
    rw [hres, mem_proceduresOf_rename hf.ne]
    refine ⟨?_, ?_⟩
    · intro hi
      obtain ⟨e, he, hi⟩ := hi
      obtain ⟨b, hb, hi⟩ := (h.positions e i).1 hi
      exact ⟨b, by rw [survivor_fold hf hm, hb, he], hi⟩
    · intro hi
      obtain ⟨b, hb, hi⟩ := hi
      rw [survivor_fold hf hm] at hb
      exact ⟨s.report.survivor b, hb, (h.positions _ i).2 ⟨b, rfl, hi⟩⟩

/-! ## The whole run -/

theorem renamed_run (h : Resolution.ofTable t ps = .ok r) : Renamed r (run t r) :=
  run_induction (renamed_start h) fun _ _ _ _ _ _ hp hrec hc hs => renamed_fold h hp hrec hs hc

/-- The parts of a class, in the order in which they were folded, are the classes that live on
in it, in table order. -/
theorem parts_run {c : TypeId} (hc : c ∈ t.realIds) (hk : c ∉ (run t r).report.merged.keys) :
    parts (run t r).report.folds c = t.realIds.filter fun e => (run t r).report.survivor e = c := by
  have hrec := recorded_run t r
  -- Both are sublists of the definitions, and these have no repeats.
  have sub : (parts (run t r).report.folds c).Sublist t.realIds := by
    obtain ⟨cr, hcr, rfl⟩ := List.mem_map.1 hc
    rcases head_or_mem_duplicates hcr with ⟨cs, hg⟩ | hd
    · have group_sub : (cr.id :: cs.map ClassRecord.id).Sublist t.realIds := by
        rw [← List.map_cons, ← hg]
        exact List.filter_sublist.map _
      refine List.Sublist.trans ?_ group_sub
      rw [parts, ← foldedInto_plan hg]
      exact ((hrec.filter _).map Prod.snd).cons_cons _
    · rw [parts_eq_singleton fun e he =>
        kept_not_mem_duplicates (hrec.mem_plan (List.prefix_refl _) he) hd]
      exact List.singleton_sublist.2 hc
  refine eq_filter_of_sublist sub t.nodup_realIds fun e _ => ?_
  rw [decide_eq_true_iff, MergeReport.survivor_eq_iff, parts, List.mem_cons, mem_foldedInto_iff]
  refine ⟨?_, ?_⟩
  · intro he
    rcases he with rfl | he
    · exact .inr ⟨hk, rfl⟩
    · exact .inl he
  · intro he
    rcases he with he | he
    · exact .inr he
    · exact .inl he.2

/-- The kept classes of the folds that were made are the values of the report. -/
theorem mem_values_merged_iff {m : MergeReport} {v : TypeId} :
    v ∈ m.merged.values ↔ ∃ d, (v, d) ∈ m.folds := by
  simp only [OrderedMap.mem_values_iff, MergeReport.mem_folds_iff]

/-- Merging changes the resolution as one renaming by survivors would.

* Names and references keep their keys and now mean the survivors.
* The classes that have base classes are those that were not folded. Such a class, itself left
  out, has the base classes of all definitions that live on in it, by their survivors and in
  the order of their first mention. It is its own base class only if it was before and
  nothing was folded into it.
* No folded class has procedures. Those of any other class are, in ascending order, those of
  the definitions that live on in it.
* No survivor was folded. -/
theorem run_renames_resolution (h : Resolution.ofTable t ps = .ok r) :
    let after := (run t r).resolution
    let report := (run t r).report
    (after.names = r.names.map (fun _ id => report.survivor id) ∧
      after.references = r.references.map (fun _ id => report.survivor id)) ∧
    (after.bases.keys = r.bases.keys.filter (· ∉ report.merged.keys) ∧
      ∀ k ∈ after.bases.keys,
        (after.basesOf k).elements.filter (· ≠ k) =
          (((t.realIds.filter (report.survivor · = k)).flatMap fun c =>
            (r.basesOf c).elements).map report.survivor).eraseDups.filter (· ≠ k) ∧
        (k ∈ after.basesOf k → k ∈ r.basesOf k ∧ k ∉ report.merged.values)) ∧
    ((∀ d ∈ report.merged.keys, d ∉ after.procedures.keys) ∧
      ∀ k, (after.proceduresOf k).Pairwise (· < ·) ∧
        ∀ i, i ∈ after.proceduresOf k ↔ ∃ c, report.survivor c = k ∧ i ∈ r.proceduresOf c) ∧
    ∀ v ∈ report.merged.values, v ∉ report.merged.keys := by
  intro after report
  have hr : Renamed r (run t r) := renamed_run h
  have hrec : Recorded (plan t) (run t r) := recorded_run t r
  refine ⟨⟨hr.names, hr.references⟩, ⟨hr.keys, fun k hk => ⟨?_, fun hself => ?_⟩⟩,
    ⟨hr.gone, fun k => ⟨hr.ascending k, hr.positions k⟩⟩, fun v hv => ?_⟩
  · obtain ⟨hreal, hmerged⟩ := (hr.mem_keys_iff h).1 hk
    have nodup : ((after.basesOf k).elements.filter (· ≠ k)).Nodup :=
      (after.basesOf k).nodup.filter _
    rw [← eraseDups_of_nodup nodup, hr.bases k hk, filter_eraseDups, partBases,
      parts_run hreal hmerged]
  · obtain ⟨old, none⟩ := hr.self k hk hself
    refine ⟨old, fun hv => ?_⟩
    obtain ⟨d, hd⟩ := mem_values_merged_iff.1 hv
    have hd' := mem_foldedInto_iff.2 hd
    rw [none] at hd'
    exact List.not_mem_nil hd'
  · obtain ⟨d, hd⟩ := mem_values_merged_iff.1 hv
    exact hrec.kept_not_mem_merged (List.prefix_refl _) hd

/-- Two units that both define `A` and `B`; only the second knows that `A` derives from `B`. -/
def twoUnits : TypeTable where
  records := [
    .classType ⟨⟨0x1000⟩, "A".toList, ".?AVA@@".toList, none, false⟩,
    .classType ⟨⟨0x1001⟩, "B".toList, ".?AVB@@".toList, none, false⟩,
    .classType ⟨⟨0x1002⟩, "A".toList, ".?AVA@@".toList, some ⟨0x1003⟩, false⟩,
    .fieldList ⟨⟨0x1003⟩, [.base ⟨0x1004⟩, .method "Run".toList ⟨0x1005⟩ false]⟩,
    .classType ⟨⟨0x1004⟩, "B".toList, ".?AVB@@".toList, none, false⟩,
    .memberFunction ⟨⟨0x1005⟩, ⟨0x1002⟩, none⟩]
  nodup := by decide

/-- What the two units resolve to, with a procedure of the second `A`. -/
def twoUnitsResolution : Resolution where
  names := .ofList [(".?AVA@@".toList, ⟨0x1000⟩), (".?AVB@@".toList, ⟨0x1001⟩)]
  references := ∅
  bases := .ofList [(⟨0x1000⟩, ∅), (⟨0x1001⟩, ∅), (⟨0x1002⟩, .ofList [⟨0x1004⟩]), (⟨0x1004⟩, ∅)]
  procedures := .ofList [(⟨0x1002⟩, [0])]

/-- The first `A` derives from the first `B` and has the procedure of the second `A`. -/
theorem run_renames_resolution_twoUnits :
    Resolution.ofTable twoUnits [⟨"A::Run".toList, some ⟨0x1005⟩, ⟨0x401000⟩⟩] =
      .ok twoUnitsResolution ∧
    ((run twoUnits twoUnitsResolution).resolution.basesOf ⟨0x1000⟩).elements.filter
      (· ≠ ⟨0x1000⟩) = [⟨0x1001⟩] ∧
    0 ∈ (run twoUnits twoUnitsResolution).resolution.proceduresOf ⟨0x1000⟩ := by
  have h : Resolution.ofTable twoUnits [⟨"A::Run".toList, some ⟨0x1005⟩, ⟨0x401000⟩⟩] =
      .ok twoUnitsResolution := rfl
  obtain ⟨_, ⟨_, bases⟩, ⟨_, procedures⟩, _⟩ := run_renames_resolution h
  refine ⟨h, ?_, ((procedures ⟨0x1000⟩).2 0).2 ⟨⟨0x1002⟩, by decide, by decide⟩⟩
  rw [(bases ⟨0x1000⟩ (by decide)).1]
  decide

end Lineage.Merging
