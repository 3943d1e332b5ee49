import Lineage.Proofs.Merging.Fold
import Lineage.Proofs.Resolution.Shape
import Mathlib.Data.List.Sort

/-!
# What one fold does to the resolution

A fold renames its duplicate all over the resolution and tidies up behind itself: repeats are
dropped, and the kept class loses itself as a base class. Each of the maps has a lemma here
that says what is left of that when the class itself is left out of its base classes. A
self-reference that comes up on the way is dropped early in one class and late in another, but
it is in none of these lists.

* `survivor_fold`: the next class to fold has been neither folded nor folded into, so
  renaming it after all the others is renaming by the larger report;
* `sameFirsts_basesOf_kept`, `sameFirsts_basesOf_rename`: the base classes;
* `mem_proceduresOf_rename`, `pairwise_proceduresOf_rename`: the procedures.

The state after several folds is known by the renaming of all of them at once. So each lemma is
about one fold and a class that the folds before it have left alone (`Fresh`), and the module above
this one puts them together by induction. Sets are compared by first occurrences, since repeats that
are dropped on the way are the only difference.
-/

namespace Lineage.Merging

variable {t : TypeTable} {r : Resolution} {ps : List Procedure} {s : State} {k d : TypeId}

/-! ## Renaming one class -/

theorem renamed_self (k d : TypeId) : renamed k d d = k := if_pos rfl

theorem renamed_of_ne {id : TypeId} (h : id ≠ d) : renamed k d id = id := if_neg h

/-- To a list without the duplicate nothing happens. -/
theorem map_renamed_of_not_mem {xs : List TypeId} (h : d ∉ xs) : xs.map (renamed k d) = xs := by
  have same : ∀ x ∈ xs, renamed k d x = x := fun x hx => renamed_of_ne fun e => h (e ▸ hx)
  rw [List.map_congr_left same, List.map_id']

/-- Leaving out a class that is not concerned, before or after. -/
theorem filter_map_renamed_of_ne {c : TypeId} (hk : c ≠ k) (hd : c ≠ d) (xs : List TypeId) :
    (xs.map (renamed k d)).filter (· ≠ c) = (xs.filter (· ≠ c)).map (renamed k d) := by
  rw [List.filter_map]
  congr 1
  refine List.filter_congr fun x _ => ?_
  by_cases hx : x = d
  · subst hx
    simp [renamed_self, Ne.symm hk, Ne.symm hd]
  · simp [renamed_of_ne hx]

/-- Leaving out the kept class leaves out the duplicate as well. -/
theorem filter_map_renamed_kept (xs : List TypeId) :
    (xs.map (renamed k d)).filter (· ≠ k) = (xs.filter (· ≠ k)).filter (· ≠ d) := by
  induction xs with
  | nil => rfl
  | cons x xs ih =>
    rw [List.map_cons]
    by_cases hd : x = d
    · subst hd
      rw [List.filter_cons_of_neg (by simp [renamed_self]), ih]
      by_cases hk : x = k <;> simp [hk]
    · by_cases hk : x = k
      · subst hk
        rw [renamed_of_ne hd, List.filter_cons_of_neg (by simp), ih,
          List.filter_cons_of_neg (by simp)]
      · rw [renamed_of_ne hd, List.filter_cons_of_pos (by simpa using hk), ih,
          List.filter_cons_of_pos (by simpa using hk), List.filter_cons_of_pos (by simpa using hd)]

/-! ## The survivors after one more fold -/

/-- What is known of the next fold: the kept class is not folded, and the duplicate is neither
folded nor folded into. -/
structure Fresh (m : MergeReport) (k d : TypeId) : Prop where
  ne : k ≠ d
  kept : k ∉ m.merged.keys
  duplicate : d ∉ m.merged.keys
  childless : ∀ e, (d, e) ∉ m.folds

/-- The next fold of the plan is fresh. -/
theorem Recorded.fresh {pre post : List (TypeId × TypeId)} (h : Recorded pre s)
    (hp : plan t = pre ++ (k, d) :: post) : Fresh s.report k d := by
  have hmem : (k, d) ∈ plan t := mem_plan_of_eq_append hp
  have hkd : k ∉ duplicates t := kept_not_mem_duplicates hmem
  have hd : d ∈ duplicates t := List.mem_map_of_mem hmem
  have hpre : pre <+: plan t := ⟨_, hp.symm⟩
  refine ⟨fun e => hkd (e ▸ hd), fun hk => hkd ?_, h.not_mem_merged hp, fun e he => ?_⟩
  · rw [← MergeReport.map_snd_folds] at hk
    exact ((h.trans hpre.sublist).map Prod.snd).mem hk
  · exact kept_not_mem_duplicates (h.mem_plan hpre he) hd

/-- Renaming by one more fold is renaming the survivors so far. -/
theorem survivor_fold {m m' : MergeReport} (h : Fresh m k d) (hm : m'.merged = m.merged.insert d k)
    (id : TypeId) : m'.survivor id = renamed k d (m.survivor id) := by
  rw [MergeReport.survivor, hm, OrderedMap.get?_insert]
  by_cases hid : id = d
  · subst hid
    rw [if_pos rfl, MergeReport.survivor_of_not_mem h.duplicate, renamed_self]
    rfl
  · have hne : m.survivor id ≠ d := by
      intro he
      rcases MergeReport.survivor_eq_iff.1 he with hf | hs
      · exact h.childless id hf
      · exact hid hs.2
    rw [if_neg hid, renamed_of_ne hne]
    rfl

/-! ## Base classes -/

theorem get?_giveBases (bases : OrderedMap TypeId (OrderedSet TypeId)) {given : OrderedSet TypeId}
    (hd : bases.get? d = some given) (h : k ≠ d) (c : TypeId) :
    (giveBases k d bases).get? c =
      if c = k then some (((bases.get? k).getD ∅).insertMany given.elements)
      else if c = d then none else bases.get? c := by
  unfold giveBases
  rw [hd]
  dsimp only
  rw [OrderedMap.get?_upsert, OrderedMap.get?_erase, OrderedMap.get?_erase, if_neg h]

theorem keys_mergeBases (bases : OrderedMap TypeId (OrderedSet TypeId))
    (hk : k ∈ bases.keys) (hd : d ∈ bases.keys) (h : k ≠ d) :
    (mergeBases k d bases).keys = bases.keys.filter (· ≠ d) := by
  obtain ⟨given, hgiven⟩ := OrderedMap.mem_keys_iff.1 hd
  unfold mergeBases giveBases
  rw [hgiven]
  dsimp only
  rw [OrderedMap.keys_map, OrderedMap.keys_upsert, OrderedMap.keys_erase,
    if_pos (List.mem_filter.2 ⟨hk, by simpa using h⟩)]

/-- Base classes after the renaming, the class itself aside. -/
theorem sameFirsts_renameBases (k d c : TypeId) (bases : OrderedSet TypeId) :
    SameFirsts ((renameBases k d c bases).elements.filter (· ≠ c))
      ((bases.elements.map (renamed k d)).filter (· ≠ c)) := by
  unfold renameBases
  split
  next =>
    have firsts := (OrderedSet.sameFirsts_elements_ofList
      ((bases.elements.map (renamed k d)).filter fun base => base ≠ c)).filter (· ≠ c)
    rw [List.filter_filter] at firsts
    simpa using firsts
  next h => rw [map_renamed_of_not_mem h]; exact .refl _

/-- A class is among its own base classes after the renaming only if it was before and
did not have the duplicate among them. -/
theorem mem_of_mem_renameBases {c : TypeId} {bases : OrderedSet TypeId}
    (h : c ∈ renameBases k d c bases) : c ∈ bases := by
  unfold renameBases at h
  split at h
  next =>
    rw [OrderedSet.mem_ofList, List.mem_filter] at h
    simp at h
  next => exact h

/-- The base classes of the kept class after a fold, itself aside: its own and those of
the duplicate, renamed. -/
theorem sameFirsts_basesOf_kept (hd : d ∈ s.resolution.bases.keys) (h : k ≠ d) :
    SameFirsts (((rename k d s.resolution).basesOf k).elements.filter (· ≠ k))
      ((((s.resolution.basesOf k).elements ++ (s.resolution.basesOf d).elements).map
        (renamed k d)).filter (· ≠ k)) := by
  obtain ⟨given, hgiven⟩ := OrderedMap.mem_keys_iff.1 hd
  have after : (rename k d s.resolution).basesOf k =
      (renameBases k d k ((s.resolution.basesOf k).insertMany given.elements)).erase k := by
    unfold Resolution.basesOf rename mergeBases
    dsimp only
    rw [OrderedMap.get?_map, get?_giveBases _ hgiven h, if_pos rfl]
    simp
  have given_eq : s.resolution.basesOf d = given := by
    rw [Resolution.basesOf, hgiven]
    rfl
  rw [after, OrderedSet.elements_erase, List.filter_filter, given_eq]
  have firsts := ((OrderedSet.sameFirsts_elements_insertMany (s.resolution.basesOf k)
    given.elements).map (renamed k d)).filter (· ≠ k)
  refine SameFirsts.trans ?_ firsts
  simpa using sameFirsts_renameBases k d k ((s.resolution.basesOf k).insertMany given.elements)

/-- The kept class does not derive from itself after a fold. -/
theorem not_mem_basesOf_kept {q : Resolution} (hd : d ∈ q.bases.keys) (h : k ≠ d) :
    k ∉ (rename k d q).basesOf k := by
  obtain ⟨given, hgiven⟩ := OrderedMap.mem_keys_iff.1 hd
  unfold Resolution.basesOf rename mergeBases
  dsimp only
  rw [OrderedMap.get?_map, get?_giveBases _ hgiven h, if_pos rfl]
  simp [OrderedSet.mem_def]

/-- The base classes of any other class after a fold. -/
theorem basesOf_rename_of_ne {c : TypeId} (hd : d ∈ s.resolution.bases.keys) (h : k ≠ d)
    (hck : c ≠ k) (hc : c ∈ s.resolution.bases.keys) (hcd : c ≠ d) :
    (rename k d s.resolution).basesOf c = renameBases k d c (s.resolution.basesOf c) := by
  obtain ⟨given, hgiven⟩ := OrderedMap.mem_keys_iff.1 hd
  obtain ⟨own, hown⟩ := OrderedMap.mem_keys_iff.1 hc
  unfold Resolution.basesOf rename mergeBases
  dsimp only
  rw [OrderedMap.get?_map, get?_giveBases _ hgiven h, if_neg hck, if_neg hcd, hown]
  simp [hck]

/-! ## Procedures -/

/-- Adds the positions that are new, at the end. -/
theorem mem_addPositions_iff {own given : List Nat} {i : Nat} :
    i ∈ given.foldl (fun ps p => if p ∈ ps then ps else ps ++ [p]) own ↔ i ∈ own ∨ i ∈ given := by
  induction given generalizing own with
  | nil => simp
  | cons p given ih =>
    rw [List.foldl_cons, ih]
    split
    next hp =>
      refine ⟨fun h => h.imp_right (List.mem_cons_of_mem p), fun h => ?_⟩
      rcases h with h | h
      · exact .inl h
      · rcases List.mem_cons.1 h with rfl | h
        · exact .inl hp
        · exact .inr h
    next => simp [or_assoc]

theorem nodup_addPositions {own given : List Nat} (h : own.Nodup) :
    (given.foldl (fun ps p => if p ∈ ps then ps else ps ++ [p]) own).Nodup := by
  induction given generalizing own with
  | nil => exact h
  | cons p given ih =>
    rw [List.foldl_cons]
    split
    next => exact ih h
    next hp => exact ih (by rw [← List.concat_eq_append]; exact h.concat hp)

theorem mem_mergePositions_iff {own given : List Nat} {i : Nat} :
    i ∈ mergePositions own given ↔ i ∈ own ∨ i ∈ given := by
  rw [mergePositions, List.mem_mergeSort, mem_addPositions_iff]

/-- Merged positions stand in ascending order, none twice. -/
theorem pairwise_mergePositions {own given : List Nat} (h : own.Pairwise (· < ·)) :
    (mergePositions own given).Pairwise (· < ·) := by
  have sorted : (mergePositions own given).Pairwise (· ≤ ·) := List.pairwise_mergeSort' (· ≤ ·) _
  have nodup : (mergePositions own given).Nodup :=
    (List.mergeSort_perm _ _).nodup_iff.2
      (nodup_addPositions (h.imp fun hab => Nat.ne_of_lt hab))
  exact (sorted.and nodup).imp fun hab => Nat.lt_of_le_of_ne hab.1 hab.2

theorem get?_mergeProcedures (owned : OrderedMap TypeId (List Nat)) (h : k ≠ d) (c : TypeId) :
    (mergeProcedures k d owned).get? c =
      if c = d then none
      else if c = k then (owned.get? d).elim (owned.get? k) fun given =>
        some (mergePositions ((owned.get? k).getD []) given)
      else owned.get? c := by
  cases hgiven : owned.get? d with
  | none =>
    have same : mergeProcedures k d owned = owned := by
      unfold mergeProcedures
      rw [hgiven]
    rw [same, Option.elim_none]
    by_cases hd : c = d
    · rw [if_pos hd, hd, hgiven]
    · rw [if_neg hd]
      by_cases hk : c = k
      · rw [if_pos hk, hk]
      · rw [if_neg hk]
  | some given =>
    have moved : mergeProcedures k d owned =
        (owned.erase d).upsert k fun own => mergePositions (own.getD []) given := by
      unfold mergeProcedures
      rw [hgiven]
    rw [moved, Option.elim_some, OrderedMap.get?_upsert, OrderedMap.get?_erase,
      OrderedMap.get?_erase, if_neg h]
    by_cases hk : c = k
    · rw [if_pos hk, hk, if_neg h, if_pos rfl]
    · rw [if_neg hk, if_neg hk]

theorem not_mem_keys_mergeProcedures {owned : OrderedMap TypeId (List Nat)} (h : k ≠ d) :
    d ∉ (mergeProcedures k d owned).keys := by
  rw [← OrderedMap.get?_eq_none_iff, get?_mergeProcedures _ h, if_pos rfl]

/-- Only the kept class may get procedures of its own by a fold. -/
theorem mem_keys_mergeProcedures {owned : OrderedMap TypeId (List Nat)} {c : TypeId} (hc : c ≠ k)
    (h : c ∈ (mergeProcedures k d owned).keys) : c ∈ owned.keys := by
  unfold mergeProcedures at h
  split at h
  next =>
    rw [OrderedMap.keys_upsert, OrderedMap.keys_erase] at h
    split at h
    next => exact (List.mem_filter.1 h).1
    next =>
      rcases List.mem_append.1 h with h | h
      · exact (List.mem_filter.1 h).1
      · exact absurd (List.mem_singleton.1 h) hc
  next => exact h

/-- The procedures of a class after a fold are those of all classes that go by its name. -/
theorem mem_proceduresOf_rename {q : Resolution} (h : k ≠ d) {c : TypeId} {i : Nat} :
    i ∈ (rename k d q).proceduresOf c ↔ ∃ e, renamed k d e = c ∧ i ∈ q.proceduresOf e := by
  unfold Resolution.proceduresOf rename
  dsimp only
  rw [get?_mergeProcedures _ h]
  by_cases hd : c = d
  · subst hd
    rw [if_pos rfl]
    refine ⟨fun hi => absurd hi List.not_mem_nil, fun hi => ?_⟩
    obtain ⟨e, he, _⟩ := hi
    by_cases hec : e = c
    · rw [hec, renamed_self] at he
      exact absurd he h
    · rw [renamed_of_ne hec] at he
      exact absurd he hec
  · rw [if_neg hd]
    by_cases hk : c = k
    · subst hk
      rw [if_pos rfl]
      have own_or_given : i ∈ ((q.procedures.get? d).elim (q.procedures.get? c) fun given =>
          some (mergePositions ((q.procedures.get? c).getD []) given)).getD [] ↔
          i ∈ (q.procedures.get? c).getD [] ∨ i ∈ (q.procedures.get? d).getD [] := by
        cases q.procedures.get? d with
        | none => simp
        | some given => exact mem_mergePositions_iff
      rw [own_or_given]
      refine ⟨?_, ?_⟩
      · intro hi
        rcases hi with hi | hi
        · exact ⟨c, renamed_of_ne h, hi⟩
        · exact ⟨d, renamed_self c d, hi⟩
      · intro hi
        obtain ⟨e, he, hi⟩ := hi
        by_cases hed : e = d
        · exact .inr (hed ▸ hi)
        · rw [renamed_of_ne hed] at he
          exact .inl (he ▸ hi)
    · rw [if_neg hk]
      refine ⟨fun hi => ⟨c, renamed_of_ne hd, hi⟩, fun hi => ?_⟩
      obtain ⟨e, he, hi⟩ := hi
      by_cases hed : e = d
      · rw [hed, renamed_self] at he
        exact absurd he.symm hk
      · rw [renamed_of_ne hed] at he
        exact he ▸ hi

theorem pairwise_proceduresOf_rename {q : Resolution} (h : k ≠ d) {c : TypeId}
    (hq : ∀ e, (q.proceduresOf e).Pairwise (· < ·)) :
    ((rename k d q).proceduresOf c).Pairwise (· < ·) := by
  unfold Resolution.proceduresOf rename
  dsimp only
  rw [get?_mergeProcedures _ h]
  split
  next => exact List.Pairwise.nil
  next =>
    split
    next =>
      cases q.procedures.get? d with
      | none => exact hq k
      | some given => exact pairwise_mergePositions (hq k)
    next => exact hq c

end Lineage.Merging
