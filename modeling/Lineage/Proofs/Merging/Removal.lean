import Lineage.Proofs.Merging.Table

/-!
# When a run keeps the table intact

Merging is to remove duplicates and the field lists that nobody names any more. What it goes by
is the number that a duplicate names as its field list, and nothing says that the record with this
number is a field list. So merging does what it is meant to exactly if the numbers are well
wired, `WellWired`: a record other than a field list that a duplicate names by mistake has
to be held by a class that is kept, or be a duplicate whose own turn comes in time.

A table is `Intact` if every record other than a field list is in it or has been folded. It is so
at the end exactly if it is so all the way (`intact_of_intact_fold`), and a fold leaves it so
exactly if the wiring of its duplicate is good (`intact_fold`, `wired_of_intact_fold`).

Main result: `wellWired_iff_intact`.
-/

namespace Lineage.Merging

variable {t : TypeTable} {r : Resolution} {s : State} {pre post : List (TypeId × TypeId)}
  {k d x : TypeId} {removed : ClassRecord}

/-! ## Intact tables -/

/-- Every record other than a field list is still in the table or has been folded. -/
def Intact (t : TypeTable) (s : State) : Prop :=
  ∀ id ∈ t.ids, t.fieldList? id = none → id ∈ s.table.ids ∨ id ∈ s.report.merged.keys

theorem intact_start (t : TypeTable) (r : Resolution) : Intact t ⟨t, r, .empty⟩ :=
  fun _ hid _ => .inl hid

/-- What is missing once is missing for good. -/
theorem intact_of_intact_fold (h : Intact t (fold k s d)) : Intact t s := by
  intro id hid hl
  cases hc : s.table.classRecord? d with
  | none =>
    rw [fold_of_none hc] at h
    exact h id hid hl
  | some removed =>
    rcases h id hid hl with htable | hmerged
    · exact .inl ((mem_ids_fold_iff hc).1 htable).1
    · rcases (mem_merged_fold_iff hc).1 hmerged with hmerged | rfl
      · exact .inr hmerged
      · exact .inl (TypeTable.mem_ids_of_classRecord? hc)

theorem intact_runTo_of_append (pre post : List (TypeId × TypeId))
    (h : Intact t (runTo t r (pre ++ post))) : Intact t (runTo t r pre) := by
  induction post using List.reverseRecOn with
  | nil => rwa [List.append_nil] at h
  | append_singleton post p ih =>
    rw [← List.append_assoc, runTo_concat] at h
    exact ih (intact_of_intact_fold h)

/-- In an intact table the next duplicate is found. -/
theorem Intact.exists_classRecord? (h : Intact t s) (ht : Tracked t s) (hrec : Recorded pre s)
    (hp : plan t = pre ++ (k, d) :: post) : ∃ removed, s.table.classRecord? d = some removed := by
  obtain ⟨c, hc, _⟩ := TypeTable.mem_realIds_iff.1
    (mem_realIds_of_mem_plan (mem_plan_of_eq_append hp)).2
  have hl := TypeTable.fieldList?_eq_none_of_classRecord? hc
  rcases h d (TypeTable.mem_ids_of_classRecord? hc) hl with hd | hd
  · obtain ⟨list, hd⟩ := ht.remains.classRecord?_of_mem hc hd
    exact ⟨_, hd⟩
  · exact absurd hd (hrec.fresh hp).duplicate

/-- A definition that is not folded is in an intact table. -/
theorem Intact.mem_realIds (h : Intact t s) (ht : Tracked t s) {id : TypeId} (hid : id ∈ t.realIds)
    (hm : id ∉ s.report.merged.keys) : id ∈ s.table.realIds := by
  obtain ⟨c, hc, _⟩ := TypeTable.mem_realIds_iff.1 hid
  have hids : id ∈ s.table.ids := by
    rcases h id (TypeTable.mem_ids_of_classRecord? hc)
      (TypeTable.fieldList?_eq_none_of_classRecord? hc) with hids | hm'
    · exact hids
    · exact absurd hm' hm
  rw [ht.remains.realIds_eq]
  exact List.mem_filter.2 ⟨hid, decide_eq_true hids⟩

/-- As long as the table is intact every fold is made. -/
theorem folds_eq_of_intact (hpre : pre <+: plan t) (h : Intact t (runTo t r pre)) :
    (runTo t r pre).report.folds = pre := by
  refine plan_induction
    (P := fun pre => Intact t (runTo t r pre) → (runTo t r pre).report.folds = pre)
    (fun _ => rfl) ?_ pre hpre h
  intro pre k d post hp ih h'
  rw [runTo_concat] at h' ⊢
  have hpre : pre <+: plan t := ⟨_, hp.symm⟩
  have hrec := recorded_runTo t r pre hpre
  have hs := intact_of_intact_fold h'
  obtain ⟨removed, hremoved⟩ := hs.exists_classRecord? (tracked_runTo t r pre hpre) hrec hp
  rw [folds_fold hremoved (hrec.fresh hp).duplicate, ih hs]

/-! ## Well-wired tables -/

/-- A record that is no field list but that a duplicate names as its list does not get
lost. Either some class that is kept names it in the end, or it is a duplicate, and it has
been folded when the last duplicate that names it is. -/
def WellWired (t : TypeTable) : Prop :=
  ∀ d ∈ duplicates t, ∀ x ∈ t.ids, t.listOf? d = some x → t.fieldList? x = none →
    (∃ c, c ∉ duplicates t ∧ listAmong? t (plan t) c = some x) ∨
    ∃ d' ∈ duplicates t, t.listOf? d' = some x ∧
      (duplicates t).idxOf x ≤ (duplicates t).idxOf d'

/-- A table whose duplicates name nothing but field lists is well wired. -/
theorem wellWired_of_fieldLists (h : ∀ d ∈ duplicates t, ∀ x ∈ t.ids, t.listOf? d = some x →
    t.fieldList? x ≠ none) : WellWired t :=
  fun d hd x hx hdx hl => absurd hl (h d hd x hx hdx)

theorem duplicates_eq (hp : plan t = pre ++ (k, d) :: post) :
    duplicates t = (pre ++ [(k, d)]).map Prod.snd ++ post.map Prod.snd := by
  rw [duplicates, hp, ← List.map_append, List.append_assoc, List.singleton_append]

/-- A duplicate whose turn is yet to come. -/
theorem not_mem_of_mem_post (hp : plan t = pre ++ (k, d) :: post) {e : TypeId}
    (he : e ∈ post.map Prod.snd) : e ∉ (pre ++ [(k, d)]).map Prod.snd := by
  have hnd := nodup_duplicates t
  rw [duplicates_eq hp, List.nodup_append] at hnd
  exact fun hpre => hnd.2.2 e hpre e he rfl

/-- A class that names a list by way of the folds of the plan is a class. -/
theorem exists_classRecord?_of_listAmong? {folds : List (TypeId × TypeId)} {c : TypeId}
    (hsub : folds.Sublist (plan t)) (h : listAmong? t folds c = some x) :
    ∃ cr, t.classRecord? c = some cr := by
  rw [listAmong?, parts, List.findSome?_cons] at h
  split at h
  next hc =>
    obtain ⟨cr, hcr, _⟩ := Option.bind_eq_some_iff.1 hc
    exact ⟨cr, hcr⟩
  next =>
    obtain ⟨e, he, _⟩ := List.exists_of_findSome?_eq_some h
    have hce := hsub.mem (mem_foldedInto_iff.1 he)
    obtain ⟨cr, hcr, _⟩ := TypeTable.mem_realIds_iff.1 (mem_realIds_of_mem_plan hce).1
    exact ⟨cr, hcr⟩

/-- A duplicate names its own list for as long as it is there. -/
theorem listAmong?_of_mem_duplicates {folds : List (TypeId × TypeId)} {e : TypeId}
    (hsub : folds.Sublist (plan t)) (he : e ∈ duplicates t) :
    listAmong? t folds e = t.listOf? e :=
  listAmong?_of_childless fun _ hf => kept_not_mem_duplicates (hsub.mem hf) he

/-! ## One more fold -/

section Step

variable (hp : plan t = pre ++ (k, d) :: post) (hrec : Recorded pre s) (htr : Tracked t s)
  (hfolds : s.report.folds = pre)

include hp hrec htr hfolds

/-- While the table is intact, a class that has not been folded still names what it named. -/
theorem Intact.names (h : Intact t s) (hremoved : s.table.classRecord? d = some removed)
    {c : TypeId} (hc : c ∉ (pre ++ [(k, d)]).map Prod.snd)
    (hx : listAmong? t (pre ++ [(k, d)]) c = some x) :
    (withoutDuplicate s.table k removed).Names x := by
  have hsub : (pre ++ [(k, d)]).Sublist (plan t) := by
    rw [hp]
    exact List.Sublist.append_left (List.singleton_sublist.2 List.mem_cons_self) pre
  obtain ⟨cr, hcr⟩ := exists_classRecord?_of_listAmong? hsub hx
  rw [List.map_append, List.mem_append, not_or] at hc
  have hcs : c ∈ s.table.ids := by
    rcases h c (TypeTable.mem_ids_of_classRecord? hcr)
      (TypeTable.fieldList?_eq_none_of_classRecord? hcr) with hc' | hc'
    · exact hc'
    · rw [← MergeReport.map_snd_folds, hfolds] at hc'
      exact absurd hc' hc.1
  have hcw : c ∈ (withoutDuplicate s.table k removed).ids := by
    rw [mem_ids_withoutDuplicate_iff, TypeTable.id_of_classRecord? hremoved]
    exact ⟨hcs, by simpa using hc.2⟩
  refine ⟨c, ?_⟩
  rw [htr.listOf?_withoutDuplicate (hrec.fresh hp)
    (mem_realIds_of_mem_plan (mem_plan_of_eq_append hp)).1 hremoved hcw, hfolds, hx]

/-- Good wiring keeps the table intact. -/
theorem intact_fold (hw : WellWired t) (h : Intact t s) : Intact t (fold k s d) := by
  obtain ⟨removed, hremoved⟩ := h.exists_classRecord? htr hrec hp
  have hdup : d ∈ duplicates t := List.mem_map_of_mem (mem_plan_of_eq_append hp)
  have hplan : plan t = (pre ++ [(k, d)]) ++ post := by rw [hp, List.append_assoc]; rfl
  have hsub : (pre ++ [(k, d)]).Sublist (plan t) := hplan ▸ List.sublist_append_left _ _
  -- What another duplicate names is named for as long as its turn has not come.
  have later : ∀ e ∈ duplicates t, ∀ y, t.listOf? e = some y →
      e ∉ (pre ++ [(k, d)]).map Prod.snd → (withoutDuplicate s.table k removed).Names y :=
    fun e he y hy hn => h.names hp hrec htr hfolds hremoved hn
      ((listAmong?_of_mem_duplicates hsub he).trans hy)
  intro x hx hl
  rw [mem_merged_fold_iff hremoved, mem_ids_fold_iff hremoved]
  rcases h x hx hl with hxs | hxm
  · by_cases hxd : x = d
    · exact .inr (.inr hxd)
    by_cases hxm : x ∈ s.report.merged.keys
    · exact .inr (.inl hxm)
    refine .inl ⟨hxs, hxd, fun hlist => ?_⟩
    have hdx : t.listOf? d = some x := by rw [← htr.list_removed (hrec.fresh hp) hremoved, hlist]
    rcases hw d hdup x hx hdx hl with ⟨c, hc, hcx⟩ | ⟨e, he, hex, hle⟩
    · rw [hplan, listAmong?_append] at hcx
      rcases Option.or_eq_some_iff.1 hcx with hcx | ⟨_, hcx⟩
      · refine h.names hp hrec htr hfolds hremoved (fun hn => hc ?_) hcx
        rw [duplicates_eq hp]
        exact List.mem_append_left _ hn
      · obtain ⟨e, he, hex⟩ := List.exists_of_findSome?_eq_some hcx
        have hpost : e ∈ post.map Prod.snd := List.mem_map_of_mem (mem_foldedInto_iff.1 he)
        refine later e ?_ x hex (not_mem_of_mem_post hp hpost)
        rw [duplicates_eq hp]
        exact List.mem_append_right _ hpost
    · refine later e he x hex fun hn => ?_
      -- The record would have been folded before the duplicate that names it.
      have hx_in : x ∈ (pre ++ [(k, d)]).map Prod.snd := by
        rw [duplicates_eq hp, List.idxOf_append_of_mem hn] at hle
        by_contra hx_out
        rw [List.idxOf_append_of_notMem hx_out] at hle
        have := List.idxOf_lt_length_iff.2 hn
        omega
      rw [List.map_append, ← hfolds, MergeReport.map_snd_folds] at hx_in
      rcases List.mem_append.1 hx_in with hx_in | hx_in
      · exact hxm hx_in
      · exact hxd (by simpa using hx_in)
  · exact .inr (.inl hxm)

/-- A fold that keeps the table intact is wired well, if it is the last of its list. -/
theorem wired_of_intact_fold (h : Intact t (fold k s d)) (hx : x ∈ t.ids)
    (hl : t.fieldList? x = none) (hdx : t.listOf? d = some x)
    (hlast : ∀ e ∈ post.map Prod.snd, t.listOf? e ≠ some x) :
    (∃ c, c ∉ duplicates t ∧ listAmong? t (plan t) c = some x) ∨
      ∃ d' ∈ duplicates t, t.listOf? d' = some x ∧
        (duplicates t).idxOf x ≤ (duplicates t).idxOf d' := by
  have hf := hrec.fresh hp
  obtain ⟨removed, hremoved⟩ := (intact_of_intact_fold h).exists_classRecord? htr hrec hp
  have hdup : d ∈ duplicates t := List.mem_map_of_mem (mem_plan_of_eq_append hp)
  have hplan : plan t = (pre ++ [(k, d)]) ++ post := by rw [hp, List.append_assoc]; rfl
  rcases h x hx hl with hxs | hxm
  · obtain ⟨_, _, hnames⟩ := (mem_ids_fold_iff hremoved).1 hxs
    obtain ⟨c, hc⟩ := hnames (by rw [htr.list_removed hf hremoved, hdx])
    have hcw := TypeTable.mem_ids_of_listOf? hc
    obtain ⟨hcs, hcd⟩ := mem_ids_withoutDuplicate_iff.1 hcw
    rw [TypeTable.id_of_classRecord? hremoved] at hcd
    rw [htr.listOf?_withoutDuplicate hf
      (mem_realIds_of_mem_plan (mem_plan_of_eq_append hp)).1 hremoved hcw, hfolds] at hc
    have hcdup : c ∉ duplicates t := by
      intro hcdup
      have hsub : (pre ++ [(k, d)]).Sublist (plan t) := hplan ▸ List.sublist_append_left _ _
      have hcx := (listAmong?_of_mem_duplicates hsub hcdup).symm.trans hc
      rw [duplicates_eq hp, List.mem_append, List.map_append, List.mem_append] at hcdup
      rcases hcdup with (hpre | hd) | hpost
      · rw [← hfolds, MergeReport.map_snd_folds] at hpre
        exact htr.gone c hpre hcs
      · exact hcd (by simpa using hd)
      · exact hlast c hpost hcx
    refine .inl ⟨c, hcdup, ?_⟩
    rw [hplan, listAmong?_append, hc]
    rfl
  · refine .inr ⟨d, hdup, hdx, ?_⟩
    have hnd : d ∉ pre.map Prod.snd := by
      rw [← hfolds, MergeReport.map_snd_folds]
      exact hf.duplicate
    have hx_in : x ∈ pre.map Prod.snd ++ [d] := by
      rw [← hfolds, MergeReport.map_snd_folds, List.mem_append, List.mem_singleton]
      exact (mem_merged_fold_iff hremoved).1 hxm
    have hd_in : d ∈ pre.map Prod.snd ++ [d] := List.mem_append_right _ List.mem_cons_self
    have hd_last : (pre.map Prod.snd ++ [d]).idxOf d = (pre.map Prod.snd).length := by
      rw [List.idxOf_append_of_notMem hnd]
      simp
    have hx_le := List.idxOf_lt_length_iff.2 hx_in
    rw [List.length_append, List.length_singleton] at hx_le
    rw [duplicates_eq hp, List.map_append]
    show (pre.map Prod.snd ++ [d] ++ _).idxOf x ≤ (pre.map Prod.snd ++ [d] ++ _).idxOf d
    rw [List.idxOf_append_of_mem hx_in, List.idxOf_append_of_mem hd_in, hd_last]
    omega

end Step

/-! ## The whole run -/

/-- Where something holds of an element of a list, there is a last such element. -/
theorem exists_last {α : Type} {P : α → Prop} {xs : List α} (h : ∃ a ∈ xs, P a) :
    ∃ pre a post, xs = pre ++ a :: post ∧ P a ∧ ∀ b ∈ post, ¬ P b := by
  induction xs with
  | nil =>
    obtain ⟨a, ha, _⟩ := h
    cases ha
  | cons x xs ih =>
    by_cases htail : ∃ a ∈ xs, P a
    · obtain ⟨pre, a, post, rfl, ha, hpost⟩ := ih htail
      exact ⟨x :: pre, a, post, rfl, ha, hpost⟩
    · obtain ⟨a, ha, hpa⟩ := h
      rcases List.mem_cons.1 ha with rfl | ha
      · exact ⟨[], a, xs, rfl, hpa, fun b hb hpb => htail ⟨b, hb, hpb⟩⟩
      · exact absurd ⟨a, ha, hpa⟩ htail

/-- A run leaves the table intact exactly if it is wired well. -/
theorem wellWired_iff_intact (t : TypeTable) (r : Resolution) :
    WellWired t ↔ Intact t (run t r) := by
  refine ⟨?_, ?_⟩
  · intro hw
    rw [run_eq_runTo]
    refine plan_induction (P := fun pre => Intact t (runTo t r pre)) (intact_start t r) ?_
      (plan t) (List.prefix_refl _)
    intro pre k d post hp hs
    have hpre : pre <+: plan t := ⟨_, hp.symm⟩
    rw [runTo_concat]
    exact intact_fold hp (recorded_runTo t r pre hpre) (tracked_runTo t r pre hpre)
      (folds_eq_of_intact hpre hs) hw hs
  · intro h d hd x hx hdx hl
    have some_names : ∃ p ∈ plan t, t.listOf? p.2 = some x := by
      obtain ⟨p, hp, rfl⟩ := List.mem_map.1 hd
      exact ⟨p, hp, hdx⟩
    obtain ⟨pre, ⟨k, d'⟩, post, hp, hd', hlast⟩ := exists_last some_names
    have hpre : pre <+: plan t := ⟨_, hp.symm⟩
    have hp' : plan t = pre ++ [(k, d')] ++ post := by rw [hp, List.append_assoc]; rfl
    rw [run_eq_runTo, hp'] at h
    have h' := intact_runTo_of_append _ _ h
    rw [runTo_concat] at h'
    refine wired_of_intact_fold hp (recorded_runTo t r pre hpre) (tracked_runTo t r pre hpre)
      (folds_eq_of_intact hpre (intact_of_intact_fold h')) h' hx hl hd' fun e he => ?_
    obtain ⟨p, hp, rfl⟩ := List.mem_map.1 he
    exact hlast p hp

end Lineage.Merging
