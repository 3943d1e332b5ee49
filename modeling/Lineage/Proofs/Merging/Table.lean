import Lineage.Proofs.Merging.Renaming
import Lineage.Proofs.TypeTable.Growth

/-!
# What a run does to the table

A fold moves members, removes the duplicate, and then may remove the record that the duplicate
named as its field list. What is known of the table at any moment of a run is collected in
`Tracked`:

* it is what remains of the table at the start;
* a class in it names the first list that it or a class folded into it named at the start;
* no folded class is in it;
* a record of the start that a class of it names as its field list is in it, unless that
  record was folded.

The last point is what makes removing lists safe: a class that is yet to be folded still names
its list, so the list stays for as long as its members may be needed.
-/

namespace Lineage.Merging

open TypeTable (Remains)

variable {t : TypeTable} {r : Resolution} {s : State} {k d id : TypeId} {removed : ClassRecord}

/-! ## Members -/

/-- Giving members away removes nothing. -/
theorem remains_giveMembers (t : TypeTable) (k : TypeId) (removed : ClassRecord) :
    Remains t (giveMembers t k removed).1 := by
  unfold giveMembers
  split
  next => exact .refl t
  next => exact TypeTable.remains_adopt ..
  next =>
    split
    next => exact .refl t
    next =>
      split
      next => exact TypeTable.remains_mergeMembers ..
      next => exact .refl t

/-- Giving members away leaves all records where they are. -/
theorem ids_giveMembers (t : TypeTable) (k : TypeId) (removed : ClassRecord) :
    (giveMembers t k removed).1.ids = t.ids := by
  unfold giveMembers
  split
  next => rfl
  next => exact TypeTable.ids_adopt ..
  next =>
    split
    next => rfl
    next =>
      split
      next => exact TypeTable.ids_mergeMembers ..
      next => rfl

/-- The kept class adopts the list of the duplicate if it names none itself. -/
theorem listOf?_giveMembers (hk : id = k → (t.classRecord? k).isSome = true) :
    (giveMembers t k removed).1.listOf? id =
      if id = k then (t.listOf? k).or removed.fieldList else t.listOf? id := by
  unfold giveMembers
  rw [← TypeTable.listOf?]
  split
  next hr =>
    rw [hr, Option.or_none]
    split
    next h => rw [h]
    next => rfl
  next source hr ht =>
    rw [TypeTable.listOf?_adopt, hr, ht]
    by_cases h : id = k
    · rw [if_pos ⟨h, hk h⟩, if_pos h]
      rfl
    · rw [if_neg fun hn => h hn.1, if_neg h]
  next source target hr ht =>
    have unchanged : t.listOf? id =
        if id = k then (some target).or removed.fieldList else t.listOf? id := by
      split
      next h => rw [h, ht]; rfl
      next => rfl
    rw [ht]
    split
    next => exact unchanged
    next =>
      split
      next => rw [TypeTable.listOf?_mergeMembers]; exact unchanged
      next => exact unchanged

/-! ## The orphaned list -/

/-- Either a list is still named, or there is none to drop, and then nothing happens; or what has
its id goes. -/
theorem dropOrphan_eq (t : TypeTable) (removed : ClassRecord) :
    (dropOrphan t removed).1 = t ∧ (∀ x ∈ t.ids, removed.fieldList = some x → t.Names x) ∨
      ∃ x, removed.fieldList = some x ∧ ¬ t.Names x ∧ (dropOrphan t removed).1 = t.erase x := by
  unfold dropOrphan
  split
  next hr => exact .inl ⟨rfl, fun x _ hx => by rw [hr] at hx; cases hx⟩
  next list hr =>
    split
    next hn =>
      refine .inl ⟨rfl, fun x _ hx => ?_⟩
      obtain rfl := Option.some.inj (hr.symm.trans hx)
      exact TypeTable.any_classes_iff.1 hn
    next hn =>
      split
      next => exact .inr ⟨list, hr, fun h => hn (TypeTable.any_classes_iff.2 h), rfl⟩
      next habsent =>
        refine .inl ⟨rfl, fun x hx he => ?_⟩
        obtain rfl := Option.some.inj (hr.symm.trans he)
        obtain ⟨rec, hrec⟩ := TypeTable.mem_ids_iff.1 hx
        rw [hrec] at habsent
        exact absurd rfl habsent

/-- Dropping a list removes one record at most. -/
theorem remains_dropOrphan (t : TypeTable) (removed : ClassRecord) :
    Remains t (dropOrphan t removed).1 := by
  rcases dropOrphan_eq t removed with ⟨h, _⟩ | ⟨x, _, _, h⟩
  · rw [h]
    exact .refl t
  · rw [h]
    exact TypeTable.remains_erase t x

/-- A record stays unless it has the id of the removed list and no class names it. -/
theorem mem_ids_dropOrphan_iff :
    id ∈ (dropOrphan t removed).1.ids ↔
      id ∈ t.ids ∧ (removed.fieldList = some id → t.Names id) := by
  rcases dropOrphan_eq t removed with ⟨h, hn⟩ | ⟨x, hx, hn, h⟩
  · rw [h]
    exact ⟨fun hid => ⟨hid, hn id hid⟩, fun hid => hid.1⟩
  · rw [h, TypeTable.ids_erase, List.mem_filter]
    refine and_congr_right fun _ => ?_
    rw [decide_eq_true_iff, hx]
    refine ⟨fun hne he => absurd (Option.some.inj he).symm hne, fun hnames he => ?_⟩
    exact hn (he ▸ hnames (by rw [he]))

/-- What is left is as it was. -/
theorem get?_dropOrphan (h : id ∈ (dropOrphan t removed).1.ids) :
    (dropOrphan t removed).1.get? id = t.get? id := by
  rcases dropOrphan_eq t removed with ⟨he, _⟩ | ⟨x, _, _, he⟩
  · rw [he]
  · rw [he, TypeTable.ids_erase, List.mem_filter] at h
    rw [he, TypeTable.get?_erase, if_neg (by simpa using h.2)]

/-! ## One fold -/

/-- The table once the duplicate has given its members away and is gone. Its field list is still
there. -/
def withoutDuplicate (t : TypeTable) (k : TypeId) (removed : ClassRecord) : TypeTable :=
  (giveMembers t k removed).1.erase removed.id

theorem table_fold_eq (h : s.table.classRecord? d = some removed) :
    (fold k s d).table = (dropOrphan (withoutDuplicate s.table k removed) removed).1 := by
  rw [table_fold h, withoutDuplicate, TypeTable.id_of_classRecord? h]

/-- Until the list is looked at, the duplicate is all that goes. -/
theorem remains_withoutDuplicate (t : TypeTable) (k : TypeId) (removed : ClassRecord) :
    Remains t (withoutDuplicate t k removed) :=
  (remains_giveMembers t k removed).trans (TypeTable.remains_erase _ _)

/-- Until the list is looked at, every other record is there. -/
theorem mem_ids_withoutDuplicate_iff :
    id ∈ (withoutDuplicate t k removed).ids ↔ id ∈ t.ids ∧ id ≠ removed.id := by
  rw [withoutDuplicate, TypeTable.ids_erase, ids_giveMembers, List.mem_filter, decide_eq_true_iff]

/-- The kept class names its own list, or that of the duplicate if it had none. All others name what
they named. -/
theorem listOf?_withoutDuplicate (hk : id = k → (t.classRecord? k).isSome = true)
    (hid : id ≠ removed.id) :
    (withoutDuplicate t k removed).listOf? id =
      if id = k then (t.listOf? k).or removed.fieldList else t.listOf? id := by
  rw [withoutDuplicate, TypeTable.listOf?_erase, if_neg hid, listOf?_giveMembers hk]

/-- A fold removes records and lets others grow. -/
theorem remains_fold (k : TypeId) (s : State) (d : TypeId) :
    Remains s.table (fold k s d).table := by
  cases h : s.table.classRecord? d with
  | none =>
    rw [fold_of_none h]
    exact .refl _
  | some removed =>
    rw [table_fold_eq h]
    exact (remains_withoutDuplicate _ _ _).trans (remains_dropOrphan _ _)

/-- What a fold leaves in the table: everything but the duplicate and the record that it named,
unless a class still names that. -/
theorem mem_ids_fold_iff (h : s.table.classRecord? d = some removed) :
    id ∈ (fold k s d).table.ids ↔ id ∈ s.table.ids ∧ id ≠ d ∧
      (removed.fieldList = some id → (withoutDuplicate s.table k removed).Names id) := by
  rw [table_fold_eq h, mem_ids_dropOrphan_iff, mem_ids_withoutDuplicate_iff,
    TypeTable.id_of_classRecord? h, and_assoc]

/-- Dropping a list changes no class that stays. -/
theorem listOf?_fold (h : s.table.classRecord? d = some removed)
    (hid : id ∈ (fold k s d).table.ids) :
    (fold k s d).table.listOf? id = (withoutDuplicate s.table k removed).listOf? id := by
  rw [table_fold_eq h] at hid ⊢
  rw [TypeTable.listOf?, TypeTable.classRecord?, get?_dropOrphan hid]
  rfl

/-! ## The table during a run -/

/-- The first list that is named by a class or by one of those that are folded into it. -/
def listAmong? (t : TypeTable) (folds : List (TypeId × TypeId)) (id : TypeId) : Option TypeId :=
  (parts folds id).findSome? t.listOf?

/-- Later folds count only if none of the earlier classes named a list. -/
theorem listAmong?_append (folds more : List (TypeId × TypeId)) (id : TypeId) :
    listAmong? t (folds ++ more) id =
      (listAmong? t folds id).or ((foldedInto more id).findSome? t.listOf?) := by
  rw [listAmong?, parts_append, List.findSome?_append, listAmong?]

/-- A class that nothing was folded into names its own list. -/
theorem listAmong?_of_childless {folds : List (TypeId × TypeId)} (h : ∀ e, (id, e) ∉ folds) :
    listAmong? t folds id = t.listOf? id := by
  rw [listAmong?, parts_eq_singleton h, List.findSome?_cons]
  cases t.listOf? id <;> rfl

/-- What is known of the table of a state. -/
structure Tracked (t : TypeTable) (s : State) : Prop where
  remains : Remains t s.table
  lists : ∀ id ∈ s.table.ids, s.table.listOf? id = listAmong? t s.report.folds id
  gone : ∀ id ∈ s.report.merged.keys, id ∉ s.table.ids
  named : ∀ x ∈ t.ids, s.table.Names x → x ∈ s.table.ids ∨ x ∈ s.report.merged.keys

/-- Before the first fold all of this holds, as nothing has happened. -/
theorem tracked_start (t : TypeTable) (r : Resolution) : Tracked t ⟨t, r, .empty⟩ where
  remains := .refl t
  lists id _ := (listAmong?_of_childless (by simp)).symm
  gone id hid := absurd hid List.not_mem_nil
  named x hx _ := .inl hx

/-- A duplicate that is about to be folded names the list that it named at the start. -/
theorem Tracked.list_removed (h : Tracked t s) (hf : Fresh s.report k d)
    (hremoved : s.table.classRecord? d = some removed) : removed.fieldList = t.listOf? d := by
  have hd : d ∈ s.table.ids := TypeTable.mem_ids_of_classRecord? hremoved
  rw [← listAmong?_of_childless hf.childless, ← h.lists d hd, TypeTable.listOf?, hremoved]
  rfl

/-- A kept class that is in the table is a class there. -/
theorem Tracked.isSome_kept (h : Tracked t s) (hk : k ∈ t.realIds) (hks : k ∈ s.table.ids) :
    (s.table.classRecord? k).isSome = true := by
  obtain ⟨c, hc, _⟩ := TypeTable.mem_realIds_iff.1 hk
  obtain ⟨list, hc'⟩ := h.remains.classRecord?_of_mem hc hks
  rw [hc']
  rfl

/-- The lists that classes name once the duplicate is gone. -/
theorem Tracked.listOf?_withoutDuplicate (h : Tracked t s) (hf : Fresh s.report k d)
    (hk : k ∈ t.realIds) (hremoved : s.table.classRecord? d = some removed)
    (hid : id ∈ (withoutDuplicate s.table k removed).ids) :
    (withoutDuplicate s.table k removed).listOf? id =
      listAmong? t (s.report.folds ++ [(k, d)]) id := by
  obtain ⟨hids, hne⟩ := mem_ids_withoutDuplicate_iff.1 hid
  rw [Merging.listOf?_withoutDuplicate (fun e => h.isSome_kept hk (e ▸ hids)) hne,
    listAmong?_append, ← h.lists id hids]
  by_cases hik : id = k
  · subst hik
    rw [if_pos rfl, h.list_removed hf hremoved]
    simp [foldedInto]
  · simp [foldedInto, hik, Ne.symm hik]

/-- What is named once the duplicate is gone was named before. -/
theorem Tracked.names_of_withoutDuplicate (h : Tracked t s) (hk : k ∈ t.realIds)
    (hremoved : s.table.classRecord? d = some removed) {x : TypeId}
    (hx : (withoutDuplicate s.table k removed).Names x) : s.table.Names x := by
  obtain ⟨id, hid⟩ := hx
  obtain ⟨hids, hne⟩ := mem_ids_withoutDuplicate_iff.1 (TypeTable.mem_ids_of_listOf? hid)
  rw [Merging.listOf?_withoutDuplicate (fun e => h.isSome_kept hk (e ▸ hids)) hne] at hid
  split at hid
  next hik =>
    rcases Option.or_eq_some_iff.1 hid with hown | ⟨_, hgiven⟩
    · exact ⟨k, hown⟩
    · exact ⟨d, by rw [TypeTable.listOf?, hremoved]; exact hgiven⟩
  next => exact ⟨id, hid⟩

/-- A fold that is made keeps track. -/
theorem tracked_fold {pre post : List (TypeId × TypeId)} (hp : plan t = pre ++ (k, d) :: post)
    (hrec : Recorded pre s) (h : Tracked t s) (hremoved : s.table.classRecord? d = some removed) :
    Tracked t (fold k s d) := by
  have hf : Fresh s.report k d := hrec.fresh hp
  have hk : k ∈ t.realIds := (mem_realIds_of_mem_plan (mem_plan_of_eq_append hp)).1
  refine ⟨h.remains.trans (remains_fold k s d), fun id hid => ?_, fun id hid => ?_,
    fun x hx hn => ?_⟩
  · obtain ⟨hids, hne, _⟩ := (mem_ids_fold_iff hremoved).1 hid
    have hid' : id ∈ (withoutDuplicate s.table k removed).ids := by
      rw [mem_ids_withoutDuplicate_iff, TypeTable.id_of_classRecord? hremoved]
      exact ⟨hids, hne⟩
    rw [listOf?_fold hremoved hid, h.listOf?_withoutDuplicate hf hk hremoved hid',
      folds_fold hremoved hf.duplicate]
  · intro hids
    obtain ⟨hids, hne, _⟩ := (mem_ids_fold_iff hremoved).1 hids
    rcases (mem_merged_fold_iff hremoved).1 hid with hm | hm
    · exact h.gone id hm hids
    · exact hne hm
  · obtain ⟨id, hid⟩ := hn
    rw [listOf?_fold hremoved (TypeTable.mem_ids_of_listOf? hid)] at hid
    have still : (withoutDuplicate s.table k removed).Names x := ⟨id, hid⟩
    rw [mem_merged_fold_iff hremoved]
    rcases h.named x hx (h.names_of_withoutDuplicate hk hremoved still) with hxs | hxm
    · by_cases hxd : x = d
      · exact .inr (.inr hxd)
      · exact .inl ((mem_ids_fold_iff hremoved).2 ⟨hxs, hxd, fun _ => still⟩)
    · exact .inr (.inl hxm)

/-- It holds at any moment of a run, by induction on the part of the plan that is done. -/
theorem tracked_runTo (t : TypeTable) (r : Resolution) (pre : List (TypeId × TypeId))
    (hpre : pre <+: plan t) : Tracked t (runTo t r pre) :=
  runTo_induction (tracked_start t r) (fun _ _ _ _ _ _ hp hrec hc hs => tracked_fold hp hrec hs hc)
    pre hpre

/-- It holds at the end of a run. -/
theorem tracked_run (t : TypeTable) (r : Resolution) : Tracked t (run t r) := by
  rw [run_eq_runTo]
  exact tracked_runTo t r (plan t) (List.prefix_refl _)

end Lineage.Merging
