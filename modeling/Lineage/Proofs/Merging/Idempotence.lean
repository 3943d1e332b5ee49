import Lineage.Proofs.Merging.Table

/-!
# Merging again

The folds are planned before the first of them is made, and then the table changes under the
plan: a fold may delete the record of a class that is to be folded later, since a class may be
named as a field list by mistake. Such a fold is passed over. Either way the planned class is
gone when its turn is over, and it stays gone (`gone_runTo`). So at the end the definitions that
are left are first in their groups, and no two of them share a display name.

A table without repeated display names has nothing to merge (`plan_eq_nil_iff`), and a run leaves it
and its resolution as they are. Nothing of this asks where the resolution comes from, or
whether it belongs to the table.

Main result: `merges_once_and_for_all`.
-/

namespace Lineage.Merging

variable {t : TypeTable} {r : Resolution} {s : State} {pre : List (TypeId × TypeId)}
  {k d : TypeId}

/-! ## Tables with nothing to merge -/

/-- No two definitions have one display name. -/
def Distinct (t : TypeTable) : Prop := (t.realClasses.map ClassRecord.display).Nodup

theorem nodup_realClasses (t : TypeTable) : t.realClasses.Nodup :=
  t.nodup_realIds.of_map ClassRecord.id

theorem distinct_iff :
    Distinct t ↔ ∀ c ∈ t.realClasses, ∀ e ∈ t.realClasses, c.display = e.display → c = e := by
  refine ⟨fun h c hc e he => List.inj_on_of_nodup_map h hc he, fun h => ?_⟩
  exact (nodup_realClasses t).map_on h

/-- There is nothing to fold exactly if no display name is repeated. -/
theorem plan_eq_nil_iff : plan t = [] ↔ Distinct t := by
  have none_planned : plan t = [] ↔ ∀ d, d ∉ duplicates t := by
    rw [← List.eq_nil_iff_forall_not_mem, duplicates, List.map_eq_nil_iff]
  rw [none_planned, distinct_iff]
  refine ⟨fun h c hc e he hname => ?_, fun h d hd => ?_⟩
  · -- Both are first in the one group.
    obtain ⟨cs, hcs⟩ := (head_or_mem_duplicates hc).resolve_right (h c.id)
    obtain ⟨es, hes⟩ := (head_or_mem_duplicates he).resolve_right (h e.id)
    rw [hname, hes] at hcs
    exact (List.cons.inj hcs).1.symm
  · obtain ⟨c, cs, hg, hd⟩ := mem_duplicates_iff.1 hd
    obtain ⟨e, he, rfl⟩ := List.mem_map.1 hd
    have hc : c ∈ group t c.display := by rw [hg]; exact List.mem_cons_self
    have he' : e ∈ group t c.display := by rw [hg]; exact List.mem_cons_of_mem c he
    have hname := (mem_group_iff.1 he').2
    obtain rfl := h e (mem_group_iff.1 he').1 c (mem_group_iff.1 hc).1 hname
    have hnd := nodup_ids_group t e.display
    rw [hg, List.map_cons, List.nodup_cons] at hnd
    exact hnd.1 (List.mem_map_of_mem he)

/-- A run over such a table changes nothing, whatever the resolution. -/
theorem run_of_distinct (h : Distinct t) (r : Resolution) : run t r = ⟨t, r, .empty⟩ := by
  rw [run_eq_runTo, plan_eq_nil_iff.2 h]
  rfl

/-! ## Planned classes are gone -/

/-- A class that was missing before a fold is missing after it. -/
theorem classRecord?_fold_of_none {id : TypeId} (h : s.table.classRecord? id = none) :
    (fold k s d).table.classRecord? id = none := by
  by_contra hsome
  obtain ⟨c, hc⟩ := Option.ne_none_iff_exists'.1 hsome
  obtain ⟨c', hc', _⟩ := (remains_fold k s d).exists_classRecord? hc
  rw [h] at hc'
  cases hc'

/-- A fold leaves no class with the id of the duplicate, also if it is passed over. -/
theorem classRecord?_fold_self : (fold k s d).table.classRecord? d = none := by
  cases hremoved : s.table.classRecord? d with
  | none => exact classRecord?_fold_of_none hremoved
  | some removed =>
    by_contra hsome
    obtain ⟨c, hc⟩ := Option.ne_none_iff_exists'.1 hsome
    exact ((mem_ids_fold_iff hremoved).1 (TypeTable.mem_ids_of_classRecord? hc)).2.1 rfl

/-- No class is left whose fold was planned and whose turn is over. -/
theorem gone_runTo (t : TypeTable) (r : Resolution) (hpre : pre <+: plan t) :
    ∀ p ∈ pre, (runTo t r pre).table.classRecord? p.2 = none := by
  refine plan_induction (P := fun pre => ∀ p ∈ pre,
    (runTo t r pre).table.classRecord? p.2 = none) nofun ?_ pre hpre
  intro pre k d post _ ih p hp
  rw [runTo_concat]
  rcases List.mem_append.1 hp with hp | hp
  · exact classRecord?_fold_of_none (ih p hp)
  · obtain rfl := List.mem_singleton.1 hp
    exact classRecord?_fold_self

/-- What a run leaves of the definitions are first ones of their groups. -/
theorem exists_head_of_mem_realClasses_run {c : ClassRecord}
    (hc : c ∈ (run t r).table.realClasses) :
    ∃ c' cs, group t c.display = c' :: cs ∧ c'.id = c.id := by
  obtain ⟨hrecord, hreal⟩ := TypeTable.mem_realClasses_iff.1 hc
  obtain ⟨c', hc', hsame⟩ := (tracked_run t r).remains.exists_classRecord? hrecord
  have hid : c'.id = c.id := TypeTable.id_of_classRecord? hc'
  have hdisplay : c.display = c'.display := by rw [hsame]
  have hc't : c' ∈ t.realClasses := by
    refine TypeTable.mem_realClasses_iff.2 ⟨by rw [hid]; exact hc', ?_⟩
    rw [← hreal, hsame]
  have left : c'.id ∉ duplicates t := by
    intro hdup
    obtain ⟨p, hp, hpid⟩ := List.mem_map.1 hdup
    have gone := gone_runTo t r (List.prefix_refl (plan t)) p hp
    rw [← run_eq_runTo, hpid, hid, hrecord] at gone
    cases gone
  obtain ⟨cs, hcs⟩ := (head_or_mem_duplicates hc't).resolve_right left
  exact ⟨c', cs, hdisplay ▸ hcs, hid⟩

/-- After a run no two definitions have one display name. -/
theorem distinct_run (t : TypeTable) (r : Resolution) : Distinct (run t r).table := by
  refine distinct_iff.2 fun c hc e he hname => ?_
  obtain ⟨c', cs, hcs, hcid⟩ := exists_head_of_mem_realClasses_run hc
  obtain ⟨e', es, hes, heid⟩ := exists_head_of_mem_realClasses_run he
  rw [hname, hes] at hcs
  obtain ⟨rfl, _⟩ := List.cons.inj hcs
  exact eq_of_id_eq hc he (hcid.symm.trans heid)

/-- One run merges all that there is to merge, in every table and with every resolution: no
display name is left to two definitions, and a second run reports nothing and leaves table and
resolution as they are. -/
theorem merges_once_and_for_all (t : TypeTable) (r : Resolution) :
    ((run t r).table.realClasses.map ClassRecord.display).Nodup ∧
      run (run t r).table (run t r).resolution =
        ⟨(run t r).table, (run t r).resolution, .empty⟩ :=
  ⟨distinct_run t r, run_of_distinct (distinct_run t r) _⟩

end Lineage.Merging
