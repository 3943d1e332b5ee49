import Lineage.Assembly
import Lineage.Proofs.Resolution.Shape

/-!
# What assembly refuses

Assembly makes one class of every definition of the table, whatever else it finds out
(`assemble_eq_ok_iff`). It refuses the result for one of two reasons. A base class is missing
only where the resolution names one that is no definition of the table
(`exists_of_assemble_eq_danglingBase`); shared names are another matter.

So a result that it lets pass is closed (`mem_ids_of_checkClosed`), and its names are distinct
(`nodup_of_checkNames`).

The second check goes through the classes and compares each with those before it. The lemma about it
speaks of the classes that have been passed, too, since that is what the loop hands on: the names
that are left are distinct, and none of them is a name that has been passed.

Which of the checks a fault comes from can be seen from the fault. The one for names never speaks of
a missing base class (`checkNamesAfter_ne_danglingBase`), so a fault that does is of the first
check.
-/

namespace Lineage.Assembly

variable {t : TypeTable} {r : Resolution} {ps : List Procedure} {index : Option Symbol.PublicIndex}
  {classes : List AssembledClass}

theorem assemble_eq_ok_iff :
    assemble t r ps index = .ok classes ↔
      classes = t.realClasses.map (assembleClass t r ps index) ∧
      checkClosed classes = .ok () ∧ checkNames classes = .ok () := by
  unfold assemble
  simp only [bind_eq_ok_iff]
  refine ⟨?_, ?_⟩
  · intro h
    obtain ⟨_, hclosed, _, hnames, hres⟩ := h
    obtain rfl := Except.ok.inj hres
    exact ⟨rfl, hclosed, hnames⟩
  · intro h
    obtain ⟨rfl, hclosed, hnames⟩ := h
    exact ⟨(), hclosed, (), hnames, rfl⟩

/-- One class is assembled from each definition. -/
theorem length_of_assemble (h : assemble t r ps index = .ok classes) :
    classes.length = t.realClasses.length := by
  rw [(assemble_eq_ok_iff.1 h).1, List.length_map]

theorem exists_of_checkClosed_eq_error {e : Fault} (h : checkClosed classes = .error e) :
    ∃ c ∈ classes, ∃ b ∈ c.bases, b ∉ classes.map fun c => c.record.id := by
  unfold checkClosed at h
  dsimp only at h
  split at h
  next c base hfound =>
    obtain ⟨c', hc', hdangling⟩ := List.exists_of_findSome?_eq_some hfound
    obtain ⟨b, hb, _⟩ := Option.map_eq_some_iff.1 hdangling
    refine ⟨c', hc', b, List.mem_of_find?_eq_some hb, ?_⟩
    simpa using List.find?_some hb
  next => cases h

/-- In a closed result every base class is assembled. -/
theorem mem_ids_of_checkClosed (h : checkClosed classes = .ok ()) {c : AssembledClass}
    (hc : c ∈ classes) {b : TypeId} (hb : b ∈ c.bases.elements) :
    b ∈ classes.map fun c => c.record.id := by
  unfold checkClosed at h
  dsimp only at h
  split at h
  next => cases h
  next hfound =>
    by_contra hmissing
    have hnone := List.findSome?_eq_none_iff.1 hfound c hc
    rw [Option.map_eq_none_iff, danglingBase?, List.find?_eq_none] at hnone
    exact hnone b hb (decide_eq_true hmissing)

theorem nodup_of_checkNamesAfter {earlier : List ClassRecord}
    (h : checkNamesAfter earlier classes = .ok ()) :
    (classes.map fun c => c.record.mangled).Nodup ∧
      ∀ c ∈ classes, ∀ e ∈ earlier, e.mangled ≠ c.record.mangled := by
  induction classes generalizing earlier with
  | nil => exact ⟨List.nodup_nil, fun c hc => absurd hc List.not_mem_nil⟩
  | cons c classes ih =>
    unfold checkNamesAfter at h
    split at h
    next => cases h
    next hfound =>
      obtain ⟨hnodup, hnew⟩ := ih h
      rw [List.find?_eq_none] at hfound
      refine ⟨List.nodup_cons.2 ⟨fun hc => ?_, hnodup⟩, fun a ha e he => ?_⟩
      · obtain ⟨a, ha, hname⟩ := List.mem_map.1 hc
        exact hnew a ha c.record List.mem_cons_self hname.symm
      · rcases List.mem_cons.1 ha with rfl | ha
        · simpa using hfound e he
        · exact hnew a ha e (List.mem_cons_of_mem _ he)

/-- In a result that passes no two classes share a mangled name. -/
theorem nodup_of_checkNames (h : checkNames classes = .ok ()) :
    (classes.map fun c => c.record.mangled).Nodup :=
  (nodup_of_checkNamesAfter h).1

/-- A shared name is no missing base class. -/
theorem checkNamesAfter_ne_danglingBase (earlier : List ClassRecord) (classes : List AssembledClass)
    (name : Text) (base : TypeId) :
    checkNamesAfter earlier classes ≠ .error (.danglingBase name base) := by
  induction classes generalizing earlier with
  | nil => exact fun h => by cases h
  | cons c classes ih =>
    unfold checkNamesAfter
    split
    next => exact fun h => by cases h
    next => exact ih _

/-- A result is refused for a missing base class only if the resolution has a base class that is
no definition of the table. -/
theorem exists_of_assemble_eq_danglingBase {name : Text} {base : TypeId}
    (h : assemble t r ps index = .error (.danglingBase name base)) :
    ∃ c ∈ t.realIds, ∃ b ∈ r.basesOf c, b ∉ t.realIds := by
  unfold assemble at h
  dsimp only at h
  cases hclosed : checkClosed (t.realClasses.map (assembleClass t r ps index)) with
  | error e =>
    obtain ⟨c, hc, b, hb, hknown⟩ := exists_of_checkClosed_eq_error hclosed
    obtain ⟨cr, hcr, rfl⟩ := List.mem_map.1 hc
    rw [List.map_map] at hknown
    exact ⟨cr.id, List.mem_map_of_mem hcr, b, hb, hknown⟩
  | ok _ =>
    rw [hclosed] at h
    cases hnames : checkNames (t.realClasses.map (assembleClass t r ps index)) with
    | error e =>
      rw [hnames] at h
      obtain rfl := Except.error.inj h
      exact absurd hnames (checkNamesAfter_ne_danglingBase _ _ name base)
    | ok _ =>
      rw [hnames] at h
      cases h

end Lineage.Assembly
