import Lineage.Proofs.Hierarchy.Walk
import Lineage.Proofs.Relabel.Table

/-!
# The hierarchy under new ids

The figures of a hierarchy are counts and depths. The depths come from a walk that goes by the
order of the graph, and asks of a class whether it is done with it, whether it is on the path, and
what its base classes are. Under new ids it makes the same walk: the same depths are found in the
same order, and it meets a cycle where it met one before. This holds in a cycle as well, where the
depths depend on where the walk came in.

The walk is a recursion of two functions, one for a class and one for a list of base classes, and
the induction is that of the recursion itself. At each class there are four cases, the ones that the
walk distinguishes, and in each of them the relabelled walk is shown to be in the same case. The
path is part of the state of the walk, and is relabelled with it.

From the walk the rest is counting. Depths are values of the survey and not keys, so they do not
change at all, and a class is a leaf under its new id if it was one under the old.

Main result: `Hierarchy.stats_relabel`.
-/

namespace Lineage.Hierarchy

variable (ρ : Relabelling)

/-- A graph under new ids. -/
abbrev relabelGraph (g : BaseGraph) : BaseGraph := g.relabel ρ (OrderedSet.relabel ρ)

/-- A survey under new ids. -/
def Survey.relabel (s : Survey) : Survey := { s with depths := s.depths.relabel ρ id }

/-- The depth of a class is raised above that of a parent that has been surveyed. -/
theorem Survey.above_relabel (s : Survey) (parent : TypeId) (depth : Nat) :
    (s.relabel ρ).above (ρ parent) depth = s.above parent depth := by
  simp only [above, relabel, OrderedMap.get?_relabel, Option.map_id, id_eq]

/-! ## The walk -/

/-- Under new ids the walk is the same, relabelled. -/
theorem visit_relabel (g : BaseGraph) (path : List TypeId) (id : TypeId) (s : Survey) :
    visit (relabelGraph ρ g) (path.map ρ) (ρ id) (s.relabel ρ) =
      (visit g path id s).relabel ρ := by
  have contains : ∀ (s : Survey) id, (s.relabel ρ).depths.contains (ρ id) = s.depths.contains id :=
    fun s id => OrderedMap.contains_relabel ρ _ s.depths id
  have mem : ∀ {path : List TypeId} {id}, ρ id ∈ path.map ρ ↔ id ∈ path :=
    List.mem_map_of_injective ρ.injective
  -- The induction is that of the walk, over the path and over the parents of a class.
  induction path, id, s using visit.induct g _
    (fun path parents s depth =>
      visitAll (relabelGraph ρ g) (path.map ρ) (parents.map ρ) (s.relabel ρ) depth =
        ((visitAll g path parents s depth).1.relabel ρ, (visitAll g path parents s depth).2))
  case case1 path id s done =>
    rw [visit_of_contains done, visit_of_contains ((contains s id).trans done)]
  case case2 path id s new onPath =>
    rw [visit_of_mem new onPath, visit_of_mem (contains s id ▸ new) (mem.2 onPath)]
    rfl
  case case3 path id s new offPath unknown =>
    have unknown' : (relabelGraph ρ g).get? (ρ id) = none := by
      rw [OrderedMap.get?_relabel, unknown, Option.map_none]
    rw [visit_of_get?_eq_none new offPath unknown,
      visit_of_get?_eq_none (contains s id ▸ new) (mt mem.1 offPath) unknown']
    exact congrArg (Survey.mk · s.cyclic) (OrderedMap.insert_relabel ρ _ s.depths id 0)
  case case4 path id s new offPath parents known _ _ _ ih =>
    have known' : (relabelGraph ρ g).get? (ρ id) = some (parents.relabel ρ) := by
      rw [OrderedMap.get?_relabel, known, Option.map_some]
    rw [visit_of_get?_eq_some new offPath known,
      visit_of_get?_eq_some (contains s id ▸ new) (mt mem.1 offPath) known']
    dsimp only
    rw [List.map_cons] at ih
    rw [OrderedSet.elements_relabel, ih]
    exact congrArg (Survey.mk · _) (OrderedMap.insert_relabel ρ _ _ id _)
  case case5 path s depth =>
    rw [List.map_nil, visitAll, visitAll]
  case case6 path s depth parent parents _ ihParent ih =>
    rw [List.map_cons, visitAll, visitAll, ihParent, Survey.above_relabel]
    exact ih

/-- The walk is started at every class, in the order of the graph. -/
theorem survey_relabel (g : BaseGraph) : survey (relabelGraph ρ g) = (survey g).relabel ρ := by
  rw [survey, survey, OrderedMap.keys_relabel]
  exact foldl_map_of_hom (fun s id => visit_relabel ρ g [] id s) g.keys rfl

/-! ## Figures -/

/-- A class is a parent if some class has it as a base, under either labels. -/
theorem isParent_relabel (g : BaseGraph) (id : TypeId) :
    isParent (relabelGraph ρ g) (ρ id) = isParent g id := by
  simp [isParent, List.any_map, Function.comp_def]

/-- The figures of a graph do not depend on its ids. -/
theorem stats_relabel (g : BaseGraph) : stats (relabelGraph ρ g) = stats g := by
  have depths : (survey (relabelGraph ρ g)).depths.values = (survey g).depths.values := by
    rw [survey_relabel, Survey.relabel, OrderedMap.values_relabel, List.map_id]
  have leaves : ((relabelGraph ρ g).keys.filter fun id => !isParent (relabelGraph ρ g) id).length =
      (g.keys.filter fun id => !isParent g id).length := by
    rw [OrderedMap.keys_relabel, List.filter_map, List.length_map]
    simp only [Function.comp_def, isParent_relabel]
  simp only [stats, depths, leaves, OrderedMap.size_relabel, OrderedMap.values_relabel,
    List.filter_map, List.length_map, Function.comp_def, OrderedSet.isEmpty_relabel,
    OrderedSet.size_relabel]

end Lineage.Hierarchy
