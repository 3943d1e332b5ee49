import Lineage.Journal
import Lineage.Ordered.Map
import Lineage.Ordered.Set
import Lineage.Text.Fixed
import Lineage.TypeId

/-!
# The shape of the class hierarchy

Base classes make a graph over the classes of a program. A run reports its shape: how
many classes are roots or leaves, how many derive from several others, and how deep the
classes lie. The depth of a class is the length of the longest chain of base classes above
it.

Depths are found by a walk up the edges that records each class once it is done with it. A
class that is met again while it is on the path of the walk closes a cycle. Such an edge
adds nothing to a depth, so in a cycle the depths depend on where the walk came in;
they are lengths of chains all the same, only perhaps not of the longest.

The walk ends because the path holds no class twice: `offPath` counts the classes
that could still be entered, and goes down with every step.
-/

namespace Lineage

/-- The base classes of each class, as a graph. -/
abbrev BaseGraph := OrderedMap TypeId (OrderedSet TypeId)

namespace Hierarchy

/-! ## Depths -/

/-- What a walk has found out: the depth of each class it is done with, and whether
it has met a cycle. -/
structure Survey where
  depths : OrderedMap TypeId Nat
  cyclic : Bool

/-- The survey before any walk. -/
def Survey.empty : Survey := ⟨∅, false⟩

/-- The depth of a class above which a parent has been surveyed. A parent that is
still on the path has no depth and adds nothing. -/
def Survey.above (s : Survey) (parent : TypeId) (depth : Nat) : Nat :=
  match s.depths.get? parent with
  | some d => max depth (d + 1)
  | none => depth

/-- How many classes of a graph are not on a path. -/
def offPath (g : BaseGraph) (path : List TypeId) : Nat :=
  (g.keys.filter fun id => id ∉ path).length

theorem offPath_cons_lt {g : BaseGraph} {path : List TypeId} {id : TypeId}
    (hk : id ∈ g.keys) (hp : id ∉ path) : offPath g (id :: path) < offPath g path := by
  unfold offPath
  have split : g.keys.filter (fun j => j ∉ id :: path) =
      (g.keys.filter fun j => j ∉ path).filter fun j => j ≠ id := by
    rw [List.filter_filter]
    congr 1
    funext j
    simp
  rw [split]
  refine List.length_filter_lt_length_iff_exists.2 ⟨id, ?_, by simp⟩
  exact List.mem_filter.2 ⟨hk, by simpa using hp⟩

mutual

/-- Walks up from a class. `path` holds the classes that the walk came by. -/
def visit (g : BaseGraph) (path : List TypeId) (id : TypeId) (s : Survey) : Survey :=
  if s.depths.contains id then s
  -- The edge that led here closes a cycle.
  else if _hp : id ∈ path then { s with cyclic := true }
  else
    match _hg : g.get? id with
    -- Nothing is known of the base classes of a class outside of the graph.
    | none => { s with depths := s.depths.insert id 0 }
    | some parents =>
      let (s, depth) := visitAll g (id :: path) parents.elements s 0
      { s with depths := s.depths.insert id depth }
termination_by (offPath g path, 0)
decreasing_by
  have hk : id ∈ g.keys := by
    rw [← OrderedMap.contains_iff, OrderedMap.contains, _hg]
    rfl
  exact Prod.Lex.left _ _ (offPath_cons_lt hk _hp)

/-- Walks up from each of several parents in turn, and finds the depth of the class
below them. -/
def visitAll (g : BaseGraph) (path : List TypeId) (parents : List TypeId) (s : Survey)
    (depth : Nat) : Survey × Nat :=
  match parents with
  | [] => (s, depth)
  | parent :: parents =>
    let s := visit g path parent s
    visitAll g path parents s (s.above parent depth)
termination_by (offPath g path, parents.length + 1)

end

/-- The depth of every class of a graph, and of every parent outside of it. -/
def survey (g : BaseGraph) : Survey := g.keys.foldl (fun s id => visit g [] id s) .empty

/-- Whether a walk over the graph meets a cycle. -/
def isCyclic (g : BaseGraph) : Bool := (survey g).cyclic

/-! ## Figures -/

/-- The shape of a hierarchy in figures. -/
structure Stats where
  total : Nat
  roots : Nat
  leaves : Nat
  maxDepth : Nat
  /-- The sum of all depths that were found. -/
  depthSum : Nat
  multipleInheritance : Nat
deriving DecidableEq

/-- Whether a class is a base class of any other. -/
def isParent (g : BaseGraph) (id : TypeId) : Bool := g.values.any fun parents => id ∈ parents

/-- The figures of a graph. -/
def stats (g : BaseGraph) : Stats where
  total := g.size
  roots := (g.values.filter OrderedSet.isEmpty).length
  leaves := (g.keys.filter fun id => !isParent g id).length
  maxDepth := (survey g).depths.values.foldl max 0
  depthSum := (survey g).depths.values.foldl (· + ·) 0
  multipleInheritance := (g.values.filter fun parents => 1 < parents.size).length

namespace Stats

/-- The mean depth of the classes; that of no classes is zero. -/
def averageDepth (s : Stats) : Float :=
  if s.total = 0 then 0 else Float.ofNat s.depthSum / Float.ofNat s.total

/-- The figures as a listing. -/
def text (s : Stats) : Text :=
  let average := Text.exactRatio s.averageDepth
  let line (label : String) (value : Text) : Text := label.toList ++ value ++ ['\n']
  line "Hierarchy Statistics:" []
    ++ line "  Total classes: " (Text.decimal s.total)
    ++ line "  Root classes: " (Text.decimal s.roots)
    ++ line "  Leaf classes: " (Text.decimal s.leaves)
    ++ line "  Max depth: " (Text.decimal s.maxDepth)
    ++ line "  Average depth: " (Text.twoPlaces average.1 average.2)
    ++ line "  Multiple inheritance: " (Text.decimal s.multipleInheritance)

end Stats

/-- The figures of a graph, with a warning where a cycle makes the depths partial. -/
def report (g : BaseGraph) : Reported Stats := do
  .warnIf (isCyclic g) .cyclicInheritance
  return stats g

end Hierarchy
end Lineage
