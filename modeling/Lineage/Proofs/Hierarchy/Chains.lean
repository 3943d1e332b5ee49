import Lineage.Hierarchy
import Lineage.Proofs.Ordered.FirstOccurrences
import Mathlib.Logic.Relation

/-!
# Chains of base classes

The depth of a class is meant to be the length of the longest chain of base classes above
it, and a hierarchy is meant to have no cycle. Both are said here of the graph alone, without
the walk that finds them. `DerivesFrom` is the edge from a class to a base class, `ChainAbove` is a
row of classes each of which is a base class of the one before, and a cycle is a class that
derives from itself by one edge or more.

Above a cycle there is no longest chain, so what can be said of the depth of a class depends on
whether a cycle can be reached from it. `acyclicAbove_iff` says this of a class by way of its
base classes, which is the order in which a walk comes to know it.

A walk goes depth first and can tell a cycle by the path that led to it. What it needs from here is
one direction only: where a base class leads back to the class it was reached from, that class is
above a cycle (`not_acyclicAbove_of_back`). And wherever there is a cycle, one of its classes is a
key of the graph, so a walk that is started at every key comes by (`HasCycle.exists_mem_keys`).
-/

namespace Lineage.Hierarchy

open Relation (ReflTransGen TransGen)

variable {g : BaseGraph} {id base : TypeId} {above : List TypeId}

/-! ## Edges -/

/-- The base classes of a class. Nothing is known of those of a class outside of the graph. -/
def parentsOf (g : BaseGraph) (id : TypeId) : OrderedSet TypeId := (g.get? id).getD ∅

/-- A class names another among its base classes. -/
def DerivesFrom (g : BaseGraph) (id base : TypeId) : Prop := base ∈ parentsOf g id

/-- The base classes of a class that the graph has. -/
theorem parentsOf_of_get? {parents : OrderedSet TypeId} (h : g.get? id = some parents) :
    parentsOf g id = parents := by
  rw [parentsOf, h]
  rfl

/-- Only a class of the graph has base classes. -/
theorem DerivesFrom.mem_keys (h : DerivesFrom g id base) : id ∈ g.keys := by
  by_contra hid
  rw [DerivesFrom, parentsOf, OrderedMap.get?_eq_none_iff.2 hid] at h
  exact OrderedSet.not_mem_empty base h

/-- The classes that a graph speaks of, each once: its own and the base classes outside of it. -/
def ids (g : BaseGraph) : List TypeId :=
  (g.keys ++ g.values.flatMap OrderedSet.elements).eraseDups

/-- Each class is counted once, however often it is mentioned. -/
theorem nodup_ids (g : BaseGraph) : (ids g).Nodup := nodup_eraseDups _

/-- The classes of a hierarchy are its keys and their base classes. -/
theorem mem_ids_iff : id ∈ ids g ↔ id ∈ g.keys ∨ ∃ c, DerivesFrom g c id := by
  rw [ids, List.mem_eraseDups, List.mem_append, List.mem_flatMap]
  refine or_congr_right ⟨fun h => ?_, fun h => ?_⟩
  · obtain ⟨parents, hparents, hid⟩ := h
    obtain ⟨c, hc⟩ := OrderedMap.mem_values_iff.1 hparents
    refine ⟨c, ?_⟩
    rw [DerivesFrom, parentsOf_of_get? hc]
    exact hid
  · obtain ⟨c, hc⟩ := h
    obtain ⟨parents, hparents⟩ := OrderedMap.mem_keys_iff.1 hc.mem_keys
    rw [DerivesFrom, parentsOf_of_get? hparents] at hc
    exact ⟨parents, OrderedMap.mem_values_iff.2 ⟨c, hparents⟩, hc⟩

theorem mem_ids_of_mem_keys (h : id ∈ g.keys) : id ∈ ids g := mem_ids_iff.2 (.inl h)

/-- What a class derives from is a class of the hierarchy, even if it is no key. -/
theorem DerivesFrom.mem_ids (h : DerivesFrom g id base) : base ∈ ids g :=
  mem_ids_iff.2 (.inr ⟨id, h⟩)

/-! ## Chains -/

/-- The classes `above` stand above a class in a row: the first is a base class of it, and each
other one is a base class of the one before. -/
def ChainAbove (g : BaseGraph) (id : TypeId) (above : List TypeId) : Prop :=
  List.IsChain (DerivesFrom g) (id :: above)

theorem chainAbove_nil (g : BaseGraph) (id : TypeId) : ChainAbove g id [] :=
  .singleton id

/-- A chain is longer by one edge than what stands above its first class. -/
theorem chainAbove_cons :
    ChainAbove g id (base :: above) ↔ DerivesFrom g id base ∧ ChainAbove g base above :=
  List.isChain_cons_cons

/-- The length of a longest chain above a class. There is none above a cycle. -/
structure IsLongest (g : BaseGraph) (id : TypeId) (n : Nat) : Prop where
  attained : ∃ above, ChainAbove g id above ∧ above.length = n
  bound : ∀ above, ChainAbove g id above → above.length ≤ n

/-! ## Cycles -/

/-- Some class derives from itself, directly or by way of others. -/
def HasCycle (g : BaseGraph) : Prop := ∃ id, TransGen (DerivesFrom g) id id

/-- No class that can be reached from a class lies on a cycle. -/
def AcyclicAbove (g : BaseGraph) (id : TypeId) : Prop :=
  ∀ b, ReflTransGen (DerivesFrom g) id b → ¬ TransGen (DerivesFrom g) b b

/-- Where there is no cycle at all there is none above any class. -/
theorem acyclicAbove_of_not_hasCycle (h : ¬ HasCycle g) (id : TypeId) : AcyclicAbove g id :=
  fun b _ hb => h ⟨b, hb⟩

/-- Above a class there is a cycle only if there is one above some base class of it. -/
theorem acyclicAbove_iff :
    AcyclicAbove g id ↔ ∀ base, DerivesFrom g id base → AcyclicAbove g base := by
  refine ⟨fun h base hbase b hb => h b (.head hbase hb), fun h b hb hcycle => ?_⟩
  rcases hb.cases_head with rfl | ⟨base, hbase, hb⟩
  · -- A cycle through the class itself goes through one of its base classes.
    obtain ⟨base, hbase, hback⟩ := TransGen.head'_iff.1 hcycle
    exact h base hbase id hback (.head' hbase hback)
  · exact h base hbase b hb hcycle

/-- A class on a cycle has base classes, so it is one of the graph's own. -/
theorem HasCycle.exists_mem_keys (h : HasCycle g) : ∃ id ∈ g.keys, ¬ AcyclicAbove g id := by
  obtain ⟨id, hcycle⟩ := h
  obtain ⟨base, hbase, _⟩ := TransGen.head'_iff.1 hcycle
  exact ⟨id, hbase.mem_keys, fun h => h id .refl hcycle⟩

/-- On the way from a class back to one that leads to it lies a cycle. -/
theorem not_acyclicAbove_of_back (hback : ReflTransGen (DerivesFrom g) base id)
    (h : DerivesFrom g id base) : ¬ AcyclicAbove g id :=
  fun hid => hid id .refl (.head' h hback)

end Lineage.Hierarchy
