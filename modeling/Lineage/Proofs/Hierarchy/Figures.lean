import Lineage.Proofs.Hierarchy.Walk
import Mathlib.Data.List.Perm.Subperm

/-!
# What the figures of a hierarchy say

The survey of a graph is sound, and that settles what is reported of the graph. `DepthsAreChains`
collects what the depths mean: where no cycle can be reached the depth of a class is the length of
the longest chain above it, and in any case it is the length of some chain that holds no class
twice. So without cycles the greatest depth belongs to the graph and not to the order in which it
is listed, and with or without them it stays below the number of classes.

The warning of a cycle is exact. A cycle that is met lies on the path. For the converse, a
cycle that was never met would have to be among recorded classes, each of which was recorded after
its base classes.

Main results: `depths_are_longest_chains` and `warns_exactly_of_cycles`.
-/

namespace Lineage.Hierarchy

variable {g g' : BaseGraph} {id : TypeId}

/-! ## Longest chains -/

theorem IsLongest.unique {m n : Nat} (hm : IsLongest g id m) (hn : IsLongest g id n) : m = n := by
  obtain ⟨above, habove, rfl⟩ := hm.attained
  obtain ⟨above', habove', rfl⟩ := hn.attained
  exact Nat.le_antisymm (hn.bound above habove) (hm.bound above' habove')

/-- The length of a longest chain in a whole graph. -/
structure IsLongestIn (g : BaseGraph) (n : Nat) : Prop where
  attained : ∃ id ∈ ids g, IsLongest g id n
  bound : ∀ id ∈ ids g, ∀ above, ChainAbove g id above → above.length ≤ n

theorem IsLongestIn.unique {m n : Nat} (hm : IsLongestIn g m) (hn : IsLongestIn g n) : m = n := by
  obtain ⟨id, hid, longest⟩ := hm.attained
  obtain ⟨id', hid', longest'⟩ := hn.attained
  obtain ⟨above, habove, rfl⟩ := longest.attained
  obtain ⟨above', habove', rfl⟩ := longest'.attained
  exact Nat.le_antisymm (hn.bound id hid above habove) (hm.bound id' hid' above' habove')

/-- Two listings of one graph, perhaps in different orders. -/
structure SameGraph (g g' : BaseGraph) : Prop where
  keys : ∀ id, id ∈ g'.keys ↔ id ∈ g.keys
  edges : ∀ id base, DerivesFrom g' id base ↔ DerivesFrom g id base

namespace SameGraph

theorem derivesFrom_eq (h : SameGraph g g') : DerivesFrom g' = DerivesFrom g :=
  funext fun id => funext fun base => propext (h.edges id base)

theorem mem_ids_iff (h : SameGraph g g') : id ∈ ids g' ↔ id ∈ ids g := by
  rw [Hierarchy.mem_ids_iff, Hierarchy.mem_ids_iff, h.keys, h.derivesFrom_eq]

theorem chainAbove_iff (h : SameGraph g g') {above : List TypeId} :
    ChainAbove g' id above ↔ ChainAbove g id above := by
  rw [ChainAbove, ChainAbove, h.derivesFrom_eq]

theorem hasCycle_iff (h : SameGraph g g') : HasCycle g' ↔ HasCycle g := by
  rw [HasCycle, HasCycle, h.derivesFrom_eq]

theorem isLongestIn {n : Nat} (h : SameGraph g g') (hn : IsLongestIn g' n) : IsLongestIn g n := by
  obtain ⟨id, hid, longest⟩ := hn.attained
  refine ⟨⟨id, h.mem_ids_iff.1 hid, ?_, fun above habove => ?_⟩, fun id hid above habove => ?_⟩
  · obtain ⟨above, habove, hlength⟩ := longest.attained
    exact ⟨above, h.chainAbove_iff.1 habove, hlength⟩
  · exact longest.bound above (h.chainAbove_iff.2 habove)
  · exact hn.bound id (h.mem_ids_iff.2 hid) above (h.chainAbove_iff.2 habove)

end SameGraph

/-! ## The greatest depth -/

theorem foldl_max_mem {l : List Nat} (hl : l ≠ []) :
    l.foldl max 0 ∈ l ∧ ∀ n ∈ l, n ≤ l.foldl max 0 := by
  obtain ⟨m, hm⟩ := Option.isSome_iff_exists.1 (List.isSome_max?_of_ne_nil hl)
  rw [List.foldl_max, hm, Option.getD_some, Nat.zero_max]
  exact List.max?_eq_some_iff.1 hm

/-- The greatest depth is that of some class, and no class is deeper. -/
theorem maxDepth_stats (hg : g.keys ≠ []) :
    (∃ id, (survey g).depths.get? id = some (stats g).maxDepth) ∧
      ∀ id d, (survey g).depths.get? id = some d → d ≤ (stats g).maxDepth := by
  obtain ⟨id, hid⟩ := List.exists_mem_of_ne_nil g.keys hg
  obtain ⟨d, hd⟩ := Survey.done_iff.1 (done_survey_iff.2 (mem_ids_of_mem_keys hid))
  have some_depth : (survey g).depths.values ≠ [] :=
    List.ne_nil_of_mem (OrderedMap.mem_values_iff.2 ⟨id, hd⟩)
  obtain ⟨mem, bound⟩ := foldl_max_mem some_depth
  exact ⟨OrderedMap.mem_values_iff.1 mem,
    fun id d hd => bound d (OrderedMap.mem_values_iff.2 ⟨id, hd⟩)⟩

/-- The depth of a class from which no cycle can be reached. -/
theorem isLongest_of_get? {d : Nat} (hid : AcyclicAbove g id)
    (hd : (survey g).depths.get? id = some d) : IsLongest g id d := by
  have sound := sound_survey g
  obtain ⟨above, habove, hlength, _⟩ := sound.chain id d hd
  exact ⟨⟨above, habove, hlength⟩, sound.longest id d hd hid⟩

/-- Without cycles the greatest depth is the length of the longest chain of the graph. -/
theorem isLongestIn_maxDepth (hg : g.keys ≠ []) (h : ¬ HasCycle g) :
    IsLongestIn g (stats g).maxDepth := by
  obtain ⟨⟨id, hid⟩, greatest⟩ := maxDepth_stats hg
  refine ⟨⟨id, done_survey_iff.1 (Survey.done_of_get? hid),
    isLongest_of_get? (acyclicAbove_of_not_hasCycle h id) hid⟩, fun c hc above habove => ?_⟩
  obtain ⟨d, hd⟩ := Survey.done_iff.1 (done_survey_iff.2 hc)
  have longest := isLongest_of_get? (acyclicAbove_of_not_hasCycle h c) hd
  exact Nat.le_trans (longest.bound above habove) (greatest c d hd)

/-- What the depths of a graph mean. -/
structure DepthsAreChains (g : BaseGraph) : Prop where
  /-- Every class that the graph speaks of has a depth, and no other has. -/
  recorded : ∀ id, (∃ d, (survey g).depths.get? id = some d) ↔ id ∈ ids g
  outside : ∀ id ∈ ids g, id ∉ g.keys → (survey g).depths.get? id = some 0
  /-- Where no cycle can be reached the depth is that of a longest chain. -/
  longest : ∀ id ∈ ids g, AcyclicAbove g id →
    ∀ d, (survey g).depths.get? id = some d ↔ IsLongest g id d
  /-- Anywhere it is that of a chain that holds no class twice. -/
  simple : ∀ id d, (survey g).depths.get? id = some d →
    ∃ above, ChainAbove g id above ∧ above.length = d ∧ (id :: above).Nodup
  /-- Without cycles the greatest depth is the length of the longest chain, -/
  greatest : ¬ HasCycle g → IsLongestIn g (stats g).maxDepth
  /-- in whatever order the graph is listed. -/
  unordered : ¬ HasCycle g → ∀ g', SameGraph g g' → (stats g').maxDepth = (stats g).maxDepth
  below : (stats g).maxDepth < (ids g).length

/-- The depths of every graph with a class are lengths of chains, and of longest ones where there
is no cycle. -/
theorem depths_are_longest_chains (hg : g.keys ≠ []) : DepthsAreChains g := by
  have sound := sound_survey g
  constructor
  case recorded => exact fun id => Survey.done_iff.symm.trans done_survey_iff
  case outside =>
    intro id hid hkey
    obtain ⟨d, hd⟩ := Survey.done_iff.1 (done_survey_iff.2 hid)
    obtain ⟨above, habove, rfl, _⟩ := sound.chain id d hd
    cases above with
    | nil => exact hd
    | cons b above => exact absurd (chainAbove_cons.1 habove).1.mem_keys hkey
  case longest =>
    intro id hid hacyclic d
    refine ⟨isLongest_of_get? hacyclic, fun hd => ?_⟩
    obtain ⟨e, he⟩ := Survey.done_iff.1 (done_survey_iff.2 hid)
    rw [he, (isLongest_of_get? hacyclic he).unique hd]
  case simple =>
    intro id d hd
    obtain ⟨above, habove, hlength, hnodup, _⟩ := sound.chain id d hd
    exact ⟨above, habove, hlength, hnodup⟩
  case greatest => exact isLongestIn_maxDepth hg
  case unordered =>
    intro h g' hsame
    have hg' : g'.keys ≠ [] := by
      obtain ⟨id, hid⟩ := List.exists_mem_of_ne_nil g.keys hg
      exact List.ne_nil_of_mem ((hsame.keys id).2 hid)
    have longest' := isLongestIn_maxDepth hg' (mt hsame.hasCycle_iff.1 h)
    exact (hsame.isLongestIn longest').unique (isLongestIn_maxDepth hg h)
  case below =>
    obtain ⟨id, hid⟩ := (maxDepth_stats hg).1
    obtain ⟨above, _, hlength, hnodup, hdone⟩ := sound.chain id _ hid
    have hsub : id :: above ⊆ ids g := by
      refine List.cons_subset.2 ⟨done_survey_iff.1 (Survey.done_of_get? hid), fun b hb => ?_⟩
      exact done_survey_iff.1 (hdone b hb)
    rw [← hlength]
    exact (hnodup.subperm hsub).length_le

/-- Three classes in a cycle, one below it with a base class outside of the graph, and one
that only has that base class. -/
def looped : BaseGraph := .ofList [(⟨1⟩, .ofList [⟨3⟩]), (⟨2⟩, .ofList [⟨1⟩]),
  (⟨3⟩, .ofList [⟨2⟩]), (⟨4⟩, .ofList [⟨1⟩, ⟨5⟩]), (⟨6⟩, .ofList [⟨5⟩])]

/-- The graph speaks of six classes, so none is deeper than five. -/
theorem depths_are_longest_chains_looped :
    looped.keys ≠ [] ∧ (ids looped).length = 6 ∧ DepthsAreChains looped :=
  ⟨by decide, by decide, depths_are_longest_chains (by decide)⟩

/-! ## The warning -/

/-- A walk meets a cycle exactly if there is one. -/
theorem isCyclic_iff (g : BaseGraph) : isCyclic g = true ↔ HasCycle g := by
  have sound := sound_survey g
  refine ⟨sound.cyclic, fun h => ?_⟩
  by_contra hmissed
  obtain ⟨id, hid, hcycle⟩ := h.exists_mem_keys
  have hdone := done_survey_iff.2 (mem_ids_of_mem_keys hid)
  exact hcycle (sound.acyclic (Bool.eq_false_iff.2 hmissed) id hdone)

/-- The report on every graph comes to an end with its figures, and warns of a cycle exactly if
the graph has one. It reports nothing else. -/
theorem warns_exactly_of_cycles (g : BaseGraph) (j : Journal) :
    ∃ warnings, (report g).run j = (.ok (stats g), { j with warnings := j.warnings ++ warnings }) ∧
      (HasCycle g → warnings = [.cyclicInheritance]) ∧ (¬ HasCycle g → warnings = []) ∧
      Warning.message .cyclicInheritance =
        "inheritance graph has a cycle; depth statistics are partial".toList := by
  rw [← isCyclic_iff]
  by_cases h : isCyclic g = true
  · refine ⟨[.cyclicInheritance], ?_, fun _ => rfl, fun hn => absurd h hn, rfl⟩
    rw [report, Reported.run_bind, Reported.run_warnIf, if_pos h]
    rfl
  · refine ⟨[], ?_, fun hc => absurd hc h, fun _ => rfl, rfl⟩
    rw [report, Reported.run_bind, Reported.run_warnIf, if_neg h, List.append_nil]
    rfl

end Lineage.Hierarchy
