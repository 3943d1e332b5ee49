import Lineage.Proofs.Assembly.Frame
import Lineage.Proofs.Symbol.Shift

/-!
# Classes of an image that is loaded higher

Assembly asks a procedure for its name, its type and its position, and a public symbol for its
mangled name. It hands addresses on without looking at them, but for one question: whether a scope
has a name at one address only. So with every symbol `k` bytes higher it assembles the same
classes, with every method `k` bytes higher, and its checks and figures come out the same.

Nothing is said of equality here. Two runs have related procedures and related public symbols, and
what is made of them is related in turn: an address is found in both runs or in neither, and if it
is found, it is `k` bytes higher in one of them. The relation goes from single addresses to
placements, from placements to methods, and from methods to classes.

The checks do not fail in one run and pass in the other, since they look at the frames of classes,
which are equal. Figures are counts of methods by the source of their address.

Main results: `Assembly.shifted_assembleClass`, `Assembly.follows_assemble` and
`Assembly.stats_of_shifted`.
-/

namespace Lineage

/-! ## Resolution -/

namespace Resolution

/-- A resolution asks for the types of the procedures only. -/
theorem ofTable_of_types_eq (t : TypeTable) {ps qs : List Procedure}
    (h : qs.map Procedure.type = ps.map Procedure.type) : ofTable t qs = ofTable t ps := by
  have owners (refs : OrderedMap TypeId TypeId) (ps : List Procedure) :
      (ps.zipIdx.filterMap fun p => (ownerOf? t refs p.1).map fun id => (id, p.2)) =
        (ps.map Procedure.type).zipIdx.filterMap fun p =>
          (p.1.bind fun type => (t.memberFunction? type).bind fun f =>
            classOf? t refs f.owner).map fun id => (id, p.2) := by
    rw [List.zipIdx_map, List.filterMap_map]
    rfl
  have same (refs : OrderedMap TypeId TypeId) : correlate t refs qs = correlate t refs ps := by
    rw [correlate_eq_gather, correlate_eq_gather, owners, owners, h]
  simp only [ofTable, same]

end Resolution

/-! ## Public symbols -/

namespace Symbol.PublicIndex

variable {k : UInt64} {index index' : PublicIndex}

/-- The same scopes and names, each at higher addresses. -/
def Shifted (k : UInt64) (index index' : PublicIndex) : Prop :=
  ∀ scope name,
    List.Forall₂ (Address.Shifted k) (index.addresses scope name) (index'.addresses scope name)

/-- A symbol goes into the group of its scope and name, which do not depend on its address. -/
theorem shifted_addSymbol (h : index.Shifted k index') {s s' : PublicSymbol} (hs : s.Shifted k s') :
    (index.addSymbol s).Shifted k (index'.addSymbol s') := by
  rw [addSymbol, addSymbol, hs.mangled]
  split
  next member _ =>
    intro scope name
    rw [addresses_add, addresses_add]
    refine List.rel_append (h scope name) ?_
    split
    next => exact .cons hs.address .nil
    next => exact .nil
  next => exact h

theorem shifted_ofList {publics publics' : List PublicSymbol}
    (h : List.Forall₂ (PublicSymbol.Shifted k) publics publics') :
    (ofList publics).Shifted k (ofList publics') := by
  refine List.rel_foldl ?_ (fun _ _ => .nil) h
  exact fun _ _ hindex _ _ hs => shifted_addSymbol hindex hs

/-- A name has one address only before just if it has after, for shifting keeps addresses apart.
This is the one question about addresses. -/
theorem rel_uniqueAddress? (h : index.Shifted k index') (scope name : Text) :
    Option.Rel (Address.Shifted k) (index.uniqueAddress? scope name)
      (index'.uniqueAddress? scope name) := by
  unfold uniqueAddress?
  have group := h scope name
  generalize index.addresses scope name = addresses at group
  generalize index'.addresses scope name = addresses' at group
  cases group with
  | nil => exact .none
  | cons hxy rest =>
    cases rest with
    | nil => exact .some hxy
    | cons _ _ => exact .none

end Symbol.PublicIndex

/-- There is an index of public symbols in both runs or in neither. -/
theorem Recovery.rel_publicIndex? {k : UInt64} {usePublics : Bool} {a b : UInt64}
    {s s' : Symbol.Tables} (h : s.Shifted k s') :
    Option.Rel (Symbol.PublicIndex.Shifted k) (publicIndex? ⟨a, usePublics⟩ s)
      (publicIndex? ⟨b, usePublics⟩ s') := by
  have empty : s'.publics.isEmpty = s.publics.isEmpty := by
    rw [Bool.eq_iff_iff, List.isEmpty_iff_length_eq_zero, List.isEmpty_iff_length_eq_zero,
      h.publics.length_eq]
  rw [publicIndex?, publicIndex?, empty]
  split
  next => exact .some (Symbol.PublicIndex.shifted_ofList h.publics)
  next => exact .none

/-! ## Methods and classes -/

/-- The same kind of symbol at a higher address. -/
structure Placement.Shifted (k : UInt64) (p q : Placement) : Prop where
  source : q.source = p.source
  address : Address.Shifted k p.address q.address

/-- The same method at a higher address, or without one. -/
structure Method.Shifted (k : UInt64) (m n : Method) : Prop where
  name : n.name = m.name
  type : n.type = m.type
  kind : n.kind = m.kind
  placement : Option.Rel (Placement.Shifted k) m.placement n.placement

/-- The same class with its methods at higher addresses. -/
structure AssembledClass.Shifted (k : UInt64) (c e : AssembledClass) : Prop where
  record : e.record = c.record
  bases : e.bases = c.bases
  methods : List.Forall₂ (Method.Shifted k) c.methods e.methods

/-- Shifting reaches the methods of a class and nothing else. -/
theorem AssembledClass.Shifted.sameFrame {k : UInt64} {c e : AssembledClass} (h : c.Shifted k e) :
    c.SameFrame e :=
  ⟨h.record, h.bases⟩

namespace Assembly

variable {k : UInt64} {t : TypeTable} {r : Resolution} {ps qs : List Procedure}
  {index index' : Option Symbol.PublicIndex} {classes classes' : List AssembledClass}

/-- The same procedure is found for a method, since it is told by name and type. -/
theorem rel_procedureAddress? (h : List.Forall₂ (Procedure.Shifted k) ps qs) (owner : TypeId)
    (name : Text) (type : TypeId) :
    Option.Rel (Address.Shifted k) (procedureAddress? r ps owner name type)
      (procedureAddress? r qs owner name type) := by
  have owned : List.Forall₂ (Procedure.Shifted k)
      ((r.proceduresOf owner).filterMap fun position => ps[position]?)
      ((r.proceduresOf owner).filterMap fun position => qs[position]?) := by
    refine List.rel_filterMap (R := Eq) ?_ (List.forall₂_refl _)
    rintro i _ rfl
    exact rel_getElem? h i
  have found := rel_find? owned
    (p := fun p => p.type = some type && QualifiedName.lastComponent p.name == name)
    (q := fun q => q.type = some type && QualifiedName.lastComponent q.name == name)
    fun p q hpq => by rw [hpq.type, hpq.name]
  exact rel_map found fun p q hpq => hpq.address

/-- The same public symbol is found for a method. -/
theorem rel_publicAddress? (h : Option.Rel (Symbol.PublicIndex.Shifted k) index index')
    (c : ClassRecord) (name : Text) :
    Option.Rel (Address.Shifted k) (publicAddress? index c name)
      (publicAddress? index' c name) := by
  cases h with
  | none => exact .none
  | some hindex =>
    simp only [publicAddress?, bind, Option.bind_some]
    cases Mangled.classScope? c.mangled with
    | none => exact .none
    | some scope => exact Symbol.PublicIndex.rel_uniqueAddress? hindex scope name

/-- A method is placed in the same way, by a procedure, by a public symbol, or not at all. -/
theorem rel_placement? (h : List.Forall₂ (Procedure.Shifted k) ps qs)
    (hindex : Option.Rel (Symbol.PublicIndex.Shifted k) index index') (c : ClassRecord)
    (declared : List (Text × TypeId)) (name : Text) (type : TypeId) :
    Option.Rel (Placement.Shifted k) (placement? r ps index c declared name type)
      (placement? r qs index' c declared name type) := by
  unfold placement?
  rcases none_or_some_of_rel (rel_procedureAddress? (r := r) h c.id name type) with
    ⟨hx, hy⟩ | ⟨x, y, hx, hy, hxy⟩
  · rw [hx, hy]
    dsimp only
    split
    next => exact rel_map (rel_publicAddress? hindex c name) fun x y hxy => ⟨rfl, hxy⟩
    next => exact .none
  · rw [hx, hy]
    exact .some ⟨rfl, hxy⟩

/-- A class is assembled from the same methods, each of them shifted. -/
theorem shifted_assembleClass (h : List.Forall₂ (Procedure.Shifted k) ps qs)
    (hindex : Option.Rel (Symbol.PublicIndex.Shifted k) index index') (c : ClassRecord) :
    (assembleClass t r ps index c).Shifted k (assembleClass t r qs index' c) := by
  constructor
  case record => rfl
  case bases => rfl
  case methods =>
    refine List.rel_map (R := Eq) ?_ (List.forall₂_refl _)
    rintro ⟨name, type⟩ _ rfl
    exact ⟨rfl, rfl, rfl, rel_placement? h hindex c _ name type⟩

/-! ## Checks and figures -/

/-- The checks see frames only, so they pass for the lower base if they do for the higher. -/
theorem follows_assemble (h : List.Forall₂ (Procedure.Shifted k) ps qs)
    (hindex : Option.Rel (Symbol.PublicIndex.Shifted k) index index') :
    Follows (List.Forall₂ (AssembledClass.Shifted k)) (assemble t r ps index)
      (assemble t r qs index') := by
  have classes : List.Forall₂ (AssembledClass.Shifted k)
      (t.realClasses.map (assembleClass t r ps index))
      (t.realClasses.map (assembleClass t r qs index')) := by
    refine List.rel_map (R := Eq) ?_ (List.forall₂_refl _)
    rintro c _ rfl
    exact shifted_assembleClass h hindex c
  intro assembled hassembled
  obtain ⟨rfl, hclosed, hnames⟩ := assemble_eq_ok_iff.1 hassembled
  refine ⟨_, assemble_eq_ok_iff.2 ⟨rfl, ?_, ?_⟩, classes⟩
  · rwa [← checkClosed_of_sameFrame (classes.imp fun _ _ h => h.sameFrame)]
  · rwa [← checkNames_of_sameFrame (classes.imp fun _ _ h => h.sameFrame)]

/-- How many methods have an address from a source is a matter of the source. -/
theorem countFrom_of_shifted {methods methods' : List Method}
    (h : List.Forall₂ (Method.Shifted k) methods methods') (source : AddressSource) :
    countFrom source methods' = countFrom source methods := by
  refine countP_eq_of_forall₂ h fun m n hmn => ?_
  have placement := hmn.placement
  generalize m.placement = p at placement
  generalize n.placement = q at placement
  cases placement with
  | none => rfl
  | some hpq => rw [Option.any_some, Option.any_some, hpq.source]

/-- The figures of a result count methods and sources, not addresses. -/
theorem stats_of_shifted (h : List.Forall₂ (AssembledClass.Shifted k) classes classes') :
    stats classes' = stats classes := by
  have methods : List.Forall₂ (Method.Shifted k) (classes.flatMap AssembledClass.methods)
      (classes'.flatMap AssembledClass.methods) :=
    List.rel_flatMap h fun _ _ hce => hce.methods
  unfold stats
  dsimp only
  rw [h.length_eq, methods.length_eq, countFrom_of_shifted methods, countFrom_of_shifted methods]

end Assembly
end Lineage
