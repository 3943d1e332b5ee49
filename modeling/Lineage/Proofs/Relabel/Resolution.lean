import Lineage.Proofs.Recovery.Outcome
import Lineage.Proofs.Relabel.Table

/-!
# Resolution under new ids

A resolution is made by four passes over the table, and each of them decides by the mangled name of
a class, by the order of the table, or by whether two ids are equal. So the resolution of a table
under new ids is the resolution of the old one, relabelled; and where the one stops, so does the
other, for the same reason (`Resolution.ofTable_relabel`).

The four parts of a resolution are relabelled in different ways. Names of definitions stay and their
ids change. References go from ids to ids, and so do base classes to sets of them. Procedures are
known by their positions in the list, which are no labels, so only the class that has them changes.

A pass may stop with a fault, and a fault names the ids that it is about. So an outcome is
relabelled in either case (`relabelled`), and a pass under new ids is shown equal to the relabelled
outcome of the old one. This is closed under going on with a result and under loops that may stop
(`relabelled_bind`, `relabelled_foldlM`). With these, each pass needs only the equation of its step,
and the resolution only the equations of its passes.

Main result: `Resolution.ofTable_relabel`.
-/

namespace Lineage

variable (ρ : Relabelling)

/-! ## Outcomes -/

/-- A fault under new ids. -/
def Fault.relabel : Fault → Fault
  | unresolvedForward id mangled => unresolvedForward (ρ id) mangled
  | unresolvedBase className base => unresolvedBase className (ρ base)
  | danglingBase className base => danglingBase className (ρ base)
  | sharedName mangled first second => sharedName mangled (ρ first) (ρ second)
  | fault => fault

/-- An outcome under new ids: its result is changed by `f`, and its fault is relabelled. -/
def relabelled {α β : Type} (f : α → β) : Except Fault α → Except Fault β
  | .ok a => .ok (f a)
  | .error e => .error (e.relabel ρ)

section Relabelled

variable {α α' β β' γ γ' : Type}

/-- Going on with a result goes on with the relabelled one. A fault stays on its way. -/
theorem relabelled_bind {f : α → α'} {h : β → β'} {g : α → Except Fault β}
    {g' : α' → Except Fault β'} (hom : ∀ a, g' (f a) = relabelled ρ h (g a)) (x : Except Fault α) :
    (relabelled ρ f x >>= g') = relabelled ρ h (x >>= g) := by
  cases x with
  | error e => rfl
  | ok a => exact hom a

/-- A loop stops at the same element, with what it has gathered relabelled. -/
theorem relabelled_foldlM {f : α → α'} {g : β → β'} {step : β → α → Except Fault β}
    {step' : β' → α' → Except Fault β'} (hom : ∀ b a, step' (g b) (f a) = relabelled ρ g (step b a))
    (xs : List α) (b : β) :
    (xs.map f).foldlM step' (g b) = relabelled ρ g (xs.foldlM step b) := by
  induction xs generalizing b with
  | nil => rfl
  | cons x xs ih =>
    rw [List.map_cons, List.foldlM_cons, List.foldlM_cons, hom]
    exact relabelled_bind ρ ih _

end Relabelled

/-! ## The passes -/

/-- A resolution under new ids. Names and positions stay. -/
def Resolution.relabel (r : Resolution) : Resolution where
  names := r.names.relabel (.refl _) ρ
  references := r.references.relabel ρ ρ
  bases := r.bases.relabel ρ (OrderedSet.relabel ρ)
  procedures := r.procedures.relabel ρ id

namespace Resolution

variable (t : TypeTable)

/-- A class without an entry has no base classes under its new id either. -/
@[simp] theorem basesOf_relabel (r : Resolution) (id : TypeId) :
    (r.relabel ρ).basesOf (ρ id) = (r.basesOf id).relabel ρ := by
  simp only [basesOf, relabel, OrderedMap.get?_relabel]
  cases r.bases.get? id <;> rfl

/-- Positions in the list of procedures are no labels. -/
@[simp] theorem proceduresOf_relabel (r : Resolution) (id : TypeId) :
    (r.relabel ρ).proceduresOf (ρ id) = r.proceduresOf id := by
  simp only [proceduresOf, relabel, OrderedMap.get?_relabel, Option.map_id, id_eq]

/-- Names are the keys here and stay, ids are the values and change. -/
theorem nameTable_relabel :
    nameTable (t.relabel ρ) = (nameTable t).relabel (.refl _) ρ := by
  rw [nameTable, nameTable, TypeTable.realClasses_relabel]
  refine foldl_map_of_hom (fun names c => ?_) t.realClasses rfl
  exact OrderedMap.insertIfNew_relabel (.refl _) ρ names c.mangled c.id

/-- A forward reference is bound by the name of its class. If there is no definition of this name,
the fault names the new id of the reference. -/
theorem bindReference_relabel (names : OrderedMap Text TypeId)
    (refs : OrderedMap TypeId TypeId) (c : ClassRecord) :
    bindReference (names.relabel (.refl _) ρ) (refs.relabel ρ ρ) (c.relabel ρ) =
      relabelled ρ (OrderedMap.relabel ρ ρ) (bindReference names refs c) := by
  have found : (names.relabel (.refl _) ρ).get? c.mangled = (names.get? c.mangled).map ρ :=
    OrderedMap.get?_relabel (.refl _) ρ names c.mangled
  simp only [bindReference, ClassRecord.relabel, found]
  cases names.get? c.mangled with
  | none => rfl
  | some target => exact congrArg Except.ok (OrderedMap.insert_relabel ρ ρ refs c.id target)

/-- The first pass over the forward references. -/
theorem bindReferences_relabel (names : OrderedMap Text TypeId) :
    bindReferences (t.relabel ρ) (names.relabel (.refl _) ρ) =
      relabelled ρ (OrderedMap.relabel ρ ρ) (bindReferences t names) := by
  rw [bindReferences, bindReferences, TypeTable.forwardRefs_relabel]
  exact relabelled_foldlM ρ (bindReference_relabel ρ names) t.forwardRefs ∅

variable (refs : OrderedMap TypeId TypeId)

/-- The class that an id stands for, be it directly or through a reference. -/
@[simp] theorem classOf?_relabel (id : TypeId) :
    classOf? (t.relabel ρ) (refs.relabel ρ ρ) (ρ id) = (classOf? t refs id).map ρ := by
  simp only [classOf?, OrderedMap.get?_relabel, TypeTable.realClass?_relabel]
  cases refs.get? id with
  | some target => rfl
  | none => cases t.realClass? id <;> rfl

/-- A base class is added by what it stands for, and the fault of one that stands for nothing names
its new id. -/
theorem addBase_relabel (c : ClassRecord) (bases : OrderedSet TypeId) (base : TypeId) :
    addBase (t.relabel ρ) (refs.relabel ρ ρ) (c.relabel ρ) (bases.relabel ρ) (ρ base) =
      relabelled ρ (OrderedSet.relabel ρ) (addBase t refs c bases base) := by
  simp only [addBase, classOf?_relabel]
  cases classOf? t refs base with
  | none => rfl
  | some target => exact congrArg Except.ok (OrderedSet.insert_relabel ρ bases target)

/-- The base classes of one class, in the order of its members. -/
theorem baseSet_relabel (c : ClassRecord) :
    baseSet (t.relabel ρ) (refs.relabel ρ ρ) (c.relabel ρ) =
      relabelled ρ (OrderedSet.relabel ρ) (baseSet t refs c) := by
  rw [baseSet, baseSet, TypeTable.membersOf_relabel, FieldList.bases_relabel]
  exact relabelled_foldlM ρ (addBase_relabel ρ t refs c) _ ∅

theorem addBaseSet_relabel (bases : OrderedMap TypeId (OrderedSet TypeId)) (c : ClassRecord) :
    addBaseSet (t.relabel ρ) (refs.relabel ρ ρ) (bases.relabel ρ (OrderedSet.relabel ρ))
        (c.relabel ρ) =
      relabelled ρ (OrderedMap.relabel ρ (OrderedSet.relabel ρ)) (addBaseSet t refs bases c) := by
  rw [addBaseSet, addBaseSet, baseSet_relabel]
  refine relabelled_bind ρ (fun s => ?_) (baseSet t refs c)
  exact congrArg Except.ok (OrderedMap.insert_relabel ρ (OrderedSet.relabel ρ) bases c.id s)

/-- The pass over all definitions. -/
theorem baseClasses_relabel :
    baseClasses (t.relabel ρ) (refs.relabel ρ ρ) =
      relabelled ρ (OrderedMap.relabel ρ (OrderedSet.relabel ρ)) (baseClasses t refs) := by
  rw [baseClasses, baseClasses, TypeTable.realClasses_relabel]
  exact relabelled_foldlM ρ (addBaseSet_relabel ρ t refs) t.realClasses ∅

/-- The owner of a procedure is found through the id of its type, a member function. -/
@[simp] theorem ownerOf?_relabel (p : Procedure) :
    ownerOf? (t.relabel ρ) (refs.relabel ρ ρ) (p.relabel ρ) = (ownerOf? t refs p).map ρ := by
  simp only [ownerOf?, Procedure.relabel]
  cases p.type with
  | none => rfl
  | some type =>
    simp only [Option.map_some, bind, Option.bind_some, TypeTable.memberFunction?_relabel]
    cases t.memberFunction? type with
    | none => rfl
    | some f => exact classOf?_relabel ρ t refs f.owner

/-- The last pass cannot stop. It goes through the procedures by position and asks for an owner each
time. -/
theorem correlate_relabel (ps : List Procedure) :
    correlate (t.relabel ρ) (refs.relabel ρ ρ) (ps.map (Procedure.relabel ρ)) =
      (correlate t refs ps).relabel ρ id := by
  rw [correlate, correlate, List.zipIdx_map]
  refine foldl_map_of_hom (fun owned p => ?_) ps.zipIdx rfl
  simp only [attach, Prod.map_fst, ownerOf?_relabel]
  cases ownerOf? t refs p.1 with
  | none => rfl
  | some owner =>
    refine OrderedMap.upsert_relabel ρ id owned (fun positions => ?_) owner
    cases positions <;> rfl

/-- Under new ids the resolution of a table is the old one, and where there is none, there was none
for the same reason. -/
theorem ofTable_relabel (ps : List Procedure) :
    ofTable (t.relabel ρ) (ps.map (Procedure.relabel ρ)) =
      relabelled ρ (relabel ρ) (ofTable t ps) := by
  simp only [ofTable, nameTable_relabel, bindReferences_relabel]
  refine relabelled_bind ρ (fun refs => ?_) (bindReferences t (nameTable t))
  rw [baseClasses_relabel]
  refine relabelled_bind ρ (fun bases => ?_) (baseClasses t refs)
  rw [correlate_relabel]
  rfl

end Resolution
end Lineage
