import Lineage.Proofs.Resolution.Shape

/-!
# When a table resolves, and to what

`ofTable` is four passes, two of which may stop. What they come to can be said of the table alone.
An id denotes a definition (`denoted?`): a definition denotes itself, and a forward reference
denotes the first definition that has its mangled name. A table is `Resolvable` if every forward
reference has such a definition and every base class is a class record of some kind. Then the
resolution is what the denotations say, `Binds`; otherwise the fault is the first one in table
order, `FirstUnresolved`.

A pass stops at an element for what this element is, not for what came before it. So a pass is a
search for the first element at fault and, where there is none, a fold that cannot stop:
`foldlM_of_faults`, which the passes below are instances of.

Main result: `Resolution.resolution_of_table`.
-/

namespace Lineage

/-! ## Work that stops at a fault -/

/-- A fault where a search has found nothing. -/
def faultUnless {α : Type} (e : Fault) : Option α → Option Fault
  | some _ => none
  | none => some e

/-- There is no fault where there is something. -/
theorem faultUnless_eq_none_iff {α : Type} {e : Fault} {x : Option α} :
    faultUnless e x = none ↔ ∃ a, x = some a := by
  cases x with
  | some a => exact ⟨fun _ => ⟨a, rfl⟩, fun _ => rfl⟩
  | none =>
    refine ⟨fun h => ?_, fun h => ?_⟩
    · cases h
    · obtain ⟨a, h⟩ := h
      cases h

/-- The fault is the one that was given, and nothing was there. -/
theorem faultUnless_eq_some_iff {α : Type} {e e' : Fault} {x : Option α} :
    faultUnless e x = some e' ↔ x = none ∧ e = e' := by
  cases x with
  | some a =>
    refine ⟨fun h => ?_, fun h => ?_⟩
    · cases h
    · cases h.1
  | none => exact ⟨fun h => ⟨rfl, Option.some.inj h⟩, fun h => congrArg some h.2⟩

/-- Where an element alone decides whether a step stops and with which fault, a fold stops at the
first element at fault, and otherwise is a fold that does not stop. -/
theorem foldlM_of_faults {α β : Type} {f : β → α → Except Fault β} {fault? : α → Option Fault}
    {next : β → α → β} (bad : ∀ b x e, fault? x = some e → f b x = .error e)
    (good : ∀ b x, fault? x = none → f b x = .ok (next b x)) (xs : List α) (b : β) :
    xs.foldlM f b =
      match xs.findSome? fault? with
      | some e => .error e
      | none => .ok (xs.foldl next b) := by
  induction xs generalizing b with
  | nil => rfl
  | cons x xs ih =>
    rw [List.foldlM_cons, List.findSome?_cons, List.foldl_cons]
    cases hx : fault? x with
    | some e =>
      rw [bad b x e hx]
      rfl
    | none =>
      rw [good b x hx]
      exact ih (next b x)

/-- A fold that stops at an element at fault has succeeded only if there is none. -/
theorem foldlM_of_faults_eq_ok_iff {α β : Type} {f : β → α → Except Fault β}
    (fault? : α → Option Fault) (next : β → α → β)
    (bad : ∀ b x e, fault? x = some e → f b x = .error e)
    (good : ∀ b x, fault? x = none → f b x = .ok (next b x)) {xs : List α} {b b' : β} :
    xs.foldlM f b = .ok b' ↔ xs.findSome? fault? = none ∧ xs.foldl next b = b' := by
  rw [foldlM_of_faults bad good]
  cases xs.findSome? fault? with
  | some e =>
    refine ⟨fun h => ?_, fun h => ?_⟩
    · cases h
    · cases h.1
  | none =>
    refine ⟨fun h => ⟨rfl, Except.ok.inj h⟩, fun h => ?_⟩
    exact congrArg Except.ok h.2

/-- It fails with the fault of the first element at fault. -/
theorem foldlM_of_faults_eq_error_iff {α β : Type} {f : β → α → Except Fault β}
    (fault? : α → Option Fault) (next : β → α → β)
    (bad : ∀ b x e, fault? x = some e → f b x = .error e)
    (good : ∀ b x, fault? x = none → f b x = .ok (next b x)) {xs : List α} {b : β} {e : Fault} :
    xs.foldlM f b = .error e ↔ xs.findSome? fault? = some e := by
  rw [foldlM_of_faults bad good]
  cases xs.findSome? fault? with
  | some e' =>
    refine ⟨fun h => ?_, fun h => ?_⟩
    · rw [Except.error.inj h]
    · rw [Option.some.inj h]
  | none =>
    refine ⟨fun h => ?_, fun h => ?_⟩
    · cases h
    · cases h

namespace Resolution

variable {t : TypeTable} {ps : List Procedure} {r : Resolution} {refs : OrderedMap TypeId TypeId}

/-! ## Denotation -/

/-- The definition that a mangled name stands for: the first in table order that has it. -/
def definition? (t : TypeTable) (name : Text) : Option ClassRecord :=
  t.realClasses.find? fun c => c.mangled = name

/-- The definition that an id denotes. A definition denotes itself, and a forward reference denotes
the definition of its mangled name. -/
def denoted? (t : TypeTable) (id : TypeId) : Option TypeId :=
  (t.classRecord? id).bind fun c =>
    if c.isForward then (definition? t c.mangled).map ClassRecord.id else some c.id

/-- A name is defined if some definition has it. -/
theorem exists_definition?_iff {name : Text} :
    (∃ c, definition? t name = some c) ↔ ∃ c ∈ t.realClasses, c.mangled = name := by
  rw [← Option.isSome_iff_exists, definition?, List.find?_isSome]
  simp only [decide_eq_true_eq]

theorem definition?_eq_none_iff {name : Text} :
    definition? t name = none ↔ ∀ c ∈ t.realClasses, c.mangled ≠ name := by
  rw [definition?, List.find?_eq_none]
  simp only [decide_eq_true_eq, ne_eq]

/-- The first pass finds the definition of every mangled name. -/
theorem get?_nameTable (name : Text) :
    (nameTable t).get? name = (definition? t name).map ClassRecord.id := by
  have collected : nameTable t = .collect (t.realClasses.map fun c => (c.mangled, c.id)) := by
    rw [nameTable, OrderedMap.collect, List.foldl_map]
  rw [collected, OrderedMap.get?_collect, List.find?_map, Option.map_map]
  rfl

/-- Where every forward reference has a definition, every class record denotes one. -/
theorem denoted?_eq_none_iff (h : ∀ f ∈ t.forwardRefs, ∃ c, definition? t f.mangled = some c)
    {id : TypeId} : denoted? t id = none ↔ t.classRecord? id = none := by
  unfold denoted?
  cases hc : t.classRecord? id with
  | none => exact ⟨fun _ => rfl, fun _ => rfl⟩
  | some c =>
    refine ⟨fun hnone => ?_, fun hnone => by cases hnone⟩
    rw [Option.bind_some] at hnone
    split at hnone
    next hforward =>
      have hf : c ∈ t.forwardRefs := by
        rw [TypeTable.forwardRefs, List.mem_filter]
        refine ⟨TypeTable.mem_classes_iff.2 ?_, hforward⟩
        rwa [TypeTable.id_of_classRecord? hc]
      obtain ⟨d, hd⟩ := h c hf
      rw [hd] at hnone
      cases hnone
    next => cases hnone

/-! ## Forward references -/

/-- The fault of a forward reference without a definition. -/
def forwardFault? (t : TypeTable) (f : ClassRecord) : Option Fault :=
  faultUnless (.unresolvedForward f.id f.mangled) (definition? t f.mangled)

/-- The definition that a forward reference is bound to. The id of no class stands for none. -/
def target (t : TypeTable) (f : ClassRecord) : TypeId :=
  ((definition? t f.mangled).map ClassRecord.id).getD default

/-- The step of the first pass at a reference that has no definition. -/
theorem bindReference_of_fault {f : ClassRecord} {e : Fault} (h : forwardFault? t f = some e) :
    bindReference (nameTable t) refs f = .error e := by
  obtain ⟨hd, rfl⟩ := faultUnless_eq_some_iff.1 h
  unfold bindReference
  rw [get?_nameTable, hd]
  rfl

/-- The step of the first pass at any other reference. -/
theorem bindReference_of_no_fault {f : ClassRecord} (h : forwardFault? t f = none) :
    bindReference (nameTable t) refs f = .ok (refs.insert f.id (target t f)) := by
  obtain ⟨d, hd⟩ := faultUnless_eq_none_iff.1 h
  unfold bindReference target
  rw [get?_nameTable, hd]
  rfl

/-- No two forward references have one id. -/
theorem nodup_ids_forwardRefs (t : TypeTable) : (t.forwardRefs.map ClassRecord.id).Nodup :=
  t.nodup_ids_classes.sublist (List.filter_sublist.map _)

/-- No forward reference is at fault if each has a definition. -/
theorem no_forwardFault_iff :
    t.forwardRefs.findSome? (forwardFault? t) = none ↔
      ∀ f ∈ t.forwardRefs, ∃ c, definition? t f.mangled = some c := by
  rw [List.findSome?_eq_none_iff]
  exact forall₂_congr fun f _ => faultUnless_eq_none_iff

/-- The first pass succeeds if no reference is at fault, and then binds each to its target. -/
theorem bindReferences_eq_ok_iff :
    bindReferences t (nameTable t) = .ok refs ↔
      t.forwardRefs.findSome? (forwardFault? t) = none ∧
        .ofList (t.forwardRefs.map fun f => (f.id, target t f)) = refs := by
  rw [bindReferences, foldlM_of_faults_eq_ok_iff (forwardFault? t)
    (fun refs f => refs.insert f.id (target t f)) (fun _ _ _ h => bindReference_of_fault h)
    (fun _ _ h => bindReference_of_no_fault h), OrderedMap.ofList, List.foldl_map]
  rfl

/-- The first pass stops with the fault of the first reference that has one. -/
theorem bindReferences_eq_error_iff {e : Fault} :
    bindReferences t (nameTable t) = .error e ↔
      t.forwardRefs.findSome? (forwardFault? t) = some e :=
  foldlM_of_faults_eq_error_iff (forwardFault? t) (fun refs f => refs.insert f.id (target t f))
    (fun _ _ _ h => bindReference_of_fault h) (fun _ _ h => bindReference_of_no_fault h)

/-- The references stand in the order of the table, since their ids are distinct. -/
theorem entries_references (h : bindReferences t (nameTable t) = .ok refs) :
    refs.entries = t.forwardRefs.map fun f => (f.id, target t f) := by
  rw [← (bindReferences_eq_ok_iff.1 h).2]
  refine OrderedMap.entries_ofList ?_
  rw [List.map_map]
  exact nodup_ids_forwardRefs t

/-- The forward references are bound in table order. -/
theorem keys_references (h : bindReferences t (nameTable t) = .ok refs) :
    refs.keys = t.forwardRefs.map ClassRecord.id := by
  rw [OrderedMap.keys, entries_references h, List.map_map]
  rfl

/-- Each is bound to the definition of its mangled name. -/
theorem get?_references (h : bindReferences t (nameTable t) = .ok refs) {f c : ClassRecord}
    (hf : f ∈ t.forwardRefs) (hc : definition? t f.mangled = some c) :
    refs.get? f.id = some c.id := by
  have htarget : target t f = c.id := by
    rw [target, hc]
    rfl
  rw [OrderedMap.get?_eq_some_iff, entries_references h, ← htarget]
  exact List.mem_map_of_mem hf

/-- With the references at hand, the meaning of an id is found by looking it up. -/
theorem classOf?_eq_denoted? (h : bindReferences t (nameTable t) = .ok refs) (id : TypeId) :
    classOf? t refs id = denoted? t id := by
  have bound := no_forwardFault_iff.1 (bindReferences_eq_ok_iff.1 h).1
  have unbound (hid : ∀ f ∈ t.forwardRefs, f.id ≠ id) : refs.get? id = none := by
    rw [OrderedMap.get?_eq_none_iff, keys_references h]
    intro hmem
    obtain ⟨f, hf, rfl⟩ := List.mem_map.1 hmem
    exact hid f hf rfl
  unfold classOf? denoted? TypeTable.realClass?
  cases hc : t.classRecord? id with
  | none =>
    rw [unbound]
    · rfl
    · rintro f hf rfl
      have := TypeTable.mem_classes_iff.1 (List.mem_of_mem_filter hf)
      rw [hc] at this
      cases this
  | some c =>
    obtain rfl := TypeTable.id_of_classRecord? hc
    have hclass : c ∈ t.classes := TypeTable.mem_classes_iff.2 hc
    rw [Option.bind_some]
    cases hforward : c.isForward with
    | true =>
      have hf : c ∈ t.forwardRefs := List.mem_filter.2 ⟨hclass, hforward⟩
      obtain ⟨d, hd⟩ := bound c hf
      rw [get?_references h hf hd, hd]
      rfl
    | false =>
      rw [unbound]
      · rw [Option.filter_some, hforward]
        rfl
      · intro f hf hid
        -- A record is a forward reference or a definition, not both.
        obtain ⟨hfc, hff⟩ := List.mem_filter.1 hf
        have := TypeTable.mem_classes_iff.1 hfc
        rw [hid, hc] at this
        obtain rfl := Option.some.inj this
        rw [hforward] at hff
        cases hff

/-! ## Base classes -/

/-- The fault of a class whose base class is none. -/
def baseFault? (t : TypeTable) (c : ClassRecord) (base : TypeId) : Option Fault :=
  faultUnless (.unresolvedBase c.display base) (denoted? t base)

/-- The first fault among the base classes of a class. -/
def classFault? (t : TypeTable) (c : ClassRecord) : Option Fault :=
  (FieldList.bases (t.membersOf c)).findSome? (baseFault? t c)

/-- The definitions that the base classes of a class denote. -/
def denotedBases (t : TypeTable) (c : ClassRecord) : List TypeId :=
  (FieldList.bases (t.membersOf c)).map fun base => (denoted? t base).getD default

section Bases

variable (h : bindReferences t (nameTable t) = .ok refs)
include h

/-- The step of the inner loop at a base class that denotes nothing. -/
theorem addBase_of_fault {c : ClassRecord} {s : OrderedSet TypeId} {base : TypeId} {e : Fault}
    (he : baseFault? t c base = some e) : addBase t refs c s base = .error e := by
  obtain ⟨hd, rfl⟩ := faultUnless_eq_some_iff.1 he
  unfold addBase
  rw [classOf?_eq_denoted? h, hd]

/-- The step of the inner loop at any other base class. -/
theorem addBase_of_no_fault {c : ClassRecord} {s : OrderedSet TypeId} {base : TypeId}
    (he : baseFault? t c base = none) :
    addBase t refs c s base = .ok (s.insert ((denoted? t base).getD default)) := by
  obtain ⟨d, hd⟩ := faultUnless_eq_none_iff.1 he
  unfold addBase
  rw [classOf?_eq_denoted? h, hd]
  rfl

/-- The step of the outer loop at a class with a base class that denotes nothing. -/
theorem addBaseSet_of_fault {c : ClassRecord} {bases : OrderedMap TypeId (OrderedSet TypeId)}
    {e : Fault} (he : classFault? t c = some e) : addBaseSet t refs bases c = .error e := by
  have hset : baseSet t refs c = .error e :=
    (foldlM_of_faults_eq_error_iff (baseFault? t c)
      (fun s base => s.insert ((denoted? t base).getD default))
      (fun _ _ _ h' => addBase_of_fault h h') (fun _ _ h' => addBase_of_no_fault h h')).2 he
  rw [addBaseSet, hset]
  rfl

/-- The step of the outer loop at any other class. -/
theorem addBaseSet_of_no_fault {c : ClassRecord} {bases : OrderedMap TypeId (OrderedSet TypeId)}
    (he : classFault? t c = none) :
    addBaseSet t refs bases c = .ok (bases.insert c.id (.ofList (denotedBases t c))) := by
  have hset : baseSet t refs c = .ok (.ofList (denotedBases t c)) := by
    refine (foldlM_of_faults_eq_ok_iff (baseFault? t c)
      (fun s base => s.insert ((denoted? t base).getD default))
      (fun _ _ _ h' => addBase_of_fault h h') (fun _ _ h' => addBase_of_no_fault h h')).2 ⟨he, ?_⟩
    rw [OrderedSet.ofList, OrderedSet.insertMany, denotedBases, List.foldl_map]
    rfl
  rw [addBaseSet, hset]
  rfl

/-- The pass succeeds if no class is at fault, and then lists what the base classes of each denote.
-/
theorem baseClasses_eq_ok_iff {bases : OrderedMap TypeId (OrderedSet TypeId)} :
    baseClasses t refs = .ok bases ↔
      t.realClasses.findSome? (classFault? t) = none ∧
        .ofList (t.realClasses.map fun c => (c.id, .ofList (denotedBases t c))) = bases := by
  rw [baseClasses, foldlM_of_faults_eq_ok_iff (classFault? t)
    (fun bases c => bases.insert c.id (.ofList (denotedBases t c)))
    (fun _ _ _ h' => addBaseSet_of_fault h h') (fun _ _ h' => addBaseSet_of_no_fault h h'),
    OrderedMap.ofList, List.foldl_map]
  rfl

/-- The pass stops with the fault of the first class that has one. -/
theorem baseClasses_eq_error_iff {e : Fault} :
    baseClasses t refs = .error e ↔ t.realClasses.findSome? (classFault? t) = some e :=
  foldlM_of_faults_eq_error_iff (classFault? t)
    (fun bases c => bases.insert c.id (.ofList (denotedBases t c)))
    (fun _ _ _ h' => addBaseSet_of_fault h h') (fun _ _ h' => addBaseSet_of_no_fault h h')

/-- The base classes of one definition are what its members denote, in order. -/
theorem get?_bases {bases : OrderedMap TypeId (OrderedSet TypeId)}
    (hb : baseClasses t refs = .ok bases) {c : ClassRecord} (hc : c ∈ t.realClasses) :
    bases.get? c.id = some (.ofList (denotedBases t c)) := by
  rw [← ((baseClasses_eq_ok_iff h).1 hb).2, OrderedMap.get?_eq_some_iff, OrderedMap.entries_ofList]
  · exact List.mem_map_of_mem hc
  · rw [List.map_map]
    exact t.nodup_realIds

end Bases

/-- Where no base class is at fault, each denotes the definition that is put down for it. -/
theorem map_denoted?_of_classFault? {c : ClassRecord} (h : classFault? t c = none) :
    (FieldList.bases (t.membersOf c)).map (denoted? t) = (denotedBases t c).map some := by
  rw [denotedBases, List.map_map]
  refine List.map_congr_left fun base hbase => ?_
  obtain ⟨d, hd⟩ := faultUnless_eq_none_iff.1 (List.findSome?_eq_none_iff.1 h base hbase)
  rw [Function.comp_apply, hd]
  rfl

/-! ## Tables that resolve -/

/-- What a table needs to be resolved. -/
structure Resolvable (t : TypeTable) : Prop where
  /-- Every forward reference has a definition with its mangled name. -/
  forwards : ∀ f ∈ t.forwardRefs, ∃ c ∈ t.realClasses, c.mangled = f.mangled
  /-- Every base class of a definition is a class record, be it a definition or not. -/
  bases : ∀ c ∈ t.realClasses, ∀ b ∈ FieldList.bases (t.membersOf c),
    ∃ k, t.classRecord? b = some k

/-- A resolution binds what the records of a table refer to. -/
structure Binds (t : TypeTable) (ps : List Procedure) (r : Resolution) : Prop where
  /-- The forward references are bound, and nothing else is, -/
  referenceKeys : r.references.keys = t.forwardRefs.map ClassRecord.id
  /-- each to the first definition in table order that has its mangled name. -/
  references : ∀ f ∈ t.forwardRefs, ∃ c, definition? t f.mangled = some c ∧
    r.references.get? f.id = some c.id
  /-- The definitions have base classes, and nothing else has, in table order. -/
  baseKeys : r.bases.keys = t.realIds
  /-- Each base class of a definition denotes one, and the set holds the first occurrences of
  these in the order of the field list. -/
  bases : ∀ c ∈ t.realClasses, ∃ (ds : List TypeId) (s : OrderedSet TypeId),
    (FieldList.bases (t.membersOf c)).map (denoted? t) = ds.map some ∧
    r.bases.get? c.id = some s ∧ s.elements = ds.eraseDups
  targetsReal : ∀ x y, r.references.get? x = some y → y ∈ t.realIds
  basesReal : ∀ c, ∀ b ∈ r.basesOf c, b ∈ t.realIds
  ownersReal : ∀ c ∈ r.procedures.keys, c ∈ t.realIds
  /-- A procedure belongs to one definition at most. -/
  oneOwner : ∀ i c c', i ∈ r.proceduresOf c → i ∈ r.proceduresOf c' → c = c'
  ascending : ∀ c, (r.proceduresOf c).Pairwise (· < ·)
  /-- A procedure belongs to the definition that the class of its type denotes. -/
  owners : ∀ c i, i ∈ r.proceduresOf c ↔ ∃ p type f, ps[i]? = some p ∧ p.type = some type ∧
    t.memberFunction? type = some f ∧ denoted? t f.owner = some c

/-- The fault of the first record in table order that cannot be resolved. Forward references come
before base classes. -/
inductive FirstUnresolved (t : TypeTable) : Fault → Prop where
  | forward {before after : List ClassRecord} {f : ClassRecord}
      (split : t.forwardRefs = before ++ f :: after)
      (earlier : ∀ g ∈ before, ∃ c ∈ t.realClasses, c.mangled = g.mangled)
      (undefined : ∀ c ∈ t.realClasses, c.mangled ≠ f.mangled) :
      FirstUnresolved t (.unresolvedForward f.id f.mangled)
  | base {before after : List ClassRecord} {c : ClassRecord} {above below : List TypeId}
      {base : TypeId}
      (forwards : ∀ f ∈ t.forwardRefs, ∃ c ∈ t.realClasses, c.mangled = f.mangled)
      (split : t.realClasses = before ++ c :: after)
      (earlier : ∀ k ∈ before, ∀ b ∈ FieldList.bases (t.membersOf k),
        ∃ k, t.classRecord? b = some k)
      (splitBases : FieldList.bases (t.membersOf c) = above ++ base :: below)
      (earlierBases : ∀ b ∈ above, ∃ k, t.classRecord? b = some k)
      (undefined : t.classRecord? base = none) :
      FirstUnresolved t (.unresolvedBase c.display base)

/-- No reference is at fault if each has a definition of its name. -/
theorem no_forwardFault_iff_forwards :
    t.forwardRefs.findSome? (forwardFault? t) = none ↔
      ∀ f ∈ t.forwardRefs, ∃ c ∈ t.realClasses, c.mangled = f.mangled := by
  rw [no_forwardFault_iff]
  exact forall₂_congr fun f _ => exists_definition?_iff

section Faultless

variable (hrefs : t.forwardRefs.findSome? (forwardFault? t) = none)
include hrefs

/-- A base class is at fault if its id is that of no class. -/
theorem no_baseFault_iff {c : ClassRecord} {base : TypeId} :
    baseFault? t c base = none ↔ ∃ k, t.classRecord? base = some k := by
  rw [baseFault?, faultUnless_eq_none_iff, ← Option.ne_none_iff_exists', ne_eq,
    denoted?_eq_none_iff (no_forwardFault_iff.1 hrefs), ← ne_eq, Option.ne_none_iff_exists']

/-- A class is at fault if one of its base classes is. -/
theorem no_classFault_iff {c : ClassRecord} :
    classFault? t c = none ↔
      ∀ b ∈ FieldList.bases (t.membersOf c), ∃ k, t.classRecord? b = some k := by
  rw [classFault?, List.findSome?_eq_none_iff]
  exact forall₂_congr fun b _ => no_baseFault_iff hrefs

end Faultless

/-- A table is resolvable if none of its records is at fault. -/
theorem resolvable_iff_no_fault :
    Resolvable t ↔ t.forwardRefs.findSome? (forwardFault? t) = none ∧
      t.realClasses.findSome? (classFault? t) = none := by
  refine ⟨fun h => ?_, fun h => ?_⟩
  · have hrefs := no_forwardFault_iff_forwards.2 h.forwards
    refine ⟨hrefs, List.findSome?_eq_none_iff.2 fun c hc => ?_⟩
    exact (no_classFault_iff hrefs).2 (h.bases c hc)
  · obtain ⟨hrefs, hbases⟩ := h
    refine ⟨no_forwardFault_iff_forwards.1 hrefs, fun c hc => ?_⟩
    exact (no_classFault_iff hrefs).1 (List.findSome?_eq_none_iff.1 hbases c hc)

/-- The first reference at fault is the first of the table. -/
theorem firstUnresolved_of_forwardFault {e : Fault}
    (h : t.forwardRefs.findSome? (forwardFault? t) = some e) : FirstUnresolved t e := by
  obtain ⟨before, f, after, hsplit, hf, hbefore⟩ := List.findSome?_eq_some_iff.1 h
  obtain ⟨hd, rfl⟩ := faultUnless_eq_some_iff.1 hf
  refine .forward hsplit (fun g hg => ?_) (definition?_eq_none_iff.1 hd)
  exact exists_definition?_iff.1 (faultUnless_eq_none_iff.1 (hbefore g hg))

/-- The first class at fault counts only if all references are bound. -/
theorem firstUnresolved_of_classFault
    (hrefs : t.forwardRefs.findSome? (forwardFault? t) = none) {e : Fault}
    (h : t.realClasses.findSome? (classFault? t) = some e) : FirstUnresolved t e := by
  obtain ⟨before, c, after, hsplit, hc, hbefore⟩ := List.findSome?_eq_some_iff.1 h
  obtain ⟨above, base, below, hbases, hbase, habove⟩ := List.findSome?_eq_some_iff.1 hc
  obtain ⟨hd, rfl⟩ := faultUnless_eq_some_iff.1 hbase
  have hundefined := (denoted?_eq_none_iff (no_forwardFault_iff.1 hrefs)).1 hd
  refine .base (no_forwardFault_iff_forwards.1 hrefs) hsplit (fun k hk => ?_) hbases
    (fun b hb => ?_) hundefined
  · exact (no_classFault_iff hrefs).1 (hbefore k hk)
  · exact (no_baseFault_iff hrefs).1 (habove b hb)

/-! ## The resolution -/

/-- The outcome of a resolution by the faults of the records. -/
theorem ofTable_eq_ok_iff_no_fault : (∃ r, ofTable t ps = .ok r) ↔
    t.forwardRefs.findSome? (forwardFault? t) = none ∧
      t.realClasses.findSome? (classFault? t) = none := by
  refine ⟨fun h => ?_, fun h => ?_⟩
  · obtain ⟨r, hr⟩ := h
    obtain ⟨_, hrefs, hbases, _⟩ := ofTable_eq_ok_iff.1 hr
    exact ⟨(bindReferences_eq_ok_iff.1 hrefs).1, ((baseClasses_eq_ok_iff hrefs).1 hbases).1⟩
  · obtain ⟨hforward, hclass⟩ := h
    have hrefs := bindReferences_eq_ok_iff.2 ⟨hforward, rfl⟩
    have hbases := (baseClasses_eq_ok_iff hrefs).2 ⟨hclass, rfl⟩
    exact ⟨⟨nameTable t, _, _, correlate t _ ps⟩, ofTable_eq_ok_iff.2 ⟨rfl, hrefs, hbases, rfl⟩⟩

/-- The two passes after the base classes raise no faults. -/
theorem firstUnresolved_of_ofTable {e : Fault} (h : ofTable t ps = .error e) :
    FirstUnresolved t e := by
  unfold ofTable at h
  rcases bind_eq_error_iff.1 h with hrefs | ⟨refs, hrefs, h⟩
  · exact firstUnresolved_of_forwardFault (bindReferences_eq_error_iff.1 hrefs)
  · rcases bind_eq_error_iff.1 h with hbases | ⟨bases, _, h⟩
    · exact firstUnresolved_of_classFault (bindReferences_eq_ok_iff.1 hrefs).1
        ((baseClasses_eq_error_iff hrefs).1 hbases)
    · cases h

/-- A procedure belongs to what the owner of its member function denotes. -/
theorem owners_of_ofTable (h : ofTable t ps = .ok r) (c : TypeId) (i : Nat) :
    i ∈ r.proceduresOf c ↔ ∃ p type f, ps[i]? = some p ∧ p.type = some type ∧
      t.memberFunction? type = some f ∧ denoted? t f.owner = some c := by
  obtain ⟨_, hrefs, _, _⟩ := ofTable_eq_ok_iff.1 h
  rw [mem_proceduresOf_iff h]
  simp only [ownerOf?, bind, Option.bind_eq_some_iff, classOf?_eq_denoted? hrefs]
  refine ⟨fun hx => ?_, fun hx => ?_⟩
  · obtain ⟨p, hp, type, htype, f, hf, hd⟩ := hx
    exact ⟨p, type, f, hp, htype, hf, hd⟩
  · obtain ⟨p, type, f, hp, htype, hf, hd⟩ := hx
    exact ⟨p, hp, type, htype, f, hf, hd⟩

/-- Only definitions have procedures. -/
theorem mem_realIds_of_mem_keys_procedures (h : ofTable t ps = .ok r) {c : TypeId}
    (hc : c ∈ r.procedures.keys) : c ∈ t.realIds := by
  obtain ⟨_, hrefs, _, hp⟩ := ofTable_eq_ok_iff.1 h
  rw [hp, correlate_eq_gather, OrderedMap.mem_keys_gather] at hc
  obtain ⟨entry, hmem, rfl⟩ := List.mem_map.1 hc
  obtain ⟨p, _, howner⟩ := List.mem_filterMap.1 hmem
  obtain ⟨owner, hclass, rfl⟩ := Option.map_eq_some_iff.1 howner
  simp only [ownerOf?, bind, Option.bind_eq_some_iff] at hclass
  obtain ⟨_, _, f, _, hclass⟩ := hclass
  exact classOf?_mem_realIds hrefs hclass

/-- The four parts of a resolution, each from the pass that makes it. -/
theorem binds_of_ofTable (h : ofTable t ps = .ok r) : Binds t ps r := by
  obtain ⟨_, hrefs, hbases, _⟩ := ofTable_eq_ok_iff.1 h
  have hforward := (bindReferences_eq_ok_iff.1 hrefs).1
  have hclass := ((baseClasses_eq_ok_iff hrefs).1 hbases).1
  constructor
  case referenceKeys => exact keys_references hrefs
  case references =>
    intro f hf
    obtain ⟨c, hc⟩ := no_forwardFault_iff.1 hforward f hf
    exact ⟨c, hc, get?_references hrefs hf hc⟩
  case baseKeys => exact keys_bases h
  case bases =>
    intro c hc
    refine ⟨denotedBases t c, _, ?_, get?_bases hrefs hbases hc, OrderedSet.elements_ofList _⟩
    exact map_denoted?_of_classFault? (List.findSome?_eq_none_iff.1 hclass c hc)
  case targetsReal => exact fun x y hxy => mem_realIds_of_references hrefs hxy
  case basesReal => exact fun c b hb => mem_realIds_of_mem_basesOf h hb
  case ownersReal => exact fun c hc => mem_realIds_of_mem_keys_procedures h hc
  case oneOwner =>
    intro i c c' hc hc'
    obtain ⟨p, hp, howner⟩ := (mem_proceduresOf_iff h).1 hc
    obtain ⟨p', hp', howner'⟩ := (mem_proceduresOf_iff h).1 hc'
    obtain rfl := Option.some.inj (hp.symm.trans hp')
    exact Option.some.inj (howner.symm.trans howner')
  case ascending => exact pairwise_proceduresOf h
  case owners => exact owners_of_ofTable h

/-- A table and procedures have a resolution exactly if the table is resolvable. The resolution
binds what the records refer to, and where there is none, the fault is that of the first record
that cannot be resolved. -/
theorem resolution_of_table (t : TypeTable) (ps : List Procedure) :
    ((∃ r, ofTable t ps = .ok r) ↔ Resolvable t) ∧
      (∀ r, ofTable t ps = .ok r → Binds t ps r) ∧
      ∀ e, ofTable t ps = .error e → FirstUnresolved t e := by
  refine ⟨?_, fun r => binds_of_ofTable, fun e => firstUnresolved_of_ofTable⟩
  rw [ofTable_eq_ok_iff_no_fault, resolvable_iff_no_fault]

end Resolution
end Lineage
