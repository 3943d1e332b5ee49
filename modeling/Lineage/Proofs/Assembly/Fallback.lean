import Lineage.Proofs.Assembly.Frame
import Lineage.Proofs.Document.Faithful

/-!
# What public symbols add to a class

A public symbol is asked for the address of a method only if no procedure gives it. So a class that
is assembled without public symbols is the class assembled with them, each method left with the
address it has from a procedure (`Assembly.assembleClass_none`), and the two pass the same checks.

In the document things are less simple. Under an address stands the first method that has it, and
a method that gets an address from a public symbol may stand before the one that a procedure puts
there: then the second is *overtaken* and its entry is lost to the first. This is the only thing
that public symbols take away (`Document.widened_entry`). They never put a method of the same name
in the place of the overtaken one, since a public symbol counts only for a name that is declared
once.

Main results: `Assembly.assemble_none` and `Document.widened_entry`.
-/

namespace Lineage

/-! ## Addresses from procedures only -/

/-- The method with its address if a procedure gives it, and without one otherwise. -/
def Method.fromProcedure (m : Method) : Method :=
  { m with placement := m.placement.filter fun p => p.source = .procedure }

/-- The class with the addresses that procedures give. -/
def AssembledClass.fromProcedures (c : AssembledClass) : AssembledClass :=
  { c with methods := c.methods.map Method.fromProcedure }

theorem Method.placement_fromProcedure_eq_some_iff {m : Method} {p : Placement} :
    m.fromProcedure.placement = some p ↔ m.placement = some p ∧ p.source = .procedure := by
  rw [fromProcedure, Option.filter_eq_some_iff, decide_eq_true_iff]

/-- A method is at an address by a procedure exactly if it is there without public symbols. -/
theorem Method.address_fromProcedure_iff {m : Method} {a : Address} :
    m.fromProcedure.placement.map Placement.address = some a ↔
      m.placement = some ⟨a, .procedure⟩ := by
  rw [Option.map_eq_some_iff]
  simp only [placement_fromProcedure_eq_some_iff]
  refine ⟨fun h => ?_, fun h => ⟨_, ⟨h, rfl⟩, rfl⟩⟩
  obtain ⟨⟨_, _⟩, ⟨hp, rfl⟩, rfl⟩ := h
  exact hp

theorem forall₂_sameFrame_fromProcedures (classes : List AssembledClass) :
    List.Forall₂ AssembledClass.SameFrame (classes.map AssembledClass.fromProcedures) classes := by
  rw [List.forall₂_map_left_iff, List.forall₂_same]
  exact fun c _ => ⟨rfl, rfl⟩

namespace Assembly

variable {t : TypeTable} {r : Resolution} {ps : List Procedure}
  {index : Option Symbol.PublicIndex} {c : ClassRecord}

theorem placement?_none (index : Option Symbol.PublicIndex) {declared : List (Text × TypeId)}
    {name : Text} {type : TypeId} :
    placement? r ps none c declared name type =
      (placement? r ps index c declared name type).filter fun p => p.source = .procedure := by
  unfold placement?
  cases procedureAddress? r ps c.id name type with
  | some a => rfl
  | none =>
    dsimp only
    split
    next => cases publicAddress? index c name <;> rfl
    next => rfl

/-- Without public symbols, a class is left with the addresses that procedures give. -/
theorem assembleClass_none :
    assembleClass t r ps none c = (assembleClass t r ps index c).fromProcedures := by
  have methods : (assembleClass t r ps none c).methods =
      (assembleClass t r ps index c).methods.map Method.fromProcedure := by
    unfold assembleClass
    rw [List.map_map]
    refine List.map_congr_left fun m _ => ?_
    obtain ⟨name, type⟩ := m
    show Method.mk name type _ (placement? r ps none c _ name type) = _
    rw [placement?_none index]
    rfl
  rw [AssembledClass.fromProcedures, ← methods]
  rfl

/-- A result that passes the checks passes them without public symbols, too. -/
theorem assemble_none {classes : List AssembledClass}
    (h : assemble t r ps index = .ok classes) :
    assemble t r ps none = .ok (classes.map AssembledClass.fromProcedures) := by
  obtain ⟨rfl, hclosed, hnames⟩ := assemble_eq_ok_iff.1 h
  generalize hclasses : t.realClasses.map (assembleClass t r ps index) = classes at hclosed hnames
  have frames := forall₂_sameFrame_fromProcedures classes
  refine assemble_eq_ok_iff.2 ⟨?_, ?_, ?_⟩
  · rw [← hclasses, List.map_map]
    exact List.map_congr_left fun c _ => assembleClass_none.symm
  · rwa [← checkClosed_of_sameFrame frames]
  · rwa [← checkNames_of_sameFrame frames]

/-- A method that a public symbol places is the only one of its name, so the methods of its name
are all where it is. -/
theorem placement_eq_of_publicSymbol {m n : Method} {a : Address}
    (hm : m ∈ (assembleClass t r ps index c).methods)
    (hn : n ∈ (assembleClass t r ps index c).methods)
    (hplaced : n.placement = some ⟨a, .publicSymbol⟩) (hname : m.name = n.name) :
    m.placement = n.placement := by
  obtain ⟨⟨name, type⟩, hdeclared, rfl⟩ := List.mem_map.1 hm
  obtain ⟨⟨name', type'⟩, hdeclared', rfl⟩ := List.mem_map.1 hn
  obtain rfl : name = name' := hname
  dsimp only at hplaced ⊢
  obtain ⟨_, alone, _⟩ := placement?_eq_publicSymbol_iff.1 hplaced
  obtain ⟨declared, heq⟩ := List.length_eq_one_iff.1 alone
  have only : ∀ type, (name, type) ∈ declaredMethods t c → (name, type) = declared := by
    intro type hmem
    rw [← List.mem_singleton, ← heq, List.mem_filter]
    exact ⟨hmem, beq_self_eq_true name⟩
  obtain rfl : type = type' :=
    (Prod.mk.inj ((only type hdeclared).trans (only type' hdeclared').symm)).2
  rfl

end Assembly

/-! ## Overtaken entries -/

/-- The first method of a class at an address, whatever puts it there. -/
def AssembledClass.firstAt? (c : AssembledClass) (a : Address) : Option Method :=
  c.methods.find? fun m => m.placement.map Placement.address = some a

/-- Before any method that a procedure puts at an address stands one that a public symbol
puts there. -/
def AssembledClass.Overtaken (c : AssembledClass) (a : Address) : Prop :=
  ∃ before m after, c.methods = before ++ m :: after ∧
    m.placement = some ⟨a, .publicSymbol⟩ ∧ ∀ n ∈ before, n.placement ≠ some ⟨a, .procedure⟩

/-- The entry `e` of a class in the document without public symbols and its entry `f` in the one
with them. The class is the one assembled with public symbols. -/
structure ClassEntry.Widened (c : AssembledClass) (e f : ClassEntry) : Prop where
  demangled : f.demangled = e.demangled
  bases : f.bases = e.bases
  /-- No address is lost, -/
  addresses : ∀ key ∈ e.methods.keys, key ∈ f.methods.keys ∧ ∃ a : Address, a.text = key
  /-- and the method there is the same, unless it is overtaken. -/
  kept : ∀ (a : Address) m, e.methods.get? a.text = some m →
    (f.methods.get? a.text = some m ↔ ¬ c.Overtaken a)
  /-- Where one is overtaken, the first method there has its place, by a public symbol. -/
  overtaken : ∀ a, c.Overtaken a → ∃ n, c.firstAt? a = some n ∧
    n.placement = some ⟨a, .publicSymbol⟩ ∧ f.methods.get? a.text = some ⟨n.name, n.kind⟩

namespace AssembledClass

variable {c : AssembledClass} {a : Address}

theorem firstAt?_eq_some_iff {m : Method} :
    c.firstAt? a = some m ↔ m.placement.map Placement.address = some a ∧
      ∃ before after, c.methods = before ++ m :: after ∧
        ∀ n ∈ before, n.placement.map Placement.address ≠ some a := by
  rw [firstAt?, List.find?_eq_some_iff_append]
  simp only [decide_eq_true_eq, Bool.not_eq_true', decide_eq_false_iff_not, ne_eq]

theorem exists_firstAt? {m : Method} {source : AddressSource} (hm : m ∈ c.methods)
    (hplaced : m.placement = some ⟨a, source⟩) : ∃ n, c.firstAt? a = some n := by
  rw [← Option.isSome_iff_exists, firstAt?, List.find?_isSome]
  refine ⟨m, hm, ?_⟩
  rw [hplaced]
  exact decide_eq_true rfl

theorem placement_of_firstAt? {m : Method} (h : c.firstAt? a = some m) :
    m.placement = some ⟨a, .procedure⟩ ∨ m.placement = some ⟨a, .publicSymbol⟩ := by
  obtain ⟨⟨_, source⟩, hp, rfl⟩ := Option.map_eq_some_iff.1 (firstAt?_eq_some_iff.1 h).1
  cases source with
  | procedure => exact .inl hp
  | publicSymbol => exact .inr hp

/-- An address is overtaken exactly if a public symbol puts its first method there. -/
theorem overtaken_iff :
    c.Overtaken a ↔ ∃ m, c.firstAt? a = some m ∧ m.placement = some ⟨a, .publicSymbol⟩ := by
  refine ⟨fun h => ?_, fun h => ?_⟩
  · obtain ⟨before, m, after, hsplit, hplaced, hbefore⟩ := h
    have found : c.firstAt? a =
        (before.find? fun m => m.placement.map Placement.address = some a).or (some m) := by
      rw [firstAt?, hsplit, List.find?_append, List.find?_cons_of_pos]
      rw [hplaced]
      exact decide_eq_true rfl
    cases hb : before.find? fun m => m.placement.map Placement.address = some a with
    | none =>
      rw [hb] at found
      exact ⟨m, found, hplaced⟩
    | some n =>
      rw [hb] at found
      refine ⟨n, found, ?_⟩
      rcases placement_of_firstAt? found with hn | hn
      · exact absurd hn (hbefore n (List.mem_of_find?_eq_some hb))
      · exact hn
  · obtain ⟨m, hfirst, hplaced⟩ := h
    obtain ⟨_, before, after, hsplit, hbefore⟩ := firstAt?_eq_some_iff.1 hfirst
    refine ⟨before, m, after, hsplit, hplaced, fun n hn hprocedure => hbefore n hn ?_⟩
    rw [hprocedure]
    rfl

/-- Where the first method at an address is there by a procedure, it is also the first without
public symbols. -/
theorem firstAt?_fromProcedures {m : Method} (h : c.firstAt? a = some m)
    (hplaced : m.placement = some ⟨a, .procedure⟩) :
    c.fromProcedures.firstAt? a = some m.fromProcedure := by
  obtain ⟨_, before, after, hsplit, hbefore⟩ := firstAt?_eq_some_iff.1 h
  refine firstAt?_eq_some_iff.2 ⟨Method.address_fromProcedure_iff.2 hplaced,
    before.map Method.fromProcedure, after.map Method.fromProcedure, ?_, fun n hn hat => ?_⟩
  · rw [fromProcedures, hsplit, List.map_append, List.map_cons]
  · obtain ⟨n, hmem, rfl⟩ := List.mem_map.1 hn
    refine hbefore n hmem ?_
    rw [Method.address_fromProcedure_iff.1 hat]
    rfl

end AssembledClass

namespace Document

variable {t : TypeTable} {r : Resolution} {ps : List Procedure}
  {index : Option Symbol.PublicIndex}

/-- What becomes of the entry of a class when public symbols are used. -/
theorem widened_entry (classes : List AssembledClass) (k : ClassRecord) :
    let c := Assembly.assembleClass t r ps index k
    (entry (classes.map AssembledClass.fromProcedures) c.fromProcedures).Widened c
      (entry classes c) := by
  intro c
  have frames := forall₂_sameFrame_fromProcedures classes
  constructor
  case demangled => rfl
  case bases =>
    show c.bases.elements.filterMap (mangledName? classes) = _
    rw [funext (mangledName?_of_sameFrame frames)]
    rfl
  case addresses =>
    intro key hkey
    obtain ⟨m, hm, p, hp, rfl⟩ := mem_keys_methods_entry.1 hkey
    obtain ⟨m, hmem, rfl⟩ := List.mem_map.1 hm
    obtain ⟨hp, _⟩ := Method.placement_fromProcedure_eq_some_iff.1 hp
    exact ⟨mem_keys_methods_entry.2 ⟨m, hmem, p, hp, rfl⟩, p.address, rfl⟩
  case overtaken =>
    intro a ha
    obtain ⟨n, hfirst, hplaced⟩ := AssembledClass.overtaken_iff.1 ha
    refine ⟨n, hfirst, hplaced, ?_⟩
    rw [get?_methods_entry, ← AssembledClass.firstAt?, hfirst]
    rfl
  case kept =>
    intro a entry he
    rw [get?_methods_entry] at he ⊢
    obtain ⟨m', hm', rfl⟩ := Option.map_eq_some_iff.1 he
    -- The method that stands at the address without public symbols.
    obtain ⟨m, hmem, rfl⟩ := List.mem_map.1 (List.mem_of_find?_eq_some hm')
    have hplaced := Method.address_fromProcedure_iff.1
      (AssembledClass.firstAt?_eq_some_iff.1 hm').1
    -- The method that stands there with them.
    obtain ⟨n, hn⟩ := AssembledClass.exists_firstAt? hmem hplaced
    rw [← AssembledClass.firstAt?, hn, AssembledClass.overtaken_iff, hn]
    rcases AssembledClass.placement_of_firstAt? hn with hprocedure | hpublic
    · have same : m.fromProcedure = n.fromProcedure :=
        Option.some.inj (hm'.symm.trans (AssembledClass.firstAt?_fromProcedures hn hprocedure))
      have name : n.name = m.name := (congrArg Method.name same).symm
      have kind : n.kind = m.kind := (congrArg Method.kind same).symm
      refine ⟨fun _ hovertaken => ?_, fun _ => ?_⟩
      · obtain ⟨n', hn', hpublic⟩ := hovertaken
        rw [← Option.some.inj hn', hprocedure] at hpublic
        cases hpublic
      · rw [Option.map_some, name, kind]
        rfl
    · refine ⟨fun hsame => ?_, fun hno => absurd ⟨n, rfl, hpublic⟩ hno⟩
      have hname : n.name = m.name := congrArg MethodEntry.name (Option.some.inj hsame)
      have := Assembly.placement_eq_of_publicSymbol hmem (List.mem_of_find?_eq_some hn) hpublic
        hname.symm
      rw [hplaced, hpublic] at this
      cases this

end Document
end Lineage
