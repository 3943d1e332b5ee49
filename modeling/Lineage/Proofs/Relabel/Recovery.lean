import Lineage.Proofs.Relabel.Hierarchy
import Lineage.Proofs.Relabel.Merging

/-!
# The result under new ids

An assembled class still carries ids: its own, those of its base classes and those of the types of
its methods. The document has none of them. It names classes, and it asks for an id only to find the
name that goes with it. So the same document comes of a table whatever its records are
numbered, as long as different records have different numbers, and with it the same figures.

The stages are gone through in order. A class is assembled from relabelled parts into a relabelled
class. The two checks come out alike, and if one of them fails, its fault names the new ids. Then
the ids go: the name that belongs to an id is the same before and after (`mangledName?_relabel`),
and so is every entry of the document.

The table and the symbols are relabelled together, as the types of procedures are ids of the table.
A run starts from a dump and not from a table, but all it does after reading is what is done here
(`reportOf_eq`).

Main result: `Recovery.ids_are_labels`.
-/

namespace Lineage

variable (ρ : Relabelling)

/-! ## Assembled classes -/

/-- A method under new ids. -/
def Method.relabel (m : Method) : Method := { m with type := ρ m.type }

/-- An assembled class under new ids. -/
def AssembledClass.relabel (c : AssembledClass) : AssembledClass where
  record := c.record.relabel ρ
  bases := c.bases.relabel ρ
  methods := c.methods.map (Method.relabel ρ)

namespace Assembly

variable (t : TypeTable) (r : Resolution) (ps : List Procedure)
  (index : Option Symbol.PublicIndex)

/-- A procedure belongs to a method by its owner, its type and its name, and the first two are ids
on both sides. -/
theorem procedureAddress?_relabel (owner : TypeId) (name : Text) (type : TypeId) :
    procedureAddress? (r.relabel ρ) (ps.map (Procedure.relabel ρ)) (ρ owner) name (ρ type) =
      procedureAddress? r ps owner name type := by
  have owned : ((r.proceduresOf owner).filterMap fun i => (ps.map (Procedure.relabel ρ))[i]?) =
      ((r.proceduresOf owner).filterMap fun i => ps[i]?).map (Procedure.relabel ρ) := by
    simp only [List.getElem?_map, List.map_filterMap]
  have fits : ∀ p : Procedure, (p.relabel ρ).type = some (ρ type) ↔ p.type = some type := by
    intro p
    rw [← Option.map_some]
    exact (Option.map_injective ρ.injective).eq_iff
  unfold procedureAddress?
  dsimp only
  rw [Resolution.proceduresOf_relabel, owned, List.find?_map, Option.map_map]
  simp only [Function.comp_def, fits]
  rfl

/-- How a method is placed, by a procedure, by a public symbol, or not at all. -/
theorem placement?_relabel (c : ClassRecord) (declared : List (Text × TypeId)) (name : Text)
    (type : TypeId) :
    placement? (r.relabel ρ) (ps.map (Procedure.relabel ρ)) index (c.relabel ρ)
        (declared.map fun e => (e.1, ρ e.2)) name (ρ type) =
      placement? r ps index c declared name type := by
  have alone : (declared.map fun e => (e.1, ρ e.2)).filter (fun m => m.1 == name) =
      (declared.filter fun m => m.1 == name).map fun e => (e.1, ρ e.2) := by
    rw [List.filter_map]
    rfl
  have procedure := procedureAddress?_relabel ρ r ps c.id name type
  unfold placement?
  rw [alone, List.length_map, show (c.relabel ρ).id = ρ c.id from rfl, procedure]
  rfl

/-- The methods that a class declares, in the order of its list. -/
theorem declaredMethods_relabel (c : ClassRecord) :
    declaredMethods (t.relabel ρ) (c.relabel ρ) =
      (declaredMethods t c).map fun e => (e.1, ρ e.2) := by
  simp [declaredMethods, List.filterMap_map, List.map_filterMap]

/-- A class is assembled from parts that are all relabelled alike. -/
theorem assembleClass_relabel (c : ClassRecord) :
    assembleClass (t.relabel ρ) (r.relabel ρ) (ps.map (Procedure.relabel ρ)) index (c.relabel ρ) =
      (assembleClass t r ps index c).relabel ρ := by
  unfold assembleClass
  dsimp only
  rw [declaredMethods_relabel, show (c.relabel ρ).id = ρ c.id from rfl,
    Resolution.basesOf_relabel, AssembledClass.relabel, List.map_map, List.map_map]
  refine congrArg (AssembledClass.mk (c.relabel ρ) ((r.basesOf c.id).relabel ρ)) ?_
  refine List.map_congr_left fun e _ => ?_
  rw [Function.comp_apply, Function.comp_apply, placement?_relabel]
  rfl

/-! ## Checks and figures -/

variable (classes : List AssembledClass)

/-- A base class dangles if it is not among the known ids. -/
theorem danglingBase?_relabel (known : List TypeId) (c : AssembledClass) :
    danglingBase? (known.map ρ) (c.relabel ρ) = (danglingBase? known c).map ρ := by
  simp only [danglingBase?, AssembledClass.relabel, OrderedSet.elements_relabel, List.find?_map,
    Function.comp_def, List.mem_map_of_injective ρ.injective]

/-- The check that no base class is missing names the id that is, so its fault is relabelled. -/
theorem checkClosed_relabel :
    checkClosed (classes.map (AssembledClass.relabel ρ)) =
      relabelled ρ id (checkClosed classes) := by
  have known : ((classes.map (AssembledClass.relabel ρ)).map fun c => c.record.id) =
      (classes.map fun c => c.record.id).map ρ := by
    rw [List.map_map, List.map_map]
    rfl
  unfold checkClosed
  dsimp only
  rw [known, List.findSome?_map]
  simp only [Function.comp_def, danglingBase?_relabel, Option.map_map]
  generalize (classes.map fun c => c.record.id) = ids
  have found : (classes.findSome? fun c => (danglingBase? ids c).map fun base =>
        (c.relabel ρ, ρ base)) =
      (classes.findSome? fun c => (danglingBase? ids c).map fun base => (c, base)).map
        fun e => (e.1.relabel ρ, ρ e.2) := by
    rw [List.map_findSome?]
    refine congrArg (List.findSome? · classes) (funext fun c => ?_)
    rw [Function.comp_apply, Option.map_map]
    rfl
  rw [found]
  cases classes.findSome? fun c => (danglingBase? ids c).map fun base => (c, base) with
  | none => rfl
  | some e => rfl

/-- The check that names are unique goes by name. It names the two ids of the classes that share
one. -/
theorem checkNamesAfter_relabel (earlier : List ClassRecord) :
    checkNamesAfter (earlier.map (ClassRecord.relabel ρ))
        (classes.map (AssembledClass.relabel ρ)) =
      relabelled ρ id (checkNamesAfter earlier classes) := by
  induction classes generalizing earlier with
  | nil => rfl
  | cons c classes ih =>
    rw [List.map_cons, checkNamesAfter, checkNamesAfter, List.find?_map]
    have same : ((fun d : ClassRecord => d.mangled == (c.relabel ρ).record.mangled) ∘
        ClassRecord.relabel ρ) = fun d => d.mangled == c.record.mangled := rfl
    rw [same]
    cases earlier.find? fun d => d.mangled == c.record.mangled with
    | none => exact ih (c.record :: earlier)
    | some d => rfl

theorem checkNames_relabel :
    checkNames (classes.map (AssembledClass.relabel ρ)) = relabelled ρ id (checkNames classes) :=
  checkNamesAfter_relabel ρ classes []

/-- Under new ids the same classes are assembled, or none for the same reason. -/
theorem assemble_relabel :
    assemble (t.relabel ρ) (r.relabel ρ) (ps.map (Procedure.relabel ρ)) index =
      relabelled ρ (List.map (AssembledClass.relabel ρ)) (assemble t r ps index) := by
  have classes : (t.relabel ρ).realClasses.map
        (assembleClass (t.relabel ρ) (r.relabel ρ) (ps.map (Procedure.relabel ρ)) index) =
      (t.realClasses.map (assembleClass t r ps index)).map (AssembledClass.relabel ρ) := by
    rw [TypeTable.realClasses_relabel, List.map_map, List.map_map]
    exact List.map_congr_left fun c _ => assembleClass_relabel ρ t r ps index c
  unfold assemble
  dsimp only
  rw [classes, checkClosed_relabel]
  refine relabelled_bind ρ (fun _ => ?_) _
  rw [checkNames_relabel]
  refine relabelled_bind ρ (fun _ => ?_) _
  rfl

/-- Figures are counts. -/
theorem stats_relabel : stats (classes.map (AssembledClass.relabel ρ)) = stats classes := by
  have methods : (classes.map (AssembledClass.relabel ρ)).flatMap AssembledClass.methods =
      (classes.flatMap AssembledClass.methods).map (Method.relabel ρ) := by
    rw [List.flatMap_map, List.map_flatMap]
    rfl
  have count : ∀ (source : AddressSource) (ms : List Method),
      countFrom source (ms.map (Method.relabel ρ)) = countFrom source ms := by
    intro source ms
    rw [countFrom, List.countP_map]
    rfl
  unfold stats
  dsimp only
  rw [methods, count, count, List.length_map, List.length_map]

end Assembly

/-! ## The document -/

namespace Document

variable (classes : List AssembledClass)

/-- The name that goes with an id is asked for here, and this is where ids leave the result. -/
theorem mangledName?_relabel (id : TypeId) :
    mangledName? (classes.map (AssembledClass.relabel ρ)) (ρ id) = mangledName? classes id := by
  rw [mangledName?, mangledName?, List.find?_map, Option.map_map]
  simp only [Function.comp_def, AssembledClass.relabel, ClassRecord.relabel, ρ.injective.eq_iff]

/-- The entry of a class has names where the class had ids. -/
theorem entry_relabel (c : AssembledClass) :
    entry (classes.map (AssembledClass.relabel ρ)) (c.relabel ρ) = entry classes c := by
  have bases : (c.bases.elements.map ρ).filterMap
        (mangledName? (classes.map (AssembledClass.relabel ρ))) =
      c.bases.elements.filterMap (mangledName? classes) := by
    rw [List.filterMap_map]
    exact congrArg (List.filterMap · c.bases.elements)
      (funext fun id => mangledName?_relabel ρ classes id)
  have methods : (c.methods.map (Method.relabel ρ)).foldl addMethod ∅ =
      c.methods.foldl addMethod ∅ := by
    rw [List.foldl_map]
    rfl
  exact congrArg₂ (ClassEntry.mk c.record.display) bases methods

/-- There are no ids in a document. -/
theorem ofClasses_relabel :
    ofClasses (classes.map (AssembledClass.relabel ρ)) = ofClasses classes := by
  rw [ofClasses, ofClasses, List.foldl_map]
  simp only [entry_relabel]
  rfl

end Document

/-! ## The recovery -/

namespace Recovery

/-- The report on a type table and symbols that have been read. -/
def reportFrom (options : Options) (table : TypeTable) (symbols : Symbol.Tables) :
    Except Fault Report :=
  Resolution.ofTable table symbols.procedures >>= fun resolution =>
    (ofParts options table symbols resolution).assemble >>= fun classes =>
      .ok (reportOn (ofParts options table symbols resolution) classes)

/-- What a run does once it has read its dump. -/
theorem reportOf_eq (options : Options) (d : Dump) :
    reportOf options d =
      ((if d.hasSection .types then .ok () else .error (.sectionMissing .types)) >>= fun _ =>
        TypeTable.ofDump d >>= fun table =>
          Symbol.tablesOf d options.imageBase options.usePublics >>= fun symbols =>
            reportFrom options table symbols) := by
  unfold reportOf recoveryOf reportFrom
  simp only [bind_assoc]
  rfl

end Recovery

/-- Symbols under new ids. Only procedures have any. -/
def Symbol.Tables.relabel (s : Symbol.Tables) : Symbol.Tables :=
  { s with procedures := s.procedures.map (Procedure.relabel ρ) }

/-- A report under new ids. Only what was merged into what is told in ids: the document and the
figures stay. -/
def Report.relabel (r : Report) : Report := { r with merges := r.merges.relabel ρ }

namespace Recovery

/-- What a run makes of a table and of symbols, from resolution to the document. -/
theorem reportFrom_relabel (options : Options) (t : TypeTable) (s : Symbol.Tables) :
    reportFrom options (t.relabel ρ) (s.relabel ρ) =
      relabelled ρ (Report.relabel ρ) (reportFrom options t s) := by
  rw [reportFrom, Symbol.Tables.relabel, Resolution.ofTable_relabel]
  refine relabelled_bind ρ (fun r => ?_) _
  simp only [ofParts, assemble, Merging.run_relabel]
  rw [Merging.State.relabel]
  dsimp only
  rw [Assembly.assemble_relabel]
  refine relabelled_bind ρ (fun classes => ?_) _
  simp only [relabelled, reportOn, Report.relabel, Document.ofClasses_relabel,
    Assembly.stats_relabel]
  exact congrArg (fun h => Except.ok (Report.mk _ _ h _)) (Hierarchy.stats_relabel ρ _)

/-- Type ids are labels. For a type table and procedures under new ids, the resolution is the old
one, relabelled, or there is none for the same reason. Merging then folds the same classes into the
same classes, with the same counts. And of the whole there comes the same report, with the same
document, the same figures of the classes and of their hierarchy, or none for the same reason. -/
theorem ids_are_labels (options : Options) (t : TypeTable) (s : Symbol.Tables) :
    Resolution.ofTable (t.relabel ρ) (s.relabel ρ).procedures =
        relabelled ρ (Resolution.relabel ρ) (Resolution.ofTable t s.procedures) ∧
      (∀ r : Resolution,
        (Merging.run (t.relabel ρ) (r.relabel ρ)).report = (Merging.run t r).report.relabel ρ) ∧
      reportFrom options (t.relabel ρ) (s.relabel ρ) =
        relabelled ρ (Report.relabel ρ) (reportFrom options t s) := by
  refine ⟨Resolution.ofTable_relabel ρ t s.procedures, fun r => ?_,
    reportFrom_relabel ρ options t s⟩
  rw [Merging.run_relabel]
  rfl

end Recovery
end Lineage
