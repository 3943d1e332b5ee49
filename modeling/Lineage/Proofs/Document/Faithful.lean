import Lineage.Proofs.Assembly.Placement
import Lineage.Proofs.Ordered.Gather
import Lineage.Proofs.Text.Hexadecimal

/-!
# The document says what was assembled

A document is made without checks of its own. A base class whose name it does not know is
left out, a class whose name it has already takes the place of the other, and a method at an
address that is taken is dropped. None of these but the last ever happens to a result that
assembly lets pass: its base classes are all there and its names are distinct.

Methods are kept under the text of their address. Two addresses with one text would be
taken for one, so it matters that the text tells addresses apart (`Address.text_injective`).

Both maps of a document are folds over a list. For the classes, distinct names make the map the list
itself (`entries_ofClasses`). For the methods of a class nothing makes the addresses distinct, and
what the map answers is the first method at an address, by the same search that the list would be
searched with (`get?_methods_entry`).

Main result: `Recovery.document_of_run`.
-/

namespace Lineage

/-! ## Base classes by name -/

/-- Where every element has a value, the values stand beside the elements. -/
theorem forall₂_filterMap {α β : Type} {f : α → Option β} {xs : List α}
    (h : ∀ x ∈ xs, ∃ y, f x = some y) :
    List.Forall₂ (fun x y => f x = some y) xs (xs.filterMap f) := by
  induction xs with
  | nil => exact .nil
  | cons x xs ih =>
    obtain ⟨y, hy⟩ := h x List.mem_cons_self
    rw [List.filterMap_cons_some hy]
    exact .cons hy (ih fun x hx => h x (List.mem_cons_of_mem _ hx))

namespace Document

variable {classes : List AssembledClass}

theorem mangledName?_eq_some {id : TypeId} {name : Text}
    (h : mangledName? classes id = some name) :
    ∃ c ∈ classes, c.record.id = id ∧ c.record.mangled = name := by
  obtain ⟨c, hc, rfl⟩ := Option.map_eq_some_iff.1 h
  exact ⟨c, List.mem_of_find?_eq_some hc, by simpa using List.find?_some hc, rfl⟩

theorem exists_mangledName? {id : TypeId} (h : id ∈ classes.map fun c => c.record.id) :
    ∃ name, mangledName? classes id = some name := by
  rw [← Option.isSome_iff_exists, mangledName?, Option.isSome_map, List.find?_isSome]
  obtain ⟨c, hc, rfl⟩ := List.mem_map.1 h
  exact ⟨c, hc, decide_eq_true rfl⟩

/-- Where names are distinct, a name is that of one id only. -/
theorem id_eq_of_mangledName? (hnames : (classes.map fun c => c.record.mangled).Nodup)
    {a b : TypeId} {name : Text} (ha : mangledName? classes a = some name)
    (hb : mangledName? classes b = some name) : a = b := by
  obtain ⟨c, hc, rfl, hcn⟩ := mangledName?_eq_some ha
  obtain ⟨e, he, rfl, hen⟩ := mangledName?_eq_some hb
  rw [List.inj_on_of_nodup_map hnames hc he (hcn.trans hen.symm)]

/-! ## Methods by address -/

/-- The methods that have an address, under its text. -/
def placed (methods : List Method) : List (Text × MethodEntry) :=
  methods.filterMap fun m => m.placement.map fun p => (p.address.text, ⟨m.name, m.kind⟩)

theorem methods_entry (c : AssembledClass) :
    (entry classes c).methods = .collect (placed c.methods) := by
  rw [entry, OrderedMap.collect, placed, List.foldl_filterMap]
  refine List.foldl_ext _ _ _ fun methods m _ => ?_
  rw [addMethod]
  cases m.placement <;> rfl

/-- The keys are the addresses of methods. -/
theorem mem_keys_methods_entry {c : AssembledClass} {key : Text} :
    key ∈ (entry classes c).methods.keys ↔
      ∃ m ∈ c.methods, ∃ p, m.placement = some p ∧ p.address.text = key := by
  rw [methods_entry, OrderedMap.mem_keys_collect, List.mem_map]
  refine ⟨?_, ?_⟩
  · intro h
    obtain ⟨e, he, rfl⟩ := h
    obtain ⟨m, hm, hplaced⟩ := List.mem_filterMap.1 he
    obtain ⟨p, hp, rfl⟩ := Option.map_eq_some_iff.1 hplaced
    exact ⟨m, hm, p, hp, rfl⟩
  · intro h
    obtain ⟨m, hm, p, hp, rfl⟩ := h
    exact ⟨_, List.mem_filterMap.2 ⟨m, hm, Option.map_eq_some_iff.2 ⟨p, hp, rfl⟩⟩, rfl⟩

/-- Under an address is the first method that has it. -/
theorem get?_methods_entry (c : AssembledClass) (a : Address) :
    (entry classes c).methods.get? a.text =
      (c.methods.find? fun m => m.placement.map Placement.address = some a).map
        fun m => ⟨m.name, m.kind⟩ := by
  rw [methods_entry, OrderedMap.get?_collect]
  induction c.methods with
  | nil => rfl
  | cons m methods ih =>
    rw [placed] at ih ⊢
    cases hp : m.placement with
    | none =>
      rw [List.filterMap_cons_none (by rw [hp]; rfl), ih, List.find?_cons_of_neg]
      rw [hp, decide_eq_true_iff]
      exact fun h => by cases h
    | some p =>
      rw [List.filterMap_cons_some (by rw [hp]; rfl)]
      by_cases ha : p.address = a
      · subst ha
        rw [List.find?_cons_of_pos, List.find?_cons_of_pos]
        · rfl
        · rw [hp]
          exact decide_eq_true rfl
        · exact decide_eq_true rfl
      · rw [List.find?_cons_of_neg, ih, List.find?_cons_of_neg]
        · rw [hp, decide_eq_true_iff]
          exact fun h => ha (Option.some.inj h)
        · rw [decide_eq_true_iff]
          exact fun h => ha (Address.text_injective h)

/-! ## The classes -/

/-- Where names are distinct, the document has one entry for each class, in order. -/
theorem entries_ofClasses (hnames : (classes.map fun c => c.record.mangled).Nodup) :
    (ofClasses classes).entries = classes.map fun c => (c.record.mangled, entry classes c) := by
  have filled : ofClasses classes =
      .ofList (classes.map fun c => (c.record.mangled, entry classes c)) := by
    rw [ofClasses, OrderedMap.ofList, List.foldl_map]
    rfl
  rw [filled, OrderedMap.entries_ofList]
  rwa [List.map_map]

end Document

namespace Recovery

variable {options : Options} {d : Dump} {j j' : Journal} {report : Report}

/-- The class of the result that a definition becomes. -/
def assembled (r : Recovery) (c : ClassRecord) : AssembledClass :=
  Assembly.assembleClass r.table r.resolution r.symbols.procedures r.publics c

/-- An entry of a document tells of a class what the recovery knows. -/
structure Describes (r : Recovery) (document : Document) (c : ClassRecord) (e : ClassEntry) :
    Prop where
  demangled : e.demangled = c.display
  /-- The base classes are named one by one, in order. -/
  bases : List.Forall₂ (fun b name => ∃ a ∈ r.table.realClasses, a.id = b ∧ a.mangled = name)
    (r.resolution.basesOf c.id).elements e.bases
  basesNodup : e.bases.Nodup
  closed : ∀ name ∈ e.bases, name ∈ document.keys
  /-- The keys of the methods are the addresses that methods of the class have. -/
  addresses : ∀ key, key ∈ e.methods.keys ↔
    ∃ m ∈ (r.assembled c).methods, ∃ p, m.placement = some p ∧ p.address.text = key
  /-- Under an address stands the first method in the order of the field list that has it. -/
  first : ∀ a : Address, e.methods.get? a.text =
    ((r.assembled c).methods.find? fun m => m.placement.map Placement.address = some a).map
      fun m => ⟨m.name, m.kind⟩

/-- What a run that succeeds reports is the document of what was recovered and assembled. -/
theorem exists_of_run (h : (run options d).run j = (.ok report, j')) :
    ∃ rec i i' classes, (recover options d).run i = (.ok rec, i') ∧
      rec.assemble = .ok classes ∧ report.document = .ofClasses classes := by
  simp only [run, runStages, Reported.run_bind_eq_ok_iff] at h
  obtain ⟨_, _, _, _, _, _, rec, i', hrec, hconclude⟩ := h
  simp only [conclude, Reported.run_bind_eq_ok_iff, Reported.run_note, Reported.run_ofExcept,
    Reported.run_pure, Prod.mk.injEq] at hconclude
  obtain ⟨_, _, _, classes, _, ⟨hclasses, _⟩, _, _, _, _, _, _, hres, _⟩ := hconclude
  obtain rfl := Except.ok.inj hres
  exact ⟨rec, _, i', classes, hrec, hclasses, rfl⟩

/-- Assembly makes of each definition a class. -/
theorem eq_map_of_assemble {rec : Recovery} {classes : List AssembledClass}
    (h : rec.assemble = .ok classes) : classes = rec.table.realClasses.map rec.assembled := by
  unfold assemble at h
  exact (Assembly.assemble_eq_ok_iff.1 h).1

theorem nodup_of_assemble {rec : Recovery} {classes : List AssembledClass}
    (h : rec.assemble = .ok classes) : (classes.map fun c => c.record.mangled).Nodup := by
  unfold assemble at h
  exact Assembly.nodup_of_checkNames (Assembly.assemble_eq_ok_iff.1 h).2.2

theorem assembled_mem_of_assemble {rec : Recovery} {classes : List AssembledClass}
    (h : rec.assemble = .ok classes) {c : ClassRecord} (hc : c ∈ rec.table.realClasses) :
    rec.assembled c ∈ classes := by
  rw [eq_map_of_assemble h]
  exact List.mem_map_of_mem hc

/-- The entry of a definition in the document of its result. -/
theorem describes_entry {rec : Recovery} {classes : List AssembledClass}
    (h : rec.assemble = .ok classes) {c : ClassRecord} (hc : c ∈ rec.table.realClasses) :
    Describes rec (.ofClasses classes) c (Document.entry classes (rec.assembled c)) := by
  have distinct := nodup_of_assemble h
  have hcc := assembled_mem_of_assemble h hc
  have mem_classes : ∀ a ∈ classes, a.record ∈ rec.table.realClasses := by
    intro a ha
    rw [eq_map_of_assemble h] at ha
    obtain ⟨e, he, rfl⟩ := List.mem_map.1 ha
    exact he
  unfold assemble at h
  -- No base class is left out, since the result is closed.
  have named := forall₂_filterMap fun b hb => Document.exists_mangledName?
    (Assembly.mem_ids_of_checkClosed (Assembly.assemble_eq_ok_iff.1 h).2.1 hcc hb)
  constructor
  case demangled => rfl
  case bases =>
    refine named.imp fun b name hb => ?_
    obtain ⟨a, ha, hid, hname⟩ := Document.mangledName?_eq_some hb
    exact ⟨a.record, mem_classes a ha, hid, hname⟩
  case basesNodup =>
    refine (rec.assembled c).bases.nodup.filterMap fun a b name ha hb => ?_
    exact Document.id_eq_of_mangledName? distinct ha hb
  case closed =>
    intro name hname
    obtain ⟨b, _, hb⟩ := List.mem_filterMap.1 hname
    obtain ⟨a, ha, _, rfl⟩ := Document.mangledName?_eq_some hb
    rw [OrderedMap.keys, Document.entries_ofClasses distinct, List.map_map]
    exact List.mem_map_of_mem ha
  case addresses => exact fun key => Document.mem_keys_methods_entry
  case first => exact Document.get?_methods_entry _

/-- The document of a run has an entry for each definition that is left after merging, by its
mangled name and in the order of the table, and the entry describes it. -/
theorem document_of_run (h : (run options d).run j = (.ok report, j')) :
    ∃ rec i i', (recover options d).run i = (.ok rec, i') ∧
      report.document.keys = rec.table.realClasses.map ClassRecord.mangled ∧
      report.document.keys.Nodup ∧
      ∀ c ∈ rec.table.realClasses, ∃ e, report.document.get? c.mangled = some e ∧
        Describes rec report.document c e := by
  obtain ⟨rec, i, i', classes, hrec, hasm, hdocument⟩ := exists_of_run h
  have entries := Document.entries_ofClasses (nodup_of_assemble hasm)
  refine ⟨rec, i, i', hrec, ?_, report.document.nodup_keys, fun c hc => ?_⟩
  · rw [hdocument, OrderedMap.keys, entries, eq_map_of_assemble hasm, List.map_map, List.map_map]
    rfl
  · rw [hdocument]
    refine ⟨_, OrderedMap.get?_eq_some_iff.2 ?_, describes_entry hasm hc⟩
    rw [entries]
    exact List.mem_map_of_mem (assembled_mem_of_assemble hasm hc)

/-- The document of two units has one class, with the method that it got from the second unit. -/
theorem document_of_run_twoUnits :
    ∃ report j rec i i' c e, (run ⟨0x400000, false⟩ twoUnitsDump).run .empty = (.ok report, j) ∧
      (recover ⟨0x400000, false⟩ twoUnitsDump).run i = (.ok rec, i') ∧
      report.document.get? "A1".toList = some e ∧
      e.methods.get? "0x402010".toList = some ⟨"Run".toList, .method⟩ ∧
      Describes rec report.document c e := by
  have found : (match (run ⟨0x400000, false⟩ twoUnitsDump).run .empty with
      | (.ok report, _) => decide (report.document.keys = ["A1".toList] ∧
          (report.document.get? "A1".toList).bind (fun e => e.methods.get? "0x402010".toList) =
            some ⟨"Run".toList, .method⟩)
      | (.error _, _) => false) = true := by
    decide +kernel
  split at found
  next report j hrun =>
    obtain ⟨hkeys, hmethod⟩ := of_decide_eq_true found
    obtain ⟨rec, i, i', hrec, keys, _, describes⟩ := document_of_run hrun
    have hA : "A1".toList ∈ rec.table.realClasses.map ClassRecord.mangled := by
      rw [← keys, hkeys]
      exact List.mem_cons_self
    obtain ⟨c, hc, hname⟩ := List.mem_map.1 hA
    obtain ⟨e, he, hdescribes⟩ := describes c hc
    rw [hname] at he
    rw [he] at hmethod
    exact ⟨report, j, rec, i, i', c, e, hrun, hrec, he, hmethod, hdescribes⟩
  next => cases found

end Recovery
end Lineage
