import Lineage.Document.Json
import Lineage.Proofs.Json.RoundTrip
import Lineage.Proofs.Ordered.Gather

/-!
# A document reads back from its text

Reading a document takes two steps, and both undo what writing did. The text spells the value that
was written (`Json.read?_text`), since no number is in it. And the value describes the document,
part by part: the kind of a method by its name, a structure by its fields, a map by its entries,
whose keys are distinct and hence keep their places.

The layout has no part in it. So the text of a document in either layout denotes the document, and
what has been read and written once is not changed by reading and writing it again.

Each type of the document has one lemma, which says that its value is read back. They are put
together in the order in which the types contain each other, from the kind of a method up to the
document. Lists and maps are read element by element, so their lemmas ask for that of the element
only.

Main result: `Document.text_round_trips`.
-/

namespace Lineage

open Json (Value)

/-! ## Lists and maps -/

/-- If every element is read back, so is the list. -/
theorem mapM_map_eq_some {α β γ : Type} {f : β → Option γ} {g : α → β} {k : α → γ} {xs : List α}
    (h : ∀ x ∈ xs, f (g x) = some (k x)) : (xs.map g).mapM f = some (xs.map k) := by
  induction xs with
  | nil => rfl
  | cons x xs ih =>
    rw [List.map_cons, List.mapM_cons, h x List.mem_cons_self,
      ih fun x hx => h x (List.mem_cons_of_mem _ hx)]
    rfl

/-- The entries of an object with texts for keys. -/
theorem entries?_object {α : Type} (es : List (Text × α)) (toJson : α → Value) :
    Value.entries? (.object (es.map fun e => (some e.1, toJson e.2))) =
      some (es.map fun e => (e.1, toJson e.2)) :=
  mapM_map_eq_some fun _ _ => rfl

/-- A map reads back if its values do. -/
theorem mapOfJson?_entries {α : Type} {item? : Value → Option α} {toJson : α → Value}
    (hitem : ∀ a, item? (toJson a) = some a) (m : OrderedMap Text α) :
    mapOfJson? item? (.object (m.entries.map fun e => (some e.1, toJson e.2))) = some m := by
  have items : (m.entries.map fun e => (e.1, toJson e.2)).mapM
      (fun e => (item? e.2).map fun a => (e.1, a)) = some m.entries := by
    rw [mapM_map_eq_some (k := id), List.map_id]
    intro e _
    rw [hitem]
    rfl
  unfold mapOfJson?
  rw [entries?_object]
  show ((m.entries.map fun e => (e.1, toJson e.2)).mapM
    fun e => (item? e.2).map fun a => (e.1, a)).bind (fun es => some (.ofList es)) = some m
  rw [items]
  exact congrArg some (OrderedMap.ext (OrderedMap.entries_ofList m.nodup))

/-! ## Methods and classes -/

/-- A kind is read back from its name, as no two kinds share one. -/
theorem MethodKind.ofJson?_name (kind : MethodKind) : ofJson? (.ofText kind.name) = some kind := by
  cases kind <;> rfl

/-- A method is read back from its fields. -/
theorem MethodEntry.ofJson?_toJson (m : MethodEntry) : ofJson? m.toJson = some m := by
  have fields : m.toJson.fields? ["name".toList, "kind".toList] =
      some [some (.ofText m.name), some (.ofText m.kind.name)] := rfl
  unfold ofJson?
  rw [fields]
  show (MethodKind.ofJson? (.ofText m.kind.name)).bind (fun kind => some ⟨m.name, kind⟩) = some m
  rw [MethodKind.ofJson?_name]
  rfl

/-- A class is read back from its fields, with its methods by address. -/
theorem ClassEntry.ofJson?_toJson (c : ClassEntry) : ofJson? c.toJson = some c := by
  have fields :
      c.toJson.fields? ["demangled_name".toList, "base_classes".toList, "methods".toList] =
        some [some (.ofText c.demangled), some (.array (c.bases.map .ofText)),
          some (.object (c.methods.entries.map fun e => (some e.1, e.2.toJson)))] := rfl
  have bases : (c.bases.map Value.ofText).mapM Value.text? = some c.bases := by
    rw [mapM_map_eq_some (k := id), List.map_id]
    exact fun _ _ => rfl
  unfold ofJson?
  rw [fields]
  show ((c.bases.map Value.ofText).mapM Value.text?).bind (fun bases =>
    (mapOfJson? MethodEntry.ofJson? _).bind fun methods =>
      some (ClassEntry.mk c.demangled bases methods)) = some c
  rw [bases, mapOfJson?_entries MethodEntry.ofJson?_toJson]
  rfl

/-! ## Documents -/

namespace Document

/-- A document is read back from the value that describes it. -/
theorem ofJson?_toJson (d : Document) : ofJson? d.toJson = some d :=
  mapOfJson?_entries ClassEntry.ofJson?_toJson d

/-- No number is in a document. -/
theorem numberFree_toJson (d : Document) : d.toJson.NumberFree := by
  have text (s : Text) : (Value.ofText s).NumberFree := .string _
  have methods (m : OrderedMap Text MethodEntry) :
      (Value.object (m.entries.map fun e => (some e.1, e.2.toJson))).NumberFree := by
    refine .object fun e he => ?_
    obtain ⟨⟨key, method⟩, _, rfl⟩ := List.mem_map.1 he
    refine .object fun field hfield => ?_
    rcases List.mem_pair.1 hfield with rfl | rfl
    · exact text method.name
    · exact text method.kind.name
  refine .object fun e he => ?_
  obtain ⟨⟨key, c⟩, _, rfl⟩ := List.mem_map.1 he
  refine .object fun field hfield => ?_
  simp only [List.mem_cons, List.not_mem_nil, or_false] at hfield
  rcases hfield with rfl | rfl | rfl
  · exact text c.demangled
  · refine .array fun base hbase => ?_
    obtain ⟨name, _, rfl⟩ := List.mem_map.1 hbase
    exact text name
  · exact methods c.methods

/-- A document is read back from its text, in either layout. -/
theorem read?_of_text (isPretty : Bool) (d : Document) : read? (d.text isPretty) = some d := by
  have hstyle : (if isPretty then Json.Style.pretty else .compact).Blank := by
    cases isPretty with
    | true => exact Json.Style.blank_pretty
    | false => exact Json.Style.blank_compact
  rw [read?, text, Json.read?_text hstyle d.numberFree_toJson, Option.bind_some, ofJson?_toJson]

/-- The text of the document that a text denotes. -/
def rewrite? (isPretty : Bool) (s : Text) : Option Text := (read? s).map (text isPretty)

/-- The text of a document denotes this document, so both layouts denote the same. Reading and
writing a second time is as good as doing it once, with the second layout. -/
theorem text_round_trips (d : Document) :
    (∀ isPretty, read? (d.text isPretty) = some d) ∧
      read? (d.text true) = read? (d.text false) ∧
      ∀ isPretty isPretty' s,
        (rewrite? isPretty s).bind (rewrite? isPretty') = rewrite? isPretty' s := by
  refine ⟨fun isPretty => read?_of_text isPretty d, ?_, fun isPretty isPretty' s => ?_⟩
  · rw [read?_of_text, read?_of_text]
  · unfold rewrite?
    cases read? s with
    | none => rfl
    | some e =>
      rw [Option.map_some, Option.bind_some, read?_of_text]

end Document
end Lineage
