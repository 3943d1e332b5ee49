import Lineage.Ordered.Map
import Lineage.Ordered.Set
import Mathlib.Data.List.Nodup
import Mathlib.Logic.Embedding.Basic

/-!
# Maps and sets under new labels

Ids are labels, and most of what the program knows is kept in maps and sets whose keys are ids. To
see that the numbers themselves do not matter, new labels are put on a map or a set, and every
operation on the relabelled one is compared with the same operation on the old one.

Maps and sets that keep the order of insertion ask of their keys and elements only whether two are
equal. So an embedding, which tells labels apart, can be applied before an operation or after it.
Each operation has one equation that says so, with the new labels outside on the right, so that a
rewriter pushes them outwards through any composition of operations.

An embedding is needed and not just a function. If two keys could get one label, an insertion would
overwrite an entry that it leaves alone in the old map. Values are free: they are changed by any
function, which is an embedding of the same kind where a map goes from ids to ids.

Loops over lists of ids are folds. One lemma (`foldl_map_of_hom`) carries the equation of a step to
the whole loop, and it is used for every such loop in the modules that build on this one.
-/

namespace Lineage

/-- A fold may be done before both its elements and its result are mapped. -/
theorem foldl_map_of_hom {α α' β β' : Type} {step : β → α → β} {step' : β' → α' → β'} {f : α → α'}
    {g : β → β'} (h : ∀ b a, step' (g b) (f a) = g (step b a)) (xs : List α) {b : β} {b' : β'}
    (hb : b' = g b) : (xs.map f).foldl step' b' = g (xs.foldl step b) := by
  rw [List.foldl_map, hb]
  exact List.foldl_hom g (fun b a => h b a)

/-! ## Maps -/

namespace OrderedMap

variable {α α' β β' γ γ' : Type}

/-- The map with its keys under new labels, and its values changed along with them. -/
def relabel (f : α ↪ α') (g : β → β') (m : OrderedMap α β) : OrderedMap α' β' where
  entries := m.entries.map fun e => (f e.1, g e.2)
  nodup := by
    have nodup := m.nodup.map f.injective
    rwa [List.map_map] at nodup ⊢

variable (f : α ↪ α') (g : β → β') (m : OrderedMap α β)

@[simp] theorem relabel_empty : (∅ : OrderedMap α β).relabel f g = ∅ := rfl

/-- The keys stand in the order in which they stood before. -/
@[simp] theorem keys_relabel : (m.relabel f g).keys = m.keys.map f := by
  simp [relabel, keys, Function.comp_def]

/-- Values are reached by the second function only; the labels of their keys do not matter. -/
@[simp] theorem values_relabel : (m.relabel f g).values = m.values.map g := by
  simp [relabel, values, Function.comp_def]

/-- No two entries become one. -/
@[simp] theorem size_relabel : (m.relabel f g).size = m.size := List.length_map _

/-- The values may be changed under new labels if that is the same as changing them first. -/
theorem map_relabel {h : α → β → γ} {h' : α' → β' → γ'} {g' : γ → γ'}
    (hom : ∀ k v, h' (f k) (g v) = g' (h k v)) :
    (m.relabel f g).map h' = (m.map h).relabel f g' := by
  apply ext
  simp [relabel, map, hom]

variable [DecidableEq α] [DecidableEq α']

/-- The entry that is found is the old one, since no other key has its new label. -/
theorem lookup_relabel (k : α) (es : List (α × β)) :
    lookup (f k) (es.map fun e => (f e.1, g e.2)) = (lookup k es).map g := by
  induction es with
  | nil => rfl
  | cons e es ih =>
    simp only [List.map_cons, lookup, f.injective.eq_iff]
    split
    next => rfl
    next => exact ih

/-- A map answers for a new label what it answered for the old one. -/
@[simp] theorem get?_relabel (k : α) : (m.relabel f g).get? (f k) = (m.get? k).map g :=
  lookup_relabel f g k m.entries

@[simp] theorem contains_relabel (k : α) : (m.relabel f g).contains (f k) = m.contains k := by
  rw [contains, contains, get?_relabel, Option.isSome_map]

/-- An entry is changed where it stands, or added at the end, under either labels. The induction is
on the entries, and at each of them both searches decide alike. -/
theorem upsertEntry_relabel {h : Option β → β} {h' : Option β' → β'}
    (hom : ∀ v, h' (v.map g) = g (h v)) (k : α) (es : List (α × β)) :
    upsertEntry (f k) h' (es.map fun e => (f e.1, g e.2)) =
      (upsertEntry k h es).map fun e => (f e.1, g e.2) := by
  induction es with
  | nil => exact congrArg (fun v => [(f k, v)]) (hom none)
  | cons e es ih =>
    simp only [List.map_cons, upsertEntry, f.injective.eq_iff]
    split
    next => rw [List.map_cons, ← hom, Option.map_some]
    next => rw [List.map_cons, ih]

/-- All ways to put an entry into a map are upserts, so this equation serves them all. -/
theorem upsert_relabel {h : Option β → β} {h' : Option β' → β'}
    (hom : ∀ v, h' (v.map g) = g (h v)) (k : α) :
    (m.relabel f g).upsert (f k) h' = (m.upsert k h).relabel f g :=
  ext (upsertEntry_relabel f g hom k m.entries)

@[simp] theorem insert_relabel (k : α) (v : β) :
    (m.relabel f g).insert (f k) (g v) = (m.insert k v).relabel f g :=
  upsert_relabel f g m (fun _ => rfl) k

/-- A first entry stays the first: whether there is one does not depend on labels. -/
@[simp] theorem insertIfNew_relabel (k : α) (v : β) :
    (m.relabel f g).insertIfNew (f k) (g v) = (m.insertIfNew k v).relabel f g :=
  upsert_relabel f g m (fun w => by cases w <;> rfl) k

/-- Erasing one label erases one entry and no other. -/
@[simp] theorem erase_relabel (k : α) :
    (m.relabel f g).erase (f k) = (m.erase k).relabel f g := by
  apply ext
  simp only [relabel, erase, List.filter_map, Function.comp_def, ne_eq, f.injective.eq_iff]

end OrderedMap

/-! ## Sets -/

namespace OrderedSet

variable {α α' : Type}

/-- The set with its elements under new labels. -/
def relabel (f : α ↪ α') (s : OrderedSet α) : OrderedSet α' where
  elements := s.elements.map f
  nodup := s.nodup.map f.injective

variable (f : α ↪ α') (s : OrderedSet α)

@[simp] theorem relabel_empty : (∅ : OrderedSet α).relabel f = ∅ := rfl

@[simp] theorem elements_relabel : (s.relabel f).elements = s.elements.map f := rfl

@[simp] theorem size_relabel : (s.relabel f).size = s.size := List.length_map _

@[simp] theorem isEmpty_relabel : (s.relabel f).isEmpty = s.isEmpty := List.isEmpty_map

/-- Nothing becomes a member that was none. This is where labels that are kept apart are needed. -/
@[simp] theorem mem_relabel {a : α} : f a ∈ s.relabel f ↔ a ∈ s :=
  List.mem_map_of_injective f.injective

variable [DecidableEq α] [DecidableEq α']

/-- An element is added at the end of the relabelled set just if it was added to the old one. -/
@[simp] theorem insert_relabel (a : α) : (s.relabel f).insert (f a) = (s.insert a).relabel f := by
  apply ext
  simp only [elements_relabel, elements_insert, List.mem_map_of_injective f.injective]
  split
  next => rfl
  next => rw [List.map_append, List.map_singleton]

@[simp] theorem insertMany_relabel (xs : List α) :
    (s.relabel f).insertMany (xs.map f) = (s.insertMany xs).relabel f :=
  foldl_map_of_hom (fun s a => insert_relabel f s a) xs rfl

/-- Of repeated elements the same ones are dropped. -/
@[simp] theorem ofList_relabel (xs : List α) : ofList (xs.map f) = (ofList xs).relabel f :=
  insertMany_relabel f empty xs

/-- Erasing one label erases one element and no other. -/
@[simp] theorem erase_relabel (a : α) : (s.relabel f).erase (f a) = (s.erase a).relabel f := by
  apply ext
  simp only [elements_erase, elements_relabel, List.filter_map, Function.comp_def, ne_eq,
    f.injective.eq_iff]

end OrderedSet
end Lineage
