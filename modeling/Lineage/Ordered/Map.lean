/-!
# Maps that remember the order of insertion

Every answer of the program lists things in the order in which the dump gave
them: classes, base classes, methods. The maps between its stages therefore
keep their keys in insertion order. A key has one entry, which the type itself
guarantees, and it keeps its place when its value changes.

The view of a map is its list of `keys` together with `get?`. Each operation has
one lemma for either half of the view, and nothing else needs to look inside.
-/

namespace Lineage

/-- A finite map whose keys stand in the order of their insertion. -/
structure OrderedMap (α β : Type) where
  entries : List (α × β)
  nodup : (entries.map Prod.fst).Nodup
deriving DecidableEq

namespace OrderedMap

variable {α β γ : Type}

@[ext] theorem ext {m n : OrderedMap α β} (h : m.entries = n.entries) : m = n := by
  cases m; cases n; cases h; rfl

/-- The map without entries. -/
def empty : OrderedMap α β := ⟨[], List.nodup_nil⟩

instance : EmptyCollection (OrderedMap α β) := ⟨empty⟩

instance : Inhabited (OrderedMap α β) := ⟨empty⟩

/-- The keys in the order of insertion. -/
def keys (m : OrderedMap α β) : List α := m.entries.map Prod.fst

/-- The values in the order of their keys. -/
def values (m : OrderedMap α β) : List β := m.entries.map Prod.snd

/-- The number of keys. -/
def size (m : OrderedMap α β) : Nat := m.entries.length

/-- Whether the map has no entry. -/
def isEmpty (m : OrderedMap α β) : Bool := m.entries.isEmpty

/-- Every value changed in place, with its key at hand. -/
def map (f : α → β → γ) (m : OrderedMap α β) : OrderedMap α γ where
  entries := m.entries.map fun e => (e.1, f e.1 e.2)
  nodup := by simpa [List.map_map, Function.comp_def] using m.nodup

@[simp] theorem keys_empty : (empty : OrderedMap α β).keys = [] := rfl

theorem length_keys (m : OrderedMap α β) : m.keys.length = m.size := by
  rw [keys, List.length_map]
  rfl

theorem nodup_keys (m : OrderedMap α β) : m.keys.Nodup := m.nodup

@[simp] theorem keys_map (f : α → β → γ) (m : OrderedMap α β) : (m.map f).keys = m.keys := by
  simp [keys, map, Function.comp_def]

theorem map_map {δ : Type} (f : α → β → γ) (g : α → γ → δ) (m : OrderedMap α β) :
    (m.map f).map g = m.map fun k v => g k (f k v) := by
  apply ext
  simp [map, Function.comp_def]

theorem map_congr {f g : α → β → γ} {m : OrderedMap α β} (h : ∀ k v, f k v = g k v) :
    m.map f = m.map g := by
  obtain rfl : f = g := funext fun k => funext (h k)
  rfl

theorem map_eq_self (m : OrderedMap α β) : (m.map fun _ v => v) = m := by
  apply ext
  simp [map]

/-! ## Looking up and changing -/

section Lookup

variable [DecidableEq α]

/-- The value in a list of entries that stands first under a key. -/
def lookup (k : α) : List (α × β) → Option β
  | [] => none
  | e :: es => if e.1 = k then some e.2 else lookup k es

/-- The value at a key. -/
def get? (m : OrderedMap α β) (k : α) : Option β := lookup k m.entries

/-- Whether the map has the key. -/
def contains (m : OrderedMap α β) (k : α) : Bool := (m.get? k).isSome

/-- A list of entries with the value at `k` recomputed, or a new entry at the end. -/
def upsertEntry (k : α) (f : Option β → β) : List (α × β) → List (α × β)
  | [] => [(k, f none)]
  | e :: es => if e.1 = k then (e.1, f (some e.2)) :: es else e :: upsertEntry k f es

theorem mem_keys_upsertEntry {k j : α} {f : Option β → β} {es : List (α × β)} :
    j ∈ (upsertEntry k f es).map Prod.fst ↔ j ∈ es.map Prod.fst ∨ j = k := by
  induction es with
  | nil => simp [upsertEntry]
  | cons e es ih =>
    simp only [upsertEntry]
    split
    next h => subst h; simp; exact fun h => .inl h
    next => simp [ih, or_assoc]

theorem nodup_upsertEntry {k : α} {f : Option β → β} {es : List (α × β)}
    (h : (es.map Prod.fst).Nodup) : ((upsertEntry k f es).map Prod.fst).Nodup := by
  induction es with
  | nil => simp [upsertEntry]
  | cons e es ih =>
    rw [List.map_cons, List.nodup_cons] at h
    simp only [upsertEntry]
    split
    next => simpa using h
    next hk =>
      rw [List.map_cons, List.nodup_cons, mem_keys_upsertEntry]
      exact ⟨fun hm => hm.elim h.1 hk, ih h.2⟩

/-- Recomputes the value at a key from the one that is there, if any. A new key
goes to the end; an old one keeps its place. -/
def upsert (m : OrderedMap α β) (k : α) (f : Option β → β) : OrderedMap α β :=
  ⟨upsertEntry k f m.entries, nodup_upsertEntry m.nodup⟩

/-- Gives a key a value. A new key goes to the end; an old one keeps its place. -/
def insert (m : OrderedMap α β) (k : α) (v : β) : OrderedMap α β := m.upsert k fun _ => v

/-- Gives a key a value unless it has one. -/
def insertIfNew (m : OrderedMap α β) (k : α) (v : β) : OrderedMap α β :=
  m.upsert k fun w => w.getD v

/-- Removes a key; the others keep their order. -/
def erase (m : OrderedMap α β) (k : α) : OrderedMap α β where
  entries := m.entries.filter fun e => e.1 ≠ k
  nodup := m.nodup.sublist (List.filter_sublist.map _)

/-- The map of a list of entries; of a repeated key the first place and the last value count. -/
def ofList (es : List (α × β)) : OrderedMap α β := es.foldl (fun m e => m.insert e.1 e.2) empty

/-! ## The view of each operation -/

@[simp] theorem get?_empty (k : α) : (∅ : OrderedMap α β).get? k = none := rfl

theorem lookup_eq_none_iff {k : α} {es : List (α × β)} :
    lookup k es = none ↔ k ∉ es.map Prod.fst := by
  induction es with
  | nil => simp [lookup]
  | cons e es ih =>
    simp only [lookup]
    split
    next h => simp [h]
    next h => simp [ih, Ne.symm h]

theorem get?_eq_none_iff {m : OrderedMap α β} {k : α} : m.get? k = none ↔ k ∉ m.keys :=
  lookup_eq_none_iff

theorem contains_iff {m : OrderedMap α β} {k : α} : m.contains k = true ↔ k ∈ m.keys := by
  rw [contains, Option.isSome_iff_ne_none, ne_eq, get?_eq_none_iff, Decidable.not_not]

theorem lookup_map (f : α → β → γ) (k : α) (es : List (α × β)) :
    lookup k (es.map fun e => (e.1, f e.1 e.2)) = (lookup k es).map (f k) := by
  induction es with
  | nil => rfl
  | cons e es ih =>
    simp only [List.map_cons, lookup]
    split
    next h => subst h; rfl
    next => exact ih

@[simp] theorem get?_map (f : α → β → γ) (m : OrderedMap α β) (k : α) :
    (m.map f).get? k = (m.get? k).map (f k) :=
  lookup_map f k m.entries

theorem lookup_upsertEntry (k j : α) (f : Option β → β) (es : List (α × β)) :
    lookup j (upsertEntry k f es) = if j = k then some (f (lookup k es)) else lookup j es := by
  induction es with
  | nil => simp [upsertEntry, lookup, eq_comm]
  | cons e es ih =>
    simp only [upsertEntry]
    split
    next h => subst h; by_cases hj : j = e.1 <;> simp [lookup, hj, eq_comm]
    next h =>
      simp only [lookup, ih]
      by_cases hj : j = k
      · subst hj; simp [h]
      · simp [hj]

theorem get?_upsert (m : OrderedMap α β) (k j : α) (f : Option β → β) :
    (m.upsert k f).get? j = if j = k then some (f (m.get? k)) else m.get? j :=
  lookup_upsertEntry k j f m.entries

theorem get?_insert (m : OrderedMap α β) (k j : α) (v : β) :
    (m.insert k v).get? j = if j = k then some v else m.get? j :=
  get?_upsert m k j _

theorem keys_upsertEntry (k : α) (f : Option β → β) (es : List (α × β)) :
    (upsertEntry k f es).map Prod.fst =
      if k ∈ es.map Prod.fst then es.map Prod.fst else es.map Prod.fst ++ [k] := by
  induction es with
  | nil => simp [upsertEntry]
  | cons e es ih =>
    simp only [upsertEntry]
    split
    next h => simp [h]
    next h =>
      simp only [List.map_cons, ih, List.mem_cons]
      by_cases hk : k ∈ es.map Prod.fst
      · simp [hk]
      · simp [hk, Ne.symm h]

theorem keys_upsert (m : OrderedMap α β) (k : α) (f : Option β → β) :
    (m.upsert k f).keys = if k ∈ m.keys then m.keys else m.keys ++ [k] :=
  keys_upsertEntry k f m.entries

theorem keys_insert (m : OrderedMap α β) (k : α) (v : β) :
    (m.insert k v).keys = if k ∈ m.keys then m.keys else m.keys ++ [k] :=
  keys_upsert m k _

@[simp] theorem keys_erase (m : OrderedMap α β) (k : α) :
    (m.erase k).keys = m.keys.filter fun j => j ≠ k := by
  simp [erase, keys, List.filter_map, Function.comp_def]

theorem lookup_filter_ne (k j : α) (es : List (α × β)) :
    lookup j (es.filter fun e => e.1 ≠ k) = if j = k then none else lookup j es := by
  induction es with
  | nil => simp [lookup]
  | cons e es ih =>
    by_cases he : e.1 = k
    · rw [List.filter_cons_of_neg (by simp [he]), ih]
      by_cases hj : j = k
      · simp [hj]
      · simp [hj, lookup, show ¬ e.1 = j from fun h => hj (h ▸ he)]
    · rw [List.filter_cons_of_pos (by simp [he])]
      simp only [lookup, ih]
      by_cases hj : j = k
      · subst hj; simp [he]
      · simp [hj]

theorem get?_erase (m : OrderedMap α β) (k j : α) :
    (m.erase k).get? j = if j = k then none else m.get? j :=
  lookup_filter_ne k j m.entries

/-! ## Entries and the view -/

theorem lookup_eq_some_iff {k : α} {v : β} {es : List (α × β)} (h : (es.map Prod.fst).Nodup) :
    lookup k es = some v ↔ (k, v) ∈ es := by
  induction es with
  | nil => simp [lookup]
  | cons e es ih =>
    rw [List.map_cons, List.nodup_cons] at h
    simp only [lookup, List.mem_cons]
    split
    next he =>
      subst he
      refine ⟨?_, ?_⟩
      · intro hv
        obtain rfl := Option.some.inj hv
        exact .inl rfl
      · intro hx
        rcases hx with hv | hm
        · rw [← hv]
        · exact absurd (List.mem_map_of_mem hm) h.1
    next he =>
      rw [ih h.2]
      refine ⟨?_, ?_⟩
      · exact .inr
      · intro hx
        rcases hx with hv | hm
        · exact absurd (congrArg Prod.fst hv).symm he
        · exact hm

theorem get?_eq_some_iff {m : OrderedMap α β} {k : α} {v : β} :
    m.get? k = some v ↔ (k, v) ∈ m.entries :=
  lookup_eq_some_iff m.nodup

theorem mem_keys_iff {m : OrderedMap α β} {k : α} : k ∈ m.keys ↔ ∃ v, m.get? k = some v := by
  rw [← Option.ne_none_iff_exists', ne_eq, get?_eq_none_iff, Decidable.not_not]

theorem mem_values_iff {m : OrderedMap α β} {v : β} : v ∈ m.values ↔ ∃ k, m.get? k = some v := by
  simp only [get?_eq_some_iff, values, List.mem_map]
  refine ⟨?_, ?_⟩
  · intro hx
    obtain ⟨⟨k, w⟩, he, rfl⟩ := hx
    exact ⟨k, he⟩
  · intro hx
    obtain ⟨k, he⟩ := hx
    exact ⟨(k, v), he, rfl⟩

/-- The values in order, by way of the keys; `d` stands for the value of no key. -/
theorem values_eq_map_keys (m : OrderedMap α β) (d : β) :
    m.values = m.keys.map fun k => (m.get? k).getD d := by
  rw [values, keys, List.map_map]
  refine List.map_congr_left fun e he => ?_
  rw [Function.comp_apply, get?_eq_some_iff.2 he, Option.getD_some]

theorem upsertEntry_of_not_mem {k : α} {f : Option β → β} {es : List (α × β)}
    (h : k ∉ es.map Prod.fst) : upsertEntry k f es = es ++ [(k, f none)] := by
  induction es with
  | nil => rfl
  | cons e es ih =>
    rw [List.map_cons, List.mem_cons, not_or] at h
    rw [upsertEntry, if_neg (Ne.symm h.1), ih h.2, List.cons_append]

/-- A new key goes to the end. -/
theorem entries_insert_of_not_mem {m : OrderedMap α β} {k : α} {v : β} (h : k ∉ m.keys) :
    (m.insert k v).entries = m.entries ++ [(k, v)] :=
  upsertEntry_of_not_mem h

end Lookup

end OrderedMap
end Lineage
