/-!
# Sets that remember the order of insertion

The base classes of a class form a set, but the order in which they are declared
is part of the answer. An `OrderedSet` holds each element once, in the order in
which the elements were first added; its view is the list of its `elements`.
-/

namespace Lineage

/-- A finite set whose elements stand in the order of their insertion. -/
structure OrderedSet (α : Type) where
  elements : List α
  nodup : elements.Nodup
deriving DecidableEq

namespace OrderedSet

variable {α : Type}

@[ext] theorem ext {s t : OrderedSet α} (h : s.elements = t.elements) : s = t := by
  cases s; cases t; cases h; rfl

/-- The set without elements. -/
def empty : OrderedSet α := ⟨[], List.nodup_nil⟩

instance : EmptyCollection (OrderedSet α) := ⟨empty⟩

instance : Inhabited (OrderedSet α) := ⟨empty⟩

instance : Membership α (OrderedSet α) := ⟨fun s a => a ∈ s.elements⟩

/-- The number of elements. -/
def size (s : OrderedSet α) : Nat := s.elements.length

/-- Whether the set has no element. -/
def isEmpty (s : OrderedSet α) : Bool := s.elements.isEmpty

@[simp] theorem elements_empty : (empty : OrderedSet α).elements = [] := rfl

@[simp] theorem not_mem_empty (a : α) : a ∉ (∅ : OrderedSet α) := List.not_mem_nil

theorem mem_def {a : α} {s : OrderedSet α} : a ∈ s ↔ a ∈ s.elements := Iff.rfl

section Insertion

variable [DecidableEq α]

instance (a : α) (s : OrderedSet α) : Decidable (a ∈ s) :=
  inferInstanceAs (Decidable (a ∈ s.elements))

/-- Adds an element at the end, unless it is there already. -/
def insert (s : OrderedSet α) (a : α) : OrderedSet α :=
  if h : a ∈ s.elements then s
  else ⟨s.elements ++ [a], by
    rw [List.nodup_append]
    exact ⟨s.nodup, by simp, fun x hx y hy => by
      rw [List.mem_singleton] at hy
      subst hy
      exact fun hxy => h (hxy ▸ hx)⟩⟩

/-- Adds the elements of a list, in order. -/
def insertMany (s : OrderedSet α) (xs : List α) : OrderedSet α := xs.foldl insert s

/-- The distinct elements of a list, each at the place of its first occurrence. -/
def ofList (xs : List α) : OrderedSet α := insertMany empty xs

/-- Removes an element; the others keep their order. -/
def erase (s : OrderedSet α) (a : α) : OrderedSet α where
  elements := s.elements.filter fun b => b ≠ a
  nodup := s.nodup.sublist List.filter_sublist

/-! ## The view of each operation -/

theorem elements_insert (s : OrderedSet α) (a : α) :
    (s.insert a).elements = if a ∈ s.elements then s.elements else s.elements ++ [a] := by
  unfold insert
  split <;> rfl

theorem mem_insert {s : OrderedSet α} {a b : α} : b ∈ s.insert a ↔ b ∈ s ∨ b = a := by
  simp only [mem_def, elements_insert]
  split
  next h => exact ⟨.inl, fun hb => hb.elim id fun e => e ▸ h⟩
  next => simp

theorem mem_insertMany {s : OrderedSet α} {xs : List α} {b : α} :
    b ∈ s.insertMany xs ↔ b ∈ s ∨ b ∈ xs := by
  induction xs generalizing s with
  | nil => simp [insertMany]
  | cons x xs ih =>
    simp only [insertMany, List.foldl_cons]
    rw [show xs.foldl insert (s.insert x) = (s.insert x).insertMany xs from rfl, ih, mem_insert]
    simp [or_assoc]

theorem mem_ofList {xs : List α} {b : α} : b ∈ ofList xs ↔ b ∈ xs := by
  rw [ofList, mem_insertMany, mem_def, elements_empty]
  simp

@[simp] theorem elements_erase (s : OrderedSet α) (a : α) :
    (s.erase a).elements = s.elements.filter fun b => b ≠ a := rfl

end Insertion

end OrderedSet
end Lineage
