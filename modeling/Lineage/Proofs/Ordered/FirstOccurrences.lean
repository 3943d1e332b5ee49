import Lineage.Ordered.Set
import Mathlib.Data.List.Perm.Subperm

/-!
# Lists up to repeats

A set that remembers the order of insertion holds the first occurrences of what was put
into it. Two lists are therefore interchangeable as the source of such a set when they have
the same first occurrences, `SameFirsts`.

The relation is a congruence for everything that merging does with lists of base classes:
appending, renaming and filtering. That is what lets a set that was renamed step by step, with
repeats dropped after every step, be compared with one that is renamed at once:

* `elements_insertMany`: a set after insertions, as first occurrences;
* `SameFirsts.append`, `SameFirsts.map`, `SameFirsts.filter`: the congruence;
* `sameFirsts_eraseDups`: dropping repeats early changes nothing.
-/

namespace Lineage

variable {α β : Type} [DecidableEq α] [DecidableEq β]

/-- Two lists with the same elements in the same order of first occurrence. -/
def SameFirsts (xs ys : List α) : Prop := xs.eraseDups = ys.eraseDups

namespace SameFirsts

theorem refl (xs : List α) : SameFirsts xs xs := rfl

theorem symm {xs ys : List α} (h : SameFirsts xs ys) : SameFirsts ys xs := Eq.symm h

theorem trans {xs ys zs : List α} (h : SameFirsts xs ys) (h' : SameFirsts ys zs) :
    SameFirsts xs zs := Eq.trans h h'

/-- Lists with the same first occurrences have the same elements. -/
theorem mem_iff {xs ys : List α} (h : SameFirsts xs ys) {a : α} : a ∈ xs ↔ a ∈ ys := by
  rw [← List.mem_eraseDups, h, List.mem_eraseDups]

end SameFirsts

/-! ## Dropping repeats -/

/-- Dropping repeats goes on behind the first element in what differs from it. -/
theorem eraseDups_induction {P : List α → Prop} (nil : P [])
    (cons : ∀ x xs, P (xs.filter fun b => !b == x) → P (x :: xs)) : ∀ xs, P xs
  | [] => nil
  | x :: xs => cons x xs (eraseDups_induction nil cons (xs.filter fun b => !b == x))
  termination_by xs => xs.length
  decreasing_by exact Nat.lt_succ_of_le (List.length_filter_le _ _)

/-- First occurrences are distinct. -/
theorem nodup_eraseDups (xs : List α) : xs.eraseDups.Nodup := by
  induction xs using eraseDups_induction with
  | nil => exact List.nodup_nil
  | cons x xs ih =>
    rw [List.eraseDups_cons, List.nodup_cons]
    refine ⟨?_, ih⟩
    rw [List.mem_eraseDups, List.mem_filter]
    simp

/-- A list without repeats stays as it is. -/
theorem eraseDups_of_nodup {xs : List α} (h : xs.Nodup) : xs.eraseDups = xs := by
  induction xs with
  | nil => rfl
  | cons x xs ih =>
    obtain ⟨hx, hxs⟩ := List.nodup_cons.1 h
    have keep : (xs.filter fun b => !b == x) = xs := by
      rw [List.filter_eq_self]
      intro b hb
      have hne : b ≠ x := fun e => hx (e ▸ hb)
      simpa using hne
    rw [List.eraseDups_cons, keep, ih hxs]

omit [DecidableEq α] in
/-- A part of a list without repeats is known by its members. -/
theorem eq_filter_of_sublist {xs ys : List α} {p : α → Bool} (h : xs.Sublist ys) (hnd : ys.Nodup)
    (hp : ∀ y ∈ ys, y ∈ xs ↔ p y = true) : xs = ys.filter p := by
  have all : xs.filter p = xs := List.filter_eq_self.2 fun x hx => (hp x (h.mem hx)).1 hx
  have sub : xs.Sublist (ys.filter p) := all ▸ h.filter p
  refine sub.eq_of_length_le (List.subperm_of_subset (hnd.filter p) fun y hy => ?_).length_le
  obtain ⟨hy, hpy⟩ := List.mem_filter.1 hy
  exact (hp y hy).2 hpy

/-- Repeats may be dropped before or after a filter. -/
theorem filter_eraseDups (p : α → Bool) (xs : List α) :
    xs.eraseDups.filter p = (xs.filter p).eraseDups := by
  induction xs using eraseDups_induction with
  | nil => rfl
  | cons x xs ih =>
    rw [List.eraseDups_cons]
    by_cases hp : p x = true
    · rw [List.filter_cons_of_pos hp, List.filter_cons_of_pos hp, List.eraseDups_cons, ih,
        List.filter_filter, List.filter_filter]
      simp only [Bool.and_comm]
    · rw [List.filter_cons_of_neg hp, List.filter_cons_of_neg hp, ih, List.filter_filter]
      -- What is filtered out here anyway need not be dropped as a repeat.
      have drop : (xs.filter fun b => p b && !b == x) = xs.filter p := by
        refine List.filter_congr fun b _ => ?_
        by_cases hb : b = x
        · subst hb; simp [hp]
        · simp [hb]
      rw [drop]

/-- What is left of both lists has the same first occurrences. -/
theorem SameFirsts.filter {xs ys : List α} (h : SameFirsts xs ys) (p : α → Bool) :
    SameFirsts (xs.filter p) (ys.filter p) := by
  unfold SameFirsts
  rw [← filter_eraseDups, ← filter_eraseDups, h]

/-- A list and its first occurrences are interchangeable. -/
theorem sameFirsts_eraseDups (xs : List α) : SameFirsts xs.eraseDups xs :=
  eraseDups_of_nodup (nodup_eraseDups xs)

/-- An element of the second list is new just if the first one has it not, and that is the same on
both sides. -/
theorem SameFirsts.append {xs xs' ys ys' : List α} (h : SameFirsts xs xs')
    (h' : SameFirsts ys ys') : SameFirsts (xs ++ ys) (xs' ++ ys') := by
  have old : ys.removeAll xs = ys.removeAll xs' := by
    refine List.filter_congr fun b _ => ?_
    have := h.mem_iff (a := b)
    simp [this]
  have new : SameFirsts (ys.removeAll xs') (ys'.removeAll xs') := h'.filter _
  unfold SameFirsts
  rw [List.eraseDups_append, List.eraseDups_append, h, old, new]

/-- Repeats may be dropped before a renaming if they are dropped after it once more. -/
theorem sameFirsts_map_eraseDups (f : α → β) (xs : List α) :
    SameFirsts (xs.eraseDups.map f) (xs.map f) := by
  induction xs using eraseDups_induction with
  | nil => rfl
  | cons x xs ih =>
    have tail := ih.filter fun b => !b == f x
    unfold SameFirsts at tail ⊢
    rw [List.eraseDups_cons, List.map_cons, List.map_cons, List.eraseDups_cons,
      List.eraseDups_cons, tail, List.filter_map, List.filter_filter, List.filter_map]
    -- Whatever is not renamed to `f x` is not `x`.
    have drop : (xs.filter fun b => (((fun b => !b == f x) ∘ f) b) && !b == x) =
        xs.filter ((fun b => !b == f x) ∘ f) := by
      refine List.filter_congr fun b _ => ?_
      by_cases hb : b = x
      · subst hb; simp
      · simp [hb]
    rw [drop]

/-- Renaming may make elements equal, and does so on both sides. -/
theorem SameFirsts.map {xs ys : List α} (h : SameFirsts xs ys) (f : α → β) :
    SameFirsts (xs.map f) (ys.map f) := by
  have hx := sameFirsts_map_eraseDups f xs
  have hy := sameFirsts_map_eraseDups f ys
  rw [h] at hx
  exact hx.symm.trans hy

/-! ## Sets as first occurrences -/

namespace OrderedSet

/-- A set after insertions holds the first occurrences of what it held and what came. -/
theorem elements_insertMany (s : OrderedSet α) (xs : List α) :
    (s.insertMany xs).elements = (s.elements ++ xs).eraseDups := by
  induction xs generalizing s with
  | nil =>
    rw [List.append_nil, eraseDups_of_nodup s.nodup]
    rfl
  | cons x xs ih =>
    show ((s.insert x).insertMany xs).elements = _
    rw [ih, elements_insert]
    split
    next h =>
      have old : (x :: xs).removeAll s.elements = xs.removeAll s.elements := by
        simp [List.removeAll, h]
      rw [List.eraseDups_append, List.eraseDups_append, old]
    next => rw [List.append_assoc, List.singleton_append]

/-- A set made from a list holds its first occurrences. -/
theorem elements_ofList (xs : List α) : (ofList xs).elements = xs.eraseDups :=
  elements_insertMany empty xs

theorem sameFirsts_elements_insertMany (s : OrderedSet α) (xs : List α) :
    SameFirsts (s.insertMany xs).elements (s.elements ++ xs) := by
  rw [elements_insertMany]
  exact sameFirsts_eraseDups _

theorem sameFirsts_elements_ofList (xs : List α) : SameFirsts (ofList xs).elements xs := by
  rw [elements_ofList]
  exact sameFirsts_eraseDups _

end OrderedSet
end Lineage
