import Lineage.Document
import Lineage.Proofs.Assembly.Checks

/-!
# The frame of a class

The record of a class and its base classes are its *frame*. Assembly checks nothing else, and a
document names base classes by nothing else. So two results that differ in the methods of their
classes only pass the same checks (`Assembly.checkClosed_of_sameFrame`,
`Assembly.checkNames_of_sameFrame`) and give the ids the same names
(`Document.mangledName?_of_sameFrame`).

Two kinds of results are related in this way. An image that is loaded higher has the same classes
with methods at higher addresses, and a run that uses public symbols has the same classes with more
methods placed. Both need the checks to come out the same, and both get that from here.

The results are lists, and the relation is one of lists, class by class in order. The first part of
the module has what is needed of related lists in general: what a search, a look-up, a count or a
map makes of them when it cannot tell related elements apart.
-/

namespace Lineage

/-! ## Related lists -/

section Related

variable {α β : Type} {R : α → β → Prop} {xs : List α} {ys : List β}

/-- Of two related values there are both or none. -/
theorem none_or_some_of_rel {x : Option α} {y : Option β} (h : Option.Rel R x y) :
    (x = none ∧ y = none) ∨ ∃ a b, x = some a ∧ y = some b ∧ R a b := by
  cases h with
  | none => exact .inl ⟨rfl, rfl⟩
  | some hab => exact .inr ⟨_, _, rfl, rfl, hab⟩

/-- Related values are mapped to related ones. -/
theorem rel_map {γ δ : Type} {S : γ → δ → Prop} {f : α → γ} {g : β → δ} {x : Option α}
    {y : Option β} (h : Option.Rel R x y) (hfg : ∀ a b, R a b → S (f a) (g b)) :
    Option.Rel S (x.map f) (y.map g) := by
  cases h with
  | none => exact .none
  | some hab => exact .some (hfg _ _ hab)

/-- A search over related lists finds related elements, or nothing in both, if its test cannot tell
related elements apart. -/
theorem rel_find? {p : α → Bool} {q : β → Bool} (h : List.Forall₂ R xs ys)
    (hpq : ∀ x y, R x y → q y = p x) : Option.Rel R (xs.find? p) (ys.find? q) := by
  induction h with
  | nil => exact .none
  | cons hxy _ ih =>
    rw [List.find?_cons, List.find?_cons, hpq _ _ hxy]
    split
    next => exact .some hxy
    next => exact ih

/-- Related lists have related elements at a position. -/
theorem rel_getElem? (h : List.Forall₂ R xs ys) (i : Nat) : Option.Rel R xs[i]? ys[i]? := by
  induction h generalizing i with
  | nil => exact .none
  | cons hxy _ ih =>
    cases i with
    | zero => exact .some hxy
    | succ i => exact ih i

/-- What related elements have in common is listed alike. -/
theorem map_eq_of_forall₂ {γ : Type} {f : α → γ} {g : β → γ} (h : List.Forall₂ R xs ys)
    (hfg : ∀ x y, R x y → g y = f x) : ys.map g = xs.map f := by
  induction h with
  | nil => rfl
  | cons hxy _ ih => rw [List.map_cons, List.map_cons, hfg _ _ hxy, ih]

/-- As many elements pass a test that cannot tell related ones apart. -/
theorem countP_eq_of_forall₂ {p : α → Bool} {q : β → Bool} (h : List.Forall₂ R xs ys)
    (hpq : ∀ x y, R x y → q y = p x) : ys.countP q = xs.countP p := by
  induction h with
  | nil => rfl
  | cons hxy _ ih => rw [List.countP_cons, List.countP_cons, hpq _ _ hxy, ih]

end Related

/-! ## Checks and names -/

/-- Two classes with the same record and the same base classes. -/
structure AssembledClass.SameFrame (c e : AssembledClass) : Prop where
  record : e.record = c.record
  bases : e.bases = c.bases

variable {classes classes' : List AssembledClass}

namespace Assembly

/-- The check that no base class is missing asks for ids and base classes. -/
theorem checkClosed_of_sameFrame (h : List.Forall₂ AssembledClass.SameFrame classes classes') :
    checkClosed classes' = checkClosed classes := by
  have ids : (classes'.map fun c => c.record.id) = classes.map fun c => c.record.id :=
    map_eq_of_forall₂ h fun c e hce => by rw [hce.record]
  have first : ∀ known : List TypeId, Option.Rel
      (fun x y : AssembledClass × TypeId => y.1.record = x.1.record ∧ y.2 = x.2)
      (classes.findSome? fun c => (danglingBase? known c).map fun base => (c, base))
      (classes'.findSome? fun c => (danglingBase? known c).map fun base => (c, base)) := by
    intro known
    clear ids
    induction h with
    | nil => exact .none
    | cons hce _ ih =>
      rw [List.findSome?_cons, List.findSome?_cons, danglingBase?, danglingBase?, hce.bases]
      cases List.find? (fun base => decide (base ∉ known)) _ with
      | none => exact ih
      | some base => exact .some ⟨hce.record, rfl⟩
  unfold checkClosed
  dsimp only
  rw [ids]
  rcases none_or_some_of_rel (first (classes.map fun c => c.record.id)) with
    ⟨hx, hy⟩ | ⟨x, y, hx, hy, hrecord, hbase⟩
  · rw [hx, hy]
  · rw [hx, hy]
    dsimp only
    rw [hrecord, hbase]

/-- The check that names are unique asks for records. -/
theorem checkNamesAfter_of_sameFrame (h : List.Forall₂ AssembledClass.SameFrame classes classes')
    (earlier : List ClassRecord) :
    checkNamesAfter earlier classes' = checkNamesAfter earlier classes := by
  induction h generalizing earlier with
  | nil => rfl
  | cons hce _ ih => rw [checkNamesAfter, checkNamesAfter, hce.record, ih]

theorem checkNames_of_sameFrame (h : List.Forall₂ AssembledClass.SameFrame classes classes') :
    checkNames classes' = checkNames classes :=
  checkNamesAfter_of_sameFrame h []

end Assembly

/-- A base class is named by the records. -/
theorem Document.mangledName?_of_sameFrame
    (h : List.Forall₂ AssembledClass.SameFrame classes classes') (id : TypeId) :
    mangledName? classes' id = mangledName? classes id := by
  have found := rel_find? h (p := fun c => c.record.id = id) (q := fun c => c.record.id = id)
    fun c e hce => by rw [hce.record]
  rw [mangledName?, mangledName?]
  rcases none_or_some_of_rel found with ⟨hx, hy⟩ | ⟨c, e, hx, hy, hce⟩
  · rw [hx, hy]
  · rw [hx, hy, Option.map_some, Option.map_some, hce.record]

end Lineage
