import Lineage.Proofs.QualifiedName.Balanced

/-!
# Names without their template arguments

The scan that takes template arguments out of a name counts open brackets and drops what it meets
while one is open. Names of operators hold brackets that never close and brackets that were never
opened, so nothing can be asked of the name. Whatever it is, what is left stands in the order of the
name and has no opening bracket in it, and a second scan finds nothing to take out.

`Alternation` is a name in which texts without brackets and template argument lists take turns. Of
such a name the scan leaves the texts and nothing else. These are all the names in which brackets
pair up.

The second part rests on one lemma for a whole list with its brackets, at any depth, which is the
induction over balanced text. That a second scan changes nothing needs no induction of its own: what
is left has no opening bracket, and such a text is left as it is.

Main result: `strips_exactly_lists`.
-/

namespace Lineage.QualifiedName

/-! ## Any name -/

/-- What is left is part of the name, from any number of open brackets. -/
theorem stripFrom_sublist (depth : Nat) (s : Text) : (stripFrom depth s).Sublist s := by
  fun_induction stripFrom depth s with
  | case1 => exact List.Sublist.slnil
  | case2 depth s ih => exact ih.cons '<'
  | case3 depth s ih => exact ih.cons '>'
  | case4 c s _ ih => exact ih.cons_cons c
  | case5 depth c s _ _ ih => exact ih.cons c

theorem stripTemplateArgs_stripTemplateArgs (name : Text) :
    stripTemplateArgs (stripTemplateArgs name) = stripTemplateArgs name :=
  stripTemplateArgs_eq_self (not_mem_stripFrom 0 name)

/-! ## Names in which brackets pair up -/

/-- Texts without brackets and, between them, template argument lists. The texts may be empty. -/
inductive Alternation where
  | text (s : Text) (hopen : '<' ∉ s) (hclose : '>' ∉ s)
  | list (s : Text) (hopen : '<' ∉ s) (hclose : '>' ∉ s) (arguments : Text)
    (hbalanced : Balanced arguments) (rest : Alternation)

namespace Alternation

/-- The name as it is written. -/
def name : Alternation → Text
  | text s _ _ => s
  | list s _ _ arguments _ rest => s ++ '<' :: (arguments ++ '>' :: rest.name)

/-- The texts outside of the lists, in order. -/
def texts : Alternation → List Text
  | text s _ _ => [s]
  | list s _ _ _ _ rest => s :: rest.texts

/-- The scan leaves the texts outside of the lists. -/
theorem stripTemplateArgs_name (a : Alternation) :
    stripTemplateArgs a.name = a.texts.flatten := by
  rw [stripTemplateArgs]
  induction a with
  | text s hopen hclose =>
    have kept := stripTemplateArgs_eq_self hopen
    rw [name, texts, List.flatten_singleton]
    exact kept
  | list s hopen hclose arguments hbalanced rest ih =>
    rw [name, texts, List.flatten_cons, stripFrom_zero_append hopen, stripFrom_list hbalanced, ih]

theorem balanced_name (a : Alternation) : Balanced a.name := by
  induction a with
  | text s hopen hclose => exact balanced_of_not_mem hopen hclose
  | list s hopen hclose arguments hbalanced rest ih =>
    exact (balanced_of_not_mem hopen hclose).append (.list hbalanced ih)

/-- A character in front belongs to the first text. -/
theorem exists_name_eq_cons {c : Char} (hopen : c ≠ '<') (hclose : c ≠ '>') (a : Alternation) :
    ∃ b : Alternation, b.name = c :: a.name := by
  have front {x : Char} {s : Text} (hx : c ≠ x) (hs : x ∉ s) : x ∉ c :: s := by
    rw [List.mem_cons, not_or]
    exact ⟨Ne.symm hx, hs⟩
  cases a with
  | text s hs hs' => exact ⟨.text (c :: s) (front hopen hs) (front hclose hs'), rfl⟩
  | list s hs hs' arguments hbalanced rest =>
    exact ⟨.list (c :: s) (front hopen hs) (front hclose hs') arguments hbalanced rest, rfl⟩

end Alternation

theorem balanced_iff_exists_name {name : Text} :
    Balanced name ↔ ∃ a : Alternation, a.name = name := by
  constructor
  · intro h
    induction h with
    | nil => exact ⟨.text [] List.not_mem_nil List.not_mem_nil, rfl⟩
    | char hopen hclose _ ih =>
      obtain ⟨a, rfl⟩ := ih
      exact a.exists_name_eq_cons hopen hclose
    | list hs _ _ ih =>
      obtain ⟨a, rfl⟩ := ih
      exact ⟨.list [] List.not_mem_nil List.not_mem_nil _ hs a, rfl⟩
  · rintro ⟨a, rfl⟩
    exact a.balanced_name

/-- Template argument lists are taken out of a name, and nothing else where brackets pair up.

* Of any name, what is left is part of it in order, has no opening bracket, and is left as it is
  when it is stripped again.
* Of a name in which texts without brackets and template argument lists take turns, the texts are
  left, in order.
* The names of this form are all those in which brackets pair up. -/
theorem strips_exactly_lists :
    (∀ name : Text, '<' ∉ stripTemplateArgs name ∧ (stripTemplateArgs name).Sublist name ∧
      stripTemplateArgs (stripTemplateArgs name) = stripTemplateArgs name) ∧
    (∀ a : Alternation, stripTemplateArgs a.name = a.texts.flatten) ∧
    ∀ name : Text, Balanced name ↔ ∃ a : Alternation, a.name = name :=
  ⟨fun name => ⟨not_mem_stripFrom 0 name, stripFrom_sublist 0 name,
    stripTemplateArgs_stripTemplateArgs name⟩, Alternation.stripTemplateArgs_name,
    fun _ => balanced_iff_exists_name⟩

/-- A list in a list, and brackets that do not pair up. -/
example : stripTemplateArgs "Map<int,Vec<char>>::operator->".toList = "Map::operator->".toList := by
  decide

end Lineage.QualifiedName
