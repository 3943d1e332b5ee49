import Lineage.Text.Search

/-!
# Qualified names

Classes and procedures go by qualified names such as `ns::Vec<ns::Pair<int>>::push`.
A template argument list is a bracketed part, nested to any depth, and a separator inside
one separates nothing. Names of operators are the exception to all of it:
`operator<` holds a bracket and `operator std::string` a separator, so the name of an
operator is taken whole.

Names may be unbalanced. A closing bracket with none open is an ordinary character,
and an open one hides everything after it.
-/

namespace Lineage

/-- What a method is to its class. -/
inductive MethodKind where
  | constructor
  | destructor
  | method
deriving DecidableEq

/-- The kind in one word. -/
def MethodKind.name : MethodKind → Text
  | constructor => "constructor".toList
  | destructor => "destructor".toList
  | method => "method".toList

namespace QualifiedName

/-- A name without its template arguments, read on inside `depth` open brackets. -/
def stripFrom : Nat → Text → Text
  | _, [] => []
  | depth, '<' :: s => stripFrom (depth + 1) s
  | depth + 1, '>' :: s => stripFrom depth s
  | 0, c :: s => c :: stripFrom 0 s
  | depth + 1, _ :: s => stripFrom (depth + 1) s

/-- A name without its template arguments. -/
def stripTemplateArgs (name : Text) : Text := stripFrom 0 name

/-- What follows the last separator outside of template arguments; `current` is
what follows the last one so far. -/
def componentFrom : Nat → Text → Text → Text
  | _, current, [] => current
  | depth, current, '<' :: s => componentFrom (depth + 1) current s
  | depth, current, '>' :: s => componentFrom (depth - 1) current s
  -- Only a separator that stands in no argument list starts a new component.
  | 0, _, ':' :: ':' :: s => componentFrom 0 s s
  | depth, current, _ :: s => componentFrom depth current s

/-- How the name of an operator starts. -/
def operatorWord : Text := "operator".toList

/-- The last component of a qualified name. -/
def lastComponent (name : Text) : Text :=
  match Text.afterLast? ("::".toList ++ operatorWord) name with
  | some rest => operatorWord ++ rest
  | none => componentFrom 0 name name

/-- The last component of a qualified name without its template arguments. -/
def unqualified (name : Text) : Text :=
  let last := lastComponent name
  if operatorWord.isPrefixOf last then last else stripTemplateArgs last

/-- A method named like its class is a constructor; with a tilde before that name it
is a destructor. -/
def methodKind (className methodName : Text) : MethodKind :=
  let owner := unqualified className
  let method := unqualified methodName
  if method = owner then .constructor
  else if method = '~' :: owner then .destructor
  else .method

/-! ## Names without template arguments -/

/-- Text without brackets outside of any list is kept as it is. -/
theorem stripFrom_zero_append {s : Text} (h : '<' ∉ s) (t : Text) :
    stripFrom 0 (s ++ t) = s ++ stripFrom 0 t := by
  induction s with
  | nil => rfl
  | cons c s ih =>
    have hc : c ≠ '<' := fun e => h (e ▸ List.mem_cons_self)
    have ih := ih fun e => h (List.mem_cons_of_mem _ e)
    simp only [List.cons_append]
    rw [stripFrom.eq_4 _ _ hc, ih]

/-- Nothing that is left starts a template argument list. -/
theorem not_mem_stripFrom (depth : Nat) (s : Text) : '<' ∉ stripFrom depth s := by
  fun_induction stripFrom depth s <;> simp_all [eq_comm]

theorem stripTemplateArgs_eq_self {s : Text} (h : '<' ∉ s) : stripTemplateArgs s = s := by
  simpa [stripTemplateArgs, stripFrom] using stripFrom_zero_append h []

end QualifiedName
end Lineage
