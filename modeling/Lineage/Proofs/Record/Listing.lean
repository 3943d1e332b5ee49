import Lineage.Proofs.Dump.Values
import Lineage.Proofs.TypeTable.Runs

/-!
# Type records as a listing

The listing of a type record is a run of lines: a header with its id and kind, and then what the
kind calls for. This module writes it (`Style.run`), and shows that its header tells the kind
(`Style.ofLine_header`) and that all other lines are indented (`Style.indented_of_mem_block`).

A listing says more than its record does: lengths, sizes, access, flags. A `Style` holds all of
that, and none of it makes a difference. It does not say enough for every record, though. A name
with a line feed in it, or a display name that has `unique name = ` in it, would be read as
something else. `TypeRecord.Listable` says of a record that it can be listed.

These conditions are on names and on what a record of a kind has to have, and each of them is there
because a reader needs it. A forward reference lists no field list, and so it may name none. A field
list without members would be left out by the reader. The null id stands for no object.

The module stops short of reading. What the lines are is said here, and what they are taken for as a
whole: which of them are headers, and that none of them is blank or a banner.
-/

namespace Lineage

open Text (Clear clear_append clear_of_clears clear_of_not_mem clear_of_break)

/-! ## Records that can be listed -/

/-- A name that stands on a line as it is: it is not empty, has no line feed and no white space at
either end. -/
def IsName (name : Text) : Prop := name ≠ [] ∧ '\n' ∉ name ∧ name.trim = name

/-- The names of a class tell where they end. What names no field list is not listed as the field
list with the number zero, and a forward reference has none. -/
def ClassRecord.Listable (c : ClassRecord) : Prop :=
  IsName c.display ∧ c.display.mentions Record.uniqueNameIntro = false ∧
    IsName c.mangled ∧ ',' ∉ c.mangled ∧
    (∀ id ∈ c.fieldList, id.isNull = false) ∧ (c.isForward = true → c.fieldList = none)

/-- The name of a method tells where it ends, and cannot be taken for a flag. -/
def Member.Listable : Member → Prop
  | base _ => True
  | method name _ _ => IsName name ∧ '\'' ∉ name ∧ name.mentions Record.staticFlag = false

/-- A record that can be listed. -/
def TypeRecord.Listable : TypeRecord → Prop
  | classType c => c.Listable
  | fieldList l => l.members ≠ [] ∧ ∀ m ∈ l.members, m.Listable
  | memberFunction f => ∀ id ∈ f.this, id.isNull = false

instance (name : Text) : Decidable (IsName name) :=
  inferInstanceAs (Decidable (_ ∧ _))

instance (c : ClassRecord) : Decidable c.Listable :=
  inferInstanceAs (Decidable (_ ∧ _))

instance : DecidablePred Member.Listable
  | .base _ => inferInstanceAs (Decidable True)
  | .method .. => inferInstanceAs (Decidable (_ ∧ _))

instance : DecidablePred TypeRecord.Listable
  | .classType c => inferInstanceAs (Decidable c.Listable)
  | .fieldList _ => inferInstanceAs (Decidable (_ ∧ _))
  | .memberFunction f => inferInstanceAs (Decidable (∀ id ∈ f.this, id.isNull = false))

/-! ## The parts of a listing -/

/-- Who may use a member. -/
inductive Access where
  | everyone
  | derived
  | itself

/-- How the access is written. -/
def Access.text : Access → Text
  | everyone => ", public".toList
  | derived => ", protected".toList
  | itself => ", private".toList

instance (p : Access → Prop) [DecidablePred p] : Decidable (∀ access, p access) :=
  decidable_of_iff (p .everyone ∧ p .derived ∧ p .itself)
    ⟨fun ⟨he, hd, hi⟩ access => match access with
      | .everyone => he
      | .derived => hd
      | .itself => hi,
    fun h => ⟨h _, h _, h _⟩⟩

/-- What a listing says beyond its records, and how it spells their ids. -/
structure Style where
  spell : TypeId → Text
  spells : ∀ id, Spells (spell id) id
  length : TypeRecord → Nat
  isStructure : ClassRecord → Bool
  memberCount : ClassRecord → Nat
  hasConstructor : ClassRecord → Bool
  hasDerivation : ClassRecord → Bool
  size : ClassRecord → Nat
  access : FieldList → Nat → Access
  /-- Whether the base class or the method at a position of a list is a virtual one. -/
  isVirtual : FieldList → Nat → Bool
  /-- How many blank lines stand before a record, besides the one that has to. -/
  gap : TypeRecord → Nat
  /-- How many blank lines stand at the end. -/
  trailing : Nat

namespace Listing

/-- The leaf of a class. -/
def classLeaf : Text := "0x1504 LF_CLASS".toList

/-- The leaf of a structure, which is a class with another default. -/
def structureLeaf : Text := "0x1505 LF_STRUCTURE".toList

/-- The leaf of a field list. -/
def fieldListLeaf : Text := "0x1203 LF_FIELDLIST".toList

/-- The leaf of a member function. -/
def memberFunctionLeaf : Text := "0x1009 LF_MFUNCTION".toList

/-- The leaf of a base class, as it stands behind the position of the member. -/
def baseLeaf : Text := "] = LF_BCLASS".toList

/-- The leaf of a virtual base class. -/
def virtualBaseLeaf : Text := "] = LF_VBCLASS".toList

/-- The leaf of a method. -/
def methodLeaf : Text := "] = LF_ONEMETHOD".toList

/-- The flag of a class with a constructor. -/
def constructorText : Text := ", CONSTRUCTOR".toList

/-- The flag of a forward reference. -/
def forwardText : Text := ", FORWARD REF".toList

/-- What a method that is not virtual is. -/
def vanillaText : Text := ", VANILLA".toList

/-- What a virtual method is. -/
def virtualText : Text := ", VIRTUAL".toList

/-- What a static method is. -/
def staticText : Text := ", STATIC".toList

/-- The type of the object of a member function that has none. -/
def noType : Text := "T_NOTYPE(0000)".toList

/-- The first line of a record. -/
def headerLine (token leaf : Text) (length : Nat) : Text :=
  token ++ " : Length = ".toList ++ Text.decimal length ++ ", Leaf = ".toList ++ leaf

/-- The second line of a class. -/
def fieldListLine (count : Nat) (token flags : Text) : Text :=
  "\t# members = ".toList ++ Text.decimal count ++ ",  field list type ".toList ++ token ++ flags
    ++ ", ".toList

/-- A line of a class that is of no interest. -/
def derivationLine : Text := "\tDerivation list type 0x0000, VT shape type 0x0000".toList

/-- The line with the names of a class. -/
def namesLine (size : Nat) (display mangled token : Text) : Text :=
  "\tSize = ".toList ++ Text.decimal size ++ ", class name = ".toList ++ display
    ++ ", unique name = ".toList ++ mangled ++ ", UDT(".toList ++ token ++ ")".toList

/-- What stands on the line of a member before its values. -/
def memberStart (i : Nat) (leaf : Text) (access : Access) : Text :=
  "\tlist[".toList ++ (Text.decimal i ++ (leaf ++ access.text))

/-- The line of a base class. -/
def baseLine (i : Nat) (access : Access) (token : Text) : Text :=
  memberStart i baseLeaf access ++ (", type = ".toList ++ (token ++ ", offset = 0".toList))

/-- The line of a virtual base class. -/
def virtualBaseLine (i : Nat) (access : Access) (token : Text) : Text :=
  memberStart i virtualBaseLeaf access ++ (", direct base type = ".toList
    ++ (token ++ ", virtual base ptr = 0x1008, vbpoff = 4, vbind = 1".toList))

/-- The line of a method. -/
def methodLine (i : Nat) (access : Access) (property token name : Text) : Text :=
  memberStart i methodLeaf access ++ (property ++ (", index = ".toList
    ++ (token ++ (", name = '".toList ++ (name ++ "'".toList)))))

/-- The second line of a member function. -/
def typesLine (owner this : Text) : Text :=
  "\tReturn type = T_VOID(0003), Class type = ".toList ++ owner ++ ", This type = ".toList
    ++ this ++ ", ".toList

/-- The third line of a member function, which is of no interest. -/
def callLine : Text := "\tCall type = ThisCall, Func attr = none".toList

end Listing

/-! ## Writing a record -/

namespace Style

open Listing

variable (style : Style)

/-- The leaf of a record, by which its kind is told. -/
def leaf : TypeRecord → Text
  | .classType c => if style.isStructure c then structureLeaf else classLeaf
  | .fieldList _ => fieldListLeaf
  | .memberFunction _ => memberFunctionLeaf

/-- The first line of a record. -/
def header (r : TypeRecord) : Text :=
  headerLine (style.spell r.id) (style.leaf r) (style.length r)

/-- The flags of a class. -/
def flags (c : ClassRecord) : Text :=
  (if style.hasConstructor c then constructorText else [])
    ++ if c.isForward then forwardText else []

/-- The second line of a class. A class without a field list names the one with the number zero. -/
def secondLine (c : ClassRecord) : Text :=
  fieldListLine (style.memberCount c) (style.spell (c.fieldList.getD ⟨0⟩)) (style.flags c)

/-- The lines of a class between the second one and the names. -/
def derivation (c : ClassRecord) : List Text :=
  if style.hasDerivation c then [derivationLine] else []

/-- The line with the names of a class. -/
def nameLine (c : ClassRecord) : Text :=
  namesLine (style.size c) c.display c.mangled (style.spell c.id)

/-- The lines of a class after its header. -/
def classBlock (c : ClassRecord) : List Text :=
  style.secondLine c :: (style.derivation c ++ [style.nameLine c])

/-- What kind of method a method is. -/
def property (isStatic isVirtual : Bool) : Text :=
  if isStatic then staticText else if isVirtual then virtualText else vanillaText

/-- The line of a member at a position of its list. -/
def memberLine (l : FieldList) (i : Nat) : Member → Text
  | .base id =>
    if style.isVirtual l i then virtualBaseLine i (style.access l i) (style.spell id)
    else baseLine i (style.access l i) (style.spell id)
  | .method name id isStatic =>
    methodLine i (style.access l i) (property isStatic (style.isVirtual l i))
      (style.spell id) name

/-- The type of the object that a member function is called on. -/
def thisText : Option TypeId → Text
  | some id => style.spell id
  | none => noType

/-- The lines of a record after its header. -/
def block : TypeRecord → List Text
  | .classType c => style.classBlock c
  | .fieldList l => l.members.zipIdx.map fun m => style.memberLine l m.2 m.1
  | .memberFunction f => [typesLine (style.spell f.owner) (style.thisText f.this), callLine]

/-- The lines of a record. -/
def run (r : TypeRecord) : List Text := style.header r :: style.block r

/-- A style that spells ids as the program does and says the same of all records. Every other member
of a list is a virtual one. -/
def plain : Style where
  spell := TypeId.text
  spells := spells_text
  length _ := 38
  isStructure _ := false
  memberCount _ := 1
  hasConstructor _ := true
  hasDerivation _ := true
  size _ := 4
  access _ _ := .everyone
  isVirtual _ i := i % 2 == 1
  gap _ := 0
  trailing := 0

/-- The listing of a class. -/
example : plain.run (.classType
      ⟨⟨0x1003⟩, "Base".toList, ".?AVBase@@".toList, some ⟨0x1002⟩, false⟩) =
    ["0x1003 : Length = 38, Leaf = 0x1504 LF_CLASS",
      "\t# members = 1,  field list type 0x1002, CONSTRUCTOR, ",
      "\tDerivation list type 0x0000, VT shape type 0x0000",
      "\tSize = 4, class name = Base, unique name = .?AVBase@@, UDT(0x1003)"].map
        String.toList := by
  decide

end Style

/-! ## Visible lines -/

/-- A line that starts with a tab and then goes on in a character to be seen. -/
def Indented (line : Text) : Prop := ∃ c rest, line = '\t' :: c :: rest ∧ Text.isBlank c = false

/-- A line that starts with a tab and goes on is no blank line. -/
theorem Indented.allBlank {line : Text} (h : Indented line) : line.allBlank = false := by
  obtain ⟨c, rest, rfl, hc⟩ := h
  rw [Text.allBlank, List.all_cons, List.all_cons, hc, Bool.false_and, Bool.and_false]

/-- A banner is not indented. -/
theorem Indented.isBanner {line : Text} (h : Indented line) : Dump.isBanner line = false := by
  obtain ⟨c, rest, rfl, _⟩ := h
  rfl

namespace Style

variable (style : Style)

theorem indented_secondLine (c : ClassRecord) : Indented (style.secondLine c) :=
  ⟨'#', _, rfl, by decide⟩

theorem indented_nameLine (c : ClassRecord) : Indented (style.nameLine c) :=
  ⟨'S', _, rfl, by decide⟩

/-- Members of each kind start in the same way. -/
theorem indented_memberLine (l : FieldList) (i : Nat) (m : Member) :
    Indented (style.memberLine l i m) := by
  cases m with
  | base id =>
    show Indented (if _ then _ else _)
    split
    next => exact ⟨'l', _, rfl, by decide⟩
    next => exact ⟨'l', _, rfl, by decide⟩
  | method => exact ⟨'l', _, rfl, by decide⟩

/-- All lines of a record after the header are indented. -/
theorem indented_of_mem_block {r : TypeRecord} {line : Text} (h : line ∈ style.block r) :
    Indented line := by
  cases r with
  | classType c =>
    rcases List.mem_cons.1 h with rfl | h
    · exact style.indented_secondLine c
    rcases List.mem_append.1 h with h | h
    · unfold derivation at h
      split at h
      next => exact List.mem_singleton.1 h ▸ ⟨'D', _, rfl, by decide⟩
      next => cases h
    · exact List.mem_singleton.1 h ▸ style.indented_nameLine c
  | fieldList l =>
    obtain ⟨m, _, rfl⟩ := List.mem_map.1 h
    exact style.indented_memberLine l m.2 m.1
  | memberFunction f =>
    rcases List.mem_cons.1 h with rfl | h
    · exact ⟨'R', _, rfl, by decide⟩
    · exact List.mem_singleton.1 h ▸ ⟨'C', _, rfl, by decide⟩

end Style

/-! ## Flags -/

namespace Record

/-- A flag that stands on a line is seen. -/
theorem hasFlag_append (before flag rest : Text) :
    hasFlag (before ++ (flag ++ rest)) flag = true := by
  rw [hasFlag, Text.mentions_append_right, Bool.true_or]

/-- A line without a certain character of the flag does not carry it. -/
theorem hasFlag_eq_false_of_not_mem {line flag : Text} {c : Char} (hflag : c ∈ flag.trimEnd)
    (h : c ∉ line) : hasFlag line flag = false := by
  have ending : flag.trimEnd.isSuffixOf line.trimEnd = false := by
    rw [← Bool.not_eq_true, List.isSuffixOf_iff_suffix]
    exact fun hs => h ((Text.trimEnd_isPrefix line).subset (hs.subset hflag))
  rw [hasFlag, ending,
    Text.mentions_eq_false_of_not_mem ((Text.trimEnd_isPrefix flag).subset hflag) h,
    Bool.or_self]

/-- A line that ends in another character than the flag carries it only in its middle. -/
theorem hasFlag_concat {line flag : Text} {c d : Char} (hflag : flag.trimEnd.getLast? = some d)
    (hd : d ≠ c) (hc : Text.isBlank c = false) :
    hasFlag (line ++ [c]) flag = (line ++ [c]).mentions flag := by
  have ending : flag.trimEnd.isSuffixOf (line ++ [c]) = false := by
    rw [← Bool.not_eq_true, List.isSuffixOf_iff_suffix]
    rintro ⟨before, hs⟩
    obtain ⟨s, hflag⟩ := List.getLast?_eq_some_iff.1 hflag
    rw [hflag, ← List.append_assoc] at hs
    exact hd (List.singleton_inj.1 (List.append_inj_right' hs rfl))
  rw [hasFlag, Text.trimEnd_concat_of_not_blank hc, ending, Bool.or_false]

end Record

/-! ## Headers -/

namespace Listing

variable {token leaf : Text} {id : TypeId} {length : Nat}

/-- A character that is in none of the parts of a header is not in the header. -/
theorem not_mem_headerLine (ht : Spells token id) {c : Char}
    (hc : isIdChar c = false ∧ c.isDigit = false)
    (hparts : c ∉ " : Length = ".toList ∧ c ∉ ", Leaf = ".toList ∧ c ∉ leaf) :
    c ∉ headerLine token leaf length := by
  simp only [headerLine, List.mem_append, not_or]
  exact ⟨⟨⟨⟨ht.not_mem hc.1, hparts.1⟩, Text.not_mem_decimal _ hc.2⟩, hparts.2.1⟩, hparts.2.2⟩

/-- What the leaf mentions, the line does. -/
theorem mentions_headerLine {tag : Text} (hleaf : leaf.mentions tag = true) (token : Text)
    (length : Nat) : (headerLine token leaf length).mentions tag = true :=
  Text.mentions_mono (List.suffix_append _ leaf).isInfix hleaf

/-- Neither the id nor the length of a class record is taken for another kind. -/
theorem ofLine_class (token : Text) (length : Nat) :
    RecordKind.ofLine (headerLine token classLeaf length) = .classType := by
  have tag : (headerLine token classLeaf length).mentions "LF_CLASS".toList = true :=
    mentions_headerLine (by decide) token length
  rw [RecordKind.ofLine, tag, Bool.true_or, if_pos rfl]

/-- A structure is read as a class. -/
theorem ofLine_structure (token : Text) (length : Nat) :
    RecordKind.ofLine (headerLine token structureLeaf length) = .classType := by
  have tag : (headerLine token structureLeaf length).mentions "LF_STRUCTURE".toList = true :=
    mentions_headerLine (by decide) token length
  rw [RecordKind.ofLine, tag, Bool.or_true, if_pos rfl]

theorem ofLine_fieldList (ht : Spells token id) (length : Nat) :
    RecordKind.ofLine (headerLine token fieldListLeaf length) = .fieldList := by
  have no_class : (headerLine token fieldListLeaf length).mentions "LF_CLASS".toList = false := by
    simp only [headerLine, List.append_assoc]
    rw [Text.mentions_append_of_clear (clear_of_not_mem (c := 'L') (by decide)
        (ht.not_mem (by decide))),
      Text.mentions_append_of_clear (clear_of_clears (by decide)),
      Text.mentions_append_of_clear (clear_of_not_mem (c := 'L') (by decide)
        (Text.not_mem_decimal _ (by decide)))]
    decide
  have no_structure :
      (headerLine token fieldListLeaf length).mentions "LF_STRUCTURE".toList = false :=
    Text.mentions_eq_false_of_not_mem (c := 'R') (by decide)
      (not_mem_headerLine ht (by decide) (by decide))
  have tag : (headerLine token fieldListLeaf length).mentions "LF_FIELDLIST".toList = true :=
    mentions_headerLine (by decide) token length
  rw [RecordKind.ofLine, no_class, no_structure, tag, Bool.or_self, if_neg Bool.false_ne_true,
    if_pos rfl]

theorem ofLine_memberFunction (ht : Spells token id) (length : Nat) :
    RecordKind.ofLine (headerLine token memberFunctionLeaf length) = .memberFunction := by
  -- The tags of all other kinds have an `S` in them.
  have no_s : 'S' ∉ headerLine token memberFunctionLeaf length :=
    not_mem_headerLine ht (by decide) (by decide)
  have absent (tag : Text) (htag : 'S' ∈ tag) :
      (headerLine token memberFunctionLeaf length).mentions tag = false :=
    Text.mentions_eq_false_of_not_mem htag no_s
  have tag : (headerLine token memberFunctionLeaf length).mentions "LF_MFUNCTION".toList = true :=
    mentions_headerLine (by decide) token length
  rw [RecordKind.ofLine, absent "LF_CLASS".toList (by decide),
    absent "LF_STRUCTURE".toList (by decide), absent "LF_FIELDLIST".toList (by decide),
    absent RecordKind.baseTag (by decide), absent RecordKind.procedureTag (by decide), tag]
  rfl

/-- The id of a record is the first token of its header. -/
theorem leadingTypeId_headerLine (ht : Spells token id) (n : Nat) :
    Field.leadingTypeId (headerLine token leaf length) n = .ok id := by
  simp only [headerLine, List.append_assoc]
  exact Field.leadingTypeId_of_spells ht _ n

end Listing

/-- The header of a record shows its kind. -/
theorem Style.ofLine_header (style : Style) (r : TypeRecord) :
    RecordKind.ofLine (style.header r) = r.kind := by
  cases r with
  | classType c =>
    show RecordKind.ofLine (Listing.headerLine _ (if _ then _ else _) _) = _
    split
    next => exact Listing.ofLine_structure _ _
    next => exact Listing.ofLine_class _ _
  | fieldList l => exact Listing.ofLine_fieldList (style.spells l.id) _
  | memberFunction f => exact Listing.ofLine_memberFunction (style.spells f.id) _

end Lineage
