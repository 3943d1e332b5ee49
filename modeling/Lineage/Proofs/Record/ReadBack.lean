import Lineage.Proofs.Record.Listing

/-!
# Records that are read back from their listing

Each reader of records finds its values behind the first place where their introducer stands. In a
listing that place is the one where the introducer was written. What comes before it on the line
is fixed text, a number, an id or a name; none of them is taken for the introducer, a name because
the record can be listed.

The module goes from lines to records. For each line of a listing there is a lemma for every value
that is read off it, and one for every tag that it must not be taken for. Most of these come down to
asking whether a character of the introducer stands in a fixed text, which is a computation, or in a
number or id, which has none but digits and letters.

Then the readers are followed through the lines they get. They are do-blocks, so a reader that
succeeds is followed by the next one where it stopped (`run_bind_ok`). Only the members of a field
list are read by a loop, and there the induction is on the members that are left, with those that
have been read in front of the answer.

Main result: `Record.run_read_of_listable`.
-/

namespace Lineage

open Text (Clear clear_append clear_of_clears clear_of_not_mem clear_of_break)

/-! ## Readers that succeed -/

namespace Reading

variable {α β : Type} {x : Reading Cursor α} {f : α → Reading Cursor β} {c d : Cursor} {a : α}

/-- A reader that succeeds is followed by the next one, at the place where it stopped. -/
theorem run_bind_ok (h : x.run c = (.ok a, d)) : (x >>= f).run c = (f a).run d := by
  rw [run_bind, h]

theorem run_ofExcept_bind {outcome : Nat → Except Fault α} (h : outcome c.line = .ok a) :
    (ofExcept outcome >>= f).run c = (f a).run c :=
  run_bind_ok (Prod.ext h rfl)

/-- What a reader makes of the answer of another. -/
theorem fst_run_map {f : α → β} (h : (x.run c).1 = .ok a) :
    ((x >>= fun a => pure (f a)).run c).1 = .ok (f a) := by
  rw [run_bind_ok (Prod.ext h rfl)]
  rfl

theorem run_expect_bind (a : α) (marker line : Text) (f : α → Reading Cursor β) (c : Cursor) :
    (expect (some a) marker line >>= f).run c = (f a).run c := rfl

end Reading

namespace Listing

open Record

variable {token : Text} {id : TypeId} {flags : Text}

/-! ## The lines of a class -/

/-- The flag of a forward reference is the last thing on its line. -/
theorem hasFlag_fieldListLine_forward (count : Nat) (token before : Text) :
    hasFlag (fieldListLine count token (before ++ forwardText)) forwardFlag = true := by
  have flag : forwardText ++ ", ".toList = forwardFlag ++ [] := by decide
  unfold fieldListLine
  simp only [List.append_assoc, flag]
  simp only [← List.append_assoc _ _ (forwardFlag ++ [])]
  exact hasFlag_append _ forwardFlag []

/-- A definition has no such flag. No other part of the line has the `W` that is in it. -/
theorem hasFlag_fieldListLine (ht : Spells token id) (hflags : 'W' ∉ flags) (count : Nat) :
    hasFlag (fieldListLine count token flags) forwardFlag = false := by
  -- Only the flag could bring its `W` onto the line.
  refine hasFlag_eq_false_of_not_mem (c := 'W') (by decide) ?_
  unfold fieldListLine
  simp only [List.mem_append, not_or]
  exact ⟨⟨⟨⟨⟨by decide, Text.not_mem_decimal _ (by decide)⟩, by decide⟩, ht.not_mem (by decide)⟩,
    hflags⟩, by decide⟩

/-- The id of the field list is found behind its introducer, and ends at the comma of the flags. -/
theorem typeIdAfter_fieldListLine (ht : Spells token id) {rest : Text}
    (hflags : flags ++ ", ".toList = ',' :: rest) (count n : Nat) :
    Field.typeIdAfter (fieldListLine count token flags) fieldListIntro n = .ok id := by
  have intro_split : ",  field list type ".toList = ",  ".toList ++ fieldListIntro := by decide
  have line : fieldListLine count token flags =
      ("\t# members = ".toList ++ (Text.decimal count ++ ",  ".toList))
        ++ (fieldListIntro ++ (token ++ ',' :: rest)) := by
    unfold fieldListLine
    simp only [intro_split, List.append_assoc, hflags]
  rw [line]
  refine Field.typeIdAfter_of_spells (by decide) ?_ ht n
  exact clear_append.2 ⟨clear_of_clears (by decide), clear_append.2
    ⟨clear_of_not_mem (c := 'f') (by decide) (Text.not_mem_decimal _ (by decide)),
      clear_of_clears (by decide)⟩⟩

/-- The names are not looked for on this line, as nothing on it is taken for their introducer. -/
theorem mentions_className_fieldListLine (ht : Spells token id) (hflags : 'n' ∉ flags)
    (count : Nat) : (fieldListLine count token flags).mentions classNameIntro = false := by
  refine Text.mentions_eq_false_of_not_mem (c := 'n') (by decide) ?_
  unfold fieldListLine
  simp only [List.mem_append, not_or]
  exact ⟨⟨⟨⟨⟨by decide, Text.not_mem_decimal _ (by decide)⟩, by decide⟩, ht.not_mem (by decide)⟩,
    hflags⟩, by decide⟩

/-- What stands on the line of the names before the display name. -/
theorem namesLine_eq (size : Nat) (display mangled token : Text) :
    namesLine size display mangled token =
      ("\tSize = ".toList ++ (Text.decimal size ++ ", ".toList))
        ++ (classNameIntro ++ (display ++ (", unique name = ".toList
          ++ (mangled ++ ',' :: (" UDT(".toList ++ (token ++ ")".toList)))))) := by
  have intro_split : ", class name = ".toList = ", ".toList ++ classNameIntro := by decide
  have udt_split : ", UDT(".toList = [','] ++ " UDT(".toList := by decide
  unfold namesLine
  simp only [intro_split, udt_split, List.append_assoc, List.singleton_append]
  rfl

/-- Nothing before the names is taken for their introducer. -/
theorem clear_className (size : Nat) (rest : Text) :
    Clear classNameIntro ("\tSize = ".toList ++ (Text.decimal size ++ ", ".toList)) rest :=
  clear_append.2 ⟨clear_of_clears (by decide), clear_append.2
    ⟨clear_of_not_mem (c := 'c') (by decide) (Text.not_mem_decimal _ (by decide)),
      clear_of_clears (by decide)⟩⟩

theorem mentions_className_namesLine (size : Nat) (display mangled token : Text) :
    (namesLine size display mangled token).mentions classNameIntro = true := by
  rw [namesLine_eq]
  exact Text.mentions_append_right _ _

variable {display mangled : Text}

/-- The display name ends where the introducer of the mangled name begins. It has no such introducer
in it, so this is the first one. -/
theorem textUntil?_namesLine (hname : IsName display)
    (hunique : display.mentions uniqueNameIntro = false) (size : Nat) (mangled token : Text) :
    Field.textUntil? (namesLine size display mangled token) classNameIntro
      ", unique name = ".toList = some display := by
  have no_terminator : display.mentions ", unique name = ".toList = false := by
    have hpart : uniqueNameIntro <:+: ", unique name = ".toList := ⟨", ".toList, [], by decide⟩
    rw [Text.mentions_eq_false_iff] at hunique ⊢
    exact fun h => hunique (hpart.trans h)
  have comma : ", unique name = ".toList = ',' :: " unique name = ".toList := by decide
  rw [namesLine_eq]
  refine Field.textUntil?_of_clear (by decide) (by decide) (clear_className size _) ?_ hname.2.2
  -- An occurrence that began in the name would run over the comma after it.
  rw [comma] at no_terminator ⊢
  exact clear_of_break no_terminator (by decide)

/-- The mangled name ends at the next comma. -/
theorem textAfter?_namesLine (hunique : display.mentions uniqueNameIntro = false)
    (hname : IsName mangled) (hcomma : ',' ∉ mangled) (size : Nat) (token : Text) :
    Field.textAfter? (namesLine size display mangled token) uniqueNameIntro = some mangled := by
  have intro_split : ", unique name = ".toList = ',' :: (" ".toList ++ uniqueNameIntro) := by decide
  have line : namesLine size display mangled token =
      ("\tSize = ".toList ++ (Text.decimal size ++ (", class name = ".toList
        ++ (display ++ ',' :: " ".toList))))
        ++ (uniqueNameIntro ++ (mangled ++ ',' :: (" UDT(".toList ++ (token ++ ")".toList)))) := by
    have udt_split : ", UDT(".toList = [','] ++ " UDT(".toList := by decide
    unfold namesLine
    simp only [intro_split, udt_split, List.append_assoc, List.cons_append,
      List.nil_append]
  rw [line]
  refine Field.textAfter?_of_clear (by decide) ?_ hcomma hname.2.2
  refine clear_append.2 ⟨clear_of_clears (by decide), clear_append.2
    ⟨clear_of_not_mem (c := 'u') (by decide) (Text.not_mem_decimal _ (by decide)),
      clear_append.2 ⟨clear_of_clears (by decide), clear_append.2
        ⟨clear_of_break hunique (by decide), clear_of_clears (by decide)⟩⟩⟩⟩

/-! ## The lines of members -/

section MemberLines

variable {phrase leaf rest name property : Text} {access : Access} {c : Char}

/-- A tag that is in the leaf and access of a member is on its line. -/
theorem mentions_memberStart (h : ∀ access : Access, (leaf ++ access.text).mentions phrase = true)
    (i : Nat) (access : Access) (rest : Text) :
    (memberStart i leaf access ++ rest).mentions phrase = true := by
  refine Text.mentions_mono ?_ (h access)
  unfold memberStart
  rw [List.append_assoc, List.append_assoc, ← List.append_assoc]
  exact List.infix_append' _ _ _

/-- The start of a member's line is clear of a phrase that agrees with none of its parts. -/
theorem clear_memberStart (hphrase : phrase.head? = some c) (hc : c.isDigit = false)
    (hparts : Text.clears phrase "\tlist[".toList = true ∧ Text.clears phrase leaf = true ∧
      ∀ access : Access, Text.clears phrase access.text = true) (i : Nat) (access : Access) :
    Clear phrase (memberStart i leaf access) rest := by
  obtain ⟨hlist, hleaf, haccess⟩ := hparts
  exact clear_append.2 ⟨clear_of_clears hlist, clear_append.2
    ⟨clear_of_not_mem hphrase (Text.not_mem_decimal i hc), clear_append.2
      ⟨clear_of_clears hleaf, clear_of_clears (haccess access)⟩⟩⟩

/-- A character that is in none of the fixed parts of a member is not in front of its values. -/
theorem not_mem_memberStart (hc : c.isDigit = false)
    (hparts : c ∉ "\tlist[".toList ∧ c ∉ leaf ∧ ∀ access : Access, c ∉ access.text) (i : Nat)
    (access : Access) : c ∉ memberStart i leaf access := by
  obtain ⟨hlist, hleaf, haccess⟩ := hparts
  unfold memberStart
  simp only [List.mem_append, not_or]
  exact ⟨hlist, Text.not_mem_decimal i hc, hleaf, haccess access⟩

/-- A base class is not taken for a method. -/
theorem mentions_methodTag_baseLine (ht : Spells token id) (i : Nat) (access : Access) :
    (baseLine i access token).mentions methodTag = false := by
  -- The leaf of a method is the only part of a member's line with an `M`, names apart.
  refine Text.mentions_eq_false_of_not_mem (c := 'M') (by decide) ?_
  unfold baseLine
  simp only [List.mem_append, not_or]
  exact ⟨not_mem_memberStart (by decide) (by decide) i access,
    by decide, ht.not_mem (by decide), by decide⟩

/-- A virtual base class is not taken for a method. -/
theorem mentions_methodTag_virtualBaseLine (ht : Spells token id) (i : Nat) (access : Access) :
    (virtualBaseLine i access token).mentions methodTag = false := by
  refine Text.mentions_eq_false_of_not_mem (c := 'M') (by decide) ?_
  unfold virtualBaseLine
  simp only [List.mem_append, not_or]
  exact ⟨not_mem_memberStart (by decide) (by decide) i access,
    by decide, ht.not_mem (by decide), by decide⟩

/-- The first id on a member's line. -/
theorem typeIdAfter_memberStart {introducer gap : Text} (hhead : introducer.head? = some c)
    (hc : c.isDigit = false)
    (hparts : Text.clears introducer "\tlist[".toList = true ∧ Text.clears introducer leaf = true ∧
      ∀ access : Access, Text.clears introducer access.text = true)
    (hgap : Text.clears introducer gap = true) (ht : Spells token id) (i : Nat) (access : Access)
    (rest : Text) (n : Nat) :
    Field.typeIdAfter (memberStart i leaf access ++ (gap ++ (introducer ++ (token ++ ',' :: rest))))
      introducer n = .ok id := by
  rw [← List.append_assoc]
  refine Field.typeIdAfter_of_spells (fun hnil => ?_) ?_ ht n
  · rw [hnil] at hhead
    cases hhead
  · exact clear_append.2 ⟨clear_memberStart hhead hc hparts i access, clear_of_clears hgap⟩

theorem typeIdAfter_baseLine (ht : Spells token id) (i : Nat) (access : Access) (n : Nat) :
    Field.typeIdAfter (baseLine i access token) typeIntro n = .ok id := by
  have type_split : ", type = ".toList = ", ".toList ++ typeIntro := by decide
  have offset_split : ", offset = 0".toList = ',' :: " offset = 0".toList := by decide
  unfold baseLine
  rw [type_split, offset_split, List.append_assoc]
  exact typeIdAfter_memberStart (c := 't') (by decide) (by decide) (by decide) (by decide) ht i
    access _ n

theorem typeIdAfter_virtualBaseLine (ht : Spells token id) (i : Nat) (access : Access) (n : Nat) :
    Field.typeIdAfter (virtualBaseLine i access token) typeIntro n = .ok id := by
  have type_split : ", direct base type = ".toList = ", direct base ".toList ++ typeIntro := by
    decide
  have pointer_split : ", virtual base ptr = 0x1008, vbpoff = 4, vbind = 1".toList =
      ',' :: " virtual base ptr = 0x1008, vbpoff = 4, vbind = 1".toList := by decide
  unfold virtualBaseLine
  rw [type_split, pointer_split, List.append_assoc]
  exact typeIdAfter_memberStart (c := 't') (by decide) (by decide) (by decide) (by decide) ht i
    access _ n

/-- The type of a method is found behind its introducer, whatever its name is, since the name comes
later. -/
theorem typeIdAfter_methodLine (ht : Spells token id) (isStatic isVirtual : Bool) (i : Nat)
    (access : Access) (name : Text) (n : Nat) :
    Field.typeIdAfter (methodLine i access (Style.property isStatic isVirtual) token name)
      indexIntro n = .ok id := by
  have index_split : ", index = ".toList = ", ".toList ++ indexIntro := by decide
  have name_split : ", name = '".toList = ',' :: " name = '".toList := by decide
  unfold methodLine
  rw [index_split, name_split, List.append_assoc, List.cons_append,
    ← List.append_assoc _ ", ".toList]
  exact typeIdAfter_memberStart (c := 'i') (by decide) (by decide) (by decide)
    (by cases isStatic <;> cases isVirtual <;> decide) ht i access _ n

/-- The name of a method ends at the quote, and there is none in the name. -/
theorem quotedAfter?_methodLine (ht : Spells token id) (hquote : '\'' ∉ name)
    (isStatic isVirtual : Bool) (i : Nat) (access : Access) :
    Field.quotedAfter? (methodLine i access (Style.property isStatic isVirtual) token name)
      nameIntro = some name := by
  have name_split : ", name = '".toList = ", ".toList ++ (nameIntro ++ ['\'']) := by decide
  have line : methodLine i access (Style.property isStatic isVirtual) token name =
      (memberStart i methodLeaf access ++ (Style.property isStatic isVirtual
        ++ (", index = ".toList ++ (token ++ ", ".toList))))
        ++ (nameIntro ++ '\'' :: (name ++ '\'' :: [])) := by
    unfold methodLine
    simp only [name_split, List.append_assoc, List.cons_append, List.nil_append]
    rfl
  rw [line]
  refine Field.quotedAfter?_of_clear (by decide) ?_ hquote
  exact clear_append.2 ⟨clear_memberStart (c := 'n') (by decide) (by decide) (by decide) i access,
    clear_append.2 ⟨clear_of_clears (by cases isStatic <;> cases isVirtual <;> decide),
      clear_append.2 ⟨clear_of_clears (by decide), clear_append.2
        ⟨clear_of_not_mem (c := 'n') (by decide) (ht.not_mem (by decide)),
          clear_of_clears (by decide)⟩⟩⟩⟩

/-- The line of a method ends in the quote behind its name. -/
theorem methodLine_eq_concat (i : Nat) (access : Access) (property token name : Text) :
    methodLine i access property token name = (memberStart i methodLeaf access ++ (property
      ++ (", index = ".toList ++ (token ++ (", name = '".toList ++ name))))) ++ ['\''] := by
  unfold methodLine
  simp only [List.append_assoc]
  rfl

/-- A listed method is complete, so no line is joined to it. -/
theorem endsInComma_methodLine (i : Nat) (access : Access) (property token name : Text) :
    Field.endsInComma (methodLine i access property token name) = false := by
  rw [methodLine_eq_concat, Field.endsInComma, Text.trimEnd_concat_of_not_blank (by decide),
    ← Bool.not_eq_true, List.isSuffixOf_iff_suffix]
  rintro ⟨before, hs⟩
  exact absurd (List.append_inj_right' hs rfl) (by decide)

/-- Whether a method is static can be seen from its flags, unless its name has the flag in it. -/
theorem hasFlag_methodLine (ht : Spells token id) (hname : name.mentions staticFlag = false)
    (isStatic isVirtual : Bool) (i : Nat) (access : Access) :
    hasFlag (methodLine i access (Style.property isStatic isVirtual) token name) staticFlag =
      isStatic := by
  cases isStatic with
  | true =>
    have flag_split : staticText ++ (", index = ".toList ++ (token ++ (", name = '".toList
        ++ (name ++ "'".toList)))) = staticFlag ++ ("index = ".toList ++ (token
          ++ (", name = '".toList ++ (name ++ "'".toList)))) := by
      rw [← List.append_assoc, ← List.append_assoc staticFlag]
      exact congrArg (· ++ _) (by decide)
    show hasFlag (memberStart i methodLeaf access ++ (staticText ++ _)) staticFlag = true
    rw [flag_split]
    exact hasFlag_append _ _ _
  | false =>
    rw [methodLine_eq_concat, hasFlag_concat (d := ',') (by decide) (by decide) (by decide),
      ← methodLine_eq_concat]
    unfold methodLine
    rw [Text.mentions_append_of_clear (clear_memberStart (c := ',') (by decide) (by decide)
        (by decide) i access),
      Text.mentions_append_of_clear (clear_of_clears (by cases isVirtual <;> decide)),
      Text.mentions_append_of_clear (clear_of_clears (by decide)),
      Text.mentions_append_of_clear (clear_of_not_mem (c := ',') (by decide)
        (ht.not_mem (by decide))),
      Text.mentions_append_of_clear (clear_of_clears (by decide)),
      show "'".toList = ['\''] from rfl,
      Text.mentions_append_of_clear (clear_of_break hname (by decide))]
    decide

end MemberLines

/-! ## The lines of member functions -/

section SignatureLines

variable {owner this : Text} {ownerId : TypeId}

theorem mentions_ownerIntro_typesLine (owner this : Text) :
    (typesLine owner this).mentions ownerIntro = true := by
  refine Text.mentions_mono (s := "\tReturn type = T_VOID(0003), Class type = ".toList) ?_
    (by decide)
  unfold typesLine
  simp only [List.append_assoc]
  exact (List.prefix_append _ _).isInfix

theorem typeIdAfter_typesLine (ho : Spells owner ownerId) (this : Text) (n : Nat) :
    Field.typeIdAfter (typesLine owner this) ownerIntro n = .ok ownerId := by
  have owner_split : "\tReturn type = T_VOID(0003), Class type = ".toList =
      "\tReturn type = T_VOID(0003), ".toList ++ ownerIntro := by decide
  have this_split : ", This type = ".toList = ',' :: " This type = ".toList := by decide
  unfold typesLine
  simp only [owner_split, this_split, List.append_assoc, List.cons_append]
  exact Field.typeIdAfter_of_spells (by decide) (clear_of_clears (by decide)) ho n

/-- The type of the object is a token, which ends at a comma or a blank. -/
theorem tokenAfter?_typesLine (ho : Spells owner ownerId) (hne : this ≠ [])
    (hthis : ∀ c ∈ this, Field.isComma c = false ∧ Text.isBlank c = false) :
    Field.tokenAfter? (typesLine owner this) thisIntro = some this := by
  have this_split : ", This type = ".toList = ", ".toList ++ thisIntro := by decide
  have line : typesLine owner this =
      ("\tReturn type = T_VOID(0003), Class type = ".toList ++ (owner ++ ", ".toList))
        ++ (thisIntro ++ (this ++ ',' :: " ".toList)) := by
    unfold typesLine
    simp only [this_split, List.append_assoc]
    rfl
  rw [line]
  refine Field.tokenAfter?_of_clear (by decide) ?_ hne hthis
  exact clear_append.2 ⟨clear_of_clears (by decide), clear_append.2
    ⟨clear_of_not_mem (c := 'T') (by decide) (ho.not_mem (by decide)),
      clear_of_clears (by decide)⟩⟩

end SignatureLines

end Listing

namespace Record

open Listing

variable (style : Style)

theorem leadingTypeId_header (r : TypeRecord) (n : Nat) :
    Field.leadingTypeId (style.header r) n = .ok r.id :=
  leadingTypeId_headerLine (style.spells r.id) n

/-! ## Classes -/

variable {c : ClassRecord}

/-- The second line of a class tells a forward reference from a definition. -/
theorem hasFlag_secondLine (c : ClassRecord) :
    hasFlag (style.secondLine c) forwardFlag = c.isForward := by
  rw [Style.secondLine, Style.flags]
  cases hc : c.isForward with
  | true =>
    rw [if_pos rfl]
    exact hasFlag_fieldListLine_forward _ _ _
  | false =>
    rw [if_neg Bool.false_ne_true, List.append_nil]
    refine hasFlag_fieldListLine (style.spells _) ?_ _
    split
    next => decide
    next => exact List.not_mem_nil

/-- With or without flags, a comma follows the id of the field list. -/
theorem exists_flags_eq (c : ClassRecord) : ∃ rest, style.flags c ++ ", ".toList = ',' :: rest := by
  unfold Style.flags
  split
  next => exact ⟨_, rfl⟩
  next =>
    split
    next => exact ⟨_, rfl⟩
    next => exact ⟨_, rfl⟩

/-- The flags of a class are made from two texts. -/
theorem not_mem_flags {ch : Char} (h : ch ∉ constructorText ∧ ch ∉ forwardText) (c : ClassRecord) :
    ch ∉ style.flags c := by
  unfold Style.flags
  rw [List.mem_append, not_or]
  refine ⟨?_, ?_⟩
  · split
    next => exact h.1
    next => exact List.not_mem_nil
  · split
    next => exact h.2
    next => exact List.not_mem_nil

/-- A definition has the id of its list on the second line, and a forward reference has none. -/
theorem run_fieldListId (h : c.Listable) (d : Cursor) :
    (fieldListId c.isForward (style.secondLine c)).run d = (.ok c.fieldList, d) := by
  obtain ⟨_, _, _, _, hlist, hforward⟩ := h
  unfold fieldListId
  split
  next hf => rw [hforward hf]; rfl
  next =>
    obtain ⟨rest, hflags⟩ := exists_flags_eq style c
    have id_read : Field.typeIdAfter (style.secondLine c) fieldListIntro d.line =
        .ok (c.fieldList.getD ⟨0⟩) := typeIdAfter_fieldListLine (style.spells _) hflags _ _
    rw [Reading.run_ofExcept_bind id_read]
    cases hc : c.fieldList with
    | none => rfl
    | some id =>
      rw [Option.getD_some, hlist id hc]
      rfl

/-- The names are on neither of the lines before them. -/
theorem run_lineWith (c : ClassRecord) (header : Text) (n : Nat) :
    ∃ d, (lineWith classNameIntro header (style.secondLine c)).run
      ⟨n, style.derivation c ++ [style.nameLine c]⟩ = (.ok (style.nameLine c), d) := by
  have second : (style.secondLine c).mentions classNameIntro = false :=
    mentions_className_fieldListLine (style.spells _) (not_mem_flags style (by decide) c) _
  have names : (style.nameLine c).mentions classNameIntro = true :=
    mentions_className_namesLine _ _ _ _
  have found (n : Nat) : seekFrom classNameIntro header n [style.nameLine c] =
      (.ok (style.nameLine c), ⟨n + 1, []⟩) := by
    rw [seekFrom, if_neg (by rw [(style.indented_nameLine c).allBlank]; exact Bool.false_ne_true),
      if_pos names]
  rw [Reading.run, lineWith_cursor, if_neg (by rw [second]; exact Bool.false_ne_true),
    Style.derivation]
  dsimp only
  split
  next =>
    rw [List.singleton_append, seekFrom, if_neg (by decide), if_neg (by decide), found]
    exact ⟨_, rfl⟩
  next =>
    rw [List.nil_append, found]
    exact ⟨_, rfl⟩

/-- The mangled name is on the line that has the display name, and the next line is not touched. -/
theorem run_uniqueName {line name : Text} (h : Field.textAfter? line uniqueNameIntro = some name)
    (d : Cursor) : (uniqueName line).run d = (.ok name, d) := by
  rw [uniqueName, h]
  rfl

theorem nonempty?_of_isName {name : Text} (h : IsName name) : nonempty? name = some name := by
  rw [nonempty?, List.isEmpty_eq_false_iff.2 h.1, if_neg Bool.false_ne_true]

/-- A class is read back: its id, the list it names, and both names. -/
theorem run_readClass (h : c.Listable) (n : Nat) :
    ((readClass (style.header (.classType c))).run ⟨n, style.classBlock c⟩).1 = .ok c := by
  have id_read := leadingTypeId_header style (.classType c) n
  obtain ⟨d, names_line⟩ := run_lineWith style c (style.header (.classType c)) (n + 1)
  have second_read : Reading.next?.run ⟨n, style.classBlock c⟩ =
      (.ok (some (style.secondLine c)), ⟨n + 1, style.derivation c ++ [style.nameLine c]⟩) := rfl
  have list_read := run_fieldListId style h
  obtain ⟨hdisplay, hunique, hmangled, hcomma, _, _⟩ := h
  have display : Field.textUntil? (style.nameLine c) classNameIntro ", unique name = ".toList =
      some c.display := textUntil?_namesLine hdisplay hunique _ _ _
  have mangled : Field.textAfter? (style.nameLine c) uniqueNameIntro = some c.mangled :=
    textAfter?_namesLine hunique hmangled hcomma _ _
  rw [readClass, Reading.run_ofExcept_bind id_read, Reading.run_bind_ok second_read]
  dsimp only
  rw [if_neg (by rw [(style.indented_secondLine c).allBlank]; exact Bool.false_ne_true),
    hasFlag_secondLine, Reading.run_bind_ok (list_read _), Reading.run_bind_ok names_line, display,
    Option.bind_some, nonempty?_of_isName hdisplay, Reading.run_expect_bind,
    Reading.run_bind_ok (run_uniqueName mangled d), nonempty?_of_isName hmangled]
  rfl

/-! ## Members -/

/-- A method is put together from three values that are on its line. -/
theorem run_methodOf {text name : Text} {id : TypeId} {isStatic : Bool}
    (hid : ∀ n, Field.typeIdAfter text indexIntro n = .ok id)
    (hname : Field.quotedAfter? text nameIntro = some name) (hne : nonempty? name = some name)
    (hflag : hasFlag text staticFlag = isStatic) (d : Cursor) :
    (methodOf text).run d = (.ok (.method name id isStatic), d) := by
  rw [methodOf, Reading.run_ofExcept_bind (hid d.line), hname, Option.bind_some, hne, hflag]
  rfl

/-- A line that does not break off is the whole member. -/
theorem run_wholeMember {line : Text} (h : Field.endsInComma line = false) (d : Cursor) :
    (wholeMember line).run d = (.ok line, d) := by
  rw [Reading.run, wholeMember_cursor, h, if_neg Bool.false_ne_true]
  exact joinFrom_of_complete h _ _

/-- The line of a member yields the member, and no further line is read. -/
theorem run_readMember (l : FieldList) (i : Nat) {m : Member} (h : m.Listable) (d : Cursor) :
    (readMember (style.memberLine l i m)).run d = (.ok (some m), d) := by
  cases m with
  | base id =>
    show (readMember (if _ then _ else _)).run d = _
    have spelled := style.spells id
    -- Direct and virtual base classes differ in their leaf and in what stands before the id.
    split
    next =>
      have leaf : (virtualBaseLine i (style.access l i) (style.spell id)).mentions virtualBaseTag =
          true := mentions_memberStart (by decide) i _ _
      rw [readMember, mentions_methodTag_virtualBaseLine spelled, if_neg Bool.false_ne_true, leaf,
        Bool.or_true, if_pos rfl]
      rw [Reading.run_ofExcept_bind (typeIdAfter_virtualBaseLine spelled i _ _)]
      rfl
    next =>
      have leaf : (baseLine i (style.access l i) (style.spell id)).mentions RecordKind.baseTag =
          true := mentions_memberStart (by decide) i _ _
      rw [readMember, mentions_methodTag_baseLine spelled, if_neg Bool.false_ne_true, leaf,
        Bool.true_or, if_pos rfl]
      rw [Reading.run_ofExcept_bind (typeIdAfter_baseLine spelled i _ _)]
      rfl
  | method name id isStatic =>
    obtain ⟨hname, hquote, hstatic⟩ := h
    show (readMember (methodLine i _ (Style.property isStatic _) _ name)).run d = _
    have spelled := style.spells id
    have leaf : (methodLine i (style.access l i) (Style.property isStatic (style.isVirtual l i))
        (style.spell id) name).mentions methodTag = true :=
      mentions_memberStart (by decide) i _ _
    rw [readMember, leaf, if_pos rfl,
      Reading.run_bind_ok (run_wholeMember (endsInComma_methodLine _ _ _ _ _) d),
      Reading.run_bind_ok (run_methodOf (typeIdAfter_methodLine spelled isStatic _ i _ name)
        (quotedAfter?_methodLine spelled hquote isStatic _ i _) (nonempty?_of_isName hname)
        (hasFlag_methodLine spelled hstatic isStatic _ i _) d)]
    rfl

/-- The loop over members reads one from each line. The induction is on the members that are left,
with those that have been read in front. -/
theorem readMembers_listing (l : FieldList) {members : List Member}
    (h : ∀ m ∈ members, m.Listable) (k : Nat) (done : List Member) (n : Nat) :
    (readMembers done ⟨n, (members.zipIdx k).map fun m => style.memberLine l m.2 m.1⟩).1 =
      .ok (done.reverse ++ members) := by
  induction members generalizing k done n with
  | nil => rw [readMembers_atBreak TypeTable.atBreak_nil rfl, List.append_nil]
  | cons m members ih =>
    rw [List.zipIdx_cons, List.map_cons,
      readMembers_line rfl (style.indented_memberLine l k m).allBlank,
      run_readMember style l k (h m List.mem_cons_self)]
    dsimp only
    rw [Option.toList_some, List.singleton_append,
      ih (fun m hm => h m (List.mem_cons_of_mem _ hm)), List.reverse_cons, List.append_assoc]
    rfl

/-- A field list is read back with all its members. -/
theorem run_readFieldList {l : FieldList} (hne : l.members ≠ []) (h : ∀ m ∈ l.members, m.Listable)
    (n : Nat) : ((readFieldList (style.header (.fieldList l))).run
      ⟨n, style.block (.fieldList l)⟩).1 = .ok (some l) := by
  have members_read : (Reading.run (readMembers []) ⟨n, style.block (.fieldList l)⟩) =
      (.ok l.members, _) := Prod.ext (readMembers_listing style l h 0 [] n) rfl
  rw [readFieldList, Reading.run_ofExcept_bind (leadingTypeId_header style (.fieldList l) n),
    Reading.run_bind_ok members_read, List.isEmpty_eq_false_iff.2 hne, if_neg Bool.false_ne_true]
  rfl

/-! ## Member functions -/

/-- What is written for the type of the object is a token, whether there is one or not. -/
theorem token_thisText (this : Option TypeId) :
    style.thisText this ≠ [] ∧
      ∀ c ∈ style.thisText this, Field.isComma c = false ∧ Text.isBlank c = false := by
  cases this with
  | none =>
    have whole : noType.all (fun c => !Field.isComma c && !Text.isBlank c) = true := by decide
    refine ⟨List.cons_ne_nil _ _, fun c hc => ?_⟩
    have inside := List.all_eq_true.1 whole c hc
    rwa [Bool.and_eq_true, Bool.not_eq_true', Bool.not_eq_true'] at inside
  | some id => exact (style.spells id).isToken

/-- No type is written as a token that is no id, and no id is null. -/
theorem read?_thisText {this : Option TypeId} (h : ∀ id ∈ this, id.isNull = false) :
    (TypeId.read? (style.thisText this)).filter (fun id => !id.isNull) = this := by
  cases this with
  | none =>
    have no_id : TypeId.read? noType = none := by decide
    show (TypeId.read? noType).filter _ = _
    rw [no_id]
    rfl
  | some id =>
    show (TypeId.read? (style.spell id)).filter _ = _
    rw [(style.spells id).read?, Option.filter_some, h id rfl]
    rfl

theorem read_typesLine (s : Signature) {f : MemberFunction} (h : ∀ id ∈ f.this, id.isNull = false)
    (n : Nat) : s.read (typesLine (style.spell f.owner) (style.thisText f.this)) n =
      .ok ⟨some f.owner, f.this⟩ := by
  have owner := typeIdAfter_typesLine (style.spells f.owner) (style.thisText f.this) n
  obtain ⟨hne, htoken⟩ := token_thisText style f.this
  have this := tokenAfter?_typesLine (style.spells f.owner) hne htoken
  unfold Signature.read
  rw [mentions_ownerIntro_typesLine, if_pos rfl, owner, this]
  show Except.ok (Signature.mk (some f.owner) ((TypeId.read? (style.thisText f.this)).filter _)) = _
  rw [read?_thisText style h]

theorem read_callLine (s : Signature) (n : Nat) : s.read callLine n = .ok s := by
  have no_owner : callLine.mentions ownerIntro = false := by decide
  have no_this : Field.tokenAfter? callLine thisIntro = none := by decide
  unfold Signature.read
  rw [no_owner, no_this]
  rfl

/-- Both lines of a signature are read, and the loop ends with them. -/
theorem signatureFrom_listing {f : MemberFunction} (h : ∀ id ∈ f.this, id.isNull = false)
    (n : Nat) : signatureFrom ⟨none, none⟩ n (style.block (.memberFunction f)) =
      (.ok ⟨some f.owner, f.this⟩, ⟨n + 2, []⟩) := by
  have types_visible : (typesLine (style.spell f.owner) (style.thisText f.this)).allBlank = false :=
    (style.indented_of_mem_block (r := .memberFunction f) List.mem_cons_self).allBlank
  have call_visible : callLine.allBlank = false := by decide
  rw [Style.block, signatureFrom, if_neg (by rw [types_visible]; exact Bool.false_ne_true),
    read_typesLine style _ h]
  dsimp only
  rw [signatureFrom, if_neg (by rw [call_visible]; exact Bool.false_ne_true), read_callLine]
  rfl

/-- A member function is read back. -/
theorem run_readMemberFunction {f : MemberFunction} (h : ∀ id ∈ f.this, id.isNull = false)
    (n : Nat) : ((readMemberFunction (style.header (.memberFunction f))).run
      ⟨n, style.block (.memberFunction f)⟩).1 = .ok f := by
  have signature : Reading.run (readSignature ⟨none, none⟩)
      ⟨n, style.block (.memberFunction f)⟩ = _ :=
    (readSignature_cursor _ _).trans (signatureFrom_listing style h n)
  rw [readMemberFunction, Reading.run_bind_ok (x := Reading.lineNumber) rfl,
    Reading.run_ofExcept_bind (leadingTypeId_header style (.memberFunction f) n),
    Reading.run_bind_ok signature]
  rfl

/-! ## Records -/

/-- The reader of records finds in the listing of a record that record. -/
theorem run_read_of_listable {r : TypeRecord} (h : r.Listable) (n : Nat) :
    ((read (style.header r)).run ⟨n, style.block r⟩).1 = .ok (some r) := by
  rw [read, style.ofLine_header]
  cases r with
  | classType c => exact Reading.fst_run_map (run_readClass style h n)
  | fieldList l => exact Reading.fst_run_map (run_readFieldList style h.1 h.2 n)
  | memberFunction f => exact Reading.fst_run_map (run_readMemberFunction style h n)

end Record
end Lineage
