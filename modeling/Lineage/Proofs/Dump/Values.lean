import Lineage.Proofs.Text.Clear
import Lineage.Proofs.Text.Hexadecimal
import Lineage.Record.Reader

/-!
# Values that are read back

A value that stands on a line behind its introducer is read back as it is, under two conditions. The
introducer must not begin anywhere before it (`Text.Clear`), and the value must be of the kind that
its reader expects: an id spelled in hexadecimal (`Spells`), a text without a comma, a text
up to a terminator that is not in it, a name between quotes that has no quote.

Both conditions are about the value and the text before it, never about what comes after. A reader
looks for the first introducer, and it stops at the first terminator, so later ones do no harm.

What is said of an id is said of any spelling of it. The dumper writes ids in one way, and other
programs may write more zeros or a mark, but all of them spell the id and none has a comma or a
blank in it (`Spells.isToken`). The spelling that the program writes itself is one of them
(`spells_text`).

There is one lemma for each reader of a field. Lines of records are put together from parts, and
with these lemmas a line is read back part by part.
-/

namespace Lineage

open Text (Clear)

/-! ## Ids -/

/-- A token spells an id: the mark, and then hexadecimal digits of either case with any number of
zeros before them. -/
def Spells (token : Text) (id : TypeId) : Prop :=
  ∃ digits, token = '0' :: 'x' :: digits ∧
    Text.digits? Text.hexDigit? 16 digits = some id.value.toNat

/-- Whether a character can stand in the spelling of an id. -/
def isIdChar (c : Char) : Bool := Text.isHexDigit c || c == 'x'

theorem isBlank_of_isIdChar {c : Char} (h : isIdChar c = true) : Text.isBlank c = false := by
  rw [isIdChar, Bool.or_eq_true, beq_iff_eq] at h
  rcases h with h | rfl
  · exact Text.isBlank_of_isHexDigit h
  · decide

namespace Spells

variable {token : Text} {id : TypeId}

theorem isIdChar (h : Spells token id) : ∀ c ∈ token, isIdChar c = true := by
  obtain ⟨digits, rfl, hdigits⟩ := h
  intro c hc
  rcases List.mem_cons.1 hc with rfl | hc
  · decide
  rcases List.mem_cons.1 hc with rfl | hc
  · decide
  have run := (Text.digits?_eq_some_iff.1 hdigits).1
  rw [Lineage.isIdChar, run.isHexDigit c hc, Bool.true_or]

/-- A character that cannot stand in an id does not. -/
theorem not_mem (h : Spells token id) {c : Char} (hc : Lineage.isIdChar c = false) :
    c ∉ token := by
  intro hmem
  rw [h.isIdChar c hmem] at hc
  cases hc

/-- A spelled id is one token. -/
theorem isToken (h : Spells token id) :
    token ≠ [] ∧ ∀ c ∈ token, Field.isComma c = false ∧ Text.isBlank c = false := by
  refine ⟨?_, fun c hc => ⟨?_, isBlank_of_isIdChar (h.isIdChar c hc)⟩⟩
  · obtain ⟨digits, rfl, _⟩ := h
    exact List.cons_ne_nil _ _
  · rw [Field.isComma, beq_eq_false_iff_ne]
    exact fun hcomma => h.not_mem (by decide) (hcomma ▸ hc)

theorem isHexNumeral (h : Spells token id) : Text.IsHexNumeral token id.value.toNat := by
  obtain ⟨digits, rfl, hdigits⟩ := h
  exact Text.isHexNumeral_of_digits? hdigits

theorem read? (h : Spells token id) : TypeId.read? token = some id := by
  rw [TypeId.read?_eq_some_iff, Text.trim_eq_self_of_visible h.isHexNumeral.isBlank]
  exact h.isHexNumeral

end Spells

/-- The program's own way of writing an id is a spelling of it. -/
theorem spells_text (id : TypeId) : Spells id.text id :=
  ⟨Text.padded 4 (Text.hex id.value.toNat), rfl, Text.digits?_padded 4 id.value.toNat⟩

namespace Field

variable {before introducer token value rest terminator : Text} {id : TypeId}

theorem after?_of_clear (hi : introducer ≠ []) (h : Clear introducer before (introducer ++ rest)) :
    after? (before ++ (introducer ++ rest)) introducer = some rest := by
  rw [after?, Text.cut?_of_clear hi h, Option.map_some]

/-- A token up to a comma. -/
theorem tokenAfter?_of_clear (hi : introducer ≠ [])
    (h : Clear introducer before (introducer ++ (token ++ ',' :: rest))) (hne : token ≠ [])
    (htoken : ∀ c ∈ token, isComma c = false ∧ Text.isBlank c = false) :
    tokenAfter? (before ++ (introducer ++ (token ++ ',' :: rest))) introducer = some token := by
  obtain ⟨c, cs, rfl⟩ := List.exists_cons_of_ne_nil hne
  rw [tokenAfter?, after?_of_clear hi h, Option.map_some, List.cons_append,
    Text.trimStart_cons_of_not_blank (htoken c List.mem_cons_self).2, ← List.cons_append,
    List.takeWhile_append_of_pos, List.takeWhile_cons_of_neg, List.append_nil]
  · decide
  · intro d hd
    rw [(htoken d hd).1, (htoken d hd).2]
    rfl

theorem tokenAfter?_of_spells (hi : introducer ≠ [])
    (h : Clear introducer before (introducer ++ (token ++ ',' :: rest))) (ht : Spells token id) :
    tokenAfter? (before ++ (introducer ++ (token ++ ',' :: rest))) introducer = some token :=
  tokenAfter?_of_clear hi h ht.isToken.1 ht.isToken.2

/-- An id up to a comma. -/
theorem typeIdAfter_of_spells (hi : introducer ≠ [])
    (h : Clear introducer before (introducer ++ (token ++ ',' :: rest))) (ht : Spells token id)
    (n : Nat) :
    typeIdAfter (before ++ (introducer ++ (token ++ ',' :: rest))) introducer n = .ok id := by
  rw [typeIdAfter, tokenAfter?_of_spells hi h ht, Option.bind_some, ht.read?]

/-- An id at the start of a line. -/
theorem leadingTypeId_of_spells (ht : Spells token id) (rest : Text) (n : Nat) :
    leadingTypeId (token ++ ' ' :: rest) n = .ok id := by
  have inside : ∀ c ∈ token, endsLeadingId c = false := by
    intro c hc
    rw [endsLeadingId, isBlank_of_isIdChar (ht.isIdChar c hc), Bool.false_or, beq_eq_false_iff_ne]
    exact fun hcolon => ht.not_mem (by decide) (hcolon ▸ hc)
  have start : (token ++ ' ' :: rest).dropWhile endsLeadingId = token ++ ' ' :: rest := by
    obtain ⟨digits, rfl, _⟩ := ht
    rfl
  have leading : leadingToken (token ++ ' ' :: rest) = token := by
    rw [leadingToken, start, List.takeWhile_append_of_pos, List.takeWhile_cons_of_neg,
      List.append_nil]
    · decide
    · exact fun c hc => by rw [inside c hc]; rfl
  rw [leadingTypeId, leading, ht.read?]

/-! ## Texts and names -/

/-- A text without a comma, up to the next comma. -/
theorem textAfter?_of_clear (hi : introducer ≠ [])
    (h : Clear introducer before (introducer ++ (value ++ ',' :: rest))) (hcomma : ',' ∉ value)
    (htrim : value.trim = value) :
    textAfter? (before ++ (introducer ++ (value ++ ',' :: rest))) introducer = some value := by
  have inside : ∀ c ∈ value, isComma c = false := by
    intro c hc
    rw [isComma, beq_eq_false_iff_ne]
    exact fun hcomma' => hcomma (hcomma' ▸ hc)
  have whole : (value ++ ',' :: rest).takeWhile (fun c => !isComma c) = value := by
    rw [List.takeWhile_append_of_pos, List.takeWhile_cons_of_neg, List.append_nil]
    · decide
    · exact fun c hc => by rw [inside c hc]; rfl
  have kept : dropTrailingComma value = value := by
    have no_comma : ¬ ",".toList.reverse <+: value.reverse :=
      fun hs => hcomma (List.mem_reverse.1 (hs.subset List.mem_cons_self))
    rw [dropTrailingComma, Text.trimEnd_eq_self_of_trim htrim, List.isSuffixOf?,
      Text.isPrefixOf?_eq_none no_comma, Option.map_none, Option.getD_none,
      Text.trimEnd_eq_self_of_trim htrim]
  rw [textAfter?, after?_of_clear hi h, Option.map_some, whole, htrim, kept]

/-- A text up to a terminator. -/
theorem textUntil?_of_clear (hi : introducer ≠ []) (ht : terminator ≠ [])
    (h : Clear introducer before (introducer ++ (value ++ (terminator ++ rest))))
    (hvalue : Clear terminator value (terminator ++ rest)) (htrim : value.trim = value) :
    textUntil? (before ++ (introducer ++ (value ++ (terminator ++ rest)))) introducer terminator =
      some value := by
  simp only [textUntil?, after?_of_clear hi h, Text.cut?_of_clear ht hvalue, htrim]

/-- A name between quotes. -/
theorem quotedAfter?_of_clear (hi : introducer ≠ [])
    (h : Clear introducer before (introducer ++ '\'' :: (value ++ '\'' :: rest)))
    (hquote : '\'' ∉ value) :
    quotedAfter? (before ++ (introducer ++ '\'' :: (value ++ '\'' :: rest))) introducer =
      some value := by
  have whole : (value ++ '\'' :: rest).takeWhile (fun c => c != '\'') = value := by
    rw [List.takeWhile_append_of_pos, List.takeWhile_cons_of_neg, List.append_nil]
    · decide
    · exact fun c hc => bne_iff_ne.2 fun hq => hquote (hq ▸ hc)
  have closed : (value ++ '\'' :: rest).contains '\'' = true := by simp
  rw [quotedAfter?, after?_of_clear hi h, Option.map_some,
    Text.trimStart_cons_of_not_blank (by decide)]
  simp only [closed, whole, if_true]
  rfl

end Field
end Lineage
