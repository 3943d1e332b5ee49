import Lineage.Proofs.Symbol.Line
import Lineage.Proofs.Text.Pattern

/-!
# The patterns of symbol lines

What a symbol line looks like is two patterns:

    S_GPROC32\w*: \[([0-9A-Fa-f]+):([0-9A-Fa-f]+)\], Cb: [0-9A-Fa-f]+, Type:\s*(\S+?), (.+)$
    S_PUB32: \[([0-9A-Fa-f]+):([0-9A-Fa-f]+)\], Flags: [0-9A-Fa-f]+, (\S+)

The readers of symbol lines do not run patterns. They take each part off in one step and never go
back. That gives the same answers, for two reasons.

A run in the middle of a pattern ends at a character that is not of its kind, so there is one way to
take it. The type of a procedure is no exception although it may hold commas: behind the comma that
ends it stands a blank. So a text fits the pattern of a procedure in one way or none
(`splits_procedurePattern_iff`), and it does not matter that the type is lazy.

Nothing follows the name of a public symbol, so it can be taken in as many ways as it has
characters. Here it matters that it is greedy: a way that leaves a visible character is not the
first (`stops_of_first?_publicPattern`).

Main results: `search?_procedurePattern`, `search?_publicPattern`.
-/

namespace Lineage.Symbol

open Text.Pattern

/-- The parts of a procedure symbol. -/
def procedurePattern : Text.Pattern := [
  .phrase RecordKind.procedureTag, .run Text.isWordChar 0 .greedy false,
  .phrase ": [".toList, .run Text.isHexDigit 1 .greedy true,
  .phrase ":".toList, .run Text.isHexDigit 1 .greedy true,
  .phrase "], Cb: ".toList, .run Text.isHexDigit 1 .greedy false,
  .phrase ", Type:".toList, .run Text.isBlank 0 .greedy false,
  .run (fun c => !Text.isBlank c) 1 .lazy true,
  .phrase ", ".toList, .run (fun c => c != '\n') 1 .greedy true, .finish]

/-- The parts of a public symbol. -/
def publicPattern : Text.Pattern := [
  .phrase publicTag,
  .phrase ": [".toList, .run Text.isHexDigit 1 .greedy true,
  .phrase ":".toList, .run Text.isHexDigit 1 .greedy true,
  .phrase "], Flags: ".toList, .run Text.isHexDigit 1 .greedy false,
  .phrase ", ".toList, .run (fun c => !Text.isBlank c) 1 .greedy true]

variable {s rest : Text} {pieces : List Text}

/-! ## Runs and what they are called -/

theorem isHexRun_iff : Text.IsHexRun s ↔ 1 ≤ s.length ∧ ∀ c ∈ s, Text.isHexDigit c = true :=
  ⟨fun h => ⟨List.length_pos_iff.2 h.ne_nil, h.isHexDigit⟩,
    fun h => ⟨List.length_pos_iff.1 h.1, h.2⟩⟩

theorem isVisibleRun_iff : IsVisibleRun s ↔ 1 ≤ s.length ∧ ∀ c ∈ s, (!Text.isBlank c) = true :=
  ⟨fun h => ⟨List.length_pos_iff.2 h.ne_nil, h.visible⟩,
    fun h => ⟨List.length_pos_iff.1 h.1, fun c hc => by simpa using h.2 c hc⟩⟩

theorem isRestOfLine_iff : IsRestOfLine s ↔ 1 ≤ s.length ∧ ∀ c ∈ s, (c != '\n') = true := by
  have no_break : '\n' ∉ s ↔ ∀ c ∈ s, (c != '\n') = true := by
    simp only [bne_iff_ne]
    exact ⟨fun h c hc => ne_of_mem_of_not_mem hc h, fun h hc => h _ hc rfl⟩
  exact ⟨fun h => ⟨List.length_pos_iff.2 h.ne_nil, no_break.1 h.no_break⟩,
    fun h => ⟨List.length_pos_iff.1 h.1, no_break.2 h.2⟩⟩

/-! ## Procedures -/

namespace ProcedureForm

/-- The parts of a procedure as the pattern takes them off. -/
def parts (x : ProcedureForm) : List Text :=
  [RecordKind.procedureTag, x.tagRest, ": [".toList, x.place.number, ":".toList, x.place.offset,
    "], Cb: ".toList, x.size, ", Type:".toList, x.gap, x.type, ", ".toList, x.name, []]

theorem text_eq_flatten (x : ProcedureForm) : x.text = x.parts.flatten := by
  simp [text, parts, Place.text]

end ProcedureForm

/-- The pattern of a procedure fits the texts of procedures, each in one way. Both directions go
through the atoms from the front, one at a time. -/
theorem splits_procedurePattern_iff : Splits procedurePattern s pieces rest ↔
    ∃ x : ProcedureForm, x.text = s ∧ (x.parts, []) = (pieces, rest) := by
  constructor
  · intro h
    obtain _ | ⟨rfl, h⟩ := h
    obtain _ | ⟨hword, h⟩ := h
    obtain _ | ⟨rfl, h⟩ := h
    obtain _ | ⟨hnumber, h⟩ := h
    obtain _ | ⟨rfl, h⟩ := h
    obtain _ | ⟨hoffset, h⟩ := h
    obtain _ | ⟨rfl, h⟩ := h
    obtain _ | ⟨hsize, h⟩ := h
    obtain _ | ⟨rfl, h⟩ := h
    obtain _ | ⟨hgap, h⟩ := h
    obtain _ | ⟨htype, h⟩ := h
    obtain _ | ⟨rfl, h⟩ := h
    obtain _ | ⟨hname, h⟩ := h
    obtain _ | ⟨⟨rfl, rfl⟩, h⟩ := h
    cases h
    let x : ProcedureForm := ⟨_, ⟨_, _⟩, _, _, _, _, hword.2,
      ⟨isHexRun_iff.2 hnumber, isHexRun_iff.2 hoffset⟩, isHexRun_iff.2 hsize,
      List.all_eq_true.2 hgap.2, isVisibleRun_iff.2 htype, isRestOfLine_iff.2 hname⟩
    exact ⟨x, x.text_eq_flatten, rfl⟩
  · rintro ⟨x, rfl, h⟩
    obtain ⟨rfl, rfl⟩ := Prod.mk.inj h
    rw [x.text_eq_flatten]
    exact .cons rfl <| .cons ⟨Nat.zero_le _, x.isWordChar⟩ <|
      .cons rfl <| .cons (isHexRun_iff.1 x.place_isHex.number) <|
      .cons rfl <| .cons (isHexRun_iff.1 x.place_isHex.offset) <|
      .cons rfl <| .cons (isHexRun_iff.1 x.size_isHexRun) <|
      .cons rfl <| .cons ⟨Nat.zero_le _, List.all_eq_true.1 x.gap_allBlank⟩ <|
      .cons (isVisibleRun_iff.1 x.type_isVisible) <|
      .cons rfl <| .cons (isRestOfLine_iff.1 x.name_isRest) <| .cons ⟨rfl, rfl⟩ .nil

/-- As there is one way at most, it is the first. -/
theorem first?_procedurePattern_eq_some_iff (w : List Text × Text) :
    first? procedurePattern s = some w ↔ ∃ x : ProcedureForm, x.text = s ∧ (x.parts, []) = w := by
  obtain ⟨pieces, rest⟩ := w
  rw [first?_eq_some_iff, splits_procedurePattern_iff]
  refine ⟨And.left, ?_⟩
  rintro ⟨x, rfl, hx⟩
  refine ⟨⟨x, rfl, hx⟩, fun pieces' rest' h => ?_⟩
  obtain ⟨y, hy, h⟩ := splits_procedurePattern_iff.1 h
  rw [ProcedureForm.text_injective hy, hx] at h
  exact .inl h.symm

/-- Reading a procedure off a line is a search for its pattern. -/
theorem search?_procedurePattern (line : Text) : search? procedurePattern line =
    (Text.firstMatch? procedureAt? line).map fun (place, type, name) =>
      [place.number, place.offset, type, name] :=
  search?_eq_map_firstMatch? (fun _ _ => procedureAt?_eq_some_iff)
    (fun _ => first?_procedurePattern_eq_some_iff) (fun _ => rfl) line

/-! ## Public symbols -/

/-- The parts of a public symbol as the pattern takes them off. -/
def publicParts (place : Place) (flags name : Text) : List Text :=
  [publicTag, ": [".toList, place.number, ":".toList, place.offset, "], Flags: ".toList, flags,
    ", ".toList, name]

theorem PublicForm.text_eq_flatten (x : PublicForm) :
    x.text = (publicParts x.place x.flags x.name).flatten ++ x.rest := by
  simp [text, publicParts, Place.text]

/-- The pattern of a public symbol fits as much of the name as it likes. -/
theorem splits_publicPattern_iff : Splits publicPattern s pieces rest ↔
    ∃ (place : Place) (flags name : Text), place.IsHex ∧ Text.IsHexRun flags ∧
      IsVisibleRun name ∧ s = (publicParts place flags name).flatten ++ rest ∧
        pieces = publicParts place flags name := by
  constructor
  · intro h
    obtain _ | ⟨rfl, h⟩ := h
    obtain _ | ⟨rfl, h⟩ := h
    obtain _ | ⟨hnumber, h⟩ := h
    obtain _ | ⟨rfl, h⟩ := h
    obtain _ | ⟨hoffset, h⟩ := h
    obtain _ | ⟨rfl, h⟩ := h
    obtain _ | ⟨hflags, h⟩ := h
    obtain _ | ⟨rfl, h⟩ := h
    obtain _ | ⟨hname, h⟩ := h
    cases h
    refine ⟨⟨_, _⟩, _, _, ⟨isHexRun_iff.2 hnumber, isHexRun_iff.2 hoffset⟩,
      isHexRun_iff.2 hflags, isVisibleRun_iff.2 hname, ?_, rfl⟩
    simp [publicParts]
  · rintro ⟨place, flags, name, hplace, hflags, hname, rfl, rfl⟩
    simp only [publicParts, List.flatten_cons, List.flatten_nil, List.append_nil, List.append_assoc]
    exact .cons rfl <| .cons rfl <| .cons (isHexRun_iff.1 hplace.number) <|
      .cons rfl <| .cons (isHexRun_iff.1 hplace.offset) <|
      .cons rfl <| .cons (isHexRun_iff.1 hflags) <|
      .cons rfl <| .cons (isVisibleRun_iff.1 hname) .nil

/-- Of two ways that differ in the name, the one with the longer name is earlier. -/
theorem length_lt_of_earlier {place : Place} {flags name name' : Text}
    (h : Earlier publicPattern (publicParts place flags name) (publicParts place flags name')) :
    name'.length < name.length := by
  simp only [publicPattern, publicParts, earlier_cons_self_iff] at h
  rcases h with prefers | earlier
  · exact prefers
  · cases earlier

/-- The first way takes the whole name. If it left a visible character, the way with this character
in the name would be tried before it. -/
theorem stops_of_first?_publicPattern {place : Place} {flags name : Text} (hplace : place.IsHex)
    (hflags : Text.IsHexRun flags) (hname : IsVisibleRun name)
    (h : first? publicPattern ((publicParts place flags name).flatten ++ rest) =
      some (publicParts place flags name, rest)) :
    Text.Stops (fun c => !Text.isBlank c) rest := by
  obtain ⟨_, hfirst⟩ := first?_eq_some_iff.1 h
  cases rest with
  | nil => exact fun c hc => nomatch hc
  | cons c rest =>
    refine Text.stops_cons (Bool.eq_false_iff.2 fun hvisible => ?_)
    have longer : IsVisibleRun (name ++ [c]) := by
      refine ⟨by simp, fun d hd => ?_⟩
      rcases List.mem_append.1 hd with hd | hd
      · exact hname.isBlank d hd
      · rw [List.mem_singleton.1 hd]
        simpa using hvisible
    have whole : (publicParts place flags name).flatten ++ c :: rest =
        (publicParts place flags (name ++ [c])).flatten ++ rest := by
      simp [publicParts]
    have other := splits_publicPattern_iff.2
      ⟨place, flags, name ++ [c], hplace, hflags, longer, whole, rfl⟩
    rcases hfirst _ rest other with same | earlier
    · simpa using congrArg (fun w => w.2.length) same
    · have shorter := length_lt_of_earlier earlier
      rw [List.length_append] at shorter
      omega

/-- The first way to fit the pattern takes all of a public symbol. -/
theorem first?_publicPattern_eq_some_iff (w : List Text × Text) :
    first? publicPattern s = some w ↔
      ∃ x : PublicForm, x.text = s ∧ (publicParts x.place x.flags x.name, x.rest) = w := by
  have whole {s : Text} {w : List Text × Text} (h : first? publicPattern s = some w) :
      ∃ x : PublicForm, x.text = s ∧ (publicParts x.place x.flags x.name, x.rest) = w := by
    obtain ⟨pieces, rest⟩ := w
    obtain ⟨place, flags, name, hplace, hflags, hname, rfl, rfl⟩ :=
      splits_publicPattern_iff.1 (first?_eq_some_iff.1 h).1
    let x : PublicForm := ⟨place, flags, name, rest, hplace, hflags, hname,
      stops_of_first?_publicPattern hplace hflags hname h⟩
    exact ⟨x, x.text_eq_flatten, rfl⟩
  refine ⟨whole, ?_⟩
  rintro ⟨x, rfl, rfl⟩
  have splits := splits_publicPattern_iff.2 ⟨x.place, x.flags, x.name, x.place_isHex,
    x.flags_isHexRun, x.name_isVisible, x.text_eq_flatten, rfl⟩
  cases h : first? publicPattern x.text with
  | none => exact absurd splits (first?_eq_none_iff.1 h _ _)
  | some w =>
    obtain ⟨y, hy, rfl⟩ := whole h
    rw [PublicForm.text_injective hy]

/-- Reading a public symbol off a line is a search for its pattern. -/
theorem search?_publicPattern (line : Text) : search? publicPattern line =
    (Text.firstMatch? publicAt? line).map fun (place, name) =>
      [place.number, place.offset, name] :=
  search?_eq_map_firstMatch? (fun _ _ => publicAt?_eq_some_iff)
    (fun _ => first?_publicPattern_eq_some_iff) (fun _ => rfl) line

example :
    search? publicPattern "(0010) S_PUB32: [0001:10], Flags: 2, ?Bar@Base@@QAEXXZ end".toList =
      some (["0001", "10", "?Bar@Base@@QAEXXZ"].map String.toList) := by
  decide +kernel

end Lineage.Symbol
