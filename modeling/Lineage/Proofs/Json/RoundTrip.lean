import Lineage.Json.Writer

/-!
# Written JSON reads back

A text is read by a machine that takes its tokens one by one, so what the machine does with a piece
of text can be said without the rest: `resume` lets it go on from any state. A written value takes
the machine from any state in which a value may come to the state after this value, whatever text
follows (`Reads`). For arrays and objects this is shown of their items first, each one between
the white space that the layout asks for.

Numbers are left out. They are the only values that need an end, since a digit that follows one
belongs to it.

The text is read token by token, and tokens are split off without knowing what follows. So the
lemmas about strings and words speak of any text behind them, and those about values of any state
that expects a value. The induction is on the value; the items of an array come to it as a list, and
there the induction is on the list, with the items that have been read in the state of the machine.

Main result: `Json.read?_text`.
-/

namespace Lineage.Json

variable {style : Style} {m : State × List Frame} {open_ : List Frame} {s : Text} {c : Char}

/-! ## Going on with a text -/

/-- The machine after the tokens of a text. -/
def resume (m : State × List Frame) (s : Text) : Option (State × List Frame) :=
  (tokens? s).bind (steps m)

theorem tokens?_eq (s : Text) :
    tokens? s = match s.dropWhile isSpace with
      | [] => some []
      | c :: visible => (token? (c :: visible)).bind fun t => (tokens? t.2).map (t.1 :: ·) := by
  rw [tokens?]
  split
  next h => rw [h]
  next c visible h =>
    rw [h]
    dsimp only
    split
    next t rest ht => rw [ht]; rfl
    next ht => rw [ht]; rfl

/-- White space between tokens does not count. -/
theorem resume_spaces {w : Text} (hw : ∀ c ∈ w, isSpace c = true) :
    resume m (w ++ s) = resume m s := by
  have visible : (w ++ s).dropWhile isSpace = s.dropWhile isSpace := by
    induction w with
    | nil => rfl
    | cons c w ih =>
      rw [List.cons_append, List.dropWhile_cons, if_pos (hw c List.mem_cons_self)]
      exact ih fun c hc => hw c (List.mem_cons_of_mem _ hc)
  rw [resume, resume, tokens?_eq, visible, ← tokens?_eq]

theorem resume_token {t : Token} {rest : Text} (hc : isSpace c = false)
    (ht : token? (c :: s) = some (t, rest)) :
    resume m (c :: s) = (step m t).bind fun m => resume m rest := by
  have visible : (c :: s).dropWhile isSpace = c :: s := by
    rw [List.dropWhile_cons, hc]
    rfl
  rw [resume, tokens?_eq, visible]
  dsimp only
  rw [ht, Option.bind_some]
  unfold resume
  cases tokens? rest with
  | none => cases step m t <;> rfl
  | some ts => rfl

/-! ## Strings -/

/-- The number of a control character in four digits. -/
theorem digits?_padded_hex {n : Nat} (hn : n < 0x20) :
    ∃ c d, Text.padded 4 (Text.hex n) = ['0', '0', c, d] ∧
      Text.digits? Text.hexDigit? 16 ['0', '0', c, d] = some n := by
  have spelled : ∀ n < 0x20, Text.padded 4 (Text.hex n) =
      ['0', '0', Nat.digitChar (n / 16), Nat.digitChar (n % 16)] := by
    decide
  refine ⟨_, _, spelled n hn, ?_⟩
  show Text.digitsFrom? Text.hexDigit? 16 0 _ = some n
  rw [← spelled n hn, Text.padded, Text.digitsFrom?_zeros, Text.digitsFrom?_hex]

/-- The unit of a control character spells this character. -/
theorem ofPieces?_unit {n : Nat} (hn : n < 0x20) (ps : List Piece) :
    ofPieces? (.unit n :: ps) = (ofPieces? ps).map (Char.ofNat n :: ·) := by
  have high : isHighHalf n = false := by
    rw [isHighHalf, Bool.and_eq_false_iff]
    exact .inl (decide_eq_false (by omega))
  have low : isLowHalf n = false := by
    rw [isLowHalf, Bool.and_eq_false_iff]
    exact .inl (decide_eq_false (by omega))
  rw [ofPieces?.eq_def]
  cases ps with
  | nil =>
    dsimp only
    rw [high, low]
    rfl
  | cons p ps =>
    dsimp only
    rw [high, low]
    rfl

/-- A written character reads as one piece, which spells it. -/
theorem stringBody?_writeChar (c : Char) :
    ∃ p, (∀ s, stringBody? (writeChar c ++ s) = (stringBody? s).map fun r => (p :: r.1, r.2)) ∧
      ∀ ps, ofPieces? (p :: ps) = (ofPieces? ps).map (c :: ·) := by
  unfold writeChar
  split
  case h_8 hquote hbackslash _ _ _ _ _ =>
    split
    next hc =>
      obtain ⟨a, b, hspelled, hvalue⟩ := digits?_padded_hex hc
      refine ⟨.unit c.toNat, fun s => ?_, fun ps => ?_⟩
      · rw [hspelled]
        show stringBody? ('\\' :: 'u' :: '0' :: '0' :: a :: b :: s) = _
        rw [stringBody?, hvalue]
      · rw [ofPieces?_unit hc, Char.ofNat_toNat]
    next hc =>
      refine ⟨.char c, fun s => ?_, fun ps => rfl⟩
      show stringBody? (c :: s) = _
      rw [stringBody?, if_neg hc]
      · exact hquote
      · exact fun _ _ _ _ _ h _ => hbackslash h
      · exact fun _ _ h _ => hbackslash h
  all_goals exact ⟨.char _, fun s => rfl, fun ps => rfl⟩

/-- A written text reads as pieces that spell it, up to the quote that closes it. -/
theorem stringBody?_writeChars (text s : Text) :
    ∃ ps, stringBody? (text.flatMap writeChar ++ '"' :: s) = some (ps, s) ∧
      ofPieces? ps = some text := by
  induction text with
  | nil => exact ⟨[], rfl, rfl⟩
  | cons c text ih =>
    obtain ⟨ps, hread, hspells⟩ := ih
    obtain ⟨p, hpiece, hchar⟩ := stringBody?_writeChar c
    refine ⟨p :: ps, ?_, ?_⟩
    · rw [List.flatMap_cons, List.append_assoc, hpiece, hread]
      rfl
    · rw [hchar, hspells]
      rfl

/-- A written string is one token. -/
theorem resume_writeString (text : Option Text) :
    resume m (writeString text ++ s) = (step m (.string text)).bind fun m => resume m s := by
  cases text with
  | none =>
    have value : Text.digits? Text.hexDigit? 16 ['d', '8', '0', '0'] = some 0xD800 := by decide
    have read : stringBody? ('\\' :: 'u' :: 'd' :: '8' :: '0' :: '0' :: '"' :: s) =
        some ([.unit 0xD800], s) := by
      rw [stringBody?, value]
      rfl
    have spelled : writeString none = ['"', '\\', 'u', 'd', '8', '0', '0', '"'] := by decide
    rw [spelled]
    refine resume_token rfl ?_
    rw [token?]
    show (stringBody? ('\\' :: 'u' :: 'd' :: '8' :: '0' :: '0' :: '"' :: s)).map _ = _
    rw [read]
    rfl
  | some text =>
    obtain ⟨ps, hread, hspells⟩ := stringBody?_writeChars text s
    have body : writeString (some text) ++ s = '"' :: (text.flatMap writeChar ++ '"' :: s) := by
      show ('"' :: text.flatMap writeChar ++ ['"']) ++ s = _
      rw [List.append_assoc, List.cons_append, List.singleton_append]
    rw [body]
    refine resume_token rfl ?_
    rw [token?, hread, ← hspells]
    rfl

/-! ## Values -/

/-- Whatever token comes next, it starts a value, unless it closes an array. -/
def Expects (m : State × List Frame) (open_ : List Frame) : Prop :=
  ∀ t, t ≠ .closeBracket → step m t = startValue open_ t

theorem expects_value : Expects (.value, open_) open_ := fun _ _ => rfl

theorem expects_arrayStart : Expects (.arrayStart, open_) (.array [] :: open_) := by
  intro t ht
  cases t with
  | closeBracket => exact absurd rfl ht
  | _ => rfl

/-- The white space of a layout is white space. -/
structure Style.Blank (style : Style) : Prop where
  lineBreak : ∀ depth, ∀ c ∈ style.lineBreak depth, isSpace c = true
  afterColon : ∀ c ∈ style.afterColon, isSpace c = true

theorem Style.blank_compact : Style.compact.Blank := by
  refine ⟨fun depth c hc => ?_, fun c hc => ?_⟩
  · cases hc
  · cases hc

theorem Style.blank_pretty : Style.pretty.Blank := by
  refine ⟨fun depth c hc => ?_, fun c hc => ?_⟩
  · rcases List.mem_cons.1 hc with rfl | hc
    · rfl
    · rw [List.eq_of_mem_replicate hc]
      rfl
  · rw [List.mem_singleton.1 hc]
    rfl

/-- A written value takes the machine from before the value to after it. -/
def Reads (style : Style) (v : Value) : Prop :=
  ∀ depth m open_ s, Expects m open_ →
    resume m (write style depth v ++ s) = resume (.after v, open_) s

/-- A word of JSON is one token. -/
theorem resume_word {word : String} {t : Token} {w : Text} (hword : word.toList = c :: w)
    (hc : isSpace c = false) (ht : ∀ s, token? (c :: (w ++ s)) = some (t, s)) :
    resume m (word.toList ++ s) = (step m t).bind fun m => resume m s := by
  rw [hword]
  exact resume_token hc (ht s)

theorem reads_null : Reads style .null := by
  intro depth m open_ s hm
  have spelled : "null".toList = ['n', 'u', 'l', 'l'] := by decide
  rw [write, resume_word spelled rfl fun s => rfl, hm _ (fun h => by cases h)]
  rfl

theorem reads_bool (b : Bool) : Reads style (.bool b) := by
  intro depth m open_ s hm
  cases b with
  | true =>
    have spelled : "true".toList = ['t', 'r', 'u', 'e'] := by decide
    rw [write, resume_word spelled rfl fun s => rfl, hm _ (fun h => by cases h)]
    rfl
  | false =>
    have spelled : "false".toList = ['f', 'a', 'l', 's', 'e'] := by decide
    rw [write, resume_word spelled rfl fun s => rfl, hm _ (fun h => by cases h)]
    rfl

theorem reads_string (text : Option Text) : Reads style (.string text) := by
  intro depth m open_ s hm
  rw [write, resume_writeString, hm _ (fun h => by cases h)]
  rfl

/-- What the machine does with an entry: it keeps the key until the value is there. -/
theorem resume_entry (hstyle : style.Blank) {state : State} {before : List (Option Text × Value)}
    {key : Option Text} {v : Value} (hv : Reads style v) (depth : Nat) (rest : Text)
    (hkey : step (state, open_) (.string key) = some (.colon before key, open_)) :
    resume (state, open_)
        (writeString key ++ ':' :: (style.afterColon ++ (write style depth v ++ rest))) =
      resume (.after v, .object before key :: open_) rest := by
  rw [resume_writeString, hkey, Option.bind_some, resume_token rfl rfl]
  show resume (.value, .object before key :: open_) _ = _
  rw [resume_spaces hstyle.afterColon, hv depth _ _ rest expects_value]

/-- The rest of an array, its end included. -/
theorem resume_items (hstyle : style.Blank) {items : List Value}
    (hitems : ∀ v ∈ items, Reads style v) (depth depth' : Nat) (v : Value) (before : List Value) :
    resume (.after v, .array before :: open_)
        (writeItems style depth items ++ (style.lineBreak depth' ++ ']' :: s)) =
      resume (.after (.array ((v :: before).reverse ++ items)), open_) s := by
  induction items generalizing v before with
  | nil =>
    rw [writeItems, List.nil_append, resume_spaces (hstyle.lineBreak depth'), List.append_nil,
      resume_token rfl rfl]
    rfl
  | cons w items ih =>
    have ih := ih (fun v hv => hitems v (List.mem_cons_of_mem _ hv)) w (v :: before)
    rw [writeItems, List.cons_append, resume_token rfl rfl]
    show resume (.value, .array (v :: before) :: open_) _ = _
    rw [List.append_assoc, List.append_assoc, resume_spaces (hstyle.lineBreak depth),
      hitems w List.mem_cons_self depth _ _ _ expects_value, ih, List.reverse_cons (a := w),
      List.append_assoc]
    rfl

theorem reads_array (hstyle : style.Blank) {items : List Value}
    (hitems : ∀ v ∈ items, Reads style v) : Reads style (.array items) := by
  intro depth m open_ s hm
  have opened : step m .openBracket = some (.arrayStart, open_) := hm _ (fun h => by cases h)
  cases items with
  | nil =>
    rw [write]
    show resume m ('[' :: ']' :: s) = _
    rw [resume_token rfl rfl, opened, Option.bind_some, resume_token rfl rfl]
    rfl
  | cons v items =>
    have opens : write style depth (.array (v :: items)) ++ s =
        '[' :: (style.lineBreak (depth + 1) ++ (write style (depth + 1) v ++
          (writeItems style (depth + 1) items ++ (style.lineBreak depth ++ ']' :: s)))) := by
      rw [write]
      simp only [List.cons_append, List.append_assoc, List.nil_append]
    rw [opens, resume_token rfl rfl, opened, Option.bind_some,
      resume_spaces (hstyle.lineBreak (depth + 1)),
      hitems v List.mem_cons_self (depth + 1) _ _ _ expects_arrayStart,
      resume_items hstyle (fun v hv => hitems v (List.mem_cons_of_mem _ hv))]
    rfl

/-- The rest of an object, its end included. -/
theorem resume_entries (hstyle : style.Blank) {entries : List (Option Text × Value)}
    (hentries : ∀ e ∈ entries, Reads style e.2) (depth depth' : Nat) (v : Value)
    (key : Option Text) (before : List (Option Text × Value)) :
    resume (.after v, .object before key :: open_)
        (writeEntries style depth entries ++ (style.lineBreak depth' ++ '}' :: s)) =
      resume (.after (.object (((key, v) :: before).reverse ++ entries)), open_) s := by
  induction entries generalizing v key before with
  | nil =>
    rw [writeEntries, List.nil_append, resume_spaces (hstyle.lineBreak depth'), List.append_nil,
      resume_token rfl rfl]
    rfl
  | cons e entries ih =>
    obtain ⟨key', w⟩ := e
    have ih := ih (fun e he => hentries e (List.mem_cons_of_mem _ he)) w key' ((key, v) :: before)
    have entry : writeEntries style depth ((key', w) :: entries) ++
          (style.lineBreak depth' ++ '}' :: s) =
        ',' :: (style.lineBreak depth ++ (writeString key' ++ ':' :: (style.afterColon ++
          (write style depth w ++ (writeEntries style depth entries ++
            (style.lineBreak depth' ++ '}' :: s)))))) := by
      rw [writeEntries]
      simp only [List.cons_append, List.append_assoc]
    rw [entry, resume_token rfl rfl]
    show resume (.key ((key, v) :: before), open_) _ = _
    rw [resume_spaces (hstyle.lineBreak depth),
      resume_entry hstyle (hentries _ List.mem_cons_self) depth _ rfl, ih,
      List.reverse_cons (a := (key', w)), List.append_assoc]
    rfl

theorem reads_object (hstyle : style.Blank) {entries : List (Option Text × Value)}
    (hentries : ∀ e ∈ entries, Reads style e.2) : Reads style (.object entries) := by
  intro depth m open_ s hm
  have opened : step m .openBrace = some (.objectStart, open_) := hm _ (fun h => by cases h)
  cases entries with
  | nil =>
    have empty : write style depth (.object []) ++ s = '{' :: '}' :: s := by
      rw [write]
      rfl
    rw [empty, resume_token rfl rfl, opened, Option.bind_some, resume_token rfl rfl]
    rfl
  | cons e entries =>
    obtain ⟨key, v⟩ := e
    have opens : write style depth (.object ((key, v) :: entries)) ++ s =
        '{' :: (style.lineBreak (depth + 1) ++ (writeString key ++ ':' :: (style.afterColon ++
          (write style (depth + 1) v ++ (writeEntries style (depth + 1) entries ++
            (style.lineBreak depth ++ '}' :: s)))))) := by
      rw [write]
      simp only [List.cons_append, List.append_assoc, List.nil_append]
    rw [opens, resume_token rfl rfl, opened, Option.bind_some,
      resume_spaces (hstyle.lineBreak (depth + 1)),
      resume_entry hstyle (hentries _ List.mem_cons_self) (depth + 1) _ rfl,
      resume_entries hstyle (fun e he => hentries e (List.mem_cons_of_mem _ he))]
    rfl

/-! ## Values without numbers -/

/-- No number occurs in the value. -/
inductive Value.NumberFree : Value → Prop where
  | null : NumberFree .null
  | bool (b : Bool) : NumberFree (.bool b)
  | string (text : Option Text) : NumberFree (.string text)
  | array {items : List Value} (free : ∀ v ∈ items, NumberFree v) : NumberFree (.array items)
  | object {entries : List (Option Text × Value)} (free : ∀ e ∈ entries, NumberFree e.2) :
    NumberFree (.object entries)

theorem reads_of_numberFree (hstyle : style.Blank) {v : Value} (h : v.NumberFree) :
    Reads style v := by
  induction h with
  | null => exact reads_null
  | bool b => exact reads_bool b
  | string text => exact reads_string text
  | array _ ih => exact reads_array hstyle ih
  | object _ ih => exact reads_object hstyle ih

/-- The text of a value without numbers spells this value, on one line or spread out. -/
theorem read?_text (hstyle : style.Blank) {v : Value} (h : v.NumberFree) :
    Value.read? (v.text style) = some v := by
  have all : resume (.value, []) (v.text style) = some (.after v, []) := by
    have reads := reads_of_numberFree hstyle h 0 (.value, []) [] [] expects_value
    rw [List.append_nil] at reads
    rw [Value.text, reads, resume, tokens?_eq]
    rfl
  obtain ⟨ts, hts, hsteps⟩ := Option.bind_eq_some_iff.1 all
  unfold Value.read? Value.ofTokens?
  rw [hts, Option.bind_some, hsteps]

end Lineage.Json
