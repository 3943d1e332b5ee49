import Lineage.Proofs.Assembly.Placement
import Lineage.Proofs.TypeTable.Runs

/-!
# A recovery depends on the bodies of its sections only

A dump is read by section. A reader gets the body of its section and the number of the line before
it, and that number goes into faults only. So two dumps with the same bodies give the same result,
in whatever order their sections stand and whatever else is in them.

Outcomes are compared by `unplaced`, which leaves out line numbers, and what reports to a journal
by `SameReport`, which also compares the warnings. Every step of a recovery keeps them equal.

Each section has its own loop, and each loop is run twice, from two line numbers, over the same
lines. The induction is on these lines. Two things carry a line number along besides faults: a
section header that is being put together remembers the line where it began, and so the two loops
may hold drafts that differ in it; a record is read by loops of its own, which have been compared
already (`Record.alike_read`).

From the symbols on, nothing knows about lines any more. The later stages are the same work on the
same data, and only their warnings remain to be compared.

Main result: `Recovery.run_depends_on_bodies`.
-/

namespace Lineage

variable {d d' : Dump} {s : Dump.Section}

/-! ## Entering -/

/-- Where the bodies are the same, two cursors enter before the same lines, or neither dump has the
section. -/
theorem Dump.enter_eq_of_body?_eq (h : d.body? s = d'.body? s) :
    (d.enter s = .error (.sectionMissing s) ∧ d'.enter s = .error (.sectionMissing s)) ∨
      ∃ n n' body, d.enter s = .ok ⟨n, body⟩ ∧ d'.enter s = .ok ⟨n', body⟩ := by
  cases hbody : d.body? s with
  | none => exact .inl ⟨enter_of_body?_eq_none hbody, enter_of_body?_eq_none (h ▸ hbody)⟩
  | some body =>
    obtain ⟨n, henter⟩ := enter_of_body? hbody
    obtain ⟨n', henter'⟩ := enter_of_body? (h ▸ hbody)
    exact .inr ⟨n, n', body, henter, henter'⟩

/-- A section is there if it has a body, though this may be empty. -/
theorem Dump.hasSection_eq_of_body?_eq (h : d.body? s = d'.body? s) :
    d.hasSection s = d'.hasSection s := by
  rw [← body?_isSome, h, body?_isSome]

/-! ## Type records -/

/-- The next record is found in the lines that are left, whatever their numbers. -/
theorem Cursor.nextRecord_of_rest_eq {c c' : Cursor} (h : c.rest = c'.rest) :
    c.nextRecord.1 = c'.nextRecord.1 ∧ c.nextRecord.2.rest = c'.nextRecord.2.rest := by
  obtain ⟨n, rest⟩ := c
  obtain ⟨n', rest'⟩ := c'
  obtain rfl : rest = rest' := h
  simp only [nextRecord, skip, peek?, advance, true_and]
  cases (rest.dropWhile fun l => !l.allBlank).dropWhile Text.allBlank <;> rfl

namespace TypeTable

/-- The line number of a record is used for its fault only. -/
theorem unplaced_insert (t : TypeTable) (r : TypeRecord) (n n' : Nat) :
    unplaced (t.insert r n) = unplaced (t.insert r n') := by
  unfold insert
  split <;> rfl

/-- What is read from a section does not depend on where it stands. -/
theorem unplaced_readFrom {t : TypeTable} {c c' : Cursor} (h : c.rest = c'.rest) :
    unplaced (readFrom t c) = unplaced (readFrom t c') := by
  induction hn : c.rest.length using Nat.strongRecOn generalizing t c c' with
  | _ n ih =>
    obtain ⟨hheader, hrest⟩ := Cursor.nextRecord_of_rest_eq h
    rcases hnext : c.nextRecord with ⟨header?, e⟩
    rcases hnext' : c'.nextRecord with ⟨header?', e'⟩
    rw [hnext, hnext'] at hheader hrest
    obtain rfl : header? = header?' := hheader
    have hrest : e.rest = e'.rest := hrest
    cases header? with
    | none => rw [readFrom_of_nextRecord_none hnext, readFrom_of_nextRecord_none hnext']
    | some header =>
      rw [readFrom_of_nextRecord hnext, readFrom_of_nextRecord hnext']
      have hbreak := atBreak_dropWhile e.rest
      have habreast : Abreast (e.rest.dropWhile fun l => !l.allBlank)
          (e.rest.dropWhile fun l => !l.allBlank) e e' := by
        refine ⟨e.rest.takeWhile fun l => !l.allBlank, fun l hl => ?_, ?_, ?_⟩
        · simpa using List.mem_takeWhile_imp hl
        · exact List.takeWhile_append_dropWhile.symm
        · rw [← hrest]
          exact List.takeWhile_append_dropWhile.symm
      have houtcome := Record.alike_read hbreak hbreak header e e' habreast
      have hforward := (Record.before_read header e).length_le
      generalize (Record.read header).run e = r at houtcome hforward
      generalize (Record.read header).run e' = r' at houtcome
      cases houtcome with
      | error he => exact congrArg Except.error (he rfl)
      | @ok o f f' hf =>
        have hlt : f.rest.length < n := by
          rw [← hn]
          exact Nat.lt_of_le_of_lt hforward (Cursor.nextRecord_length_lt hnext)
        have hff' : f.rest = f'.rest := by
          obtain ⟨block, _, hleft, hleft'⟩ := hf
          rw [hleft, hleft']
        cases o with
        | none => exact ih _ hlt hff' rfl
        | some r =>
          dsimp only
          rcases unplaced_eq_iff.1 (unplaced_insert t r e.line e'.line) with
            ⟨t', ht, ht'⟩ | ⟨g, g', ht, ht', hg⟩
          · rw [ht, ht']
            exact ih _ hlt hff' rfl
          · rw [ht, ht']
            exact congrArg Except.error hg

/-- The type table, or the fault without its line. -/
theorem unplaced_ofDump (h : d.body? .types = d'.body? .types) :
    unplaced (ofDump d) = unplaced (ofDump d') := by
  rw [ofDump_eq, ofDump_eq]
  rcases Dump.enter_eq_of_body?_eq h with ⟨he, he'⟩ | ⟨n, n', body, he, he'⟩
  · rw [he, he']
  · rw [he, he']
    exact unplaced_readFrom rfl

end TypeTable

/-! ## Section headers -/

namespace Image

/-- The draft without the number of the line that opened it. -/
def HeaderDraft.unplaced (a : HeaderDraft) : HeaderDraft := { a with lineNumber := 0 }

/-- Outcomes that are the same up to line numbers, also of the drafts. -/
theorem unplaced_bind_of_map {α : Type} {x y : Except Fault HeaderDraft}
    {f g : HeaderDraft → Except Fault α}
    (h : Lineage.unplaced (x.map HeaderDraft.unplaced) =
      Lineage.unplaced (y.map HeaderDraft.unplaced))
    (hf : ∀ a b, a.unplaced = b.unplaced → Lineage.unplaced (f a) = Lineage.unplaced (g b)) :
    Lineage.unplaced (x >>= f) = Lineage.unplaced (y >>= g) := by
  cases x with
  | error e =>
    cases y with
    | error e' => exact congrArg Except.error (Except.error.inj h)
    | ok b => cases h
  | ok a =>
    cases y with
    | error e' => cases h
    | ok b => exact hf a b (Except.ok.inj h)

/-- Two drafts that differ in the lines of their headers come to the same header. -/
theorem unplaced_finish {a b : HeaderDraft} (h : a.unplaced = b.unplaced) :
    unplaced a.finish = unplaced b.finish := by
  obtain ⟨number, n, name, size, address⟩ := a
  obtain ⟨number', n', name', size', address'⟩ := b
  cases h
  cases address <;> rfl

theorem unplaced_leadingNumber (line ending : Text) (n n' : Nat) :
    unplaced (HeaderDraft.leadingNumber line ending n) =
      unplaced (HeaderDraft.leadingNumber line ending n') := by
  unfold HeaderDraft.leadingNumber
  split <;> rfl

/-- A number goes into drafts that are the same up to line numbers. -/
theorem unplaced_set {x y : Except Fault UInt64} {f g : UInt64 → HeaderDraft}
    (h : Lineage.unplaced x = Lineage.unplaced y) (hf : ∀ v, (f v).unplaced = (g v).unplaced) :
    Lineage.unplaced ((do return f (← x) : Except Fault HeaderDraft).map HeaderDraft.unplaced) =
      Lineage.unplaced
        ((do return g (← y) : Except Fault HeaderDraft).map HeaderDraft.unplaced) := by
  rcases unplaced_eq_iff.1 h with ⟨v, rfl, rfl⟩ | ⟨e, e', rfl, rfl, he⟩
  · exact congrArg Except.ok (hf v)
  · exact congrArg Except.error he

/-- A line says the same about a draft wherever it stands. -/
theorem unplaced_draftRead {a b : HeaderDraft} (h : a.unplaced = b.unplaced) (line : Text)
    (n n' : Nat) : unplaced ((a.read line n).map HeaderDraft.unplaced) =
      unplaced ((b.read line n').map HeaderDraft.unplaced) := by
  obtain ⟨number, m, name, size, address⟩ := a
  obtain ⟨number', m', name', size', address'⟩ := b
  cases h
  unfold HeaderDraft.read
  dsimp only
  split
  next => exact unplaced_set (unplaced_leadingNumber line addressEnding n n') fun _ => rfl
  next =>
    split
    next => exact unplaced_set (unplaced_leadingNumber line sizeEnding n n') fun _ => rfl
    next => split <;> rfl

theorem unplaced_openHeader (number line : Text) (n n' : Nat) :
    unplaced ((openHeader number line n).map HeaderDraft.unplaced) =
      unplaced ((openHeader number line n').map HeaderDraft.unplaced) := by
  unfold openHeader
  split
  next => split <;> rfl
  next => rfl

/-- Either no header is open, or drafts are that are the same up to line numbers. -/
theorem of_map_unplaced_eq {open? open?' : Option HeaderDraft}
    (h : open?.map HeaderDraft.unplaced = open?'.map HeaderDraft.unplaced) :
    (open? = none ∧ open?' = none) ∨
      ∃ a b, open? = some a ∧ open?' = some b ∧ a.unplaced = b.unplaced := by
  cases open? with
  | none =>
    cases open?' with
    | none => exact .inl ⟨rfl, rfl⟩
    | some b => cases h
  | some a =>
    cases open?' with
    | none => cases h
    | some b => exact .inr ⟨a, b, rfl, rfl, Option.some.inj h⟩

/-- The loop over the lines of the section, with drafts that differ in their line. -/
theorem unplaced_readHeaders {open? open?' : Option HeaderDraft}
    (h : open?.map HeaderDraft.unplaced = open?'.map HeaderDraft.unplaced) (n n' : Nat)
    (lines : List Text) :
    unplaced (readHeaders open? n lines) = unplaced (readHeaders open?' n' lines) := by
  induction lines generalizing open? open?' n n' with
  | nil =>
    rcases of_map_unplaced_eq h with ⟨rfl, rfl⟩ | ⟨a, b, rfl, rfl, hab⟩
    · rfl
    · exact unplaced_bind (unplaced_finish hab) fun _ => rfl
  | cons line rest ih =>
    have goOn : ∀ a b : HeaderDraft, a.unplaced = b.unplaced →
        unplaced (readHeaders (some a) (n + 1) rest) =
          unplaced (readHeaders (some b) (n' + 1) rest) :=
      fun a b hab => @ih (some a) (some b) (congrArg some hab) (n + 1) (n' + 1)
    unfold readHeaders
    rcases of_map_unplaced_eq h with ⟨rfl, rfl⟩ | ⟨a, b, rfl, rfl, hab⟩
    · cases headerIntro.isPrefixOf? line.trim with
      | none => exact ih rfl (n + 1) (n' + 1)
      | some number => exact unplaced_bind_of_map (unplaced_openHeader number line _ _) goOn
    · cases headerIntro.isPrefixOf? line.trim with
      | none => exact unplaced_bind_of_map (unplaced_draftRead hab _ _ _) goOn
      | some number =>
        refine unplaced_bind (unplaced_finish hab) fun header => ?_
        refine unplaced_bind_of_map (unplaced_openHeader number line _ _) fun a b hab => ?_
        exact unplaced_bind (goOn a b hab) fun _ => rfl

/-- The layout of the image, or the fault without its line. -/
theorem unplaced_layoutOfDump (h : d.body? .sectionHeaders = d'.body? .sectionHeaders)
    (imageBase : UInt64) :
    unplaced (Layout.ofDump d imageBase) = unplaced (Layout.ofDump d' imageBase) := by
  rw [Layout.ofDump, Layout.ofDump, Dump.hasSection_eq_of_body?_eq h]
  split
  next =>
    refine unplaced_bind ?_ fun _ => rfl
    rw [headersOf_eq, headersOf_eq]
    rcases Dump.enter_eq_of_body?_eq h with ⟨he, he'⟩ | ⟨n, n', body, he, he'⟩
    · rw [he, he']
    · rw [he, he']
      exact unplaced_readHeaders rfl n n' body
  next => rfl

/-- A place has the same address wherever it is asked for. -/
theorem unplaced_resolve (layout : Layout) (number : UInt16) (offset : UInt64) (line : Text)
    (n n' : Nat) : unplaced (layout.resolve number offset n line) =
      unplaced (layout.resolve number offset n' line) := by
  unfold Layout.resolve
  split
  next => rfl
  next =>
    split
    next => rfl
    next => split <;> rfl

end Image

/-! ## Symbols -/

namespace Symbol

variable {layout : Image.Layout}

theorem unplaced_address (p : Place) (line : Text) (n n' : Nat) :
    unplaced (p.address layout n line) = unplaced (p.address layout n' line) := by
  unfold Place.address
  split
  next => rfl
  next =>
    split
    next => rfl
    next => exact Image.unplaced_resolve layout _ _ line n n'

/-- A procedure is read from its line alone. -/
theorem unplaced_readProcedure (line : Text) (n n' : Nat) :
    unplaced (readProcedure line n layout) = unplaced (readProcedure line n' layout) := by
  unfold readProcedure
  split
  next => rfl
  next => exact unplaced_bind (unplaced_address _ line n n') fun _ => rfl

theorem unplaced_readPublic (line : Text) (n n' : Nat) :
    unplaced (readPublic line n layout) = unplaced (readPublic line n' layout) := by
  unfold readPublic
  split
  next => rfl
  next => exact unplaced_bind (unplaced_address _ line n n') fun _ => rfl

/-- The loop over lines as going on with one line, so that it can be compared step by step. -/
theorem readProcedures_cons (ps : List Procedure) (n : Nat) (line : Text) (rest : List Text) :
    readProcedures layout ps n (line :: rest) =
      if RecordKind.ofLine line = .procedure then
        readProcedure line (n + 1) layout >>= fun p =>
          readProcedures layout (addProcedure ps p) (n + 1) rest
      else readProcedures layout ps (n + 1) rest := by
  rw [readProcedures]
  split
  next => cases readProcedure line (n + 1) layout <;> rfl
  next => rfl

/-- The loop over lines as going on with one line, so that it can be compared step by step. -/
theorem readPublics_cons (done : List PublicSymbol) (n : Nat) (line : Text) (rest : List Text) :
    readPublics layout done n (line :: rest) =
      if line.mentions publicTag then
        readPublic line (n + 1) layout >>= fun p => readPublics layout (p :: done) (n + 1) rest
      else readPublics layout done (n + 1) rest := by
  rw [readPublics]
  split
  next => cases readPublic line (n + 1) layout <;> rfl
  next => rfl

/-- The loop over the lines of one section, counted from two places. -/
theorem unplaced_readProcedures (ps : List Procedure) (n n' : Nat) (lines : List Text) :
    unplaced (readProcedures layout ps n lines) = unplaced (readProcedures layout ps n' lines) := by
  induction lines generalizing ps n n' with
  | nil => rfl
  | cons line rest ih =>
    rw [readProcedures_cons, readProcedures_cons]
    split
    next => exact unplaced_bind (unplaced_readProcedure line _ _) fun p => ih _ (n + 1) (n' + 1)
    next => exact ih ps (n + 1) (n' + 1)

theorem unplaced_readPublics (done : List PublicSymbol) (n n' : Nat) (lines : List Text) :
    unplaced (readPublics layout done n lines) = unplaced (readPublics layout done n' lines) := by
  induction lines generalizing done n n' with
  | nil => rfl
  | cons line rest ih =>
    rw [readPublics_cons, readPublics_cons]
    split
    next => exact unplaced_bind (unplaced_readPublic line _ _) fun p => ih _ (n + 1) (n' + 1)
    next => exact ih done (n + 1) (n' + 1)

/-- A loop whose steps are equal up to line numbers. -/
theorem unplaced_foldlM {α β : Type} {f g : β → α → Except Fault β} {xs : List α}
    (h : ∀ x ∈ xs, ∀ b, unplaced (f b x) = unplaced (g b x)) (b : β) :
    unplaced (xs.foldlM f b) = unplaced (xs.foldlM g b) := by
  induction xs generalizing b with
  | nil => rfl
  | cons x xs ih =>
    rw [List.foldlM_cons, List.foldlM_cons]
    refine unplaced_bind (h x List.mem_cons_self b) fun b => ?_
    exact ih (fun x hx => h x (List.mem_cons_of_mem _ hx)) b

/-- Procedures are read from the bodies of two sections. -/
theorem unplaced_proceduresOf (hsymbols : d.body? .symbols = d'.body? .symbols)
    (hglobals : d.body? .globals = d'.body? .globals) :
    unplaced (proceduresOf d layout) = unplaced (proceduresOf d' layout) := by
  refine unplaced_foldlM (fun s hs ps => ?_) []
  have hbody : d.body? s = d'.body? s := by
    rcases List.mem_cons.1 hs with rfl | hs
    · exact hsymbols
    · obtain rfl := List.mem_singleton.1 hs
      exact hglobals
  rw [readProcedureSection_eq, readProcedureSection_eq]
  rcases Dump.enter_eq_of_body?_eq hbody with ⟨he, he'⟩ | ⟨n, n', body, he, he'⟩
  · rw [he, he']
  · rw [he, he']
    exact unplaced_readProcedures ps n n' body

/-- Public symbols are read from the body of one section. -/
theorem unplaced_publicsOf (h : d.body? .publics = d'.body? .publics) :
    unplaced (publicsOf d layout) = unplaced (publicsOf d' layout) := by
  rw [publicsOf_eq, publicsOf_eq]
  rcases Dump.enter_eq_of_body?_eq h with ⟨he, he'⟩ | ⟨n, n', body, he, he'⟩
  · rw [he, he']
  · rw [he, he']
    exact unplaced_readPublics [] n n' body

end Symbol

/-! ## Work that reports -/

/-- Work that comes to the same, up to line numbers, with the same warnings. What it reports of its
stages may differ. -/
def SameReport {α : Type} (x y : Reported α) : Prop :=
  ∀ j j' : Journal, j.warnings = j'.warnings →
    unplaced (x.run j).1 = unplaced (y.run j').1 ∧ (x.run j).2.warnings = (y.run j').2.warnings

section Reports

variable {α β : Type}

theorem sameReport_pure (a : α) : SameReport (pure a) (pure a) :=
  fun _ _ hj => ⟨rfl, hj⟩

/-- Work that goes on with the same result and the same warnings ends with the same. -/
theorem sameReport_bind {x y : Reported α} {f g : α → Reported β} (h : SameReport x y)
    (hf : ∀ a, SameReport (f a) (g a)) : SameReport (x >>= f) (y >>= g) := by
  intro j j' hj
  obtain ⟨hout, hwarn⟩ := h j j' hj
  rw [Reported.run_bind, Reported.run_bind]
  generalize x.run j = r at hout hwarn
  generalize y.run j' = r' at hout hwarn
  obtain ⟨o, i⟩ := r
  obtain ⟨o', i'⟩ := r'
  rcases unplaced_eq_iff.1 hout with ⟨a, rfl, rfl⟩ | ⟨e, e', rfl, rfl, he⟩
  · exact hf a i i' hwarn
  · exact ⟨congrArg Except.error he, hwarn⟩

/-- Work that reports nothing is compared by its outcome. -/
theorem sameReport_ofExcept {x y : Except Fault α} (h : unplaced x = unplaced y) :
    SameReport (.ofExcept x) (.ofExcept y) :=
  fun _ _ hj => ⟨h, hj⟩

/-- Two notes need not be the same: only warnings are compared, and a note is none. -/
theorem sameReport_note (e e' : Event) : SameReport (.note e) (.note e') :=
  fun _ _ hj => ⟨rfl, hj⟩

theorem sameReport_warnIf (condition : Bool) (w : Warning) :
    SameReport (.warnIf condition w) (.warnIf condition w) := by
  intro j j' hj
  refine ⟨rfl, ?_⟩
  cases condition with
  | false => exact hj
  | true => exact congrArg (· ++ [w]) hj

end Reports

namespace Recovery

variable {options : Options}

/-- The bodies that a recovery reads are the same. Those of the public symbols count only
if these are used. -/
def SameBodies (options : Options) (d d' : Dump) : Prop :=
  ∀ s, (s = .publics → options.usePublics = true) → d.body? s = d'.body? s

/-- Whether there are types is a matter of the body of their section. -/
theorem sameReport_scan (h : d.body? .types = d'.body? .types) : SameReport (scan d) (scan d') := by
  refine sameReport_bind (sameReport_ofExcept ?_) fun _ => sameReport_note _ _
  rw [Dump.hasSection_eq_of_body?_eq h]

/-- The public symbols are read only if they are used, and only then their section has to be the
same. -/
theorem sameReport_symbols (h : SameBodies options d d') :
    SameReport (Symbol.Tables.ofDump d options.imageBase options.usePublics)
      (Symbol.Tables.ofDump d' options.imageBase options.usePublics) := by
  have hsymbols := h .symbols fun e => by cases e
  have hglobals := h .globals fun e => by cases e
  have hhave : Symbol.Tables.haveProcedures d = Symbol.Tables.haveProcedures d' := by
    simp only [Symbol.Tables.haveProcedures, Symbol.procedureSections, List.any_cons, List.any_nil,
      Dump.hasSection_eq_of_body?_eq hsymbols, Dump.hasSection_eq_of_body?_eq hglobals]
  have hheaders := h .sectionHeaders fun e => by cases e
  refine sameReport_bind
    (sameReport_ofExcept (Image.unplaced_layoutOfDump hheaders _)) fun layout => ?_
  rw [hhave]
  refine sameReport_bind (sameReport_warnIf _ _) fun _ => ?_
  refine sameReport_bind
    (sameReport_ofExcept (Symbol.unplaced_proceduresOf hsymbols hglobals)) fun procedures => ?_
  refine sameReport_bind (sameReport_ofExcept ?_) fun publics => sameReport_pure _
  split
  next hpublics => exact Symbol.unplaced_publicsOf (h .publics fun _ => hpublics)
  next => rfl

/-- The table and the symbols, from bodies that are the same. -/
theorem sameReport_parse (h : SameBodies options d d') :
    SameReport (parse options d) (parse options d') := by
  refine sameReport_bind (sameReport_note _ _) fun _ => ?_
  refine sameReport_bind
    (sameReport_ofExcept (TypeTable.unplaced_ofDump (h .types fun e => by cases e))) fun table => ?_
  refine sameReport_bind (sameReport_symbols h) fun symbols => ?_
  exact sameReport_bind (sameReport_note _ _) fun _ => sameReport_pure _

/-- What comes after parsing does not see the dump. -/
theorem sameReport_resolve (t : TypeTable) (ps : List Procedure) :
    SameReport (resolve t ps) (resolve t ps) := by
  refine sameReport_bind (sameReport_note _ _) fun _ => ?_
  refine sameReport_bind (sameReport_ofExcept rfl) fun r => ?_
  exact sameReport_bind (sameReport_note _ _) fun _ => sameReport_pure _

/-- From here on nothing looks at the dump. -/
theorem sameReport_dedup (t : TypeTable) (r : Resolution) :
    SameReport (dedup t r) (dedup t r) := by
  refine sameReport_bind (sameReport_note _ _) fun _ => ?_
  exact sameReport_bind (sameReport_note _ _) fun _ => sameReport_pure _

theorem sameReport_conclude (r : Recovery) : SameReport (conclude r) (conclude r) := by
  refine sameReport_bind (sameReport_note _ _) fun _ => ?_
  refine sameReport_bind (sameReport_ofExcept rfl) fun classes => ?_
  refine sameReport_bind (sameReport_note _ _) fun _ => ?_
  refine sameReport_bind ?_ fun _ => sameReport_pure _
  exact sameReport_bind (sameReport_warnIf _ _) fun _ => sameReport_pure _

/-- All stages in a row. -/
theorem sameReport_run (h : SameBodies options d d') :
    SameReport (run options d) (run options d') := by
  refine sameReport_bind (sameReport_note _ _) fun _ => ?_
  refine sameReport_bind (sameReport_scan (h .types fun e => by cases e)) fun _ => ?_
  refine sameReport_bind ?_ sameReport_conclude
  refine sameReport_bind (sameReport_parse h) fun parsed => ?_
  refine sameReport_bind (sameReport_resolve parsed.1 parsed.2.procedures) fun r => ?_
  exact sameReport_bind (sameReport_dedup parsed.1 r) fun merged => sameReport_pure _

/-- Two dumps whose sections have the same bodies come to the same. Either both recoveries succeed
with one and the same report, or both fail with the same fault, apart from the number of its line.
They warn of the same. Public symbols count only where they are used. -/
theorem run_depends_on_bodies (h : SameBodies options d d') {j j' : Journal}
    (hj : j.warnings = j'.warnings) :
    (∀ report, ((run options d).run j).1 = .ok report ↔
      ((run options d').run j').1 = .ok report) ∧
    (∀ e, ((run options d).run j).1 = .error e →
      ∃ e', ((run options d').run j').1 = .error e' ∧ e.unplaced = e'.unplaced) ∧
    ((run options d).run j).2.warnings = ((run options d').run j').2.warnings := by
  obtain ⟨hout, hwarn⟩ := sameReport_run h j j' hj
  refine ⟨fun report => ?_, fun e he => ?_, hwarn⟩
  · rw [← unplaced_eq_ok_iff, hout, unplaced_eq_ok_iff]
  · rw [he] at hout
    rcases unplaced_eq_iff.1 hout with ⟨a, ha, _⟩ | ⟨f, f', hf, hf', hff⟩
    · cases ha
    · exact ⟨f', hf', Except.error.inj hf ▸ hff⟩

/-- The dump of two units with its sections in another order, with other text between them, and with
public symbols that cannot be read. -/
def shuffledDump : Dump := ⟨[
  "a line of text",
  "*** PUBLICS",
  "S_PUB32 and nothing that could be read",
  "*** SECTION HEADERS",
  "SECTION HEADER #1",
  ".text name",
  "1000 virtual size",
  "1000 virtual address",
  "*** SYMBOLS",
  "S_GPROC32: [0001:00001010], Cb: 0000001A, Type: 0x1003, A::Run",
  "",
  "*** MODULES"].map String.toList ++ twoUnitsDump.lines.take 16⟩

/-- Without public symbols the shuffled dump gives what the dump of two units gives. -/
theorem run_depends_on_bodies_shuffled :
    SameBodies ⟨0x400000, false⟩ twoUnitsDump shuffledDump ∧
    ∃ report, ((run ⟨0x400000, false⟩ twoUnitsDump).run .empty).1 = .ok report ∧
      ((run ⟨0x400000, false⟩ shuffledDump).run .empty).1 = .ok report := by
  have same : SameBodies ⟨0x400000, false⟩ twoUnitsDump shuffledDump := by
    intro s hs
    cases s with
    | publics => exact absurd (hs rfl) Bool.false_ne_true
    | types => decide
    | sectionHeaders => decide
    | symbols => decide
    | globals => decide
  have succeeds : (match ((run ⟨0x400000, false⟩ twoUnitsDump).run .empty).1 with
      | .ok _ => true
      | .error _ => false) = true := by
    decide +kernel
  split at succeeds
  next report hrun => exact ⟨same, report, hrun, ((run_depends_on_bodies same rfl).1 report).1 hrun⟩
  next => cases succeeds

end Recovery
end Lineage
