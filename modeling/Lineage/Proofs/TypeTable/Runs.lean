import Lineage.Proofs.Record.Parallel
import Lineage.Proofs.TypeTable.View
import Mathlib.Data.List.TakeWhile

/-!
# The table is read record by record

Blank lines cut the body of a section into runs of visible lines. A record is such a run. The
first piece of the body is none, since no blank line comes before it; it is what stands right behind
the banner.

The readers of records stop at different places of their runs, and the search for the next record
goes on from there. It always finds the start of the next run (`recordRuns_of_nextRecord`), and the
cursor then has the number of its first line (`numberedRuns_of_nextRecord`). What a reader finds in
a run is what it would find if the run was all there is (`Record.alike_read`). So the table is the
list of what the runs give, each taken alone.

Main result: `reads_record_by_record`.
-/

namespace Lineage

/-! ## Runs of visible lines -/

/-- All runs of visible lines, in order. -/
def visibleRuns (lines : List Text) : List (List Text) :=
  (lines.splitOnP Text.allBlank).filter fun run => !run.isEmpty

/-- The runs of visible lines that have a blank line before them. -/
def recordRuns (lines : List Text) : List (List Text) :=
  (lines.splitOnP Text.allBlank).tail.filter fun run => !run.isEmpty

/-- Pieces between blank lines, each with the number of its first line, behind `n` other lines. -/
def numberPieces (n : Nat) : List (List Text) → List (Nat × List Text)
  | [] => []
  | piece :: pieces => (n + 1, piece) :: numberPieces (n + piece.length + 1) pieces

/-- All runs of visible lines behind `n` other lines. -/
def numberedVisibleRuns (n : Nat) (lines : List Text) : List (Nat × List Text) :=
  (numberPieces n (lines.splitOnP Text.allBlank)).filter fun run => !run.2.isEmpty

/-- The runs of visible lines that have a blank line before them. -/
def numberedRuns (n : Nat) (lines : List Text) : List (Nat × List Text) :=
  (numberPieces n (lines.splitOnP Text.allBlank)).tail.filter fun run => !run.2.isEmpty

theorem atBreak_dropWhile (lines : List Text) :
    AtBreak (lines.dropWhile fun l => !l.allBlank) := by
  intro l hl
  have := List.head?_dropWhile_not (fun l : Text => !l.allBlank) lines
  rw [hl] at this
  simpa using this

section Runs

variable {n : Nat} {l : Text} {lines block : List Text}

/-- The first piece goes up to the first blank line. -/
theorem splitOnP_eq_cons (lines : List Text) :
    lines.splitOnP Text.allBlank =
      lines.takeWhile (fun l => !l.allBlank) :: (lines.splitOnP Text.allBlank).tail := by
  induction lines with
  | nil => rfl
  | cons l lines ih =>
    rw [List.splitOnP_cons_eq_if_modifyHead]
    cases h : l.allBlank with
    | true =>
      rw [List.takeWhile_cons_of_neg (by rw [h]; exact Bool.false_ne_true)]
      rfl
    | false =>
      rw [List.takeWhile_cons_of_pos (by rw [h]; rfl), if_neg Bool.false_ne_true, ih]
      rfl

theorem map_snd_numberPieces (n : Nat) (pieces : List (List Text)) :
    (numberPieces n pieces).map Prod.snd = pieces := by
  induction pieces generalizing n with
  | nil => rfl
  | cons piece pieces ih => rw [numberPieces, List.map_cons, ih]

/-- Without their numbers these are the runs. -/
theorem map_snd_numberedVisibleRuns (n : Nat) (lines : List Text) :
    (numberedVisibleRuns n lines).map Prod.snd = visibleRuns lines := by
  rw [visibleRuns, ← map_snd_numberPieces n (lines.splitOnP Text.allBlank), List.filter_map]
  rfl

theorem map_snd_numberedRuns (n : Nat) (lines : List Text) :
    (numberedRuns n lines).map Prod.snd = recordRuns lines := by
  rw [recordRuns, ← map_snd_numberPieces n (lines.splitOnP Text.allBlank), ← List.map_tail,
    List.filter_map]
  rfl

/-! ### Line by line -/

theorem numberedVisibleRuns_cons_of_blank (h : l.allBlank = true) :
    numberedVisibleRuns n (l :: lines) = numberedVisibleRuns (n + 1) lines := by
  rw [numberedVisibleRuns, List.splitOnP_cons_eq_if_modifyHead, if_pos h]
  rfl

theorem numberedRuns_cons_of_blank (h : l.allBlank = true) :
    numberedRuns n (l :: lines) = numberedVisibleRuns (n + 1) lines := by
  rw [numberedRuns, List.splitOnP_cons_eq_if_modifyHead, if_pos h]
  rfl

theorem numberedVisibleRuns_cons_of_visible (h : l.allBlank = false) :
    numberedVisibleRuns n (l :: lines) =
      (n + 1, l :: lines.takeWhile fun l => !l.allBlank) :: numberedRuns (n + 1) lines := by
  rw [numberedVisibleRuns, numberedRuns, List.splitOnP_cons_eq_if_modifyHead, h,
    if_neg Bool.false_ne_true, splitOnP_eq_cons, List.modifyHead_cons, numberPieces, numberPieces,
    List.length_cons, ← Nat.add_assoc, Nat.add_right_comm n]
  rfl

theorem numberedRuns_cons_of_visible (h : l.allBlank = false) :
    numberedRuns n (l :: lines) = numberedRuns (n + 1) lines := by
  rw [numberedRuns, numberedRuns, List.splitOnP_cons_eq_if_modifyHead, h,
    if_neg Bool.false_ne_true, splitOnP_eq_cons, List.modifyHead_cons, numberPieces, numberPieces,
    List.length_cons, ← Nat.add_assoc, Nat.add_right_comm n]
  rfl

theorem visibleRuns_cons_of_blank (h : l.allBlank = true) :
    visibleRuns (l :: lines) = visibleRuns lines := by
  rw [← map_snd_numberedVisibleRuns 0, numberedVisibleRuns_cons_of_blank h,
    map_snd_numberedVisibleRuns]

theorem visibleRuns_cons_of_visible (h : l.allBlank = false) :
    visibleRuns (l :: lines) =
      (l :: lines.takeWhile fun l => !l.allBlank) :: recordRuns lines := by
  rw [← map_snd_numberedVisibleRuns 0, numberedVisibleRuns_cons_of_visible h, List.map_cons,
    map_snd_numberedRuns]

theorem recordRuns_cons_of_blank (h : l.allBlank = true) :
    recordRuns (l :: lines) = visibleRuns lines := by
  rw [← map_snd_numberedRuns 0, numberedRuns_cons_of_blank h, map_snd_numberedVisibleRuns]

/-- The rest of a run that was begun holds no record. -/
theorem numberedRuns_append_of_visible (h : ∀ l ∈ block, l.allBlank = false) (n : Nat) :
    numberedRuns n (block ++ lines) = numberedRuns (n + block.length) lines := by
  induction block generalizing n with
  | nil => rfl
  | cons l block ih =>
    rw [List.cons_append, numberedRuns_cons_of_visible (h l List.mem_cons_self),
      ih fun m hm => h m (List.mem_cons_of_mem l hm), List.length_cons, Nat.add_assoc,
      Nat.add_comm 1]

theorem recordRuns_append_of_visible (h : ∀ l ∈ block, l.allBlank = false) :
    recordRuns (block ++ lines) = recordRuns lines := by
  rw [← map_snd_numberedRuns 0, numberedRuns_append_of_visible h, map_snd_numberedRuns]

theorem numberedVisibleRuns_append_of_blank (h : ∀ l ∈ block, l.allBlank = true) (n : Nat) :
    numberedVisibleRuns n (block ++ lines) = numberedVisibleRuns (n + block.length) lines := by
  induction block generalizing n with
  | nil => rfl
  | cons l block ih =>
    rw [List.cons_append, numberedVisibleRuns_cons_of_blank (h l List.mem_cons_self),
      ih fun m hm => h m (List.mem_cons_of_mem l hm), List.length_cons, Nat.add_assoc,
      Nat.add_comm 1]

/-- Where no run goes on, all runs are still to come. -/
theorem numberedRuns_atBreak (h : AtBreak lines) (n : Nat) :
    numberedRuns n lines = numberedVisibleRuns n lines := by
  cases lines with
  | nil => rfl
  | cons l lines =>
    rw [numberedRuns_cons_of_blank (h l rfl), numberedVisibleRuns_cons_of_blank (h l rfl)]

theorem mem_of_mem_splitOnP {run : List Text} (h : run ∈ lines.splitOnP Text.allBlank) :
    ∀ l ∈ run, l ∈ lines ∧ l.allBlank = false := by
  induction lines generalizing run with
  | nil =>
    obtain rfl : run = [] := by simpa using h
    exact fun l hl => absurd hl List.not_mem_nil
  | cons m lines ih =>
    have later : ∀ run ∈ lines.splitOnP Text.allBlank, ∀ l ∈ run,
        l ∈ m :: lines ∧ l.allBlank = false :=
      fun run hrun l hl => ⟨List.mem_cons_of_mem m (ih hrun l hl).1, (ih hrun l hl).2⟩
    rw [List.splitOnP_cons_eq_if_modifyHead] at h
    split at h
    next =>
      rcases List.mem_cons.1 h with rfl | h
      · exact fun l hl => absurd hl List.not_mem_nil
      · exact later run h
    next hm =>
      rw [splitOnP_eq_cons] at h later
      rcases List.mem_cons.1 h with rfl | h
      · intro l hl
        rcases List.mem_cons.1 hl with rfl | hl
        · exact ⟨List.mem_cons_self, by simpa using hm⟩
        · exact later _ List.mem_cons_self l hl
      · exact later run (List.mem_cons_of_mem _ h)

/-- A run has lines, which are visible lines of the section. -/
theorem of_mem_recordRuns {run : List Text} (h : run ∈ recordRuns lines) :
    run ≠ [] ∧ ∀ l ∈ run, l ∈ lines ∧ l.allBlank = false := by
  obtain ⟨hrun, hne⟩ := List.mem_filter.1 h
  refine ⟨fun hnil => ?_, mem_of_mem_splitOnP (List.mem_of_mem_tail hrun)⟩
  rw [hnil] at hne
  cases hne

/-! ### The next run -/

/-- Behind what is skipped on the way to the next record, all runs are still to come. -/
theorem numberedRuns_skip (c : Cursor) :
    numberedRuns c.line c.rest =
      numberedVisibleRuns ((c.skip fun l => !l.allBlank).skip Text.allBlank).line
        ((c.skip fun l => !l.allBlank).skip Text.allBlank).rest := by
  show _ = numberedVisibleRuns (c.line + (c.rest.takeWhile fun l => !l.allBlank).length +
    ((c.rest.dropWhile fun l => !l.allBlank).takeWhile Text.allBlank).length)
      ((c.rest.dropWhile fun l => !l.allBlank).dropWhile Text.allBlank)
  rw [← numberedVisibleRuns_append_of_blank fun l hl => List.mem_takeWhile_imp hl,
    List.takeWhile_append_dropWhile, ← numberedRuns_atBreak (atBreak_dropWhile c.rest),
    ← numberedRuns_append_of_visible fun l hl => by simpa using List.mem_takeWhile_imp hl,
    List.takeWhile_append_dropWhile]

/-- The next record is the next run, with the number that the cursor then has, and the runs after
it are still to come. -/
theorem numberedRuns_of_nextRecord {c d : Cursor} {header? : Option Text}
    (h : c.nextRecord = (header?, d)) :
    (header? = none ∧ numberedRuns c.line c.rest = []) ∨
      ∃ header, header? = some header ∧ header.allBlank = false ∧
        numberedRuns c.line c.rest =
          (d.line, header :: d.rest.takeWhile fun l => !l.allBlank) ::
            numberedRuns d.line d.rest := by
  have visible : ∀ l ∈ ((c.skip fun l => !l.allBlank).skip Text.allBlank).rest.head?,
      l.allBlank = false := by
    intro l hl
    have := List.head?_dropWhile_not Text.allBlank (c.rest.dropWhile fun l => !l.allBlank)
    have hl : ((c.rest.dropWhile fun l => !l.allBlank).dropWhile Text.allBlank).head? = some l := hl
    rw [hl] at this
    simpa using this
  rw [Cursor.nextRecord] at h
  obtain ⟨rfl, rfl⟩ := Prod.mk.inj h
  rw [numberedRuns_skip]
  generalize (c.skip fun l => !l.allBlank).skip Text.allBlank = e at visible
  obtain ⟨n, rest⟩ := e
  cases rest with
  | nil => exact .inl ⟨rfl, rfl⟩
  | cons l rest =>
    have hl : l.allBlank = false := visible l rfl
    exact .inr ⟨l, rfl, hl, numberedVisibleRuns_cons_of_visible hl⟩

theorem recordRuns_of_nextRecord {c d : Cursor} {header? : Option Text}
    (h : c.nextRecord = (header?, d)) :
    (header? = none ∧ recordRuns c.rest = []) ∨
      ∃ header, header? = some header ∧ header.allBlank = false ∧
        recordRuns c.rest =
          (header :: d.rest.takeWhile fun l => !l.allBlank) :: recordRuns d.rest := by
  rw [← map_snd_numberedRuns c.line, ← map_snd_numberedRuns d.line]
  rcases numberedRuns_of_nextRecord h with ⟨hnone, hruns⟩ | ⟨header, hsome, hvisible, hruns⟩
  · exact .inl ⟨hnone, congrArg (List.map Prod.snd) hruns⟩
  · exact .inr ⟨header, hsome, hvisible, congrArg (List.map Prod.snd) hruns⟩

end Runs

/-! ## Sections -/

namespace Dump

variable {d : Dump} {s : Section} {body : List Text}

/-- A cursor enters a section before its body. -/
theorem enter_of_body? (h : d.body? s = some body) : ∃ n, d.enter s = .ok ⟨n, body⟩ := by
  obtain ⟨rest, hrest, rfl⟩ := Option.map_eq_some_iff.1 h
  rw [enter, hrest]
  exact ⟨_, rfl⟩

theorem enter_of_body?_eq_none (h : d.body? s = none) : d.enter s = .error (.sectionMissing s) := by
  rw [enter, Option.map_eq_none_iff.1 h]

/-- No banner stands in a body. -/
theorem not_isBanner_of_mem_body? (h : d.body? s = some body) :
    ∀ l ∈ body, isBanner l = false := by
  obtain ⟨rest, _, rfl⟩ := Option.map_eq_some_iff.1 h
  intro l hl
  simpa using List.mem_takeWhile_imp hl

theorem untilBanner_cons {l : Text} (h : isBanner l = false) (lines : List Text) :
    untilBanner (l :: lines) = l :: untilBanner lines :=
  List.takeWhile_cons_of_pos (by rw [h]; rfl)

theorem untilBanner_append (h : ∀ l ∈ body, isBanner l = false) (lines : List Text) :
    untilBanner (body ++ lines) = body ++ untilBanner lines :=
  List.takeWhile_append_of_pos fun l hl => by rw [h l hl]; rfl

/-- A cursor enters a section behind its first banner and sees it up to the next banner. -/
theorem enter_of_lines {before after : List Text} {banner : Text}
    (hlines : d.lines = before ++ banner :: (body ++ after))
    (hbefore : ∀ l ∈ before, ¬ s.banner <+: l) (hbanner : s.banner <+: banner)
    (hbody : ∀ l ∈ body, isBanner l = false) (hafter : ∀ l ∈ after.head?, isBanner l = true) :
    d.enter s = .ok ⟨before.length + 1, body⟩ := by
  have found : d.lines.dropWhile (fun l => !s.banner.isPrefixOf l) = banner :: (body ++ after) := by
    rw [hlines, List.dropWhile_append_of_pos, List.dropWhile_cons_of_neg]
    · simpa using hbanner
    · intro l hl
      rw [Bool.not_eq_true', ← Bool.not_eq_true, List.isPrefixOf_iff_prefix]
      exact hbefore l hl
  have ending : untilBanner after = [] := by
    cases after with
    | nil => rfl
    | cons l after => exact List.takeWhile_cons_of_neg (by rw [hafter l rfl]; decide)
  have position : d.lines.length - (body ++ after).length = before.length + 1 := by
    rw [hlines, List.length_append, List.length_cons]
    omega
  rw [enter, after?, found]
  dsimp only
  rw [position, untilBanner_append hbody, ending, List.append_nil]

end Dump

/-! ## A run alone -/

namespace Record

variable {tail block : List Text}

/-- A reader of records never reads beyond the blank line at the end of its record. -/
theorem read_within (h : AtBreak tail) (hblock : ∀ l ∈ block, l.allBlank = false) {header : Text}
    {n : Nat} {o : Option TypeRecord} {d : Cursor}
    (hread : (read header).run ⟨n, block ++ tail⟩ = (.ok o, d)) :
    ∃ left, left <:+ block ∧ d.rest = left ++ tail := by
  have houtcome := alike_read h h header ⟨n, block ++ tail⟩ ⟨n, block ++ tail⟩
    ⟨block, hblock, rfl, rfl⟩
  have hforward := before_read header ⟨n, block ++ tail⟩
  rw [hread] at houtcome hforward
  cases houtcome with
  | ok habreast =>
    obtain ⟨left, _, hd, _⟩ := habreast
    obtain ⟨lines, hlines, _⟩ := hforward
    refine ⟨left, ⟨lines, ?_⟩, hd⟩
    have hlines : block ++ tail = lines ++ d.rest := hlines
    rw [hd, ← List.append_assoc] at hlines
    exact (List.append_cancel_right hlines).symm

end Record

namespace TypeTable

variable {d : Dump} {t u : TypeTable} {c : Cursor} {body run : List Text} {header : Text}

/-- The dump of one run: a banner, a blank line and the run. -/
def alone (run : List Text) : Dump := ⟨Dump.Section.types.banner :: [] :: run⟩

/-- The records that a run yields alone. -/
def recordsAlone (run : List Text) : List TypeRecord :=
  match ofDump (alone run) with
  | .ok t => t.records
  | .error _ => []

theorem readFrom_of_nextRecord_none {d : Cursor} (h : c.nextRecord = (none, d)) :
    readFrom t c = .ok t := by
  rw [readFrom]
  split
  next => rfl
  next hh =>
    rw [Cursor.source_nextRecord, h] at hh
    cases hh

theorem readFrom_of_nextRecord {d : Cursor} (h : c.nextRecord = (some header, d)) :
    readFrom t c = match (Record.read header).run d with
      | (.error e, _) => .error e
      | (.ok none, d') => readFrom t d'
      | (.ok (some r), d') =>
        match t.insert r d.line with
        | .error e => .error e
        | .ok t => readFrom t d' := by
  rw [readFrom]
  split
  next hh =>
    rw [Cursor.source_nextRecord, h] at hh
    cases hh
  next hh =>
    rw [Cursor.source_nextRecord, h] at hh
    cases hh
    split
    next hr => rw [hr]
    next hr => rw [hr]
    next hr =>
      rewrite [hr]
      rfl

/-- Where there are only visible lines, no further record starts. -/
theorem readFrom_of_visible (h : ∀ l ∈ c.rest, l.allBlank = false) : readFrom t c = .ok t := by
  rcases hn : c.nextRecord with ⟨header?, d⟩
  have hnone : recordRuns c.rest = [] := by
    rw [← List.append_nil c.rest, recordRuns_append_of_visible h]
    rfl
  rcases recordRuns_of_nextRecord hn with ⟨rfl, _⟩ | ⟨_, _, _, hruns⟩
  · exact readFrom_of_nextRecord_none hn
  · rw [hnone] at hruns
    cases hruns

/-- The lines of a run, none of which is a banner or blank. -/
def IsRun (run : List Text) : Prop :=
  ∀ l ∈ run, l.allBlank = false ∧ Dump.isBanner l = false

/-- What the next record starts is a run. -/
theorem isRun_of_nextRecord (hc : ∀ l ∈ c.rest, Dump.isBanner l = false) {d : Cursor}
    (h : c.nextRecord = (some header, d)) :
    IsRun (header :: d.rest.takeWhile fun l => !l.allBlank) := by
  rcases recordRuns_of_nextRecord h with ⟨hnone, _⟩ | ⟨_, hsome, _, hruns⟩
  · cases hnone
  · obtain rfl := Option.some.inj hsome
    intro l hl
    have hmem := (of_mem_recordRuns (hruns ▸ List.mem_cons_self)).2 l hl
    exact ⟨hmem.2, hc l hmem.1⟩

theorem before_of_nextRecord {d : Cursor} (h : c.nextRecord = (some header, d)) : c.Before d := by
  rw [show d = c.nextRecord.2 by rw [h]]
  exact Cursor.before_nextRecord c

theorem insert_empty (r : TypeRecord) (n : Nat) :
    insert ∅ r n = .ok ⟨[r], List.nodup_singleton _⟩ := rfl

/-- A record that stands in a larger table can be inserted. -/
theorem exists_insert_of_records {r : TypeRecord} {rs : List TypeRecord}
    (h : u.records = t.records ++ r :: rs) (n : Nat) : ∃ t', t.insert r n = .ok t' := by
  rw [insert_eq_ok_iff]
  intro hold
  have hnodup := u.nodup
  rw [h, List.map_append, List.nodup_append] at hnodup
  exact hnodup.2.2 r.id hold r.id (List.mem_map_of_mem List.mem_cons_self) rfl

/-- A run alone gives what its reader gives. -/
theorem ofDump_alone_eq_ok_iff {block : List Text} (h : IsRun (header :: block)) :
    ofDump (alone (header :: block)) = .ok u ↔
      ∃ o, ((Record.read header).run ⟨3, block⟩).1 = .ok o ∧ u.records = o.toList := by
  have hlines : Dump.untilBanner ([] :: header :: block) = [] :: header :: block := by
    refine List.takeWhile_eq_self_iff.2 fun l hl => ?_
    rcases List.mem_cons.1 hl with rfl | hl
    · rfl
    · rw [(h l hl).2]
      rfl
  have henter : (alone (header :: block)).enter .types = .ok ⟨1, [] :: header :: block⟩ := by
    rw [Dump.enter]
    show Except.ok (Cursor.mk (block.length + 1 + 1 + 1 - (block.length + 1 + 1))
      (Dump.untilBanner ([] :: header :: block))) = _
    rw [hlines, Nat.add_sub_cancel_left]
  have hheader : header.allBlank = false := (h header List.mem_cons_self).1
  have hnext : Cursor.nextRecord ⟨1, [] :: header :: block⟩ = (some header, ⟨3, block⟩) := by
    simp [Cursor.nextRecord, Cursor.skip, Cursor.peek?, Cursor.advance, List.takeWhile_cons,
      List.dropWhile_cons, hheader]
  have hforward := Record.before_read header ⟨3, block⟩
  rw [ofDump_eq, henter]
  show readFrom ∅ _ = _ ↔ _
  rw [readFrom_of_nextRecord hnext]
  rcases hr : (Record.read header).run (⟨3, block⟩ : Cursor) with ⟨outcome, d'⟩
  rw [hr] at hforward
  obtain ⟨lines, hread, _⟩ := hforward
  have hread : block = lines ++ d'.rest := hread
  have hvisible : ∀ l ∈ d'.rest, l.allBlank = false := fun l hl =>
    (h l (List.mem_cons_of_mem header (hread ▸ List.mem_append_right lines hl))).1
  rcases outcome with e | _ | r
  · simp
  · dsimp only
    rw [readFrom_of_visible hvisible]
    refine ⟨?_, ?_⟩
    · intro hu
      cases hu
      exact ⟨none, rfl, rfl⟩
    · intro hu
      obtain ⟨o, ho, hu⟩ := hu
      cases ho
      rw [show u = ∅ from TypeTable.ext hu]
  · dsimp only
    rw [insert_empty]
    dsimp only
    rw [readFrom_of_visible hvisible]
    refine ⟨?_, ?_⟩
    · intro hu
      cases hu
      exact ⟨some r, rfl, rfl⟩
    · intro hu
      obtain ⟨o, ho, hu⟩ := hu
      cases ho
      exact congrArg Except.ok (TypeTable.ext hu).symm

theorem recordsAlone_of_ofDump (h : ofDump (alone run) = .ok u) : recordsAlone run = u.records := by
  rw [recordsAlone, h]

/-! ## The section as its runs -/

theorem atBreak_nil : AtBreak [] := fun _ hl => by cases hl

/-- What a run yields alone is what its reader finds in it. -/
theorem recordsAlone_of_run {block : List Text} (h : IsRun (header :: block))
    {o : Option TypeRecord} (hread : ((Record.read header).run ⟨3, block⟩).1 = .ok o) :
    (∃ v, ofDump (alone (header :: block)) = .ok v) ∧
      recordsAlone (header :: block) = o.toList := by
  have holds : ∃ v : TypeTable, v.records = o.toList := by
    cases o with
    | none => exact ⟨∅, rfl⟩
    | some r => exact ⟨⟨[r], List.nodup_singleton _⟩, rfl⟩
  obtain ⟨v, hv⟩ := holds
  have halone := (ofDump_alone_eq_ok_iff h).2 ⟨o, hread, hv⟩
  exact ⟨⟨v, halone⟩, (recordsAlone_of_ofDump halone).trans hv⟩

/-- A reader of records does in a section what it does with the run alone: either it refuses in both
places, or it finds the same and leaves the later runs as they are. -/
theorem read_run {d : Cursor} (h : IsRun (header :: d.rest.takeWhile fun l => !l.allBlank)) :
    (∃ e d', (Record.read header).run d = (.error e, d') ∧
      ∀ v, ofDump (alone (header :: d.rest.takeWhile fun l => !l.allBlank)) ≠ .ok v) ∨
    ∃ o d', (Record.read header).run d = (.ok o, d') ∧ recordRuns d'.rest = recordRuns d.rest ∧
      (∃ v, ofDump (alone (header :: d.rest.takeWhile fun l => !l.allBlank)) = .ok v) ∧
      recordsAlone (header :: d.rest.takeWhile fun l => !l.allBlank) = o.toList := by
  have hd : d.rest = (d.rest.takeWhile fun l => !l.allBlank) ++
      d.rest.dropWhile fun l => !l.allBlank := List.takeWhile_append_dropWhile.symm
  have hbreak := atBreak_dropWhile d.rest
  generalize (d.rest.takeWhile fun l => !l.allBlank) = block at h hd
  generalize (d.rest.dropWhile fun l => !l.allBlank) = tail at hd hbreak
  have hblock : ∀ l ∈ block, l.allBlank = false := fun l hl =>
    (h l (List.mem_cons_of_mem header hl)).1
  have houtcome := Record.alike_read hbreak atBreak_nil header d ⟨3, block⟩
    ⟨block, hblock, hd, (List.append_nil block).symm⟩
  have halone : ∀ v, ofDump (alone (header :: block)) = .ok v ↔ _ :=
    fun v => ofDump_alone_eq_ok_iff h
  have hyields := @recordsAlone_of_run header block h
  generalize (Record.read header).run d = r at houtcome
  generalize (Record.read header).run ⟨3, block⟩ = r' at houtcome halone hyields
  cases houtcome with
  | error _ =>
    refine .inl ⟨_, _, rfl, fun v hv => ?_⟩
    obtain ⟨o, ho, _⟩ := (halone v).1 hv
    cases ho
  | ok habreast =>
    obtain ⟨left, hleft, hrest, _⟩ := habreast
    refine .inr ⟨_, _, rfl, ?_, hyields rfl⟩
    rw [hrest, hd, recordRuns_append_of_visible hleft, recordRuns_append_of_visible hblock]

/-- Reading a section from a cursor succeeds exactly if every run that is to come can be read alone,
and then adds what the runs yield. -/
theorem readFrom_eq_ok_iff (hc : ∀ l ∈ c.rest, Dump.isBanner l = false) :
    readFrom t c = .ok u ↔
      (∀ run ∈ recordRuns c.rest, ∃ v, ofDump (alone run) = .ok v) ∧
        u.records = t.records ++ (recordRuns c.rest).flatMap recordsAlone := by
  induction hn : c.rest.length using Nat.strongRecOn generalizing t c with
  | _ n ih =>
    rcases hnext : c.nextRecord with ⟨header?, d⟩
    rcases recordRuns_of_nextRecord hnext with ⟨rfl, hnil⟩ | ⟨header, rfl, hheader, hruns⟩
    · rw [readFrom_of_nextRecord_none hnext, hnil, List.flatMap_nil, List.append_nil]
      refine ⟨?_, ?_⟩
      · intro h
        cases h
        exact ⟨fun _ hrun => absurd hrun List.not_mem_nil, rfl⟩
      · intro h
        exact congrArg Except.ok (TypeTable.ext h.2).symm
    · have hrun := isRun_of_nextRecord hc hnext
      have hd := before_of_nextRecord hnext
      rw [readFrom_of_nextRecord hnext, hruns, List.forall_mem_cons, List.flatMap_cons]
      rcases read_run hrun with ⟨e, d', hread, hnone⟩ | ⟨o, d', hread, hsame, hsome, hyields⟩
      · rw [hread]
        refine ⟨?_, ?_⟩
        · intro h
          cases h
        · intro h
          obtain ⟨v, hv⟩ := h.1.1
          exact absurd hv (hnone v)
      · have hd' : d.Before d' := by
          rw [show d' = ((Record.read header).run d).2 by rw [hread]]
          exact Record.before_read header d
        obtain ⟨lines, hlines, _⟩ := hd.trans hd'
        have hlt : d'.rest.length < n := by
          rw [← hn]
          exact Nat.lt_of_le_of_lt hd'.length_le (Cursor.nextRecord_length_lt hnext)
        have hrest : ∀ t, readFrom t d' = .ok u ↔ _ := fun t =>
          ih d'.rest.length hlt (t := t) (c := d')
            (fun l hl => hc l (hlines ▸ List.mem_append_right lines hl)) rfl
        rw [hread, hyields]
        rw [hsame] at hrest
        cases o with
        | none =>
          dsimp only
          rw [hrest]
          exact ⟨fun h => ⟨⟨hsome, h.1⟩, h.2⟩, fun h => ⟨h.1.2, h.2⟩⟩
        | some r =>
          dsimp only
          cases hins : t.insert r d.line with
          | error e =>
            refine ⟨?_, ?_⟩
            · intro h
              cases h
            · intro h
              -- The id of the record is taken, so no table has both.
              obtain ⟨t', ht'⟩ := exists_insert_of_records h.2 d.line
              rw [hins] at ht'
              cases ht'
          | ok t' =>
            dsimp only
            rw [hrest, records_insert hins, List.append_assoc]
            exact ⟨fun h => ⟨⟨hsome, h.1⟩, h.2⟩, fun h => ⟨h.1.2, h.2⟩⟩

/-- What the table of a dump is, in terms of the runs of its section. -/
theorem ofDump_eq_ok_iff (h : d.body? .types = some body) :
    ofDump d = .ok t ↔
      (∀ run ∈ recordRuns body, ∃ v, ofDump (alone run) = .ok v) ∧
        t.records = (recordRuns body).flatMap recordsAlone := by
  obtain ⟨n, henter⟩ := Dump.enter_of_body? h
  have hread : ofDump d = readFrom ∅ ⟨n, body⟩ := by
    rw [ofDump_eq, henter]
    rfl
  rw [hread]
  exact readFrom_eq_ok_iff (c := ⟨n, body⟩) (Dump.not_isBanner_of_mem_body? h)

/-- A run that is a record of the section. -/
theorem isRun_of_mem_recordRuns (h : d.body? .types = some body) (hrun : run ∈ recordRuns body) :
    IsRun run := by
  intro l hl
  obtain ⟨hbody, hvisible⟩ := (of_mem_recordRuns hrun).2 l hl
  exact ⟨hvisible, Dump.not_isBanner_of_mem_body? h l hbody⟩

/-- A run yields one record at most. -/
theorem length_recordsAlone_le (h : IsRun run) (hne : run ≠ []) :
    (recordsAlone run).length ≤ 1 := by
  obtain ⟨header, block, rfl⟩ := List.exists_cons_of_ne_nil hne
  rcases hr : ((Record.read header).run ⟨3, block⟩).1 with e | o
  · have hnone : ∀ v, ofDump (alone (header :: block)) ≠ .ok v := by
      intro v hv
      obtain ⟨o, ho, _⟩ := (ofDump_alone_eq_ok_iff h).1 hv
      rw [hr] at ho
      cases ho
    rw [recordsAlone]
    split
    next v hv => exact absurd hv (hnone v)
    next => exact Nat.zero_le 1
  · rw [(recordsAlone_of_run h hr).2]
    cases o with
    | none => exact Nat.zero_le 1
    | some r => exact Nat.le_refl 1

/-- A run whose first line has no tag of a record. -/
def Unrecognized (run : List Text) : Prop :=
  ∀ header ∈ run.head?, RecordKind.ofLine header = .unrecognized

/-- A run that is not recognized is passed over. -/
theorem recordsAlone_of_unrecognized (h : IsRun run) (hne : run ≠ []) (hun : Unrecognized run) :
    (∃ v, ofDump (alone run) = .ok v) ∧ recordsAlone run = [] := by
  obtain ⟨header, block, rfl⟩ := List.exists_cons_of_ne_nil hne
  refine recordsAlone_of_run h (o := none) ?_
  rw [Record.read, hun header rfl]
  rfl

/-- The table is read record by record.

* Reading succeeds exactly if every run of the section can be read alone and no two of the records
  that the runs yield share an id.
* The table then is what the runs yield, in order.
* A run yields one record at most.
* The reader of a run stops in it, whatever comes after the run.
* A run that is not recognized can be put in or left out. -/
theorem reads_record_by_record (h : d.body? .types = some body) :
    ((∃ t, ofDump d = .ok t) ↔
      (∀ run ∈ recordRuns body, ∃ v, ofDump (alone run) = .ok v) ∧
        (((recordRuns body).flatMap recordsAlone).map TypeRecord.id).Nodup) ∧
    (∀ t, ofDump d = .ok t → t.records = (recordRuns body).flatMap recordsAlone) ∧
    (∀ run ∈ recordRuns body, (recordsAlone run).length ≤ 1) ∧
    (∀ header block, header :: block ∈ recordRuns body →
      ∀ tail n o c, AtBreak tail → (Record.read header).run ⟨n, block ++ tail⟩ = (.ok o, c) →
        ∃ left, left <:+ block ∧ c.rest = left ++ tail) ∧
    ∀ d' body' pre run post, d'.body? .types = some body' → recordRuns body = pre ++ post →
      recordRuns body' = pre ++ run :: post → Unrecognized run →
        ∀ t, ofDump d = .ok t ↔ ofDump d' = .ok t := by
  refine ⟨⟨fun ht => ?_, fun hruns => ?_⟩, fun t ht => ?_, fun run hrun => ?_,
    fun header block hrun tail n o c htail hread => ?_,
    fun d' body' pre run post h' hbody hbody' hun t => ?_⟩
  · obtain ⟨t, ht⟩ := ht
    obtain ⟨halone, hrecords⟩ := (ofDump_eq_ok_iff h).1 ht
    refine ⟨halone, ?_⟩
    rw [← hrecords]
    exact t.nodup
  · exact ⟨⟨_, hruns.2⟩, (ofDump_eq_ok_iff h).2 ⟨hruns.1, rfl⟩⟩
  · exact ((ofDump_eq_ok_iff h).1 ht).2
  · exact length_recordsAlone_le (isRun_of_mem_recordRuns h hrun) (of_mem_recordRuns hrun).1
  · have hvisible := (of_mem_recordRuns hrun).2
    exact Record.read_within htail
      (fun l hl => (hvisible l (List.mem_cons_of_mem header hl)).2) hread
  · have hrun : run ∈ recordRuns body' := by
      rw [hbody']
      exact List.mem_append_right pre List.mem_cons_self
    obtain ⟨halone, hnothing⟩ := recordsAlone_of_unrecognized (isRun_of_mem_recordRuns h' hrun)
      (of_mem_recordRuns hrun).1 hun
    rw [ofDump_eq_ok_iff h, ofDump_eq_ok_iff h', hbody, hbody', List.flatMap_append,
      List.flatMap_append, List.flatMap_cons, hnothing, List.nil_append]
    refine and_congr_left fun _ => ⟨fun hall r hr => ?_, fun hall r hr => hall r ?_⟩
    · rcases List.mem_append.1 hr with hr | hr
      · exact hall r (List.mem_append_left _ hr)
      · rcases List.mem_cons.1 hr with rfl | hr
        · exact halone
        · exact hall r (List.mem_append_right _ hr)
    · rcases List.mem_append.1 hr with hr | hr
      · exact List.mem_append_left _ hr
      · exact List.mem_append_right _ (List.mem_cons_of_mem _ hr)

/-- A section with text right behind its banner, a class, a record of another kind and a member
function. -/
def fourPiecesDump : Dump := ⟨[
  "*** TYPES",
  "0x0FFF : LF_CLASS without a blank line before it",
  "",
  "0x1000 : LF_CLASS",
  " field list type 0x0000, ",
  " class name = A, unique name = .?AVA@@, UDT(0x1000)",
  " of which this is more",
  "",
  "",
  "0x1001 : LF_POINTER",
  " Element type : 0x1000",
  "",
  "0x1002 : LF_MFUNCTION",
  " Class type = 0x1000, This type = 0x1001, "].map String.toList⟩

/-- Its table. -/
def fourPieces : TypeTable where
  records := [
    .classType ⟨⟨0x1000⟩, "A".toList, ".?AVA@@".toList, none, false⟩,
    .memberFunction ⟨⟨0x1002⟩, ⟨0x1000⟩, some ⟨0x1001⟩⟩]
  nodup := by decide

/-- Of the four pieces three are runs, and two of these yield a record. -/
theorem reads_record_by_record_fourPieces :
    ∃ body, fourPiecesDump.body? .types = some body ∧ (recordRuns body).length = 3 ∧
      ofDump fourPiecesDump = .ok fourPieces ∧
      fourPieces.records = (recordRuns body).flatMap recordsAlone := by
  have hbody : fourPiecesDump.body? .types = some (fourPiecesDump.lines.drop 1) := by decide
  have htable : ofDump fourPiecesDump = .ok fourPieces := by decide +kernel
  obtain ⟨_, records, _⟩ := reads_record_by_record hbody
  exact ⟨_, hbody, by decide, htable, records _ htable⟩

end TypeTable
end Lineage
