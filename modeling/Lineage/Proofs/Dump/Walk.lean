import Lineage.Proofs.Record.Sources

/-!
# Walking through a section

A scanner is put before the first line of a dump, or behind the banner of one of its sections, and
from there it only goes on: by a line, to the next record, or with a reader of records, which may
also fail on its way. However these calls follow one another, the scanner stays before the next
banner.

A scanner has the whole dump before it and does not know where its section ends, so this is a fact
about every loop that moves it. All of them are cut down to one step first: whatever is called, the
scanner has come to where it stands by going on to the next line again and again
(`reaches_nextRecord` for the two loops of a search, `Record.forward_read` for those of the readers,
together `reaches_call`). A step looks for the banner, so it keeps the bounds `Between`, and with
them everything that is said of a call (`Step.Sound`). At the end of the section a step goes
nowhere, so nothing is reached from there (`eq_of_reaches_over`), and a search that found no record
has come there.

What a reader of records makes of the lines it is given is settled by the lines before the banner
(`view_eq_take`, with the readers of `Proofs.Record.Sources`).

Main result: `walk_stays_in_section`.
-/

namespace Lineage

/-! ## Where a section ends -/

namespace Dump

/-- A scanner that has just been put into the dump, before all of it or before a section. -/
inductive Opens (d : Dump) : Scanner → Prop
  | top : Opens d d.scanner
  | sought (s : Section) (found : Scanner) (h : d.seek s = .ok found) : Opens d found

/-- The first banner at or behind a position, or the end of the dump. -/
structure SectionEnd (d : Dump) (start limit : Nat) : Prop where
  start_le : start ≤ limit
  le_length : limit ≤ d.lines.length
  inside : ∀ i l, start ≤ i → i < limit → d.lines[i]? = some l → isBanner l = false
  ends : ∀ l, d.lines[limit]? = some l → isBanner l = true

variable {d : Dump} {start limit : Nat}

theorem exists_sectionEnd (h : start ≤ d.lines.length) : ∃ limit, d.SectionEnd start limit := by
  -- From the end of the dump upwards, as long as there is no banner.
  induction hn : d.lines.length - start generalizing start with
  | zero =>
    have ended : d.lines[start]? = none := List.getElem?_eq_none (by omega)
    refine ⟨start, Nat.le_refl _, h, fun i l _ _ => by omega, fun l hl => ?_⟩
    rw [ended] at hl
    cases hl
  | succ n ih =>
    have hlt : start < d.lines.length := by omega
    have here := List.getElem?_eq_getElem hlt
    cases hbanner : isBanner d.lines[start] with
    | true =>
      refine ⟨start, Nat.le_refl _, h, fun i l _ _ => by omega, fun l hl => ?_⟩
      obtain rfl := Option.some.inj (here.symm.trans hl)
      exact hbanner
    | false =>
      obtain ⟨limit, hend⟩ := ih (Nat.succ_le_of_lt hlt) (by omega)
      refine ⟨limit, Nat.le_of_succ_le hend.start_le, hend.le_length, fun i l hi hlimit hl => ?_,
        hend.ends⟩
      rcases Nat.eq_or_lt_of_le hi with rfl | hi
      · obtain rfl := Option.some.inj (here.symm.trans hl)
        exact hbanner
      · exact hend.inside i l hi hlimit hl

theorem SectionEnd.not_isBanner_of_mem (hend : d.SectionEnd start limit) {pos n : Nat}
    (hpos : start ≤ pos) (hn : pos + n ≤ limit) {l : Text} (hl : l ∈ (d.lines.drop pos).take n) :
    isBanner l = false := by
  obtain ⟨i, hi, hget⟩ := List.getElem_of_mem hl
  rw [List.getElem_take, List.getElem_drop] at hget
  rw [List.length_take] at hi
  exact hend.inside (pos + i) l (Nat.le_add_right_of_le hpos) (by omega)
    (List.getElem?_eq_some_iff.2 ⟨_, hget⟩)

theorem lines_of_opens {s : Scanner} (h : d.Opens s) :
    s.lines = d.lines.toArray ∧ s.pos ≤ d.lines.length := by
  cases h with
  | top => exact ⟨rfl, Nat.zero_le _⟩
  | sought _ found h => exact lines_of_seek h

end Dump

namespace Scanner

open LineSource (Reaches)

variable {d : Dump} {start limit : Nat} {s t : Scanner} {l : Text}

/-! ## The bounds of a section -/

/-- The scanner is in the dump, between two positions. -/
structure Between (d : Dump) (start limit : Nat) (s : Scanner) : Prop where
  lines_eq : s.lines = d.lines.toArray
  start_le : start ≤ s.pos
  le_limit : s.pos ≤ limit

theorem Between.line? (h : Between d start limit s) : s.line? = d.lines[s.pos]? := by
  rw [Scanner.line?, h.lines_eq, List.getElem?_toArray]

/-- There are lines to be had before the end only. -/
theorem Between.lt_limit (h : Between d start limit s) (hend : d.SectionEnd start limit)
    (hl : s.peek? = some l) : s.pos < limit := by
  obtain ⟨hline, hbanner⟩ := peek?_eq_some_iff.1 hl
  refine Nat.lt_of_le_of_ne h.le_limit fun hpos => ?_
  rw [h.line?, hpos] at hline
  rw [hend.ends l hline] at hbanner
  cases hbanner

/-- Where no line is to be had, the section is over. -/
theorem Between.eq_limit (h : Between d start limit s) (hend : d.SectionEnd start limit)
    (hover : s.peek? = none) : s.pos = limit := by
  refine Nat.le_antisymm h.le_limit (Nat.le_of_not_lt fun hlt => ?_)
  have here := List.getElem?_eq_getElem (Nat.lt_of_lt_of_le hlt hend.le_length)
  have shown := peek?_eq_some_iff.2
    ⟨h.line?.trans here, hend.inside s.pos _ h.start_le hlt here⟩
  rw [shown] at hover
  cases hover

theorem Between.advance (h : Between d start limit s) (hend : d.SectionEnd start limit) :
    Between d start limit s.advance := by
  cases hl : s.peek? with
  | none => rwa [advance_of_peek?_none hl]
  | some l =>
    rw [advance_of_peek? hl]
    exact ⟨h.lines_eq, Nat.le_succ_of_le h.start_le, h.lt_limit hend hl⟩

/-- Reading on keeps the scanner in its section. -/
theorem Between.reaches (h : Between d start limit s) (hend : d.SectionEnd start limit)
    (hr : Reaches s t) : Between d start limit t := by
  induction hr with
  | here => exact h
  | next _ ih => exact ih (h.advance hend)

theorem pos_advance_le (s : Scanner) : s.pos ≤ s.advance.pos := by
  cases hl : s.peek? with
  | none => exact Nat.le_of_eq (congrArg pos (advance_of_peek?_none hl).symm)
  | some l =>
    rw [advance_of_peek? hl]
    exact Nat.le_succ _

theorem pos_le_of_reaches (h : Reaches s t) : s.pos ≤ t.pos := by
  induction h with
  | here => exact Nat.le_refl _
  | next _ ih => exact Nat.le_trans (pos_advance_le _) ih

/-- At its end a section is not left. -/
theorem eq_of_reaches_over (h : Reaches s t) (hover : s.peek? = none) : t = s := by
  induction h with
  | here => rfl
  | @next s t _ ih =>
    have stays : LineSource.advance s = s := advance_of_peek?_none hover
    rw [stays] at ih
    exact ih hover

/-- What is left of a section is what stands before its end. -/
theorem Between.view_eq_take (h : Between d start limit s) (hend : d.SectionEnd start limit) :
    s.view = ⟨s.pos, (d.lines.drop s.pos).take (limit - s.pos)⟩ := by
  have inside : ∀ l ∈ (d.lines.drop s.pos).take (limit - s.pos), (!Dump.isBanner l) = true := by
    intro l hl
    rw [hend.not_isBanner_of_mem h.start_le (Nat.le_of_eq (Nat.add_sub_cancel' h.le_limit)) hl]
    rfl
  have behind : (d.lines.drop limit).takeWhile (fun l => !Dump.isBanner l) = [] := by
    cases hl : d.lines.drop limit with
    | nil => rfl
    | cons l lines =>
      have banner := hend.ends l (by rw [← List.head?_drop, hl]; rfl)
      rw [List.takeWhile_cons_of_neg (by rw [banner]; decide)]
  have split : d.lines.drop s.pos =
      (d.lines.drop s.pos).take (limit - s.pos) ++ d.lines.drop limit := by
    have := (List.take_append_drop (limit - s.pos) (d.lines.drop s.pos)).symm
    rwa [List.drop_drop, Nat.add_sub_cancel' h.le_limit] at this
  rw [view, h.lines_eq, List.toList_toArray, Dump.untilBanner]
  refine congrArg (Cursor.mk s.pos) ?_
  calc (d.lines.drop s.pos).takeWhile (fun l => !Dump.isBanner l)
      = ((d.lines.drop s.pos).take (limit - s.pos) ++ d.lines.drop limit).takeWhile
          (fun l => !Dump.isBanner l) := congrArg _ split
    _ = (d.lines.drop s.pos).take (limit - s.pos) := by
      rw [List.takeWhile_append_of_pos inside, behind, List.append_nil]

/-! ## The search for a record -/

theorem reaches_step (h : s.line? = some l) (hl : Dump.isBanner l = false)
    (ht : Reaches s.step t) : Reaches s t := by
  have := advance_of_peek? (peek?_eq_some_iff.2 ⟨h, hl⟩)
  exact .next (show Reaches s.advance t from this ▸ ht)

theorem reaches_skipBlank (s : Scanner) : Reaches s s.skipBlank := by
  unfold skipBlank
  split
  next l h =>
    split
    next hblank => exact reaches_step h (not_isBanner_of_allBlank hblank) (reaches_skipBlank s.step)
    next => exact .here s
  next => exact .here s
termination_by s.left
decreasing_by exact left_step_lt ‹_›

/-- Blank lines are skipped to the last. -/
theorem visible_of_skipBlank {s : Scanner} {l : Text} (h : s.skipBlank.line? = some l) :
    l.allBlank = false := by
  unfold skipBlank at h
  split at h
  next l' hl =>
    split at h
    next => exact visible_of_skipBlank h
    next hblank =>
      obtain rfl := Option.some.inj (hl.symm.trans h)
      exact eq_false_of_ne_true hblank
  next hl =>
    rw [hl] at h
    cases h
termination_by s.left
decreasing_by exact left_step_lt ‹_›

theorem reaches_nextRecord (s : Scanner) : Reaches s s.nextRecord.2 := by
  unfold nextRecord
  split
  next l h =>
    split
    · rw [takeFirst_eq]
      exact (reaches_skipBlank s).trans (LineSource.reaches_advance s.skipBlank)
    · split
      · exact .here s
      next hl => exact reaches_step h (eq_false_of_ne_true hl) (reaches_nextRecord s.step)
  next => exact .here s
termination_by s.left
decreasing_by exact left_step_lt ‹_›

/-- The first line of a record is the line that the scanner was at last. It is not blank. -/
theorem exists_of_nextRecord {s t : Scanner} {l : Text} (h : s.nextRecord = (some l, t)) :
    l.allBlank = false ∧ ∃ at', Reaches s at' ∧ at'.peek? = some l ∧ at'.advance = t := by
  unfold nextRecord at h
  split at h
  next l' hl =>
    split at h
    · rw [takeFirst_eq] at h
      obtain ⟨hpeek, rfl⟩ := Prod.mk.inj h
      exact ⟨visible_of_skipBlank (peek?_eq_some_iff.1 hpeek).1, s.skipBlank, reaches_skipBlank s,
        hpeek, rfl⟩
    · split at h
      · cases h
      next hbanner =>
        obtain ⟨hvisible, at', hreaches, hat⟩ := exists_of_nextRecord h
        exact ⟨hvisible, at', reaches_step hl (eq_false_of_ne_true hbanner) hreaches, hat⟩
  next => cases h
termination_by s.left
decreasing_by exact left_step_lt ‹_›

/-- A search that finds no record has come to the end of the section. -/
theorem over_of_nextRecord_none {s t : Scanner} (h : s.nextRecord = (none, t)) :
    t.peek? = none := by
  unfold nextRecord at h
  split at h
  next l hl =>
    split at h
    · rw [takeFirst_eq] at h
      obtain ⟨hpeek, rfl⟩ := Prod.mk.inj h
      rwa [advance_of_peek?_none hpeek]
    · split at h
      next hbanner =>
        obtain ⟨-, rfl⟩ := Prod.mk.inj h
        exact peek?_of_banner hl hbanner
      next => exact over_of_nextRecord_none h
  next hl =>
    obtain ⟨-, rfl⟩ := Prod.mk.inj h
    exact peek?_of_line?_none hl
termination_by s.left
decreasing_by exact left_step_lt ‹_›

/-- At the end of a section there is no record. -/
theorem nextRecord_of_over (hover : s.peek? = none) : s.nextRecord.1 = none := by
  have stays := eq_of_reaches_over (reaches_nextRecord s) hover
  cases h : s.nextRecord with
  | mk found t =>
    cases found with
    | none => rfl
    | some l =>
      obtain ⟨-, at', hreaches, hpeek, -⟩ := exists_of_nextRecord h
      rw [eq_of_reaches_over hreaches hover, hover] at hpeek
      cases hpeek

/-! ## Calls -/

/-- What may be asked of a scanner. A record is read from a first line that the caller has. -/
inductive Call where
  | nextRecord
  | nextLine
  | peekLine
  | atEnd
  | readRecord (header : Text)

/-- What a call answers. -/
inductive Answer where
  | line (l : Option Text)
  | flag (b : Bool)
  | record (outcome : Except Fault (Option TypeRecord))

/-- The answer of a call, and where it leaves the scanner. -/
def Call.run : Call → Scanner → Answer × Scanner
  | nextRecord, s => (.line s.nextRecord.1, s.nextRecord.2)
  | nextLine, s => (.line s.peek?, s.advance)
  | peekLine, s => (.line s.peek?, s)
  | atEnd, s => (.flag s.atEnd, s)
  | readRecord header, s =>
    (.record ((Record.read header).run s).1, ((Record.read header).run s).2)

theorem reaches_call (call : Call) (s : Scanner) : Reaches s (call.run s).2 := by
  cases call with
  | nextRecord => exact reaches_nextRecord s
  | nextLine => exact LineSource.reaches_advance s
  | peekLine => exact .here s
  | atEnd => exact .here s
  | readRecord header => exact Record.forward_read header s

/-- A call of a scanner. -/
structure Step where
  call : Call
  before : Scanner

namespace Step

/-- What is answered. -/
def answer (step : Step) : Answer := (step.call.run step.before).1

/-- The scanner after the call. -/
def after (step : Step) : Scanner := (step.call.run step.before).2

/-- The lines that the call has used up: those between its two positions. -/
def consumed (step : Step) : List Text :=
  (step.before.lines.toList.drop step.before.pos).take (step.after.pos - step.before.pos)

/-- What a call does in a dump, between the start and the end of its section. -/
structure Sound (d : Dump) (start limit : Nat) (step : Step) : Prop where
  lines_eq : step.after.lines = d.lines.toArray
  start_le : start ≤ step.before.pos
  forward : step.before.pos ≤ step.after.pos
  inside : step.after.pos ≤ limit
  /-- No line is used up that is not in the section. -/
  consumed : ∀ l ∈ step.consumed, Dump.isBanner l = false
  /-- Looking uses up no line. -/
  idle : step.call = .peekLine ∨ step.call = .atEnd → step.after = step.before
  /-- A line that is given out is a line of the section and no banner. It is the next line, for a
  search the first line of the next record, and it is used up unless it was only looked at. -/
  given : ∀ l, step.answer = .line (some l) → ∃ i, d.lines[i]? = some l ∧
    Dump.isBanner l = false ∧ step.before.pos ≤ i ∧ i < limit ∧
    (step.call ≠ .nextRecord → i = step.before.pos) ∧
    (step.call = .nextRecord → l.allBlank = false) ∧
    (step.call ≠ .peekLine → step.after.pos = i + 1)
  /-- A record is read from the lines before the end of the section and from nothing else. -/
  read : ∀ header, step.call = .readRecord header →
    step.answer = .record ((Record.read header).run
      (Cursor.mk step.before.pos ((d.lines.drop step.before.pos).take (limit - step.before.pos)))).1
  /-- Lines and records are denied at the end of the section only. -/
  ended : step.answer = .line none ∨ step.answer = .flag true → step.after.pos = limit

/-- A line that is given out was next at some point of the way. -/
theorem exists_given {step : Step} (hl : step.answer = .line (some l)) :
    ∃ at', Reaches step.before at' ∧ at'.peek? = some l ∧
      (step.call ≠ .nextRecord → at' = step.before) ∧
      (step.call = .nextRecord → l.allBlank = false) ∧
      (step.call ≠ .peekLine → step.after = at'.step) := by
  obtain ⟨call, s⟩ := step
  cases call with
  | nextRecord =>
    have found : s.nextRecord = (some l, s.nextRecord.2) := Prod.ext (Answer.line.inj hl) rfl
    obtain ⟨hvisible, at', hreaches, hpeek, hat⟩ := exists_of_nextRecord found
    exact ⟨at', hreaches, hpeek, fun h => absurd rfl h, fun _ => hvisible,
      fun _ => hat.symm.trans (advance_of_peek? hpeek)⟩
  | nextLine =>
    have hpeek : s.peek? = some l := Answer.line.inj hl
    exact ⟨s, .here s, hpeek, fun _ => rfl, nofun, fun _ => advance_of_peek? hpeek⟩
  | peekLine => exact ⟨s, .here s, Answer.line.inj hl, fun _ => rfl, nofun, fun h => absurd rfl h⟩
  | atEnd => cases hl
  | readRecord header => cases hl

/-- Once a line or a record has been denied, there is no next line. -/
theorem over_of_denied {step : Step} (h : step.answer = .line none ∨ step.answer = .flag true) :
    step.after.peek? = none := by
  obtain ⟨call, s⟩ := step
  rcases h with h | h
  · cases call with
    | nextRecord =>
      have found : s.nextRecord = (none, s.nextRecord.2) := Prod.ext (Answer.line.inj h) rfl
      exact over_of_nextRecord_none found
    | nextLine =>
      have hpeek : s.peek? = none := Answer.line.inj h
      show s.advance.peek? = none
      rwa [advance_of_peek?_none hpeek]
    | peekLine => exact Answer.line.inj h
    | atEnd => cases h
    | readRecord header => cases h
  · cases call with
    | atEnd => exact Option.isNone_iff_eq_none.1 (Answer.flag.inj h)
    | nextRecord => cases h
    | nextLine => cases h
    | peekLine => cases h
    | readRecord header => cases h

/-- One call: between the start and the end of the section nothing goes wrong. -/
theorem sound {step : Step} (hend : d.SectionEnd start limit)
    (h : Between d start limit step.before) : step.Sound d start limit := by
  have hreaches : Reaches step.before step.after := reaches_call step.call step.before
  have hafter := h.reaches hend hreaches
  refine ⟨hafter.lines_eq, h.start_le, pos_le_of_reaches hreaches, hafter.le_limit, fun l hl => ?_,
    fun hcall => ?_, fun l hl => ?_, fun header hcall => ?_, fun hdenied => ?_⟩
  · rw [consumed, h.lines_eq, List.toList_toArray] at hl
    have within : step.before.pos + (step.after.pos - step.before.pos) ≤ limit := by
      rw [Nat.add_sub_cancel' (pos_le_of_reaches hreaches)]
      exact hafter.le_limit
    exact hend.not_isBanner_of_mem h.start_le within hl
  · obtain ⟨call, s⟩ := step
    rcases hcall with hcall | hcall <;> obtain rfl := hcall <;> rfl
  · obtain ⟨at', hat, hpeek, hhere, hvisible, hused⟩ := exists_given hl
    have place := h.reaches hend hat
    obtain ⟨hline, hbanner⟩ := peek?_eq_some_iff.1 hpeek
    exact ⟨at'.pos, place.line?.symm.trans hline, hbanner, pos_le_of_reaches hat,
      place.lt_limit hend hpeek, fun hcall => by rw [hhere hcall], hvisible,
      fun hcall => by rw [hused hcall]; rfl⟩
  · obtain ⟨call, s⟩ := step
    obtain rfl : call = .readRecord header := hcall
    have same := Record.natural_read LineSource.hom_view header s
    rw [h.view_eq_take hend] at same
    rw [same]
    rfl
  · exact hafter.eq_limit hend (over_of_denied hdenied)

/-- At the end of the section there is no line and no record. -/
theorem answer_of_over {step : Step} (h : step.before.peek? = none)
    (hcall : step.call = .nextRecord ∨ step.call = .nextLine) : step.answer = .line none := by
  obtain ⟨call, s⟩ := step
  rcases hcall with hcall | hcall
  · obtain rfl : call = .nextRecord := hcall
    exact congrArg Answer.line (nextRecord_of_over h)
  · obtain rfl : call = .nextLine := hcall
    exact congrArg Answer.line h

end Step

/-! ## Walks -/

/-- The steps of a sequence of calls, failing ones included. -/
def walk : List Call → Scanner → List Step
  | [], _ => []
  | call :: calls, s => ⟨call, s⟩ :: walk calls (call.run s).2

/-- Where a sequence of calls leaves the scanner. -/
def stop : List Call → Scanner → Scanner
  | [], s => s
  | call :: calls, s => stop calls (call.run s).2

variable {calls : List Call}

theorem reaches_stop (calls : List Call) (s : Scanner) : Reaches s (stop calls s) := by
  induction calls generalizing s with
  | nil => exact .here s
  | cons call calls ih => exact (reaches_call call s).trans (ih _)

theorem reaches_of_mem_walk {step : Step} (h : step ∈ walk calls s) : Reaches s step.before := by
  induction calls generalizing s with
  | nil => cases h
  | cons call calls ih =>
    rcases List.mem_cons.1 h with rfl | h
    · exact .here s
    · exact (reaches_call call s).trans (ih h)

/-- What the steps use up is what lies between the start and the end of the walk. -/
theorem flatMap_consumed (hend : d.SectionEnd start limit) (h : Between d start limit s)
    (calls : List Call) :
    (walk calls s).flatMap Step.consumed =
      (d.lines.drop s.pos).take ((stop calls s).pos - s.pos) := by
  induction calls generalizing s with
  | nil => rw [stop, Nat.sub_self]; rfl
  | cons call calls ih =>
    have first := reaches_call call s
    have forward := pos_le_of_reaches first
    have later := pos_le_of_reaches (reaches_stop calls (call.run s).2)
    have used : Step.consumed ⟨call, s⟩ =
        (d.lines.drop s.pos).take ((call.run s).2.pos - s.pos) := by
      rw [Step.consumed, h.lines_eq]
      rfl
    have behind : d.lines.drop (call.run s).2.pos =
        (d.lines.drop s.pos).drop ((call.run s).2.pos - s.pos) := by
      rw [List.drop_drop, Nat.add_sub_cancel' forward]
    have lengths : (stop calls (call.run s).2).pos - s.pos =
        (call.run s).2.pos - s.pos + ((stop calls (call.run s).2).pos - (call.run s).2.pos) := by
      omega
    rw [walk, stop, List.flatMap_cons, used, ih (h.reaches hend first), behind, lengths,
      List.take_add]

/-- After a search for a record that found none, no line and no record is found any more. -/
theorem answer_of_ended {pre post : List Step} {step step' : Step}
    (h : walk calls s = pre ++ step :: post) (hcall : step.call = .nextRecord)
    (hnone : step.answer = .line none) (hmem : step' ∈ post)
    (hcall' : step'.call = .nextRecord ∨ step'.call = .nextLine) : step'.answer = .line none := by
  induction calls generalizing s pre with
  | nil => exact absurd h.symm (List.append_ne_nil_of_right_ne_nil pre (List.cons_ne_nil step post))
  | cons call calls ih =>
    rw [walk] at h
    cases pre with
    | nil =>
      obtain ⟨rfl, rfl⟩ := List.cons.inj h
      have ended := Step.over_of_denied (.inl hnone)
      have stays := eq_of_reaches_over (reaches_of_mem_walk hmem) ended
      exact Step.answer_of_over (stays ▸ ended) hcall'
    | cons first pre => exact ih (List.cons.inj h).2

/-- However a scanner is used, it stays in its section.

* No step goes back or goes on past the first banner at or behind the start, nor past the end of
  the dump. A line that is given out or used up is a line of the section and no banner. The first
  line of a record is not blank. A record is read from the lines of the section alone. No line is
  denied before the end of the section.
* All steps together use up the lines between the start and the end of the walk, each once and in
  order.
* Once no record was found, no line and no record is found any more. -/
theorem walk_stays_in_section (h : d.Opens s) (calls : List Call) :
    ∃ limit, d.SectionEnd s.pos limit ∧
      (∀ step ∈ walk calls s, step.Sound d s.pos limit) ∧
      (walk calls s).flatMap Step.consumed =
        (d.lines.drop s.pos).take ((stop calls s).pos - s.pos) ∧
      ∀ pre step post, walk calls s = pre ++ step :: post → step.call = .nextRecord →
        step.answer = .line none →
          ∀ step' ∈ post, step'.call = .nextRecord ∨ step'.call = .nextLine →
            step'.answer = .line none := by
  obtain ⟨hlines, hpos⟩ := Dump.lines_of_opens h
  obtain ⟨limit, hend⟩ := Dump.exists_sectionEnd hpos
  have place : Between d s.pos limit s := ⟨hlines, Nat.le_refl _, hend.start_le⟩
  exact ⟨limit, hend,
    fun step hstep => Step.sound hend (place.reaches hend (reaches_of_mem_walk hstep)),
    flatMap_consumed hend place calls,
    fun pre step post hwalk hcall hnone step' hmem hcall' =>
      answer_of_ended hwalk hcall hnone hmem hcall'⟩

/-- A section whose only record breaks off, with another section behind it. -/
def brokenOff : Dump := ⟨[
  "*** TYPES",
  "",
  "0x1000 : LF_CLASS",
  "*** SYMBOLS",
  " field list type 0x0000, "].map String.toList⟩

/-- The calls of a reader that goes on after a record that it could not read. -/
def readOn : List Call :=
  [.nextRecord, .readRecord "0x1000 : LF_CLASS".toList, .nextLine, .nextRecord]

/-- The reader of the record fails at the banner, and neither it nor what is called after it reads
anything behind it. -/
theorem walk_stays_in_section_brokenOff :
    brokenOff.Opens ⟨brokenOff.lines.toArray, 1⟩ ∧
      (∀ step ∈ walk readOn ⟨brokenOff.lines.toArray, 1⟩, step.after.pos ≤ 3) ∧
      (walk readOn ⟨brokenOff.lines.toArray, 1⟩).flatMap Step.consumed =
        [[], "0x1000 : LF_CLASS".toList] := by
  have sought : brokenOff.seek .types = .ok ⟨brokenOff.lines.toArray, 1⟩ := by
    rw [Dump.seek, seek, Dump.scanner, List.findIdx?_toArray]
    rfl
  have opens := Dump.Opens.sought .types _ sought
  obtain ⟨limit, hend, hsound, hconsumed, _⟩ := walk_stays_in_section opens readOn
  have limit_le : limit ≤ 3 := by
    by_contra hlt
    have inside := hend.inside 3 "*** SYMBOLS".toList (by decide) (by omega) rfl
    exact absurd inside (by decide)
  have stops : (stop readOn ⟨brokenOff.lines.toArray, 1⟩).pos = 3 := by decide +kernel
  refine ⟨opens, fun step hstep => Nat.le_trans (hsound step hstep).inside limit_le, ?_⟩
  rw [hconsumed, stops]
  rfl

end Scanner
end Lineage
