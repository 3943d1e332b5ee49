import Lineage.Dump.Scanner
import Mathlib.Data.List.TakeWhile

/-!
# What a scanner sees

A scanner holds the whole dump and looks for the end of its section at every step. A cursor
holds the lines up to the next banner and never meets one. `Scanner.view` forgets everything but
these lines, and whatever a scanner is asked it answers as its view does (`hom_view`): it shows the
same line, goes on to the same place, and finds the same next record.

The lines that are left of a section are the lines of the dump behind the position, as long as they
are no banners. So each question comes down to the line at the position, and there are three cases:
there is none, it is a banner, or it is the first line of the view (`view_of_line?`). The searches
for a record loop over lines. Their induction is on how many lines of the dump are behind the
position, as their recursion is.

Sections are entered alike, too. A scanner looks for the position behind the banner, a cursor for
the lines behind it (`enter_eq_map_seek`). Whatever reads a section enters it first, so all that is
read of a dump can be read of views.

Main results: `hom_view` and `enter_eq_map_seek`.
-/

namespace Lineage

/-! ## Skipping lines of a section -/

namespace Cursor

variable {p : Text → Bool} {l : Text} {n : Nat} {rest : List Text}

/-- A line that is to be skipped is. -/
theorem skip_cons (h : p l = true) : skip p ⟨n, l :: rest⟩ = skip p ⟨n + 1, rest⟩ := by
  rw [skip, skip, List.takeWhile_cons_of_pos h, List.dropWhile_cons_of_pos h, List.length_cons,
    Nat.add_right_comm, Nat.add_assoc]

/-- Skipping ends at the first line that is not to be skipped. -/
theorem skip_cons_neg (h : p l = false) : skip p ⟨n, l :: rest⟩ = ⟨n, l :: rest⟩ := by
  have h := ne_true_of_eq_false h
  rw [skip, List.takeWhile_cons_of_neg h, List.dropWhile_cons_of_neg h]
  rfl

/-- The rest of a record that was begun is passed over. -/
theorem nextRecord_visible (h : l.allBlank = false) :
    nextRecord ⟨n, l :: rest⟩ = nextRecord ⟨n + 1, rest⟩ := by
  rw [nextRecord, skip_cons (p := fun l => !l.allBlank) (by rw [h]; rfl), nextRecord]

end Cursor

namespace Scanner

variable {s : Scanner} {l : Text}

/-! ## The view at a position -/

theorem peek?_of_line?_none (h : s.line? = none) : s.peek? = none := by
  rw [peek?, h]
  rfl

/-- A banner is not shown. -/
theorem peek?_of_banner (h : s.line? = some l) (hl : Dump.isBanner l = true) :
    s.peek? = none := by
  rw [peek?, h, Option.filter_some, hl]
  rfl

/-- Behind the last line of the dump there is nothing to see. -/
theorem view_of_line?_none (h : s.line? = none) : s.view = ⟨s.pos, []⟩ := by
  have beyond : s.lines.toList.length ≤ s.pos := Array.getElem?_eq_none_iff.1 h
  rw [view, List.drop_eq_nil_of_le beyond]
  rfl

/-- At a banner there is nothing to see, since the next section is not part of this one. -/
theorem view_of_banner (h : s.line? = some l) (hl : Dump.isBanner l = true) :
    s.view = ⟨s.pos, []⟩ := by
  obtain ⟨hpos, hget⟩ := Array.getElem?_eq_some_iff.1 h
  rw [view, List.drop_eq_getElem_cons (i := s.pos) hpos, Array.getElem_toList, hget,
    Dump.untilBanner, List.takeWhile_cons_of_neg (by rw [hl]; decide)]

/-- At any other line the view begins with it, and goes on with what is seen one line further. -/
theorem view_of_line? (h : s.line? = some l) (hl : Dump.isBanner l = false) :
    s.view = ⟨s.pos, l :: s.step.view.rest⟩ := by
  obtain ⟨hpos, hget⟩ := Array.getElem?_eq_some_iff.1 h
  rw [view, List.drop_eq_getElem_cons (i := s.pos) hpos, Array.getElem_toList, hget,
    Dump.untilBanner, List.takeWhile_cons_of_pos (by rw [hl]; rfl)]
  rfl

/-- A banner is not blank. -/
theorem not_isBanner_of_allBlank (h : l.allBlank = true) : Dump.isBanner l = false := by
  refine eq_false_of_ne_true fun hbanner => ?_
  obtain ⟨rest, rfl⟩ := List.isPrefixOf_iff_prefix.1 hbanner
  exact absurd (List.all_eq_true.1 h '*' (by simp)) (by decide)

/-- The banner test of the scanner and the end of the view say the same. -/
theorem view_peek? (s : Scanner) : s.view.peek? = s.peek? := by
  cases h : s.line? with
  | none => rw [view_of_line?_none h, peek?_of_line?_none h]; rfl
  | some l =>
    cases hl : Dump.isBanner l with
    | true => rw [view_of_banner h hl, peek?_of_banner h hl]; rfl
    | false => rw [view_of_line? h hl, peek?_eq_some_iff.2 ⟨h, hl⟩]; rfl

/-- Where the scanner stands still at a banner, the view has no lines left. -/
theorem view_advance (s : Scanner) : s.view.advance = s.advance.view := by
  cases h : s.line? with
  | none =>
    rw [advance_of_peek?_none (peek?_of_line?_none h), view_of_line?_none h]
    rfl
  | some l =>
    cases hl : Dump.isBanner l with
    | true =>
      rw [advance_of_peek?_none (peek?_of_banner h hl), view_of_banner h hl]
      rfl
    | false =>
      rw [advance_of_peek? (peek?_eq_some_iff.2 ⟨h, hl⟩), view_of_line? h hl]
      rfl

/-- The scanner is at the end just if its view is. -/
theorem view_atEnd (s : Scanner) : s.view.atEnd = s.atEnd := by
  rw [atEnd, ← view_peek?, Cursor.atEnd, Cursor.peek?]
  cases s.view.rest <;> rfl

/-! ## Records in view -/

/-- Blank lines are skipped alike, since a blank line is no banner. -/
theorem view_skipBlank (s : Scanner) : s.skipBlank.view = s.view.skip Text.allBlank := by
  unfold skipBlank
  split
  next l h =>
    split
    next hblank =>
      rw [view_of_line? h (not_isBanner_of_allBlank hblank), Cursor.skip_cons hblank]
      exact view_skipBlank s.step
    next hblank =>
      cases hl : Dump.isBanner l with
      | true => rw [view_of_banner h hl]; rfl
      | false => rw [view_of_line? h hl, Cursor.skip_cons_neg (eq_false_of_ne_true hblank)]
  next h => rw [view_of_line?_none h]; rfl
termination_by s.left
decreasing_by exact left_step_lt ‹_›

/-- Taking the first line of a record is a look and a step. -/
theorem takeFirst_eq (s : Scanner) : s.takeFirst = (s.peek?, s.advance) := by
  unfold takeFirst
  split
  next l h =>
    cases hl : Dump.isBanner l with
    | true =>
      have ended := peek?_of_banner h hl
      rw [if_pos rfl, ended, advance_of_peek?_none ended]
    | false =>
      have next := peek?_eq_some_iff.2 ⟨h, hl⟩
      rw [if_neg Bool.false_ne_true, next, advance_of_peek? next]
  next h =>
    have ended := peek?_of_line?_none h
    rw [ended, advance_of_peek?_none ended]

/-- Both skip what is left of the record they are in, then the blank lines behind it, and then take
one line. At each of the three a banner ends the search. -/
theorem view_nextRecord (s : Scanner) :
    s.view.nextRecord = (s.nextRecord.1, s.nextRecord.2.view) := by
  unfold nextRecord
  split
  next l h =>
    split
    next hblank =>
      have between : s.view.skip (fun l => !l.allBlank) = s.view := by
        rw [view_of_line? h (not_isBanner_of_allBlank hblank),
          Cursor.skip_cons_neg (by rw [hblank]; rfl)]
      rw [takeFirst_eq, Cursor.nextRecord, between, ← view_skipBlank, view_peek?, view_advance]
    next hblank =>
      split
      next hl => rw [view_of_banner h hl]; rfl
      next hl =>
        rw [view_of_line? h (eq_false_of_ne_true hl),
          Cursor.nextRecord_visible (eq_false_of_ne_true hblank)]
        exact view_nextRecord s.step
  next h => rw [view_of_line?_none h]; rfl
termination_by s.left
decreasing_by exact left_step_lt ‹_›

end Scanner

/-! ## Sections in view -/

namespace Dump

variable {d : Dump}

/-- The lines behind a banner are those behind the first line that starts with it. -/
theorem after?_eq_map_findIdx? (d : Dump) (s : Section) :
    d.after? s =
      (d.lines.findIdx? fun l => s.banner.isPrefixOf l).map fun i => d.lines.drop (i + 1) := by
  rw [after?]
  cases h : d.lines.findIdx? fun l => s.banner.isPrefixOf l with
  | none =>
    have nowhere : d.lines.dropWhile (fun l => !s.banner.isPrefixOf l) = [] :=
      List.dropWhile_eq_nil_iff.2 fun l hl => by rw [List.findIdx?_eq_none_iff.1 h l hl]; rfl
    rw [nowhere]
    rfl
  | some i =>
    obtain ⟨hlt, hindex⟩ := List.findIdx?_eq_some_iff_findIdx_eq.1 h
    have banner : d.lines.dropWhile (fun l => !s.banner.isPrefixOf l) =
        d.lines[i] :: d.lines.drop (i + 1) := by
      rw [List.dropWhile_eq_drop_findIdx_not, ← List.drop_eq_getElem_cons hlt]
      simp only [Bool.not_not, hindex]
    rw [banner]
    rfl

theorem view_scanner (d : Dump) : d.scanner.view = d.start := rfl

/-- Where a section starts, and what is in view there. -/
theorem enter_eq_map_seek (d : Dump) (s : Section) : d.enter s = (d.seek s).map Scanner.view := by
  rw [enter, after?_eq_map_findIdx?, seek, Scanner.seek, scanner, List.findIdx?_toArray]
  cases h : d.lines.findIdx? fun l => s.banner.isPrefixOf l with
  | none => rfl
  | some i =>
    have hlt := (List.findIdx?_eq_some_iff_findIdx_eq.1 h).1
    have count : d.lines.length - (d.lines.drop (i + 1)).length = i + 1 := by
      rw [List.length_drop]
      omega
    show Except.ok (Cursor.mk _ _) = Except.ok (Cursor.mk _ _)
    rw [count]

/-- Entering a section neither changes the dump nor leaves it. -/
theorem lines_of_seek {s : Section} {found : Scanner} (h : d.seek s = .ok found) :
    found.lines = d.lines.toArray ∧ found.pos ≤ d.lines.length := by
  rw [seek, Scanner.seek] at h
  split at h
  next i hi =>
    obtain rfl := Except.ok.inj h
    rw [scanner, List.findIdx?_toArray] at hi
    exact ⟨rfl, (List.findIdx?_eq_some_iff_findIdx_eq.1 hi).1⟩
  next => cases h

/-- A section is a stretch of the dump without banners, behind the lines that were counted. -/
theorem exists_lines_of_enter {s : Section} {c : Cursor} (h : d.enter s = .ok c) :
    ∃ counted after, d.lines = counted ++ (c.rest ++ after) ∧ counted.length = c.line ∧
      ∀ l ∈ c.rest, isBanner l = false := by
  rw [enter_eq_map_seek] at h
  cases hs : d.seek s with
  | error e =>
    rw [hs] at h
    cases h
  | ok found =>
    rw [hs] at h
    obtain rfl := Except.ok.inj h
    obtain ⟨hlines, hpos⟩ := lines_of_seek hs
    have inView : found.view.rest = untilBanner (d.lines.drop found.pos) := by
      rw [Scanner.view, hlines]
    refine ⟨d.lines.take found.pos, (d.lines.drop found.pos).dropWhile fun l => !isBanner l, ?_,
      List.length_take_of_le hpos, fun l hl => ?_⟩
    · rw [inView, untilBanner, List.takeWhile_append_dropWhile, List.take_append_drop]
    · rw [inView] at hl
      simpa using List.mem_takeWhile_imp hl

end Dump

/-! ## Sources that answer alike -/

namespace LineSource

variable {σ τ : Type} [LineSource σ] [LineSource τ]

/-- Whatever a source is asked, its image answers the same and stays its image. -/
structure Hom (f : σ → τ) : Prop where
  line (s : σ) : LineSource.line (f s) = LineSource.line s
  peek? (s : σ) : LineSource.peek? (f s) = LineSource.peek? s
  advance (s : σ) : LineSource.advance (f s) = f (LineSource.advance s)
  nextRecord (s : σ) :
    LineSource.nextRecord (f s) = ((LineSource.nextRecord s).1, f (LineSource.nextRecord s).2)

/-- A scanner does what its view does. -/
theorem hom_view : Hom Scanner.view where
  line _ := rfl
  peek? := Scanner.view_peek?
  advance := Scanner.view_advance
  nextRecord := Scanner.view_nextRecord

/-- Two sources that answer alike are read to the end in the same way. -/
theorem Hom.restAfter {f : σ → τ} (h : Hom f) (done : List Text) (s : σ) :
    restAfter done (f s) = restAfter done s := by
  rw [LineSource.restAfter, LineSource.restAfter, h.peek?]
  cases hl : LineSource.peek? s with
  | none => rfl
  | some l =>
    show LineSource.restAfter (l :: done) (LineSource.advance (f s)) = _
    rw [h.advance]
    exact h.restAfter (l :: done) (LineSource.advance s)
termination_by left s
decreasing_by exact left_advance_lt hl

/-- A cursor hands out all the lines it has left. -/
theorem restAfter_cursor (done : List Text) (n : Nat) (lines : List Text) :
    restAfter done (⟨n, lines⟩ : Cursor) = done.reverse ++ lines := by
  induction lines generalizing done n with
  | nil =>
    rw [restAfter, List.append_nil]
    rfl
  | cons l lines ih =>
    rw [restAfter]
    show restAfter (l :: done) (⟨n + 1, lines⟩ : Cursor) = _
    rw [ih, List.reverse_cons, List.append_assoc, List.singleton_append]

/-- Read one after another, the lines of a section are those in view. -/
theorem rest_eq_view (s : Scanner) : rest s = s.view.rest := by
  rw [rest, ← hom_view.restAfter]
  exact restAfter_cursor [] s.view.line s.view.rest

end LineSource
end Lineage
