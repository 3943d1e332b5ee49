import Lineage.Proofs.Record.Confined
import Lineage.Proofs.TypeTable.Runs

/-!
# The record at which the table is refused

Where the records of a section make no table, the fault belongs to one of them, and the number in
the fault leads to it. The records of a section are its runs of visible lines, here each with the
number of its first line in the dump (`numberedRuns`).

The reading of the table goes over these runs in order. Each one that is left behind could be read
alone and has given what it has to the table. The one at which reading stops could not be
read, or it repeats an id that the table has by then (`Refused`). A reader that fails does so inside
its run (`Record.confined_read`), and a repeated id is reported at the first line.

The loop over records is followed by induction on the lines that are left, with the table as it is.
A step either reads a run, and then the rest is about a larger table (`RefusedAmong.later`), or
stops there (`RefusedAmong.here`). Numbers are given to the runs once, at the start, so the
induction does not have to count.

Main result: `refused_at_first_offender`.
-/

namespace Lineage

/-! ## Where a run stands -/

/-- A run stands in the lines where its number says. -/
theorem exists_of_mem_numberedRuns {n first : Nat} {lines run : List Text} :
    ((first, run) ∈ numberedRuns n lines ∨ (first, run) ∈ numberedVisibleRuns n lines) →
      ∃ before after, lines = before ++ (run ++ after) ∧ first = n + before.length + 1 := by
  induction lines generalizing n with
  | nil =>
    intro h
    rcases h with h | h <;> cases h
  | cons l lines ih =>
    intro h
    have later : ((first, run) ∈ numberedRuns (n + 1) lines ∨
        (first, run) ∈ numberedVisibleRuns (n + 1) lines) →
        ∃ before after, l :: lines = before ++ (run ++ after) ∧ first = n + before.length + 1 := by
      intro h
      obtain ⟨before, after, hlines, hfirst⟩ := ih h
      refine ⟨l :: before, after, congrArg (l :: ·) hlines, ?_⟩
      rw [hfirst, List.length_cons]
      omega
    cases hl : l.allBlank with
    | true =>
      rw [numberedRuns_cons_of_blank hl, numberedVisibleRuns_cons_of_blank hl, or_self] at h
      exact later (.inr h)
    | false =>
      rw [numberedRuns_cons_of_visible hl, numberedVisibleRuns_cons_of_visible hl,
        List.mem_cons] at h
      rcases h with h | h | h
      · exact later (.inl h)
      · obtain ⟨rfl, rfl⟩ := Prod.mk.inj h
        refine ⟨[], lines.dropWhile fun l => !l.allBlank, ?_, rfl⟩
        exact congrArg (l :: ·) List.takeWhile_append_dropWhile.symm
      · exact later (.inl h)

namespace TypeTable

variable {t u : TypeTable} {c d : Cursor} {e : Fault} {run : List Text} {first : Nat}

/-! ## Refusals -/

/-- The run whose first line has this number cannot be added to the table, for this fault. -/
inductive Refused (t : TypeTable) (first : Nat) (run : List Text) (e : Fault) : Prop
  /-- The run cannot be read, neither here nor alone. -/
  | unreadable (header : Text) (d d' : Cursor) (hheader : run.head? = some header)
    (hd : d.line = first) (hblock : run.tail <+: d.rest)
    (hread : (Record.read header).run d = (.error e, d'))
    (halone : ∀ v, ofDump (alone run) ≠ .ok v)
  /-- The run yields a record whose id the table has. -/
  | repeated (r : TypeRecord) (halone : recordsAlone run = [r]) (hid : r.id ∈ t.ids)
    (hinsert : t.insert r first = .error e)

/-- Of the runs that are added to the table one after the other, the first that is refused, with a
fault that points into it. The table `u` has what the runs before it yield. -/
def RefusedAmong (t : TypeTable) (runs : List (Nat × List Text)) (e : Fault) : Prop :=
  ∃ pre first run post u, runs = pre ++ (first, run) :: post ∧
    (∀ r ∈ pre, ∃ v, ofDump (alone r.2) = .ok v) ∧
    u.records = t.records ++ pre.flatMap (fun r => recordsAlone r.2) ∧
    Refused u first run e ∧ e.PointsInto first (first + run.length - 1)

theorem RefusedAmong.here {runs : List (Nat × List Text)} (h : Refused t first run e)
    (hpoints : e.PointsInto first (first + run.length - 1)) :
    RefusedAmong t ((first, run) :: runs) e :=
  ⟨[], first, run, runs, t, rfl, nofun, (List.append_nil _).symm, h, hpoints⟩

theorem RefusedAmong.later {runs : List (Nat × List Text)} (hrun : ∃ v, ofDump (alone run) = .ok v)
    (hu : u.records = t.records ++ recordsAlone run) (h : RefusedAmong u runs e) :
    RefusedAmong t ((first, run) :: runs) e := by
  obtain ⟨pre, first', run', post, w, rfl, hpre, hw, hrefused⟩ := h
  refine ⟨(first, run) :: pre, first', run', post, w, rfl, List.forall_mem_cons.2 ⟨hrun, hpre⟩, ?_,
    hrefused⟩
  rw [hw, hu, List.flatMap_cons, List.append_assoc]

theorem lineNumber?_of_insert {r : TypeRecord} {n : Nat} (h : t.insert r n = .error e) :
    r.id ∈ t.ids ∧ e.lineNumber? = some n := by
  have known : ¬ ∃ u, t.insert r n = .ok u := by
    rw [h]
    exact nofun
  rw [insert_eq_ok_iff, not_not] at known
  refine ⟨known, ?_⟩
  unfold insert at h
  split at h
  next =>
    obtain rfl := Except.error.inj h
    rfl
  next => cases h

/-- What a reader does with a run, by where it stops. -/
theorem read_run_inside {header : Text}
    (h : IsRun (header :: d.rest.takeWhile fun l => !l.allBlank)) :
    (∃ e d', (Record.read header).run d = (.error e, d') ∧
      e.PointsInto d.line (d.line + (d.rest.takeWhile fun l => !l.allBlank).length) ∧
      ∀ v, ofDump (alone (header :: d.rest.takeWhile fun l => !l.allBlank)) ≠ .ok v) ∨
    ∃ o d', (Record.read header).run d = (.ok o, d') ∧
      numberedRuns d'.line d'.rest = numberedRuns d.line d.rest ∧
      (∃ v, ofDump (alone (header :: d.rest.takeWhile fun l => !l.allBlank)) = .ok v) ∧
      recordsAlone (header :: d.rest.takeWhile fun l => !l.allBlank) = o.toList := by
  have hbreak := atBreak_dropWhile d.rest
  have hd : d.rest = (d.rest.takeWhile fun l => !l.allBlank) ++
      d.rest.dropWhile fun l => !l.allBlank := List.takeWhile_append_dropWhile.symm
  have hvisible : ∀ l ∈ d.rest.takeWhile fun l => !l.allBlank, l.allBlank = false :=
    fun l hl => (h l (List.mem_cons_of_mem header hl)).1
  have hinside := Record.confined_read hbreak header d ⟨Nat.le_refl d.line, _, hvisible, hd, rfl⟩
  rcases read_run h with ⟨e, d', hread, hnone⟩ | ⟨o, d', hread, _, hsome, hyields⟩
  · rw [hread] at hinside
    cases hinside with
    | error _ _ hpoints => exact .inl ⟨e, d', hread, hpoints, hnone⟩
  · rw [hread] at hinside
    cases hinside with
    | ok _ _ hd' =>
      obtain ⟨_, left, hleft, hrest, hlast⟩ := hd'
      refine .inr ⟨o, d', hread, ?_, hsome, hyields⟩
      rw [hrest, numberedRuns_append_of_visible hleft, hlast]
      conv_rhs => rw [hd]
      exact (numberedRuns_append_of_visible hvisible d.line).symm

/-- A section whose reading stops with a fault has a first run that is refused. -/
theorem refusedAmong_of_readFrom (hc : ∀ l ∈ c.rest, Dump.isBanner l = false)
    (h : readFrom t c = .error e) : RefusedAmong t (numberedRuns c.line c.rest) e := by
  induction hn : c.rest.length using Nat.strongRecOn generalizing t c with
  | _ n ih =>
    rcases hnext : c.nextRecord with ⟨header?, d⟩
    rcases numberedRuns_of_nextRecord hnext with ⟨rfl, _⟩ | ⟨header, rfl, _, hruns⟩
    · rw [readFrom_of_nextRecord_none hnext] at h
      cases h
    · have hrun := isRun_of_nextRecord hc hnext
      have hd := before_of_nextRecord hnext
      rw [readFrom_of_nextRecord hnext] at h
      rw [hruns]
      rcases read_run_inside hrun with ⟨e', d', hread, hpoints, hnone⟩ |
        ⟨o, d', hread, hsame, hsome, hyields⟩
      · rw [hread] at h
        obtain rfl := Except.error.inj h
        refine .here (.unreadable header d d' rfl rfl (List.takeWhile_prefix _) hread hnone) ?_
        rwa [List.length_cons, ← Nat.add_assoc, Nat.add_sub_cancel]
      · rw [hread] at h
        have hd' : d.Before d' := by
          rw [show d' = ((Record.read header).run d).2 by rw [hread]]
          exact Record.before_read header d
        obtain ⟨lines, hlines, _⟩ := hd.trans hd'
        have hlt : d'.rest.length < n := by
          rw [← hn]
          exact Nat.lt_of_le_of_lt hd'.length_le (Cursor.nextRecord_length_lt hnext)
        have among : ∀ t' : TypeTable, readFrom t' d' = .error e →
            RefusedAmong t' (numberedRuns d.line d.rest) e := fun t' h' =>
          hsame ▸ ih d'.rest.length hlt (t := t') (c := d')
            (fun l hl => hc l (hlines ▸ List.mem_append_right lines hl)) h' rfl
        cases o with
        | none =>
          refine .later hsome ?_ (among t h)
          rw [hyields, Option.toList_none, List.append_nil]
        | some r =>
          dsimp only at h
          cases hins : t.insert r d.line with
          | ok t' =>
            rw [hins] at h
            refine .later hsome ?_ (among t' h)
            rw [hyields, records_insert hins, Option.toList_some]
          | error e' =>
            rw [hins] at h
            obtain rfl := Except.error.inj h
            obtain ⟨hid, hline⟩ := lineNumber?_of_insert hins
            refine .here (.repeated r hyields hid hins) ?_
            exact Fault.pointsInto_of_le hline (Nat.le_refl _) (by rw [List.length_cons]; omega)

/-- A dump whose records make no table is refused at the first record that cannot be read alone or
that repeats an id.

* All records before it can be read alone, and the table `t` has what they yield.
* The fault is that of this record, and points to one of its lines or to the one after them.
* The numbers are those of the dump. -/
theorem refused_at_first_offender {dump : Dump} (henter : dump.enter .types = .ok c)
    (h : ofDump dump = .error e) :
    ∃ pre first run post t, numberedRuns c.line c.rest = pre ++ (first, run) :: post ∧
      (∀ r ∈ pre, ∃ v, ofDump (alone r.2) = .ok v) ∧
      t.records = pre.flatMap (fun r => recordsAlone r.2) ∧
      Refused t first run e ∧
      (∃ n, e.lineNumber? = some n ∧ first ≤ n ∧ n ≤ (first + run.length - 1) + 1) ∧
      (numberedRuns c.line c.rest).map Prod.snd = recordRuns c.rest ∧
      ∃ above below, dump.lines = above ++ (run ++ below) ∧ above.length + 1 = first := by
  obtain ⟨counted, after, hlines, hcount, hinside⟩ := Dump.exists_lines_of_enter henter
  rw [ofDump_eq, henter] at h
  obtain ⟨pre, first, run, post, t, hruns, hpre, ht, hrefused, hpoints⟩ :=
    refusedAmong_of_readFrom hinside h
  have hmem : (first, run) ∈ numberedRuns c.line c.rest := by
    rw [hruns]
    exact List.mem_append_right pre List.mem_cons_self
  obtain ⟨before, rest, hrest, hfirst⟩ := exists_of_mem_numberedRuns (.inl hmem)
  refine ⟨pre, first, run, post, t, hruns, hpre, ht, hrefused, hpoints,
    map_snd_numberedRuns c.line c.rest, counted ++ before, rest ++ after, ?_, ?_⟩
  · rw [hlines, hrest]
    simp only [List.append_assoc]
  · rw [List.length_append, hcount, hfirst]

/-- A section whose second record has the id of the first. -/
def repeatingDump : Dump := ⟨[
  "*** TYPES",
  "",
  "0x1001 : LF_MFUNCTION",
  " Class type = 0x1000, This type = 0x1002, ",
  "",
  "0x1001 : LF_MFUNCTION",
  " Class type = 0x1003, This type = 0x1004, "].map String.toList⟩

/-- It is refused at its sixth line. -/
theorem refused_at_first_offender_repeating : ∃ c e, repeatingDump.enter .types = .ok c ∧
    ofDump repeatingDump = .error e ∧ e.lineNumber? = some 6 ∧
    ∃ pre first run post t, numberedRuns c.line c.rest = pre ++ (first, run) :: post ∧
      t.records = pre.flatMap (fun r => recordsAlone r.2) ∧ Refused t first run e := by
  have entered : repeatingDump.enter .types = .ok ⟨1, repeatingDump.lines.drop 1⟩ := rfl
  have refused : ofDump repeatingDump = .error (.unexpected "unique type id".toList 6
      "0x1001 redefined (member function then member function)".toList) := by decide +kernel
  obtain ⟨pre, first, run, post, t, hruns, _, ht, hrefused, _⟩ :=
    refused_at_first_offender entered refused
  exact ⟨_, _, entered, refused, rfl, pre, first, run, post, t, hruns, ht, hrefused⟩

end TypeTable
end Lineage
