import Lineage.Proofs.Recovery.Bodies

/-!
# Which procedures are listed

The lines of the symbol sections with the tag of a procedure hold one procedure each, and each of
these is to be listed once.

A line is taken for a procedure by the tags on it, and the name of a procedure is any text. If a tag
of another kind is in the name, as in `Reader::visit_LF_CLASS`, the line is passed over. A procedure
at the address of an earlier one with the same name goes for its repeat, whatever the types of the
two are. A linker that folds the code of two overloads makes such a pair. So every procedure is
listed exactly if no other tag masks one (`Unmasked`) and those with one address and one name
agree (`Agreeing`). Whether they do or not, what is listed are the first of their kind.

Main results: `lists_every_procedure_iff`, with `not_listsEvery_visitor` and
`not_listsEvery_foldedOverloads`.
-/

namespace Lineage

/-- The procedure goes for a repeat of the other one. -/
def Procedure.Repeats (p q : Procedure) : Prop := p.address = q.address ∧ p.name = q.name

instance (p q : Procedure) : Decidable (p.Repeats q) := inferInstanceAs (Decidable (_ ∧ _))

namespace Procedure.Repeats

variable {p q r : Procedure}

theorem refl (p : Procedure) : p.Repeats p := ⟨rfl, rfl⟩

theorem symm (h : p.Repeats q) : q.Repeats p := ⟨h.1.symm, h.2.symm⟩

theorem trans (h : p.Repeats q) (h' : q.Repeats r) : p.Repeats r :=
  ⟨h.1.trans h'.1, h.2.trans h'.2⟩

/-- Repeats of one procedure that have its type, too, are the same. -/
theorem eq_of_type (h : p.Repeats q) (htype : p.type = q.type) : p = q := by
  obtain ⟨name, type, address⟩ := p
  obtain ⟨haddress, hname⟩ := h
  cases q
  congr

end Procedure.Repeats

namespace Symbol

variable {d : Dump} {layout : Image.Layout} {line : Text} {lines : List Text} {s : Dump.Section}
  {p q : Procedure} {ps qs rs : List Procedure}

/-! ## What the lines hold -/

/-- The procedure on a line, wherever the line stands. -/
def procedureOn? (layout : Image.Layout) (line : Text) : Option Procedure :=
  (readProcedure line 0 layout).toOption

/-- The procedures on the lines that are taken for one, in order. -/
def readings (layout : Image.Layout) (lines : List Text) : List Procedure :=
  (lines.filter fun line => RecordKind.ofLine line = .procedure).filterMap (procedureOn? layout)

/-- The lines of the sections that list procedures. -/
def procedureLines (d : Dump) : List Text :=
  procedureSections.flatMap fun s => (d.body? s).getD []

/-- A procedure is read off its line, wherever the line stands. -/
theorem readProcedure_eq_ok_iff (n : Nat) :
    readProcedure line n layout = .ok p ↔ procedureOn? layout line = some p := by
  rw [← unplaced_eq_ok_iff, unplaced_readProcedure line n 0, unplaced_eq_ok_iff, procedureOn?]
  cases readProcedure line 0 layout with
  | ok q => simp [Except.toOption]
  | error e => simp [Except.toOption]

/-- The readings are the procedures on the lines that are taken for procedures. -/
theorem mem_readings_iff : p ∈ readings layout lines ↔
    ∃ line ∈ lines, RecordKind.ofLine line = .procedure ∧ procedureOn? layout line = some p := by
  simp only [readings, List.mem_filterMap, List.mem_filter, decide_eq_true_eq, and_assoc]

/-- A line that is taken for a procedure has the tag of one. -/
theorem mentions_of_ofLine (h : RecordKind.ofLine line = .procedure) :
    line.mentions RecordKind.procedureTag = true := by
  by_contra hquiet
  rw [Bool.not_eq_true] at hquiet
  unfold RecordKind.ofLine at h
  rw [hquiet] at h
  split at h
  · cases h
  split at h
  · cases h
  split at h
  · cases h
  split at h
  next hfalse => cases hfalse
  split at h <;> cases h

/-! ## Reading -/

/-- All lines that are taken for a procedure can be read. -/
def Readable (layout : Image.Layout) (lines : List Text) : Prop :=
  ∀ line ∈ lines, RecordKind.ofLine line = .procedure → ∃ p, procedureOn? layout line = some p

theorem readable_nil : Readable layout [] := fun _ h => absurd h List.not_mem_nil

theorem readable_append {lines' : List Text} : Readable layout (lines ++ lines') ↔
    Readable layout lines ∧ Readable layout lines' :=
  List.forall_mem_append

/-- Sections are read one after the other. -/
theorem readings_append (lines lines' : List Text) :
    readings layout (lines ++ lines') = readings layout lines ++ readings layout lines' := by
  rw [readings, List.filter_append, List.filterMap_append, readings, readings]

/-- One section: every line that is taken for a procedure has to be one, and repeats are dropped as
they come. -/
theorem readProcedures_eq_ok_iff {n : Nat} : readProcedures layout ps n lines = .ok qs ↔
    Readable layout lines ∧ (readings layout lines).foldl addProcedure ps = qs := by
  induction lines generalizing ps n with
  | nil => exact ⟨fun h => ⟨readable_nil, Except.ok.inj h⟩, fun h => congrArg Except.ok h.2⟩
  | cons line rest ih =>
    rw [readProcedures_cons, Readable, List.forall_mem_cons, readings]
    by_cases hkind : RecordKind.ofLine line = .procedure
    · rw [if_pos hkind, bind_eq_ok_iff, List.filter_cons_of_pos (by simpa using hkind)]
      simp only [readProcedure_eq_ok_iff, ih]
      constructor
      · rintro ⟨p, hp, hrest, rfl⟩
        refine ⟨⟨fun _ => ⟨p, hp⟩, hrest⟩, ?_⟩
        rw [List.filterMap_cons_some hp, List.foldl_cons, readings]
      · rintro ⟨⟨hline, hrest⟩, rfl⟩
        obtain ⟨p, hp⟩ := hline hkind
        refine ⟨p, hp, hrest, ?_⟩
        rw [List.filterMap_cons_some hp, List.foldl_cons, readings]
    · rw [if_neg hkind, ih, List.filter_cons_of_neg (by simpa using hkind)]
      exact and_congr_left' ⟨fun h => ⟨fun hk => absurd hk hkind, h⟩, And.right⟩

/-- A section that is missing has no lines. -/
theorem readProcedureSection_eq_ok_iff : readProcedureSection d layout ps s = .ok qs ↔
    Readable layout ((d.body? s).getD []) ∧
      (readings layout ((d.body? s).getD [])).foldl addProcedure ps = qs := by
  rw [readProcedureSection_eq]
  cases hbody : d.body? s with
  | none =>
    rw [Dump.enter_of_body?_eq_none hbody]
    exact ⟨fun h => ⟨readable_nil, Except.ok.inj h⟩, fun h => congrArg Except.ok h.2⟩
  | some body =>
    obtain ⟨n, henter⟩ := Dump.enter_of_body? hbody
    rw [henter]
    exact readProcedures_eq_ok_iff

/-- What is listed is what is read from the lines of all sections, without repeats. -/
theorem proceduresOf_eq_ok_iff : proceduresOf d layout = .ok ps ↔
    Readable layout (procedureLines d) ∧
      (readings layout (procedureLines d)).foldl addProcedure [] = ps := by
  have general (sections : List Dump.Section) (qs : List Procedure) :
      sections.foldlM (readProcedureSection d layout) qs = .ok ps ↔
        Readable layout (sections.flatMap fun s => (d.body? s).getD []) ∧
          (readings layout (sections.flatMap fun s => (d.body? s).getD [])).foldl addProcedure qs =
            ps := by
    induction sections generalizing qs with
    | nil => exact ⟨fun h => ⟨readable_nil, Except.ok.inj h⟩, fun h => congrArg Except.ok h.2⟩
    | cons s sections ih =>
      rw [List.foldlM_cons, bind_eq_ok_iff]
      simp only [readProcedureSection_eq_ok_iff, ih]
      rw [List.flatMap_cons, readable_append, readings_append, List.foldl_append]
      constructor
      · rintro ⟨_, ⟨hs, rfl⟩, hsections, rfl⟩
        exact ⟨⟨hs, hsections⟩, rfl⟩
      · rintro ⟨⟨hs, hsections⟩, rfl⟩
        exact ⟨_, ⟨hs, rfl⟩, hsections, rfl⟩
  exact general procedureSections []

/-! ## Dropping repeats -/

/-- A repeat is dropped. -/
theorem addProcedure_of_repeats (h : ∃ q ∈ ps, q.Repeats p) : addProcedure ps p = ps := by
  rw [addProcedure]
  refine if_pos (List.any_eq_true.2 ?_)
  obtain ⟨q, hq, haddress, hname⟩ := h
  exact ⟨q, hq, by simp [haddress, hname]⟩

/-- Anything else is added at the end. -/
theorem addProcedure_of_not_repeats (h : ¬ ∃ q ∈ ps, q.Repeats p) :
    addProcedure ps p = ps ++ [p] := by
  rw [addProcedure]
  refine if_neg fun hany => h ?_
  obtain ⟨q, hq, hsame⟩ := List.any_eq_true.1 hany
  simp only [Bool.and_eq_true, decide_eq_true_eq, beq_iff_eq] at hsame
  exact ⟨q, hq, hsame⟩

/-- Of each procedure that was met a repeat is listed. -/
theorem exists_repeats_foldl_iff (rs : List Procedure) (p : Procedure) :
    (∃ q ∈ rs.foldl addProcedure [], q.Repeats p) ↔ ∃ q ∈ rs, q.Repeats p := by
  induction rs using List.reverseRecOn with
  | nil => rfl
  | append_singleton rs r ih =>
    rw [List.foldl_append, List.foldl_cons, List.foldl_nil]
    simp only [List.mem_append, List.mem_singleton, or_and_right, exists_or, exists_eq_left]
    by_cases hr : ∃ q ∈ rs.foldl addProcedure [], q.Repeats r
    · rw [addProcedure_of_repeats hr, ih]
      refine (or_iff_left_of_imp fun hp => ?_).symm
      obtain ⟨q, hq, hqr⟩ := hr
      exact ih.1 ⟨q, hq, hqr.trans hp⟩
    · rw [addProcedure_of_not_repeats hr]
      simp only [List.mem_append, List.mem_singleton, or_and_right, exists_or, exists_eq_left, ih]

/-- A procedure is listed exactly if it is the first of its repeats. -/
theorem mem_foldl_addProcedure_iff (rs : List Procedure) (p : Procedure) :
    p ∈ rs.foldl addProcedure [] ↔ rs.find? (fun q => q.Repeats p) = some p := by
  induction rs using List.reverseRecOn with
  | nil => simp
  | append_singleton rs r ih =>
    rw [List.foldl_append, List.foldl_cons, List.foldl_nil, List.find?_append]
    have met := exists_repeats_foldl_iff rs r
    by_cases hr : ∃ q ∈ rs.foldl addProcedure [], q.Repeats r
    · rw [addProcedure_of_repeats hr, ih]
      cases hfind : rs.find? fun q => q.Repeats p with
      | some q => rw [Option.some_or]
      | none =>
        -- What comes last is a repeat, so it is not the first one.
        rw [Option.none_or]
        refine iff_of_false nofun fun hlast => ?_
        obtain ⟨q, hq, hqr⟩ := met.1 hr
        obtain rfl : p = r := List.mem_singleton.1 (List.mem_of_find?_eq_some hlast)
        exact absurd hqr (by simpa using List.find?_eq_none.1 hfind q hq)
    · rw [addProcedure_of_not_repeats hr, List.mem_append, List.mem_singleton, ih]
      cases hfind : rs.find? fun q => q.Repeats p with
      | some q =>
        rw [Option.some_or]
        refine or_iff_left ?_
        rintro rfl
        refine hr (met.2 ⟨q, List.mem_of_find?_eq_some hfind, ?_⟩)
        simpa using List.find?_some hfind
      | none =>
        rw [Option.none_or, List.find?_singleton]
        refine ⟨?_, fun hlast => ?_⟩
        · rintro (hnone | rfl)
          · cases hnone
          · exact if_pos (by simpa using Procedure.Repeats.refl p)
        · split at hlast
          · exact .inr (Option.some.inj hlast).symm
          · cases hlast

/-- Nothing is listed twice, since a procedure repeats itself. -/
theorem nodup_foldl_addProcedure (rs : List Procedure) : (rs.foldl addProcedure []).Nodup := by
  induction rs using List.reverseRecOn with
  | nil => exact List.nodup_nil
  | append_singleton rs r ih =>
    rw [List.foldl_append, List.foldl_cons, List.foldl_nil]
    by_cases hr : ∃ q ∈ rs.foldl addProcedure [], q.Repeats r
    · rwa [addProcedure_of_repeats hr]
    · rw [addProcedure_of_not_repeats hr, List.nodup_append]
      refine ⟨ih, List.nodup_singleton r, fun q hq q' hq' heq => ?_⟩
      obtain rfl := heq.trans (List.mem_singleton.1 hq')
      exact hr ⟨q, hq, .refl q⟩

/-- All that was met is listed exactly if repeats are the same. -/
theorem subset_foldl_addProcedure_iff (rs : List Procedure) :
    (∀ p ∈ rs, p ∈ rs.foldl addProcedure []) ↔
      ∀ p ∈ rs, ∀ q ∈ rs, p.Repeats q → p.type = q.type := by
  constructor
  · intro hall p hp q hq hpq
    have first_p := (mem_foldl_addProcedure_iff rs p).1 (hall p hp)
    have first_q := (mem_foldl_addProcedure_iff rs q).1 (hall q hq)
    have same : (fun r : Procedure => decide (r.Repeats p)) = fun r => decide (r.Repeats q) :=
      funext fun r => decide_eq_decide.2 ⟨fun h => h.trans hpq, fun h => h.trans hpq.symm⟩
    rw [same, first_q] at first_p
    rw [Option.some.inj first_p]
  · intro hagree p hp
    rw [mem_foldl_addProcedure_iff]
    cases hfind : rs.find? fun q => q.Repeats p with
    | none =>
      have hno : ¬ p.Repeats p := by simpa using List.find?_eq_none.1 hfind p hp
      exact absurd (Procedure.Repeats.refl p) hno
    | some q =>
      have hqp : q.Repeats p := by simpa using List.find?_some hfind
      exact congrArg some (hqp.eq_of_type (hagree q (List.mem_of_find?_eq_some hfind) p hp hqp))

/-! ## What is listed -/

/-- The procedures on the lines with the tag of one are listed, each once, and nothing else is. -/
structure ListsEvery (d : Dump) (layout : Image.Layout) (ps : List Procedure) : Prop where
  every : ∀ line ∈ procedureLines d, line.mentions RecordKind.procedureTag = true →
    ∀ p ∈ procedureOn? layout line, p ∈ ps
  distinct : ps.Nodup
  listed : ∀ p ∈ ps, ∃ line ∈ procedureLines d,
    line.mentions RecordKind.procedureTag = true ∧ p ∈ procedureOn? layout line

/-- A procedure on a line that has the tag is also on a line that is taken for one. -/
def Unmasked (d : Dump) (layout : Image.Layout) : Prop :=
  ∀ line ∈ procedureLines d, line.mentions RecordKind.procedureTag = true →
    ∀ p ∈ procedureOn? layout line, p ∈ readings layout (procedureLines d)

/-- Procedures with one address and one name have one type. -/
def Agreeing (d : Dump) (layout : Image.Layout) : Prop :=
  ∀ p ∈ readings layout (procedureLines d), ∀ q ∈ readings layout (procedureLines d),
    p.Repeats q → p.type = q.type

/-- When the procedures of a dump are listed. In any case none is listed twice, those that are
listed are on lines with the tag, and of each procedure on a line that is taken for one there is a
repeat. -/
theorem lists_every_procedure_iff (h : proceduresOf d layout = .ok ps) :
    (ListsEvery d layout ps ↔ Unmasked d layout ∧ Agreeing d layout) ∧ ps.Nodup ∧
    (∀ p ∈ ps, ∃ line ∈ procedureLines d,
      line.mentions RecordKind.procedureTag = true ∧ p ∈ procedureOn? layout line) ∧
    ∀ line ∈ procedureLines d, RecordKind.ofLine line = .procedure →
      ∃ p ∈ procedureOn? layout line, ∃ q ∈ ps, q.Repeats p := by
  obtain ⟨hreadable, rfl⟩ := proceduresOf_eq_ok_iff.1 h
  generalize hrs : readings layout (procedureLines d) = rs
  have distinct := nodup_foldl_addProcedure rs
  have met {p : Procedure} (hp : p ∈ rs.foldl addProcedure []) : p ∈ rs :=
    List.mem_of_find?_eq_some ((mem_foldl_addProcedure_iff rs p).1 hp)
  have listed : ∀ p ∈ rs.foldl addProcedure [], ∃ line ∈ procedureLines d,
      line.mentions RecordKind.procedureTag = true ∧ p ∈ procedureOn? layout line := by
    intro p hp
    obtain ⟨line, hline, hkind, hp⟩ := mem_readings_iff.1 (hrs ▸ met hp)
    exact ⟨line, hline, mentions_of_ofLine hkind, hp⟩
  have reads {line : Text} {p : Procedure} (hline : line ∈ procedureLines d)
      (hkind : RecordKind.ofLine line = .procedure) (hp : procedureOn? layout line = some p) :
      p ∈ rs := hrs ▸ mem_readings_iff.2 ⟨line, hline, hkind, hp⟩
  refine ⟨⟨fun hevery => ?_, fun ⟨hunmasked, hagree⟩ => ?_⟩, distinct, listed,
    fun line hline hkind => ?_⟩
  · refine ⟨fun line hline htag p hp => hrs ▸ met (hevery.every line hline htag p hp), ?_⟩
    rw [Agreeing, hrs]
    refine (subset_foldl_addProcedure_iff rs).1 fun p hp => ?_
    obtain ⟨line, hline, hkind, hp⟩ := mem_readings_iff.1 (hrs ▸ hp)
    exact hevery.every line hline (mentions_of_ofLine hkind) p hp
  · rw [Agreeing, hrs] at hagree
    refine ⟨fun line hline htag p hp => ?_, distinct, listed⟩
    exact (subset_foldl_addProcedure_iff rs).2 hagree p (hrs ▸ hunmasked line hline htag p hp)
  · obtain ⟨p, hp⟩ := hreadable line hline hkind
    exact ⟨p, hp, (exists_repeats_foldl_iff rs p).2 ⟨p, reads hline hkind hp, .refl p⟩⟩

/-- An image with one section. -/
def textLayout : Image.Layout :=
  ⟨0x400000, some [⟨1, ".text".toList, 0x10000, 0x1000⟩]⟩

/-- Two methods, one of which is listed again among the globals. -/
def repeatingDump : Dump := ⟨[
  "*** SYMBOLS",
  "(00012C) S_GPROC32: [0001:00001010], Cb: 0000001A, Type: 0x1001, Base::Bar",
  "*** GLOBALS",
  "(00012C) S_GPROC32: [0001:00001010], Cb: 0000001A, Type: 0x1001, Base::Bar",
  "(000180) S_GPROC32: [0001:00001100], Cb: 0000001A, Type: 0x1002, Base::Baz"].map String.toList⟩

/-- Both are listed. -/
theorem lists_every_procedure_repeating : ∃ p q, p ≠ q ∧
    readings textLayout (procedureLines repeatingDump) = [p, p, q] ∧
    proceduresOf repeatingDump textLayout = .ok [p, q] ∧
    ListsEvery repeatingDump textLayout [p, q] := by
  let method (name : Text) (type : UInt32) (address : UInt64) : Procedure :=
    ⟨name, some ⟨type⟩, ⟨address⟩⟩
  have read : readings textLayout (procedureLines repeatingDump) =
      [method "Base::Bar".toList 0x1001 0x402010, method "Base::Bar".toList 0x1001 0x402010,
        method "Base::Baz".toList 0x1002 0x402100] := by
    decide +kernel
  have found : proceduresOf repeatingDump textLayout =
      .ok [method "Base::Bar".toList 0x1001 0x402010,
        method "Base::Baz".toList 0x1002 0x402100] := by
    decide +kernel
  have kinds : ∀ line ∈ procedureLines repeatingDump, RecordKind.ofLine line = .procedure := by
    decide +kernel
  have unmasked : Unmasked repeatingDump textLayout := fun line hline _ p hp =>
    mem_readings_iff.2 ⟨line, hline, kinds line hline, hp⟩
  have agreeing : Agreeing repeatingDump textLayout := by
    rw [Agreeing, read]
    decide +kernel
  exact ⟨_, _, by decide, read, found, (lists_every_procedure_iff found).1.2 ⟨unmasked, agreeing⟩⟩

/-- A method that is named for a record of the type section. -/
def visitorDump : Dump := ⟨[
  "*** SYMBOLS",
  "(00012C) S_GPROC32: [0001:00001010], Cb: 0000001A, Type: 0x1001, Reader::visit_LF_CLASS"].map
    String.toList⟩

/-- Its line holds a procedure, and none is listed. -/
theorem not_listsEvery_visitor : proceduresOf visitorDump textLayout = .ok [] ∧
    (∃ line ∈ procedureLines visitorDump, line.mentions RecordKind.procedureTag = true ∧
      procedureOn? textLayout line =
        some ⟨"Reader::visit_LF_CLASS".toList, some ⟨0x1001⟩, ⟨0x402010⟩⟩) ∧
    ¬ ListsEvery visitorDump textLayout [] := by
  have held : ∃ line ∈ procedureLines visitorDump,
      line.mentions RecordKind.procedureTag = true ∧ procedureOn? textLayout line =
        some ⟨"Reader::visit_LF_CLASS".toList, some ⟨0x1001⟩, ⟨0x402010⟩⟩ := by
    decide +kernel
  refine ⟨by decide +kernel, held, fun hevery => ?_⟩
  obtain ⟨line, hline, htag, hp⟩ := held
  exact absurd (hevery.every line hline htag _ hp) List.not_mem_nil

/-- Two overloads at one address. -/
def foldedOverloadsDump : Dump := ⟨[
  "*** SYMBOLS",
  "(00012C) S_GPROC32: [0001:00001010], Cb: 0000001A, Type: 0x1001, Base::Set",
  "(000160) S_GPROC32: [0001:00001010], Cb: 0000001A, Type: 0x1002, Base::Set"].map String.toList⟩

/-- Only the first of them is listed. -/
theorem not_listsEvery_foldedOverloads : ∃ p q, p.Repeats q ∧ p.type ≠ q.type ∧
    readings textLayout (procedureLines foldedOverloadsDump) = [p, q] ∧
    proceduresOf foldedOverloadsDump textLayout = .ok [p] := by
  let overload (type : UInt32) : Procedure := ⟨"Base::Set".toList, some ⟨type⟩, ⟨0x402010⟩⟩
  exact ⟨overload 0x1001, overload 0x1002, ⟨rfl, rfl⟩, by decide, by decide +kernel,
    by decide +kernel⟩

end Symbol
end Lineage
