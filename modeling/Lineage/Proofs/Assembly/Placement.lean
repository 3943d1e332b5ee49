import Lineage.Proofs.Assembly.Checks
import Lineage.Proofs.Merging.Survivors
import Lineage.Proofs.Recovery.Stages

/-!
# Which procedure places a method

The address of a method comes about in four stages: procedures are attached to classes by
position, merging hands the positions on to the survivors, it hands on the members as well, and
assembly searches the positions of a class for the first match. What comes out of it has a
direct description that mentions none of these stages: `Places` says when a procedure fits a
method, by the table as it was read, and the first procedure that fits gives the address.

The bridge is `find?_filterMap_getElem?_eq_some_iff`, since the positions of a class are in
ascending order, and so a search along them is a search for the first of all procedures that
fit.

Main result: `Recovery.placement_of_recover`.
-/

namespace Lineage

/-! ## Searching along positions -/

/-- A search along ascending positions of a list finds the first element of the list that is at
one of the positions and fits. -/
theorem find?_filterMap_getElem?_eq_some_iff {α : Type} {xs : List α} {fits : α → Bool} {x : α}
    {positions : List Nat} (h : positions.Pairwise (· < ·)) :
    (positions.filterMap fun i => xs[i]?).find? fits = some x ↔
      ∃ i ∈ positions, xs[i]? = some x ∧ fits x = true ∧
        ∀ j ∈ positions, j < i → ∀ y, xs[j]? = some y → fits y = false := by
  induction positions with
  | nil => simp
  | cons p positions ih =>
    obtain ⟨hp, htail⟩ := List.pairwise_cons.1 h
    by_cases hfit : ∃ y, xs[p]? = some y ∧ fits y = true
    · obtain ⟨y, hy, hfy⟩ := hfit
      rw [List.filterMap_cons, hy]
      dsimp only
      rw [List.find?_cons_of_pos hfy]
      refine ⟨?_, ?_⟩
      · intro hx
        obtain rfl := Option.some.inj hx
        refine ⟨p, List.mem_cons_self, hy, hfy, fun j hj hlt => ?_⟩
        rcases List.mem_cons.1 hj with rfl | hj
        · exact absurd hlt (Nat.lt_irrefl j)
        · exact absurd hlt (Nat.lt_asymm (hp j hj))
      · intro hx
        obtain ⟨i, hi, hix, hfx, hfirst⟩ := hx
        rcases List.mem_cons.1 hi with rfl | hi
        · exact hy.symm.trans hix
        · have := hfirst p List.mem_cons_self (hp i hi) y hy
          rw [hfy] at this
          cases this
    · have skip : ∀ y, xs[p]? = some y → fits y = false := by
        intro y hy
        by_contra hfy
        exact hfit ⟨y, hy, by simpa using hfy⟩
      have tail : ((p :: positions).filterMap fun i => xs[i]?).find? fits =
          (positions.filterMap fun i => xs[i]?).find? fits := by
        rw [List.filterMap_cons]
        cases hy : xs[p]? with
        | none => rfl
        | some y => exact List.find?_cons_of_neg (by simp [skip y hy])
      rw [tail, ih htail]
      refine ⟨?_, ?_⟩
      · intro hx
        obtain ⟨i, hi, hix, hfx, hfirst⟩ := hx
        refine ⟨i, List.mem_cons_of_mem p hi, hix, hfx, fun j hj hlt => ?_⟩
        rcases List.mem_cons.1 hj with rfl | hj
        · exact skip
        · exact hfirst j hj hlt
      · intro hx
        obtain ⟨i, hi, hix, hfx, hfirst⟩ := hx
        refine ⟨i, ?_, hix, hfx, fun j hj => hfirst j (List.mem_cons_of_mem p hj)⟩
        rcases List.mem_cons.1 hi with rfl | hi
        · rw [skip x hix] at hfx
          cases hfx
        · exact hi

namespace Assembly

variable {t : TypeTable} {r : Resolution} {ps : List Procedure} {i : Nat}

/-! ## Fitting procedures -/

/-- A procedure fits a method of a class, by the table as it was read: it has the method's type
and name, and the type belongs to a class that `survivor` takes to the class. -/
structure Fits (t : TypeTable) (r : Resolution) (survivor : TypeId → TypeId) (owner : TypeId)
    (name : Text) (type : TypeId) (p : Procedure) : Prop where
  sameType : p.type = some type
  sameName : QualifiedName.lastComponent p.name = name
  sameOwner : ∃ f c, t.memberFunction? type = some f ∧
    Resolution.classOf? t r.references f.owner = some c ∧ survivor c = owner

/-- The procedure at a position is the first that fits a method of a class. -/
structure Places (t : TypeTable) (r : Resolution) (survivor : TypeId → TypeId)
    (ps : List Procedure) (owner : TypeId) (name : Text) (type : TypeId) (i : Nat)
    (p : Procedure) : Prop where
  atPosition : ps[i]? = some p
  fits : Fits t r survivor owner name type p
  first : ∀ j < i, ∀ q, ps[j]? = some q → ¬ Fits t r survivor owner name type q

/-- A procedure fits methods of one class only. -/
theorem Fits.owner_eq {survivor : TypeId → TypeId} {owner owner' type type' : TypeId}
    {name name' : Text} {p : Procedure} (h : Fits t r survivor owner name type p)
    (h' : Fits t r survivor owner' name' type' p) : owner = owner' := by
  obtain rfl := Option.some.inj (h.sameType.symm.trans h'.sameType)
  obtain ⟨f, c, hf, hc, rfl⟩ := h.sameOwner
  obtain ⟨f', c', hf', hc', rfl⟩ := h'.sameOwner
  obtain rfl := Option.some.inj (hf.symm.trans hf')
  obtain rfl := Option.some.inj (hc.symm.trans hc')
  rfl

theorem ownerOf?_eq_some_iff {refs : OrderedMap TypeId TypeId} {p : Procedure} {c : TypeId} :
    Resolution.ownerOf? t refs p = some c ↔ ∃ type f, p.type = some type ∧
      t.memberFunction? type = some f ∧ Resolution.classOf? t refs f.owner = some c := by
  simp only [Resolution.ownerOf?, bind, Option.bind_eq_some_iff]
  refine ⟨?_, ?_⟩
  · intro h
    obtain ⟨type, hp, f, hf, hc⟩ := h
    exact ⟨type, f, hp, hf, hc⟩
  · intro h
    obtain ⟨type, f, hp, hf, hc⟩ := h
    exact ⟨type, hp, f, hf, hc⟩

/-- Among the procedures that a class has after merging, those with a method's name and type are
those that fit it. -/
theorem fits_iff (h : Resolution.ofTable t ps = .ok r) {owner type : TypeId} {name : Text}
    {p : Procedure} (hp : ps[i]? = some p) :
    Fits t r (Merging.run t r).report.survivor owner name type p ↔
      i ∈ (Merging.run t r).resolution.proceduresOf owner ∧
      (p.type = some type && QualifiedName.lastComponent p.name == name) = true := by
  have positions := (Merging.renamed_run h).positions owner i
  rw [positions, Bool.and_eq_true, decide_eq_true_iff, beq_iff_eq]
  refine ⟨?_, ?_⟩
  · intro hf
    obtain ⟨f, c, hm, hc, hs⟩ := hf.sameOwner
    refine ⟨⟨c, hs, ?_⟩, hf.sameType, hf.sameName⟩
    exact (Resolution.mem_proceduresOf_iff h).2
      ⟨p, hp, ownerOf?_eq_some_iff.2 ⟨type, f, hf.sameType, hm, hc⟩⟩
  · intro hf
    obtain ⟨⟨c, hs, hi⟩, htype, hname⟩ := hf
    obtain ⟨q, hq, howner⟩ := (Resolution.mem_proceduresOf_iff h).1 hi
    obtain rfl := Option.some.inj (hp.symm.trans hq)
    obtain ⟨type', f, htype', hm, hc⟩ := ownerOf?_eq_some_iff.1 howner
    obtain rfl := Option.some.inj (htype.symm.trans htype')
    exact ⟨htype, hname, f, c, hm, hc, hs⟩

/-- The search in the procedures of a class is the search for the first procedure that fits. -/
theorem procedureAddress?_eq_some_iff (h : Resolution.ofTable t ps = .ok r) {owner type : TypeId}
    {name : Text} {a : Address} :
    procedureAddress? (Merging.run t r).resolution ps owner name type = some a ↔
      ∃ i p, Places t r (Merging.run t r).report.survivor ps owner name type i p ∧
        p.address = a := by
  unfold procedureAddress?
  dsimp only
  rw [Option.map_eq_some_iff]
  simp only [find?_filterMap_getElem?_eq_some_iff ((Merging.renamed_run h).ascending owner)]
  refine ⟨?_, ?_⟩
  · intro hx
    obtain ⟨p, ⟨i, hi, hp, hfit, hfirst⟩, ha⟩ := hx
    refine ⟨i, p, ⟨hp, (fits_iff h hp).2 ⟨hi, hfit⟩, fun j hj q hq hf => ?_⟩, ha⟩
    obtain ⟨hj', hfit'⟩ := (fits_iff h hq).1 hf
    rw [hfirst j hj' hj q hq] at hfit'
    cases hfit'
  · intro hx
    obtain ⟨i, p, hpl, ha⟩ := hx
    obtain ⟨hi, hfit⟩ := (fits_iff h hpl.atPosition).1 hpl.fits
    refine ⟨p, ⟨i, hi, hpl.atPosition, hfit, fun j hj hlt q hq => ?_⟩, ha⟩
    by_contra hfit'
    exact hpl.first j hlt q hq ((fits_iff h hq).2 ⟨hj, by simpa using hfit'⟩)

/-- If a procedure fits, there is a first one. -/
theorem exists_places {survivor : TypeId → TypeId} {owner type : TypeId} {name : Text} :
    (∃ i p, Places t r survivor ps owner name type i p) ↔
      ∃ p ∈ ps, Fits t r survivor owner name type p := by
  refine ⟨?_, ?_⟩
  · intro hx
    obtain ⟨i, p, hpl⟩ := hx
    exact ⟨p, List.mem_of_getElem? hpl.atPosition, hpl.fits⟩
  · intro hx
    obtain ⟨p, hp, hfit⟩ := hx
    obtain ⟨i, hi⟩ := List.getElem?_of_mem hp
    -- The least position of a procedure that fits.
    have some_fit : ∃ i, ∃ p, ps[i]? = some p ∧ Fits t r survivor owner name type p :=
      ⟨i, p, hi, hfit⟩
    classical
    obtain ⟨q, hq, hfq⟩ := Nat.find_spec some_fit
    refine ⟨Nat.find some_fit, q, hq, hfq, fun j hj q' hq' hf => ?_⟩
    exact Nat.find_min some_fit hj ⟨q', hq', hf⟩

/-! ## Assembled methods -/

theorem placement?_eq_procedure_iff {index : Option Symbol.PublicIndex} {c : ClassRecord}
    {declared : List (Text × TypeId)} {name : Text} {type : TypeId} {a : Address} :
    placement? r ps index c declared name type = some ⟨a, .procedure⟩ ↔
      procedureAddress? r ps c.id name type = some a := by
  unfold placement?
  split
  next address h => simp [h]
  next h => split <;> simp [h]

theorem placement?_eq_publicSymbol_iff {index : Option Symbol.PublicIndex} {c : ClassRecord}
    {declared : List (Text × TypeId)} {name : Text} {type : TypeId} {a : Address} :
    placement? r ps index c declared name type = some ⟨a, .publicSymbol⟩ ↔
      procedureAddress? r ps c.id name type = none ∧
      (declared.filter fun m => m.1 == name).length = 1 ∧ publicAddress? index c name = some a := by
  unfold placement?
  split
  next address h => simp [h]
  next h => split <;> simp [*]

theorem mem_methods_assembleClass {index : Option Symbol.PublicIndex} {c : ClassRecord}
    {m : Method} (h : m ∈ (assembleClass t r ps index c).methods) :
    m.placement =
      placement? r ps index c (declaredMethods t c) m.name m.type := by
  obtain ⟨_, _, rfl⟩ := List.mem_map.1 h
  rfl

end Assembly

/-! ## From the dump to the result -/

open Assembly in
/-- The addresses of a result. Take the table `t` as it was read, its resolution `r`, and
the survivor of each class. A method has the address of a procedure exactly if some procedure
fits it; the address is that of the first procedure that fits. No procedure gives
methods of two classes their address. -/
theorem Recovery.placement_of_recover {options : Options} {d : Dump} {j j' : Journal}
    {rec : Recovery} {classes : List AssembledClass}
    (hrec : (recover options d).run j = (.ok rec, j')) (hasm : rec.assemble = .ok classes) :
    ∃ t r, TypeTable.ofDump d = .ok t ∧ Resolution.ofTable t rec.symbols.procedures = .ok r ∧
      let fits (c : AssembledClass) (m : Method) :=
        Fits t r rec.merges.survivor c.record.id m.name m.type
      let places (c : AssembledClass) (m : Method) :=
        Places t r rec.merges.survivor rec.symbols.procedures c.record.id m.name m.type
      (∀ c ∈ classes, ∀ m ∈ c.methods,
        ((∃ a, m.placement = some ⟨a, .procedure⟩) ↔ ∃ p ∈ rec.symbols.procedures, fits c m p) ∧
        ∀ a, m.placement = some ⟨a, .procedure⟩ ↔ ∃ i p, places c m i p ∧ p.address = a) ∧
      ∀ c ∈ classes, ∀ m ∈ c.methods, ∀ c' ∈ classes, ∀ m' ∈ c'.methods, ∀ i p p',
        places c m i p → places c' m' i p' → c = c' := by
  obtain ⟨t, r, ht, hr, htable, hres, hmerges⟩ := exists_of_recover hrec
  refine ⟨t, r, ht, hr, ?_⟩
  unfold assemble at hasm
  obtain ⟨hclasses, _, _⟩ := assemble_eq_ok_iff.1 hasm
  have place : ∀ c ∈ classes, ∀ m ∈ c.methods, ∀ a, m.placement = some ⟨a, .procedure⟩ ↔
      ∃ i p, Places t r rec.merges.survivor rec.symbols.procedures c.record.id m.name m.type i p ∧
        p.address = a := by
    intro c hc m hm a
    rw [hclasses] at hc
    obtain ⟨cr, _, rfl⟩ := List.mem_map.1 hc
    rw [mem_methods_assembleClass hm, placement?_eq_procedure_iff, hres,
      procedureAddress?_eq_some_iff hr, hmerges]
    rfl
  refine ⟨fun c hc m hm => ⟨?_, place c hc m hm⟩, ?_⟩
  · rw [← exists_places]
    refine ⟨?_, ?_⟩
    · intro ha
      obtain ⟨a, ha⟩ := ha
      obtain ⟨i, p, hp, _⟩ := (place c hc m hm a).1 ha
      exact ⟨i, p, hp⟩
    · intro hp
      obtain ⟨i, p, hp⟩ := hp
      exact ⟨p.address, (place c hc m hm _).2 ⟨i, p, hp, rfl⟩⟩
  · intro c hc m hm c' hc' m' hm' i p p' hp hp'
    obtain rfl := Option.some.inj (hp.atPosition.symm.trans hp'.atPosition)
    rw [hclasses] at hc hc'
    obtain ⟨cr, hcr, rfl⟩ := List.mem_map.1 hc
    obtain ⟨cr', hcr', rfl⟩ := List.mem_map.1 hc'
    have same : cr.id = cr'.id := hp.fits.owner_eq hp'.fits
    rw [Merging.eq_of_id_eq hcr hcr' same]

/-- Two units that define `A`, and a procedure that is a method of the second. -/
def twoUnitsDump : Dump := ⟨[
  "*** TYPES",
  "",
  "0x1000 : LF_CLASS",
  " field list type 0x0000, ",
  " class name = A, unique name = A1, UDT(0x1000)",
  "",
  "0x1001 : LF_CLASS",
  " field list type 0x1002, ",
  " class name = A, unique name = A2, UDT(0x1001)",
  "",
  "0x1002 : LF_FIELDLIST",
  " list[0] = LF_ONEMETHOD, public, VANILLA, index = 0x1003, name = 'Run'",
  "",
  "0x1003 : LF_MFUNCTION",
  " Class type = 0x1001, This type = 0x1004, ",
  "",
  "*** SYMBOLS",
  "S_GPROC32: [0001:00001010], Cb: 0000001A, Type: 0x1003, A::Run",
  "",
  "*** SECTION HEADERS",
  "SECTION HEADER #1",
  ".text name",
  "1000 virtual size",
  "1000 virtual address"].map String.toList⟩

/-- The two classes and the method of the second, as they are read. -/
def twoUnitsTable : TypeTable where
  records := [
    .classType ⟨⟨0x1000⟩, "A".toList, "A1".toList, none, false⟩,
    .classType ⟨⟨0x1001⟩, "A".toList, "A2".toList, some ⟨0x1002⟩, false⟩,
    .fieldList ⟨⟨0x1002⟩, [.method "Run".toList ⟨0x1003⟩ false]⟩,
    .memberFunction ⟨⟨0x1003⟩, ⟨0x1001⟩, some ⟨0x1004⟩⟩]
  nodup := by decide

/-- The procedure belongs to the second class. -/
def twoUnitsResolution : Resolution where
  names := ⟨[("A1".toList, ⟨0x1000⟩), ("A2".toList, ⟨0x1001⟩)], by decide⟩
  references := ∅
  bases := ⟨[(⟨0x1000⟩, ∅), (⟨0x1001⟩, ∅)], by decide⟩
  procedures := ⟨[(⟨0x1001⟩, [0])], by decide⟩

/-- The one procedure. -/
def runOfA : Procedure := ⟨"A::Run".toList, some ⟨0x1003⟩, ⟨0x402010⟩⟩

/-- What the two classes have become. -/
def mergedA : AssembledClass where
  record := ⟨⟨0x1000⟩, "A".toList, "A1".toList, some ⟨0x1002⟩, false⟩
  bases := ∅
  methods := [⟨"Run".toList, ⟨0x1003⟩, .method, some ⟨⟨0x402010⟩, .procedure⟩⟩]

/-- The second `A` is folded into the first, and the procedure, which belongs to a method of the
second, places the method that the first got from it. -/
theorem Recovery.placement_of_recover_twoUnits :
    ∃ rec j, (recover ⟨0x400000, false⟩ twoUnitsDump).run .empty = (.ok rec, j) ∧
      rec.merges.merged.entries = [(⟨0x1001⟩, ⟨0x1000⟩)] ∧
      rec.symbols.procedures = [runOfA] ∧
      rec.assemble = .ok [mergedA] ∧
      TypeTable.ofDump twoUnitsDump = .ok twoUnitsTable ∧
      Resolution.ofTable twoUnitsTable rec.symbols.procedures = .ok twoUnitsResolution ∧
      ∃ i, Assembly.Places twoUnitsTable twoUnitsResolution rec.merges.survivor
        rec.symbols.procedures ⟨0x1000⟩ "Run".toList ⟨0x1003⟩ i runOfA := by
  have recovered : (match (recover ⟨0x400000, false⟩ twoUnitsDump).run .empty with
      | (.ok rec, _) => decide (rec.merges.merged.entries = [(⟨0x1001⟩, ⟨0x1000⟩)] ∧
          rec.symbols.procedures = [runOfA] ∧ rec.assemble = .ok [mergedA])
      | (.error _, _) => false) = true := by
    decide +kernel
  have read : TypeTable.ofDump twoUnitsDump = .ok twoUnitsTable := by decide +kernel
  have resolved : Resolution.ofTable twoUnitsTable [runOfA] = .ok twoUnitsResolution := by
    decide +kernel
  split at recovered
  next rec j hrec =>
    obtain ⟨merged, procedures, assembled⟩ := of_decide_eq_true recovered
    rw [← procedures] at resolved
    obtain ⟨t, r, ht, hr, place, _⟩ := placement_of_recover hrec assembled
    obtain rfl := Except.ok.inj (read.symm.trans ht)
    obtain rfl := Except.ok.inj (resolved.symm.trans hr)
    have placed := (place mergedA List.mem_cons_self _ List.mem_cons_self).2 ⟨0x402010⟩
    obtain ⟨i, p, hplaces, _⟩ := placed.1 rfl
    have only : p = runOfA := by
      have hmem := List.mem_of_getElem? hplaces.atPosition
      rw [procedures] at hmem
      exact List.mem_singleton.1 hmem
    exact ⟨rec, j, hrec, merged, procedures, assembled, read, resolved, i, only ▸ hplaces⟩
  next => cases recovered

end Lineage
