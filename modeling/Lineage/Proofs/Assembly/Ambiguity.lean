import Lineage.Proofs.Assembly.Placement
import Lineage.Proofs.Symbol.PublicIndex

/-!
# When a public symbol leaves no doubt

A public symbol says nothing of types, and so it is to place a method only where no other one can be
meant. Two of the conditions for that always hold of a method that is placed so: no procedure
is there to place it, and no second symbol names the same member (`Attested`).

The third condition is that the class has no other method of the name, and there static methods
are overlooked. They are left out of the result and out of the count of overloads with it,
although a symbol may well be that of a static method. So a method that has the name of a static one
gets its address from a symbol that may be the other's; `placed_unambiguously_iff` says that this
is the only way in which doubt comes in.

Main results: `placed_unambiguously_iff`, with `not_unambiguous_staticTwin`.
-/

namespace Lineage

namespace Member

/-- The name of a method, be it static or not. -/
def methodName? : Member → Option Text
  | base _ => none
  | method name _ _ => some name

/-- Whether a member is a static method of a name. -/
def isStaticNamed (name : Text) : Member → Bool
  | method other _ true => other == name
  | _ => false

/-- The methods of a name are those that have an object and the static ones. -/
theorem countP_methodName? (members : List Member) (name : Text) :
    (members.countP fun k => k.methodName? = some name) =
      ((members.filterMap instanceMethod?).filter fun d => d.1 == name).length +
        members.countP (isStaticNamed name) := by
  induction members with
  | nil => rfl
  | cons k members ih =>
    rw [List.countP_cons, List.countP_cons, List.filterMap_cons, ih]
    match k with
    | base _ => simp [methodName?, instanceMethod?, isStaticNamed]
    | method other type true =>
      simp [methodName?, instanceMethod?, isStaticNamed, Nat.add_assoc]
    | method other type false =>
      by_cases h : other = name <;>
        simp [methodName?, instanceMethod?, isStaticNamed, h, Nat.add_right_comm]

theorem countP_isStaticNamed_eq_zero_iff {members : List Member} {name : Text} :
    members.countP (isStaticNamed name) = 0 ↔ ∀ type, method name type true ∉ members := by
  rw [List.countP_eq_zero]
  refine ⟨fun h type hmem => h _ hmem (beq_self_eq_true name), fun h k hk hstatic => ?_⟩
  match k with
  | base _ => cases hstatic
  | method _ _ false => cases hstatic
  | method other type true =>
    obtain rfl : other = name := by simpa [isStaticNamed] using hstatic
    exact h type hk

end Member

namespace Assembly

variable {t : TypeTable} {r : Resolution} {ps : List Procedure} {publics : List PublicSymbol}
  {c : ClassRecord} {m : Method} {a : Address}

/-- What speaks for an address that a public symbol gives to a method. -/
structure Attested (r : Resolution) (ps : List Procedure) (publics : List PublicSymbol)
    (c : ClassRecord) (m : Method) (a : Address) : Prop where
  /-- No procedure of the class has the type and the name of the method. -/
  noProcedure : ∀ i ∈ r.proceduresOf c.id, ∀ p, ps[i]? = some p →
    ¬ (p.type = some m.type ∧ QualifiedName.lastComponent p.name = m.name)
  /-- One symbol names a member of that name in the scope of the class. It has the address. -/
  onlySymbol : ∃ scope s, Mangled.classScope? c.mangled = some scope ∧
    (publics.filter fun s => s.Names scope m.name) = [s] ∧ s.address = a

/-- Nothing but the method can be meant by the symbol that gives it an address. -/
structure Unambiguous (t : TypeTable) (r : Resolution) (ps : List Procedure)
    (publics : List PublicSymbol) (c : ClassRecord) (m : Method) (a : Address) : Prop
    extends Attested r ps publics c m a where
  /-- The class has one method of the name, the static ones included. -/
  onlyMethod : ((t.membersOf c).countP fun k => k.methodName? = some m.name) = 1

theorem procedureAddress?_eq_none_iff {owner type : TypeId} {name : Text} :
    procedureAddress? r ps owner name type = none ↔
      ∀ i ∈ r.proceduresOf owner, ∀ p, ps[i]? = some p →
        ¬ (p.type = some type ∧ QualifiedName.lastComponent p.name = name) := by
  unfold procedureAddress?
  dsimp only
  rw [Option.map_eq_none_iff, List.find?_eq_none]
  simp only [List.mem_filterMap, Bool.and_eq_true, decide_eq_true_iff, beq_iff_eq]
  exact ⟨fun h i hi p hp => h p ⟨i, hi, hp⟩, fun h p hp => hp.elim fun i hi => h i hi.1 p hi.2⟩

theorem publicAddress?_ofList_eq_some_iff {name : Text} :
    publicAddress? (some (.ofList publics)) c name = some a ↔
      ∃ scope s, Mangled.classScope? c.mangled = some scope ∧
        (publics.filter fun s => s.Names scope name) = [s] ∧ s.address = a := by
  simp only [publicAddress?, bind, Option.bind_eq_some_iff, Option.some_inj, exists_eq_left',
    Symbol.PublicIndex.uniqueAddress?_ofList_eq_some_iff, exists_and_left]

/-- A public symbol places a method exactly if it is attested and no other method of the name has
an object. -/
theorem placement_eq_publicSymbol_iff
    (hm : m ∈ (assembleClass t r ps (some (.ofList publics)) c).methods) :
    m.placement = some ⟨a, .publicSymbol⟩ ↔ Attested r ps publics c m a ∧
      ((declaredMethods t c).filter fun d => d.1 == m.name).length = 1 := by
  rw [mem_methods_assembleClass hm, placement?_eq_publicSymbol_iff, procedureAddress?_eq_none_iff,
    publicAddress?_ofList_eq_some_iff]
  exact ⟨fun h => ⟨⟨h.1, h.2.2⟩, h.2.1⟩, fun h => ⟨h.1.noProcedure, h.2, h.1.onlySymbol⟩⟩

/-- Where one method of a name has an object, it is the only one unless a static method has
the name, too. -/
theorem onlyMethod_iff {name : Text}
    (h : ((declaredMethods t c).filter fun d => d.1 == name).length = 1) :
    ((t.membersOf c).countP fun k => k.methodName? = some name) = 1 ↔
      ∀ type, Member.method name type true ∉ t.membersOf c := by
  rw [Member.countP_methodName?, ← declaredMethods, h,
    ← Member.countP_isStaticNamed_eq_zero_iff]
  omega

/-- When a public symbol places a method of a result: exactly if no procedure does, one symbol
names the method and one method of the name has an object. Whether the symbol leaves no doubt then:
exactly if no static method of the class has the name. -/
theorem placed_unambiguously_iff {classes : List AssembledClass}
    (h : assemble t r ps (some (.ofList publics)) = .ok classes) {c : AssembledClass}
    (hc : c ∈ classes) (hm : m ∈ c.methods) (a : Address) :
    (m.placement = some ⟨a, .publicSymbol⟩ ↔ Attested r ps publics c.record m a ∧
      ((declaredMethods t c.record).filter fun d => d.1 == m.name).length = 1) ∧
    (m.placement = some ⟨a, .publicSymbol⟩ → (Unambiguous t r ps publics c.record m a ↔
      ∀ type, Member.method m.name type true ∉ t.membersOf c.record)) := by
  obtain ⟨rfl, _, _⟩ := assemble_eq_ok_iff.1 h
  obtain ⟨cr, _, rfl⟩ := List.mem_map.1 hc
  refine ⟨placement_eq_publicSymbol_iff hm, fun hplaced => ?_⟩
  obtain ⟨hattested, honly⟩ := (placement_eq_publicSymbol_iff hm).1 hplaced
  refine ⟨fun hu => (onlyMethod_iff honly).1 hu.onlyMethod, fun hstatic => ?_⟩
  exact ⟨hattested, (onlyMethod_iff honly).2 hstatic⟩

/-- A class with two methods `Run`, one of them static, and a method `Stop`. -/
def staticTwin : ClassRecord := ⟨⟨0x1000⟩, "A".toList, ".?AVA@@".toList, some ⟨0x1001⟩, false⟩

/-- The table of the class. -/
def staticTwinTable : TypeTable where
  records := [
    .classType staticTwin,
    .fieldList ⟨⟨0x1001⟩, [
      .method "Run".toList ⟨0x1002⟩ false,
      .method "Run".toList ⟨0x1003⟩ true,
      .method "Stop".toList ⟨0x1004⟩ false]⟩]
  nodup := by decide

/-- The symbols of the static method `Run` and of `Stop`. -/
def staticTwinPublics : List PublicSymbol := [
  ⟨"?Run@A@@SAXXZ".toList, ⟨0x401010⟩⟩,
  ⟨"?Stop@A@@QAEXXZ".toList, ⟨0x401020⟩⟩]

/-- What the ids of the table refer to. -/
def staticTwinResolution : Resolution where
  names := ⟨[(".?AVA@@".toList, ⟨0x1000⟩)], by decide⟩
  references := ∅
  bases := ⟨[(⟨0x1000⟩, ∅)], by decide⟩
  procedures := ∅

/-- The class of the result. -/
def assembledStaticTwin : AssembledClass :=
  assembleClass staticTwinTable staticTwinResolution [] (some (.ofList staticTwinPublics))
    staticTwin

theorem assemble_staticTwin :
    assemble staticTwinTable staticTwinResolution [] (some (.ofList staticTwinPublics)) =
      .ok [assembledStaticTwin] := by
  rfl

/-- Either method is placed, the first one by the symbol of its static twin. -/
theorem methods_staticTwin :
    assembledStaticTwin.methods = [
      ⟨"Run".toList, ⟨0x1002⟩, .method, some ⟨⟨0x401010⟩, .publicSymbol⟩⟩,
      ⟨"Stop".toList, ⟨0x1004⟩, .method, some ⟨⟨0x401020⟩, .publicSymbol⟩⟩] := by
  decide +kernel

/-- `Stop` is placed by its own symbol. -/
theorem placed_unambiguously_stop :
    assemble staticTwinTable staticTwinResolution [] (some (.ofList staticTwinPublics)) =
      .ok [assembledStaticTwin] ∧
    ∃ m ∈ assembledStaticTwin.methods, m.placement = some ⟨⟨0x401020⟩, .publicSymbol⟩ ∧
      Unambiguous staticTwinTable staticTwinResolution [] staticTwinPublics
        assembledStaticTwin.record m ⟨0x401020⟩ := by
  have hstop := methods_staticTwin ▸ List.mem_cons_of_mem _ (List.mem_singleton_self _)
  refine ⟨assemble_staticTwin, _, hstop, rfl, ?_⟩
  have := placed_unambiguously_iff assemble_staticTwin (List.mem_singleton_self _) hstop ⟨0x401020⟩
  exact (this.2 rfl).2 (Member.countP_isStaticNamed_eq_zero_iff.1 (by decide))

/-- The other `Run` is placed by the symbol of the static one. -/
theorem not_unambiguous_staticTwin :
    Resolution.ofTable staticTwinTable [] = .ok staticTwinResolution ∧
    assemble staticTwinTable staticTwinResolution [] (some (.ofList staticTwinPublics)) =
      .ok [assembledStaticTwin] ∧
    ∃ m ∈ assembledStaticTwin.methods, ∃ a, m.placement = some ⟨a, .publicSymbol⟩ ∧
      ¬ Unambiguous staticTwinTable staticTwinResolution [] staticTwinPublics
        assembledStaticTwin.record m a := by
  refine ⟨by decide, assemble_staticTwin, ?_⟩
  rw [methods_staticTwin]
  refine ⟨_, List.mem_cons_self, _, rfl, fun h => ?_⟩
  exact absurd h.onlyMethod (by decide)

end Assembly
end Lineage
