import Lineage.Proofs.Assembly.Shift
import Lineage.Proofs.Document.Faithful

/-!
# The image base shifts addresses and nothing else

A run that succeeds for an image base succeeds for every lower one, and what the two report differs
in the addresses only: the keys of the methods are shifted by the difference of the bases.

Three steps of a run compare addresses. A repeated procedure is told by its address, a public symbol
counts if its name has one address, and of several methods at one address the document keeps the
first. The first two are settled by then (`Symbol.follows_tablesOf`, `Assembly.follows_assemble`).
For the third the texts of two addresses have to be equal exactly if those of the shifted
addresses are (`Address.biUnique_shiftedText`).

The document is a map of maps, filled by folds. A map whose keys are replaced one by one, by a
relation that tells keys apart in both directions, takes a new entry at the same place or drops it
in both (`rekeyed_upsertEntry`). Its values are compared along with it, so the same lemma serves the
methods of a class and the classes of a document.

Main result: `Recovery.run_of_imageBase_le`.
-/

namespace Lineage

/-! ## Keys -/

/-- The first text spells an address and the second the one a number of bytes above it. -/
def Address.ShiftedText (k : UInt64) (s s' : Text) : Prop :=
  ∃ x y, Shifted k x y ∧ s = x.text ∧ s' = y.text

/-- Texts of addresses are as different as the addresses are, before and after the shift. This
settles the third comparison. -/
theorem Address.biUnique_shiftedText (k : UInt64) : Relator.BiUnique (ShiftedText k) := by
  refine ⟨?_, ?_⟩
  · rintro _ _ _ ⟨x, y, hxy, rfl, rfl⟩ ⟨x', y', hxy', rfl, htext⟩
    obtain rfl := text_injective htext
    rw [(biUnique_shifted k).1 hxy hxy']
  · rintro _ _ _ ⟨x, y, hxy, rfl, rfl⟩ ⟨x', y', hxy', htext, rfl⟩
    obtain rfl := text_injective htext
    rw [(biUnique_shifted k).2 hxy hxy']

/-- An entry with the same value under another key. -/
def Rekeyed {α β : Type} (K : α → α → Prop) (e f : α × β) : Prop := K e.1 f.1 ∧ f.2 = e.2

section Rekeyed

variable {α β : Type} [DecidableEq α] {K : α → α → Prop}

/-- Where keys are told apart alike, the same entries are found and added. -/
theorem rekeyed_upsertEntry (hK : Relator.BiUnique K) {es fs : List (α × β)}
    (h : List.Forall₂ (Rekeyed K) es fs) {k j : α} (hkj : K k j) (g : Option β → β) :
    List.Forall₂ (Rekeyed K) (OrderedMap.upsertEntry k g es) (OrderedMap.upsertEntry j g fs) := by
  induction h with
  | nil => exact .cons ⟨hkj, rfl⟩ .nil
  | cons hef hrest ih =>
    rw [OrderedMap.upsertEntry, OrderedMap.upsertEntry]
    have same := Relator.rel_eq hK hef.1 hkj
    split
    next hk =>
      rw [if_pos (same.1 hk), hef.2]
      exact .cons ⟨hef.1, rfl⟩ hrest
    next hk =>
      rw [if_neg fun hj => hk (same.2 hj)]
      exact .cons hef ih

end Rekeyed

/-! ## The document -/

/-- The same entry with its methods at higher addresses. -/
structure ClassEntry.Shifted (k : UInt64) (e f : ClassEntry) : Prop where
  demangled : f.demangled = e.demangled
  bases : f.bases = e.bases
  /-- The same methods in the same order, each at the shifted address. -/
  methods : List.Forall₂ (Rekeyed (Address.ShiftedText k)) e.methods.entries f.methods.entries

/-- The same classes in the same order under the same names, with their methods at higher
addresses. -/
def Document.Shifted (k : UInt64) (document document' : Document) : Prop :=
  List.Forall₂ (fun e f => f.1 = e.1 ∧ e.2.Shifted k f.2) document.entries document'.entries

namespace Document

variable {k : UInt64} {classes classes' : List AssembledClass}

/-- A method is kept or dropped in both documents, depending on whether its address has been met. -/
theorem shifted_addMethod {methods methods' : OrderedMap Text MethodEntry}
    (h : List.Forall₂ (Rekeyed (Address.ShiftedText k)) methods.entries methods'.entries)
    {m n : Method} (hmn : m.Shifted k n) :
    List.Forall₂ (Rekeyed (Address.ShiftedText k)) (addMethod methods m).entries
      (addMethod methods' n).entries := by
  rw [addMethod, addMethod]
  rcases none_or_some_of_rel hmn.placement with ⟨hx, hy⟩ | ⟨p, q, hx, hy, hpq⟩
  · rw [hx, hy]
    exact h
  · rw [hx, hy]
    dsimp only
    rw [hmn.name, hmn.kind]
    exact rekeyed_upsertEntry (Address.biUnique_shiftedText k) h ⟨_, _, hpq.address, rfl, rfl⟩ _

/-- An entry has the same names and base classes, and the same methods under shifted keys. -/
theorem shifted_entry (h : List.Forall₂ (AssembledClass.Shifted k) classes classes')
    {c e : AssembledClass} (hce : c.Shifted k e) :
    (entry classes c).Shifted k (entry classes' e) := by
  constructor
  case demangled => exact congrArg ClassRecord.display hce.record
  case bases =>
    show e.bases.elements.filterMap (mangledName? classes') =
      c.bases.elements.filterMap (mangledName? classes)
    rw [hce.bases, funext (mangledName?_of_sameFrame (h.imp fun _ _ h => h.sameFrame))]
  case methods =>
    have walk : ∀ {ms ns : List Method}, List.Forall₂ (Method.Shifted k) ms ns →
        ∀ {methods methods' : OrderedMap Text MethodEntry},
          List.Forall₂ (Rekeyed (Address.ShiftedText k)) methods.entries methods'.entries →
          List.Forall₂ (Rekeyed (Address.ShiftedText k)) (ms.foldl addMethod methods).entries
            (ns.foldl addMethod methods').entries := by
      intro ms ns hmethods
      induction hmethods with
      | nil => exact fun h => h
      | cons hmn _ ih => exact fun h => ih (shifted_addMethod h hmn)
    exact walk hce.methods .nil

/-- The documents have the same keys, which are names. -/
theorem shifted_ofClasses (h : List.Forall₂ (AssembledClass.Shifted k) classes classes')
    (hnames : (classes.map fun c => c.record.mangled).Nodup) :
    Shifted k (ofClasses classes) (ofClasses classes') := by
  have names : (classes'.map fun c => c.record.mangled) = classes.map fun c => c.record.mangled :=
    map_eq_of_forall₂ h fun c e hce => by rw [hce.record]
  rw [Shifted, entries_ofClasses hnames, entries_ofClasses (names ▸ hnames)]
  refine List.rel_map ?_ h
  exact fun c e hce => ⟨congrArg ClassRecord.mangled hce.record, shifted_entry h hce⟩

end Document

/-! ## Runs -/

/-- The same report with every method at a higher address. -/
structure Report.Shifted (k : UInt64) (x y : Report) : Prop where
  hierarchy : y.hierarchy = x.hierarchy
  merges : y.merges = x.merges
  assembly : y.assembly = x.assembly
  document : x.document.Shifted k y.document

namespace Recovery

variable {k : UInt64} {a b : UInt64} {usePublics : Bool}

/-- What merging leaves is the same, and the symbols are those at the higher addresses. -/
structure Shifted (k : UInt64) (x y : Recovery) : Prop where
  table : y.table = x.table
  resolution : y.resolution = x.resolution
  symbols : x.symbols.Shifted k y.symbols
  publics : Option.Rel (Symbol.PublicIndex.Shifted k) x.publics y.publics
  merges : y.merges = x.merges

/-- Up to merging, nothing after the symbols looks at an address. -/
theorem follows_recoveryOf (d : Dump) (h : Address.Shifted k ⟨a⟩ ⟨b⟩) :
    Follows (Shifted k) (recoveryOf ⟨a, usePublics⟩ d) (recoveryOf ⟨b, usePublics⟩ d) := by
  refine follows_bind (follows_self _) ?_
  rintro t _ rfl
  refine follows_bind (Symbol.follows_tablesOf d usePublics h) fun s s' hs => ?_
  have types : s'.procedures.map Procedure.type = s.procedures.map Procedure.type :=
    map_eq_of_forall₂ hs.procedures fun p q hpq => hpq.type
  rw [Resolution.ofTable_of_types_eq t types]
  refine follows_bind (follows_self _) ?_
  rintro r _ rfl
  exact follows_ok ⟨rfl, rfl, hs, rel_publicIndex? hs, rfl⟩

/-- The whole run, without its journal. -/
theorem follows_reportOf (d : Dump) (h : Address.Shifted k ⟨a⟩ ⟨b⟩) :
    Follows (Report.Shifted k) (reportOf ⟨a, usePublics⟩ d) (reportOf ⟨b, usePublics⟩ d) := by
  refine follows_bind (follows_self _) fun _ _ _ => ?_
  refine follows_bind (follows_recoveryOf d h) fun x y hxy => ?_
  obtain ⟨table, resolution, symbols, publics, merges⟩ := hxy
  -- The classes have distinct names, or else assembly would not have let them pass.
  have assembled : Follows
      (fun cs cs' => List.Forall₂ (AssembledClass.Shifted k) cs cs' ∧
        (cs.map fun c => c.record.mangled).Nodup) x.assemble y.assemble := by
    intro cs' hcs'
    rw [assemble, table, resolution] at hcs'
    obtain ⟨cs, hcs, hclasses⟩ := Assembly.follows_assemble symbols.procedures publics cs' hcs'
    exact ⟨cs, hcs, hclasses, nodup_of_assemble hcs⟩
  refine follows_bind assembled fun cs cs' hcs => ?_
  obtain ⟨hclasses, hnames⟩ := hcs
  refine follows_ok ⟨?_, merges, Assembly.stats_of_shifted hclasses, ?_⟩
  · rw [reportOn, reportOn, resolution]
  · exact Document.shifted_ofClasses hclasses hnames

/-- A run that succeeds for an image base succeeds for every lower one. The two reports have the
same figures and the same document, but that each method of the higher image stands under its
address in the lower image plus the difference of the two bases, which is a sum without
wrapping around. -/
theorem run_of_imageBase_le (hab : a ≤ b) {d : Dump} {j j' : Journal} {y : Report}
    (h : (run ⟨b, usePublics⟩ d).run j = (.ok y, j')) :
    ∃ x, (∀ i, ((run ⟨a, usePublics⟩ d).run i).1 = .ok x) ∧ x.Shifted (b - a) y := by
  have hbase : Address.Shifted (b - a) ⟨a⟩ ⟨b⟩ := by
    rw [Address.shifted_iff, UInt64.toNat_sub_of_le _ _ hab]
    have := UInt64.le_iff_toNat_le.1 hab
    dsimp only
    omega
  have hy : reportOf ⟨b, usePublics⟩ d = .ok y := by
    rw [← comesTo_run _ d j, h]
  obtain ⟨x, hx, hxy⟩ := follows_reportOf d hbase y hy
  exact ⟨x, fun i => (comesTo_run _ d i).trans hx, hxy⟩

/-- The last image base at which the procedure of two units has an address puts it at the last
address there is. -/
theorem run_of_imageBase_le_twoUnits :
    (0x400000 : UInt64) ≤ 0xffffffffffffdfef ∧ ∃ y j',
      (run ⟨0xffffffffffffdfef, false⟩ twoUnitsDump).run .empty = (.ok y, j') ∧
      ((y.document.get? "A1".toList).map fun e => e.methods.keys) =
        some ["0xffffffffffffffff".toList] ∧
      ∃ x, (∀ i, ((run ⟨0x400000, false⟩ twoUnitsDump).run i).1 = .ok x) ∧
        x.Shifted (0xffffffffffffdfef - 0x400000) y := by
  have base : (0x400000 : UInt64) ≤ 0xffffffffffffdfef := by decide
  have found : (match (run ⟨0xffffffffffffdfef, false⟩ twoUnitsDump).run .empty with
      | (.ok y, _) => decide (((y.document.get? "A1".toList).map fun e => e.methods.keys) =
          some ["0xffffffffffffffff".toList])
      | (.error _, _) => false) = true := by
    decide +kernel
  split at found
  next y j' hrun =>
    exact ⟨base, y, j', hrun, of_decide_eq_true found, run_of_imageBase_le base hrun⟩
  next => cases found

end Recovery
end Lineage
