import Lineage.Symbol.PublicIndex
import Mathlib.Data.Finset.Card
import Mathlib.Data.Finset.Dedup

/-!
# What an index of public symbols says

An index answers for the list of symbols that it was made from: its group for a scope and a name
holds the addresses of the symbols that name that member, in their order (`addresses_ofList`). So it
has one address for a member exactly if a single symbol names it, no matter whether the
addresses of several symbols agree.

This is a count, and the order of the symbols does not enter into it. Symbols that name no member
leave no trace in the index at all.

The index is a fold over the symbols. A step changes one group at most, so the groups are followed
one at a time, for any index to start from, and each is a filter of the list
(`addresses_foldl_addSymbol`). The scopes are its keys, and they are counted as a finite set, which
knows neither order nor repeats (`scopeCount_ofList`).

Main results: `uniqueAddress?_ofList_eq_some_iff` and `answers_count_symbols`.
-/

namespace Lineage

/-- The symbol names the member of a scope. -/
def PublicSymbol.Names (s : PublicSymbol) (scope name : Text) : Prop :=
  Mangled.member? s.mangled = some ⟨name, scope⟩

instance (s : PublicSymbol) (scope name : Text) : Decidable (s.Names scope name) :=
  inferInstanceAs (Decidable (_ = _))

/-- The scope of the member that the symbol names, if it names one. -/
def PublicSymbol.scope? (s : PublicSymbol) : Option Text :=
  (Mangled.member? s.mangled).map Mangled.ScopedMember.scope

namespace Symbol.PublicIndex

variable {publics : List PublicSymbol} {scope name : Text} {a : Address}

/-- Adding a symbol adds its address to the group of the member that it names. -/
theorem addresses_addSymbol (index : PublicIndex) (s : PublicSymbol) (scope name : Text) :
    (index.addSymbol s).addresses scope name =
      index.addresses scope name ++ if s.Names scope name then [s.address] else [] := by
  unfold addSymbol
  split
  next member hm =>
    have same : s.Names scope name ↔ scope = member.scope ∧ name = member.name := by
      obtain ⟨name', scope'⟩ := member
      rw [PublicSymbol.Names, hm, Option.some_inj, Mangled.ScopedMember.mk.injEq, and_comm,
        eq_comm, @eq_comm _ name']
    rw [addresses_add]
    simp only [same]
  next hm =>
    have other : ¬ s.Names scope name := fun hs => Option.some_ne_none _ (hs.symm.trans hm)
    rw [if_neg other, List.append_nil]

theorem addresses_foldl_addSymbol (index : PublicIndex) (publics : List PublicSymbol)
    (scope name : Text) :
    (publics.foldl addSymbol index).addresses scope name = index.addresses scope name ++
      (publics.filter fun s => s.Names scope name).map PublicSymbol.address := by
  induction publics generalizing index with
  | nil => simp
  | cons s publics ih =>
    rw [List.foldl_cons, ih, addresses_addSymbol, List.append_assoc]
    by_cases h : s.Names scope name
    · rw [if_pos h, List.filter_cons_of_pos (by simpa using h), List.map_cons,
        List.singleton_append]
    · rw [if_neg h, List.filter_cons_of_neg (by simpa using h), List.nil_append]

/-- The group of a member holds the addresses of the symbols that name it. -/
theorem addresses_ofList (publics : List PublicSymbol) (scope name : Text) :
    (ofList publics).addresses scope name =
      (publics.filter fun s => s.Names scope name).map PublicSymbol.address := by
  rw [ofList, addresses_foldl_addSymbol]
  exact List.nil_append _

theorem uniqueAddress?_eq_some_iff {index : PublicIndex} :
    index.uniqueAddress? scope name = some a ↔ index.addresses scope name = [a] := by
  unfold uniqueAddress?
  split
  next b h => rw [h, Option.some_inj, List.singleton_inj]
  next h =>
    refine ⟨fun hnone => ?_, fun ha => absurd ha (h a)⟩
    cases hnone

/-- A member has an address in the index exactly if one symbol of the list names it. -/
theorem uniqueAddress?_ofList_eq_some_iff :
    (ofList publics).uniqueAddress? scope name = some a ↔
      ∃ s, (publics.filter fun s => s.Names scope name) = [s] ∧ s.address = a := by
  rw [uniqueAddress?_eq_some_iff, addresses_ofList, List.map_eq_singleton_iff]

/-! ## Scopes -/

theorem mem_keys_addSymbol {index : PublicIndex} {s : PublicSymbol} :
    scope ∈ (index.addSymbol s).scopes.keys ↔
      scope ∈ index.scopes.keys ∨ s.scope? = some scope := by
  rw [addSymbol, PublicSymbol.scope?]
  cases Mangled.member? s.mangled with
  | none => exact (or_iff_left fun h => by cases h).symm
  | some member =>
    show scope ∈ (index.scopes.upsert member.scope _).keys ↔ _
    rw [OrderedMap.keys_upsert, Option.map_some, Option.some_inj]
    split
    next hmem => exact (or_iff_left_of_imp fun h => h ▸ hmem).symm
    next => rw [List.mem_append, List.mem_singleton, eq_comm (a := scope)]

/-- The index has the scopes of the members that are named. -/
theorem mem_keys_ofList :
    scope ∈ (ofList publics).scopes.keys ↔ ∃ s ∈ publics, s.scope? = some scope := by
  have general (index : PublicIndex) : scope ∈ (publics.foldl addSymbol index).scopes.keys ↔
      scope ∈ index.scopes.keys ∨ ∃ s ∈ publics, s.scope? = some scope := by
    induction publics generalizing index with
    | nil => simp
    | cons s publics ih =>
      rw [List.foldl_cons, ih, mem_keys_addSymbol, List.exists_mem_cons_iff, or_assoc]
  exact (general empty).trans (or_iff_right List.not_mem_nil)

/-- Each scope is counted once. -/
theorem scopeCount_ofList (publics : List PublicSymbol) :
    (ofList publics).scopeCount = (publics.filterMap PublicSymbol.scope?).toFinset.card := by
  have scopes : (ofList publics).scopes.keys.toFinset =
      (publics.filterMap PublicSymbol.scope?).toFinset := by
    ext scope
    rw [List.mem_toFinset, List.mem_toFinset, mem_keys_ofList, List.mem_filterMap]
  rw [← scopes, List.toFinset_card_of_nodup (OrderedMap.nodup_keys _), OrderedMap.length_keys,
    scopeCount]

/-! ## Order and other symbols -/

theorem uniqueAddress?_ofList_of_perm {publics' : List PublicSymbol} (h : publics'.Perm publics) :
    (ofList publics').uniqueAddress? scope name = (ofList publics).uniqueAddress? scope name := by
  refine Option.ext fun a => ?_
  rw [uniqueAddress?_ofList_eq_some_iff, uniqueAddress?_ofList_eq_some_iff]
  have only (s : PublicSymbol) : (publics'.filter fun s => s.Names scope name) = [s] ↔
      (publics.filter fun s => s.Names scope name) = [s] := by
    rw [← List.perm_singleton, ← List.perm_singleton]
    exact List.Perm.congr_left (h.filter _) _
  simp only [only]

/-- A symbol that names no member leaves no trace. -/
theorem ofList_filter_isSome (publics : List PublicSymbol) :
    ofList (publics.filter fun s => (Mangled.member? s.mangled).isSome) = ofList publics := by
  rw [ofList, ofList, List.foldl_filter]
  congr
  funext index s
  rw [addSymbol]
  cases Mangled.member? s.mangled <;> rfl

/-- What an index answers: an address exactly if one symbol of the list names the member, and that
of this symbol. It counts the scopes of the symbols. The answers are the same for every order of
the symbols, and without those that name no member the index is the same. -/
theorem answers_count_symbols (publics : List PublicSymbol) :
    (∀ scope name a, (ofList publics).uniqueAddress? scope name = some a ↔
      ∃ front s back, publics = front ++ s :: back ∧ s.Names scope name ∧ s.address = a ∧
        ∀ t ∈ front ++ back, ¬ t.Names scope name) ∧
    (ofList publics).scopeCount = (publics.filterMap PublicSymbol.scope?).toFinset.card ∧
    (∀ publics' : List PublicSymbol, publics'.Perm publics →
      (ofList publics').uniqueAddress? = (ofList publics).uniqueAddress? ∧
        (ofList publics').scopeCount = (ofList publics).scopeCount) ∧
    ofList (publics.filter fun s => (Mangled.member? s.mangled).isSome) = ofList publics := by
  refine ⟨fun scope name a => ?_, scopeCount_ofList publics, fun publics' h => ⟨?_, ?_⟩,
    ofList_filter_isSome publics⟩
  · rw [uniqueAddress?_ofList_eq_some_iff]
    constructor
    · rintro ⟨s, hs, ha⟩
      obtain ⟨front, back, rfl, hfront, hnames, hback⟩ := List.filter_eq_cons_iff.1 hs
      refine ⟨front, s, back, rfl, by simpa using hnames, ha, fun t ht => ?_⟩
      rcases List.mem_append.1 ht with ht | ht
      · simpa using hfront t ht
      · simpa using List.filter_eq_nil_iff.1 hback t ht
    · rintro ⟨front, s, back, rfl, hnames, ha, hother⟩
      refine ⟨s, List.filter_eq_cons_iff.2 ⟨front, back, rfl, fun t ht => ?_, by simpa using hnames,
        List.filter_eq_nil_iff.2 fun t ht => ?_⟩, ha⟩
      · simpa using hother t (List.mem_append_left back ht)
      · simpa using hother t (List.mem_append_right front ht)
  · funext scope name
    exact uniqueAddress?_ofList_of_perm h
  · rw [scopeCount_ofList, scopeCount_ofList,
      List.toFinset_eq_of_perm _ _ (h.filterMap PublicSymbol.scope?)]

end Symbol.PublicIndex
end Lineage
