import Lineage.Resolution
import Lineage.Proofs.Ordered.Gather
import Lineage.Proofs.TypeTable.View

/-!
# What a resolution looks like

A resolution that was made from a table has a definite shape:

* every definition has its base classes, in table order (`keys_bases`);
* whatever is referred to is a definition of the table (`classOf?_mem_realIds`,
  `mem_realIds_of_mem_basesOf`);
* the procedures of a class are the positions of those that belong to it, in ascending
  order (`proceduresOf_eq`, `mem_proceduresOf_iff`).

These are facts about a resolution that has been made. Whether there is one, and what exactly it
binds, is not asked here. They are all that merging has to know of a resolution to keep it in shape.

Two of the four passes may stop. If they have not, they have gone through all their elements, and
what is known of the state after each of them is known at the end. That is the induction
`foldlM_ok_induction`: the step gets the elements that have been passed, and what is known of the
state after them. The pass over the procedures cannot stop. It gathers positions under the class
that each of them belongs to (`correlate_eq_gather`).
-/

namespace Lineage

/-! ## Work that may stop -/

theorem bind_eq_ok_iff {ε α β : Type} {x : Except ε α} {f : α → Except ε β} {b : β} :
    (x >>= f) = .ok b ↔ ∃ a, x = .ok a ∧ f a = .ok b := by
  cases x with
  | error e =>
    refine ⟨?_, ?_⟩
    · intro h; cases h
    · intro hx
      obtain ⟨a, h, _⟩ := hx
      cases h
  | ok a =>
    refine ⟨?_, ?_⟩
    · exact fun h => ⟨a, rfl, h⟩
    · intro hx
      obtain ⟨a', h, hb⟩ := hx
      obtain rfl := Except.ok.inj h
      exact hb

theorem bind_eq_error_iff {ε α β : Type} {x : Except ε α} {f : α → Except ε β} {e : ε} :
    (x >>= f) = .error e ↔ x = .error e ∨ ∃ a, x = .ok a ∧ f a = .error e := by
  cases x with
  | error e' =>
    refine ⟨fun h => .inl (congrArg Except.error (Except.error.inj h)), fun h => ?_⟩
    rcases h with h | ⟨_, h, _⟩
    · exact congrArg Except.error (Except.error.inj h)
    · cases h
  | ok a =>
    refine ⟨fun h => .inr ⟨a, rfl, h⟩, fun h => ?_⟩
    rcases h with h | ⟨_, h, hf⟩
    · cases h
    · obtain rfl := Except.ok.inj h
      exact hf

/-- What holds before a fold and is kept by each step that succeeds holds when the fold
has succeeded. -/
theorem foldlM_ok_induction {α β : Type} {xs : List α} {f : β → α → Except Fault β}
    {P : List α → β → Prop} {b b' : β} (start : P [] b)
    (step : ∀ pre x post b b', xs = pre ++ x :: post → P pre b → f b x = .ok b' →
      P (pre ++ [x]) b')
    (h : xs.foldlM f b = .ok b') : P xs b' := by
  have walk : ∀ (post pre : List α) (b : β), xs = pre ++ post → P pre b →
      post.foldlM f b = .ok b' → P xs b' := by
    intro post
    induction post with
    | nil =>
      intro pre b hx hp hb
      obtain rfl := Except.ok.inj hb
      rw [List.append_nil] at hx
      exact hx ▸ hp
    | cons x post ih =>
      intro pre b hx hp hb
      rw [List.foldlM_cons, bind_eq_ok_iff] at hb
      obtain ⟨c, hc, hb⟩ := hb
      exact ih (pre ++ [x]) c (by rw [hx, List.append_assoc, List.singleton_append])
        (step pre x post b c hx hp hc) hb
  exact walk xs [] b rfl start h

namespace Resolution

variable {t : TypeTable} {ps : List Procedure} {r : Resolution}

/-- The four passes of a resolution that succeeded. -/
theorem ofTable_eq_ok_iff :
    ofTable t ps = .ok r ↔ r.names = nameTable t ∧
      bindReferences t (nameTable t) = .ok r.references ∧
      baseClasses t r.references = .ok r.bases ∧
      r.procedures = correlate t r.references ps := by
  unfold ofTable
  simp only [bind_eq_ok_iff]
  refine ⟨?_, ?_⟩
  · intro hx
    obtain ⟨refs, hrefs, bases, hbases, h⟩ := hx
    obtain rfl := Except.ok.inj h
    exact ⟨rfl, hrefs, hbases, rfl⟩
  · intro hx
    obtain ⟨hn, hrefs, hbases, hp⟩ := hx
    refine ⟨_, hrefs, _, hbases, ?_⟩
    rw [← hn, ← hp]
    rfl

/-! ## References -/

theorem mem_realIds_of_nameTable {name : Text} {id : TypeId}
    (h : (nameTable t).get? name = some id) : id ∈ t.realIds := by
  have walk : ∀ (cs : List ClassRecord) (names : OrderedMap Text TypeId),
      (∀ c ∈ cs, c.id ∈ t.realIds) →
      (∀ n i, names.get? n = some i → i ∈ t.realIds) →
      ∀ n i, (cs.foldl (fun names c => names.insertIfNew c.mangled c.id) names).get? n = some i →
        i ∈ t.realIds := by
    intro cs
    induction cs with
    | nil => exact fun names _ hn => hn
    | cons c cs ih =>
      intro names hcs hn
      rw [List.foldl_cons]
      refine ih _ (fun e he => hcs e (List.mem_cons_of_mem _ he)) ?_
      intro n i hi
      rw [OrderedMap.insertIfNew, OrderedMap.get?_upsert] at hi
      split at hi
      next =>
        -- A name that is there keeps its definition.
        cases hc : names.get? c.mangled with
        | none =>
          rw [hc] at hi
          obtain rfl := Option.some.inj hi
          exact hcs c List.mem_cons_self
        | some j =>
          rw [hc] at hi
          obtain rfl := Option.some.inj hi
          exact hn _ _ hc
      next => exact hn n i hi
  exact walk t.realClasses ∅ (fun c hc => List.mem_map_of_mem hc) (fun n i hi => by simp at hi)
    name id h

theorem mem_realIds_of_references {refs : OrderedMap TypeId TypeId}
    (h : bindReferences t (nameTable t) = .ok refs) {x y : TypeId} (hxy : refs.get? x = some y) :
    y ∈ t.realIds := by
  refine foldlM_ok_induction (P := fun _ refs => ∀ x y, refs.get? x = some y → y ∈ t.realIds)
    (fun x y hxy => by simp at hxy) ?_ h x y hxy
  intro pre c post refs refs' _ ih hstep x y hy
  unfold bindReference at hstep
  split at hstep
  next target htarget =>
    obtain rfl := Except.ok.inj hstep
    rw [OrderedMap.get?_insert] at hy
    split at hy
    next =>
      obtain rfl := Option.some.inj hy
      exact mem_realIds_of_nameTable htarget
    next => exact ih x y hy
  next => cases hstep

/-- What an id means is a definition. -/
theorem classOf?_mem_realIds {refs : OrderedMap TypeId TypeId}
    (h : bindReferences t (nameTable t) = .ok refs) {x y : TypeId}
    (hxy : classOf? t refs x = some y) : y ∈ t.realIds := by
  unfold classOf? at hxy
  cases hx : refs.get? x with
  | some z =>
    rw [hx] at hxy
    obtain rfl := Option.some.inj hxy
    exact mem_realIds_of_references h hx
  | none =>
    rw [hx] at hxy
    obtain ⟨c, hc, rfl⟩ := Option.map_eq_some_iff.1 hxy
    exact TypeTable.mem_realIds_of_realClass? hc

/-! ## Base classes -/

theorem mem_realIds_of_baseSet {refs : OrderedMap TypeId TypeId}
    (h : bindReferences t (nameTable t) = .ok refs) {c : ClassRecord} {s : OrderedSet TypeId}
    (hs : baseSet t refs c = .ok s) {b : TypeId} (hb : b ∈ s) : b ∈ t.realIds := by
  refine foldlM_ok_induction (P := fun _ s => ∀ b ∈ s, b ∈ t.realIds)
    (fun b hb => absurd hb (OrderedSet.not_mem_empty b)) ?_ hs b hb
  intro pre base post s s' _ ih hstep b hb
  unfold addBase at hstep
  split at hstep
  next target htarget =>
    obtain rfl := Except.ok.inj hstep
    rcases OrderedSet.mem_insert.1 hb with hb | rfl
    · exact ih b hb
    · exact classOf?_mem_realIds h htarget
  next => cases hstep

/-- The base classes of a table: the definitions in order, and nothing but definitions
among their base classes. -/
theorem shape_baseClasses {refs : OrderedMap TypeId TypeId}
    (h : bindReferences t (nameTable t) = .ok refs) {bases : OrderedMap TypeId (OrderedSet TypeId)}
    (hb : baseClasses t refs = .ok bases) :
    bases.keys = t.realIds ∧ ∀ c s, bases.get? c = some s → ∀ b ∈ s, b ∈ t.realIds := by
  refine foldlM_ok_induction (P := fun pre bases =>
    bases.keys = pre.map ClassRecord.id ∧
      ∀ c s, bases.get? c = some s → ∀ b ∈ s, b ∈ t.realIds)
    ⟨rfl, fun c s hs => by simp at hs⟩ ?_ hb
  intro pre c post bases bases' hsplit hpre hstep
  obtain ⟨hkeys, hmem⟩ := hpre
  obtain ⟨s, hs, hbases⟩ := bind_eq_ok_iff.1 hstep
  obtain rfl := Except.ok.inj hbases
  -- No definition before this one has its id.
  have fresh : c.id ∉ bases.keys := by
    have hnd := t.nodup_realIds
    rw [TypeTable.realIds, hsplit, List.map_append, List.map_cons, List.nodup_append] at hnd
    rw [hkeys]
    exact fun hc => hnd.2.2 _ hc _ List.mem_cons_self rfl
  refine ⟨?_, ?_⟩
  · rw [OrderedMap.keys_insert, if_neg fresh, hkeys, List.map_append]
    rfl
  · intro j s' hj b hb
    rw [OrderedMap.get?_insert] at hj
    split at hj
    next =>
      obtain rfl := Option.some.inj hj
      exact mem_realIds_of_baseSet h hs hb
    next => exact hmem j s' hj b hb

/-- Every definition has its base classes, in table order. -/
theorem keys_bases (h : ofTable t ps = .ok r) : r.bases.keys = t.realIds := by
  obtain ⟨_, hrefs, hbases, _⟩ := ofTable_eq_ok_iff.1 h
  exact (shape_baseClasses hrefs hbases).1

theorem mem_realIds_of_mem_basesOf (h : ofTable t ps = .ok r) {c b : TypeId}
    (hb : b ∈ r.basesOf c) : b ∈ t.realIds := by
  obtain ⟨_, hrefs, hbases, _⟩ := ofTable_eq_ok_iff.1 h
  unfold basesOf at hb
  cases hc : r.bases.get? c with
  | none => rw [hc] at hb; cases hb
  | some s =>
    rw [hc] at hb
    exact (shape_baseClasses hrefs hbases).2 c s hc b hb

/-! ## Procedures -/

theorem correlate_eq_gather (refs : OrderedMap TypeId TypeId) :
    correlate t refs ps =
      .gather (ps.zipIdx.filterMap fun p => (ownerOf? t refs p.1).map fun id => (id, p.2)) := by
  rw [OrderedMap.gather, List.foldl_filterMap, correlate]
  congr 1
  funext owned p
  unfold attach
  cases ownerOf? t refs p.1 with
  | none => rfl
  | some id => rfl

/-- The procedures of a class are the positions of those that belong to it. -/
theorem proceduresOf_eq (h : ofTable t ps = .ok r) (c : TypeId) :
    r.proceduresOf c =
      (ps.zipIdx.filter fun p => ownerOf? t r.references p.1 = some c).map Prod.snd := by
  obtain ⟨_, _, _, hp⟩ := ofTable_eq_ok_iff.1 h
  rw [proceduresOf, hp, correlate_eq_gather, OrderedMap.getD_gather]
  induction ps.zipIdx with
  | nil => rfl
  | cons p es ih =>
    rw [List.filterMap_cons]
    cases ho : ownerOf? t r.references p.1 with
    | none => simpa [ho] using ih
    | some id => by_cases hid : id = c <;> simpa [ho, hid] using ih

theorem mem_proceduresOf_iff (h : ofTable t ps = .ok r) {c : TypeId} {i : Nat} :
    i ∈ r.proceduresOf c ↔ ∃ p, ps[i]? = some p ∧ ownerOf? t r.references p = some c := by
  rw [proceduresOf_eq h, List.mem_map]
  refine ⟨?_, ?_⟩
  · intro hx
    obtain ⟨⟨p, i⟩, hp, rfl⟩ := hx
    obtain ⟨hp, ho⟩ := List.mem_filter.1 hp
    exact ⟨p, List.mem_zipIdx_iff_getElem?.1 hp, by simpa using ho⟩
  · intro hx
    obtain ⟨p, hp, ho⟩ := hx
    refine ⟨(p, i), List.mem_filter.2 ⟨List.mem_zipIdx_iff_getElem?.2 hp, ?_⟩, rfl⟩
    simpa using ho

/-- The procedures of a class stand in ascending order, none twice. -/
theorem pairwise_proceduresOf (h : ofTable t ps = .ok r) (c : TypeId) :
    (r.proceduresOf c).Pairwise (· < ·) := by
  have all : (ps.zipIdx.map Prod.snd).Pairwise (· < ·) := by
    rw [List.zipIdx_map_snd]
    exact List.pairwise_lt_range'
  rw [proceduresOf_eq h]
  exact all.sublist (List.filter_sublist.map _)

end Resolution
end Lineage
