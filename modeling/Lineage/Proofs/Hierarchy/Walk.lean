import Lineage.Proofs.Hierarchy.Chains

/-!
# What a walk finds out

A walk over a hierarchy records each class when it is done with it. At any moment the classes fall
into three kinds: those that are recorded, those on the path, and those that the walk has not
met. A visit keeps what is recorded and records nothing that is on its path (`kept_visit`), so what
is said of recorded classes stays true to the end.

The invariant is `Survey.Sound`. A class is recorded after its base classes, except for those that
are on the path, and such a base class closes a cycle. So the recorded depth is that of some chain
among classes recorded before, and where no cycle can be reached it is the depth of a longest one.
`Survey.Sound.record` and `Survey.Sound.flag` are the two steps that a walk is made of, and a visit
makes them in turn (`sound_walk`).

Main result: `sound_survey`.
-/

namespace Lineage.Hierarchy

open Relation (ReflTransGen TransGen)

variable {g : BaseGraph} {path : List TypeId} {id : TypeId} {s s' s'' : Survey}

/-! ## One visit -/

/-- A class that is recorded is left alone. -/
theorem visit_of_contains (h : s.depths.contains id = true) : visit g path id s = s := by
  rw [visit, if_pos h]

/-- A class on the path closes a cycle, which is noted. -/
theorem visit_of_mem (h : ¬ s.depths.contains id = true) (hp : id ∈ path) :
    visit g path id s = { s with cyclic := true } := by
  rw [visit, if_neg h, dif_pos hp]

/-- A class that is no key has no base classes, and is recorded at once. -/
theorem visit_of_get?_eq_none (h : ¬ s.depths.contains id = true) (hp : id ∉ path)
    (hg : g.get? id = none) :
    visit g path id s = { s with depths := s.depths.insert id 0 } := by
  rw [visit, if_neg h, dif_neg hp]
  split
  next => rfl
  next parents hparents => rw [hg] at hparents; cases hparents

/-- A class is recorded after its base classes have been visited with it on the path. -/
theorem visit_of_get?_eq_some (h : ¬ s.depths.contains id = true) (hp : id ∉ path)
    {parents : OrderedSet TypeId} (hg : g.get? id = some parents) :
    visit g path id s =
      let above := visitAll g (id :: path) parents.elements s 0
      { above.1 with depths := above.1.depths.insert id above.2 } := by
  rw [visit, if_neg h, dif_neg hp]
  split
  next hnone => rw [hg] at hnone; cases hnone
  next parents' hparents =>
    obtain rfl := Option.some.inj (hg.symm.trans hparents)
    rfl

/-! ## What a walk leaves as it is -/

/-- A class that a survey is done with. -/
def Survey.Done (s : Survey) (id : TypeId) : Prop := id ∈ s.depths.keys

/-- The survey with the depth of one more class. -/
def Survey.record (s : Survey) (id : TypeId) (depth : Nat) : Survey :=
  { s with depths := s.depths.insert id depth }

/-- A class is done with if it has a depth. -/
theorem Survey.done_iff : s.Done id ↔ ∃ d, s.depths.get? id = some d := OrderedMap.mem_keys_iff

theorem Survey.done_of_get? {d : Nat} (h : s.depths.get? id = some d) : s.Done id :=
  done_iff.2 ⟨d, h⟩

/-- Recording a class gives it a depth and changes no other. -/
theorem Survey.get?_record {d : Nat} (c : TypeId) :
    (s.record id d).depths.get? c = if c = id then some d else s.depths.get? c :=
  OrderedMap.get?_insert ..

/-- Recording a class is all that makes one done. -/
theorem Survey.done_record_iff {d : Nat} {c : TypeId} :
    (s.record id d).Done c ↔ c = id ∨ s.Done c := by
  rw [done_iff, get?_record]
  split
  next h => exact ⟨fun _ => .inl h, fun _ => ⟨d, rfl⟩⟩
  next h => rw [← done_iff]; exact ⟨.inr, fun hc => hc.resolve_left h⟩

/-- From `s` to `s'` no depth has changed that was recorded, nothing on the path has
been recorded, and a cycle that was met is not forgotten. -/
structure Survey.Kept (path : List TypeId) (s s' : Survey) : Prop where
  depths : ∀ c, c ∈ path ∨ s.Done c → s'.depths.get? c = s.depths.get? c
  cyclic : s.cyclic = true → s'.cyclic = true

theorem Survey.Kept.refl (path : List TypeId) (s : Survey) : s.Kept path s :=
  ⟨fun _ _ => rfl, fun h => h⟩

/-- What is done stays done. -/
theorem Survey.Kept.done (h : s.Kept path s') {c : TypeId} (hc : s.Done c) : s'.Done c := by
  obtain ⟨d, hd⟩ := done_iff.1 hc
  exact done_of_get? ((h.depths c (.inr hc)).trans hd)

/-- What two visits in a row keep is kept by both together. -/
theorem Survey.Kept.trans (h : s.Kept path s') (h' : s'.Kept path s'') : s.Kept path s'' where
  depths c hc := by
    rw [h'.depths c (hc.imp_right h.done), h.depths c hc]
  cyclic hs := h'.cyclic (h.cyclic hs)

/-- Recording the class at the end of the path keeps what its own walk has kept. -/
theorem Survey.Kept.record (h : s.Kept (id :: path) s') (hp : id ∉ path) (hs : ¬ s.Done id)
    (d : Nat) : s.Kept path (s'.record id d) where
  depths c hc := by
    have hne : c ≠ id := by
      rintro rfl
      exact hc.elim hp hs
    rw [get?_record, if_neg hne, h.depths c (hc.imp_left (List.mem_cons_of_mem id))]
  cyclic hs := h.cyclic hs

/-- A walk keeps what it finds, both from one class and from several in turn. -/
theorem kept_walk (g : BaseGraph) :
    (∀ path id s, Survey.Kept path s (visit g path id s)) ∧
      ∀ path parents s depth, Survey.Kept path s (visitAll g path parents s depth).1 := by
  apply visit.mutual_induct g
  case case1 =>
    intro path id s done
    rw [visit_of_contains done]
    exact .refl path s
  case case2 =>
    intro path id s new onPath
    rw [visit_of_mem new onPath]
    exact ⟨fun _ _ => rfl, fun _ => rfl⟩
  case case3 =>
    intro path id s new offPath unknown
    rw [visit_of_get?_eq_none new offPath unknown]
    exact (Survey.Kept.refl _ s).record offPath (mt OrderedMap.contains_iff.2 new) 0
  case case4 =>
    intro path id s new offPath parents known _ _ _ ih
    rw [visit_of_get?_eq_some new offPath known]
    exact ih.record offPath (mt OrderedMap.contains_iff.2 new) _
  case case5 =>
    intro path s depth
    rw [visitAll]
    exact .refl path s
  case case6 =>
    intro path s depth parent parents _ ihParent ih
    rw [visitAll]
    exact ihParent.trans ih

theorem kept_visit (g : BaseGraph) (path : List TypeId) (id : TypeId) (s : Survey) :
    s.Kept path (visit g path id s) := (kept_walk g).1 path id s

theorem kept_visitAll (g : BaseGraph) (path parents : List TypeId) (s : Survey) (depth : Nat) :
    s.Kept path (visitAll g path parents s depth).1 := (kept_walk g).2 path parents s depth

/-- After a visit the class is recorded, unless it was on the path, which is a cycle. -/
theorem done_visit (g : BaseGraph) (path : List TypeId) (id : TypeId) (s : Survey) :
    (visit g path id s).Done id ∨ id ∈ path ∧ (visit g path id s).cyclic = true := by
  by_cases done : s.depths.contains id = true
  · rw [visit_of_contains done]
    exact .inl (OrderedMap.contains_iff.1 done)
  by_cases onPath : id ∈ path
  · rw [visit_of_mem done onPath]
    exact .inr ⟨onPath, rfl⟩
  cases hg : g.get? id with
  | none =>
    rw [visit_of_get?_eq_none done onPath hg]
    exact .inl (Survey.done_record_iff.2 (.inl rfl))
  | some parents =>
    rw [visit_of_get?_eq_some done onPath hg]
    exact .inl (Survey.done_record_iff.2 (.inl rfl))

/-! ## The depth below several parents -/

/-- A walk has been to each of the parents and has found the depth below them: one more than the
greatest depth of a parent that is recorded, and zero if there is none. -/
structure Survey.Below (path : List TypeId) (s : Survey) (parents : List TypeId) (depth : Nat) :
    Prop where
  visited : ∀ p ∈ parents, s.Done p ∨ p ∈ path ∧ s.cyclic = true
  bound : ∀ p ∈ parents, ∀ d, s.depths.get? p = some d → d < depth
  attained : ∀ d, depth = d + 1 → ∃ p ∈ parents, s.depths.get? p = some d

theorem Survey.below_nil (path : List TypeId) (s : Survey) : s.Below path [] 0 :=
  ⟨fun _ hp => absurd hp List.not_mem_nil, fun _ hp => absurd hp List.not_mem_nil,
    fun _ hd => absurd hd.symm (Nat.succ_ne_zero _)⟩

/-- What is known of parents is not lost in a walk that goes on. -/
theorem Survey.Below.of_kept {parents : List TypeId} {depth : Nat} (h : s.Below path parents depth)
    (hk : s.Kept path s') : s'.Below path parents depth := by
  have same : ∀ p ∈ parents, s'.depths.get? p = s.depths.get? p := fun p hp =>
    hk.depths p ((h.visited p hp).symm.imp_left And.left)
  refine ⟨fun p hp => ?_, fun p hp d hd => h.bound p hp d (same p hp ▸ hd), fun d hd => ?_⟩
  · exact (h.visited p hp).imp hk.done fun hc => ⟨hc.1, hk.cyclic hc.2⟩
  · obtain ⟨p, hp, hpd⟩ := h.attained d hd
    exact ⟨p, hp, (same p hp).trans hpd⟩

/-- One more parent that has been visited. -/
theorem Survey.Below.concat {parents : List TypeId} {depth : Nat} (h : s.Below path parents depth)
    {p : TypeId} (hp : s.Done p ∨ p ∈ path ∧ s.cyclic = true) :
    s.Below path (parents ++ [p]) (s.above p depth) := by
  have visited : ∀ q ∈ parents ++ [p], s.Done q ∨ q ∈ path ∧ s.cyclic = true := by
    intro q hq
    rcases List.mem_append.1 hq with hq | hq
    · exact h.visited q hq
    · rw [List.mem_singleton.1 hq]
      exact hp
  unfold above
  split
  next d hd =>
    refine ⟨visited, fun q hq e he => ?_, fun e he => ?_⟩
    · rcases List.mem_append.1 hq with hq | hq
      · have := h.bound q hq e he
        omega
      · rw [List.mem_singleton.1 hq, hd] at he
        have := Option.some.inj he
        omega
    · rcases Nat.lt_or_ge d depth with hlt | hge
      · obtain ⟨q, hq, hqe⟩ := h.attained e (by omega)
        exact ⟨q, List.mem_append_left _ hq, hqe⟩
      · obtain rfl : d = e := by omega
        exact ⟨p, List.mem_append_right _ List.mem_cons_self, hd⟩
  next hnone =>
    refine ⟨visited, fun q hq e he => ?_, fun e he => ?_⟩
    · rcases List.mem_append.1 hq with hq | hq
      · exact h.bound q hq e he
      · rw [List.mem_singleton.1 hq, hnone] at he
        cases he
    · obtain ⟨q, hq, hqe⟩ := h.attained e he
      exact ⟨q, List.mem_append_left _ hq, hqe⟩

/-- The loop over base classes raises the depth above that of each, by induction on those that are
left. -/
theorem below_visitAll (g : BaseGraph) (parents : List TypeId) {seen : List TypeId} {depth : Nat}
    (h : s.Below path seen depth) :
    (visitAll g path parents s depth).1.Below path (seen ++ parents)
      (visitAll g path parents s depth).2 := by
  induction parents generalizing s seen depth with
  | nil =>
    rw [visitAll, List.append_nil]
    exact h
  | cons p parents ih =>
    rw [visitAll, List.append_cons]
    exact ih ((h.of_kept (kept_visit g path p s)).concat (done_visit g path p s))

/-! ## The invariant -/

/-- What a survey says of the graph while a walk is on its path. -/
structure Survey.Sound (g : BaseGraph) (path : List TypeId) (s : Survey) : Prop where
  /-- Only classes of the graph are recorded, -/
  known : ∀ id, s.Done id → id ∈ ids g
  /-- each after its base classes, unless the walk is yet to come back to one of them. -/
  closed : ∀ id, s.Done id → ∀ b, DerivesFrom g id b → s.Done b ∨ b ∈ path
  /-- A depth is the length of a chain that holds no class twice, -/
  chain : ∀ id d, s.depths.get? id = some d → ∃ above, ChainAbove g id above ∧
    above.length = d ∧ (id :: above).Nodup ∧ ∀ b ∈ above, s.Done b
  /-- and no chain is longer where there is no cycle. -/
  longest : ∀ id d, s.depths.get? id = some d → AcyclicAbove g id →
    ∀ above, ChainAbove g id above → above.length ≤ d
  /-- As long as no cycle has been met there is none above what is recorded. -/
  acyclic : s.cyclic = false → ∀ id, s.Done id → AcyclicAbove g id
  cyclic : s.cyclic = true → HasCycle g

/-- Nothing has been recorded, so nothing wrong has been. -/
theorem sound_empty (g : BaseGraph) : Survey.empty.Sound g [] where
  known _ h := absurd h List.not_mem_nil
  closed _ h := absurd h List.not_mem_nil
  chain _ _ h := nomatch h
  longest _ _ h := nomatch h
  acyclic _ _ h := absurd h List.not_mem_nil
  cyclic h := nomatch h

/-- The invariant speaks of base classes on the path, and a longer path allows for more. -/
theorem Survey.Sound.cons (h : s.Sound g path) (id : TypeId) : s.Sound g (id :: path) :=
  { h with closed := fun c hc b hb => (h.closed c hc b hb).imp_right (List.mem_cons_of_mem id) }

/-- The way from each class on the path leads to a class of the graph. -/
structure Approach (g : BaseGraph) (path : List TypeId) (id : TypeId) : Prop where
  leads : ∀ c ∈ path, TransGen (DerivesFrom g) c id
  known : id ∈ ids g

/-- Where a class can be approached, so can its base classes from it. -/
theorem Approach.parent (h : Approach g path id) {p : TypeId} (hp : DerivesFrom g id p) :
    Approach g (id :: path) p := by
  refine ⟨fun c hc => ?_, hp.mem_ids⟩
  rcases List.mem_cons.1 hc with rfl | hc
  · exact .single hp
  · exact (h.leads c hc).tail hp

/-- A class that is met on the path closes a cycle. -/
theorem Survey.Sound.flag (h : s.Sound g path) (ha : Approach g path id) (hp : id ∈ path) :
    Survey.Sound g path { s with cyclic := true } :=
  { h with
    acyclic := nofun
    cyclic := fun _ => ⟨id, ha.leads id hp⟩ }

/-- A class is recorded once the walk has been to its base classes. -/
theorem Survey.Sound.record (h : s.Sound g (id :: path)) (ha : Approach g path id)
    (hnew : ¬ s.Done id) {depth : Nat}
    (hbelow : s.Below (id :: path) (parentsOf g id).elements depth) :
    (s.record id depth).Sound g path := by
  -- A base class on the path would close a cycle.
  have parents_done : AcyclicAbove g id → ∀ b, DerivesFrom g id b → s.Done b := by
    intro hid b hb
    rcases hbelow.visited b hb with hdone | ⟨hpath, _⟩
    · exact hdone
    · have back : ReflTransGen (DerivesFrom g) b id := by
        rcases List.mem_cons.1 hpath with rfl | hpath
        · exact .refl
        · exact (ha.leads b hpath).to_reflTransGen
      exact absurd hid (not_acyclicAbove_of_back back hb)
  constructor
  case known =>
    intro c hc
    rcases done_record_iff.1 hc with rfl | hc
    · exact ha.known
    · exact h.known c hc
  case closed =>
    intro c hc b hb
    rw [done_record_iff]
    have hb' : s.Done b ∨ b ∈ id :: path := by
      rcases done_record_iff.1 hc with rfl | hc
      · exact (hbelow.visited b hb).imp_right And.left
      · exact h.closed c hc b hb
    rcases hb' with hdone | hpath
    · exact .inl (.inr hdone)
    · exact (List.mem_cons.1 hpath).imp_left .inl
  case chain =>
    intro c d hd
    rw [get?_record] at hd
    split at hd
    next hc =>
      subst hc
      obtain rfl := Option.some.inj hd
      cases depth with
      | zero =>
        have alone : [c].Nodup := List.pairwise_singleton _ c
        exact ⟨[], chainAbove_nil g c, rfl, alone, fun b hb => absurd hb List.not_mem_nil⟩
      | succ n =>
        obtain ⟨p, hp, hpn⟩ := hbelow.attained n rfl
        obtain ⟨above, hchain, hlength, hnodup, hdone⟩ := h.chain p n hpn
        have row_done : ∀ b ∈ p :: above, s.Done b :=
          List.forall_mem_cons.2 ⟨done_of_get? hpn, hdone⟩
        refine ⟨p :: above, chainAbove_cons.2 ⟨hp, hchain⟩, congrArg (· + 1) hlength, ?_, ?_⟩
        · exact List.nodup_cons.2 ⟨fun hc => hnew (row_done c hc), hnodup⟩
        · exact fun b hb => done_record_iff.2 (.inr (row_done b hb))
    next =>
      obtain ⟨above, hchain, hlength, hnodup, hdone⟩ := h.chain c d hd
      exact ⟨above, hchain, hlength, hnodup, fun b hb => done_record_iff.2 (.inr (hdone b hb))⟩
  case longest =>
    intro c d hd hc above habove
    rw [get?_record] at hd
    split at hd
    next hcid =>
      subst hcid
      obtain rfl := Option.some.inj hd
      cases above with
      | nil => exact Nat.zero_le _
      | cons b above =>
        obtain ⟨hb, habove⟩ := chainAbove_cons.1 habove
        obtain ⟨e, he⟩ := done_iff.1 (parents_done hc b hb)
        have hlt := hbelow.bound b hb e he
        have hle := h.longest b e he (acyclicAbove_iff.1 hc b hb) above habove
        rw [List.length_cons]
        omega
    next => exact h.longest c d hd hc above habove
  case acyclic =>
    intro hs c hc
    rcases done_record_iff.1 hc with rfl | hc
    · refine acyclicAbove_iff.2 fun b hb => h.acyclic hs b ?_
      rcases hbelow.visited b hb with hdone | ⟨_, hcyclic⟩
      · exact hdone
      · exact absurd (hs.symm.trans hcyclic) Bool.false_ne_true
    · exact h.acyclic hs c hc
  case cyclic => exact h.cyclic

/-- A walk keeps the survey sound. -/
theorem sound_walk (g : BaseGraph) :
    (∀ path id s, Approach g path id → s.Sound g path → (visit g path id s).Sound g path) ∧
      ∀ path parents s depth, (∀ p ∈ parents, Approach g path p) → s.Sound g path →
        (visitAll g path parents s depth).1.Sound g path := by
  apply visit.mutual_induct g
  case case1 =>
    intro path id s done _ h
    rw [visit_of_contains done]
    exact h
  case case2 =>
    intro path id s new onPath ha h
    rw [visit_of_mem new onPath]
    exact h.flag ha onPath
  case case3 =>
    intro path id s new offPath unknown ha h
    rw [visit_of_get?_eq_none new offPath unknown]
    have parents : (parentsOf g id).elements = [] := by
      rw [parentsOf, unknown]
      rfl
    exact (h.cons id).record ha (mt OrderedMap.contains_iff.2 new)
      (parents ▸ Survey.below_nil (id :: path) s)
  case case4 =>
    intro path id s new offPath parents known _ _ _ ih ha h
    rw [visit_of_get?_eq_some new offPath known]
    have parents_eq : parentsOf g id = parents := parentsOf_of_get? known
    have below := below_visitAll g parents.elements (Survey.below_nil (id :: path) s)
    have still_new : ¬ (visitAll g (id :: path) parents.elements s 0).1.Done id := by
      have kept := kept_visitAll g (id :: path) parents.elements s 0
      rw [Survey.done_iff, kept.depths id (.inl List.mem_cons_self), ← Survey.done_iff]
      exact mt OrderedMap.contains_iff.2 new
    refine (ih (fun p hp => ha.parent ?_) (h.cons id)).record ha still_new (parents_eq ▸ below)
    rw [DerivesFrom, parents_eq]
    exact hp
  case case5 =>
    intro path s depth _ h
    rw [visitAll]
    exact h
  case case6 =>
    intro path s depth parent parents _ ihParent ih ha h
    obtain ⟨haParent, ha⟩ := List.forall_mem_cons.1 ha
    rw [visitAll]
    exact ih ha (ihParent haParent h)

/-! ## The whole survey -/

/-- A class of the graph is met on no path. -/
theorem approach_of_mem_keys (h : id ∈ g.keys) : Approach g [] id :=
  ⟨nofun, mem_ids_of_mem_keys h⟩

/-- The survey of a graph is sound. No walk is under way any more. -/
theorem sound_survey (g : BaseGraph) : (survey g).Sound g [] := by
  unfold survey
  refine List.foldlRecOn g.keys _ (sound_empty g) fun s hs id hid => ?_
  exact (sound_walk g).1 [] id s (approach_of_mem_keys hid) hs

/-- Walks from several classes in turn record each of them. -/
theorem done_foldl_visit (g : BaseGraph) {cs : List TypeId} {c : TypeId} (h : s.Done c ∨ c ∈ cs) :
    (cs.foldl (fun s id => visit g [] id s) s).Done c := by
  induction cs generalizing s with
  | nil => exact h.resolve_right List.not_mem_nil
  | cons b cs ih =>
    refine ih ?_
    rcases h with hdone | hc
    · exact .inl ((kept_visit g [] b s).done hdone)
    · rcases List.mem_cons.1 hc with rfl | hc
      · exact .inl ((done_visit g [] c s).resolve_right fun hp => List.not_mem_nil hp.1)
      · exact .inr hc

/-- The survey of a graph records every class that the graph speaks of, and no other. -/
theorem done_survey_iff : (survey g).Done id ↔ id ∈ ids g := by
  have sound := sound_survey g
  have own : ∀ c ∈ g.keys, (survey g).Done c := fun c hc => done_foldl_visit g (.inr hc)
  refine ⟨sound.known id, fun hid => ?_⟩
  rcases mem_ids_iff.1 hid with hid | ⟨c, hc⟩
  · exact own id hid
  · exact (sound.closed c (own c hc.mem_keys) id hc).resolve_right List.not_mem_nil

end Lineage.Hierarchy
