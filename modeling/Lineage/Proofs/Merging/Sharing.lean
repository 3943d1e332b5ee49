import Lineage.Proofs.Merging.Members

/-!
# What merging adds to a field list

Merging is to leave alone what it does not merge. A class without a duplicate should keep its
members, and a class that absorbs others should get members of its own group only. Members
are merged in place, however, into a list that several classes may name. So what a class gets
depends on all that ever went into the list that it names in the end.

`movesTo` lists the moves of a run, each a target with the source that was merged into it. A
source may have been a target before, and then it brings what it got. All in all, a list is
what it was at the start with the members of its `sources` merged in (`composed_runTo`). In a
well-wired table the moves can be read off the start (`plannedMoves`).

Main result: `keeps_to_group_iff`. No foreign member arrives where the lists of a group are named
in that group only (`keepsToGroup_of_private`).
-/

namespace Lineage

/-! ## What is new -/

namespace FieldList

variable {members others more : List Member}

/-- The members that merging adds. -/
def additions (members others : List Member) : List Member :=
  (merge members others).drop members.length

theorem append_additions (members others : List Member) :
    members ++ additions members others = merge members others := by
  obtain ⟨new, hnew⟩ := prefix_merge members others
  rw [additions, ← hnew, List.drop_left]

theorem mem_merge_iff {m : Member} :
    m ∈ merge members others ↔ m ∈ members ∨ m ∈ additions members others := by
  rw [← append_additions, List.mem_append]

theorem merge_cons (members others : List Member) (m : Member) :
    merge members (m :: others) =
      if members.any fun k => k.sameAs m then merge members others
      else merge (members ++ [m]) others := by
  rw [merge, List.foldl_cons]
  split <;> rfl

/-- What is merged in stems from the other list. -/
theorem mem_of_mem_merge {m : Member} (h : m ∈ merge members others) :
    m ∈ members ∨ m ∈ others := by
  induction others generalizing members with
  | nil => exact .inl h
  | cons o others ih =>
    rw [merge_cons] at h
    split at h
    next => exact (ih h).imp_right (List.mem_cons_of_mem o)
    next =>
      rcases ih h with hm | hm
      · rcases List.mem_append.1 hm with hm | hm
        · exact .inl hm
        · exact .inr (List.mem_singleton.1 hm ▸ List.mem_cons_self)
      · exact .inr (List.mem_cons_of_mem o hm)

/-- Merging adds only what is the same as no member so far. -/
theorem sameAs_eq_false_of_mem_additions {m : Member} (hm : m ∈ additions members others) :
    ∀ k ∈ members, k.sameAs m = false := by
  induction others generalizing members with
  | nil =>
    rw [additions, merge, List.foldl_nil, List.drop_length] at hm
    cases hm
  | cons o others ih =>
    intro k hk
    rw [additions, merge_cons] at hm
    split at hm
    next => exact ih hm k hk
    next hnew =>
      obtain ⟨new, hrest⟩ := prefix_merge (members ++ [o]) others
      rw [← hrest, List.append_assoc, List.drop_left, List.mem_append, List.mem_singleton] at hm
      rcases hm with rfl | hm
      · exact Bool.not_eq_true _ ▸ fun h => hnew (List.any_eq_true.2 ⟨k, hk, h⟩)
      · have hm' : m ∈ additions (members ++ [o]) others := by
          rwa [additions, ← hrest, List.drop_left]
        exact ih hm' k (List.mem_append_left _ hk)

theorem not_mem_of_mem_additions {m : Member} (hm : m ∈ additions members others) :
    m ∉ members := by
  intro h
  have hne := sameAs_eq_false_of_mem_additions hm m h
  rw [Member.sameAs, beq_self_eq_true] at hne
  cases hne

/-- To merge in a merged list is to merge in its two parts. -/
theorem merge_merge (members others more : List Member) :
    merge members (merge others more) = merge members (others ++ more) := by
  induction more generalizing others with
  | nil => rw [List.append_nil]; rfl
  | cons m more ih =>
    rw [merge_cons]
    split
    next hany =>
      obtain ⟨k, hk, hkm⟩ := List.any_eq_true.1 hany
      -- The member is among the others already, and so it is after these have been merged in.
      have hcov : (merge members others).any (fun k => k.sameAs m) = true := by
        obtain ⟨j, hj, hjk⟩ := covers_merge members others k hk
        refine List.any_eq_true.2 ⟨j, hj, ?_⟩
        rw [Member.sameAs, beq_iff_eq] at hjk hkm ⊢
        exact hjk.trans hkm
      rw [ih, merge_append, merge_append, merge_cons, if_pos hcov]
    next => rw [ih, List.append_assoc, List.singleton_append]

end FieldList

namespace Merging

open FieldList (additions)

variable {t : TypeTable} {r : Resolution} {s : State} {pre post : List (TypeId × TypeId)}
  {k d list : TypeId} {removed : ClassRecord}

/-! ## Where members go -/

/-- The target and the source of a move of members: two different field lists of the table. -/
def move? (t : TypeTable) (own given : Option TypeId) : Option (TypeId × TypeId) :=
  match own, given with
  | some target, some source =>
    if target ≠ source ∧ (t.fieldList? target).isSome ∧ (t.fieldList? source).isSome then
      some (target, source)
    else none
  | _, _ => none

theorem move?_eq_some_iff {own given : Option TypeId} {target source : TypeId} :
    move? t own given = some (target, source) ↔
      own = some target ∧ given = some source ∧ target ≠ source ∧
        (t.fieldList? target).isSome ∧ (t.fieldList? source).isSome := by
  unfold move?
  split
  next a b =>
    refine ⟨?_, ?_⟩
    · intro h
      split at h
      next hc =>
        cases h
        exact ⟨rfl, rfl, hc⟩
      next => cases h
    · intro h
      obtain ⟨ha, hb, hc⟩ := h
      cases ha
      cases hb
      rw [if_pos hc]
  next hne =>
    refine ⟨?_, ?_⟩
    · intro h
      cases h
    · intro h
      exact absurd h.2.1 (hne target source h.1)

theorem giveMembers_of_move? {target source : TypeId}
    (h : move? t (t.listOf? k) removed.fieldList = some (target, source)) :
    (giveMembers t k removed).1 = t.mergeMembers target (t.listMembers source) := by
  obtain ⟨hown, hgiven, hne, htarget, hsource⟩ := move?_eq_some_iff.1 h
  obtain ⟨old, hold⟩ := Option.isSome_iff_exists.1 htarget
  obtain ⟨given, hg⟩ := Option.isSome_iff_exists.1 hsource
  unfold giveMembers
  rw [← TypeTable.listOf?, hown, hgiven]
  dsimp only
  rw [if_neg hne, hg, hold, TypeTable.listMembers_of_fieldList? hg]

/-- Without a move the field lists stay as they are. -/
theorem fieldList?_giveMembers_of_none
    (h : move? t (t.listOf? k) removed.fieldList = none) (l : TypeId) :
    (giveMembers t k removed).1.fieldList? l = t.fieldList? l := by
  unfold giveMembers
  rw [← TypeTable.listOf?]
  split
  next => rfl
  next => exact TypeTable.fieldList?_adopt ..
  next source target hgiven hown =>
    split
    next => rfl
    next hne =>
      split
      next given old hg hold =>
        rw [hown, hgiven, move?, if_pos ⟨hne, by rw [hold]; rfl, by rw [hg]; rfl⟩] at h
        cases h
      next => rfl

theorem listMembers_mergeMembers (t : TypeTable) (members : List Member)
    (hl : (t.fieldList? list).isSome = true) (j : TypeId) :
    (t.mergeMembers list members).listMembers j =
      if j = list then FieldList.merge (t.listMembers list) members else t.listMembers j := by
  rw [TypeTable.listMembers, TypeTable.fieldList?_mergeMembers]
  cases hj : t.fieldList? j with
  | none =>
    have hne : j ≠ list := by
      intro e
      rw [← e, hj] at hl
      cases hl
    rw [if_neg hne, TypeTable.listMembers_eq_nil hj]
    rfl
  | some l =>
    have hid : l.id = j := TypeTable.id_of_get? (TypeTable.fieldList?_eq_some_iff.1 hj)
    rw [Option.map_some, hid]
    by_cases h : j = list
    · subst h
      rw [if_pos rfl, if_pos rfl, TypeTable.listMembers_of_fieldList? hj]
    · rw [if_neg h, if_neg h, TypeTable.listMembers_of_fieldList? hj]

/-- What a fold leaves of the field lists is as it was after the members moved. -/
theorem listMembers_fold (h : s.table.classRecord? d = some removed)
    (hl : list ∈ (fold k s d).table.ids) :
    (fold k s d).table.listMembers list =
      (giveMembers s.table k removed).1.listMembers list := by
  have hne : list ≠ d := ((mem_ids_fold_iff h).1 hl).2.1
  rw [table_fold_eq h] at hl ⊢
  rw [TypeTable.listMembers, TypeTable.fieldList?, get?_dropOrphan hl, withoutDuplicate,
    TypeTable.get?_erase, TypeTable.id_of_classRecord? h, if_neg hne]
  rfl

/-! ## The moves of a run -/

/-- The moves that a list of folds makes, where `move` says what a fold does after others. -/
def movesBy (move : List (TypeId × TypeId) → TypeId → TypeId → Option (TypeId × TypeId)) :
    List (TypeId × TypeId) → List (TypeId × TypeId) → List (TypeId × TypeId)
  | _, [] => []
  | done, (k, d) :: folds => (move done k d).toList ++ movesBy move (done ++ [(k, d)]) folds

theorem movesBy_concat
    (move : List (TypeId × TypeId) → TypeId → TypeId → Option (TypeId × TypeId))
    (done pre : List (TypeId × TypeId)) (k d : TypeId) :
    movesBy move done (pre ++ [(k, d)]) =
      movesBy move done pre ++ (move (done ++ pre) k d).toList := by
  induction pre generalizing done with
  | nil =>
    rw [List.nil_append, List.append_nil, movesBy, movesBy, movesBy, List.append_nil,
      List.nil_append]
  | cons p pre ih =>
    rw [List.cons_append, movesBy, movesBy, ih, List.append_assoc, List.append_assoc,
      List.singleton_append]

/-- The move of one fold, if it makes one. -/
def moveOf? (s : State) (k d : TypeId) : Option (TypeId × TypeId) :=
  move? s.table (s.table.listOf? k) (s.table.listOf? d)

/-- The moves of a run up to some fold. -/
def movesTo (t : TypeTable) (r : Resolution) (folds : List (TypeId × TypeId)) :
    List (TypeId × TypeId) :=
  movesBy (fun done => moveOf? (runTo t r done)) [] folds

/-- The moves of a run that makes all its folds, as they follow from the lists that classes name
at the start. -/
def plannedMoves (t : TypeTable) (folds : List (TypeId × TypeId)) : List (TypeId × TypeId) :=
  movesBy (fun done k d => move? t (listAmong? t done k) (t.listOf? d)) [] folds

theorem movesTo_concat (t : TypeTable) (r : Resolution) (pre : List (TypeId × TypeId))
    (k d : TypeId) :
    movesTo t r (pre ++ [(k, d)]) = movesTo t r pre ++ (moveOf? (runTo t r pre) k d).toList :=
  movesBy_concat _ [] pre k d

theorem plannedMoves_concat (t : TypeTable) (pre : List (TypeId × TypeId)) (k d : TypeId) :
    plannedMoves t (pre ++ [(k, d)]) =
      plannedMoves t pre ++ (move? t (listAmong? t pre k) (t.listOf? d)).toList :=
  movesBy_concat _ [] pre k d

/-- A fold that is not made moves nothing. -/
theorem moveOf?_of_none (h : s.table.classRecord? d = none) : moveOf? s k d = none := by
  rw [moveOf?, TypeTable.listOf?, TypeTable.listOf?, h, Option.bind_none]
  cases (s.table.classRecord? k).bind ClassRecord.fieldList <;> rfl

theorem moveOf?_of_classRecord? (h : s.table.classRecord? d = some removed) :
    moveOf? s k d = move? s.table (s.table.listOf? k) removed.fieldList := by
  have given : s.table.listOf? d = removed.fieldList := by rw [TypeTable.listOf?, h]; rfl
  rw [moveOf?, given]

/-- The lists whose members a list got by some moves, in the order of their arrival. A source
brings what it got before. -/
def sources (moves : List (TypeId × TypeId)) : TypeId → List TypeId :=
  moves.foldl (fun before m list =>
    if list = m.1 then before m.1 ++ m.2 :: before m.2 else before list) fun _ => []

theorem sources_concat (moves : List (TypeId × TypeId)) (target source : TypeId) :
    sources (moves ++ [(target, source)]) list =
      if list = target then sources moves target ++ source :: sources moves source
      else sources moves list := by
  rw [sources, List.foldl_append]
  rfl

/-- All members that moves bring to a list. -/
def brought (t : TypeTable) (moves : List (TypeId × TypeId)) (list : TypeId) : List Member :=
  (sources moves list).flatMap t.listMembers

theorem brought_concat_target (moves : List (TypeId × TypeId)) (target source : TypeId) :
    brought t (moves ++ [(target, source)]) target =
      brought t moves target ++ (t.listMembers source ++ brought t moves source) := by
  rw [brought, sources_concat, if_pos rfl, List.flatMap_append, List.flatMap_cons]
  rfl

theorem brought_concat_of_ne (moves : List (TypeId × TypeId)) {target : TypeId} (source : TypeId)
    (h : list ≠ target) : brought t (moves ++ [(target, source)]) list = brought t moves list := by
  rw [brought, sources_concat, if_neg h, brought]

/-! ## What lists are made of -/

/-- A list of the table has the members that it had at the start, and merged into them those that
the moves brought. -/
def Composed (t : TypeTable) (s : State) (moves : List (TypeId × TypeId)) : Prop :=
  ∀ list ∈ s.table.ids,
    s.table.listMembers list = FieldList.merge (t.listMembers list) (brought t moves list)

theorem composed_fold {ms : List (TypeId × TypeId)}
    (hremoved : s.table.classRecord? d = some removed) (h : Composed t s ms) :
    Composed t (fold k s d) (ms ++ (moveOf? s k d).toList) := by
  intro list hl
  have hls : list ∈ s.table.ids := ((mem_ids_fold_iff hremoved).1 hl).1
  rw [listMembers_fold hremoved hl, moveOf?_of_classRecord? hremoved]
  cases hmove : move? s.table (s.table.listOf? k) removed.fieldList with
  | none =>
    rw [Option.toList_none, List.append_nil, ← h list hls, TypeTable.listMembers,
      fieldList?_giveMembers_of_none hmove]
    rfl
  | some m =>
    obtain ⟨target, source⟩ := m
    obtain ⟨_, _, _, htarget, hsource⟩ := move?_eq_some_iff.1 hmove
    rw [giveMembers_of_move? hmove, listMembers_mergeMembers _ _ htarget, Option.toList_some]
    by_cases hlt : list = target
    · subst hlt
      obtain ⟨l, hlist⟩ := Option.isSome_iff_exists.1 hsource
      have hin : source ∈ s.table.ids :=
        TypeTable.mem_ids_iff.2 ⟨_, TypeTable.fieldList?_eq_some_iff.1 hlist⟩
      rw [if_pos rfl, brought_concat_target, h list hls, h source hin, FieldList.merge_merge,
        FieldList.merge_append _ (brought t ms list)]
    · rw [if_neg hlt, brought_concat_of_ne _ _ hlt, h list hls]

/-- All through a run, the lists are what the moves so far have made of them. -/
theorem composed_runTo (t : TypeTable) (r : Resolution) (pre : List (TypeId × TypeId))
    (hpre : pre <+: plan t) : Composed t (runTo t r pre) (movesTo t r pre) := by
  refine plan_induction (P := fun pre => Composed t (runTo t r pre) (movesTo t r pre))
    (fun list _ => rfl) ?_ pre hpre
  intro pre k d post _ h
  rw [runTo_concat, movesTo_concat]
  cases hc : (runTo t r pre).table.classRecord? d with
  | none =>
    rw [moveOf?_of_none hc, Option.toList_none, List.append_nil, fold_of_none hc]
    exact h
  | some removed => exact composed_fold hc h

theorem composed_run (t : TypeTable) (r : Resolution) :
    Composed t (run t r) (movesTo t r (plan t)) := by
  rw [run_eq_runTo]
  exact composed_runTo t r (plan t) (List.prefix_refl _)

/-! ## Where moves come from -/

theorem listOf?_of_mem_group {name : Text} {e : ClassRecord} (he : e ∈ group t name) :
    t.listOf? e.id = e.fieldList := by
  rw [TypeTable.listOf?, classRecord?_of_mem_group he]
  rfl

theorem membersOf_of_fieldList {e : ClassRecord} (h : e.fieldList = some list) :
    t.membersOf e = t.listMembers list := by
  rw [TypeTable.membersOf, TypeTable.fieldListOf?, h]
  rfl

/-- The list that a class of the table names is named by a class of its group at the start. -/
theorem Tracked.exists_mem_group (h : Tracked t s) (hrec : Recorded pre s) (hpre : pre <+: plan t)
    {name : Text} {c : ClassRecord} {cs : List ClassRecord} (hg : group t name = c :: cs)
    (hlist : s.table.listOf? c.id = some list) : ∃ e ∈ c :: cs, e.fieldList = some list := by
  rw [h.lists c.id (TypeTable.mem_ids_of_listOf? hlist)] at hlist
  obtain ⟨id, hid, hid_list⟩ := List.exists_of_findSome?_eq_some hlist
  have sub : (foldedInto s.report.folds c.id).Sublist (cs.map ClassRecord.id) := by
    rw [← foldedInto_plan hg]
    exact ((hrec.trans hpre.sublist).filter _).map Prod.snd
  obtain ⟨e, he, rfl⟩ := List.mem_map.1 ((sub.cons_cons c.id).mem hid : id ∈ (c :: cs).map _)
  rw [listOf?_of_mem_group (hg ▸ he)] at hid_list
  exact ⟨e, he, hid_list⟩

/-- A move goes from a list of a later class of a group to a list of that group. -/
theorem of_mem_movesTo (hpre : pre <+: plan t) {m : TypeId × TypeId}
    (hm : m ∈ movesTo t r pre) :
    (t.fieldList? m.1).isSome = true ∧ ∃ c cs, group t c.display = c :: cs ∧
      (∃ e ∈ c :: cs, e.fieldList = some m.1) ∧ ∃ e ∈ cs, e.fieldList = some m.2 := by
  refine plan_induction (P := fun pre => m ∈ movesTo t r pre → _) (fun h => by cases h) ?_
    pre hpre hm
  intro pre k d post hp ih hm
  rw [movesTo_concat, List.mem_append, Option.mem_toList] at hm
  rcases hm with hm | hm
  · exact ih hm
  · have hpre : pre <+: plan t := ⟨_, hp.symm⟩
    have hrec := recorded_runTo t r pre hpre
    have htr := tracked_runTo t r pre hpre
    obtain ⟨c, cs, hg, rfl, hd⟩ := mem_plan_iff.1 (mem_plan_of_eq_append hp)
    cases hc : (runTo t r pre).table.classRecord? d with
    | none =>
      rw [moveOf?_of_none hc] at hm
      cases hm
    | some removed =>
      obtain ⟨target, source⟩ := m
      rw [moveOf?_of_classRecord? hc] at hm
      obtain ⟨hown, hgiven, _, htarget, _⟩ := move?_eq_some_iff.1 hm
      obtain ⟨e, he, rfl⟩ := List.mem_map.1 hd
      rw [htr.list_removed (hrec.fresh hp) hc,
        listOf?_of_mem_group (hg ▸ List.mem_cons_of_mem c he)] at hgiven
      refine ⟨?_, c, cs, hg, htr.exists_mem_group hrec hpre hg hown, e, he, hgiven⟩
      cases hl : t.fieldList? target with
      | some l => rfl
      | none =>
        rw [htr.remains.fieldList?_eq_none hl] at htarget
        cases htarget

theorem sources_eq_nil {moves : List (TypeId × TypeId)} (h : ∀ m ∈ moves, m.1 ≠ list) :
    sources moves list = [] := by
  induction moves using List.reverseRecOn with
  | nil => rfl
  | append_singleton moves m ih =>
    have hne : list ≠ m.1 := (h m (List.mem_append_right _ List.mem_cons_self)).symm
    rw [sources_concat, if_neg hne]
    exact ih fun p hp => h p (List.mem_append_left _ hp)

/-- The members of a class after a run. -/
theorem membersAt_run_eq_merge {id : TypeId} (hlist : (run t r).table.listOf? id = some list) :
    (run t r).table.membersAt id =
      FieldList.merge (t.listMembers list) (brought t (movesTo t r (plan t)) list) := by
  have htr := tracked_run t r
  rw [TypeTable.membersAt, hlist]
  cases hl : t.fieldList? list with
  | some l =>
    exact composed_run t r list (htr.mem_ids_of_names (recorded_run t r) (List.prefix_refl _)
      (by rw [hl]; rfl) ⟨id, hlist⟩)
  | none =>
    -- Nothing is moved into a list that is not there.
    have none_moved : sources (movesTo t r (plan t)) list = [] := by
      refine sources_eq_nil fun m hm e => ?_
      have hsome := (of_mem_movesTo (List.prefix_refl _) hm).1
      rw [e, hl] at hsome
      cases hsome
    rw [brought, none_moved, TypeTable.listMembers_eq_nil hl]
    exact TypeTable.listMembers_eq_nil (htr.remains.fieldList?_eq_none hl)

/-! ## The moves of a well-wired table -/

theorem WellWired.intact_runTo (hw : WellWired t) (r : Resolution) (hpre : pre <+: plan t) :
    Intact t (runTo t r pre) := by
  obtain ⟨post, hp⟩ := hpre
  have hs : Intact t (run t r) := (wellWired_iff_intact t r).1 hw
  rw [run_eq_runTo, ← hp] at hs
  exact intact_runTo_of_append pre post hs

/-- All folds of a well-wired table are made. -/
theorem WellWired.folds_run (hw : WellWired t) (r : Resolution) :
    (run t r).report.folds = plan t := by
  rw [run_eq_runTo]
  exact folds_eq_of_intact (List.prefix_refl _) (hw.intact_runTo r (List.prefix_refl _))

/-- The first class of a group of a well-wired table stays. -/
theorem WellWired.mem_ids_run (hw : WellWired t) (r : Resolution) {name : Text} {c : ClassRecord}
    {cs : List ClassRecord} (hg : group t name = c :: cs) : c.id ∈ (run t r).table.ids := by
  have hs : Intact t (run t r) := (wellWired_iff_intact t r).1 hw
  have hreal : c.id ∈ t.realIds := mem_realIds_of_mem_group (by rw [hg]; exact List.mem_cons_self)
  have hm : c.id ∉ (run t r).report.merged.keys := by
    rw [← MergeReport.map_snd_folds, hw.folds_run]
    exact not_mem_duplicates_of_head hg
  obtain ⟨c', hc', _⟩ := TypeTable.mem_realIds_iff.1 (hs.mem_realIds (tracked_run t r) hreal hm)
  exact TypeTable.mem_ids_of_classRecord? hc'

/-- A list that a class names is there as long as it was at the start. -/
theorem Tracked.isSome_fieldList?_iff (h : Tracked t s) (hrec : Recorded pre s)
    (hpre : pre <+: plan t) (hn : s.table.Names list) :
    (s.table.fieldList? list).isSome = true ↔ (t.fieldList? list).isSome = true := by
  refine ⟨?_, ?_⟩
  · intro hs
    cases hl : t.fieldList? list with
    | some l => rfl
    | none =>
      rw [h.remains.fieldList?_eq_none hl] at hs
      cases hs
  · intro hl
    obtain ⟨l, hl', _⟩ := h.exists_fieldList?_of_mem hl (h.mem_ids_of_names hrec hpre hl hn)
    rw [hl']
    rfl

/-- In a well-wired table, what a fold moves follows from the plan. -/
theorem WellWired.moveOf?_runTo (hw : WellWired t) (r : Resolution)
    (hp : plan t = pre ++ (k, d) :: post) :
    moveOf? (runTo t r pre) k d = move? t (listAmong? t pre k) (t.listOf? d) := by
  have hpre : pre <+: plan t := ⟨_, hp.symm⟩
  have hrec := recorded_runTo t r pre hpre
  have htr := tracked_runTo t r pre hpre
  have hs := hw.intact_runTo r hpre
  have hf := hrec.fresh hp
  obtain ⟨removed, hremoved⟩ := hs.exists_classRecord? htr hrec hp
  have given : (runTo t r pre).table.listOf? d = t.listOf? d := by
    rw [← htr.list_removed hf hremoved, TypeTable.listOf?, hremoved]
    rfl
  have own : (runTo t r pre).table.listOf? k = listAmong? t pre k := by
    have hk := hs.mem_realIds htr (mem_realIds_of_mem_plan (mem_plan_of_eq_append hp)).1 hf.kept
    obtain ⟨c, hc, _⟩ := TypeTable.mem_realIds_iff.1 hk
    rw [htr.lists k (TypeTable.mem_ids_of_classRecord? hc), folds_eq_of_intact hpre hs]
  rw [moveOf?]
  ext m
  obtain ⟨target, source⟩ := m
  rw [move?_eq_some_iff, move?_eq_some_iff, ← own, ← given]
  refine and_congr_right fun htarget => and_congr_right fun hsource => and_congr_right fun _ => ?_
  rw [htr.isSome_fieldList?_iff hrec hpre ⟨k, htarget⟩,
    htr.isSome_fieldList?_iff hrec hpre ⟨d, hsource⟩]

theorem WellWired.movesTo_eq (hw : WellWired t) (r : Resolution) :
    movesTo t r (plan t) = plannedMoves t (plan t) := by
  refine plan_induction (P := fun pre => movesTo t r pre = plannedMoves t pre) rfl ?_ (plan t)
    (List.prefix_refl _)
  intro pre k d post hp ih
  rw [movesTo_concat, plannedMoves_concat, ih, hw.moveOf?_runTo r hp]

/-! ## The members of a group -/

/-- A class without a duplicate has the members that it had, and the first class `c` of a group has
no member that no class of the group had. -/
def KeepsToGroup (t : TypeTable) (s : State) (c : ClassRecord) (cs : List ClassRecord) : Prop :=
  (cs = [] → s.table.membersAt c.id = t.membersOf c) ∧
    ∀ m ∈ s.table.membersAt c.id, ∃ e ∈ c :: cs, m ∈ t.membersOf e

instance (t : TypeTable) (s : State) (c : ClassRecord) (cs : List ClassRecord) :
    Decidable (KeepsToGroup t s c cs) :=
  inferInstanceAs (Decidable (_ ∧ _))

/-- What moves add to a list are members of some of the classes. -/
def AddsOnly (t : TypeTable) (moves : List (TypeId × TypeId)) (list : TypeId)
    (cs : List ClassRecord) : Prop :=
  ∀ m ∈ additions (t.listMembers list) (brought t moves list), ∃ e ∈ cs, m ∈ t.membersOf e

instance (t : TypeTable) (moves : List (TypeId × TypeId)) (list : TypeId)
    (cs : List ClassRecord) : Decidable (AddsOnly t moves list cs) :=
  inferInstanceAs (Decidable (∀ m ∈ _, ∃ e ∈ cs, m ∈ t.membersOf e))

section Group

variable {name : Text} {c : ClassRecord} {cs : List ClassRecord}

/-- The list of a class that names one is the list that it names after a run. -/
theorem listOf?_run_of_own (hlist : (run t r).table.listOf? c.id = some list)
    {own : TypeId} (hg : group t name = c :: cs) (hown : c.fieldList = some own) : list = own := by
  rw [(tracked_run t r).lists c.id (TypeTable.mem_ids_of_listOf? hlist), listAmong?, parts,
    List.findSome?_cons, listOf?_of_mem_group (hg ▸ List.mem_cons_self), hown] at hlist
  exact (Option.some.inj hlist).symm

theorem exists_list_of_mem_membersOf {e : ClassRecord} {m : Member} (h : m ∈ t.membersOf e) :
    ∃ list, e.fieldList = some list ∧ m ∈ t.listMembers list := by
  cases hl : e.fieldList with
  | none =>
    rw [TypeTable.membersOf, TypeTable.fieldListOf?, hl] at h
    cases h
  | some list => exact ⟨list, rfl, membersOf_of_fieldList hl ▸ h⟩

theorem KeepsToGroup.addsOnly (hg : group t name = c :: cs)
    (h : KeepsToGroup t (run t r) c cs) (hlist : (run t r).table.listOf? c.id = some list) :
    AddsOnly t (movesTo t r (plan t)) list cs := by
  intro m hm
  have hat : m ∈ (run t r).table.membersAt c.id := by
    rw [membersAt_run_eq_merge hlist, FieldList.mem_merge_iff]
    exact .inr hm
  obtain ⟨e, he, hme⟩ := h.2 m hat
  rcases List.mem_cons.1 he with rfl | he
  · -- What the class had itself need not be added.
    obtain ⟨own, hown, hmem⟩ := exists_list_of_mem_membersOf hme
    obtain rfl := listOf?_run_of_own hlist hg hown
    exact absurd hmem (FieldList.not_mem_of_mem_additions hm)
  · exact ⟨e, he, hme⟩

/-- A class without a duplicate names the list that it named. -/
theorem listOf?_run_of_lone (hg : group t name = [c]) (hc : c.id ∈ (run t r).table.ids) :
    (run t r).table.listOf? c.id = c.fieldList := by
  have childless : ∀ e, (c.id, e) ∉ (run t r).report.folds := by
    intro e he
    have hin := mem_foldedInto_iff.2 ((recorded_run t r).mem_plan (List.prefix_refl _) he)
    rw [foldedInto_plan hg] at hin
    cases hin
  rw [(tracked_run t r).lists c.id hc, listAmong?_of_childless childless,
    listOf?_of_mem_group (hg ▸ List.mem_cons_self)]

theorem keepsToGroup_of_addsOnly (hg : group t name = c :: cs)
    (hc : cs = [] → t.membersOf c ≠ [] → c.id ∈ (run t r).table.ids)
    (h : ∀ list, (run t r).table.listOf? c.id = some list →
      AddsOnly t (movesTo t r (plan t)) list cs) :
    KeepsToGroup t (run t r) c cs := by
  refine ⟨fun hnil => ?_, fun m hm => ?_⟩
  · subst hnil
    cases hlist : (run t r).table.listOf? c.id with
    | some list =>
      have nothing :
          additions (t.listMembers list) (brought t (movesTo t r (plan t)) list) = [] := by
        rw [List.eq_nil_iff_forall_not_mem]
        intro m hm
        obtain ⟨e, he, _⟩ := h list hlist m hm
        cases he
      have hown := listOf?_run_of_lone hg (TypeTable.mem_ids_of_listOf? hlist)
      rw [membersAt_run_eq_merge hlist, ← FieldList.append_additions, nothing, List.append_nil,
        membersOf_of_fieldList (hown.symm.trans hlist)]
    | none =>
      rw [TypeTable.membersAt, hlist]
      by_contra hne
      have hown := listOf?_run_of_lone hg (hc rfl (Ne.symm hne))
      rw [hlist] at hown
      rw [TypeTable.membersOf, TypeTable.fieldListOf?, ← hown] at hne
      exact hne rfl
  · cases hlist : (run t r).table.listOf? c.id with
    | none =>
      rw [TypeTable.membersAt, hlist] at hm
      cases hm
    | some list =>
      rw [membersAt_run_eq_merge hlist, FieldList.mem_merge_iff] at hm
      rcases hm with hm | hm
      · obtain ⟨e, he, hel⟩ := (tracked_run t r).exists_mem_group (recorded_run t r)
          (List.prefix_refl _) hg hlist
        exact ⟨e, he, by rw [membersOf_of_fieldList hel]; exact hm⟩
      · obtain ⟨e, he, hme⟩ := h list hlist m hm
        exact ⟨e, List.mem_cons_of_mem c he, hme⟩

/-- Merging keeps to a group exactly if all that the moves add to the list that its first class
names in the end stems from the later classes of the group, and a class without a
duplicate is not lost with its members. In a well-wired table that comes down to the first list that
is named in the group and the moves that follow from the plan. -/
theorem keeps_to_group_iff (r : Resolution) (hg : group t name = c :: cs) :
    (KeepsToGroup t (run t r) c cs ↔
      (cs = [] → t.membersOf c ≠ [] → c.id ∈ (run t r).table.ids) ∧
      ∀ list, (run t r).table.listOf? c.id = some list →
        AddsOnly t (movesTo t r (plan t)) list cs) ∧
    (WellWired t → (KeepsToGroup t (run t r) c cs ↔
      ∀ list, (c :: cs).findSome? ClassRecord.fieldList = some list →
        AddsOnly t (plannedMoves t (plan t)) list cs)) := by
  have any_table : KeepsToGroup t (run t r) c cs ↔
      (cs = [] → t.membersOf c ≠ [] → c.id ∈ (run t r).table.ids) ∧
      ∀ list, (run t r).table.listOf? c.id = some list →
        AddsOnly t (movesTo t r (plan t)) list cs := by
    refine ⟨fun h => ⟨fun hnil hne => ?_, fun list hlist => h.addsOnly hg hlist⟩,
      fun h => keepsToGroup_of_addsOnly hg h.1 h.2⟩
    cases hlist : (run t r).table.listOf? c.id with
    | some list => exact TypeTable.mem_ids_of_listOf? hlist
    | none =>
      rw [← h.1 hnil, TypeTable.membersAt, hlist] at hne
      exact absurd rfl hne
  refine ⟨any_table, fun hw => ?_⟩
  have hc := hw.mem_ids_run r hg
  rw [any_table, (tracked_run t r).lists c.id hc, hw.folds_run, listAmong?_plan hg,
    hw.movesTo_eq]
  exact ⟨fun h => h.2, fun h => ⟨fun _ _ => hc, h⟩⟩

/-- The field lists that are named in a group are named in no other group. -/
def Private (t : TypeTable) (name : Text) : Prop :=
  ∀ e ∈ group t name, ∀ e' ∈ t.realClasses, e.fieldList.isSome = true →
    e.fieldList = e'.fieldList → e'.display = name

/-- Into the private lists of a group go only lists of its later classes. -/
theorem Private.sources_subset (h : Private t name) (hg : group t name = c :: cs) :
    ∀ e ∈ group t name, e.fieldList = some list →
      ∀ source ∈ sources (movesTo t r (plan t)) list, ∃ e' ∈ cs, e'.fieldList = some source := by
  refine plan_induction (P := fun pre => ∀ list, ∀ e ∈ group t name, e.fieldList = some list →
    ∀ source ∈ sources (movesTo t r pre) list, ∃ e' ∈ cs, e'.fieldList = some source)
    (fun _ _ _ _ _ hs => by cases hs) ?_ (plan t) (List.prefix_refl _) list
  intro pre k d post hp ih list e he hlist source hsource
  have hpre : pre ++ [(k, d)] <+: plan t := ⟨post, by rw [hp, List.append_assoc]; rfl⟩
  have from_moves := fun m hm => of_mem_movesTo (r := r) hpre (m := m) hm
  rw [movesTo_concat] at hsource from_moves
  cases hmove : moveOf? (runTo t r pre) k d with
  | none =>
    rw [hmove, Option.toList_none, List.append_nil] at hsource
    exact ih list e he hlist source hsource
  | some m =>
    rw [hmove, Option.toList_some] at hsource from_moves
    rw [sources_concat] at hsource
    split at hsource
    next htarget =>
      -- The target is named in the group, so the move is one of the group.
      obtain ⟨_, c', cs', hg', ⟨a, ha, hal⟩, b, hb, hbl⟩ :=
        from_moves m (List.mem_append_right _ List.mem_cons_self)
      have haname : a.display = name := by
        refine h e he a (mem_group_iff.1 (hg' ▸ ha)).1 (by rw [hlist]; rfl) ?_
        rw [hlist, hal, htarget]
      have hname : c'.display = name := by
        rw [← haname]
        exact (mem_group_iff.1 (hg' ▸ ha)).2.symm
      rw [hname] at hg'
      obtain ⟨rfl, rfl⟩ := List.cons.inj (hg.symm.trans hg')
      rcases List.mem_append.1 hsource with hs | hs
      · exact ih m.1 e he (htarget ▸ hlist) source hs
      · rcases List.mem_cons.1 hs with rfl | hs
        · exact ⟨b, hb, hbl⟩
        · exact ih m.2 b (hg ▸ List.mem_cons_of_mem _ hb) hbl source hs
    next => exact ih list e he hlist source hsource

/-- Merging keeps to a group whose lists are private. -/
theorem keepsToGroup_of_private (r : Resolution) (h : Private t name) (hg : group t name = c :: cs)
    (hc : c.id ∈ (run t r).table.ids) : KeepsToGroup t (run t r) c cs := by
  refine keepsToGroup_of_addsOnly hg (fun _ _ => hc) fun list hlist m hm => ?_
  obtain ⟨e, he, hel⟩ := (tracked_run t r).exists_mem_group (recorded_run t r)
    (List.prefix_refl _) hg hlist
  have hnew : m ∈ brought t (movesTo t r (plan t)) list := by
    refine (FieldList.mem_of_mem_merge (FieldList.mem_merge_iff.2 (.inr hm))).resolve_left ?_
    exact FieldList.not_mem_of_mem_additions hm
  obtain ⟨source, hsource, hmem⟩ := List.mem_flatMap.1 hnew
  obtain ⟨e', he', hsl⟩ := h.sources_subset hg e (hg ▸ he) hel source hsource
  exact ⟨e', he', by rw [membersOf_of_fieldList hsl]; exact hmem⟩

end Group

/-! ## A list that two groups share -/

/-- A dump whose first `A` names the field list of `B`. -/
def sharedListDump : Dump := ⟨[
  "*** TYPES",
  "",
  "0x1000 : LF_CLASS",
  " field list type 0x1001, ",
  " class name = A, unique name = .?AVA@@, UDT(0x1000)",
  "",
  "0x1001 : LF_FIELDLIST",
  " list[0] = LF_ONEMETHOD, public, VANILLA, index = 0x1005, name = 'Run'",
  "",
  "0x1002 : LF_CLASS",
  " field list type 0x1001, ",
  " class name = B, unique name = .?AVB@@, UDT(0x1002)",
  "",
  "0x1003 : LF_CLASS",
  " field list type 0x1004, ",
  " class name = A, unique name = .?AVA@@x, UDT(0x1003)",
  "",
  "0x1004 : LF_FIELDLIST",
  " list[0] = LF_ONEMETHOD, public, VANILLA, index = 0x1006, name = 'Stop'"].map String.toList⟩

/-- Its table. -/
def sharedList : TypeTable where
  records := [
    .classType ⟨⟨0x1000⟩, "A".toList, ".?AVA@@".toList, some ⟨0x1001⟩, false⟩,
    .fieldList ⟨⟨0x1001⟩, [.method "Run".toList ⟨0x1005⟩ false]⟩,
    .classType ⟨⟨0x1002⟩, "B".toList, ".?AVB@@".toList, some ⟨0x1001⟩, false⟩,
    .classType ⟨⟨0x1003⟩, "A".toList, ".?AVA@@x".toList, some ⟨0x1004⟩, false⟩,
    .fieldList ⟨⟨0x1004⟩, [.method "Stop".toList ⟨0x1006⟩ false]⟩]
  nodup := by decide

/-- What its table resolves to. -/
def sharedListResolution : Resolution where
  names := .ofList [(".?AVA@@".toList, ⟨0x1000⟩), (".?AVB@@".toList, ⟨0x1002⟩),
    (".?AVA@@x".toList, ⟨0x1003⟩)]
  references := ∅
  bases := .ofList [(⟨0x1000⟩, ∅), (⟨0x1002⟩, ∅), (⟨0x1003⟩, ∅)]
  procedures := ∅

/-- The first `A` gets `Stop`, which the second `A` had. -/
theorem keeps_to_group_sharedList :
    ∃ c cs, group sharedList "A".toList = c :: cs ∧ WellWired sharedList ∧
      KeepsToGroup sharedList (run sharedList sharedListResolution) c cs := by
  have wired : WellWired sharedList := wellWired_of_fieldLists (by decide)
  have hg : group sharedList "A".toList =
      [⟨⟨0x1000⟩, "A".toList, ".?AVA@@".toList, some ⟨0x1001⟩, false⟩,
        ⟨⟨0x1003⟩, "A".toList, ".?AVA@@x".toList, some ⟨0x1004⟩, false⟩] := by
    decide
  refine ⟨_, _, hg, wired, ((keeps_to_group_iff sharedListResolution hg).2 wired).2 ?_⟩
  intro list hlist
  obtain rfl : ⟨0x1001⟩ = list := Option.some.inj hlist
  decide

/-- But `B`, which has no duplicate, gets `Stop` as well, for it names the same list. -/
theorem not_keepsToGroup_sharedList :
    TypeTable.ofDump sharedListDump = .ok sharedList ∧
    Resolution.ofTable sharedList [] = .ok sharedListResolution ∧
    ∃ c, group sharedList "B".toList = [c] ∧
      ¬ KeepsToGroup sharedList (run sharedList sharedListResolution) c [] := by
  refine ⟨by decide +kernel, rfl,
    ⟨⟨0x1002⟩, "B".toList, ".?AVB@@".toList, some ⟨0x1001⟩, false⟩, by decide, ?_⟩
  decide

end Merging
end Lineage
