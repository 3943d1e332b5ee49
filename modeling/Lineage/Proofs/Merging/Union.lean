import Lineage.Proofs.Merging.Sharing

/-!
# Merging as an ordered union

Members are the same for the purpose of merging if they have one identity. That is an equivalence,
and the merge of two lists is their union up to it, in order: the first list stays in front, and of
the second there follow the first members of each class that the first list does not have.

The list grows while the second one is gone through, and a member is looked up in what has grown so
far. What has grown has a member of a class exactly if one of the two lists read so far has one
(`any_merge`), so the look-up can be said without the growth: that is `firstsNew`.

With that, one equation says what one member more does to the merge and to the new members alike
(`merge_concat`, `firstsNew_concat`), and the rest is induction from the end of the second list.
Prefix, order, count, and what a second merge adds are read off the closed form, without going back
to the fold. Merging two lists one after the other is merging them as one, since the fold goes on
where it stopped (`union_append`).

Main result: `union_appends_firsts`.
-/

namespace Lineage

open Member (sameAs)

/-! ## One member -/

namespace Member

variable {a b c : Member} {name name' : Text} {id id' : TypeId} {s s' : Bool}

/-- Members are the same if they have one identity. -/
theorem sameAs_iff : a.sameAs b = true ↔ a.identity = b.identity := by
  rw [sameAs, beq_iff_eq]

/-- It is an equality of identities, and so an equivalence. -/
theorem equivalence_sameAs : Equivalence fun a b : Member => a.sameAs b = true where
  refl _ := sameAs_iff.2 rfl
  symm h := sameAs_iff.2 (sameAs_iff.1 h).symm
  trans h h' := sameAs_iff.2 ((sameAs_iff.1 h).trans (sameAs_iff.1 h'))

/-- Base members are the same if they name one class. -/
theorem sameAs_base_iff : (base id).sameAs (base id') = true ↔ id = id' := by
  simp [sameAs_iff, identity]

/-- Whether a method is static does not matter. -/
theorem sameAs_method_iff :
    (method name id s).sameAs (method name' id' s') = true ↔ name = name' ∧ id = id' := by
  simp [sameAs_iff, identity]

theorem sameAs_base_method : (base id).sameAs (method name id' s) = false := rfl

theorem sameAs_method_base : (method name id s).sameAs (base id') = false := rfl

end Member

namespace FieldList

variable {members others more : List Member} {m : Member}

/-! ## What is merged in -/

/-- The members of the second list that are the same as none of the first list and as none before
them in the second. -/
def firstsNew (members others : List Member) : List Member :=
  (others.zipIdx.filter fun e =>
    (members ++ others.take e.2).all fun k => !k.sameAs e.1).map Prod.fst

/-- What is new of a list stands in its order. -/
theorem firstsNew_sublist (members others : List Member) :
    (firstsNew members others).Sublist others := by
  have kept := (List.filter_sublist (l := others.zipIdx)
    (p := fun e => (members ++ others.take e.2).all fun k => !k.sameAs e.1)).map Prod.fst
  rwa [List.zipIdx_map_fst] at kept

/-- A further member is kept if nothing before it is the same. -/
theorem firstsNew_concat (members others : List Member) (m : Member) :
    firstsNew members (others ++ [m]) =
      firstsNew members others ++
        if (members ++ others).any fun k => k.sameAs m then [] else [m] := by
  have before : (others.zipIdx.filter fun e =>
        (members ++ (others ++ [m]).take e.2).all fun k => !k.sameAs e.1) =
      others.zipIdx.filter fun e => (members ++ others.take e.2).all fun k => !k.sameAs e.1 := by
    refine List.filter_congr fun e he => ?_
    have hlt : e.2 < others.length := by simpa using List.snd_lt_of_mem_zipIdx he
    rw [List.take_append_of_le_length (Nat.le_of_lt hlt)]
  have last : (members ++ (others ++ [m]).take others.length).all (fun k => !k.sameAs m) =
      !(members ++ others).any fun k => k.sameAs m := by
    rw [List.take_left, List.not_any_eq_all_not]
  rw [firstsNew, List.zipIdx_append, List.filter_append, before, List.map_append, firstsNew]
  refine congrArg _ ?_
  rw [List.zipIdx_cons, List.zipIdx_nil, List.filter_cons, Nat.zero_add]
  dsimp only
  rw [last]
  cases (members ++ others).any fun k => k.sameAs m <;> rfl

/-- What has grown so far has the same members as both lists together. -/
theorem any_merge (members others : List Member) (m : Member) :
    ((merge members others).any fun k => k.sameAs m) =
      (members ++ others).any fun k => k.sameAs m := by
  rw [Bool.eq_iff_iff, List.any_eq_true, List.any_eq_true]
  refine ⟨fun h => ?_, fun h => ?_⟩
  · obtain ⟨k, hk, hkm⟩ := h
    exact ⟨k, List.mem_append.2 (mem_of_mem_merge hk), hkm⟩
  · obtain ⟨k, hk, hkm⟩ := h
    rcases List.mem_append.1 hk with hk | hk
    · exact ⟨k, (prefix_merge members others).subset hk, hkm⟩
    · obtain ⟨j, hj, hjk⟩ := covers_merge members others k hk
      exact ⟨j, hj, Member.equivalence_sameAs.trans hjk hkm⟩

/-- Merging one member more adds it just if neither list has had it. -/
theorem merge_concat (members others : List Member) (m : Member) :
    merge members (others ++ [m]) =
      merge members others ++ if (members ++ others).any fun k => k.sameAs m then [] else [m] := by
  rw [merge_append, merge_cons, any_merge]
  split
  next => rw [List.append_nil]; rfl
  next => rfl

/-- The merge, without the list that grows. -/
theorem merge_eq_append_firstsNew (members others : List Member) :
    merge members others = members ++ firstsNew members others := by
  induction others using List.reverseRecOn with
  | nil => rw [firstsNew, List.zipIdx_nil, List.filter_nil, List.map_nil, List.append_nil]; rfl
  | append_singleton others m ih =>
    rw [merge_concat, firstsNew_concat, ih, List.append_assoc]

/-- Nothing is merged in where all is there. -/
theorem merge_of_forall_any (h : ∀ m ∈ others, (members.any fun k => k.sameAs m) = true) :
    merge members others = members := by
  induction others with
  | nil => rfl
  | cons m others ih =>
    obtain ⟨hm, hothers⟩ := List.forall_mem_cons.1 h
    rw [merge_cons, if_pos hm, ih hothers]

/-- A list that has been merged in adds nothing. -/
theorem merge_merge_self (members others : List Member) :
    merge (merge members others) others = merge members others := by
  refine merge_of_forall_any fun m hm => ?_
  rw [any_merge, List.any_eq_true]
  exact ⟨m, List.mem_append_right members hm, Member.equivalence_sameAs.refl m⟩

/-! ## The count -/

/-- Going through the second list, from any count. -/
theorem foldl_addNew (members others : List Member) (added : Nat) :
    others.foldl addNew (members, added) =
      (merge members others, added + ((merge members others).length - members.length)) := by
  induction others generalizing members added with
  | nil => rw [List.foldl_nil, merge, List.foldl_nil, Nat.sub_self, Nat.add_zero]
  | cons m others ih =>
    rw [List.foldl_cons, merge_cons, addNew]
    split
    next => exact ih members added
    next =>
      have grown := (prefix_merge (members ++ [m]) others).length_le
      rw [List.length_append, List.length_singleton] at grown
      rw [ih]
      refine Prod.ext rfl ?_
      simp only [List.length_append, List.length_singleton]
      omega

/-- What is counted is how much longer the list has become. -/
theorem union_eq (members others : List Member) :
    union members others =
      (merge members others, (merge members others).length - members.length) := by
  rw [union, foldl_addNew, Nat.zero_add]

theorem union_eq_firstsNew (members others : List Member) :
    union members others =
      (members ++ firstsNew members others, (firstsNew members others).length) := by
  rw [union_eq, merge_eq_append_firstsNew, List.length_append, Nat.add_sub_cancel_left]

/-- Merging in two lists one after the other. -/
theorem union_append (members others more : List Member) :
    union members (others ++ more) =
      ((union (union members others).1 more).1,
        (union members others).2 + (union (union members others).1 more).2) := by
  have grown := (prefix_merge members others).length_le
  have grown' := (prefix_merge (merge members others) more).length_le
  rw [union_eq members others, union_eq, union_eq, merge_append]
  refine Prod.ext rfl ?_
  dsimp only
  omega

end FieldList

open FieldList in
/-- Folding a duplicate reports this count. -/
theorem Merging.giveMembers_eq_union {t : TypeTable} {kept source target : TypeId}
    {removed : ClassRecord} {given old : FieldList} (hsource : removed.fieldList = some source)
    (htarget : t.listOf? kept = some target) (hne : target ≠ source)
    (hgiven : t.fieldList? source = some given) (hold : t.fieldList? target = some old) :
    giveMembers t kept removed =
      (t.mergeMembers target given.members, (union old.members given.members).2) := by
  have hkept : (t.classRecord? kept).bind ClassRecord.fieldList = some target := htarget
  rw [giveMembers, hsource, hkept]
  dsimp only
  rw [if_neg hne, hgiven, hold, union_eq]

namespace FieldList

/-- Merging is an ordered union up to `sameAs`.

* To be the same is an equivalence. It does not look at whether a method is static, and no base
  class is the same as a method.
* A merge leaves the first list in front. Behind it stand, in order, the first members of each class
  in the second list that has no member in the first. The number is that of the members added.
* Merging the same list in again adds nothing.
* Merging in two lists one after the other is merging in both at once. -/
theorem union_appends_firsts :
    (Equivalence fun a b : Member => a.sameAs b = true) ∧
    (∀ name id s name' id' s', (Member.method name id s).sameAs (.method name' id' s') = true ↔
      name = name' ∧ id = id') ∧
    (∀ id id', (Member.base id).sameAs (.base id') = true ↔ id = id') ∧
    (∀ id name id' s, (Member.base id).sameAs (.method name id' s) = false ∧
      (Member.method name id' s).sameAs (.base id) = false) ∧
    ∀ members others more,
      union members others =
        (members ++ firstsNew members others, (firstsNew members others).length) ∧
      (firstsNew members others).Sublist others ∧
      (union members others).1 = merge members others ∧
      union (union members others).1 others = ((union members others).1, 0) ∧
      union members (others ++ more) =
        ((union (union members others).1 more).1,
          (union members others).2 + (union (union members others).1 more).2) := by
  refine ⟨Member.equivalence_sameAs, fun _ _ _ _ _ _ => Member.sameAs_method_iff,
    fun _ _ => Member.sameAs_base_iff,
    fun _ _ _ _ => ⟨Member.sameAs_base_method, Member.sameAs_method_base⟩,
    fun members others more => ⟨union_eq_firstsNew members others, firstsNew_sublist members others,
      congrArg Prod.fst (union_eq members others), ?_, union_append members others more⟩⟩
  rw [union_eq members others, union_eq, merge_merge_self, Nat.sub_self]

end FieldList
end Lineage
