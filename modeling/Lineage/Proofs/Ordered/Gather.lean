import Lineage.Ordered.Map
import Lineage.Proofs.Ordered.FirstOccurrences

/-!
# Gathering values under keys

Several passes sort what they meet into a map of lists: definitions by their name,
procedures by their class. Each value goes to the end of the list of its key, so the map is
known in full: its keys are the first occurrences of the keys that were met, and each
list is the part of what was met under its key, in order.

Other passes have one value for a key. Where the keys are distinct, the map is the list that it
was made from (`entries_ofList`). Where the first value counts, it is the one that a search finds
(`get?_collect`).

The passes are folds that start from an empty map. Each lemma is proved for any map to start from,
with what is in it already in front, and the empty map is the case that is used. What a map answers
is settled by the step for one key at a time. The order of its keys is the same for every kind of
pass, since all that matters is that a step adds a key it has not met at the end (`keys_foldl`).
-/

namespace Lineage.OrderedMap

variable {α β : Type} [DecidableEq α]

/-- Adds a value at the end of the list of a key. -/
def push (m : OrderedMap α (List β)) (e : α × β) : OrderedMap α (List β) :=
  m.upsert e.1 fun vs => vs.getD [] ++ [e.2]

/-- The values of a list, each in the list of its key. -/
def gather (es : List (α × β)) : OrderedMap α (List β) := es.foldl push ∅

/-- The list of a key after more values have been added. -/
theorem getD_foldl_push (es : List (α × β)) (m : OrderedMap α (List β)) (k : α) :
    ((es.foldl push m).get? k).getD [] =
      (m.get? k).getD [] ++ (es.filter fun e => e.1 = k).map Prod.snd := by
  induction es generalizing m with
  | nil => simp
  | cons e es ih =>
    rw [List.foldl_cons, ih, push, get?_upsert]
    by_cases h : e.1 = k
    · rw [if_pos h.symm, List.filter_cons_of_pos (by simpa using h), Option.getD_some, h,
        List.append_assoc, List.map_cons, List.singleton_append]
    · rw [if_neg (Ne.symm h), List.filter_cons_of_neg (by simpa using h)]

/-- Where a step adds its key at the end unless it is there, a fold has the keys in the order of
their first occurrences. -/
theorem keys_foldl {γ : Type} {step : OrderedMap α γ → α × β → OrderedMap α γ}
    (hstep : ∀ m e, (step m e).keys = if e.1 ∈ m.keys then m.keys else m.keys ++ [e.1])
    (es : List (α × β)) (m : OrderedMap α γ) :
    (es.foldl step m).keys = (m.keys ++ es.map Prod.fst).eraseDups := by
  induction es generalizing m with
  | nil => rw [List.foldl_nil, List.map_nil, List.append_nil, eraseDups_of_nodup m.nodup_keys]
  | cons e es ih =>
    rw [List.foldl_cons, ih, hstep]
    split
    next h =>
      have old : (e.1 :: es.map Prod.fst).removeAll m.keys =
          (es.map Prod.fst).removeAll m.keys := by
        simp [List.removeAll, h]
      rw [List.map_cons, List.eraseDups_append, List.eraseDups_append, old]
    next => rw [List.map_cons, List.append_assoc, List.singleton_append]

/-- The values that were met under a key, in order. -/
theorem getD_gather (es : List (α × β)) (k : α) :
    ((gather es).get? k).getD [] = (es.filter fun e => e.1 = k).map Prod.snd := by
  rw [gather, getD_foldl_push]
  exact List.nil_append _

/-- Keys stand in the order in which they were first met. -/
theorem keys_gather (es : List (α × β)) : (gather es).keys = (es.map Prod.fst).eraseDups := by
  refine keys_foldl ?_ es ∅
  exact fun m e => keys_upsert m e.1 _

/-- Only keys that were met are in the map. -/
theorem mem_keys_gather {es : List (α × β)} {k : α} :
    k ∈ (gather es).keys ↔ k ∈ es.map Prod.fst := by
  rw [keys_gather, List.mem_eraseDups]

/-- The lists stand in the order of their keys. -/
theorem values_gather (es : List (α × β)) :
    (gather es).values =
      (gather es).keys.map fun k => (es.filter fun e => e.1 = k).map Prod.snd := by
  rw [values_eq_map_keys _ []]
  exact List.map_congr_left fun k _ => getD_gather es k

/-! ## One value for a key -/

/-- Distinct keys go to the end one after the other. -/
theorem entries_foldl_insert {es : List (α × β)} {m : OrderedMap α β}
    (h : (m.keys ++ es.map Prod.fst).Nodup) :
    (es.foldl (fun m e => m.insert e.1 e.2) m).entries = m.entries ++ es := by
  induction es generalizing m with
  | nil => rw [List.foldl_nil, List.append_nil]
  | cons e es ih =>
    have hnew : e.1 ∉ m.keys := by
      rw [List.map_cons, List.nodup_append] at h
      exact fun hm => h.2.2 e.1 hm e.1 List.mem_cons_self rfl
    have hkeys : (m.insert e.1 e.2).keys = m.keys ++ [e.1] := by rw [keys_insert, if_neg hnew]
    rw [List.foldl_cons, ih, entries_insert_of_not_mem hnew, List.append_assoc,
      List.singleton_append]
    rwa [hkeys, List.append_assoc]

/-- A map made from a list without repeated keys is that list. -/
theorem entries_ofList {es : List (α × β)} (h : (es.map Prod.fst).Nodup) :
    (ofList es).entries = es :=
  entries_foldl_insert (m := empty) h

/-- The values of a list under their keys, of several the first. -/
def collect (es : List (α × β)) : OrderedMap α β :=
  es.foldl (fun m e => m.insertIfNew e.1 e.2) ∅

/-- What is in the map already comes before anything that is met. -/
theorem get?_foldl_insertIfNew (es : List (α × β)) (m : OrderedMap α β) (k : α) :
    (es.foldl (fun m e => m.insertIfNew e.1 e.2) m).get? k =
      (m.get? k).or ((es.find? fun e => e.1 = k).map Prod.snd) := by
  induction es generalizing m with
  | nil => rw [List.foldl_nil, List.find?_nil, Option.map_none, Option.or_none]
  | cons e es ih =>
    rw [List.foldl_cons, ih, insertIfNew, get?_upsert]
    by_cases h : e.1 = k
    · subst h
      rw [if_pos rfl, List.find?_cons_of_pos (by simp)]
      cases m.get? e.1 <;> rfl
    · rw [if_neg (Ne.symm h), List.find?_cons_of_neg (by simpa using h)]

/-- The first value of a key counts. -/
theorem get?_collect (es : List (α × β)) (k : α) :
    (collect es).get? k = (es.find? fun e => e.1 = k).map Prod.snd := by
  rw [collect, get?_foldl_insertIfNew]
  rfl

/-- Keys stand in the order in which they were first met. -/
theorem keys_collect (es : List (α × β)) : (collect es).keys = (es.map Prod.fst).eraseDups := by
  refine keys_foldl ?_ es ∅
  exact fun m e => keys_upsert m e.1 _

theorem mem_keys_collect {es : List (α × β)} {k : α} :
    k ∈ (collect es).keys ↔ k ∈ es.map Prod.fst := by
  rw [keys_collect, List.mem_eraseDups]

end Lineage.OrderedMap
