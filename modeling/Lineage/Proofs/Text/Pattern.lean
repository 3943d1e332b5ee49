import Lineage.Proofs.Text.Leftmost

/-!
# Patterns

A pattern is a list of atoms: phrases, runs of characters of a kind, and the end of the text. Each
atom takes a piece off the front of what the atoms before it have left.

A run can often be taken in several ways, and it says which ones it tries first. A greedy run tries
the longest, a lazy run the shortest, and the next one is tried when the rest of the pattern does
not fit. So the ways to fit a pattern come in an order (`Pattern.ways`), and the first of them
counts. A line is searched for it from left to right (`Pattern.search?`), and what the search
answers is the text of the runs that the pattern keeps.

That is how the search goes, step by step. What it finds can be said without going through the
steps. The ways are the ways to split the text into pieces that fit the atoms (`Pattern.Splits`,
`Pattern.mem_ways_iff`). Of two ways the one comes first that does better at the first atom where
the two differ (`Pattern.Earlier`, `Pattern.pairwise_ways`). So the first way is the one that is
earlier than all others, and a search finds it at the leftmost place at which there is any way at
all.

Main results: `Pattern.first?_eq_some_iff`, `Pattern.search?_eq_some_iff`.
-/

namespace Lineage.Text

/-- Which of the ways to take a run is tried first. -/
inductive Preference where
  | greedy
  | lazy

/-- A part of a pattern. -/
inductive Atom where
  /-- These characters. -/
  | phrase (s : Text)
  /-- Characters of a kind, as many as there have to be or more. Their text may be kept. -/
  | run (kind : Char → Bool) (least : Nat) (preference : Preference) (kept : Bool)
  /-- The end of the text. -/
  | finish

/-- The atoms of a pattern, in the order in which they stand. -/
abbrev Pattern := List Atom

/-! ## The search -/

/-- The ways to take a run off a text, in the order in which they are tried. -/
def runs (kind : Char → Bool) (preference : Preference) : Text → List (Text × Text)
  | [] => [([], [])]
  | c :: s =>
    let further :=
      if kind c then (runs kind preference s).map fun w => (c :: w.1, w.2) else []
    match preference with
    | .greedy => further ++ [([], c :: s)]
    | .lazy => ([], c :: s) :: further

/-- The ways to take the piece of an atom off a text. -/
def Atom.ways : Atom → Text → List (Text × Text)
  | .phrase p, s => (p.isPrefixOf? s).toList.map fun rest => (p, rest)
  | .run kind least preference _, s =>
    (runs kind preference s).filter fun w => decide (least ≤ w.1.length)
  | .finish, s => if s.isEmpty then [([], [])] else []

namespace Pattern

/-- The ways to take the pieces of a pattern off a text. The last atom changes its way first. -/
def ways : Pattern → Text → List (List Text × Text)
  | [], s => [([], s)]
  | a :: as, s => (a.ways s).flatMap fun w => (ways as w.2).map fun v => (w.1 :: v.1, v.2)

/-- The way that counts: the pieces, and what follows them. -/
def first? (as : Pattern) (s : Text) : Option (List Text × Text) := (as.ways s).head?

/-- The pieces that a pattern keeps. -/
def kept : Pattern → List Text → List Text
  | .run _ _ _ true :: as, piece :: pieces => piece :: kept as pieces
  | _ :: as, _ :: pieces => kept as pieces
  | _, _ => []

/-- What the pattern keeps at the leftmost place of the line where it fits. -/
def search? (as : Pattern) (line : Text) : Option (List Text) :=
  firstMatch? (fun s => (as.first? s).map fun w => as.kept w.1) line

end Pattern

/-! ## What the ways are -/

/-- A piece is what an atom asks for, with this text behind it. -/
def Atom.Fits : Atom → Text → Text → Prop
  | .phrase p, piece, _ => piece = p
  | .run kind least _ _, piece, _ => least ≤ piece.length ∧ ∀ c ∈ piece, kind c = true
  | .finish, piece, rest => piece = [] ∧ rest = []

/-- The text is pieces that fit the atoms, and a rest. -/
inductive Pattern.Splits : Pattern → Text → List Text → Text → Prop where
  | nil {s : Text} : Splits [] s [] s
  | cons {a : Atom} {as : Pattern} {piece s rest : Text} {pieces : List Text}
      (fits : a.Fits piece s) (splits : Splits as s pieces rest) :
      Splits (a :: as) (piece ++ s) (piece :: pieces) rest

variable {kind : Char → Bool} {preference : Preference} {s rest run piece line : Text} {a : Atom}
  {as : Pattern} {pieces : List Text}

theorem mem_runs_iff : (run, rest) ∈ runs kind preference s ↔
    run ++ rest = s ∧ ∀ c ∈ run, kind c = true := by
  induction s generalizing run with
  | nil => simp +contextual [runs]
  | cons c s ih =>
    have here : (run, rest) ∈ runs kind preference (c :: s) ↔
        (kind c = true ∧ ∃ run', (run', rest) ∈ runs kind preference s ∧ c :: run' = run) ∨
          run = [] ∧ rest = c :: s := by
      cases preference <;> cases h : kind c <;> simp [runs, h, or_comm]
    simp only [here, ih]
    cases run with
    | nil => simp
    | cons d run => simp only [List.cons_append]; grind

theorem Atom.mem_ways_iff : (piece, rest) ∈ a.ways s ↔ piece ++ rest = s ∧ a.Fits piece rest := by
  cases a with
  | phrase p =>
    simp only [Atom.ways, Atom.Fits, List.mem_map, Option.mem_toList,
      List.isPrefixOf?_eq_some_iff_append_eq, Prod.mk.injEq]
    constructor
    · rintro ⟨_, rfl, rfl, rfl⟩
      exact ⟨rfl, rfl⟩
    · rintro ⟨rfl, rfl⟩
      exact ⟨rest, rfl, rfl, rfl⟩
  | run kind least preference kept =>
    simp only [Atom.ways, Atom.Fits, List.mem_filter, mem_runs_iff, decide_eq_true_eq]
    tauto
  | finish =>
    simp only [Atom.ways, Atom.Fits, List.isEmpty_iff]
    constructor
    · intro h
      split at h
      next hs =>
        obtain ⟨rfl, rfl⟩ := Prod.mk.inj (List.mem_singleton.1 h)
        exact ⟨hs.symm, rfl, rfl⟩
      next => cases h
    · rintro ⟨rfl, rfl, rfl⟩
      exact List.mem_singleton.2 rfl

namespace Pattern

theorem splits_nil_iff : Splits [] s pieces rest ↔ pieces = [] ∧ rest = s := by
  constructor
  · rintro ⟨⟩
    exact ⟨rfl, rfl⟩
  · rintro ⟨rfl, rfl⟩
    exact .nil

theorem splits_cons_iff : Splits (a :: as) s pieces rest ↔ ∃ piece t pieces',
    s = piece ++ t ∧ pieces = piece :: pieces' ∧ a.Fits piece t ∧ Splits as t pieces' rest := by
  constructor
  · rintro ⟨⟩
    case cons piece t pieces' fits splits => exact ⟨piece, t, pieces', rfl, rfl, fits, splits⟩
  · rintro ⟨piece, t, pieces', rfl, rfl, fits, splits⟩
    exact .cons fits splits

/-- The search tries the ways to split the text, and no others. -/
theorem mem_ways_iff : (pieces, rest) ∈ ways as s ↔ Splits as s pieces rest := by
  induction as generalizing s pieces rest with
  | nil => rw [ways, List.mem_singleton, Prod.mk.injEq, splits_nil_iff]
  | cons a as ih =>
    simp only [ways, splits_cons_iff, List.mem_flatMap, List.mem_map, Prod.exists, Prod.mk.injEq,
      Atom.mem_ways_iff, ih]
    constructor
    · rintro ⟨piece, t, ⟨rfl, fits⟩, pieces', _, splits, rfl, rfl⟩
      exact ⟨piece, t, pieces', rfl, rfl, fits, splits⟩
    · rintro ⟨piece, t, pieces', rfl, rfl, fits, splits⟩
      exact ⟨piece, t, ⟨rfl, fits⟩, pieces', rest, splits, rfl, rfl⟩

end Pattern

/-! ## In which order they come -/

/-- An atom tries the one piece before the other. -/
def Atom.Prefers : Atom → Text → Text → Prop
  | .run _ _ .greedy _, piece, other => other.length < piece.length
  | .run _ _ .lazy _, piece, other => piece.length < other.length
  | .phrase _, _, _ | .finish, _, _ => False

/-- The one way is tried before the other: they differ, and where they do so first, its piece is
the one that is tried before. -/
inductive Pattern.Earlier : Pattern → List Text → List Text → Prop where
  | here {a : Atom} {as : Pattern} {piece piece' : Text} {pieces pieces' : List Text}
      (prefers : a.Prefers piece piece') : Earlier (a :: as) (piece :: pieces) (piece' :: pieces')
  | later {a : Atom} {as : Pattern} {piece : Text} {pieces pieces' : List Text}
      (earlier : Earlier as pieces pieces') : Earlier (a :: as) (piece :: pieces) (piece :: pieces')

theorem Atom.Prefers.asymm {other : Text} (h : a.Prefers piece other) :
    ¬ a.Prefers other piece := by
  cases a with
  | phrase p => cases h
  | run kind least preference kept => cases preference <;> exact Nat.lt_asymm h
  | finish => cases h

theorem Pattern.Earlier.asymm {pieces' : List Text} (h : Earlier as pieces pieces') :
    ¬ Earlier as pieces' pieces := by
  induction h with
  | here prefers =>
    rintro (prefers' | _)
    · exact prefers.asymm prefers'
    · exact prefers.asymm prefers
  | later _ ih =>
    rintro (prefers | earlier)
    · exact prefers.asymm prefers
    · exact ih earlier

/-- Pieces that are the same do not decide which way is earlier. -/
theorem Pattern.earlier_cons_self_iff {pieces' : List Text} :
    Earlier (a :: as) (piece :: pieces) (piece :: pieces') ↔ Earlier as pieces pieces' := by
  refine ⟨?_, .later⟩
  rintro (prefers | earlier)
  · exact absurd prefers prefers.asymm
  · exact earlier

/-- Greedy runs get shorter in the order in which they are tried. -/
theorem pairwise_runs_greedy :
    (runs kind .greedy s).Pairwise fun w v => v.1.length < w.1.length := by
  induction s with
  | nil => exact List.pairwise_singleton _ _
  | cons c s ih =>
    cases h : kind c with
    | false => simp [runs, h]
    | true =>
      simp only [runs, h, if_true, List.pairwise_append, List.pairwise_map, List.length_cons,
        Nat.add_lt_add_iff_right]
      refine ⟨ih, List.pairwise_singleton _ _, fun w hw v hv => ?_⟩
      obtain ⟨_, _, rfl⟩ := List.mem_map.1 hw
      obtain rfl := List.mem_singleton.1 hv
      exact Nat.succ_pos _

/-- Lazy runs get longer in the order in which they are tried. -/
theorem pairwise_runs_lazy :
    (runs kind .lazy s).Pairwise fun w v => w.1.length < v.1.length := by
  induction s with
  | nil => exact List.pairwise_singleton _ _
  | cons c s ih =>
    cases h : kind c with
    | false => simp [runs, h]
    | true =>
      simp only [runs, h, if_true, List.pairwise_cons, List.pairwise_map, List.length_cons,
        Nat.add_lt_add_iff_right]
      refine ⟨fun w hw => ?_, ih⟩
      obtain ⟨_, _, rfl⟩ := List.mem_map.1 hw
      exact Nat.succ_pos _

theorem Atom.pairwise_ways : (a.ways s).Pairwise fun w v => a.Prefers w.1 v.1 := by
  cases a with
  | phrase p => cases h : p.isPrefixOf? s <;> simp [Atom.ways, h]
  | run kind least preference kept =>
    cases preference with
    | greedy => exact pairwise_runs_greedy.filter _
    | lazy => exact pairwise_runs_lazy.filter _
  | finish => cases s <;> simp [Atom.ways]

namespace Pattern

/-- Each way is tried before those that are later in the list. -/
theorem pairwise_ways : (ways as s).Pairwise fun w v => Earlier as w.1 v.1 := by
  induction as generalizing s with
  | nil => exact List.pairwise_singleton _ _
  | cons a as ih =>
    rw [ways, List.pairwise_flatMap]
    refine ⟨fun w _ => List.pairwise_map.2 (ih.imp .later), Atom.pairwise_ways.imp ?_⟩
    rintro w v prefers _ hw _ hv
    obtain ⟨_, _, rfl⟩ := List.mem_map.1 hw
    obtain ⟨_, _, rfl⟩ := List.mem_map.1 hv
    exact .here prefers

/-- The way that counts is a way to split the text, and is tried before all others. -/
theorem first?_eq_some_iff : first? as s = some (pieces, rest) ↔ Splits as s pieces rest ∧
    ∀ pieces' rest', Splits as s pieces' rest' →
      (pieces', rest') = (pieces, rest) ∨ Earlier as pieces pieces' := by
  simp only [← mem_ways_iff, first?]
  have order : (ways as s).Pairwise fun w v => Earlier as w.1 v.1 := pairwise_ways
  cases hways : ways as s with
  | nil => simp
  | cons w ws =>
    rw [hways, List.pairwise_cons] at order
    rw [List.head?_cons, Option.some_inj]
    constructor
    · rintro rfl
      refine ⟨List.mem_cons_self, fun pieces' rest' h => ?_⟩
      rcases List.mem_cons.1 h with h | h
      · exact .inl h
      · exact .inr (order.1 _ h)
    · rintro ⟨h, hfirst⟩
      rcases List.mem_cons.1 h with h | h
      · exact h.symm
      · rcases hfirst w.1 w.2 List.mem_cons_self with same | earlier
        · exact same
        · exact absurd earlier (order.1 _ h).asymm

theorem first?_eq_none_iff : first? as s = none ↔ ∀ pieces rest, ¬ Splits as s pieces rest := by
  simp only [first?, List.head?_eq_none_iff, List.eq_nil_iff_forall_not_mem, Prod.forall,
    mem_ways_iff]

/-- A search answers with the first way at a place at which there is one, and there is none at any
place further left. -/
theorem search?_eq_some_iff {answer : List Text} : search? as line = some answer ↔
    ∃ before s pieces rest, line = before ++ s ∧ first? as s = some (pieces, rest) ∧
      kept as pieces = answer ∧ ∀ before' s', line = before' ++ s' →
        before'.length < before.length → ∀ pieces' rest', ¬ Splits as s' pieces' rest' := by
  simp only [search?, firstMatch?_eq_some_iff, Option.map_eq_some_iff, Option.map_eq_none_iff,
    first?_eq_none_iff, Prod.exists]
  constructor
  · rintro ⟨before, s, hline, ⟨pieces, rest, hfirst, hkept⟩, hleft⟩
    exact ⟨before, s, pieces, rest, hline, hfirst, hkept, hleft⟩
  · rintro ⟨before, s, pieces, rest, hline, hfirst, hkept, hleft⟩
    exact ⟨before, s, hline, ⟨pieces, rest, hfirst, hkept⟩, hleft⟩

/-- A reader of some form does what a search for a pattern does, if the first ways of the pattern
are the texts of that form and keep what the reader answers with. -/
theorem search?_eq_map_firstMatch? {α β : Type} {text : α → Text} {value : α → β}
    {way : α → List Text × Text} {read? : Text → Option β} {answer : β → List Text}
    (hread : ∀ s b, read? s = some b ↔ ∃ x, text x = s ∧ value x = b)
    (hfirst : ∀ s w, first? as s = some w ↔ ∃ x, text x = s ∧ way x = w)
    (hkept : ∀ x, kept as (way x).1 = answer (value x)) (line : Text) :
    search? as line = (firstMatch? read? line).map answer := by
  rw [search?, map_firstMatch?]
  congr 1
  funext s
  ext b
  simp only [Option.map_eq_some_iff, hread, hfirst]
  constructor
  · rintro ⟨_, ⟨x, hx, rfl⟩, rfl⟩
    exact ⟨value x, ⟨x, hx, rfl⟩, (hkept x).symm⟩
  · rintro ⟨_, ⟨x, hx, rfl⟩, rfl⟩
    exact ⟨way x, ⟨x, hx, rfl⟩, hkept x⟩

end Pattern
end Lineage.Text
