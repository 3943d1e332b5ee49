import Lineage.Text.Blank
import Mathlib.Data.List.DropRight

/-!
# Runs of characters

Readers of lines and of mangled names take runs of characters off a text: digits, word characters,
visible characters. Such a run ends where a character of another kind stands, or at the end of the
text. So if a text is put together from a run and a rest that stops it (`Stops`), the reader takes
it apart at this very place, and there is no other way to do so (`run_append_inj`).

The kind of the characters is a parameter throughout. Whoever uses these lemmas shows that the first
character behind the run is not of the kind, which for a fixed phrase is a computation, and gets
both halves: the run by `takeWhile_run`, the rest by `dropWhile_run`.

That is also how texts of some form are shown to have it in one way only. The form is a row of runs
and phrases, and the runs are told apart one after the other from the front.
-/

namespace Lineage.Text

variable {p : Char → Bool} {a b s t : Text} {c : Char}

/-- The text does not go on with a character of the kind. -/
def Stops (p : Char → Bool) (s : Text) : Prop := ∀ c ∈ s.head?, p c = false

theorem stops_cons (h : p c = false) : Stops p (c :: s) := by
  intro d hd
  obtain rfl := Option.some.inj hd
  exact h

/-- What stops a run is its first character. -/
theorem Stops.append (h : Stops p a) (hne : a ≠ []) : Stops p (a ++ b) := by
  obtain ⟨c, a, rfl⟩ := List.exists_cons_of_ne_nil hne
  exact stops_cons (h c rfl)

/-- What is left when a run has been taken off stops it. -/
theorem stops_dropWhile (p : Char → Bool) (s : Text) : Stops p (s.dropWhile p) := by
  intro c hc
  have := List.head?_dropWhile_not p s
  rw [Option.mem_def.1 hc] at this
  simpa using this

theorem takeWhile_eq_nil_of_stops (h : Stops p s) : s.takeWhile p = [] := by
  cases s with
  | nil => rfl
  | cons c s => exact List.takeWhile_cons_of_neg (by rw [h c rfl]; exact Bool.false_ne_true)

/-- A run is taken off up to what stops it. -/
theorem takeWhile_run (ha : ∀ c ∈ a, p c = true) (h : Stops p s) : (a ++ s).takeWhile p = a := by
  rw [List.takeWhile_append_of_pos ha, takeWhile_eq_nil_of_stops h, List.append_nil]

/-- What stops a run is left of it. -/
theorem dropWhile_run (ha : ∀ c ∈ a, p c = true) (h : Stops p s) : (a ++ s).dropWhile p = s := by
  have whole := List.takeWhile_append_dropWhile (p := p) (l := a ++ s)
  rw [takeWhile_run ha h] at whole
  exact List.append_cancel_left whole

/-- A run and what stops it can be told apart in one way only. -/
theorem run_append_inj (ha : ∀ c ∈ a, p c = true) (hb : ∀ c ∈ b, p c = true) (hs : Stops p s)
    (ht : Stops p t) (h : a ++ s = b ++ t) : a = b ∧ s = t := by
  refine ⟨?_, ?_⟩
  · rw [← takeWhile_run ha hs, h, takeWhile_run hb ht]
  · rw [← dropWhile_run ha hs, h, dropWhile_run hb ht]

/-- Visible text has nothing to trim. -/
theorem trim_eq_self_of_visible (h : ∀ c ∈ s, isBlank c = false) : s.trim = s := by
  have start : s.dropWhile isBlank = s :=
    List.dropWhile_eq_self_iff.2 fun hl => by simpa using h _ (List.getElem_mem hl)
  have ending : s.reverse.dropWhile isBlank = s.reverse :=
    List.dropWhile_eq_self_iff.2 fun hl => by
      simpa using h _ (List.mem_reverse.1 (List.getElem_mem hl))
  rw [trim, trimStart, start, trimEnd, ending, List.reverse_reverse]

end Lineage.Text
