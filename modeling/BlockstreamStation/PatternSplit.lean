import Mathlib.Data.List.Infix
import Mathlib.Tactic.Common

/-!
# Splitting at the first occurrence of a pattern

`splitFirst` cuts a list in two around the first occurrence of a pattern.  A
scanner that keeps how much of the pattern it has matched, and that falls back to
the element behind the beginning of a failed match, works through the equations
`splitFirst_mismatch` and `splitFirst_cons`.

For a pattern whose first element does not come again in it, `splitFirst_append`
finds the pattern behind a list exactly when it does not occur in the list.
-/

namespace PatternSplit

variable {α : Type} [DecidableEq α]

/-- What stands before the first occurrence of the pattern, and what behind it. -/
def splitFirst (pattern : List α) : List α → Option (List α × List α)
  | [] => if pattern = [] then some ([], []) else none
  | a :: rest =>
      if pattern <+: a :: rest then some ([], (a :: rest).drop pattern.length)
      else (splitFirst pattern rest).map fun split => (a :: split.1, split.2)

variable {pattern : List α}

/-- A text that begins with the pattern is cut at its start. -/
theorem splitFirst_of_begins {text : List α} (h : pattern <+: text) :
    splitFirst pattern text = some ([], text.drop pattern.length) := by
  cases text with
  | nil => simp [splitFirst, List.prefix_nil.mp h]
  | cons a rest => exact if_pos h

/-- The pattern in front of anything. -/
@[simp] theorem splitFirst_self (rest : List α) :
    splitFirst pattern (pattern ++ rest) = some ([], rest) := by
  rw [splitFirst_of_begins (List.prefix_append _ _), List.drop_left]

/-- Where the pattern does not begin, the cut is in the rest. -/
theorem splitFirst_cons {a : α} {rest : List α} (h : ¬ pattern <+: a :: rest) :
    splitFirst pattern (a :: rest) =
      (splitFirst pattern rest).map fun split => (a :: split.1, split.2) := if_neg h

/-- An element that does not begin the pattern is passed over. -/
theorem splitFirst_cons_of_ne {a : α} {rest : List α} (h : pattern.head? ≠ some a)
    (hne : pattern ≠ []) :
    splitFirst pattern (a :: rest) =
      (splitFirst pattern rest).map fun split => (a :: split.1, split.2) := by
  apply splitFirst_cons
  obtain ⟨b, tail, rfl⟩ := List.exists_cons_of_ne_nil hne
  intro hbegins
  exact h (by rw [List.head?_cons, (List.cons_prefix_cons.mp hbegins).1])

/-- A text shorter than the pattern does not contain it. -/
theorem splitFirst_of_length_lt {text : List α} (h : text.length < pattern.length) :
    splitFirst pattern text = none := by
  induction text with
  | nil =>
      have hne : pattern ≠ [] := List.ne_nil_of_length_pos (by simpa using h)
      exact if_neg hne
  | cons a rest ih =>
      rw [List.length_cons] at h
      rw [splitFirst_cons, ih (by omega), Option.map_none]
      intro hbegins
      have hle := hbegins.length_le
      rw [List.length_cons] at hle
      omega

/-- A failed match: the first element is passed over, and the search begins again
behind it. -/
theorem splitFirst_mismatch {k : Nat} {a : α} (hk : k < pattern.length)
    (hpos : 0 < k) (ha : pattern[k]? ≠ some a) (rest : List α) :
    splitFirst pattern (pattern.take k ++ a :: rest) =
      (splitFirst pattern ((pattern.take k).tail ++ a :: rest)).map fun split =>
        (pattern.take 1 ++ split.1, split.2) := by
  cases pattern with
  | nil => simp at hk
  | cons b tail =>
      obtain ⟨j, rfl⟩ : ∃ j, k = j + 1 := ⟨k - 1, by omega⟩
      rw [List.take_succ_cons, List.cons_append, List.tail_cons, splitFirst_cons]
      · rfl
      · intro hbegins
        obtain ⟨behind, hbehind⟩ := (List.cons_prefix_cons.mp hbegins).2
        have hj : j < tail.length := by simpa using hk
        have hget := congrArg (fun text => text[j]?) hbehind
        rw [List.getElem?_append_left hj, List.getElem?_append_right (by
          rw [List.length_take_of_le hj.le]), List.length_take_of_le hj.le, Nat.sub_self] at hget
        exact ha hget

/-- The parts and the pattern between them make up the text. -/
theorem append_of_splitFirst {text front behind : List α}
    (h : splitFirst pattern text = some (front, behind)) : text = front ++ pattern ++ behind := by
  induction text generalizing front with
  | nil =>
      rw [splitFirst] at h
      split at h
      · rename_i hnil
        obtain ⟨rfl, rfl⟩ := Prod.mk.inj (Option.some.inj h)
        simp [hnil]
      · cases h
  | cons a rest ih =>
      rw [splitFirst] at h
      split at h
      · rename_i hbegins
        obtain ⟨rfl, rfl⟩ := Prod.mk.inj (Option.some.inj h)
        exact (List.prefix_iff_eq_append.mp hbegins).symm
      · obtain ⟨split, hsplit, heq⟩ := Option.map_eq_some_iff.mp h
        obtain ⟨rfl, rfl⟩ := Prod.mk.inj heq
        rw [ih hsplit]
        rfl

/-- A pattern whose first element does not come again in it. -/
def Unbordered (pattern : List α) : Prop := ∀ a, pattern.head? = some a → a ∉ pattern.tail

/-- Behind a list without it, such a pattern is found where it stands. -/
theorem splitFirst_append (hunbordered : Unbordered pattern) (hne : pattern ≠ [])
    {front : List α} (hfront : ¬ pattern <:+: front) (behind : List α) :
    splitFirst pattern (front ++ pattern ++ behind) = some (front, behind) := by
  induction front with
  | nil => rw [List.nil_append, splitFirst_self]
  | cons a front ih =>
      rw [List.infix_cons_iff, not_or] at hfront
      rw [List.cons_append, List.cons_append, splitFirst_cons, ih hfront.2, Option.map_some]
      intro hbegins
      obtain ⟨b, tail, rfl⟩ := List.exists_cons_of_ne_nil hne
      -- a match that begins inside the list would reach the first element of the pattern
      by_cases hfits : (b :: tail).length ≤ (a :: front).length
      · apply hfront.1
        rw [← List.cons_append, ← List.cons_append, List.append_assoc] at hbegins
        exact List.prefix_of_prefix_length_le hbegins (List.prefix_append _ _) hfits
      · simp only [List.length_cons] at hfits
        have hb : (b :: tail)[front.length + 1]? = some b := by
          have hget := hbegins.getElem (i := front.length + 1) (by simp; omega)
          rw [List.getElem?_eq_getElem (by simp; omega), hget]
          simp [List.getElem_append_right]
        rw [List.getElem?_cons_succ] at hb
        exact hunbordered b rfl (List.mem_of_getElem? hb)

end PatternSplit
