import Mathlib.Data.List.Basic
import Mathlib.Tactic.Common

/-!
# Checked writes into a buffer

A C program stores into an array by index, and nothing stops it at the end.
Here a buffer is a list, its length never changes, and a store outside it is
`none`.

* `write`, `writeAll` — one element, and elements one after the other; what a
  copy that fits comes to is `writeAll_eq`;
* `swap`, `reverseLoop` — the reversal in place with an index from either end;
  `reverseLoop_eq` says that it reverses.
-/

namespace Buffers

variable {α : Type}

/-! ## Copying -/

/-- Store one element. -/
def write (buffer : List α) (index : Nat) (value : α) : Option (List α) :=
  if index < buffer.length then some (buffer.set index value) else none

/-- Store elements one after the other, from an index on. -/
def writeAll : List α → Nat → List α → Option (List α)
  | buffer, _, [] => some buffer
  | buffer, index, value :: rest => do
      let buffer ← write buffer index value
      writeAll buffer (index + 1) rest

/-- A write inside the buffer. -/
theorem write_of_lt {buffer : List α} {index : Nat} (h : index < buffer.length) (value : α) :
    write buffer index value = some (buffer.set index value) := if_pos h

/-- One element. -/
@[simp] theorem writeAll_singleton (buffer : List α) (index : Nat) (value : α) :
    writeAll buffer index [value] = write buffer index value := by
  cases h : write buffer index value <;> simp [writeAll, h]

/-- A copy that fits replaces the elements from the index on. -/
theorem writeAll_eq (values : List α) :
    ∀ (buffer : List α) (index : Nat), index + values.length ≤ buffer.length →
      writeAll buffer index values =
        some (buffer.take index ++ values ++ buffer.drop (index + values.length)) := by
  induction values with
  | nil => intro buffer index _; simp [writeAll]
  | cons value rest ih =>
      intro buffer index hfits
      rw [List.length_cons] at hfits
      have hindex : index < buffer.length := by omega
      have htake : (buffer.set index value).take (index + 1) = buffer.take index ++ [value] := by
        rw [List.take_add_one, List.take_set_of_le (Nat.le_refl index),
          List.getElem?_set_self hindex, Option.toList_some]
      have hdrop : (buffer.set index value).drop (index + 1 + rest.length) =
          buffer.drop (index + (rest.length + 1)) := by
        rw [List.drop_set_of_lt (by omega)]
        congr 1
        omega
      rw [writeAll, write_of_lt hindex, Option.bind_eq_bind, Option.bind_some,
        ih _ _ (by rw [List.length_set]; omega), htake, hdrop, List.length_cons]
      simp

/-- From the beginning the copy stands in front of what is left of the buffer. -/
theorem writeAll_zero {buffer values : List α} (h : values.length ≤ buffer.length) :
    writeAll buffer 0 values = some (values ++ buffer.drop values.length) := by
  rw [writeAll_eq values buffer 0 (by omega), Nat.zero_add]
  rfl

/-- Copies one behind the other are one copy. -/
theorem writeAll_append (front rest : List α) :
    ∀ (buffer : List α) (index : Nat),
      writeAll buffer index (front ++ rest) =
        (writeAll buffer index front).bind fun written =>
          writeAll written (index + front.length) rest := by
  induction front with
  | nil => intro buffer index; rfl
  | cons value front ih =>
      intro buffer index
      have hindex : index + 1 + front.length = index + (front.length + 1) := by omega
      simp only [List.cons_append, writeAll, Option.bind_eq_bind, Option.bind_assoc,
        List.length_cons, ih, hindex]

/-! ## Reversing -/

/-- Exchange two elements. -/
def swap (buffer : List α) (p q : Nat) : Option (List α) := do
  let c ← buffer[p]?
  let d ← buffer[q]?
  let buffer ← write buffer p d
  write buffer q c

/-- `for (; p < q; ++p, --q)` exchange the elements at `p` and `q`. -/
def reverseLoop : List α → Nat → Nat → Option (List α)
  | buffer, _, 0 => some buffer
  | buffer, p, q + 1 =>
      if p < q + 1 then do
        let buffer ← swap buffer p (q + 1)
        reverseLoop buffer (p + 1) q
      else
        some buffer

/-- Two elements change places. -/
theorem swap_eq {buffer : List α} {p q : Nat} (hp : p < buffer.length) (hq : q < buffer.length) :
    swap buffer p q = some ((buffer.set p buffer[q]).set q buffer[p]) := by
  have hwrite : q < (buffer.set p buffer[q]).length := by rwa [List.length_set]
  simp only [swap, List.getElem?_eq_getElem hp, List.getElem?_eq_getElem hq,
    Option.bind_eq_bind, Option.bind_some, write_of_lt hp, write_of_lt hwrite]

/-- What the loop leaves at each index: between `p` and `q` the element at the
mirror image, and elsewhere the element that was there. -/
theorem reverseLoop_getElem? (q : Nat) :
    ∀ (buffer : List α) (p : Nat), q < buffer.length →
      ∃ after, reverseLoop buffer p q = some after ∧ after.length = buffer.length ∧
        ∀ i, after[i]? = if p ≤ i ∧ i ≤ q then buffer[p + q - i]? else buffer[i]? := by
  induction q with
  | zero =>
      intro buffer p _
      refine ⟨buffer, rfl, rfl, fun i => ?_⟩
      split
      · rename_i h
        congr 1
        omega
      · rfl
  | succ q ih =>
      intro buffer p hq
      by_cases hpq : p < q + 1
      · have hp : p < buffer.length := by omega
        have hlength : q < ((buffer.set p buffer[q + 1]).set (q + 1) buffer[p]).length := by
          rw [List.length_set, List.length_set]
          omega
        obtain ⟨after, hafter, hsame, hget⟩ := ih _ (p + 1) hlength
        refine ⟨after, ?_, by rw [hsame, List.length_set, List.length_set], fun i => ?_⟩
        · rw [reverseLoop, if_pos hpq, swap_eq hp hq, Option.bind_eq_bind, Option.bind_some, hafter]
        · rw [hget]
          -- the two ends were exchanged, the elements between them are left to `ih`
          by_cases hfirst : i = p
          · subst hfirst
            rw [if_neg (by omega), if_pos (by omega), List.getElem?_set_ne (by omega),
              List.getElem?_set_self hp, Nat.add_sub_cancel_left, List.getElem?_eq_getElem hq]
          · by_cases hlast : i = q + 1
            · subst hlast
              rw [if_neg (by omega), if_pos (by omega),
                List.getElem?_set_self (by rwa [List.length_set]), Nat.add_sub_cancel,
                List.getElem?_eq_getElem hp]
            · by_cases hbetween : p + 1 ≤ i ∧ i ≤ q
              · have hmirror : p + 1 + q - i = p + (q + 1) - i := by omega
                rw [if_pos hbetween, if_pos (by omega), hmirror,
                  List.getElem?_set_ne (by omega), List.getElem?_set_ne (by omega)]
              · rw [if_neg hbetween, if_neg (by omega), List.getElem?_set_ne (by omega),
                  List.getElem?_set_ne (by omega)]
      · refine ⟨buffer, by rw [reverseLoop, if_neg hpq], rfl, fun i => ?_⟩
        split
        · rename_i h
          congr 1
          omega
        · rfl

/-- Started on the first `n` elements, the loop reverses them and leaves the
others. -/
theorem reverseLoop_eq {front : List α} (hne : front ≠ []) (rest : List α) :
    reverseLoop (front ++ rest) 0 (front.length - 1) = some (front.reverse ++ rest) := by
  have hpos : 0 < front.length := List.length_pos_iff.mpr hne
  have hinside : front.length - 1 < (front ++ rest).length := by
    rw [List.length_append]
    omega
  obtain ⟨after, hafter, -, hget⟩ :=
    reverseLoop_getElem? (front.length - 1) (front ++ rest) 0 hinside
  rw [hafter]
  congr 1
  apply List.ext_getElem?
  intro i
  rw [hget]
  by_cases hi : i < front.length
  · have hmirror : 0 + (front.length - 1) - i = front.length - 1 - i := by omega
    have hfront : (front ++ rest)[front.length - 1 - i]? = front[front.length - 1 - i]? :=
      List.getElem?_append_left (by omega)
    have hback : (front.reverse ++ rest)[i]? = front.reverse[i]? :=
      List.getElem?_append_left (by rwa [List.length_reverse])
    rw [if_pos (by omega), hmirror, hfront, hback, List.getElem?_reverse hi]
  · rw [if_neg (by omega), List.getElem?_append_right (by omega),
      List.getElem?_append_right (by rw [List.length_reverse]; omega), List.length_reverse]

end Buffers
