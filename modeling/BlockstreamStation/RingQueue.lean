import Mathlib.Data.List.Basic
import Mathlib.Tactic.Common

/-!
# Queues in a ring

An array with a reading and a writing position, both of which go round.  The ring
holds what stands between them (`RingBuffer.Holds`), and it is empty when they meet, so
that a ring of `n` cells holds fewer than `n` elements.

* `holds_push`, `holds_pushAll`: as long as there is room, what is
  pushed comes behind what the ring holds;
* `popUpTo_of_holds`: what is popped comes from the front.
-/

namespace RingQueue

variable {α : Type}

/-- Cells that are written and read in a circle. -/
structure RingBuffer (α : Type) where
  cells : List α
  readPos : Nat
  writePos : Nat

/-- Store an element and advance the writing position. -/
def RingBuffer.push (ring : RingBuffer α) (a : α) : RingBuffer α where
  cells := ring.cells.set ring.writePos a
  readPos := ring.readPos
  writePos := (ring.writePos + 1) % ring.cells.length

/-- Push elements one after the other. -/
def RingBuffer.pushAll (ring : RingBuffer α) (elements : List α) : RingBuffer α :=
  elements.foldl RingBuffer.push ring

/-- Take the next element, unless the positions meet. -/
def RingBuffer.pop (ring : RingBuffer α) : Option (α × RingBuffer α) :=
  if ring.readPos = ring.writePos then none
  else
    ring.cells[ring.readPos]?.map fun a =>
      (a, { ring with readPos := (ring.readPos + 1) % ring.cells.length })

/-- Take elements until there are enough or the ring is empty. -/
def RingBuffer.popUpTo : Nat → RingBuffer α → List α × RingBuffer α
  | 0, ring => ([], ring)
  | n + 1, ring =>
      match ring.pop with
      | none => ([], ring)
      | some (a, ring) => (a :: (popUpTo n ring).1, (popUpTo n ring).2)

/-- The ring holds a queue, the oldest element first. -/
structure RingBuffer.Holds (ring : RingBuffer α) (queue : List α) : Prop where
  length_lt : queue.length < ring.cells.length
  readPos_lt : ring.readPos < ring.cells.length
  writePos_eq : ring.writePos = (ring.readPos + queue.length) % ring.cells.length
  cell : ∀ i < queue.length, ring.cells[(ring.readPos + i) % ring.cells.length]? = queue[i]?

/-- A ring whose positions are both at the start holds nothing. -/
theorem holds_fresh {cells : List α} (h : cells ≠ []) : (RingBuffer.mk cells 0 0).Holds [] where
  length_lt := List.length_pos_of_ne_nil h
  readPos_lt := List.length_pos_of_ne_nil h
  writePos_eq := by simp
  cell := fun i hi => absurd hi (by simp)

/-- Positions less than a round apart are different cells. -/
theorem mod_ne_of_lt {n start i j : Nat} (hij : i < j) (hj : j < n) :
    (start + i) % n ≠ (start + j) % n := by
  intro heq
  have hdvd := Nat.dvd_of_mod_eq_zero (Nat.sub_mod_eq_zero_of_mod_eq heq.symm)
  have hsub : start + j - (start + i) = j - i := by omega
  rw [hsub] at hdvd
  have hle := Nat.le_of_dvd (by omega) hdvd
  omega

/-- A push does not change the size of the ring. -/
@[simp] theorem length_cells_push (ring : RingBuffer α) (a : α) :
    (ring.push a).cells.length = ring.cells.length := by simp [RingBuffer.push]

/-- Nor do several. -/
@[simp] theorem length_cells_pushAll (elements : List α) (ring : RingBuffer α) :
    (ring.pushAll elements).cells.length = ring.cells.length := by
  induction elements generalizing ring with
  | nil => rfl
  | cons a rest ih => exact (ih (ring.push a)).trans (length_cells_push ring a)

/-- No more elements come out than were asked for. -/
theorem length_popUpTo_le (n : Nat) (ring : RingBuffer α) : (ring.popUpTo n).1.length ≤ n := by
  induction n generalizing ring with
  | zero => exact Nat.le_refl 0
  | succ n ih =>
      rw [RingBuffer.popUpTo]
      split
      · exact Nat.zero_le _
      · exact Nat.succ_le_succ (ih _)

section Holds

variable {ring : RingBuffer α} {queue : List α}

/-- A push puts its element at the end of the queue, if one cell beyond it stays free. -/
theorem holds_push (h : ring.Holds queue) (hroom : queue.length + 1 < ring.cells.length) (a : α) :
    (ring.push a).Holds (queue ++ [a]) := by
  have hsize : 0 < ring.cells.length := by omega
  have hwrite : ring.writePos < ring.cells.length := by
    rw [h.writePos_eq]
    exact Nat.mod_lt _ hsize
  refine ⟨by simpa using hroom, by simpa [RingBuffer.push] using h.readPos_lt, ?_, fun i hi => ?_⟩
  · simp [RingBuffer.push, h.writePos_eq, Nat.add_assoc]
  · rw [List.length_append, List.length_singleton] at hi
    have hcell : (ring.push a).cells[((ring.push a).readPos + i) % (ring.push a).cells.length]? =
        (ring.cells.set ring.writePos a)[(ring.readPos + i) % ring.cells.length]? := by
      simp [RingBuffer.push]
    rw [hcell]
    by_cases hlast : i = queue.length
    · rw [hlast, ← h.writePos_eq, List.getElem?_set_self hwrite]
      simp
    · have hlt : i < queue.length := by omega
      have hne : ring.writePos ≠ (ring.readPos + i) % ring.cells.length := by
        rw [h.writePos_eq]
        exact (mod_ne_of_lt hlt h.length_lt).symm
      rw [List.getElem?_set_ne hne, h.cell i hlt, List.getElem?_append_left hlt]

/-- Several elements come to stand at the end in their order, if there is room for all of
them. -/
theorem holds_pushAll (elements : List α) :
    ∀ {ring : RingBuffer α} {queue : List α}, ring.Holds queue →
      queue.length + elements.length < ring.cells.length →
      (ring.pushAll elements).Holds (queue ++ elements) := by
  induction elements with
  | nil =>
      intro ring queue h _
      rw [List.append_nil]
      exact h
  | cons a rest ih =>
      intro ring queue h hroom
      rw [List.length_cons] at hroom
      have hpush := ih (holds_push h (by omega) a) (by simp; omega)
      rw [List.append_assoc, List.singleton_append] at hpush
      exact hpush

/-- Nothing is taken from an empty queue. -/
theorem pop_of_holds_nil (h : ring.Holds []) : ring.pop = none := by
  have hmeet : ring.readPos = ring.writePos := by
    rw [h.writePos_eq, List.length_nil, Nat.add_zero, Nat.mod_eq_of_lt h.readPos_lt]
  exact if_pos hmeet

/-- A pop takes the first element of the queue. -/
theorem pop_of_holds_cons {a : α} (h : ring.Holds (a :: queue)) :
    ∃ after, ring.pop = some (a, after) ∧ after.Holds queue ∧
      after.cells.length = ring.cells.length := by
  have hlength := h.length_lt
  rw [List.length_cons] at hlength
  have hapart : ring.readPos ≠ ring.writePos := by
    have hne : (ring.readPos + 0) % ring.cells.length ≠
        (ring.readPos + (queue.length + 1)) % ring.cells.length :=
      mod_ne_of_lt (Nat.succ_pos queue.length) hlength
    rw [Nat.add_zero, Nat.mod_eq_of_lt h.readPos_lt] at hne
    rw [h.writePos_eq]
    exact hne
  have hhead : ring.cells[ring.readPos]? = some a := by
    have hcell := h.cell 0 (by simp)
    rwa [Nat.add_zero, Nat.mod_eq_of_lt h.readPos_lt] at hcell
  refine ⟨{ ring with readPos := (ring.readPos + 1) % ring.cells.length }, ?_, ?_, rfl⟩
  · rw [RingBuffer.pop, if_neg hapart, hhead, Option.map_some]
  · refine ⟨by simpa using Nat.lt_of_succ_lt hlength,
      Nat.mod_lt _ (by omega), ?_, fun i hi => ?_⟩
    · simp only [h.writePos_eq, List.length_cons, Nat.mod_add_mod]
      congr 1
      omega
    · have hcell := h.cell (i + 1) (by simpa using hi)
      rw [List.getElem?_cons_succ] at hcell
      simp only [Nat.mod_add_mod]
      rw [← hcell, Nat.add_assoc, Nat.add_comm 1 i]

/-- Popping takes from the front of the queue. -/
theorem popUpTo_of_holds (n : Nat) :
    ∀ {ring : RingBuffer α} {queue : List α}, ring.Holds queue →
      (ring.popUpTo n).1 = queue.take n ∧ (ring.popUpTo n).2.Holds (queue.drop n) ∧
        (ring.popUpTo n).2.cells.length = ring.cells.length := by
  induction n with
  | zero => intro ring queue h; exact ⟨rfl, h, rfl⟩
  | succ n ih =>
      intro ring queue h
      cases queue with
      | nil =>
          rw [RingBuffer.popUpTo, pop_of_holds_nil h]
          exact ⟨rfl, h, rfl⟩
      | cons a queue =>
          obtain ⟨after, hpop, hafter, hlength⟩ := pop_of_holds_cons h
          obtain ⟨htake, hdrop, hcells⟩ := ih hafter
          rw [RingBuffer.popUpTo, hpop]
          exact ⟨congrArg (a :: ·) htake, hdrop, hcells.trans hlength⟩

end Holds

end RingQueue
