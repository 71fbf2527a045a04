import BlockstreamStation.LabelledRuns
import Mathlib.Data.List.Count
import Mathlib.Data.List.Perm.Basic

/-!
# Handing a connection over to its thread

The accept loop of `zmq_client` keeps the descriptor of every connection in one
variable, `clientSocket`, and gives each new thread the address of that
variable.  Which descriptor a thread serves is decided when it first reads the
variable, which may be after `main` has accepted again.

The steps of `main` and of the threads, in any order:

    accept    clientSocket := fd, or -1 on failure
    spawn     one more thread that has yet to read
    adopt     such a thread reads clientSocket
    finish    a thread closes the descriptor it adopted

* `custody_step` — as long as `main` accepts only when every thread has read,
  the descriptors not yet adopted are those the waiting threads will find;
* `lost_at_accept` — the first accept with a thread still waiting breaks this;
* `handed_over_iff` — a run hands every connection over to exactly one thread if
  and only if each of its accepts found no thread waiting.
-/

namespace AcceptLoop

open LabelledRuns

/-- Where `main` is in its loop. -/
inductive Phase where
  | accepting
  | spawning
deriving DecidableEq

/-- `main` and its threads.  `opened` are the open connections, `serving` the
descriptors of the threads that have read, and `accepted` and `adopted` the
descriptors in the order of these events. -/
structure Bridge where
  phase : Phase
  clientSocket : Int
  started : Nat
  opened : List Int
  serving : List Int
  accepted : List Int
  adopted : List Int
deriving DecidableEq

/-- `main` before its first accept; the variable is not initialised. -/
def start (garbage : Int) : Bridge := ⟨.accepting, garbage, 0, [], [], [], []⟩

inductive Step where
  | acceptOk (fd : Int)
  | acceptFail
  | spawn
  | adopt
  | finish (fd : Int)
deriving DecidableEq

/-- One step.  `accept` returns a descriptor that is not open. -/
def step (s : Bridge) : Step → Option Bridge
  | .acceptOk fd =>
      if s.phase = .accepting ∧ 0 ≤ fd ∧ fd ∉ s.opened then
        some { s with
          phase := .spawning
          clientSocket := fd
          opened := s.opened ++ [fd]
          accepted := s.accepted ++ [fd] }
      else none
  | .acceptFail =>
      if s.phase = .accepting then some { s with clientSocket := -1 } else none
  | .spawn =>
      if s.phase = .spawning then some { s with phase := .accepting, started := s.started + 1 }
      else none
  | .adopt =>
      if 0 < s.started then
        some { s with
          started := s.started - 1
          serving := s.serving ++ [s.clientSocket]
          adopted := s.adopted ++ [s.clientSocket] }
      else none
  | .finish fd =>
      if fd ∈ s.serving then
        some { s with serving := s.serving.erase fd, opened := s.opened.erase fd }
      else none

/-- How many threads have yet to read, the one about to be spawned included. -/
def Bridge.due (s : Bridge) : Nat := s.started + if s.phase = .spawning then 1 else 0

/-- Every accepted descriptor has been adopted by exactly one thread or is what
the threads due to read find in the variable, one thread each; and no thread has
adopted anything else. -/
def HandedOver (s : Bridge) : Prop :=
  s.accepted.Perm (s.adopted ++ List.replicate s.due s.clientSocket)

instance (s : Bridge) : Decidable (HandedOver s) := by unfold HandedOver; infer_instance

/-- The guard: no accept returns while a thread has yet to read. -/
def AllRead (s : Bridge) : Step → Prop
  | .acceptOk _ => s.started = 0
  | .acceptFail => s.started = 0
  | _ => True

/-- The invariant of guarded runs: besides the hand-over, the open connections
are those being served and those the waiting threads will find. -/
structure Custody (s : Bridge) : Prop where
  handedOver : HandedOver s
  opened : s.opened.Perm (s.serving ++ List.replicate s.due s.clientSocket)
  nonneg : ∀ fd ∈ s.opened, 0 ≤ fd

theorem custody_start (garbage : Int) : Custody (start garbage) where
  handedOver := List.Perm.nil
  opened := List.Perm.nil
  nonneg := by simp [start]

/-- A guarded step keeps the invariant. -/
theorem custody_step {s s' : Bridge} {x : Step} (h : Custody s) (hstep : step s x = some s')
    (hguard : AllRead s x) : Custody s' := by
  obtain ⟨hhanded, hopened, hnonneg⟩ := h
  unfold HandedOver Bridge.due at hhanded
  unfold Bridge.due at hopened
  cases x with
  | acceptOk fd =>
      obtain ⟨⟨hphase, hfd, -⟩, ⟨⟩⟩ := Option.ite_none_right_eq_some.mp hstep
      have hstarted : s.started = 0 := hguard
      simp only [hphase, hstarted, reduceCtorEq, if_false, Nat.add_zero, List.replicate_zero,
        List.append_nil] at hhanded hopened
      refine ⟨?_, ?_, ?_⟩
      · simpa [HandedOver, Bridge.due, hstarted] using hhanded.append_right [fd]
      · simpa [Bridge.due, hstarted] using hopened.append_right [fd]
      · intro d hd
        rcases List.mem_append.mp hd with hd | hd
        · exact hnonneg d hd
        · rw [List.mem_singleton.mp hd]
          exact hfd
  | acceptFail =>
      obtain ⟨hphase, ⟨⟩⟩ := Option.ite_none_right_eq_some.mp hstep
      have hstarted : s.started = 0 := hguard
      simp only [hphase, hstarted, reduceCtorEq, if_false, Nat.add_zero, List.replicate_zero,
        List.append_nil] at hhanded hopened
      refine ⟨?_, ?_, hnonneg⟩
      · simpa [HandedOver, Bridge.due, hphase, hstarted] using hhanded
      · simpa [Bridge.due, hphase, hstarted] using hopened
  | spawn =>
      obtain ⟨hphase, ⟨⟩⟩ := Option.ite_none_right_eq_some.mp hstep
      rw [if_pos hphase] at hhanded hopened
      exact ⟨hhanded, hopened, hnonneg⟩
  | adopt =>
      obtain ⟨hstarted, ⟨⟩⟩ := Option.ite_none_right_eq_some.mp hstep
      -- The thread that reads takes the first of the copies that are due.
      have hsplit : ∀ front : List Int,
          front ++ List.replicate (s.started + if s.phase = .spawning then 1 else 0)
              s.clientSocket =
            (front ++ [s.clientSocket]) ++
              List.replicate (s.started - 1 + if s.phase = .spawning then 1 else 0)
                s.clientSocket := by
        intro front
        rw [List.append_assoc, List.singleton_append, ← List.replicate_succ]
        congr 2
        omega
      rw [hsplit] at hhanded hopened
      exact ⟨hhanded, hopened, hnonneg⟩
  | finish fd =>
      obtain ⟨hfd, ⟨⟩⟩ := Option.ite_none_right_eq_some.mp hstep
      refine ⟨hhanded, ?_, fun d hd => hnonneg d (List.mem_of_mem_erase hd)⟩
      have herase := hopened.erase fd
      rwa [List.erase_append_left _ hfd] at herase

/-- While threads wait, the descriptor they wait for is open. -/
theorem clientSocket_mem_opened {s : Bridge} (h : Custody s) (hstarted : s.started ≠ 0) :
    s.clientSocket ∈ s.opened := by
  refine h.opened.mem_iff.mpr (List.mem_append_right _ ?_)
  exact List.mem_replicate.mpr ⟨by unfold Bridge.due; omega, rfl⟩

/-- Once the variable has changed under waiting threads, a descriptor is lost. -/
theorem not_perm_of_changed {s : Bridge} (h : HandedOver s) (hdue : s.due ≠ 0)
    (extra : List Int) (hextra : s.clientSocket ∉ extra) {other : Int}
    (hother : other ≠ s.clientSocket) (n : Nat) :
    ¬ (s.accepted ++ extra).Perm (s.adopted ++ List.replicate n other) := by
  intro hperm
  have hbefore := h.count_eq s.clientSocket
  have hafter := hperm.count_eq s.clientSocket
  rw [List.count_append, List.count_replicate_self] at hbefore
  rw [List.count_append, List.count_append, List.count_eq_zero.mpr hextra,
    List.count_replicate, if_neg (by simpa using hother)] at hafter
  omega

/-- An accept that finds a thread waiting loses a connection. -/
theorem lost_at_accept {s s' : Bridge} {x : Step} (h : Custody s) (hstep : step s x = some s')
    (hguard : ¬ AllRead s x) : ¬ HandedOver s' := by
  have hdue : s.started ≠ 0 → s.due ≠ 0 := by unfold Bridge.due; omega
  cases x with
  | acceptOk fd =>
      obtain ⟨⟨-, -, hfresh⟩, ⟨⟩⟩ := Option.ite_none_right_eq_some.mp hstep
      have hne : fd ≠ s.clientSocket := by
        intro heq
        subst heq
        exact hfresh (clientSocket_mem_opened h hguard)
      exact not_perm_of_changed h.handedOver (hdue hguard) [fd]
        (fun hmem => hne (List.mem_singleton.mp hmem).symm) hne _
  | acceptFail =>
      obtain ⟨-, ⟨⟩⟩ := Option.ite_none_right_eq_some.mp hstep
      have hne : (-1 : Int) ≠ s.clientSocket := by
        have := h.nonneg _ (clientSocket_mem_opened h hguard)
        omega
      have hlost := not_perm_of_changed h.handedOver (hdue hguard) [] List.not_mem_nil hne s.due
      rwa [List.append_nil] at hlost
  | spawn => exact absurd trivial hguard
  | adopt => exact absurd trivial hguard
  | finish fd => exact absurd trivial hguard

/-- A run hands every connection over to exactly one thread, exactly when each
of its accepts returns after all threads have read. -/
theorem handed_over_iff (garbage : Int) (steps : List Step) :
    Always step HandedOver (start garbage) steps ↔
      Guarded step AllRead (start garbage) steps :=
  always_iff_guarded (A := fun _ => True) (fun _ h => h.handedOver)
    (fun _ _ _ _ h hstep hguard => custody_step h hstep hguard)
    (fun _ _ _ _ h hstep hguard => lost_at_accept h hstep hguard)
    steps (start garbage) (custody_start garbage) fun _ _ => trivial

/-- Two clients connect before the first thread has read: its connection is left
without a thread and the second one is adopted twice. -/
theorem two_threads_adopt_one_socket :
    ∃ s, exec step (start 0) [.acceptOk 4, .spawn, .acceptOk 5, .spawn, .adopt, .adopt] = some s ∧
      s.due = 0 ∧ s.accepted = [4, 5] ∧ s.adopted = [5, 5] ∧ ¬ HandedOver s := by
  refine ⟨⟨.accepting, 5, 0, [4, 5], [5, 5], [4, 5], [5, 5]⟩, ?_⟩
  decide

end AcceptLoop
