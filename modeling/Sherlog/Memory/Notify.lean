import Mathlib.Data.List.ReduceOption
import Sherlog.Lib.Machine

/-!
# The notification of the consumer

`notify_consumer` and `wait_for_data`: a flag behind a lock, and a condition variable.  What
happens under the lock is one turn; a wait gives the lock up, and takes it again in a turn
of its own.  Any number of threads notify, and one consumer waits.

* `Signal` — the flag and where the consumer is; `Signal.step` — one turn.
* `Signal.Late` — a wait that has timed out takes the lock again, and the flag has been set
  in the meantime.
* `Signal.Heard` — no call takes a notification back and returns false, and the first call to
  return after a notification returns true.
* `Signal.first_of_ready` — while the flag is set, only a late wait can return false.
* `Signal.heard_iff` — so every notification of a run is heard exactly when no wait of it is
  late.
-/

namespace Sherlog

/-- Where the consumer is. -/
inductive Waiter where
  /-- In no call of `wait_for_data`. -/
  | away
  /-- Asleep in `wait`, or in `wait_for` with a timeout. -/
  | asleep (timeoutMs : Option Nat)
  /-- Woken by `notify_one`; the lock is not yet taken again. -/
  | notified
  /-- Woken by the timeout; the lock is not yet taken again. -/
  | expired
deriving DecidableEq, Repr

/-- `consumer_signal`: the flag, and the consumer at the condition variable. -/
structure Signal where
  /-- The flag behind the lock. -/
  ready : Bool
  /-- The consumer. -/
  waiter : Waiter
deriving DecidableEq, Repr

/-- What happens under the lock at one time. -/
inductive SignalTurn where
  /-- `notify_consumer` -/
  | notifyConsumer
  /-- `wait_for_data` called, up to its return or its wait. -/
  | waitForData (timeoutMs : Option Nat)
  /-- The timeout of a wait passes. -/
  | expire
  /-- A wait takes the lock again, and the call returns. -/
  | reacquire
deriving DecidableEq, Repr

namespace Signal

/-- A new signal. -/
def new : Signal := ⟨false, .away⟩

/-- `notify_consumer`: the flag is set, and `notify_one` wakes the consumer if it is asleep. -/
def notifyConsumer (s : Signal) : Signal :=
  { ready := true
    waiter := match s.waiter with
      | .asleep _ => .notified
      | waiter => waiter }

/-- `wait_for_data` up to its return or its wait: the flag is taken, or the consumer falls
asleep and gives up the lock. -/
def waitForData (s : Signal) (timeoutMs : Option Nat) : Option Bool × Signal :=
  if s.ready then (some true, { s with ready := false })
  else (none, { s with waiter := .asleep timeoutMs })

/-- One turn, with what `wait_for_data` returns in it if it returns; `none` when the consumer
is elsewhere. -/
def step (s : Signal) : SignalTurn → Option (Option Bool × Signal)
  | .notifyConsumer => some (none, s.notifyConsumer)
  | .waitForData timeoutMs =>
    match s.waiter with
    | .away => some (s.waitForData timeoutMs)
    | _ => none
  | .expire =>
    match s.waiter with
    | .asleep (some _) => some (none, { s with waiter := .expired })
    | _ => none
  | .reacquire =>
    -- either way the flag is cleared
    match s.waiter with
    | .notified => some (some true, { ready := false, waiter := .away })
    | .expired => some (some false, { ready := false, waiter := .away })
    | _ => none

/-- A wait that has timed out takes the lock again, and the flag is set. -/
def Late (s : Signal) (turn : SignalTurn) : Prop :=
  turn = .reacquire ∧ s.waiter = .expired ∧ s.ready = true

/-- No wait of the run is late. -/
def Timely : Signal → List SignalTurn → Prop
  | _, [] => True
  | s, turn :: turns =>
    ¬ s.Late turn ∧ ∀ answer s', s.step turn = some (answer, s') → Timely s' turns

/-- The first call to return in the run, if one does, returns true. -/
def FirstTrue (s : Signal) (turns : List SignalTurn) : Prop :=
  ∀ answers t, Machine.run step s turns = some (answers, t) →
    answers.reduceOption.head? ≠ some false

/-- In no turn of the run does the flag go down in a call that returns false; and after each
notification, the first call to return returns true. -/
def Heard : Signal → List SignalTurn → Prop
  | _, [] => True
  | s, turn :: turns =>
    ∀ answer s', s.step turn = some (answer, s') →
      (s.ready = true → s'.ready = false → answer ≠ some false) ∧
        (turn = .notifyConsumer → s'.FirstTrue turns) ∧ Heard s' turns

variable {s s' : Signal} {turn : SignalTurn} {turns : List SignalTurn} {answer : Option Bool}

/-! ## One turn -/

/-- **What a turn does to the flag once it is set**: it stays set and no call returns, or a
call takes it and returns true, or the turn is late. -/
theorem step_of_ready (hready : s.ready = true) (h : s.step turn = some (answer, s')) :
    (s'.ready = true ∧ answer = none) ∨ answer = some true ∨ s.Late turn := by
  cases turn with
  | notifyConsumer =>
    obtain ⟨rfl, rfl⟩ := Prod.mk.inj (Option.some.inj h)
    exact Or.inl ⟨rfl, rfl⟩
  | waitForData timeoutMs =>
    rw [step] at h
    split at h
    · rw [waitForData, if_pos hready] at h
      obtain ⟨rfl, rfl⟩ := Prod.mk.inj (Option.some.inj h)
      exact Or.inr (Or.inl rfl)
    · cases h
  | expire =>
    rw [step] at h
    split at h
    · obtain ⟨rfl, rfl⟩ := Prod.mk.inj (Option.some.inj h)
      exact Or.inl ⟨hready, rfl⟩
    · cases h
  | reacquire =>
    rw [step] at h
    split at h
    · obtain ⟨rfl, rfl⟩ := Prod.mk.inj (Option.some.inj h)
      exact Or.inr (Or.inl rfl)
    · next hexpired => exact Or.inr (Or.inr ⟨rfl, hexpired, hready⟩)
    · cases h

/-- A late turn clears the flag and returns false. -/
theorem step_of_late (h : s.Late turn) : s.step turn = some (some false, ⟨false, .away⟩) := by
  obtain ⟨rfl, hexpired, -⟩ := h
  rw [step, hexpired]

/-! ## Runs -/

/-- **While the flag is set, the next call to return returns true**, in a run without a late
wait. -/
theorem first_of_ready (hready : s.ready = true) (h : s.Timely turns) : s.FirstTrue turns := by
  induction turns generalizing s with
  | nil =>
    intro answers t hrun
    obtain ⟨rfl, -⟩ := Prod.mk.inj (Option.some.inj hrun)
    exact nofun
  | cons turn turns ih =>
    intro answers t hrun
    obtain ⟨answer, s', rest, hstep, hrest, rfl⟩ := Machine.run_cons_eq_some.mp hrun
    rcases step_of_ready hready hstep with ⟨hready', rfl⟩ | rfl | hlate
    · exact ih hready' (h.2 _ _ hstep) rest t hrest
    · simp [List.reduceOption_cons_of_some]
    · exact absurd hlate h.1

/-- **Every notification is heard exactly when no wait is late**, from any state and in any
run: any number of notifications between the turns of one consumer that calls
`wait_for_data` again and again, with or without a timeout. -/
theorem heard_iff (s : Signal) (turns : List SignalTurn) : s.Heard turns ↔ s.Timely turns := by
  induction turns generalizing s with
  | nil => exact Iff.rfl
  | cons turn turns ih =>
    constructor
    · intro hheard
      refine ⟨fun hlate => ?_, fun answer s' hstep => (ih s').mp (hheard answer s' hstep).2.2⟩
      exact (hheard _ _ (step_of_late hlate)).1 hlate.2.2 rfl rfl
    · rintro ⟨htimely, hrest⟩ answer s' hstep
      refine ⟨fun hready hcleared => ?_, ?_, (ih s').mpr (hrest _ _ hstep)⟩
      · rcases step_of_ready hready hstep with ⟨hready', -⟩ | rfl | hlate
        · rw [hcleared] at hready'
          cases hready'
        · exact nofun
        · exact absurd hlate htimely
      · rintro rfl
        obtain ⟨-, rfl⟩ := Prod.mk.inj (Option.some.inj hstep)
        exact first_of_ready rfl (hrest _ _ rfl)

/-- The wait of a first call times out, and before it has the lock again there is a
notification: the call returns false, and the flag is down. -/
theorem swallows_after_timeout :
    Machine.run step new [.waitForData (some 500), .expire, .notifyConsumer] =
        some ([none, none, none], ⟨true, .expired⟩) ∧
      step ⟨true, .expired⟩ .reacquire = some (some false, ⟨false, .away⟩) ∧
      ¬ new.Heard [.waitForData (some 500), .expire, .notifyConsumer, .reacquire] := by
  refine ⟨rfl, rfl, fun hheard => ?_⟩
  have hafter := ((hheard none ⟨false, .asleep (some 500)⟩ rfl).2.2 none ⟨false, .expired⟩ rfl).2.2
    none ⟨true, .expired⟩ rfl
  exact hafter.2.1 rfl [some false] ⟨false, .away⟩ rfl rfl

end Signal

end Sherlog
