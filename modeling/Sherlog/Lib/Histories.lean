import Mathlib.Data.List.ReduceOption
import Mathlib.Logic.Function.Basic
import Sherlog.Lib.Machine

/-!
# Calls that take effect at one time

Threads call operations on a shared object, and an operation takes many steps.  What can be
seen of a run is when each call was made, and when it returned and with what.  The run is
as good as one whose operations are single steps when each call can be thought to have
happened at one time between its call and its return.

* `CallEvent` — a call, the time it takes effect, and its return; the history of a run has no
  events of the second kind.
* `CallPhase.After`, `Proper` — a thread makes one call at a time, which takes effect once before it
  returns, and returns what it came to.
* `Sequential` — the calls, in the order in which they take effect, are what the
  specification says.
* `Linearizes` — such times can be put into a history, and the specification ends up there.
* `simulates` — the rule: a relation between the machine and the
  specification that every step keeps.
-/

namespace Histories

variable {ι σ τ θ ω ρ : Type*}

/-- What happens to the calls of the threads. -/
inductive CallEvent (ι ω ρ : Type*) where
  /-- A thread calls an operation. -/
  | call (i : ι) (op : ω)
  /-- Its call takes effect, and comes to a result. -/
  | effect (i : ι) (op : ω) (res : ρ)
  /-- Its call returns. -/
  | ret (i : ι) (res : ρ)
deriving Repr

/-- The events that can be seen. -/
def CallEvent.visible : CallEvent ι ω ρ → Bool
  | .effect _ _ _ => false
  | _ => true

/-- How far a thread is with its call. -/
inductive CallPhase (ω ρ : Type*) where
  /-- It is in no call. -/
  | idle
  /-- Its call has had no effect yet. -/
  | pending (op : ω)
  /-- Its call has taken effect. -/
  | done (res : ρ)
deriving Repr

/-- What the next event of a thread may be, and where it leaves the thread. -/
inductive CallPhase.After : CallPhase ω ρ → CallEvent ι ω ρ → CallPhase ω ρ → Prop
  | call (i : ι) (op : ω) : After .idle (.call i op) (.pending op)
  | effect (i : ι) (op : ω) (res : ρ) : After (.pending op) (.effect i op res) (.done res)
  | ret (i : ι) (res : ρ) : After (.done res) (.ret i res) .idle

/-- The thread an event is about. -/
def CallEvent.thread : CallEvent ι ω ρ → ι
  | .call i _ | .effect i _ _ | .ret i _ => i

variable [DecidableEq ι]

/-- The events follow the calls of each thread. -/
inductive Proper : (ι → CallPhase ω ρ) → List (CallEvent ι ω ρ) → (ι → CallPhase ω ρ) → Prop
  | nil (phases : ι → CallPhase ω ρ) : Proper phases [] phases
  | cons {phases last : ι → CallPhase ω ρ} {e : CallEvent ι ω ρ} {phase : CallPhase ω ρ}
      {events : List (CallEvent ι ω ρ)} : (phases e.thread).After e phase →
        Proper (Function.update phases e.thread phase) events last →
          Proper phases (e :: events) last

omit [DecidableEq ι] in
/-- The effects, in order, are a run of the specification. -/
inductive Sequential (spec : σ → ω → ρ → σ → Prop) : σ → List (CallEvent ι ω ρ) → σ → Prop
  | nil (a : σ) : Sequential spec a [] a
  | effect {a a' last : σ} {i : ι} {op : ω} {res : ρ} {events : List (CallEvent ι ω ρ)} :
      spec a op res a' → Sequential spec a' events last →
        Sequential spec a (.effect i op res :: events) last
  | other {a last : σ} {e : CallEvent ι ω ρ} {events : List (CallEvent ι ω ρ)} : e.visible = true →
      Sequential spec a events last → Sequential spec a (e :: events) last

/-- Effects can be put into the history so that each call takes effect between its call and
its return, and in that order the calls are a run of the specification. -/
def Linearizes (spec : σ → ω → ρ → σ → Prop) (a : σ) (history : List (CallEvent ι ω ρ)) (last : σ) :
    Prop :=
  ∃ events phases, events.filter CallEvent.visible = history ∧
    Proper (fun _ => CallPhase.idle) events phases ∧ Sequential spec a events last

variable {spec : σ → ω → ρ → σ → Prop} {phases phases' phases'' : ι → CallPhase ω ρ}
  {events events' : List (CallEvent ι ω ρ)} {a a' a'' : σ}

theorem Proper.append (h : Proper phases events phases') (h' : Proper phases' events' phases'') :
    Proper phases (events ++ events') phases'' := by
  induction h with
  | nil => exact h'
  | cons hafter _ ih => exact .cons hafter (ih h')

omit [DecidableEq ι] in
theorem Sequential.append (h : Sequential spec a events a') (h' : Sequential spec a' events' a'') :
    Sequential spec a (events ++ events') a'' := by
  induction h with
  | nil => exact h'
  | effect hspec _ ih => exact .effect hspec (ih h')
  | other hvisible _ ih => exact .other hvisible (ih h')

/-- **The rule.**  Each step of the machine is matched by events of which the machine shows
the visible ones, and by the effects of these events on the specification. -/
theorem simulates {step : τ → θ → Option (Option (CallEvent ι ω ρ) × τ)}
    {R : τ → σ → (ι → CallPhase ω ρ) → Prop}
    (hstep : ∀ s a phases turn shown s', R s a phases → step s turn = some (shown, s') →
      ∃ events a' phases', events.filter CallEvent.visible = shown.toList ∧
        Proper phases events phases' ∧ Sequential spec a events a' ∧ R s' a' phases')
    {s t : τ} (hs : R s a phases) {turns : List θ} {shown : List (Option (CallEvent ι ω ρ))}
    (hrun : Machine.run step s turns = some (shown, t)) :
    ∃ events a' phases', events.filter CallEvent.visible = shown.reduceOption ∧
      Proper phases events phases' ∧ Sequential spec a events a' ∧ R t a' phases' := by
  induction turns generalizing s a phases shown with
  | nil =>
    obtain ⟨rfl, rfl⟩ := Prod.mk.inj (Option.some.inj hrun)
    exact ⟨[], a, phases, rfl, .nil _, .nil _, hs⟩
  | cons turn turns ih =>
    obtain ⟨first, s', rest, hone, hrest, rfl⟩ := Machine.run_cons_eq_some.mp hrun
    obtain ⟨events, a', phases', hshown, hproper, hseq, hs'⟩ :=
      hstep s a phases turn first s' hs hone
    obtain ⟨events', a'', phases'', hshown', hproper', hseq', ht⟩ := ih hs' hrest
    refine ⟨events ++ events', a'', phases'', ?_, hproper.append hproper', hseq.append hseq', ht⟩
    rw [List.filter_append, hshown, hshown']
    cases first <;> simp [List.reduceOption_cons_of_some, List.reduceOption_cons_of_none]

end Histories
