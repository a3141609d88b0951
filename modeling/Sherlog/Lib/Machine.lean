import Mathlib.Data.List.Basic

/-!
# Machines

A machine takes inputs one by one.  Its step may fail, and answers when it does not; a
run over a list of inputs collects the answers.  Nothing is assumed about states, inputs
or answers.

* `run` — the run over a list of inputs; `run_cons_eq_some` takes it apart.
* `run_preserves` — what every step preserves holds after every run; `run_preserves_or` —
  with an answer that excuses a step.
* `run_commutes` — a map of the states that commutes with every step commutes with every
  run, answers included.
* `foldl_preserves` — the first rule for a machine whose step never fails and gives no
  answer.
-/

namespace Machine

variable {σ ι ω : Type*}

/-- A run over a list of inputs: the answers and the last state. -/
def run (step : σ → ι → Option (ω × σ)) : σ → List ι → Option (List ω × σ)
  | s, [] => some ([], s)
  | s, i :: inputs =>
    (step s i).bind fun (o, s') => (run step s' inputs).map fun (os, t) => (o :: os, t)

variable {step : σ → ι → Option (ω × σ)} {s t : σ} {i : ι} {inputs : List ι} {answers : List ω}

@[simp] theorem run_nil (step : σ → ι → Option (ω × σ)) (s : σ) :
    run step s [] = some ([], s) := rfl

theorem run_cons_eq_some :
    run step s (i :: inputs) = some (answers, t) ↔
      ∃ o s' os, step s i = some (o, s') ∧ run step s' inputs = some (os, t) ∧
        answers = o :: os := by
  constructor
  · intro h
    obtain ⟨⟨o, s'⟩, hstep, hrest⟩ := Option.bind_eq_some_iff.mp h
    obtain ⟨⟨os, t'⟩, hrun, heq⟩ := Option.map_eq_some_iff.mp hrest
    obtain ⟨rfl, rfl⟩ := Prod.mk.inj heq
    exact ⟨o, s', os, hstep, hrun, rfl⟩
  · rintro ⟨o, s', os, hstep, hrun, rfl⟩
    simp only [run, hstep, Option.bind_some, hrun, Option.map_some]

/-- **What every step preserves holds after every run.** -/
theorem run_preserves {I : σ → Prop}
    (hstep : ∀ s i o s', I s → step s i = some (o, s') → I s') (hs : I s)
    (hrun : run step s inputs = some (answers, t)) : I t := by
  induction inputs generalizing s answers with
  | nil =>
    obtain ⟨-, rfl⟩ := Prod.mk.inj (Option.some.inj hrun)
    exact hs
  | cons i inputs ih =>
    obtain ⟨o, s', os, hone, hrest, -⟩ := run_cons_eq_some.mp hrun
    exact ih (hstep s i o s' hs hone) hrest

/-- What every step preserves unless it gives a certain answer holds after every run in which
that answer is not given. -/
theorem run_preserves_or {I : σ → Prop} {a : ω}
    (hstep : ∀ s i o s', I s → step s i = some (o, s') → I s' ∨ o = a) (hs : I s)
    (hrun : run step s inputs = some (answers, t)) : I t ∨ a ∈ answers := by
  induction inputs generalizing s answers with
  | nil =>
    obtain ⟨-, rfl⟩ := Prod.mk.inj (Option.some.inj hrun)
    exact Or.inl hs
  | cons i inputs ih =>
    obtain ⟨o, s', os, hone, hrest, rfl⟩ := run_cons_eq_some.mp hrun
    rcases hstep s i o s' hs hone with hs' | rfl
    · exact (ih hs' hrest).imp_right (List.mem_cons_of_mem _)
    · exact Or.inr List.mem_cons_self

/-- **A map that commutes with every step commutes with every run**, on the states that
satisfy an invariant. -/
theorem run_commutes {I : σ → Prop} {f : σ → σ}
    (hstep : ∀ s i o s', I s → step s i = some (o, s') → I s')
    (hcommutes : ∀ s i, I s → step (f s) i = (step s i).map fun (o, s') => (o, f s')) (hs : I s)
    (inputs : List ι) :
    run step (f s) inputs = (run step s inputs).map fun (os, t) => (os, f t) := by
  induction inputs generalizing s with
  | nil => rfl
  | cons i inputs ih =>
    rw [run, run, hcommutes s i hs]
    rcases hone : step s i with _ | ⟨o, s'⟩
    · rfl
    · simp only [Option.map_some, Option.bind_some, ih (hstep s i o s' hs hone)]
      rcases run step s' inputs with _ | ⟨os, t⟩ <;> rfl

/-- What every step preserves holds after every run, when no step fails. -/
theorem foldl_preserves {step : σ → ι → σ} {I : σ → Prop} (hstep : ∀ s i, I s → I (step s i))
    (hs : I s) (inputs : List ι) : I (inputs.foldl step s) := by
  induction inputs generalizing s with
  | nil => exact hs
  | cons i inputs ih => exact ih (hstep s i hs)

end Machine
