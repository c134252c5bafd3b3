import Mathlib.Data.Finset.Card
import Mathlib.Tactic

/-! Runs of a partial step function. A system is a function `step : σ → ε → Option σ` that says
which events a state accepts and what they do; a run is a list of accepted events, and every step
of it may be asked to meet a condition on the state it is taken in. The condition is what a result
assumes of the users of the system, and it is a parameter, so that one induction serves all. -/

namespace StepRun

variable {σ ε : Type*}

/-- The events `tr` are accepted one after the other from `s`, each where `C` allows it, and lead
to the state in the last argument. -/
inductive Run (step : σ → ε → Option σ) (C : σ → ε → Prop) (s : σ) : List ε → σ → Prop
  | nil : Run step C s [] s
  | snoc {tr : List ε} {t u : σ} {e : ε} :
      Run step C s tr t → C t e → step t e = some u → Run step C s (tr ++ [e]) u

variable {step : σ → ε → Option σ} {C C' : σ → ε → Prop} {s t : σ} {tr : List ε}

/-- A guarded step is taken only where the guard holds. -/
theorem guarded {p : Prop} [Decidable p] (h : (if p then some s else none) = some t) : p ∧ s = t := by
  obtain ⟨hp, h⟩ := Option.ite_none_right_eq_some.mp h
  exact ⟨hp, Option.some.inj h⟩

/-- What holds at the start and is kept by every allowed step holds at the end of every run. -/
theorem Run.invariant {P : σ → Prop} (h : Run step C s tr t) (h0 : P s)
    (hstep : ∀ a e b, P a → C a e → step a e = some b → P b) : P t := by
  induction h with
  | nil => exact h0
  | snoc _ hC hs ih => exact hstep _ _ _ ih hC hs

/-- The same for a property of the state together with the events so far. -/
theorem Run.invariant_trace {P : List ε → σ → Prop} (h : Run step C s tr t) (h0 : P [] s)
    (hstep : ∀ l a e b, P l a → C a e → step a e = some b → P (l ++ [e]) b) : P tr t := by
  induction h with
  | nil => exact h0
  | snoc _ hC hs ih => exact hstep _ _ _ _ ih hC hs

theorem Run.mono (h : Run step C s tr t) (hC : ∀ a e, C a e → C' a e) : Run step C' s tr t := by
  induction h with
  | nil => exact .nil
  | snoc _ hc hs ih => exact .snoc ih (hC _ _ hc) hs

theorem Run.trans {u : σ} {tr' : List ε} (h : Run step C s tr t) (h' : Run step C t tr' u) :
    Run step C s (tr ++ tr') u := by
  induction h' with
  | nil => simpa using h
  | snoc _ hc hs ih =>
    rw [← List.append_assoc]
    exact .snoc ih hc hs

/-- Events that a relation allows one after the other. -/
inductive Steps {τ : Type*} (R : τ → ε → τ → Prop) (a : τ) : List ε → τ → Prop
  | nil : Steps R a [] a
  | snoc {tr : List ε} {b c : τ} {e : ε} : Steps R a tr b → R b e c → Steps R a (tr ++ [e]) c

/-- A system whose every step is a step of an abstract one does what the abstract one allows. -/
theorem Run.simulates {τ : Type*} {R : τ → ε → τ → Prop} {P : σ → Prop} {f : σ → τ} (h : Run step C s tr t)
    (h0 : P s) (hstep : ∀ a e b, P a → C a e → step a e = some b → P b ∧ R (f a) e (f b)) :
    P t ∧ Steps R (f s) tr (f t) := by
  induction h with
  | nil => exact ⟨h0, .nil⟩
  | snoc _ hC hs ih =>
    obtain ⟨hP, hsteps⟩ := ih
    obtain ⟨hP', hR⟩ := hstep _ _ _ hP hC hs
    exact ⟨hP', .snoc hsteps hR⟩

/-- Running a list of events, none of which may be refused or break the condition. -/
def exec (step : σ → ε → Option σ) (C : σ → ε → Prop) [∀ a e, Decidable (C a e)] : σ → List ε → Option σ
  | s, [] => some s
  | s, e :: tr => if C s e then (step s e).bind fun t => exec step C t tr else none

theorem run_of_exec [∀ a e, Decidable (C a e)] : ∀ {tr : List ε} {s t : σ},
    exec step C s tr = some t → Run step C s tr t
  | [], s, t, h => by
    cases Option.some.inj h
    exact .nil
  | e :: tr, s, t, h => by
    obtain ⟨hC, h⟩ := Option.ite_none_right_eq_some.mp h
    obtain ⟨u, hu, htr⟩ := Option.bind_eq_some_iff.mp h
    have h1 : Run step C s ([] ++ [e]) u := .snoc .nil hC hu
    exact h1.trans (run_of_exec htr)

/-- The state an accepted list of events leads to is reached by a run. -/
theorem run_get [∀ a e, Decidable (C a e)] (h : (exec step C s tr).isSome) :
    Run step C s tr ((exec step C s tr).get h) :=
  run_of_exec (Option.some_get h).symm

end StepRun
