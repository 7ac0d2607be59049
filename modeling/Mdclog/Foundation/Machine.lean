import Mathlib.Tactic.Common

/-! Machines that take one labelled step after another. -/
namespace Foundation

/-- A step has no result where it cannot be taken. -/
structure Machine (σ α : Type) where
  init : σ
  step : σ → α → Option σ

namespace Machine
variable {σ α : Type} (machine : Machine σ α) (may : σ → α → Prop)

/-- The runs in which every step is one that `may` be taken in its state. -/
inductive Run : List α → σ → Prop where
  | start : Run [] machine.init
  | step {labels : List α} {label : α} {s s' : σ} (run : Run labels s) (hmay : may s label)
      (hstep : machine.step s label = some s') : Run (labels ++ [label]) s'

variable {machine may}

/-- What holds at the start and is kept by every step holds in every state reached. -/
theorem Run.invariant {inv : σ → Prop} {labels : List α} {s : σ} (h : machine.Run may labels s)
    (hinit : inv machine.init)
    (hstep : ∀ {s label s'}, may s label → machine.step s label = some s' → inv s → inv s') :
    inv s := by
  induction h with
  | start => exact hinit
  | step _ hmay hs ih => exact hstep hmay hs ih

/-- Where `may` can be decided, a run goes on by taking its steps. -/
theorem Run.append [∀ s label, Decidable (may s label)] {labels later : List α} {s s' : σ}
    (h : machine.Run may labels s)
    (hlater : later.foldlM
      (fun s label => if may s label then machine.step s label else none) s = some s') :
    machine.Run may (labels ++ later) s' := by
  induction later generalizing labels s with
  | nil =>
    cases hlater
    rwa [List.append_nil]
  | cons label later ih =>
    rw [List.foldlM_cons, Option.bind_eq_bind, Option.bind_eq_some_iff] at hlater
    obtain ⟨s₁, hstep, hrest⟩ := hlater
    rw [Option.ite_none_right_eq_some] at hstep
    rw [show labels ++ label :: later = labels ++ [label] ++ later by simp]
    exact ih (h.step hstep.1 hstep.2) hrest

/-- Without a condition on the steps, any steps that can be taken go on. -/
theorem Run.continue {labels later : List α} {label : α} {s s₁ s' : σ}
    (h : machine.Run (fun _ _ => True) labels s) (hstep : machine.step s label = some s₁)
    (hlater : later.foldlM machine.step s₁ = some s') :
    machine.Run (fun _ _ => True) (labels ++ label :: later) s' := by
  refine h.append ?_
  simp only [if_true, List.foldlM_cons, Option.bind_eq_bind, hstep, Option.bind_some]
  exact hlater

theorem Run.of_steps [∀ s label, Decidable (may s label)] {labels : List α} {s : σ}
    (h : labels.foldlM (fun s label => if may s label then machine.step s label else none)
      machine.init = some s) : machine.Run may labels s := Run.append .start h

end Machine

end Foundation
