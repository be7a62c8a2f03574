import SliceDispatch.Proofs.Acceptance
import SliceDispatch.Proofs.Lockstep
import SliceDispatch.Proofs.Slices

namespace SliceDispatch

def Fault.IsTooDeep (f : Fault) : Prop := ∃ limit, f = .tooDeep limit

namespace Slicing

/-- The limit on depth has no part in any step. -/
theorem lockstep_of_depth (input : Input) (limit : UInt64) :
    Lockstep input { input with config := { input.config with maxPlanDepth := limit } }
      Fault.IsTooDeep Eq :=
  lockstep_of_factor input _ rfl

end Slicing

namespace Plan

variable {plan : Plan} {catalog : Catalog} {config : Config}

theorem limit_of_tooDeep {limit : UInt64}
    (h : plan.annotate catalog config = .error (.tooDeep limit)) : limit = config.maxPlanDepth := by
  have hmeets := Slicing.meets_run ⟨catalog, config, plan⟩
  rw [Slicing.run_of_annotate_error h] at hmeets
  exact hmeets.1

/-- With a higher limit on depth the result is the same, unless the plan was too deep before. So a
plan that is too deep for a limit is too deep for each lower one. -/
theorem annotate_of_deeper (plan : Plan) (catalog : Catalog) (config : Config) {limit : UInt64}
    (h : config.maxPlanDepth ≤ limit) :
    ((∀ l, plan.annotate catalog config ≠ .error (.tooDeep l)) →
      plan.annotate catalog { config with maxPlanDepth := limit } =
        plan.annotate catalog config) ∧
    ∀ l, plan.annotate catalog { config with maxPlanDepth := limit } = .error (.tooDeep l) →
      plan.annotate catalog config = .error (.tooDeep config.maxPlanDepth) := by
  have hrun := (Slicing.lockstep_of_depth ⟨catalog, config, plan⟩ limit).run h (.inl ⟨_, rfl⟩)
  have hannotate : Slicing.Tracks Fault.IsTooDeep Eq (plan.annotate catalog config)
      (plan.annotate catalog { config with maxPlanDepth := limit }) := by
    refine hrun.map ?_
    rintro s _ rfl
    rfl
  have hsame : (∀ l, plan.annotate catalog config ≠ .error (.tooDeep l)) →
      plan.annotate catalog { config with maxPlanDepth := limit } =
        plan.annotate catalog config := by
    intro hnot
    refine hannotate.eq_of_not_excused ?_
    rintro _ hf ⟨l, rfl⟩
    exact hnot l hf
  refine ⟨hsame, fun l hl => ?_⟩
  by_contra hnot
  have hl' := hsame fun l' hl' => hnot (limit_of_tooDeep hl' ▸ hl')
  rw [hl] at hl'
  exact hnot (limit_of_tooDeep hl'.symm ▸ hl'.symm)

def selfRunning : Plan where
  nodes := #[{ kind := .subPlan ⟨0⟩ true [] }]
  root := ⟨0⟩
  ranges := #[]

theorem annotate_deeper_sharedPlan :
    (∃ a, sharedPlan.annotate keyedCatalog { maxPlanDepth := 3 } = .ok a ∧
      sharedPlan.annotate keyedCatalog { maxPlanDepth := 1024 } = .ok a) ∧
    selfRunning.annotate keyedCatalog { maxPlanDepth := 5 } = .error (.tooDeep 5) ∧
    selfRunning.annotate keyedCatalog { maxPlanDepth := 2 } = .error (.tooDeep 2) := by
  have hdeep : selfRunning.annotate keyedCatalog { maxPlanDepth := 5 } = .error (.tooDeep 5) := rfl
  refine ⟨?_, hdeep, (annotate_of_deeper selfRunning keyedCatalog { maxPlanDepth := 2 }
    (by decide)).2 5 hdeep⟩
  obtain ⟨a, ha⟩ : ∃ a, sharedPlan.annotate keyedCatalog { maxPlanDepth := 3 } = .ok a := ⟨_, rfl⟩
  refine ⟨a, ha, ?_⟩
  rw [← ha]
  refine (annotate_of_deeper sharedPlan keyedCatalog { maxPlanDepth := 3 } (by decide)).1 ?_
  intro l hl
  cases ha.symm.trans hl

end Plan
end SliceDispatch
