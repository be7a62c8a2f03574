import SliceDispatch.Proofs.Cutting

namespace SliceDispatch.Slicing

/-- `y` does what `x` does, unless `x` stops with a fault that is excused: both stop with one fault,
or both give results, which are related. -/
inductive Tracks {α β : Type} (excused : Fault → Prop) (R : α → β → Prop) :
    Except Fault α → Except Fault β → Prop
  | excused {f y} : excused f → Tracks excused R (.error f) y
  | fault {f} : Tracks excused R (.error f) (.error f)
  | ok {a b} : R a b → Tracks excused R (.ok a) (.ok b)

namespace Tracks

variable {α β γ δ : Type} {excused : Fault → Prop} {R : α → β → Prop} {S : γ → δ → Prop}

theorem bind {x : Except Fault α} {y : Except Fault β} {f : α → Except Fault γ}
    {g : β → Except Fault δ} (h : Tracks excused R x y)
    (k : ∀ a b, R a b → Tracks excused S (f a) (g b)) : Tracks excused S (x >>= f) (y >>= g) := by
  cases h with
  | excused hf => exact .excused hf
  | fault => exact .fault
  | ok hab => exact k _ _ hab

theorem map {x : Except Fault α} {y : Except Fault β} {f : α → γ} {g : β → δ}
    (h : Tracks excused R x y) (k : ∀ a b, R a b → S (f a) (g b)) :
    Tracks excused S (f <$> x) (g <$> y) := by
  cases h with
  | excused hf => exact .excused hf
  | fault => exact .fault
  | ok hab => exact .ok (k _ _ hab)

theorem refl (excused : Fault → Prop) (x : Except Fault α) : Tracks excused Eq x x := by
  cases x with
  | error f => exact .fault
  | ok a => exact .ok rfl

end Tracks

/-- Each step of a cut by the second input does what the step by the first does. -/
structure Lockstep (input input' : Input) (excused : Fault → Prop)
    (R : Slicing → Slicing → Prop) : Prop where
  plan : input.plan = input'.plan
  start : R start start
  scan : ∀ {s t}, R s t → ∀ entry predicate, Tracks excused R
    (s.inform (ScanDecision.ofEntry input.catalog input.config.combinationFactor entry predicate))
    (t.inform (ScanDecision.ofEntry input'.catalog input'.config.combinationFactor entry predicate))
  full : ∀ {s t}, R s t → Tracks excused R (s.inform .full) (t.inform .full)
  enter : ∀ {s t}, R s t → R s.enter t.enter
  leave : ∀ {s t}, R s t → ∀ id counted, Tracks excused R (s.leave id counted) (t.leave id counted)
  adopt : ∀ {s t}, R s t → ∀ root owner id,
    Tracks excused R (s.adopt root owner id) (t.adopt root owner id)
  leaveRoot : ∀ {s t}, R s t → Tracks excused R (leaveRoot input s) (leaveRoot input' t)
  depth : ∀ {s t}, R s t → s.slices.depth = t.slices.depth

theorem Tracks.eq_of_not_excused {α : Type} {excused : Fault → Prop} {x y : Except Fault α}
    (h : Tracks excused Eq x y) (hx : ∀ f, x = .error f → ¬excused f) : y = x := by
  cases h with
  | excused hf => exact absurd hf (hx _ rfl)
  | fault => rfl
  | ok hab => rw [hab]

theorem lockstep_of_factor (input : Input) {config : Config} (excused : Fault → Prop)
    (h : config.combinationFactor = input.config.combinationFactor) :
    Lockstep input { input with config } excused Eq where
  plan := rfl
  start := rfl
  scan := by
    rintro s _ rfl entry predicate
    rw [h]
    exact .refl _ _
  full := by
    rintro s _ rfl
    exact .refl _ _
  enter := congrArg Slicing.enter
  leave := by
    rintro s _ rfl id counted
    exact .refl _ _
  adopt := by
    rintro s _ rfl root owner id
    exact .refl _ _
  leaveRoot := by
    rintro s _ rfl
    exact .refl _ _
  depth := by
    rintro s _ rfl
    rfl

namespace Lockstep

variable {input input' : Input} {excused : Fault → Prop} {R : Slicing → Slicing → Prop}
  {visit visit' : NodeId → Slicing → Except Fault Slicing} {s t : Slicing}

theorem cutOwned (h : Lockstep input input' excused R)
    (hvisit : ∀ id {s t}, R s t → Tracks excused R (visit id s) (visit' id t)) (hst : R s t)
    (root owner : NodeId) (before ids : List NodeId) :
    Tracks excused R (cutOwned root owner visit before ids s)
      (cutOwned root owner visit' before ids t) := by
  induction ids generalizing before s t with
  | nil => exact .ok hst
  | cons id ids ih =>
    rw [Slicing.cutOwned, Slicing.cutOwned]
    split
    · exact .fault
    · refine (h.adopt hst root owner id).bind fun u v huv => ?_
      exact (hvisit id huv).bind fun _ _ hst => ih hst (id :: before)

theorem arrive (h : Lockstep input input' excused R)
    (hvisit : ∀ id {s t}, R s t → Tracks excused R (visit id s) (visit' id t)) (hst : R s t)
    (id : NodeId) (effect : SliceEffect) :
    Tracks excused R (arrive input visit id s effect) (arrive input' visit' id t effect) := by
  cases effect with
  | relay => exact .ok hst
  | scan range predicate =>
    simp only [Slicing.arrive, h.plan]
    cases input'.plan.range? range with
    | none => exact .fault
    | some entry => exact h.scan hst entry predicate
  | everywhere => exact h.full hst
  | motion => exact (h.full hst).map fun _ _ => h.enter
  | subPlan plan isInit =>
    cases isInit with
    | true => exact hvisit plan (h.enter hst)
    | false => exact (hvisit plan hst).map fun _ _ => h.enter
  | unrecognized tag => exact .fault

theorem depart (h : Lockstep input input' excused R) (hst : R s t) (id : NodeId)
    (effect : SliceEffect) : Tracks excused R (s.depart id effect) (t.depart id effect) := by
  cases effect with
  | motion | subPlan => exact h.leave hst id _
  | _ => exact .ok hst

/-- The cuts stay in step as long as the first has levels left; then its fault must be excused,
unless the second is out of levels too and has the same limit to report. -/
theorem cut (h : Lockstep input input' excused R) {levels levels' : Nat} (hle : levels ≤ levels')
    (hdeep : excused (.tooDeep input.config.maxPlanDepth) ∨
      levels = levels' ∧ input.config.maxPlanDepth = input'.config.maxPlanDepth)
    (id : NodeId) (hst : R s t) :
    Tracks excused R (cut input levels id s) (cut input' levels' id t) := by
  induction levels generalizing levels' id s t with
  | zero =>
    rcases hdeep with hexcused | ⟨rfl, hlimit⟩
    · exact .excused hexcused
    · rw [Slicing.cut, Slicing.cut, hlimit]
      exact .fault
  | succ levels ih =>
    obtain ⟨below, rfl⟩ : ∃ below, levels' = below + 1 := ⟨levels' - 1, by omega⟩
    have hvisit : ∀ id {s t}, R s t →
        Tracks excused R (Slicing.cut input levels id s) (Slicing.cut input' below id t) := by
      intro id s t hst
      refine ih (by omega) (hdeep.imp_right fun hequal => ?_) id hst
      exact ⟨Nat.succ.inj hequal.1, hequal.2⟩
    rw [cut_succ, cut_succ, h.plan]
    cases input'.plan.node? id with
    | none => exact .fault
    | some n =>
      refine (h.arrive hvisit hst id n.effect).bind fun u v huv => ?_
      refine (h.cutOwned hvisit huv _ id [] n.owned).bind fun u v huv => ?_
      exact h.depart huv id n.effect

/-- The runs stay in step if the first has the lower limit on depth, and its fault at the limit is
excused unless the limits are the same. -/
theorem run (h : Lockstep input input' excused R)
    (hle : input.config.maxPlanDepth ≤ input'.config.maxPlanDepth)
    (hdeep : excused (.tooDeep input.config.maxPlanDepth) ∨
      input.config.maxPlanDepth = input'.config.maxPlanDepth) :
    Tracks excused R (run input) (run input') := by
  have hlevels : input.config.maxPlanDepth.toNat + 1 ≤ input'.config.maxPlanDepth.toNat + 1 :=
    Nat.succ_le_succ (UInt64.le_iff_toNat_le.1 hle)
  unfold Slicing.run
  rw [← h.plan]
  refine (h.cut hlevels (hdeep.imp_right fun heq => ⟨by rw [heq], heq⟩) _ h.start).bind
    fun s t hst => ?_
  refine (h.leaveRoot hst).bind fun s t hst => ?_
  rw [h.depth hst]
  split
  · exact .ok hst
  · exact .fault

end Lockstep
end SliceDispatch.Slicing
