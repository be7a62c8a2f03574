import SliceDispatch.Proofs.AlikeCandidates
import SliceDispatch.Proofs.References

namespace SliceDispatch

variable (f : NodeId → NodeId)

namespace Expr

mutual

def rename : Expr → Expr
  | .subPlan node => .subPlan (f node)
  | .binary op left right => .binary op left.rename right.rename
  | .unary op operand => .unary op operand.rename
  | .call function args => .call function (renameAll args)
  | .inList expr items negated => .inList expr.rename (renameAll items) negated
  | .and members => .and (renameAll members)
  | .or members => .or (renameAll members)
  | e => e

def renameAll : List Expr → List Expr
  | [] => []
  | e :: es => e.rename :: renameAll es

end

theorem renameAll_eq_map (es : List Expr) : renameAll f es = es.map (rename f) := by
  induction es with
  | nil => rfl
  | cons e es ih => rw [renameAll, ih, List.map_cons]

mutual

theorem subPlans_rename : ∀ e : Expr, (e.rename f).subPlans = e.subPlans.map f
  | .column _ | .literal _ | .param _ | .subPlan _ => rfl
  | .binary _ left right => by
    rw [rename, subPlans, subPlans, subPlans_rename left, subPlans_rename right, List.map_append]
  | .unary _ operand => by rw [rename, subPlans, subPlans, subPlans_rename operand]
  | .inList expr items _ => by
    rw [rename, subPlans, subPlans, subPlans_rename expr, subPlansAll_renameAll items,
      List.map_append]
  | .call _ args => by rw [rename, subPlans, subPlans, subPlansAll_renameAll args]
  | .and members | .or members => by
    rw [rename, subPlans, subPlans, subPlansAll_renameAll members]

theorem subPlansAll_renameAll : ∀ es : List Expr,
    subPlansAll (renameAll f es) = (subPlansAll es).map f
  | [] => rfl
  | e :: es => by
    rw [renameAll, subPlansAll, subPlansAll, subPlans_rename e, subPlansAll_renameAll es,
      List.map_append]

end

end Expr

namespace Candidates

variable {column : Column} {family : HashFamily}

theorem refersTo_rename (e : Expr) : refersTo column (e.rename f) = refersTo column e := by
  cases e <;> simp [refersTo, Expr.rename]

theorem ofEquality_rename (e : Expr) : ofEquality family (e.rename f) = ofEquality family e := by
  cases e <;> simp [ofEquality, Expr.rename]

mutual

theorem ofPredicate_rename : ∀ e : Expr,
    ofPredicate column family (e.rename f) = ofPredicate column family e
  | .and members => by rw [Expr.rename, ofPredicate, ofPredicate, meetAll_renameAll]
  | .or members => by rw [Expr.rename, ofPredicate, ofPredicate, joinAll_renameAll]
  | .binary .eq left right => by
    simp only [Expr.rename, ofPredicate, refersTo_rename, ofEquality_rename]
  | .inList expr items false => by
    simp only [Expr.rename, ofPredicate, refersTo_rename, Expr.renameAll_eq_map, List.foldl_map,
      ofEquality_rename]
  | .unary .isNull operand => by simp only [Expr.rename, ofPredicate, refersTo_rename]
  | .literal _ | .column _ | .param _ => rfl
  | .binary .notEq _ _ | .binary .lt _ _ | .binary .ltEq _ _ | .binary .gt _ _
  | .binary .gtEq _ _ | .binary .add _ _ | .binary .sub _ _ | .binary .mul _ _ | .binary .div _ _
  | .unary .not _ | .unary .neg _ | .unary .isNotNull _ | .inList _ _ true | .subPlan _
  | .call _ _ => by simp only [Expr.rename, ofPredicate]

theorem meetAll_renameAll (acc : Candidates) : ∀ es : List Expr,
    meetAll column family acc (Expr.renameAll f es) = meetAll column family acc es
  | [] => rfl
  | e :: es => by
    have he := ofPredicate_rename e
    have ih := fun acc => meetAll_renameAll acc es
    cases e with
    | and inner => simp only [Expr.renameAll, Expr.rename, meetAll, meetAll_renameAll acc inner, ih]
    | _ => simp_all only [Expr.renameAll, Expr.rename, meetAll]

theorem joinAll_renameAll (acc : Candidates) : ∀ es : List Expr,
    joinAll column family acc (Expr.renameAll f es) = joinAll column family acc es
  | [] => rfl
  | e :: es => by
    rw [Expr.renameAll, joinAll, joinAll, ofPredicate_rename e, joinAll_renameAll _ es]

end

end Candidates

/-- A predicate decides a scan whatever its sub-plans are named, and by the distribution alone that
the entry can rely on. -/
theorem ScanDecision.ofEntry_rename {catalog catalog' : Catalog} {entry : RangeEntry}
    (h : ∀ table, entry.table = some table →
      catalog.distribution? table = catalog'.distribution? table)
    (factor : UInt64) (predicate : Option Expr) :
    ofEntry catalog' factor entry (predicate.map (Expr.rename f)) =
      ofEntry catalog factor entry predicate := by
  have hdistribution : distribution? catalog' entry = distribution? catalog entry := by
    unfold distribution?
    cases ht : entry.table with
    | none => rfl
    | some table => simp only [Option.bind_some, h table ht]
  cases predicate with
  | none => simp [ofEntry_eq]
  | some p =>
    have htold : ∀ column family, Candidates.told column family (p.rename f) =
        Candidates.told column family p := by
      intro column family
      rw [Candidates.told, Candidates.ofPredicate_rename, Candidates.told]
    rw [Option.map_some, ofEntry_eq_of_told_eq htold]
    simp only [ofEntry_eq, hdistribution]

def Kind.rename : Kind → Kind
  | .join method condition => .join method (condition.map (Expr.rename f))
  | .indexScan method range condition => .indexScan method range (condition.map (Expr.rename f))
  | .subPlan plan isInit args => .subPlan (f plan) isInit (args.map (Expr.rename f))
  | kind => kind

def Node.rename (n : Node) : Node where
  kind := n.kind.rename f
  qual := n.qual.map (Expr.rename f)
  targets := n.targets.map (Expr.rename f)
  children := n.children.map f
  initPlans := n.initPlans.map f

def SliceEffect.rename : SliceEffect → SliceEffect
  | .scan range predicate => .scan range (predicate.map (Expr.rename f))
  | .subPlan plan isInit => .subPlan (f plan) isInit
  | effect => effect

namespace Node

theorem expressions_rename (n : Node) :
    (n.rename f).expressions = n.expressions.map (Expr.rename f) := by
  have hkind : (n.kind.rename f).expressions = n.kind.expressions.map (Expr.rename f) := by
    cases n.kind <;> simp [Kind.rename, Kind.expressions, Option.toList_map]
  simp [expressions, rename, hkind, Option.toList_map]

theorem owned_rename (n : Node) : (n.rename f).owned = n.owned.map f := by
  simp only [owned, expressions_rename, List.flatMap_map, Expr.subPlans_rename, List.map_append,
    List.map_flatMap]
  rfl

theorem effect_rename (n : Node) : (n.rename f).effect = n.effect.rename f := by
  unfold effect
  simp only [rename]
  cases n.kind <;> rfl

end Node
end SliceDispatch
