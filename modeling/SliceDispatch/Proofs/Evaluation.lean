import SliceDispatch.Expr.Canonical

namespace SliceDispatch

/-- A value for every expression, in keeping with three-valued logic where candidates of columns are
read off. Columns, parameters and all other constructs may have any value. -/
structure Evaluation where
  value : Expr → Scalar
  literal : ∀ v, value (.literal v) = v
  of_and : ∀ {members}, value (.and members) = .bool true → ∀ e ∈ members, value e = .bool true
  of_or : ∀ {members}, value (.or members) = .bool true → ∃ e ∈ members, value e = .bool true
  of_equals : ∀ {left right}, value (.equals left right) = .bool true →
    value left ≠ .null ∧ (value left).same (value right) = true
  of_oneOf : ∀ {expr items}, value (.oneOf expr items) = .bool true →
    value expr ≠ .null ∧ ∃ item ∈ items, (value expr).same (value item) = true
  of_isNull : ∀ {operand}, value (.unary .isNull operand) = .bool true → value operand = .null

def Evaluation.Holds (ev : Evaluation) (predicate : Expr) : Prop :=
  ev.value predicate = .bool true

instance (ev : Evaluation) (predicate : Expr) : Decidable (ev.Holds predicate) :=
  inferInstanceAs (Decidable (_ = _))

/-- All references that may denote a column have the value `v`. -/
def Evaluation.Denotes (ev : Evaluation) (column : Column) (v : Scalar) : Prop :=
  ∀ c : Column, c.agrees column = true → ev.value (.column c) = v

namespace Scalar

def equal : Scalar → Scalar → Scalar
  | .null, _ | _, .null => .null
  | a, b => .bool (a.same b)

def conjunction (vs : List Scalar) : Scalar :=
  if ∃ v ∈ vs, v = .bool false then .bool false
  else if ∀ v ∈ vs, v = .bool true then .bool true
  else .null

def disjunction (vs : List Scalar) : Scalar :=
  if ∃ v ∈ vs, v = .bool true then .bool true
  else if ∀ v ∈ vs, v = .bool false then .bool false
  else .null

theorem same_of_equal {a b : Scalar} (h : a.equal b = .bool true) :
    a ≠ .null ∧ a.same b = true := by
  cases a <;> cases b <;> simp_all [equal]

theorem conjunction_eq_true_iff {vs : List Scalar} :
    conjunction vs = .bool true ↔ ∀ v ∈ vs, v = .bool true := by
  unfold conjunction
  split
  · rename_i h
    obtain ⟨v, hv, rfl⟩ := h
    simp only [bool.injEq, Bool.false_eq_true, false_iff]
    exact fun hall => by simpa using hall _ hv
  · simp

theorem disjunction_eq_true_iff {vs : List Scalar} :
    disjunction vs = .bool true ↔ ∃ v ∈ vs, v = .bool true := by
  unfold disjunction
  by_cases h : ∃ v ∈ vs, v = .bool true
  · simp only [h, ↓reduceIte]
  · simp only [h, ↓reduceIte, iff_false]
    split <;> simp

end Scalar

/-- What columns and parameters stand for, and the value of each construct that three-valued logic
leaves open. -/
structure Environment where
  column : Column → Scalar
  param : UInt32 → Scalar
  other : Expr → Scalar

namespace Environment

variable (env : Environment)

mutual

def eval : Expr → Scalar
  | .column c => env.column c
  | .literal v => v
  | .param number => env.param number
  | .binary .eq left right => (eval left).equal (eval right)
  | .unary .isNull operand => .bool (decide (eval operand = .null))
  | .inList expr items false => .disjunction ((evalAll items).map (eval expr).equal)
  | .and members => .conjunction (evalAll members)
  | .or members => .disjunction (evalAll members)
  | e => env.other e

def evalAll : List Expr → List Scalar
  | [] => []
  | e :: es => eval e :: evalAll es

end

theorem evalAll_eq_map (es : List Expr) : env.evalAll es = es.map env.eval := by
  induction es with
  | nil => rfl
  | cons e es ih => rw [evalAll, ih, List.map_cons]

/-- Evaluating expressions in an environment is an evaluation. -/
def evaluation : Evaluation where
  value := env.eval
  literal v := by rw [eval]
  of_and h := by
    rw [eval, evalAll_eq_map, Scalar.conjunction_eq_true_iff] at h
    simpa using h
  of_or h := by
    rw [eval, evalAll_eq_map, Scalar.disjunction_eq_true_iff] at h
    simpa using h
  of_equals h := by
    rw [Expr.equals, eval] at h
    exact Scalar.same_of_equal h
  of_oneOf h := by
    rw [Expr.oneOf, eval, evalAll_eq_map, Scalar.disjunction_eq_true_iff] at h
    simp only [List.map_map, List.mem_map, Function.comp_apply] at h
    obtain ⟨_, ⟨item, hitem, rfl⟩, h⟩ := h
    obtain ⟨hnull, hsame⟩ := Scalar.same_of_equal h
    exact ⟨hnull, item, hitem, hsame⟩
  of_isNull h := by
    rw [eval, Scalar.bool.injEq] at h
    exact of_decide_eq_true h

end Environment
end SliceDispatch
