import SliceDispatch.Scalar

namespace SliceDispatch

structure Table where
  schema : String
  name : String
deriving DecidableEq, Inhabited

/-- The qualified name; two tables may share it when a name holds a dot. -/
def Table.render (t : Table) : String := t.schema ++ "." ++ t.name

/-- A column of the range entry with alias `qualifier`, or of any entry when there is none. -/
structure Column where
  qualifier : Option String
  name : String
  ordinal : UInt32
deriving DecidableEq, Inhabited

namespace Column

/-- Whether both may denote one column: the names agree, and so do the qualifiers if both have one.
The ordinal plays no part. -/
def agrees (a b : Column) : Bool :=
  a.name == b.name &&
    match a.qualifier, b.qualifier with
    | some s, some t => s == t
    | _, _ => true

def render (c : Column) : String :=
  match c.qualifier with
  | some q => q ++ "." ++ c.name
  | none => c.name

end Column

structure NodeId where
  index : UInt32
deriving DecidableEq, Hashable, Inhabited

namespace NodeId

instance : Ord NodeId := ⟨compareOn index⟩

instance : Std.TransOrd NodeId := inferInstanceAs (Std.TransCmp (compareOn index))

instance : Std.LawfulEqOrd NodeId where
  eq_of_compare {a b} h := by
    cases a; cases b
    exact congrArg NodeId.mk (Std.LawfulEqOrd.eq_of_compare h)

def render (id : NodeId) : String := "#" ++ toString id.index.toNat

end NodeId

inductive BinaryOp where
  | eq | notEq | lt | ltEq | gt | gtEq | add | sub | mul | div
deriving DecidableEq, Inhabited

inductive UnaryOp where
  | not | neg | isNull | isNotNull
deriving DecidableEq, Inhabited

inductive Expr where
  | column (column : Column)
  | literal (value : Scalar)
  | param (number : UInt32)
  | subPlan (node : NodeId)
  | binary (op : BinaryOp) (left right : Expr)
  | unary (op : UnaryOp) (operand : Expr)
  | call (function : String) (args : List Expr)
  | inList (expr : Expr) (items : List Expr) (negated : Bool)
  | and (members : List Expr)
  | or (members : List Expr)
deriving Inhabited

namespace Expr

def isConstant : Expr → Bool
  | .literal _ => true
  | _ => false

mutual

def subPlans : Expr → List NodeId
  | .column _ | .literal _ | .param _ => []
  | .subPlan node => [node]
  | .binary _ left right => left.subPlans ++ right.subPlans
  | .unary _ operand => operand.subPlans
  | .call _ args => subPlansAll args
  | .inList expr items _ => expr.subPlans ++ subPlansAll items
  | .and members | .or members => subPlansAll members

def subPlansAll : List Expr → List NodeId
  | [] => []
  | e :: es => e.subPlans ++ subPlansAll es

end

mutual

/-- The members of a conjunction, those of its conjunctive members in their place. -/
def conjuncts : Expr → List Expr
  | .and members => conjunctsAll members
  | e => [e]

def conjunctsAll : List Expr → List Expr
  | [] => []
  | e :: es => e.conjuncts ++ conjunctsAll es

end

mutual

/-- Equality up to equality of the literals. -/
def same : Expr → Expr → Bool
  | .column a, .column b => a == b
  | .literal a, .literal b => a.same b
  | .param a, .param b => a == b
  | .subPlan a, .subPlan b => a == b
  | .binary f a b, .binary g c d => f == g && a.same c && b.same d
  | .unary f a, .unary g b => f == g && a.same b
  | .call f as, .call g bs => f == g && sameAll as bs
  | .inList a as m, .inList b bs n => a.same b && sameAll as bs && m == n
  | .and as, .and bs => sameAll as bs
  | .or as, .or bs => sameAll as bs
  | _, _ => false

def sameAll : List Expr → List Expr → Bool
  | [], [] => true
  | a :: as, b :: bs => a.same b && sameAll as bs
  | _, _ => false

end

instance : BEq Expr := ⟨same⟩

def equals (left right : Expr) : Expr := .binary .eq left right

def oneOf (expr : Expr) (items : List Expr) : Expr := .inList expr items false

end Expr
end SliceDispatch
