import SliceDispatch.Distribution
import SliceDispatch.Expr.Canonical

namespace SliceDispatch

/-- The values that a column can have in the rows a predicate keeps. A candidate is a literal, or a
parameter that stands for the value it will be bound to. -/
inductive Candidates where
  | unconstrained
  /-- Nothing but these; without any, no row is kept. -/
  | among (values : List Expr)
deriving Inhabited

namespace Candidates

def addNew (values : List Expr) (e : Expr) : List Expr :=
  if values.contains e then values else values ++ [e]

/-- Candidates under both of two predicates. Parameters may have equal values without being equal, so
a side that has some is not compared: the constant side stays whole, or else the first. -/
def meet : Candidates → Candidates → Candidates
  | .unconstrained, c => c
  | c, .unconstrained => c
  | .among a, .among b =>
    if !b.all Expr.isConstant then .among a
    else if !a.all Expr.isConstant then .among b
    else .among (a.filter b.contains)

def join : Candidates → Candidates → Candidates
  | .among a, .among b => .among (b.foldl addNew a)
  | _, _ => .unconstrained

/-- Candidates of a column that equals `e`. Nothing equals NULL, and a literal that the family
cannot hash may equal values of other types. -/
def ofEquality (family : HashFamily) : Expr → Candidates
  | .literal .null => .among []
  | .literal value => if family.accepts value then .among [.literal value] else .unconstrained
  | .param number => .among [.param number]
  | _ => .unconstrained

/-- Whether an expression is a reference that may denote the column. -/
def refersTo (column : Column) : Expr → Bool
  | .column c => c.agrees column
  | _ => false

mutual

/-- Candidates of a column under a predicate. -/
def ofPredicate (column : Column) (family : HashFamily) : Expr → Candidates
  | .and members => meetAll column family .unconstrained members
  | .or members => joinAll column family (.among []) members
  | .binary .eq left right =>
    if refersTo column left then ofEquality family right
    else if refersTo column right then ofEquality family left
    else .unconstrained
  | .inList expr items false =>
    if refersTo column expr then
      items.foldl (fun acc item => acc.join (ofEquality family item)) (.among [])
    else .unconstrained
  | .unary .isNull operand =>
    if refersTo column operand then .among [.literal .null] else .unconstrained
  | .literal (.bool false) | .literal .null => .among []
  | _ => .unconstrained

/-- Narrows `acc` by each conjunct in turn, going into the members of inner conjunctions. -/
def meetAll (column : Column) (family : HashFamily) (acc : Candidates) : List Expr → Candidates
  | [] => acc
  | .and inner :: rest => meetAll column family (meetAll column family acc inner) rest
  | e :: rest => meetAll column family (acc.meet (ofPredicate column family e)) rest

def joinAll (column : Column) (family : HashFamily) (acc : Candidates) : List Expr → Candidates
  | [] => acc
  | e :: rest => joinAll column family (acc.join (ofPredicate column family e)) rest

end

theorem meetAll_eq_foldl (column : Column) (family : HashFamily) (acc : Candidates) :
    ∀ es : List Expr, meetAll column family acc es =
      ((Expr.conjunctsAll es).map (ofPredicate column family)).foldl meet acc
  | [] => rfl
  | e :: es => by
    have ih := fun acc => meetAll_eq_foldl column family acc es
    cases e with
    | and inner =>
      simp [meetAll, meetAll_eq_foldl column family acc inner, ih, Expr.conjunctsAll,
        Expr.conjuncts]
    | _ => simp [meetAll, ih, Expr.conjunctsAll, Expr.conjuncts]

theorem ofPredicate_and (column : Column) (family : HashFamily) (members : List Expr) :
    ofPredicate column family (.and members) =
      ((Expr.and members).conjuncts.map (ofPredicate column family)).foldl meet .unconstrained := by
  simp [ofPredicate, meetAll_eq_foldl, Expr.conjuncts]

theorem joinAll_eq_foldl (column : Column) (family : HashFamily) (acc : Candidates)
    (es : List Expr) :
    joinAll column family acc es = (es.map (ofPredicate column family)).foldl join acc := by
  induction es generalizing acc with
  | nil => rfl
  | cons e es ih => simp [joinAll, ih]

theorem ofPredicate_or (column : Column) (family : HashFamily) (members : List Expr) :
    ofPredicate column family (.or members) =
      (members.map (ofPredicate column family)).foldl join (.among []) := by
  simp [ofPredicate, joinAll_eq_foldl]

end Candidates
end SliceDispatch
