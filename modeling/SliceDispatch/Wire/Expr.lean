import SliceDispatch.Expr
import SliceDispatch.Wire.Scalar

namespace SliceDispatch

def BinaryOp.name : BinaryOp → String
  | .eq => "Eq"
  | .notEq => "NotEq"
  | .lt => "Lt"
  | .ltEq => "LtEq"
  | .gt => "Gt"
  | .gtEq => "GtEq"
  | .add => "Add"
  | .sub => "Sub"
  | .mul => "Mul"
  | .div => "Div"

def BinaryOp.ofName? : String → Option BinaryOp
  | "Eq" => some .eq
  | "NotEq" => some .notEq
  | "Lt" => some .lt
  | "LtEq" => some .ltEq
  | "Gt" => some .gt
  | "GtEq" => some .gtEq
  | "Add" => some .add
  | "Sub" => some .sub
  | "Mul" => some .mul
  | "Div" => some .div
  | _ => none

def UnaryOp.name : UnaryOp → String
  | .not => "Not"
  | .neg => "Neg"
  | .isNull => "IsNull"
  | .isNotNull => "IsNotNull"

def UnaryOp.ofName? : String → Option UnaryOp
  | "Not" => some .not
  | "Neg" => some .neg
  | "IsNull" => some .isNull
  | "IsNotNull" => some .isNotNull
  | _ => none

def BinaryOp.ofJson? (j : Json) : Option BinaryOp := j.name?.bind ofName?

def UnaryOp.ofJson? (j : Json) : Option UnaryOp := j.name?.bind ofName?

namespace Expr

mutual

def toJson : Expr → Json
  | .column c => .object [("Column", c.toJson)]
  | .literal value => .object [("Literal", value.toJson)]
  | .param number => .object [("Param", .ofUInt32 number)]
  | .subPlan node => .object [("SubPlan", node.toJson)]
  | .binary op left right =>
    .object [("BinaryOp", .object [("op", .text op.name), ("left", left.toJson),
      ("right", right.toJson)])]
  | .unary op operand =>
    .object [("UnaryOp", .object [("op", .text op.name), ("operand", operand.toJson)])]
  | .call function args =>
    .object [("Function", .object [("name", .text function), ("args", .array (listToJson args))])]
  | .inList expr items negated =>
    .object [("InList", .object [("expr", expr.toJson), ("list", .array (listToJson items)),
      ("negated", .bool negated)])]
  | .and members => .object [("And", .array (listToJson members))]
  | .or members => .object [("Or", .array (listToJson members))]

def listToJson : List Expr → List Json
  | [] => []
  | e :: es => e.toJson :: listToJson es

end

mutual

def ofJson? (bits : Bool) : Json → Option Expr
  | .object [("Column", j)] => (Column.ofJson? j).map .column
  | .object [("Literal", j)] => (Scalar.ofJson? bits j).map .literal
  | .object [("Param", j)] => j.uint32?.map .param
  | .object [("SubPlan", j)] => (NodeId.ofJson? j).map .subPlan
  | .object [("BinaryOp", .object fields)] => do
    let op ← Json.required "op" BinaryOp.ofJson? fields
    let left ← fieldOfJson? bits "left" fields
    let right ← fieldOfJson? bits "right" fields
    return .binary op left right
  | .object [("BinaryOp", .array [op, left, right])] => do
    return .binary (← BinaryOp.ofJson? op) (← ofJson? bits left) (← ofJson? bits right)
  | .object [("UnaryOp", .object fields)] => do
    let op ← Json.required "op" UnaryOp.ofJson? fields
    let operand ← fieldOfJson? bits "operand" fields
    return .unary op operand
  | .object [("UnaryOp", .array [op, operand])] => do
    return .unary (← UnaryOp.ofJson? op) (← ofJson? bits operand)
  | .object [("Function", .object fields)] => do
    let function ← Json.required "name" Json.text? fields
    let args ← listFieldOfJson? bits "args" fields
    return .call function args
  | .object [("Function", .array [function, .array args])] => do
    return .call (← function.text?) (← listOfJson? bits args)
  | .object [("InList", .object fields)] => do
    let expr ← fieldOfJson? bits "expr" fields
    let items ← listFieldOfJson? bits "list" fields
    let negated ← Json.required "negated" Json.bool? fields
    return .inList expr items negated
  | .object [("InList", .array [expr, .array items, negated])] => do
    return .inList (← ofJson? bits expr) (← listOfJson? bits items) (← negated.bool?)
  | .object [("And", .array items)] => (listOfJson? bits items).map .and
  | .object [("Or", .array items)] => (listOfJson? bits items).map .or
  | _ => none

def listOfJson? (bits : Bool) : List Json → Option (List Expr)
  | [] => some []
  | j :: js => do
    let e ← ofJson? bits j
    let es ← listOfJson? bits js
    return e :: es

/-- The expression under a name that occurs once. -/
def fieldOfJson? (bits : Bool) (name : String) : List (String × Json) → Option Expr
  | [] => none
  | (n, j) :: fields =>
    if n = name then if fields.any (·.1 == name) then none else ofJson? bits j
    else fieldOfJson? bits name fields

def listFieldOfJson? (bits : Bool) (name : String) : List (String × Json) → Option (List Expr)
  | [] => none
  | (n, .array items) :: fields =>
    if n = name then if fields.any (·.1 == name) then none else listOfJson? bits items
    else listFieldOfJson? bits name fields
  | (n, _) :: fields => if n = name then none else listFieldOfJson? bits name fields

end

end Expr
end SliceDispatch
