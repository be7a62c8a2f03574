import SliceDispatch.Json.Shape
import SliceDispatch.Session
import SliceDispatch.Wire.Annotations
import SliceDispatch.Wire.Catalog
import SliceDispatch.Wire.Plan

namespace SliceDispatch

open Json (Draft Refusal Shape)

def Scalar.shape : Shape :=
  .choice [("Null", none), ("Bool", some .flag), ("Int64", some .int64), ("Float64", some .double),
    ("Utf8", some .text), ("Date", some .int32)]

def Table.shape : Shape :=
  .record [{ name := "schema", shape := .text }, { name := "name", shape := .text }]

def Column.shape : Shape :=
  .record [{ name := "table", shape := .text, nullable := true, optional := true },
    { name := "name", shape := .text }, { name := "index", shape := .uint32 }]

def BinaryOp.shape : Shape :=
  .named ([.eq, .notEq, .lt, .ltEq, .gt, .gtEq, .add, .sub, .mul, .div].map BinaryOp.name)

def UnaryOp.shape : Shape := .named ([.not, .neg, .isNull, .isNotNull].map UnaryOp.name)

def Expr.shape : Shape :=
  .choice [("Column", some Column.shape), ("Literal", some Scalar.shape), ("Param", some .uint32),
    ("SubPlan", some .uint32),
    ("BinaryOp", some (.record [{ name := "op", shape := BinaryOp.shape },
      { name := "left", shape := .self }, { name := "right", shape := .self }])),
    ("UnaryOp", some (.record [{ name := "op", shape := UnaryOp.shape },
      { name := "operand", shape := .self }])),
    ("Function", some (.record [{ name := "name", shape := .text },
      { name := "args", shape := .list .self }])),
    ("InList", some (.record [{ name := "expr", shape := .self },
      { name := "list", shape := .list .self }, { name := "negated", shape := .flag }])),
    ("And", some (.list .self)), ("Or", some (.list .self))]

def HashFamily.shape : Shape :=
  .named ([.integer, .float, .text, .bool, .date].map HashFamily.name)

def KeyColumn.shape : Shape :=
  .record [{ name := "column", shape := Column.shape },
    { name := "opfamily", shape := HashFamily.shape }]

def Distribution.shape : Shape :=
  .union [("random", [{ name := "num_segments", shape := .uint64 }]),
    ("hashed", [{ name := "keys", shape := .list KeyColumn.shape },
      { name := "num_segments", shape := .uint64 }]),
    ("replicated", [{ name := "num_segments", shape := .uint64 }])]

def StoredCatalog.shape : Shape :=
  .record [{ name := "policies", shape := .dictionary Distribution.shape, optional := true },
    { name := "numSegments", shape := .uint64 }]

def MotionType.shape : Shape :=
  .named ([.gather, .hash, .broadcast, .explicit].map MotionType.name)

namespace Kind

def conditionField (name : String) : Json.Field Shape :=
  { name, shape := .self, nullable := true, optional := true }

def rangeField : Json.Field Shape := { name := "scan_rel", shape := .uint32 }

def operators (ops : List Operator) : List (String × List (Json.Field Shape)) :=
  ops.map fun op => (op.tag, [])

def joins (methods : List JoinMethod) : List (String × List (Json.Field Shape)) :=
  methods.map fun method => (method.tag, [conditionField "join_qual"])

def indexScans (methods : List IndexMethod) : List (String × List (Json.Field Shape)) :=
  methods.map fun method => (method.tag, [rangeField, conditionField method.field])

def unplacedScans (scans : List UnplacedScan) : List (String × List (Json.Field Shape)) :=
  scans.map fun scan => (scan.tag, [rangeField])

def derivedScans (scans : List DerivedScan) : List (String × List (Json.Field Shape)) :=
  scans.map fun scan => (scan.tag, [])

/-- The kinds and their fields. The place of a kind is its number. -/
def shapes : List (String × List (Json.Field Shape)) :=
  operators [.result, .append, .mergeAppend, .lockRows, .modifyTable, .bitmapAnd, .bitmapOr,
      .subqueryScan, .valuesScan, .material, .repetition] ++
    joins [.nestLoop, .merge, .hash] ++
    operators [.aggregate, .sort, .unique, .hash, .setOp, .limit, .windowAggregate,
      .tableFunctionScan, .recursiveUnion, .partitionSelector, .splitUpdate] ++
    [("seq_scan", [rangeField])] ++
    indexScans [.index, .indexOnly, .bitmapIndex, .bitmapHeap] ++
    unplacedScans [.external, .tid] ++
    derivedScans [.function, .workTable] ++
    unplacedScans [.foreign] ++
    derivedScans [.sharedInput] ++
    [("motion", [{ name := "motion_type", shape := MotionType.shape }]),
      ("sub_plan", [{ name := "plan", shape := .uint32 }, { name := "is_init_plan", shape := .flag },
        { name := "args", shape := .list .self, optional := true }]),
      ("unrecognized", [{ name := "tag", shape := .text }])]

end Kind

def Node.shape : Shape :=
  .extended
    [Kind.conditionField "qual", { name := "target_list", shape := .list .self, optional := true },
      { name := "children", shape := .list .uint32, optional := true },
      { name := "init_plans", shape := .list .uint32, optional := true }]
    Kind.shapes

def RangeKind.shape : Shape :=
  .named ([.relation, .subquery, .function, .values, .cte].map RangeKind.name)

def RangeEntry.shape : Shape :=
  .record [{ name := "kind", shape := RangeKind.shape },
    { name := "table", shape := Table.shape, nullable := true, optional := true },
    { name := "alias", shape := .text },
    { name := "force_dist_random", shape := .flag, optional := true }]

def Plan.shape : Shape :=
  .record [{ name := "arena", shape := .list Node.shape }, { name := "root", shape := .uint32 },
    { name := "range_table", shape := .list RangeEntry.shape, optional := true }]

structure Request where
  catalog : StoredCatalog
  plan : Plan

namespace Request

def shape : Shape :=
  .record [{ name := "catalog", shape := StoredCatalog.shape },
    { name := "plan", shape := Plan.shape }]

def ofJson? (j : Json) : Option Request := do
  let fields ← j.fields?
  return { catalog := ← Json.required "catalog" StoredCatalog.ofJson? fields
           plan := ← Json.required "plan" (Plan.ofJson? false) fields }

/-- The request that a draft of its body describes. -/
def ofDraft (d : Draft) : Except Refusal Request := do
  match ofJson? (← shape.conform Expr.shape d) with
  | some request => return request
  | none => .error .undecodable

end Request

/-- The JSON form of a command is an object whose one field names the command. -/
def Session.Command.ofJson? (bits : Bool) (name : String) (j : Json) : Option Session.Command := do
  match name with
  | "add_table" =>
    let fields ← j.fields?
    let table ← Json.required "table" Table.ofJson? fields
    return .addTable table (← Json.required "policy" Distribution.ofJson? fields)
  | "lookup" => return .findTable (← Table.ofJson? j)
  | "set_num_segments" => return .setSegments (← j.uint64?)
  | "set_config" => return .setConfig (← Config.ofJson? j)
  | "add_node" => return .addNode (← Node.ofJson? bits j)
  | "get_node" => return .findNode (← NodeId.ofJson? j)
  | "add_range" => return .addRange (← RangeEntry.ofJson? j)
  | "range_entry" => return .findRange (← j.uint32?)
  | "resolve" =>
    let fields ← j.fields?
    let range ← Json.required "index" Json.uint32? fields
    return .resolve range (← Json.optional "qual" (Expr.ofJson? bits) fields)
  | "assign" => return .annotate (← NodeId.ofJson? j)
  | _ => none

end SliceDispatch
