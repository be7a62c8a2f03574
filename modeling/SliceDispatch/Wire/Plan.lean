import SliceDispatch.Plan
import SliceDispatch.Wire.Expr

namespace SliceDispatch

def Operator.tag : Operator → String
  | .result => "result"
  | .append => "append"
  | .mergeAppend => "merge_append"
  | .lockRows => "lock_rows"
  | .modifyTable => "modify_table"
  | .bitmapAnd => "bitmap_and"
  | .bitmapOr => "bitmap_or"
  | .subqueryScan => "subquery_scan"
  | .valuesScan => "values_scan"
  | .material => "material"
  | .repetition => "repeat"
  | .aggregate => "agg"
  | .sort => "sort"
  | .unique => "unique"
  | .hash => "hash"
  | .setOp => "set_op"
  | .limit => "limit"
  | .windowAggregate => "window_agg"
  | .tableFunctionScan => "table_function_scan"
  | .recursiveUnion => "recursive_union"
  | .partitionSelector => "partition_selector"
  | .splitUpdate => "split_update"

def Operator.ofTag? : String → Option Operator
  | "result" => some .result
  | "append" => some .append
  | "merge_append" => some .mergeAppend
  | "lock_rows" => some .lockRows
  | "modify_table" => some .modifyTable
  | "bitmap_and" => some .bitmapAnd
  | "bitmap_or" => some .bitmapOr
  | "subquery_scan" => some .subqueryScan
  | "values_scan" => some .valuesScan
  | "material" => some .material
  | "repeat" => some .repetition
  | "agg" => some .aggregate
  | "sort" => some .sort
  | "unique" => some .unique
  | "hash" => some .hash
  | "set_op" => some .setOp
  | "limit" => some .limit
  | "window_agg" => some .windowAggregate
  | "table_function_scan" => some .tableFunctionScan
  | "recursive_union" => some .recursiveUnion
  | "partition_selector" => some .partitionSelector
  | "split_update" => some .splitUpdate
  | _ => none

def MotionType.name : MotionType → String
  | .gather => "gather"
  | .hash => "hash"
  | .broadcast => "broadcast"
  | .explicit => "explicit"

def MotionType.ofName? : String → Option MotionType
  | "gather" => some .gather
  | "hash" => some .hash
  | "broadcast" => some .broadcast
  | "explicit" => some .explicit
  | _ => none

def MotionType.ofJson? (j : Json) : Option MotionType := j.name?.bind ofName?

def JoinMethod.tag : JoinMethod → String
  | .nestLoop => "nest_loop"
  | .merge => "merge_join"
  | .hash => "hash_join"

def IndexMethod.tag : IndexMethod → String
  | .index => "index_scan"
  | .indexOnly => "index_only_scan"
  | .bitmapIndex => "bitmap_index_scan"
  | .bitmapHeap => "bitmap_heap_scan"

def IndexMethod.field : IndexMethod → String
  | .bitmapHeap => "bitmap_qual_orig"
  | _ => "index_qual_orig"

def UnplacedScan.tag : UnplacedScan → String
  | .external => "external_scan"
  | .tid => "tid_scan"
  | .foreign => "foreign_scan"

def DerivedScan.tag : DerivedScan → String
  | .function => "function_scan"
  | .workTable => "work_table_scan"
  | .sharedInput => "share_input_scan"

namespace Kind

def tag : Kind → String
  | .operator op => op.tag
  | .join method _ => method.tag
  | .seqScan _ => "seq_scan"
  | .indexScan method _ _ => method.tag
  | .unplacedScan scan _ => scan.tag
  | .derivedScan scan => scan.tag
  | .motion _ => "motion"
  | .subPlan _ _ _ => "sub_plan"
  | .unrecognized _ => "unrecognized"

def fields : Kind → List (String × Json)
  | .operator _ | .derivedScan _ => []
  | .join _ condition => [("join_qual", .ofOption Expr.toJson condition)]
  | .seqScan range | .unplacedScan _ range => [("scan_rel", .ofUInt32 range)]
  | .indexScan method range condition =>
    [("scan_rel", .ofUInt32 range), (method.field, .ofOption Expr.toJson condition)]
  | .motion type => [("motion_type", .text type.name)]
  | .subPlan plan isInit args =>
    [("plan", plan.toJson), ("is_init_plan", .bool isInit), ("args", .ofList Expr.toJson args)]
  | .unrecognized tag => [("tag", .text tag)]

def joinOfFields? (bits : Bool) (fields : List (String × Json)) (method : JoinMethod) :
    Option Kind := do
  return .join method (← Json.optional "join_qual" (Expr.ofJson? bits) fields)

def indexScanOfFields? (bits : Bool) (fields : List (String × Json)) (method : IndexMethod) :
    Option Kind := do
  let range ← Json.required "scan_rel" Json.uint32? fields
  return .indexScan method range (← Json.optional method.field (Expr.ofJson? bits) fields)

def unplacedScanOfFields? (fields : List (String × Json)) (scan : UnplacedScan) : Option Kind := do
  return .unplacedScan scan (← Json.required "scan_rel" Json.uint32? fields)

def ofFields? (bits : Bool) (fields : List (String × Json)) : Option Kind := do
  match ← Json.required "type" Json.text? fields with
  | "nest_loop" => joinOfFields? bits fields .nestLoop
  | "merge_join" => joinOfFields? bits fields .merge
  | "hash_join" => joinOfFields? bits fields .hash
  | "seq_scan" => return .seqScan (← Json.required "scan_rel" Json.uint32? fields)
  | "index_scan" => indexScanOfFields? bits fields .index
  | "index_only_scan" => indexScanOfFields? bits fields .indexOnly
  | "bitmap_index_scan" => indexScanOfFields? bits fields .bitmapIndex
  | "bitmap_heap_scan" => indexScanOfFields? bits fields .bitmapHeap
  | "external_scan" => unplacedScanOfFields? fields .external
  | "tid_scan" => unplacedScanOfFields? fields .tid
  | "foreign_scan" => unplacedScanOfFields? fields .foreign
  | "function_scan" => return .derivedScan .function
  | "work_table_scan" => return .derivedScan .workTable
  | "share_input_scan" => return .derivedScan .sharedInput
  | "motion" =>
    return .motion (← Json.required "motion_type" MotionType.ofJson? fields)
  | "sub_plan" =>
    let plan ← Json.required "plan" NodeId.ofJson? fields
    let isInit ← Json.required "is_init_plan" Json.bool? fields
    return .subPlan plan isInit
      (← Json.defaulted "args" [] (Json.listOf (Expr.ofJson? bits)) fields)
  | "unrecognized" => return .unrecognized (← Json.required "tag" Json.text? fields)
  | tag => return .operator (← Operator.ofTag? tag)

end Kind

def Node.toJson (n : Node) : Json :=
  .object (("type", .text n.kind.tag) :: n.kind.fields ++
    [("qual", .ofOption Expr.toJson n.qual), ("target_list", .ofList Expr.toJson n.targets),
      ("children", .ofList NodeId.toJson n.children),
      ("init_plans", .ofList NodeId.toJson n.initPlans)])

def Node.ofJson? (bits : Bool) (j : Json) : Option Node := do
  let fields ← j.fields?
  return { kind := ← Kind.ofFields? bits fields
           qual := ← Json.optional "qual" (Expr.ofJson? bits) fields
           targets := ← Json.defaulted "target_list" [] (Json.listOf (Expr.ofJson? bits)) fields
           children := ← Json.defaulted "children" [] (Json.listOf NodeId.ofJson?) fields
           initPlans := ← Json.defaulted "init_plans" [] (Json.listOf NodeId.ofJson?) fields }

def RangeKind.name : RangeKind → String
  | .relation => "relation"
  | .subquery => "subquery"
  | .function => "function"
  | .values => "values"
  | .cte => "cte"

def RangeKind.ofName? : String → Option RangeKind
  | "relation" => some .relation
  | "subquery" => some .subquery
  | "function" => some .function
  | "values" => some .values
  | "cte" => some .cte
  | _ => none

def RangeKind.ofJson? (j : Json) : Option RangeKind := j.name?.bind ofName?

def RangeEntry.toJson (e : RangeEntry) : Json :=
  .object [("kind", .text e.kind.name), ("table", .ofOption Table.toJson e.table),
    ("alias", .text e.qualifier), ("force_dist_random", .bool e.forcedRandom)]

def RangeEntry.ofJson? (j : Json) : Option RangeEntry := do
  let fields ← j.record? ["kind", "table", "alias", "force_dist_random"] 3
  return { kind := ← Json.required "kind" RangeKind.ofJson? fields
           table := ← Json.optional "table" Table.ofJson? fields
           qualifier := ← Json.required "alias" Json.text? fields
           forcedRandom := ← Json.defaulted "force_dist_random" false Json.bool? fields }

def Plan.ofJson? (bits : Bool) (j : Json) : Option Plan := do
  let fields ← j.record? ["arena", "root", "range_table"] 2
  let nodes ← Json.required "arena" (Json.listOf (Node.ofJson? bits)) fields
  let root ← Json.required "root" NodeId.ofJson? fields
  let ranges ← Json.defaulted "range_table" [] (Json.listOf RangeEntry.ofJson?) fields
  return ⟨nodes.toArray, root, ranges.toArray⟩

end SliceDispatch
