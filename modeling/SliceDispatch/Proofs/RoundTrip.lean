import SliceDispatch.Wire.Annotations
import SliceDispatch.Wire.Catalog
import SliceDispatch.Wire.Plan

namespace SliceDispatch

namespace Json

variable {α : Type} {encode : α → Json} {decode : Json → Option α} {name : String} {j : Json}
  {fields : List (String × Json)}

theorem lookup?_of_mem (hd : (fields.map Prod.fst).Nodup) (h : (name, j) ∈ fields) :
    lookup? name fields = some (some j) := by
  induction fields with
  | nil => cases h
  | cons field fields ih =>
    obtain ⟨n, i⟩ := field
    obtain ⟨hn, hd⟩ := List.nodup_cons.1 hd
    rw [lookup?]
    rcases List.mem_cons.1 h with h | h
    · cases h
      have hany : fields.any (·.1 == name) = false := by
        apply List.any_eq_false.2
        intro field hfield heq
        exact hn (List.mem_map.2 ⟨field, hfield, beq_iff_eq.1 heq⟩)
      simp [hany]
    · have hne : n ≠ name := by
        rintro rfl
        exact hn (List.mem_map.2 ⟨_, h, rfl⟩)
      rw [if_neg hne, ih hd h]

theorem required_cons (name n : String) (decode : Json → Option α) (j : Json)
    (fields : List (String × Json)) : required name decode ((n, j) :: fields) =
      if n = name then if fields.any (·.1 == name) then none else decode j
      else required name decode fields := by
  rw [required, lookup?]
  by_cases hn : n = name
  · cases fields.any (·.1 == name) <;> simp [hn]
  · rw [if_neg hn, if_neg hn, required]

theorem required_eq {a : α} (hl : lookup? name fields = some (some j)) (h : decode j = some a) :
    required name decode fields = some a := by
  rw [required, hl]
  exact h

theorem defaulted_eq {a default : α} (hl : lookup? name fields = some (some j))
    (h : decode j = some a) : defaulted name default decode fields = some a := by
  rw [defaulted, hl]
  exact h

/-- A value that is not written as null is told from a missing one. -/
theorem optional_eq {a : Option α} (hl : lookup? name fields = some (some (ofOption encode a)))
    (hnull : ∀ a, encode a ≠ .null) (h : ∀ a, decode (encode a) = some a) :
    optional name decode fields = some a := by
  rw [optional, hl]
  cases a with
  | none => rfl
  | some a => simp [ofOption, hnull a, h a]

theorem int64?_int (n : Int64) : (Json.int n.toInt).int64? = some n := by
  have := n.toInt_lt
  have := n.le_toInt
  rw [int64?, if_pos (by omega), Int64.ofInt_toInt]

theorem int32?_int (n : Int32) : (Json.int n.toInt).int32? = some n := by
  have := n.toInt_lt
  have := n.le_toInt
  rw [int32?, if_pos (by omega), Int32.ofInt_toInt]

end Json

theorem Binary64.ofJson?_toJson (x : Binary64) : ofJson? true x.toJson = some x := by
  simp [ofJson?, toJson, Hexadecimal.word?_ofWord]

theorem Scalar.ofJson?_toJson (v : Scalar) : ofJson? true v.toJson = some v := by
  cases v with
  | int n => simp [ofJson?, toJson, Json.int64?_int]
  | date n => simp [ofJson?, toJson, Json.int32?_int]
  | double x => simp [ofJson?, toJson, Binary64.ofJson?_toJson]
  | _ => simp [ofJson?, toJson, Json.bool?, Json.text?]

example : Scalar.toJson (.double .negZero) = .object [("Float64", .text "8000000000000000")] := rfl

theorem Table.ofJson?_toJson (t : Table) : ofJson? t.toJson = some t := by
  simp only [ofJson?, Option.bind_eq_bind, Option.bind_eq_some_iff]
  refine ⟨_, rfl, t.schema, ?_, t.name, ?_, rfl⟩
  · simp [Json.required_cons, Json.text?]
  · simp [Json.required_cons, Json.text?]

theorem Column.ofJson?_toJson (c : Column) : ofJson? c.toJson = some c := by
  simp only [ofJson?, Option.bind_eq_bind, Option.bind_eq_some_iff]
  refine ⟨_, rfl, c.qualifier, ?_, c.name, ?_, c.ordinal, ?_, rfl⟩
  · cases c.qualifier <;> simp [Json.optional, Json.lookup?, Json.ofOption, Json.text?]
  · simp [Json.required_cons, Json.text?]
  · simp [Json.required_cons, Json.uint32?_ofUInt32]

theorem NodeId.ofJson?_toJson (id : NodeId) : ofJson? id.toJson = some id := by
  simp [ofJson?, toJson, Json.uint32?_ofUInt32]

theorem HashFamily.ofJson?_name (family : HashFamily) :
    ofJson? (.text family.name) = some family := by
  cases family <;> rfl

theorem KeyColumn.ofJson?_toJson (k : KeyColumn) : ofJson? k.toJson = some k := by
  simp only [ofJson?, Option.bind_eq_bind, Option.bind_eq_some_iff]
  refine ⟨_, rfl, k.column, ?_, k.family, ?_, rfl⟩
  · simp [Json.required_cons, Column.ofJson?_toJson]
  · simp [Json.required_cons, HashFamily.ofJson?_name]

theorem Distribution.ofJson?_toJson (d : Distribution) : ofJson? d.toJson = some d := by
  simp only [ofJson?, Option.bind_eq_bind, Option.bind_eq_some_iff]
  cases d with
  | random segments =>
    refine ⟨_, rfl, "random", ?_, Option.bind_eq_some_iff.2 ⟨segments, ?_, rfl⟩⟩
    · simp [Json.required_cons, Json.text?]
    · simp [Json.required_cons, Json.uint64?_ofUInt64]
  | hashed keys segments =>
    have hkeys := Json.listOf_ofList KeyColumn.ofJson?_toJson keys
    refine ⟨_, rfl, "hashed", ?_, Option.bind_eq_some_iff.2 ⟨keys, ?_,
      Option.bind_eq_some_iff.2 ⟨segments, ?_, rfl⟩⟩⟩
    · simp [Json.required_cons, Json.text?]
    · simp [Json.required_cons, hkeys]
    · simp [Json.required_cons, Json.uint64?_ofUInt64]
  | replicated segments =>
    refine ⟨_, rfl, "replicated", ?_, Option.bind_eq_some_iff.2 ⟨segments, ?_, rfl⟩⟩
    · simp [Json.required_cons, Json.text?]
    · simp [Json.required_cons, Json.uint64?_ofUInt64]

theorem Config.ofJson?_toJson (c : Config) : ofJson? c.toJson = some c := by
  simp only [ofJson?, Option.bind_eq_bind, Option.bind_eq_some_iff]
  refine ⟨_, rfl, c.combinationFactor, ?_, c.maxDirectSlices, ?_, c.maxPlanDepth, ?_,
    c.logDecisions, ?_, rfl⟩
  · simp [Json.defaulted, Json.lookup?, Json.uint64?_ofUInt64]
  · simp [Json.defaulted, Json.lookup?, Json.uint64?_ofUInt64]
  · simp [Json.defaulted, Json.lookup?, Json.uint64?_ofUInt64]
  · simp [Json.defaulted, Json.lookup?, Json.bool?]

theorem RangeKind.ofJson?_name (kind : RangeKind) : ofJson? (.text kind.name) = some kind := by
  cases kind <;> rfl

theorem RangeEntry.ofJson?_toJson (e : RangeEntry) : ofJson? e.toJson = some e := by
  simp only [ofJson?, Option.bind_eq_bind, Option.bind_eq_some_iff]
  refine ⟨_, rfl, e.kind, ?_, e.table, ?_, e.qualifier, ?_, e.forcedRandom, ?_, rfl⟩
  · simp [Json.required_cons, RangeKind.ofJson?_name]
  · exact Json.optional_eq (by simp [Json.lookup?]) (by simp [Table.toJson]) Table.ofJson?_toJson
  · simp [Json.required_cons, Json.text?]
  · simp [Json.defaulted, Json.lookup?, Json.bool?]

theorem BinaryOp.ofJson?_name (op : BinaryOp) : ofJson? (.text op.name) = some op := by
  cases op <;> rfl

theorem UnaryOp.ofJson?_name (op : UnaryOp) : ofJson? (.text op.name) = some op := by
  cases op <;> rfl

namespace Expr

theorem listOfJson?_eq_mapM (bits : Bool) (js : List Json) :
    listOfJson? bits js = js.mapM (ofJson? bits) := by
  induction js with
  | nil => simp [listOfJson?]
  | cons j js ih => simp [listOfJson?, ih]

theorem fieldOfJson?_eq_required (bits : Bool) (name : String) (fields : List (String × Json)) :
    fieldOfJson? bits name fields = Json.required name (ofJson? bits) fields := by
  induction fields with
  | nil => rw [fieldOfJson?]; rfl
  | cons field fields ih => rw [fieldOfJson?, ih, Json.required_cons]

theorem listFieldOfJson?_eq_required (bits : Bool) (name : String)
    (fields : List (String × Json)) : listFieldOfJson? bits name fields =
      Json.required name (Json.listOf (ofJson? bits)) fields := by
  induction fields with
  | nil => rw [listFieldOfJson?]; rfl
  | cons field fields ih =>
    obtain ⟨n, j⟩ := field
    rw [Json.required_cons, ← ih]
    cases j with
    | array items => rw [listFieldOfJson?, listOfJson?_eq_mapM, Json.listOf]
    | _ => simp [listFieldOfJson?, Json.listOf]

mutual

theorem ofJson?_toJson : ∀ e : Expr, ofJson? true e.toJson = some e
  | .column c => by simp [ofJson?, toJson, Column.ofJson?_toJson]
  | .literal v => by simp [ofJson?, toJson, Scalar.ofJson?_toJson]
  | .param number => by simp [ofJson?, toJson, Json.uint32?_ofUInt32]
  | .subPlan node => by simp [ofJson?, toJson, NodeId.ofJson?_toJson]
  | .binary op left right => by
    simp [ofJson?, toJson, fieldOfJson?_eq_required, Json.required_cons,
      BinaryOp.ofJson?_name, ofJson?_toJson left, ofJson?_toJson right]
  | .unary op operand => by
    simp [ofJson?, toJson, fieldOfJson?_eq_required, Json.required_cons,
      UnaryOp.ofJson?_name, ofJson?_toJson operand]
  | .call function args => by
    simp [ofJson?, toJson, listFieldOfJson?_eq_required, Json.required_cons, Json.text?,
      Json.listOf, mapM_listToJson args]
  | .inList expr items negated => by
    simp [ofJson?, toJson, fieldOfJson?_eq_required, listFieldOfJson?_eq_required,
      Json.required_cons, Json.bool?, Json.listOf, ofJson?_toJson expr, mapM_listToJson items]
  | .and members => by simp [ofJson?, toJson, listOfJson?_eq_mapM, mapM_listToJson members]
  | .or members => by simp [ofJson?, toJson, listOfJson?_eq_mapM, mapM_listToJson members]

theorem mapM_listToJson : ∀ es : List Expr, (listToJson es).mapM (ofJson? true) = some es
  | [] => rfl
  | e :: es => by
    rw [listToJson, List.mapM_cons, ofJson?_toJson e, mapM_listToJson es]
    rfl

end

theorem toJson_ne_null (e : Expr) : e.toJson ≠ .null := by
  cases e <;> simp [toJson]

end Expr

theorem MotionType.ofJson?_name (type : MotionType) :
    ofJson? (.text type.name) = some type := by
  cases type <;> rfl

namespace Kind

/-- A kind is read from its tag and its fields, whatever fields stand beside them. -/
theorem ofFields?_of_mem {kind : Kind} {fields : List (String × Json)}
    (hd : (fields.map Prod.fst).Nodup) (htype : ("type", .text kind.tag) ∈ fields)
    (hmem : ∀ field ∈ kind.fields, field ∈ fields) : ofFields? true fields = some kind := by
  have htype : Json.required "type" Json.text? fields = some kind.tag :=
    Json.required_eq (Json.lookup?_of_mem hd htype) rfl
  have hfound : ∀ field ∈ kind.fields, Json.lookup? field.1 fields = some (some field.2) :=
    fun field hfield => Json.lookup?_of_mem hd (hmem field hfield)
  rw [ofFields?, htype]
  cases kind with
  | operator op => cases op <;> rfl
  | derivedScan scan => cases scan <;> rfl
  | join method condition =>
    have hcondition := Json.optional_eq (hfound _ List.mem_cons_self) Expr.toJson_ne_null
      Expr.ofJson?_toJson
    cases method <;> simp [tag, JoinMethod.tag, joinOfFields?, hcondition]
  | seqScan range =>
    have hrange := Json.required_eq (hfound _ List.mem_cons_self) (Json.uint32?_ofUInt32 range)
    simp [tag, hrange]
  | unplacedScan scan range =>
    have hrange := Json.required_eq (hfound _ List.mem_cons_self) (Json.uint32?_ofUInt32 range)
    cases scan <;> simp [tag, UnplacedScan.tag, unplacedScanOfFields?, hrange]
  | indexScan method range condition =>
    obtain ⟨hrange, hcondition⟩ := List.forall_mem_cons.1 hfound
    have hrange := Json.required_eq hrange (Json.uint32?_ofUInt32 range)
    have hcondition := Json.optional_eq (hcondition _ List.mem_cons_self) Expr.toJson_ne_null
      Expr.ofJson?_toJson
    cases method <;> simp_all [tag, IndexMethod.tag, indexScanOfFields?]
  | motion type =>
    have htype : Json.required "motion_type" MotionType.ofJson? fields = some type :=
      Json.required_eq (hfound _ List.mem_cons_self) (MotionType.ofJson?_name type)
    simp [tag, htype]
  | subPlan plan isInit args =>
    obtain ⟨hplan, hfound⟩ := List.forall_mem_cons.1 hfound
    obtain ⟨hinit, hargs⟩ := List.forall_mem_cons.1 hfound
    have hplan := Json.required_eq hplan (NodeId.ofJson?_toJson plan)
    have hinit : Json.required "is_init_plan" Json.bool? fields = some isInit :=
      Json.required_eq hinit rfl
    have hargs : Json.defaulted "args" [] (Json.listOf (Expr.ofJson? true)) fields = some args :=
      Json.defaulted_eq (hargs _ List.mem_cons_self) (Json.listOf_ofList Expr.ofJson?_toJson args)
    simp [tag, hplan, hinit, hargs]
  | unrecognized kindTag =>
    have htag : Json.required "tag" Json.text? fields = some kindTag :=
      Json.required_eq (hfound _ List.mem_cons_self) rfl
    simp [tag, htag]

end Kind

namespace Node

def commonNames : List String := ["qual", "target_list", "children", "init_plans"]

theorem nodup_names (kind : Kind) : ("type" :: kind.fields.map Prod.fst ++ commonNames).Nodup := by
  cases kind with
  | indexScan method range condition =>
    cases method <;> simp [Kind.fields, IndexMethod.field, commonNames]
  | _ => simp [Kind.fields, commonNames]

theorem exists_common (n : Node) : ∃ common, common.map Prod.fst = commonNames ∧
    n.toJson = .object (("type", .text n.kind.tag) :: n.kind.fields ++ common) :=
  ⟨_, rfl, rfl⟩

theorem ofJson?_toJson (n : Node) : ofJson? true n.toJson = some n := by
  rw [toJson]
  -- of the fields it only matters which there are, not in which order
  generalize hfields : _ :: n.kind.fields ++ _ = fields
  have hd : (fields.map Prod.fst).Nodup := by
    rw [← hfields]
    simpa [commonNames] using nodup_names n.kind
  have hfound : ∀ {name j}, (name, j) ∈ fields → Json.lookup? name fields = some (some j) :=
    Json.lookup?_of_mem hd
  have hkind : Kind.ofFields? true fields = some n.kind := by
    refine Kind.ofFields?_of_mem hd (by simp [← hfields]) fun field hfield => ?_
    simp [← hfields, hfield]
  have hqual : Json.optional "qual" (Expr.ofJson? true) fields = some n.qual :=
    Json.optional_eq (hfound (by simp [← hfields])) Expr.toJson_ne_null Expr.ofJson?_toJson
  have htargets : Json.defaulted "target_list" [] (Json.listOf (Expr.ofJson? true)) fields =
      some n.targets :=
    Json.defaulted_eq (hfound (by simp [← hfields]))
      (Json.listOf_ofList Expr.ofJson?_toJson n.targets)
  have hids : ∀ {name ids}, (name, Json.ofList NodeId.toJson ids) ∈ fields →
      Json.defaulted name [] (Json.listOf NodeId.ofJson?) fields = some ids := fun hmem =>
    Json.defaulted_eq (hfound hmem) (Json.listOf_ofList NodeId.ofJson?_toJson _)
  have hchildren := @hids "children" n.children (by simp [← hfields])
  have hinitPlans := @hids "init_plans" n.initPlans (by simp [← hfields])
  simp only [ofJson?, Option.bind_eq_bind, Option.bind_eq_some_iff]
  exact ⟨_, rfl, _, hkind, _, hqual, _, htargets, _, hchildren, _, hinitPlans, rfl⟩

end Node

/-- Decoding undoes encoding, and so whatever decodes stays the same when it is encoded and decoded
again. Doubles are encoded as their bits, and may also be decoded from numbers. -/
def RoundTrips {α : Type} (encode : α → Json) (decode : Bool → Json → Option α) : Prop :=
  (∀ a, decode true (encode a) = some a) ∧
    ∀ bits j, (decode bits j).bind (fun a => decode true (encode a)) = decode bits j

theorem roundTrips_of_forall {α : Type} {encode : α → Json} {decode : Bool → Json → Option α}
    (h : ∀ a, decode true (encode a) = some a) : RoundTrips encode decode := by
  refine ⟨h, fun bits j => ?_⟩
  cases decode bits j with
  | none => rfl
  | some a => exact h a

/-- The JSON forms of doubles, expressions, nodes, range entries, distributions and limits round
trip. The fields of the kind of a node stand beside its type, and no name occurs twice. -/
theorem json_roundTrips : RoundTrips Binary64.toJson Binary64.ofJson? ∧
    RoundTrips Expr.toJson Expr.ofJson? ∧ RoundTrips Node.toJson Node.ofJson? ∧
    RoundTrips RangeEntry.toJson (fun _ => RangeEntry.ofJson?) ∧
    RoundTrips Distribution.toJson (fun _ => Distribution.ofJson?) ∧
    RoundTrips Config.toJson (fun _ => Config.ofJson?) ∧
    ∀ n : Node, ("type" :: n.kind.fields.map Prod.fst ++ Node.commonNames).Nodup ∧
      ∃ common, common.map Prod.fst = Node.commonNames ∧
        n.toJson = .object (("type", .text n.kind.tag) :: n.kind.fields ++ common) :=
  ⟨roundTrips_of_forall Binary64.ofJson?_toJson, roundTrips_of_forall Expr.ofJson?_toJson,
    roundTrips_of_forall Node.ofJson?_toJson, roundTrips_of_forall RangeEntry.ofJson?_toJson,
    roundTrips_of_forall Distribution.ofJson?_toJson, roundTrips_of_forall Config.ofJson?_toJson,
    fun n => ⟨Node.nodup_names n.kind, n.exists_common⟩⟩

end SliceDispatch
