import SliceDispatch.Proofs.CandidateSoundness
import SliceDispatch.Proofs.Reshaping

namespace SliceDispatch

namespace Environment

def assign (env : Environment) (name : String) (v : Scalar) : Environment :=
  { env with column := fun c => if c.name = name then v else env.column c }

/-- The values of the columns of one name for which a predicate is true. -/
def satisfying (env : Environment) (name : String) (p : Expr) : Set Scalar :=
  {v | (env.assign name v).eval p = .bool true}

end Environment

/-- The reference denotes the key column of the entry. -/
def KeyColumn.IsNamedBy (qualifier : String) (key : KeyColumn) (c : Column) : Prop :=
  c.name = key.column.name ∧ (c.qualifier = none ∨ c.qualifier = some qualifier)

/-- Predicates on one key column of an entry, which compare it with values that can be hashed. -/
inductive KeyPredicate (qualifier : String) (key : KeyColumn) : Expr → Prop
  | columnEquals {c : Column} {v : Scalar} : key.IsNamedBy qualifier c →
      key.family.accepts v = true → KeyPredicate qualifier key (.equals (.column c) (.literal v))
  | equalsColumn {c : Column} {v : Scalar} : key.IsNamedBy qualifier c →
      key.family.accepts v = true → KeyPredicate qualifier key (.equals (.literal v) (.column c))
  | oneOf {c : Column} {vs : List Scalar} : key.IsNamedBy qualifier c →
      (∀ v ∈ vs, key.family.accepts v = true) →
      KeyPredicate qualifier key (.oneOf (.column c) (vs.map .literal))
  | isNull {c : Column} : key.IsNamedBy qualifier c →
      KeyPredicate qualifier key (.unary .isNull (.column c))
  | false : KeyPredicate qualifier key (.literal (.bool false))
  | null : KeyPredicate qualifier key (.literal .null)
  | and {members : List Expr} : members ≠ [] → (∀ p ∈ members, KeyPredicate qualifier key p) →
      KeyPredicate qualifier key (.and members)
  | or {members : List Expr} : (∀ p ∈ members, KeyPredicate qualifier key p) →
      KeyPredicate qualifier key (.or members)

namespace Scalar

variable {a b : Scalar}

theorem equal_comm (a b : Scalar) : a.equal b = b.equal a := by
  have hsame : a.same b = b.same a := by
    rw [Bool.eq_iff_iff]
    exact ⟨same_symm, same_symm⟩
  cases a <;> cases b <;> simp [equal, hsame]

theorem equal_null (a : Scalar) : a.equal .null = .null := by
  cases a <;> rfl

theorem equal_eq_true_iff (h : b ≠ .null) : a.equal b = .bool true ↔ a.same b = true := by
  refine ⟨fun heq => (same_of_equal heq).2, fun hsame => ?_⟩
  have hnull : a ≠ .null := by
    rintro rfl
    exact h (eq_null_of_same (same_symm hsame))
  cases a <;> cases b <;> simp_all [equal]

end Scalar

namespace Environment

variable {env : Environment} {name : String} {v : Scalar} {c : Column} {members : List Expr}

theorem eval_column (h : c.name = name) : (env.assign name v).eval (.column c) = v := by
  rw [eval]
  exact if_pos h

theorem satisfying_literal {w : Scalar} (h : w ≠ .bool true) :
    env.satisfying name (.literal w) = ∅ := by
  refine Set.eq_empty_iff_forall_notMem.2 fun v => ?_
  change (env.assign name v).eval _ ≠ _
  rwa [eval]

theorem mem_satisfying_equals (h : c.name = name) (w : Scalar) :
    v ∈ env.satisfying name (.equals (.column c) (.literal w)) ↔ v.equal w = .bool true := by
  change (env.assign name v).eval _ = _ ↔ _
  rw [Expr.equals, eval, eval_column h, eval]

theorem satisfying_equals_comm (left right : Expr) :
    env.satisfying name (.equals left right) = env.satisfying name (.equals right left) := by
  ext v
  change (env.assign name v).eval _ = _ ↔ (env.assign name v).eval _ = _
  rw [Expr.equals, Expr.equals, eval, eval, Scalar.equal_comm]

theorem mem_satisfying_oneOf (h : c.name = name) (ws : List Scalar) :
    v ∈ env.satisfying name (.oneOf (.column c) (ws.map .literal)) ↔
      ∃ w ∈ ws, v.equal w = .bool true := by
  change (env.assign name v).eval _ = _ ↔ _
  rw [Expr.oneOf, eval, evalAll_eq_map, Scalar.disjunction_eq_true_iff, eval_column h]
  simp [eval]

theorem mem_satisfying_isNull (h : c.name = name) :
    v ∈ env.satisfying name (.unary .isNull (.column c)) ↔ v = .null := by
  change (env.assign name v).eval _ = _ ↔ _
  rw [eval, eval_column h]
  simp

theorem mem_satisfying_and : v ∈ env.satisfying name (.and members) ↔
    ∀ p ∈ members, v ∈ env.satisfying name p := by
  change (env.assign name v).eval _ = _ ↔ _
  rw [eval, evalAll_eq_map, Scalar.conjunction_eq_true_iff]
  exact List.forall_mem_map

theorem mem_satisfying_or : v ∈ env.satisfying name (.or members) ↔
    ∃ p ∈ members, v ∈ env.satisfying name p := by
  change (env.assign name v).eval _ = _ ↔ _
  rw [eval, evalAll_eq_map, Scalar.disjunction_eq_true_iff]
  simp [satisfying]

end Environment

namespace Knowledge

variable {α : Type} {ks : List Knowledge} {s t : Set Scalar}

theorem constants_congr (h : ∀ v, v ∈ s ↔ v ∈ t) : constants s = constants t :=
  congrArg constants (Set.ext h)

theorem foldl_join_constants (as : List α) (f : α → Set Scalar) (s : Set Scalar) :
    (as.map fun a => constants (f a)).foldl join (constants s) =
      constants (s ∪ {v | ∃ a ∈ as, v ∈ f a}) := by
  induction as generalizing s with
  | nil => simp
  | cons a as ih =>
    rw [List.map_cons, List.foldl_cons]
    change (as.map fun a => constants (f a)).foldl join (constants (s ∪ f a)) = _
    rw [ih]
    exact constants_congr fun v => by simp [or_assoc]

theorem foldl_meet_constants (as : List α) (f : α → Set Scalar) (s : Set Scalar) :
    (as.map fun a => constants (f a)).foldl meet (constants s) =
      constants (s ∩ {v | ∀ a ∈ as, v ∈ f a}) := by
  induction as generalizing s with
  | nil => simp
  | cons a as ih =>
    rw [List.map_cons, List.foldl_cons]
    change (as.map fun a => constants (f a)).foldl meet (constants (s ∩ f a)) = _
    rw [ih]
    exact constants_congr fun v => by simp [and_assoc]

/-- What is said of a column by something that says nothing of it, but may be contradictory. -/
def IsTrivial (k : Knowledge) : Prop := k = .anything ∨ k = .constants ∅

theorem IsTrivial.meet {k l : Knowledge} (hk : k.IsTrivial) (hl : l.IsTrivial) :
    (k.meet l).IsTrivial := by
  rcases hk with rfl | rfl
  · rwa [anything_meet]
  · rcases hl with rfl | rfl
    · exact .inr rfl
    · exact .inr (congrArg constants (Set.empty_inter ∅))

theorem IsTrivial.join {k l : Knowledge} (hk : k.IsTrivial) (hl : l.IsTrivial) :
    (k.join l).IsTrivial := by
  rcases hk with rfl | rfl
  · exact .inl rfl
  · rwa [nothing_join]

theorem isTrivial_foldl {op : Knowledge → Knowledge → Knowledge}
    (hop : ∀ {k l : Knowledge}, k.IsTrivial → l.IsTrivial → (op k l).IsTrivial) {k : Knowledge}
    (hk : k.IsTrivial) (hks : ∀ l ∈ ks, l.IsTrivial) : (ks.foldl op k).IsTrivial := by
  induction ks generalizing k with
  | nil => exact hk
  | cons l ks ih =>
    obtain ⟨hl, hks⟩ := List.forall_mem_cons.1 hks
    exact ih (hop hk hl) hks

theorem foldl_meet_of_isTrivial (ht : t = s ∨ t = ∅)
    (hks : ∀ k ∈ ks, k = .constants s ∨ k.IsTrivial) :
    ks.foldl meet (.constants t) = .constants t ∨
      .constants ∅ ∈ ks ∧ ks.foldl meet (.constants t) = .constants ∅ := by
  induction ks generalizing t with
  | nil => exact .inl rfl
  | cons k ks ih =>
    obtain ⟨hk, hrest⟩ := List.forall_mem_cons.1 hks
    rw [List.foldl_cons, List.mem_cons]
    rcases hk with rfl | rfl | rfl
    · have hmeet : meet (.constants t) (.constants s) = .constants t := by
        rcases ht with rfl | rfl <;> simp [meet]
      rw [hmeet]
      exact (ih ht hrest).imp_right (And.imp_left .inr)
    · rw [meet_anything]
      exact (ih ht hrest).imp_right (And.imp_left .inr)
    · have hmeet : meet (.constants t) (.constants ∅) = .constants ∅ := by simp [meet]
      rw [hmeet]
      exact .inr ⟨.inl rfl, (ih (.inr rfl) hrest).elim id And.right⟩

/-- If only one of some predicates says anything of a column, then together they say what it says,
unless another one is contradictory. -/
theorem foldl_meet_of_mem (hs : .constants s ∈ ks)
    (hks : ∀ k ∈ ks, k = .constants s ∨ k.IsTrivial) :
    ks.foldl meet .anything = .constants s ∨
      .constants ∅ ∈ ks ∧ ks.foldl meet .anything = .constants ∅ := by
  have hcons : ks.foldl meet .anything = (.constants s :: ks).foldl meet .anything := by
    refine foldl_eq_of_mem_iff (fun k => ?_) .anything
    rw [List.mem_cons]
    exact ⟨.inr, Or.rec (fun hk => hk ▸ hs) id⟩
  rw [hcons]
  exact foldl_meet_of_isTrivial (.inl rfl) hks

end Knowledge

namespace Candidates

variable {qualifier : String} {key : KeyColumn} {column : Column} {family : HashFamily} {p : Expr}

theorem knowledge_ofEquality_literal {v : Scalar} (h : family.accepts v = true) :
    (ofEquality family (.literal v)).knowledge = .constants {w | w.equal v = .bool true} := by
  by_cases hnull : v = .null
  · subst hnull
    rw [ofEquality, knowledge_nil]
    refine Knowledge.constants_congr fun w => ?_
    change False ↔ w.equal .null = .bool true
    rw [Scalar.equal_null]
    simp
  · have hvalue : ofEquality family (.literal v) = .among [.literal v] := by
      cases v with
      | null => exact absurd rfl hnull
      | _ => exact if_pos h
    rw [hvalue]
    refine Knowledge.constants_congr fun w => ?_
    change w ∈ literalsIn ([v].map .literal) ↔ w.equal v = .bool true
    rw [mem_literalsIn_map, Scalar.equal_eq_true_iff hnull, Scalar.same_iff_canonical_eq,
      List.map_singleton, List.mem_singleton]

theorem refersTo_keyColumn {c : Column} (h : key.IsNamedBy qualifier c) :
    refersTo (ScanDecision.keyColumn qualifier key) (.column c) = true := by
  obtain ⟨hname, hq | hq⟩ := h <;>
    simp [refersTo, Column.agrees, ScanDecision.keyColumn, hname, hq]

theorem told_equals_literal {c : Column} {v : Scalar} (hc : key.IsNamedBy qualifier c)
    (hv : key.family.accepts v = true) (env : Environment) :
    told (ScanDecision.keyColumn qualifier key) key.family (.equals (.column c) (.literal v)) =
      .constants (env.satisfying key.column.name (.equals (.column c) (.literal v))) := by
  rw [told_columnEquals (refersTo_keyColumn hc), knowledge_ofEquality_literal hv]
  exact Knowledge.constants_congr fun w => (Environment.mem_satisfying_equals hc.1 v).symm

theorem told_contradiction (column : Column) (family : HashFamily) {w : Scalar}
    (h : w = .bool false ∨ w = .null) : told column family (.literal w) = .constants ∅ := by
  rcases h with rfl | rfl <;> rw [told, ofPredicate, knowledge_nil]

/-- What a predicate on a key column says about it are exactly the values that make it true. -/
theorem told_keyColumn (h : KeyPredicate qualifier key p) (env : Environment) :
    told (ScanDecision.keyColumn qualifier key) key.family p =
      .constants (env.satisfying key.column.name p) := by
  induction h with
  | columnEquals hc hv => exact told_equals_literal hc hv env
  | equalsColumn hc hv =>
    rw [told_equals_comm, Environment.satisfying_equals_comm]
    exact told_equals_literal hc hv env
  | @oneOf c vs hc hvs =>
    have hitems : (vs.map Expr.literal).map (fun item => (ofEquality key.family item).knowledge) =
        vs.map fun v => .constants {w | w.equal v = .bool true} := by
      rw [List.map_map]
      exact List.map_congr_left fun v hv => knowledge_ofEquality_literal (hvs v hv)
    rw [told_oneOf _ (refersTo_keyColumn hc), hitems, Knowledge.foldl_join_constants,
      Set.empty_union]
    exact Knowledge.constants_congr fun w => (Environment.mem_satisfying_oneOf hc.1 vs).symm
  | @isNull c hc =>
    rw [told, ofPredicate, if_pos (refersTo_keyColumn hc)]
    refine Knowledge.constants_congr fun w => ?_
    change w ∈ literalsIn ([.null].map .literal) ↔ _
    rw [mem_literalsIn_map, Environment.mem_satisfying_isNull hc.1]
    cases w <;> simp [Scalar.canonical]
  | false =>
    rw [told_contradiction _ _ (.inl rfl), Environment.satisfying_literal (by simp)]
  | null =>
    rw [told_contradiction _ _ (.inr rfl), Environment.satisfying_literal (by simp)]
  | @and members hne _ ih =>
    rw [told_and, List.map_congr_left ih]
    obtain ⟨p, ps, rfl⟩ := List.exists_cons_of_ne_nil hne
    rw [List.map_cons, List.foldl_cons]
    change (ps.map _).foldl Knowledge.meet (.constants _) = _
    rw [Knowledge.foldl_meet_constants]
    refine Knowledge.constants_congr fun w => ?_
    rw [Environment.mem_satisfying_and, List.forall_mem_cons]
    rfl
  | @or members _ ih =>
    rw [told_or, List.map_congr_left ih, Knowledge.foldl_join_constants, Set.empty_union]
    exact Knowledge.constants_congr fun w => Environment.mem_satisfying_or.symm

theorem refersTo_eq_false {c : Column} (h : c.name ≠ column.name) :
    refersTo column (.column c) = false := by
  simp [refersTo, Column.agrees, h]

/-- A predicate on a key column says nothing about columns of other names, unless it is
contradictory. -/
theorem isTrivial_told (h : KeyPredicate qualifier key p) (hname : key.column.name ≠ column.name) :
    (told column family p).IsTrivial := by
  have hrefers : ∀ {c : Column}, key.IsNamedBy qualifier c →
      refersTo column (.column c) = false := fun hc => refersTo_eq_false (hc.1 ▸ hname)
  induction h with
  | columnEquals hc _ | equalsColumn hc _ =>
    left
    rw [told, Expr.equals, ofPredicate, hrefers hc]
    rfl
  | oneOf hc _ =>
    left
    rw [told, Expr.oneOf, ofPredicate, hrefers hc]
    rfl
  | isNull hc =>
    left
    rw [told, ofPredicate, hrefers hc]
    rfl
  | false => exact .inr (told_contradiction _ _ (.inl rfl))
  | null => exact .inr (told_contradiction _ _ (.inr rfl))
  | and _ _ ih =>
    rw [told_and]
    exact Knowledge.isTrivial_foldl .meet (.inl rfl) (List.forall_mem_map.2 ih)
  | or _ ih =>
    rw [told_or]
    exact Knowledge.isTrivial_foldl .join (.inr rfl) (List.forall_mem_map.2 ih)

theorem exists_values_of_knowledge {c : Candidates} {s : Set Scalar}
    (h : c.knowledge = .constants s) :
    ∃ vs : List Scalar, c = .among (vs.map .literal) ∧ literalsIn (vs.map .literal) = s := by
  cases c with
  | unconstrained => cases h
  | among es =>
    cases hall : es.all Expr.isConstant with
    | false => simp [knowledge, hall] at h
    | true =>
      obtain ⟨vs, rfl⟩ := exists_literals hall
      simp only [knowledge, hall, ↓reduceIte, Knowledge.constants.injEq] at h
      exact ⟨vs, rfl, h⟩

theorem mem_of_admits {c : Candidates} {ev : Evaluation} {v : Scalar} {s : Set Scalar}
    (h : c.Admits ev v) (hc : c.knowledge = .constants s) : v ∈ s := by
  obtain ⟨vs, rfl, rfl⟩ := exists_values_of_knowledge hc
  obtain ⟨e, he, hstands⟩ := h
  obtain ⟨w, hw, rfl⟩ := List.mem_map.1 he
  cases hstands with
  | literal hwv =>
    rw [mem_literalsIn_map, ← Scalar.same_iff_canonical_eq.1 hwv]
    exact List.mem_map_of_mem hw

theorem satisfying_eq_empty (h : KeyPredicate qualifier key p)
    (hname : key.column.name ≠ column.name) (htold : told column family p = .constants ∅)
    (env : Environment) : env.satisfying key.column.name p = ∅ := by
  -- the values do not depend on other columns, which may as well all be NULL
  let env' := env.assign column.name .null
  have henv : env.satisfying key.column.name p = env'.satisfying key.column.name p :=
    Knowledge.constants.inj ((told_keyColumn h env).symm.trans (told_keyColumn h env'))
  rw [henv, Set.eq_empty_iff_forall_notMem]
  intro v hv
  have hdenotes : (env'.assign key.column.name v).evaluation.Denotes column .null := by
    intro c hagrees
    have hc : c.name = column.name := by
      simp only [Column.agrees, Bool.and_eq_true, beq_iff_eq] at hagrees
      exact hagrees.1
    change (if c.name = key.column.name then v else env'.column c) = .null
    rw [if_neg (hc ▸ hname.symm)]
    exact if_pos hc
  exact mem_of_admits (admits_ofPredicate hdenotes hv) htold

end Candidates

end SliceDispatch
