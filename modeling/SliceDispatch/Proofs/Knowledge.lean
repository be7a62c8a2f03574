import SliceDispatch.Candidates
import Mathlib.Data.Multiset.Dedup
import Mathlib.Data.Multiset.Fold
import Mathlib.Data.Set.Basic

namespace SliceDispatch

/-- What is known of the values of a column. -/
inductive Knowledge where
  | anything
  /-- Some of the candidates are parameters. -/
  | parameters
  | constants (values : Set Scalar)

namespace Knowledge

def meet : Knowledge → Knowledge → Knowledge
  | .anything, k | k, .anything => k
  | .parameters, k | k, .parameters => k
  | .constants s, .constants t => .constants (s ∩ t)

def join : Knowledge → Knowledge → Knowledge
  | .anything, _ | _, .anything => .anything
  | .parameters, _ | _, .parameters => .parameters
  | .constants s, .constants t => .constants (s ∪ t)

instance : Std.Commutative meet where
  comm a b := by cases a <;> cases b <;> simp [meet, Set.inter_comm]

instance : Std.Associative meet where
  assoc a b c := by cases a <;> cases b <;> cases c <;> simp [meet, Set.inter_assoc]

instance : Std.IdempotentOp meet where
  idempotent a := by cases a <;> simp [meet]

instance : Std.Commutative join where
  comm a b := by cases a <;> cases b <;> simp [join, Set.union_comm]

instance : Std.Associative join where
  assoc a b c := by cases a <;> cases b <;> cases c <;> simp [join, Set.union_assoc]

instance : Std.IdempotentOp join where
  idempotent a := by cases a <;> simp [join]

theorem anything_meet (k : Knowledge) : meet .anything k = k := by cases k <;> rfl

theorem meet_anything (k : Knowledge) : meet k .anything = k := by cases k <;> rfl

theorem join_anything (k : Knowledge) : join k .anything = .anything := by cases k <;> rfl

theorem nothing_join (k : Knowledge) : join (.constants ∅) k = k := by cases k <;> simp [join]

/-- Folding a semilattice operation over a list depends on its members only. -/
theorem foldl_eq_of_mem_iff {op : Knowledge → Knowledge → Knowledge} [Std.Commutative op]
    [Std.Associative op] [Std.IdempotentOp op] {as bs : List Knowledge} (h : ∀ k, k ∈ as ↔ k ∈ bs)
    (k : Knowledge) : as.foldl op k = bs.foldl op k := by
  classical
  have hdedup : (as : Multiset Knowledge).dedup = (bs : Multiset Knowledge).dedup :=
    Multiset.dedup_ext.2 h
  rw [← Multiset.coe_fold_l, ← Multiset.coe_fold_l, ← Multiset.fold_dedup_idem, hdedup,
    Multiset.fold_dedup_idem]

end Knowledge

namespace Expr

theorem isConstant_congr {a b : Expr} (h : (a == b) = true) : a.isConstant = b.isConstant := by
  change a.same b = true at h
  cases a <;> cases b <;> first | rfl | cases h

theorem contains_congr {a b : Expr} (h : (a == b) = true) (es : List Expr) :
    es.contains a = es.contains b := by
  rw [Bool.eq_iff_iff, List.contains_iff_exists_mem_beq, List.contains_iff_exists_mem_beq]
  exact exists_congr fun e => and_congr_right fun _ =>
    ⟨BEq.trans (BEq.symm h), BEq.trans h⟩

theorem all_isConstant_iff {es : List Expr} :
    es.all isConstant = true ↔ ∀ e, es.contains e = true → e.isConstant = true := by
  rw [List.all_eq_true]
  constructor
  · intro h e he
    obtain ⟨c, hc, hec⟩ := List.contains_iff_exists_mem_beq.1 he
    rw [isConstant_congr hec]
    exact h c hc
  · intro h e he
    exact h e (List.contains_iff_exists_mem_beq.2 ⟨e, he, BEq.rfl⟩)

end Expr

namespace Candidates

variable {column : Column} {family : HashFamily} {as bs : List Expr} {e : Expr}

/-- The values that literals of a list have, up to equality. -/
def literalsIn (es : List Expr) : Set Scalar := {v | es.contains (.literal v) = true}

def knowledge : Candidates → Knowledge
  | .unconstrained => .anything
  | .among es => if es.all Expr.isConstant then .constants (literalsIn es) else .parameters

theorem knowledge_nil : (among []).knowledge = .constants ∅ := by simp [knowledge, literalsIn]

theorem contains_addNew (a : Expr) :
    (addNew as e).contains a = (as.contains a || e == a) := by
  unfold addNew
  split
  · rename_i he
    cases hea : e == a with
    | false => simp
    | true => rw [← Expr.contains_congr hea, he]; rfl
  · simp [BEq.comm]

theorem contains_foldl_addNew (a : Expr) :
    (bs.foldl addNew as).contains a = (as.contains a || bs.contains a) := by
  induction bs generalizing as with
  | nil => simp
  | cons b bs ih =>
    rw [List.foldl_cons, ih, contains_addNew, List.contains_cons, Bool.or_assoc, BEq.comm]

theorem contains_filter_contains (a : Expr) :
    (as.filter bs.contains).contains a = (as.contains a && bs.contains a) := by
  rw [Bool.eq_iff_iff, Bool.and_eq_true, List.contains_iff_exists_mem_beq,
    List.contains_iff_exists_mem_beq]
  constructor
  · rintro ⟨c, hc, hac⟩
    obtain ⟨hmem, hbs⟩ := List.mem_filter.1 hc
    exact ⟨⟨c, hmem, hac⟩, by rwa [Expr.contains_congr hac]⟩
  · rintro ⟨⟨c, hc, hac⟩, hbs⟩
    exact ⟨c, List.mem_filter.2 ⟨hc, by rwa [← Expr.contains_congr hac]⟩, hac⟩

theorem literalsIn_filter : literalsIn (as.filter bs.contains) = literalsIn as ∩ literalsIn bs := by
  ext v
  change (as.filter bs.contains).contains (.literal v) = true ↔ _
  rw [contains_filter_contains, Bool.and_eq_true]
  rfl

theorem literalsIn_foldl_addNew :
    literalsIn (bs.foldl addNew as) = literalsIn as ∪ literalsIn bs := by
  ext v
  change (bs.foldl addNew as).contains (.literal v) = true ↔ _
  rw [contains_foldl_addNew, Bool.or_eq_true]
  rfl

theorem all_isConstant_filter (h : as.all Expr.isConstant = true) :
    (as.filter bs.contains).all Expr.isConstant = true := by
  rw [List.all_eq_true] at h ⊢
  exact fun e he => h e (List.mem_filter.1 he).1

theorem all_isConstant_foldl_addNew : (bs.foldl addNew as).all Expr.isConstant =
    (as.all Expr.isConstant && bs.all Expr.isConstant) := by
  rw [Bool.eq_iff_iff, Bool.and_eq_true]
  simp only [Expr.all_isConstant_iff, contains_foldl_addNew, Bool.or_eq_true]
  constructor
  · exact fun h => ⟨fun e he => h e (.inl he), fun e he => h e (.inr he)⟩
  · rintro ⟨has, hbs⟩ e (he | he)
    · exact has e he
    · exact hbs e he

theorem knowledge_meet (a b : Candidates) :
    (a.meet b).knowledge = a.knowledge.meet b.knowledge := by
  cases a with
  | unconstrained => exact (Knowledge.anything_meet _).symm
  | among as =>
    cases b with
    | unconstrained => exact (Knowledge.meet_anything _).symm
    | among bs =>
      cases hb : bs.all Expr.isConstant with
      | false =>
        cases ha : as.all Expr.isConstant <;> simp [meet, knowledge, Knowledge.meet, ha, hb]
      | true =>
        cases ha : as.all Expr.isConstant with
        | false => simp [meet, knowledge, Knowledge.meet, ha, hb]
        | true =>
          have hall := @all_isConstant_filter as bs ha
          simp only [meet, knowledge, ha, hb, hall, Bool.not_true, Bool.false_eq_true, ↓reduceIte,
            literalsIn_filter, Knowledge.meet]

theorem knowledge_join (a b : Candidates) :
    (a.join b).knowledge = a.knowledge.join b.knowledge := by
  cases a with
  | unconstrained => cases b <;> rfl
  | among as =>
    cases b with
    | unconstrained => exact (Knowledge.join_anything _).symm
    | among bs =>
      cases ha : as.all Expr.isConstant <;> cases hb : bs.all Expr.isConstant <;>
        simp [join, knowledge, Knowledge.join, ha, hb, all_isConstant_foldl_addNew,
          literalsIn_foldl_addNew]

theorem knowledge_foldl_meet (acc : Candidates) (cs : List Candidates) :
    (cs.foldl meet acc).knowledge = (cs.map knowledge).foldl Knowledge.meet acc.knowledge := by
  rw [List.foldl_map]
  exact (List.foldl_hom knowledge fun a b => (knowledge_meet a b).symm).symm

theorem knowledge_foldl_join (acc : Candidates) (cs : List Candidates) :
    (cs.foldl join acc).knowledge = (cs.map knowledge).foldl Knowledge.join acc.knowledge := by
  rw [List.foldl_map]
  exact (List.foldl_hom knowledge fun a b => (knowledge_join a b).symm).symm

/-- What a predicate says about a column. -/
def told (column : Column) (family : HashFamily) (p : Expr) : Knowledge :=
  (ofPredicate column family p).knowledge

theorem told_or (members : List Expr) : told column family (.or members) =
    (members.map (told column family)).foldl Knowledge.join (.constants ∅) := by
  rw [told, ofPredicate_or, knowledge_foldl_join, List.map_map, knowledge_nil]
  rfl

theorem told_and_conjuncts (members : List Expr) : told column family (.and members) =
    ((Expr.conjunctsAll members).map (told column family)).foldl Knowledge.meet .anything := by
  rw [told, ofPredicate_and, knowledge_foldl_meet, List.map_map]
  rfl

/-- The conjuncts of a predicate together say what the predicate says. -/
theorem foldl_told_conjuncts (k : Knowledge) (p : Expr) :
    (p.conjuncts.map (told column family)).foldl Knowledge.meet k =
      k.meet (told column family p) := by
  cases p with
  | and members =>
    have hassoc := @List.foldl_assoc _ Knowledge.meet _ ((Expr.conjunctsAll members).map
      (told column family)) k .anything
    rw [told_and_conjuncts, ← hassoc, Knowledge.meet_anything, Expr.conjuncts]
  | _ => rfl

theorem told_and (members : List Expr) : told column family (.and members) =
    (members.map (told column family)).foldl Knowledge.meet .anything := by
  rw [told_and_conjuncts]
  generalize Knowledge.anything = k
  induction members generalizing k with
  | nil => rfl
  | cons p ps ih =>
    rw [Expr.conjunctsAll, List.map_append, List.foldl_append, foldl_told_conjuncts, ih,
      List.map_cons, List.foldl_cons]

theorem told_oneOf {expr : Expr} (items : List Expr) (h : refersTo column expr = true) :
    told column family (.oneOf expr items) =
      (items.map fun item => (ofEquality family item).knowledge).foldl Knowledge.join
        (.constants ∅) := by
  rw [told, Expr.oneOf, ofPredicate, if_pos h, ← List.foldl_map (g := join), knowledge_foldl_join,
    List.map_map, knowledge_nil]
  rfl

end Candidates
end SliceDispatch
