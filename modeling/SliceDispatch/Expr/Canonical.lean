import SliceDispatch.Expr

namespace SliceDispatch.Expr

mutual

def canonical : Expr → Expr
  | .literal value => .literal value.canonical
  | .binary op left right => .binary op left.canonical right.canonical
  | .unary op operand => .unary op operand.canonical
  | .call function args => .call function (canonicalAll args)
  | .inList expr items negated => .inList expr.canonical (canonicalAll items) negated
  | .and members => .and (canonicalAll members)
  | .or members => .or (canonicalAll members)
  | e => e

def canonicalAll : List Expr → List Expr
  | [] => []
  | e :: es => e.canonical :: canonicalAll es

end

mutual

/-- Expressions are equal exactly when they have one canonical form. -/
theorem same_iff_canonical_eq : ∀ {a b : Expr}, a.same b ↔ a.canonical = b.canonical
  | a, b => by
    cases a <;> cases b <;>
      simp [same, canonical, Scalar.same_iff_canonical_eq, same_iff_canonical_eq,
        sameAll_iff_canonicalAll_eq, and_assoc]

theorem sameAll_iff_canonicalAll_eq : ∀ {as bs : List Expr},
    sameAll as bs ↔ canonicalAll as = canonicalAll bs
  | [], [] | [], _ :: _ | _ :: _, [] => by simp [sameAll, canonicalAll]
  | a :: as, b :: bs => by
    simp [sameAll, canonicalAll, same_iff_canonical_eq, sameAll_iff_canonicalAll_eq]

end

instance : EquivBEq Expr where
  rfl := same_iff_canonical_eq.2 rfl
  symm h := same_iff_canonical_eq.2 (same_iff_canonical_eq.1 h).symm
  trans h k := same_iff_canonical_eq.2 ((same_iff_canonical_eq.1 h).trans (same_iff_canonical_eq.1 k))

end SliceDispatch.Expr
