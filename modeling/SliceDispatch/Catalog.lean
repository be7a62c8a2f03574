import SliceDispatch.Distribution

namespace SliceDispatch

/-- What is known of a cluster and its tables. -/
structure Catalog where
  segments : UInt64
  distribution? : Table → Option Distribution

/-- A catalog that tables are added to. Distributions are kept under the qualified name, so tables
that share one share its distribution. -/
structure StoredCatalog where
  distributions : List (String × Distribution)
  segments : UInt64
deriving DecidableEq, Inhabited

namespace StoredCatalog

def empty (segments : UInt64) : StoredCatalog := ⟨[], segments⟩

/-- Puts a distribution under a qualified name, in place of the one that is there. -/
def insert (c : StoredCatalog) (name : String) (d : Distribution) : StoredCatalog :=
  { c with distributions := (name, d) :: c.distributions.filter (·.1 != name) }

def add (c : StoredCatalog) (table : Table) (d : Distribution) : StoredCatalog :=
  c.insert table.render d

def distribution? (c : StoredCatalog) (table : Table) : Option Distribution :=
  c.distributions.lookup table.render

def size (c : StoredCatalog) : Nat := c.distributions.length

def toCatalog (c : StoredCatalog) : Catalog := ⟨c.segments, c.distribution?⟩

instance : Coe StoredCatalog Catalog := ⟨toCatalog⟩

theorem lookup_filter_ne {name other : String} (h : other ≠ name)
    (ds : List (String × Distribution)) :
    (ds.filter (·.1 != name)).lookup other = ds.lookup other := by
  induction ds with
  | nil => rfl
  | cons entry ds ih =>
    obtain ⟨n, d⟩ := entry
    by_cases hn : n = name
    · simp [hn, ih, List.lookup_cons, beq_eq_false_iff_ne.2 h]
    · simp [hn, List.lookup_cons, ih]

theorem distribution?_add (c : StoredCatalog) (t u : Table) (d : Distribution) :
    (c.add t d).distribution? u =
      if u.render = t.render then some d else c.distribution? u := by
  simp only [add, insert, distribution?, List.lookup_cons]
  split
  · simp_all
  · simp_all [lookup_filter_ne]

end StoredCatalog
end SliceDispatch
