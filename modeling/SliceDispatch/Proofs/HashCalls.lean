import SliceDispatch.Proofs.CandidateLists
import SliceDispatch.Proofs.KeyCombinations

namespace SliceDispatch.ScanDecision

/-- Hashes whatever it is given. -/
def hashAny : Hasher Option := placeRows

/-- Hashes one value for each of the keys that rows are spread by, if the families of the keys can
hash them. -/
def hashKeysOf (d : Distribution) : Hasher Option := fun values families segments =>
  if d.isHashPartitioned ∧ families = d.keys.map (·.family) ∧ segments = d.segments ∧
      List.Forall₂ (fun key value => key.family.accepts value = true) d.keys values then
    hashAny values families segments
  else none

-- one integer key: neither a text nor two values are hashed
example : let d := .hashed [⟨⟨none, "k", 0⟩, .integer⟩] 4
    hashKeysOf d [.text "1"] [.integer] 4 = none ∧
      hashKeysOf d [.int 1, .int 1] [.integer] 4 = none := by decide

/-- Hashes for the keys of the relation of an entry, and nothing if there are none. -/
def hashEntry (catalog : Catalog) (entry : RangeEntry) : Hasher Option :=
  ((distribution? catalog entry).map hashKeysOf).getD fun _ _ _ => none

variable {hash : Hasher Option} {factor segments : UInt64} {qualifier : String}
  {keys : List KeyColumn} {d : Distribution} {p : Expr}

/-- The hasher hashes one value that can be hashed for each of the keys. -/
def Hashes (hash : Hasher Option) (keys : List KeyColumn) (segments : UInt64) : Prop :=
  ∀ values, List.Forall₂ (fun key value => key.family.accepts value = true) keys values →
    hash values (keys.map (·.family)) segments =
      some (Placement.segment values (keys.map (·.family)) segments)

theorem hashes_hashAny : Hashes hashAny keys segments := fun _ _ => rfl

theorem hashes_hashKeysOf (h : d.isHashPartitioned = true) :
    Hashes (hashKeysOf d) d.keys d.segments :=
  fun _ hvalues => if_pos ⟨h, rfl, rfl, hvalues⟩

/-- A choice from the candidates of the keys has one value that can be hashed for each of them. -/
theorem accepts_of_choice {lists : List (List Scalar)} {values : List Scalar}
    (hkeys : List.Forall₂ (fun key list =>
      Candidates.ofPredicate (keyColumn qualifier key) key.family p =
        .among (list.map .literal)) keys lists)
    (hvalues : List.Forall₂ (· ∈ ·) values lists) :
    List.Forall₂ (fun key value => key.family.accepts value = true) keys values := by
  induction hkeys generalizing values with
  | nil =>
    cases hvalues
    exact .nil
  | cons hkey _ ih =>
    obtain - | ⟨hvalue, hvalues⟩ := hvalues
    refine .cons ?_ (ih hvalues)
    have hwell := Candidates.wellFormed_of_ofPredicate hkey
    rcases hwell.hashable _ (List.mem_map_of_mem hvalue) with ⟨number, heq⟩ | ⟨v, heq, haccepts⟩
    · cases heq
    · cases heq
      exact haccepts

theorem ofKeysBy_eq (hhash : Hashes hash keys segments) :
    ofKeysBy hash factor qualifier keys segments p =
      some (ofKeys factor qualifier keys segments p) := by
  rw [ofKeys_eq]
  unfold ofKeysBy
  cases hcandidates : keyCandidates? qualifier p keys with
  | none => rfl
  | some lists =>
    dsimp only
    split
    · rfl
    split
    · rfl
    rename_i hcap
    cases hliterals : lists.mapM (·.mapM literal?) with
    | none => rfl
    | some values =>
      obtain rfl := mapM_mapM_literal?_eq_some_iff.1 hliterals
      have hkeys := List.forall₂_map_right_iff.1 (keyCandidates?_eq_some_iff.1 hcandidates)
      have hcount : combinations values < maxCount := by
        rw [combinations_map_map] at hcap
        exact combinations_lt_maxCount hcap
      have hsegments : (tuples values).mapM (fun vs => hash vs (keys.map (·.family)) segments) =
          some ((tuples values).map fun vs =>
            Placement.segment vs (keys.map (·.family)) segments) := by
        apply mapM_eq_some_iff.2
        apply List.forall₂_map_right_iff.2
        apply List.forall₂_same.2
        intro vs hvs
        exact hhash vs (accepts_of_choice hkeys ((mem_tuples_iff hcount).1 hvs))
      dsimp only
      rw [hsegments]
      rfl

theorem ofDistributionBy_eq (hhash : d.isHashPartitioned = true → Hashes hash d.keys d.segments) :
    ofDistributionBy hash factor qualifier d p = some (ofDistribution factor qualifier d p) := by
  rw [ofDistribution_eq]
  unfold ofDistributionBy
  cases if d.isPartitioned then namedSegments? qualifier d.segments p else none with
  | some segments => rfl
  | none =>
    dsimp only
    split
    · rename_i hkeys
      exact ofKeysBy_eq (hhash hkeys)
    · rfl

theorem ofEntryBy_eq {catalog : Catalog} {entry : RangeEntry}
    (hhash : ∀ d, distribution? catalog entry = some d → d.isHashPartitioned = true →
      Hashes hash d.keys d.segments) (factor : UInt64) (predicate : Option Expr) :
    ofEntryBy hash catalog factor entry predicate =
      some (ofEntry catalog factor entry predicate) := by
  rw [ofEntry_eq]
  unfold ofEntryBy
  cases hd : distribution? catalog entry with
  | none => rfl
  | some d =>
    cases predicate with
    | none => rfl
    | some p => exact ofDistributionBy_eq (hhash d hd)

theorem hashes_hashEntry {catalog : Catalog} {entry : RangeEntry}
    (hd : distribution? catalog entry = some d) (hkeys : d.isHashPartitioned = true) :
    Hashes (hashEntry catalog entry) d.keys d.segments := by
  rw [hashEntry, hd]
  exact hashes_hashKeysOf hkeys

/-- Listed candidates are different parameters and values that the family can hash, NULL only where
the predicate asks for it. Hence nothing is hashed for a scan but one value that can be hashed for
each key of its relation. -/
theorem candidates_wellFormed_hashed :
    (∀ column family p es, Candidates.ofPredicate column family p = .among es →
      Candidates.WellFormed column family p es) ∧
    ∀ catalog factor entry predicate,
      ofEntryBy hashAny catalog factor entry predicate =
        some (ofEntry catalog factor entry predicate) ∧
      ofEntryBy (hashEntry catalog entry) catalog factor entry predicate =
        some (ofEntry catalog factor entry predicate) := by
  refine ⟨fun _ _ _ _ => Candidates.wellFormed_of_ofPredicate, ?_⟩
  intro catalog factor entry predicate
  constructor
  · exact ofEntryBy_eq (fun _ _ _ => hashes_hashAny) factor predicate
  · exact ofEntryBy_eq (fun _ => hashes_hashEntry) factor predicate

/-- `k IN (0.0, -0.0, NULL, NaN, NaN, $1) OR t.k IS NULL`, with two different NaNs -/
def repeatedKeys : Expr :=
  .or [.oneOf (.column ⟨none, "k", 0⟩)
      [.literal (.double .zero), .literal (.double .negZero), .literal .null,
        .literal (.double .quietNaN), .literal (.double ⟨0xfff0000000000001⟩), .param 1],
    .unary .isNull (.column ⟨some "t", "k", 0⟩)]

theorem repeatedKeys_wellFormed :
    let es := [.literal (.double .zero), .literal (.double .quietNaN), .param 1, .literal .null]
    Candidates.ofPredicate ⟨some "t", "k", 0⟩ .float repeatedKeys = .among es ∧
      Candidates.WellFormed ⟨some "t", "k", 0⟩ .float repeatedKeys es :=
  ⟨rfl, candidates_wellFormed_hashed.1 _ _ _ _ rfl⟩

end SliceDispatch.ScanDecision
