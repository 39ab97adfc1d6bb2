import Grafast.Execute.Theorems.Fields

namespace Grafast

open Batch

section Completion

variable {T L S I V : Type} [DecidableEq I] {runs : LayerRuns L S I V} [Host V T] [DecidableEq T]

section Buckets

variable {P : L → List (Seeded I V) → Prop}

mutual

theorem buckets_of_forall (h : ∀ layer xs, P layer xs) : (c : Completer T L S) → (xs : List (Seeded I V)) →
    Buckets runs P c xs
  | .leaf _,           _  => trivial
  | .nonNull inner,    xs => buckets_of_forall h inner xs
  | .list item,        _  => buckets_of_forall h item _
  | .object _ child,   _  => objectBuckets_of_forall h child _
  | .abstract _ plans, _  => fun type => objectBuckets_of_forall h (plans type) _

theorem objectBuckets_of_forall (h : ∀ layer xs, P layer xs) : (op : ObjectPlan T L S) →
    (xs : List (Seeded I V)) → ObjectBuckets runs P op xs
  | ⟨fields, layer⟩, xs => fun _ => ⟨h layer xs, fieldsBuckets_of_forall h fields _⟩

theorem fieldsBuckets_of_forall (h : ∀ layer xs, P layer xs) : (fs : List (FieldPlan T L S)) →
    (ps : List (Seeded I V)) → FieldsBuckets runs P fs ps
  | [],      _  => trivial
  | f :: fs, ps => ⟨fieldBuckets_of_forall h f ps, fieldsBuckets_of_forall h fs _⟩

theorem fieldBuckets_of_forall (h : ∀ layer xs, P layer xs) : (f : FieldPlan T L S) →
    (ps : List (Seeded I V)) → FieldBuckets runs P f ps
  | ⟨_, _, _, completer, _⟩, _ => buckets_of_forall h completer _

end

end Buckets

-- Where the layers give each parent of a bucket what they give it on its own, the completion of a column gives
-- each of its values the result that it has on its own, unless something raises that nothing catches.
theorem completeValues_iff (hs : runs.streaming = false) (runLayer : RunLayer L I V) (c : Completer T L S)
    (label : String) (keys : Option (List I)) (xs : List (Seeded I V)) (context : Context V)
    (ha : Buckets runs (runs.RunsApart runLayer) c xs) :
    ((completeValues runs.toLayers runLayer c label (xs.map (·.entry)) (bridgeOf keys xs)).run context).map (·.fst) =
        some (xs.map fun x => reference runs c label x.entry (x.seeds keys)) ↔
      Buckets runs (runs.Completes runLayer) c xs ∧ ∀ x ∈ xs, Safe runs c label x.entry (x.seeds keys) := by
  have hg := completeValues_pointwise hs c label keys xs ha
  by_cases hc : Buckets runs (runs.Completes runLayer) c xs
  case neg =>
    rw [hg.raises hc context]
    exact iff_of_false (Option.some_ne_none _).symm fun h => hc h.left
  case pos =>
    rw [(hg.yields hc).result context,
      mapM_eq_some_iff fun x _ r => completeValue_iff c label x.entry (x.seeds keys) r]
    exact (and_iff_left rfl).trans (and_iff_right hc).symm

end Completion

namespace Badge

-- Badges by their number. The badge 0 has no code, the label of the badge 1 raises.
inductive Value
  | null
  | number (n : Nat)
  | badge (n : Nat)
  | badges (ns : List Nat)
  | keyError
  | valueError

def Value.isLost : Value → Bool
  | .badge 9 => true
  | _        => false

-- The serialization of the code 0 raises a `KeyError`.
instance : Host Value Unit where
  isException
    | .keyError | .valueError => true
    | _                       => false
  isNone
    | .null => true
    | _     => false
  isUndefined _ := false
  iterate
    | .badges ns => some (.ok (ns.map .badge))
    | _          => none
  serialize
    | _, .number 0       => .error .keyError
    | _, .number (n + 1) => .ok (.number (n + 1))
    | _, _               => .error .valueError
  isTypeOf _ := none
  resolveType _ _ _ := .error .valueError
  ensureValidRuntimeType _ _ _ _ := .error .valueError
  isLeafError
    | .valueError => true
    | _           => false
  errorPath _ := none
  typeName _ := "Int"
  inspect _ := "value"

-- The step 0 yields the code of a badge, and the step 1 its label.
def runs : LayerRuns Unit Nat Nat Value where
  stepId := id
  hoistedOutIds _ := []
  columns _ _ := true
  value
    | _, _, .badge 0, _, 0       => .null
    | _, _, .badge (n + 1), _, 0 => .number (n + 1)
    | _, _, .badge 1, _, 1       => .valueError
    | _, _, .badge (n + 1), _, 1 => .number (n + 1)
    | _, _, _, _, _              => .number 1
  streaming := false

-- The step 1 loads the labels of all badges of a bucket, and its loader raises for the badge 9.
def runLayer : RunLayer Unit Nat Value := fun layer parents parentStore =>
  if parents.any fun e => e.value.isLost then none else runs.pointwise layer parents parentStore

theorem runsApart (layer : Unit) (xs : List (Seeded Nat Value)) : runs.RunsApart runLayer layer xs := by
  intro store hs
  rw [runLayer] at hs
  split at hs
  case isTrue  => cases hs
  case isFalse => exact hs

-- The completer of a badge with the fields `code: Int!` and `label: Int`.
def badge : Completer Unit Unit Nat :=
  .nonNull <| .object () ⟨[
    ⟨"code", "Badge.code", 0, .nonNull (.leaf ()), none⟩,
    ⟨"label", "Badge.label", 1, .leaf (), none⟩], ()⟩

def column (values : List Value) : List (Seeded Nat Value) :=
  values.map fun value => ⟨⟨value, [.name "badges"], [.name "badges"]⟩, fun _ => .null⟩

-- The code and the label of a badge are serialized without a `KeyError`.
theorem safe_leaf (label : String) (seeds' : Nat → Option Value) {seeds : Nat → Option Value}
    {n id : Nat} {path path' info : Path} :
    Safe runs (.leaf ()) label ⟨runs.value () seeds (.badge n) path id, path', info⟩ seeds' := by
  intro hp error he
  rcases n with _ | _ | n <;> rcases id with _ | _ | id
  case zero.zero | succ.zero.succ.zero => exact nomatch (show false = true from hp)
  all_goals exact nomatch (show Except.ok _ = Except.error _ from he)

theorem safe_badge {label : String} {seeds : Nat → Option Value} {n : Nat} {path info : Path} :
    Safe runs badge label ⟨.badge n, path, info⟩ seeds := by
  intro hp
  show SafeObject _ _ _ _
  have hn (id : Nat) : id ∉ [] := List.not_mem_nil
  exact ⟨fun id h => (hn id h).elim, ⟨rfl, fun id h => (hn id h).elim, safe_leaf "Badge.code" seeds⟩,
    fun _ => ⟨⟨rfl, fun id h => (hn id h).elim, safe_leaf "Badge.label" seeds⟩, fun _ => trivial⟩⟩

theorem mem_badges {ns : List Nat} {path info : Path} {i : Entry Value}
    (h : i ∈ iteratedEntries ⟨.badges ns, path, info⟩) : ∃ n path', i = ⟨.badge n, path', info⟩ := by
  change i ∈ itemEntries ⟨.badges ns, path, info⟩ (ns.map .badge) at h
  obtain ⟨k, hk, rfl⟩ := List.mem_iff_getElem.mp h
  simp only [itemEntries, List.length_mapIdx, List.length_map] at hk
  exact ⟨ns[k], path ++ [.index k], by simp only [itemEntries, List.getElem_mapIdx, List.getElem_map]⟩

theorem safe_badges {label : String} {seeds : Nat → Option Value} {ns : List Nat}
    {path info : Path} : Safe runs (.list badge) label ⟨.badges ns, path, info⟩ seeds := by
  intro _ result hr
  obtain rfl := Option.some.inj hr
  refine ⟨_, rfl, fun i hi => ?_⟩
  obtain ⟨n, path, rfl⟩ := mem_badges hi
  exact safe_badge

theorem completes : ((completeValues runs.toLayers runLayer (.list badge) "Query.badges"
    ((column [.badges [2, 0], .badges [3, 4], .null]).map (·.entry)) none).run ⟨[], []⟩).map (·.fst) =
      some ((column [.badges [2, 0], .badges [3, 4], .null]).map fun x =>
        reference runs (.list badge) "Query.badges" x.entry (x.seeds none)) := by
  refine (completeValues_iff rfl runLayer (.list badge) "Query.badges" none _ ⟨[], []⟩
    (buckets_of_forall runsApart _ _)).mpr ⟨fun _ => ⟨rfl, trivial, trivial, trivial⟩, fun x hx => ?_⟩
  simp only [column, List.map_cons, List.map_nil, List.mem_cons, List.not_mem_nil, or_false] at hx
  rcases hx with rfl | rfl | rfl
  · exact safe_badges
  · exact safe_badges
  · exact fun hp => nomatch (show false = true from hp)

-- A leaf whose serialization raises a `KeyError` has no result, nor has any value of its column. A loader that
-- raises for one badge takes the badges of its bucket along.
theorem not_completes :
    ((completeValues runs.toLayers runLayer (.leaf ()) "Query.code"
      ((column [.number 1, .number 0]).map (·.entry)) none).run ⟨[], []⟩).map (·.fst) ≠
        some ((column [.number 1, .number 0]).map fun x =>
          reference runs (.leaf ()) "Query.code" x.entry (x.seeds none)) ∧
    ((completeValues runs.toLayers runLayer (.list badge) "Query.badges"
      ((column [.badges [2], .badges [9]]).map (·.entry)) none).run ⟨[], []⟩).map (·.fst) ≠
        some ((column [.badges [2], .badges [9]]).map fun x =>
          reference runs (.list badge) "Query.badges" x.entry (x.seeds none)) := by
  constructor
  · intro h
    cases show none = _ from h
  · intro h
    cases show none = _ from h

end Badge

end Grafast
