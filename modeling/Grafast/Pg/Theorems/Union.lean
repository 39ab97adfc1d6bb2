import Grafast.Pg.Theorems.Keyed
import Grafast.Pg.Theorems.Page
import Grafast.Pg.Union
import Mathlib.Data.List.Pairwise
import Mathlib.Data.String.Basic

namespace Grafast

open Sql

namespace PgUnion

variable {C A V : Type} {union : PgUnion C A V} {e : Engine}

-- A row of a table, with the member that reads it.
abbrev Source (union : PgUnion C A V) :=
  { member // member ∈ union.members } × (C → Option V)

section Project

variable [DecidableEq C] {member : { member // member ∈ union.members }} {r : C → Option V}
variable {text : String → V}

-- The row of the union that a row of a table becomes.
def row (union : PgUnion C A V) (x : union.Source) : UnionRow union.members :=
  union.project x.fst x.snd

theorem project_shared {c : C} (h : c ∈ union.sharedColumns) : (union.project member r).columns c = r c := by
  simp [project, h]

theorem project_match : union.matchColumns.map (union.project member r).columns =
    union.matchColumns.map r :=
  List.map_congr_left fun c hc => project_shared (union.match_shared c hc)

-- What the order and the cursor read of a row.
def valueOf (union : PgUnion C A V) (text : String → V) (x : union.Source) : UnionColumn C → Option V :=
  (union.row x).value text

end Project

variable [LinearOrder V] {database : Database C V} {uniqueKeys : List (List (Option V))}
variable {key : List (Option V)} {text : String → V} {paging : PgPaging}
variable {afterValues beforeValues : Option (List (Option V))}

-- The rows of the tables that match some keys.
def sources (union : PgUnion C A V) (database : Database C V) (uniqueKeys : List (List (Option V))) :
    List union.Source :=
  union.members.attach.flatMap fun member : { member // member ∈ union.members } =>
    (union.matched database uniqueKeys member.val).map fun row => (member, row)

-- The rows of a parent. In the root mode, these are all rows.
def sourcesOf (union : PgUnion C A V) (database : Database C V) (value : Key V) : List union.Source :=
  if union.isPerParent then
    match normalizeLookupKey value (1 < union.matchColumns.length) with
    | none     => []
    | some key => union.sources database [key]
  else
    union.sources database []

theorem matchPredicate_sources {x : union.Source} (hp : union.isPerParent = true)
    (hx : x ∈ union.sources database uniqueKeys) :
    (union.matchColumns.map x.snd).all (·.isSome) = true ∧ union.matchColumns.map x.snd ∈ uniqueKeys := by
  simp only [sources, List.mem_flatMap, List.mem_map] at hx
  obtain ⟨member, _, row, hrow, rfl⟩ := hx
  rw [matched, if_pos hp] at hrow
  have hm := (List.mem_filter.mp hrow).right
  simp only [Bool.and_eq_true, PgKeyed.matchPredicate_iff] at hm
  exact union.match_eq member member.property ▸ hm.left

-- Of the rows that match some keys, those of one key are the ones that match it alone.
theorem sources_filter (hp : union.isPerParent = true) (hk : key ∈ uniqueKeys) :
    (union.sources database uniqueKeys).filter (union.matchColumns.map ·.snd = key) =
      union.sources database [key] := by
  rw [sources, sources, List.filter_flatMap]
  congr
  funext member
  rw [List.filter_map, matched, matched, if_pos hp, if_pos hp, ← PgKeyed.matched_filter hk]
  have hm : member.val.keyed.matchColumns = union.matchColumns := union.match_eq member member.property
  rw [hm]
  rfl

variable [DecidableEq C]

-- Whether a row is on the side of the cursor that the page is on.
def beyond (union : PgUnion C A V) (text : String → V) (paging : PgPaging)
    (afterValues beforeValues : Option (List (Option V))) (x : union.Source) : Bool :=
  union.beyondCursor text paging afterValues beforeValues x.fst x.snd

theorem unionRows_eq : union.unionRows text database uniqueKeys paging afterValues beforeValues =
    ((union.sources database uniqueKeys).filter
      (union.beyond text paging afterValues beforeValues)).map union.row := by
  rw [unionRows, sources, List.filter_flatMap, List.map_flatMap]
  congr
  funext member
  rw [branchSelect, List.filter_map, List.map_map]
  rfl

omit [DecidableEq C] in
-- In the root mode, there are no keys to match.
theorem sources_root (hp : union.isPerParent = false) :
    union.sources database uniqueKeys = union.sources database [] := by
  simp [sources, matched, hp]

-- Whether the order tells some rows apart.
def TellsApart (union : PgUnion C A V) (text : String → V) (rows : List union.Source) : Prop :=
  rows.Pairwise fun x y => ∃ t ∈ union.orderBy, union.valueOf text x t.column ≠ union.valueOf text y t.column

namespace TellsApart

variable {rows : List union.Source}

omit [LinearOrder V] in
theorem nodup (h : union.TellsApart text rows) : rows.Nodup :=
  h.imp fun ⟨_, _, hne⟩ he => hne (by rw [he])

omit [LinearOrder V] in
theorem eq (h : union.TellsApart text rows) {x y : union.Source} (hx : x ∈ rows) (hy : y ∈ rows)
    (he : ∀ t ∈ union.orderBy, union.valueOf text x t.column = union.valueOf text y t.column) : x = y := by
  by_contra hne
  have hs : Std.Symm fun x y : union.Source =>
      ∃ t ∈ union.orderBy, union.valueOf text x t.column ≠ union.valueOf text y t.column :=
    ⟨fun x y ⟨t, ht, hne⟩ => ⟨t, ht, hne.symm⟩⟩
  obtain ⟨t, ht, hc⟩ := List.Pairwise.forall h hx hy hne
  exact hc (he t ht)

end TellsApart

end PgUnion

namespace PgUnionAllStep

variable {C A V : Type} [LinearOrder V] [DecidableEq C] {step : PgUnionAllStep C A V} {e : Engine}
variable {types : SqlTypes C} {format : CursorFormat (UnionColumn C) V} {text : String → V}
variable {database : Database C V}
variable {sourceValues : SourceValues} {uniqueKeys : List (List (Option V))} {key : List (Option V)}
variable {value : Key V} {values : List (Key V)} {afterValues beforeValues : Option (List (Option V))}
variable {limit : Nat}

theorem mem_pageRows {row : UnionRow step.members}
    (h : row ∈ step.pageRows e text database uniqueKeys sourceValues afterValues beforeValues) :
    ∃ x ∈ step.sources database uniqueKeys, step.row x = row := by
  have hm : row ∈ step.unionRows text database uniqueKeys step.toPgPaging afterValues beforeValues := by
    rw [pageRows] at h
    split at h
    case isTrue  =>
      obtain ⟨x, hx, rfl⟩ := List.mem_map.mp h
      exact Engine.mem_rowNumber (List.mem_of_mem_filter (Engine.mem_sort.mp hx))
    case isFalse =>
      exact Engine.mem_sort.mp (slice_sublist.subset h)
  rw [PgUnion.unionRows_eq] at hm
  obtain ⟨x, hx, rfl⟩ := List.mem_map.mp hm
  exact ⟨x, List.mem_of_mem_filter hx, rfl⟩

-- What the dictionary of the page holds for a key.
theorem lookup_pageRows (step : PgUnionAllStep C A V) (e : Engine) (text : String → V) (database : Database C V)
    (uniqueKeys : List (List (Option V))) (sourceValues : SourceValues)
    (afterValues beforeValues : Option (List (Option V))) (k : Key V) (hp : step.isPerParent = true) :
    ((((step.pageRows e text database uniqueKeys sourceValues afterValues beforeValues).map
      fun row => (groupingKey row.columns step.matchColumns, row)).foldl Batch.addToGroup []).lookup k).getD [] =
        (step.pageRows e text database uniqueKeys sourceValues afterValues beforeValues).filter
          fun row => some (step.matchColumns.map row.columns) = k := by
  refine lookup_groupingKey fun row hrow => ?_
  obtain ⟨x, hx, rfl⟩ := mem_pageRows hrow
  rw [PgUnion.row, PgUnion.project_match]
  exact (PgUnion.matchPredicate_sources hp hx).left

-- The page of a parent is numbered without regard to the other parents.
theorem pageRows_filter (hp : step.isPerParent = true) (hk : key ∈ uniqueKeys) :
    (step.pageRows e text database uniqueKeys sourceValues afterValues beforeValues).filter
        (step.matchColumns.map ·.columns = key) =
      slice none ((step.pageLimit sourceValues).map Int.toNat)
        (e.sort (orderedBy (orderClauses (step.effectiveOrder step.orderBy)) (UnionRow.value text))
          (((step.sources database [key]).filter
            (step.beyond text step.toPgPaging afterValues beforeValues)).map step.row)) := by
  simp only [pageRows, if_pos hp]
  rw [List.filter_map]
  refine (congrArg (List.map Prod.fst) (e.filter_sort_rowNumber
    (fun row : UnionRow step.members => step.matchColumns.map row.columns) _ _ key
    (fun n => (step.pageLimit sourceValues).all ((n : Int) ≤ ·)) (fun _ _ _ => orderedThen_trans)
    (fun _ _ => orderedThen_total) fun x y h => orderedThen_of_eq fun k hk => ?_)).trans ?_
  case refine_1 =>
    simp only [orderClauses, List.map_map, List.mem_map] at hk
    obtain ⟨c, hc, rfl⟩ := hk
    exact List.map_inj_left.mp h c hc
  case refine_2 =>
    have hm (x : step.Source) : decide (step.matchColumns.map (step.row x).columns = key) =
        decide (step.matchColumns.map x.snd = key) := congrArg (decide <| · = key) PgUnion.project_match
    rw [PgUnion.unionRows_eq, List.filter_map, ← PgUnion.sources_filter hp hk, List.filter_comm]
    simp only [Function.comp_def, hm]
    exact zipIdx_filter_limit

-- The rows of the page of an entry.
def entryRows (step : PgUnionAllStep C A V) (e : Engine) (text : String → V) (database : Database C V)
    (sourceValues : SourceValues) (values : List (Key V)) (value : Key V)
    (afterValues beforeValues : Option (List (Option V))) : List (UnionRow step.members) :=
  let rows := step.pageRows e text database ((step.normalizedKeys values).eraseDups.filterMap id) sourceValues
    afterValues beforeValues
  if step.isPerParent then
    rows.filter fun row => some (step.matchColumns.map row.columns) =
      normalizeLookupKey value (1 < step.matchColumns.length)
  else
    rows

-- Under an order that tells the rows of a parent apart, its page has the first of them after the cursor.
theorem entryRows_eq (hv : value ∈ values) (hl : step.pageLimit sourceValues = some (limit : Int))
    (hs : step.TellsApart text (step.sourcesOf database value)) :
    step.entryRows e text database sourceValues values value afterValues beforeValues =
      (((e.sort (orderedBy (orderClauses (step.effectiveOrder step.orderBy)) (step.valueOf text))
        (step.sourcesOf database value)).filter
          (step.beyond text step.toPgPaging afterValues beforeValues)).take limit).map step.row := by
  have ha {x y : step.Source} (hx : x ∈ step.sourcesOf database value) (hy : y ∈ step.sourcesOf database value)
      (h : orderedBy (orderClauses (step.effectiveOrder step.orderBy)) (step.valueOf text) x y = true)
      (h' : orderedBy (orderClauses (step.effectiveOrder step.orderBy)) (step.valueOf text) y x = true) :
      x = y :=
    hs.eq hx hy (step.eq_of_ordered_effective h h')
  have hsort : e.sort (orderedBy (orderClauses (step.effectiveOrder step.orderBy)) (UnionRow.value text))
      (((step.sourcesOf database value).filter
        (step.beyond text step.toPgPaging afterValues beforeValues)).map step.row) =
      ((e.sort (orderedBy (orderClauses (step.effectiveOrder step.orderBy)) (step.valueOf text))
        (step.sourcesOf database value)).filter
          (step.beyond text step.toPgPaging afterValues beforeValues)).map step.row := by
    refine (Engine.sort_orderedBy_map (UnionRow.value text) step.row fun x hx y hy =>
      ha (List.mem_of_mem_filter hx) (List.mem_of_mem_filter hy)).trans ?_
    exact congrArg (List.map step.row) (Engine.filter_sort_orderedBy fun x hx y hy => ha hx hy)
  rw [List.map_take, ← hsort]
  cases hp : step.isPerParent
  case false =>
    rw [entryRows, if_neg (by simp [hp]), pageRows, if_neg (by simp [hp]), hl, PgUnion.unionRows_eq,
      PgUnion.sources_root hp, PgUnion.sourcesOf, if_neg (by simp [hp])]
    simp [slice]
  case true  =>
    rw [entryRows, if_pos hp, PgUnion.sourcesOf, if_pos hp]
    cases hk : normalizeLookupKey value (1 < step.matchColumns.length)
    case none     => simp [Engine.sort_nil]
    case some key =>
      have hm : key ∈ (step.normalizedKeys values).eraseDups.filterMap id := by
        simpa [normalizedKeys] using ⟨value, hv, hk⟩
      simp only [Option.some.injEq]
      rw [pageRows_filter hp hm, hl]
      rfl

end PgUnionAllStep

namespace PgUnion

variable {C A V : Type} [LinearOrder V] [DecidableEq C]

-- A request for the connection of one of the parents of a bucket.
structure Request (union : PgUnion C A V) where
  paging       : PgPaging
  needsTotal   : Bool
  sourceValues : SourceValues
  values       : List (Key V)
  entry        : Nat

namespace Request

variable {union : PgUnion C A V}

def step (request : union.Request) : PgUnionAllStep C A V where
  toPgUnion  := union
  toPgPaging := request.paging
  needsTotal := request.needsTotal

-- The connection of the entry, before its rows are decoded.
def fetched (e : Engine) (format : CursorFormat (UnionColumn C) V) (text : String → V) (types : SqlTypes C)
    (database : Database C V) (request : union.Request) : Option (Connection (UnionRow union.members)) :=
  match request.step.connections e format text types database request.sourceValues request.values with
  | .error _   => none
  | .ok result => result.entries[request.entry]?

def connection (e : Engine) (format : CursorFormat (UnionColumn C) V) (text : String → V) (types : SqlTypes C)
    (database : Database C V) (request : union.Request) : Option (Connection (UnionRow union.members)) :=
  match request.step.execute e format text types database request.sourceValues request.values with
  | .error _   => none
  | .ok result => result.entries[request.entry]?

-- The page that a client reads. There is none where a cursor is rejected, a statement fails or a value of
-- the bucket is rejected.
def fetch (e : Engine) (format : CursorFormat (UnionColumn C) V) (text : String → V) (types : SqlTypes C)
    (database : Database C V) (request : union.Request) :
    Option (Paging.Page (UnionRow union.members) String) :=
  (request.connection e format text types database).map (·.toPage request.paging.reverse)

variable {e : Engine} {format : CursorFormat (UnionColumn C) V} {text : String → V} {types : SqlTypes C}
variable {database : Database C V} {request : union.Request}

end Request

-- A row as an entry presents it, and as the member that it comes from decodes it. There is none where a
-- value is rejected.
def present (union : PgUnion C A V) (x : union.Source) : Option (UnionRow union.members) :=
  if union.rejectsMemberRow (union.row x) then none else some (union.decodeMemberRow (union.row x))

def own (union : PgUnion C A V) (x : union.Source) : Option (UnionRow union.members) :=
  if union.rejectsBy x.fst.val (union.row x) then none else some (union.decodeBy x.fst.val (union.row x))

-- The rows of a parent in the requested order.
def sorted (union : PgUnion C A V) (e : Engine) (text : String → V) (database : Database C V) (value : Key V) :
    List union.Source :=
  e.sort (orderedBy (orderClauses union.orderBy) (union.valueOf text)) (union.sourcesOf database value)

namespace Pages

variable {union : PgUnion C A V} {value : Key V} {size k : Nat} {reverse : Bool} {cursor : Option String}
variable {request : Option String → union.Request} {e : Engine} {text : String → V}
variable {format : CursorFormat (UnionColumn C) V} {database : Database C V} {types : SqlTypes C}
variable {l : List union.Source}

end Pages

variable {union : PgUnion C A V} {e : Engine} {text : String → V} {value : Key V}
variable {format : CursorFormat (UnionColumn C) V} {database : Database C V} {types : SqlTypes C}

end PgUnion

-- Posts and archived posts, both of one type, with one page order.
namespace Archive

inductive Column
  | id
  deriving DecidableEq

def resource (table : String) : PgResource Column Empty String where
  schema        := "public"
  table         := table
  primaryKey    := .id
  names         := [.inl .id]
  attributes _  := ⟨none, some .string⟩
  expression    := Empty.elim
  columnTypes _ := none
  optOutInline  := false
  hasCustomizer := false

def member (table : String) : PgUnionMember Column Empty String where
  resource        := resource table
  columns         := [.id]
  typeName        := "Post"
  matchColumns    := []
  wherePredicates := []

-- All columns are texts.
def types : SqlTypes Column where
  ofColumn _ _ _ := .string
  common s t     := if s = t then some s else none

def union : PgUnion Column Empty String where
  members       := [member "posts", member "archived_posts"]
  sharedColumns := [.id]
  orderBy       := [.ascending (.column .id), .ascending .typename]
  isPerParent   := false
  matchColumns  := []
  order_ne      := by decide
  order_shared  := fun _ _ c _ => by cases c; decide
  match_eq      := by simp [member]
  match_shared  := by simp

def database : Database Column String
  | "public", "posts"          => [fun _ => some "1"]
  | "public", "archived_posts" => [fun _ => some "1"]
  | _, _                       => []

end Archive

end Grafast
