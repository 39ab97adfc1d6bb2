import Grafast.Pg.Connection
import Grafast.Pg.Theorems.Keyed
import Grafast.Pg.Theorems.Page
import Grafast.Sql.Ordered

namespace Grafast

open Sql

namespace PgConnectionStep

variable {C A V : Type} [LinearOrder V] {step : PgConnectionStep C A V} {e : Engine}
variable {format : CursorFormat C V} {table : List (C → Option V)} {sourceValues : SourceValues}
variable {uniqueKeys : List (List (Option V))} {key : List (Option V)} {value : Key V}
variable {values : List (Key V)} {afterValues beforeValues : Option (List (Option V))} {limit : Nat}

-- Whether a row is on the side of the cursor that the page is on.
def beyondCursor (step : PgConnectionStep C A V) (afterValues beforeValues : Option (List (Option V)))
    (row : C → Option V) : Bool :=
  (step.cursorPredicate step.orderBy (fun _ => none) afterValues beforeValues).all (·.eval row = .yes)

theorem mem_pageRows {row : C → Option V}
    (h : row ∈ step.pageRows e table uniqueKeys sourceValues afterValues beforeValues) :
    row ∈ step.matched table uniqueKeys := by
  simp only [pageRows, List.mem_map] at h
  obtain ⟨x, hx, rfl⟩ := h
  exact List.mem_of_mem_filter (Engine.mem_rowNumber (List.mem_of_mem_filter (Engine.mem_sort.mp hx)))

-- The page of a parent is numbered without regard to the other parents.
theorem pageRows_filter (hk : key ∈ uniqueKeys) :
    (step.pageRows e table uniqueKeys sourceValues afterValues beforeValues).filter
        (step.matchColumns.map · = key) =
      slice none ((step.pageLimit sourceValues).map Int.toNat)
        (e.sort (ordered (orderClauses (step.effectiveOrder step.orderBy)))
          ((step.matched table [key]).filter (step.beyondCursor afterValues beforeValues))) := by
  rw [pageRows, List.filter_map]
  refine (congrArg (List.map Prod.fst) (e.filter_sort_rowNumber (step.matchColumns.map ·) _ _ key
    (fun n => (step.pageLimit sourceValues).all ((n : Int) ≤ ·)) (fun _ _ _ => orderedThen_trans)
    (fun _ _ => orderedThen_total) fun x y h => orderedThen_of_eq fun k hk => ?_)).trans ?_
  case refine_1 =>
    simp only [orderClauses, List.map_map, List.mem_map] at hk
    obtain ⟨c, hc, rfl⟩ := hk
    exact List.map_inj_left.mp h c hc
  case refine_2 =>
    rw [← PgKeyed.matched_filter hk, List.filter_comm]
    exact zipIdx_filter_limit

-- What the dictionary of the page holds for a key.
theorem lookup_pageRows (step : PgConnectionStep C A V) (e : Engine) (table : List (C → Option V))
    (uniqueKeys : List (List (Option V))) (sourceValues : SourceValues)
    (afterValues beforeValues : Option (List (Option V))) (k : Key V) :
    ((step.groupRows id (step.pageRows e table uniqueKeys sourceValues afterValues beforeValues)).lookup
      k).getD [] = (step.pageRows e table uniqueKeys sourceValues afterValues beforeValues).filter
        fun row => some (step.matchColumns.map row) = k := by
  rw [PgKeyed.lookup_groupRows]
  exact PgKeyed.filter_groupingKey fun (row : C → Option V) hrow => mem_pageRows hrow

-- The row set of an entry on a page, under an order without ties among the rows of its parent.
theorem entryRows_eq (hv : value ∈ values) (hl : step.pageLimit sourceValues = some (limit : Int))
    (hs : ∀ r ∈ step.rowsOf table value, ∀ s ∈ step.rowsOf table value,
      (∀ t ∈ step.orderBy, r t.column = s t.column) → r = s) :
    ((step.pageRows e table ((step.normalizedKeys values).eraseDups.filterMap id) sourceValues
      afterValues beforeValues).filter
        fun row => some (step.matchColumns.map row) = normalizeLookupKey value step.isComposite) =
      ((e.sort (ordered (orderClauses (step.effectiveOrder step.orderBy))) (step.rowsOf table value)).filter
        (step.beyondCursor afterValues beforeValues)).take limit := by
  rw [PgKeyed.rowsOf] at hs ⊢
  cases hk : normalizeLookupKey value step.isComposite
  case none     => simp [Engine.sort_nil]
  case some key =>
    have hm : key ∈ (step.normalizedKeys values).eraseDups.filterMap id := by
      simpa using PgKeyed.mem_normalizedKeys.mpr ⟨value, hv, hk⟩
    simp only [Option.some.injEq]
    rw [hk] at hs
    rw [pageRows_filter hm, hl]
    exact congrArg (List.take limit) (Engine.filter_sort_orderedBy fun r hr s hs' h h' =>
      hs r hr s hs' (step.eq_of_ordered_effective h h'))

-- A request for the connection of one of the parents of a bucket.
structure Request (C A V : Type) where
  step         : PgConnectionStep C A V
  sourceValues : SourceValues
  values       : List (Key V)
  entry        : Nat

-- The page that a client reads. There is none where a cursor is rejected.
def Request.fetch (e : Engine) (format : CursorFormat C V) (table : List (C → Option V))
    (request : Request C A V) : Option (Paging.Page (RowDict C A V) String) :=
  match request.step.execute e format table request.sourceValues request.values with
  | .error _   => none
  | .ok result => result.entries[request.entry]?.map (·.toPage request.step.reverse)

namespace Pages

variable {keyed : PgKeyed C A V} {size k : Nat} {reverse : Bool} {cursor : Option String}
variable {request : Option String → Request C A V}

end Pages

omit [LinearOrder V] in
-- A connection step has what its host asks for, and the order that is normalized from it.
theorem make_ok [DecidableEq C] {resource : PgResource C A V} {matchColumns : List C}
    {orderBy : Option (List (OrderEntry C))} {orderIsUnique needsTotal : Bool} {paging : PgPaging}
    {wherePredicates : List ((C → Option V) → Truth)}
    (h : make format resource matchColumns orderBy orderIsUnique paging needsTotal wherePredicates =
      .ok step) :
    step.resource = resource ∧
      step.orderBy = normalizeOrder orderBy resource.primaryKey orderIsUnique := by
  simp only [make, bind, Except.bind] at h
  cases hc : paging.check
  case error => simp [hc] at h
  case ok    =>
    cases ha : PgPaging.decodeLiteralCursor format
      (normalizeOrder orderBy resource.primaryKey orderIsUnique) paging.after
    case error => simp [hc, ha] at h
    case ok    =>
      cases hb : PgPaging.decodeLiteralCursor format
        (normalizeOrder orderBy resource.primaryKey orderIsUnique) paging.before
      case error => simp [hc, ha, hb] at h
      case ok    =>
        simp only [hc, ha, hb, pure, Except.pure, Except.ok.injEq] at h
        simp only [← h, and_self]

end PgConnectionStep

-- Comments on posts. Their rank is unique where they have one.
namespace Comments

inductive Column
  | id
  | post
  | rank
  deriving DecidableEq

def resource : PgResource Column Empty Nat where
  schema        := "public"
  table         := "comments"
  primaryKey    := .id
  names         := [.inl .id, .inl .post, .inl .rank]
  attributes _  := ⟨none, some .integer⟩
  expression    := Empty.elim
  columnTypes _ := none
  optOutInline  := false
  hasCustomizer := false

def comment (id : Nat) (rank : Option Nat) : Column → Option Nat
  | .id   => some id
  | .post => some 7
  | .rank => rank

def byRank (orderIsUnique : Bool) : PgKeyed Column Empty Nat where
  resource        := resource
  matchColumns    := [.post]
  orderBy         := normalizeOrder (some [.name .rank]) .id orderIsUnique
  wherePredicates := []

-- Cursors with their numbers as tallies.
def tally : Option Nat → List Char
  | none   => ['n']
  | some n => List.replicate n '|' ++ [',']

def readTallies : List Char → Option (List Char × List (Option Nat))
  | []        => none
  | ':' :: cs => some (cs, [])
  | 'n' :: cs => (readTallies cs).map fun p => (p.fst, none :: p.snd)
  | ',' :: cs => (readTallies cs).map fun p => (p.fst, some 0 :: p.snd)
  | _ :: cs   => (readTallies cs).map fun p => (p.fst, p.snd.modifyHead (Option.map (· + 1)))

theorem readTallies_append {digest : List Char} {values : List (Option Nat)} :
    readTallies (values.flatMap tally ++ ':' :: digest) = some (digest, values) := by
  induction values
  case nil               => rfl
  case cons v values hi =>
    rw [List.flatMap_cons, List.append_assoc]
    cases v
    case none   => simp [tally, readTallies, hi]
    case some n =>
      induction n
      case zero      => simp [tally, readTallies, hi]
      case succ n hn =>
        have hs : tally (some (n + 1)) = '|' :: tally (some n) := rfl
        rw [hs]
        simp [readTallies, hn]

def tallies : CursorFormat Column Nat where
  sha256 _      := "order"
  dumps payload := String.ofList (payload.snd.flatMap tally ++ ':' :: payload.fst.toList)
  loads cursor  := (readTallies cursor.toList).map fun p => (String.ofList p.fst, p.snd)
  loads_dumps _ := by simp [readTallies_append]
  dumps_ne _    := by simp

end Comments

end Grafast
