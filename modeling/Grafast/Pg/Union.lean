import Grafast.Pg.Page
import Grafast.Sql.Ordered

namespace Grafast

open Sql

-- A column of the rows of a union: a column of its members, or the tag of the concrete type.
inductive UnionColumn (C : Type)
  | column (name : C)
  | typename
  deriving DecidableEq

-- One branch of a union. `C` names the columns of all members, of which the table of a member stores some.
-- In the root mode there are no columns to match.
structure PgUnionMember (C A V : Type) where
  resource        : PgResource C A V
  columns         : List C
  typeName        : String
  matchColumns    : List C
  wherePredicates : List ((C → Option V) → Truth)

-- A database has the rows of a table by its schema and its name.
abbrev Database (C V : Type) := String → String → List (C → Option V)

-- The types of the columns of a database, and the type of a UNION of two types, if they have one.
structure SqlTypes (C : Type) where
  ofColumn (schema table : String) (name : C) : SqlType
  common   : SqlType → SqlType → Option SqlType

namespace SqlTypes

variable {C : Type} (types : SqlTypes C)

-- A NULL literal has no type of its own. Two of them make a text.
def unify : Option SqlType → Option SqlType → Option SqlType
  | none, none     => some .string
  | none, some t   => some t
  | some s, none   => some s
  | some s, some t => types.common s t

-- Whether the types of the legs of a UNION, which is resolved from the left, can be matched.
def unifies : List (Option SqlType) → Bool
  | []           => true
  | left :: rest => (rest.foldl (fun result right => result.bind fun left => (types.unify left right).map some)
      (some left)).isSome

end SqlTypes

inductive UnionError (C : Type)
  | noMembers
  | noSharedColumns
  | orderColumnNotShared (column : UnionColumn C)
  | page (error : PageError)
  | noMatch
  | matchColumnNotShared (column : C)
  | matchArity (typeName : String) (arity expected : Nat)
  | matchColumns (typeName : String) (columns expected : List C)
  | rootMatch (typeName : String) (columns : List C)

inductive UnionQueryError
  | cursor (error : CursorError)
  | undefinedColumn
  | mismatchedTypes
  | negativeLimit
  | rejectedValue

namespace PgUnionMember

variable {C A V : Type} (member : PgUnionMember C A V)

def keyed : PgKeyed C A V where
  resource        := member.resource
  matchColumns    := member.matchColumns
  orderBy         := []
  wherePredicates := member.wherePredicates

def table (database : Database C V) : List (C → Option V) :=
  database member.resource.schema member.resource.table

end PgUnionMember

-- The members and the shape of a union. All order columns and match columns are shared by the members.
structure PgUnion (C A V : Type) where
  members       : List (PgUnionMember C A V)
  sharedColumns : List C
  orderBy       : List (OrderTerm (UnionColumn C))
  isPerParent   : Bool
  matchColumns  : List C
  order_ne      : orderBy ≠ []
  order_shared  : ∀ t ∈ orderBy, ∀ c, t.column = .column c → c ∈ sharedColumns
  match_eq      : ∀ member ∈ members, member.matchColumns = matchColumns
  match_shared  : ∀ c ∈ matchColumns, c ∈ sharedColumns

-- A row of a union carries the type name of one of the members.
structure UnionRow {C A V : Type} (members : List (PgUnionMember C A V)) where
  columns  : C → Option V
  typename : String
  tagged   : typename ∈ members.map (·.typeName)

-- The columns that an ORDER BY clause and a cursor read. A type name is a text among the values.
def UnionRow.value {C A V : Type} {members : List (PgUnionMember C A V)} (text : String → V)
    (row : UnionRow members) : UnionColumn C → Option V
  | .column name => row.columns name
  | .typename    => text row.typename

namespace PgUnion

variable {C A V : Type}

section Legs

variable [DecidableEq C] (union : PgUnion C A V)

-- The columns of some members that are not shared.
def memberColumns : List C :=
  ((union.members.flatMap (·.columns)).filter (· ∉ union.sharedColumns)).eraseDups

def projectedColumns : List C :=
  union.sharedColumns ++ union.memberColumns

-- What a member projects of a row of its table, with NULL for the columns of the other members.
def project (member : { member // member ∈ union.members }) (row : C → Option V) :
    UnionRow union.members where
  columns name :=
    if name ∈ union.sharedColumns then
      row name
    else if name ∈ union.memberColumns ∧ name ∈ member.val.columns then
      row name
    else
      none
  typename := member.val.typeName
  tagged   := List.mem_map_of_mem member.property

-- The member that a type name stands for. Of several members with one type name it is the last.
def memberByType (typename : String) (h : typename ∈ union.members.map (·.typeName)) :
    PgUnionMember C A V :=
  (union.members.filter (·.typeName = typename)).getLast <| by
    obtain ⟨member, hm, ht⟩ := List.mem_map.mp h
    exact List.ne_nil_of_mem (List.mem_filter.mpr ⟨hm, by simpa using ht⟩)

-- A row decoded by the codecs of a member.
def decodeBy (member : PgUnionMember C A V) (row : UnionRow union.members) : UnionRow union.members where
  columns name :=
    if name ∈ union.projectedColumns then
      member.resource.decodeRow (Sum.elim row.columns fun _ => none) (.inl name)
    else
      none
  typename := row.typename
  tagged   := row.tagged

def decodeMemberRow (row : UnionRow union.members) : UnionRow union.members :=
  union.decodeBy (union.memberByType row.typename row.tagged) row

-- Whether the codecs of a member reject a value of a row.
def rejectsBy (member : PgUnionMember C A V) (row : UnionRow union.members) : Bool :=
  union.projectedColumns.any fun name => member.resource.rejectsValue (.inl name) (row.columns name)

def rejectsMemberRow (row : UnionRow union.members) : Bool :=
  union.rejectsBy (union.memberByType row.typename row.tagged) row

-- Each row of the connections is decoded as its type name says.
def decodeConnections (result : Except UnionQueryError (BatchResult (Connection (UnionRow union.members)))) :
    Except UnionQueryError (BatchResult (Connection (UnionRow union.members))) :=
  match result with
  | .error e   => .error e
  | .ok result =>
    match result.decoded union.rejectsMemberRow union.decodeMemberRow with
    | none        => .error .rejectedValue
    | some result => .ok result

-- A statement that names a column which a table does not have is an error.
def columnsStored : Bool :=
  union.members.all fun member => union.sharedColumns.all (· ∈ member.columns)

-- The type of a column in the leg of a member. It is a NULL literal where the member has no such column.
def legType (types : SqlTypes C) (member : PgUnionMember C A V) (name : C) : Option SqlType :=
  if union.sharedColumns.contains name || member.columns.contains name then
    some (types.ofColumn member.resource.schema member.resource.table name)
  else
    none

-- A UNION of legs whose types do not match is an error.
def typesMatch (types : SqlTypes C) : Bool :=
  union.projectedColumns.all fun name => types.unifies (union.members.map (union.legType types · name))

end Legs

section Queries

variable [LinearOrder V] (union : PgUnion C A V)

-- The rows of the WHERE clause of a member, without a cursor.
def matched (database : Database C V) (uniqueKeys : List (List (Option V)))
    (member : PgUnionMember C A V) : List (C → Option V) :=
  if union.isPerParent then
    member.keyed.matched (member.table database) uniqueKeys
  else
    (member.table database).filter member.keyed.passes

-- The type name is a literal in each branch.
def columnExprs (text : String → V) (member : PgUnionMember C A V) :
    UnionColumn C → Option (Operand (UnionColumn C) V)
  | .column _ => none
  | .typename => some (.value (text member.typeName))

def tableRow (row : C → Option V) : UnionColumn C → Option V
  | .column name => row name
  | .typename    => none

-- Whether a row of the table of a member is on the side of the cursor that the page is on.
def beyondCursor (text : String → V) (paging : PgPaging) (afterValues beforeValues : Option (List (Option V)))
    (member : PgUnionMember C A V) (row : C → Option V) : Bool :=
  (paging.cursorPredicate union.orderBy (columnExprs text member) afterValues beforeValues).all
    (·.eval (tableRow row) = .yes)

variable [DecidableEq C]

def branchSelect (text : String → V) (database : Database C V) (uniqueKeys : List (List (Option V)))
    (paging : PgPaging) (afterValues beforeValues : Option (List (Option V)))
    (member : { member // member ∈ union.members }) : List (UnionRow union.members) :=
  ((union.matched database uniqueKeys member).filter
    (union.beyondCursor text paging afterValues beforeValues member)).map (union.project member)

def unionRows (text : String → V) (database : Database C V) (uniqueKeys : List (List (Option V)))
    (paging : PgPaging) (afterValues beforeValues : Option (List (Option V))) :
    List (UnionRow union.members) :=
  union.members.attach.flatMap (union.branchSelect text database uniqueKeys paging afterValues beforeValues)

-- The keys of the rows that the total counts.
def countUnion (database : Database C V) (uniqueKeys : List (List (Option V))) : List (C → Option V) :=
  union.members.flatMap (union.matched database uniqueKeys)

end Queries

end PgUnion

structure PgUnionAllStep (C A V : Type) extends PgUnion C A V, PgPaging where
  needsTotal : Bool

namespace PgUnionAllStep

variable {C A V : Type}

section Constructor

variable [DecidableEq C]

-- Every member has the match columns of the first one, and they are shared.
def assertMembersHaveMatch (members : List (PgUnionMember C A V)) (expected sharedColumns : List C) :
    Except (UnionError C) Unit :=
  if expected = [] then
    .error .noMatch
  else
    match expected.find? (· ∉ sharedColumns) with
    | some c => .error (.matchColumnNotShared c)
    | none   =>
      match members.find? (·.matchColumns ≠ expected) with
      | none        => .ok ()
      | some member =>
        if member.matchColumns.length ≠ expected.length then
          .error (.matchArity member.typeName member.matchColumns.length expected.length)
        else
          .error (.matchColumns member.typeName member.matchColumns expected)

def assertMembersHaveNoMatch (members : List (PgUnionMember C A V)) : Except (UnionError C) Unit :=
  match members.find? (·.matchColumns ≠ []) with
  | none        => .ok ()
  | some member => .error (.rootMatch member.typeName member.matchColumns)

theorem assertMembersHaveMatch_ok {members : List (PgUnionMember C A V)} {expected sharedColumns : List C}
    (h : assertMembersHaveMatch members expected sharedColumns = .ok ()) :
    (∀ member ∈ members, member.matchColumns = expected) ∧ ∀ c ∈ expected, c ∈ sharedColumns := by
  rw [assertMembersHaveMatch] at h
  by_cases he : expected = []
  case pos => simp [he] at h
  case neg =>
    rw [if_neg he] at h
    split at h
    case h_1    => cases h
    case h_2 hs =>
      split at h
      case h_1 hm => exact ⟨by simpa using hm, by simpa using hs⟩
      case h_2    => split at h <;> cases h

omit [DecidableEq C] in
theorem assertMembersHaveNoMatch_ok {members : List (PgUnionMember C A V)}
    (h : assertMembersHaveNoMatch members = .ok ()) : ∀ member ∈ members, member.matchColumns = [] := by
  rw [assertMembersHaveNoMatch] at h
  split at h
  case h_1 hm => simpa using hm
  case h_2    => cases h

-- The match columns of a step, if its members agree on them.
def matchColumnsOf (members : List (PgUnionMember C A V)) (first : PgUnionMember C A V)
    (sharedColumns : List C) (perParent : Bool) : Except (UnionError C) (List C) :=
  if perParent then
    match assertMembersHaveMatch members first.matchColumns sharedColumns with
    | .error e => .error e
    | .ok _    => .ok first.matchColumns
  else
    match assertMembersHaveNoMatch members with
    | .error e => .error e
    | .ok _    => .ok []

theorem matchColumnsOf_ok {members : List (PgUnionMember C A V)} {first : PgUnionMember C A V}
    {sharedColumns columns : List C} {perParent : Bool}
    (h : matchColumnsOf members first sharedColumns perParent = .ok columns) :
    (∀ member ∈ members, member.matchColumns = columns) ∧ ∀ c ∈ columns, c ∈ sharedColumns := by
  rw [matchColumnsOf] at h
  cases perParent
  case false =>
    cases hm : assertMembersHaveNoMatch members
    case error => simp [hm] at h
    case ok    =>
      obtain rfl : [] = columns := by simpa [hm] using h
      exact ⟨assertMembersHaveNoMatch_ok hm, by simp⟩
  case true  =>
    cases hm : assertMembersHaveMatch members first.matchColumns sharedColumns
    case error => simp [hm] at h
    case ok    =>
      obtain rfl : first.matchColumns = columns := by simpa [hm] using h
      exact assertMembersHaveMatch_ok hm

-- The order of a union ends with the type name, behind the primary key of the first member.
def orderOf (first : PgUnionMember C A V) (orderBy : Option (List (OrderEntry (UnionColumn C))))
    (orderIsUnique : Bool) : List (OrderTerm (UnionColumn C)) :=
  normalizeOrder orderBy (.column first.resource.primaryKey) orderIsUnique ++ [.ascending .typename]

def isShared (sharedColumns : List C) : UnionColumn C → Bool
  | .column name => name ∈ sharedColumns
  | .typename    => true

def make (format : CursorFormat (UnionColumn C) V) (members : List (PgUnionMember C A V))
    (sharedColumns : List C) (orderBy : Option (List (OrderEntry (UnionColumn C)))) (orderIsUnique : Bool)
    (perParent : Bool) (paging : PgPaging) (needsTotal : Bool) :
    Except (UnionError C) (PgUnionAllStep C A V) :=
  match members with
  | []             => .error .noMembers
  | first :: rest  =>
    if sharedColumns.isEmpty then
      .error .noSharedColumns
    else
      match ho : (orderOf first orderBy orderIsUnique).find? (!isShared sharedColumns ·.column) with
      | some term => .error (.orderColumnNotShared term.column)
      | none      =>
        match paging.check, paging.decodeLiteralCursors format (orderOf first orderBy orderIsUnique) with
        | .error e, _     => .error (.page e)
        | .ok _, .error e => .error (.page e)
        | .ok _, .ok _    =>
          match hm : matchColumnsOf (first :: rest) first sharedColumns perParent with
          | .error e          => .error e
          | .ok matchColumns  => .ok {
            members       := first :: rest
            sharedColumns := sharedColumns
            orderBy       := orderOf first orderBy orderIsUnique
            isPerParent   := perParent
            matchColumns  := matchColumns
            order_ne      := by simp [orderOf]
            order_shared  := fun t ht c hc => by simpa [isShared, hc] using List.find?_eq_none.mp ho t ht
            match_eq      := (matchColumnsOf_ok hm).left
            match_shared  := (matchColumnsOf_ok hm).right
            toPgPaging    := paging
            needsTotal    := needsTotal }

end Constructor

section Execution

variable [DecidableEq C] [LinearOrder V] (step : PgUnionAllStep C A V)

-- The rows of the page query. Each parent is numbered on its own.
def pageRows (e : Engine) (text : String → V) (database : Database C V)
    (uniqueKeys : List (List (Option V))) (sourceValues : SourceValues)
    (afterValues beforeValues : Option (List (Option V))) : List (UnionRow step.members) :=
  let union := step.unionRows text database uniqueKeys step.toPgPaging afterValues beforeValues
  let order := orderedBy (orderClauses (step.effectiveOrder step.orderBy)) (UnionRow.value text)
  if step.isPerParent then
    let numbered := e.rowNumber (fun row => step.matchColumns.map row.columns) order union
    let page := numbered.filter fun row => (step.pageLimit sourceValues).all ((row.snd : Int) ≤ ·)
    (e.sort (fun x y => orderedThen (orderClauses (step.matchColumns.map .ascending))
      (x.fst.columns, x.snd) (y.fst.columns, y.snd)) page).map (·.fst)
  else
    slice none ((step.pageLimit sourceValues).map Int.toNat) (e.sort order union)

-- The totals of the parents, without regard to the page. In the root mode there is one, under no key.
def totals (database : Database C V) (uniqueKeys : List (List (Option V))) : List (Key V × Nat) :=
  if !step.needsTotal then
    []
  else if step.isPerParent then
    (((step.countUnion database uniqueKeys).map fun row => (groupingKey row step.matchColumns, row)).foldl
      Batch.addToGroup []).map fun group => (group.fst, group.snd.length)
  else
    [(none, (step.countUnion database uniqueKeys).length)]

-- The connection of one parent, with its rows as they are fetched.
def build (format : CursorFormat (UnionColumn C) V) (text : String → V) (rows : List (UnionRow step.members))
    (total : Nat) (sourceValues : SourceValues) (afterValues beforeValues : Option (List (Option V))) :
    Connection (UnionRow step.members) :=
  step.buildConnection format step.orderBy (UnionRow.value text) id rows total sourceValues afterValues
    beforeValues

def normalizedKeys (values : List (Key V)) : List (Key V) :=
  values.map (normalizeLookupKey · (1 < step.matchColumns.length))

-- In the root mode, the entries of a bucket have no keys, and all of them get the same connection.
def connections (e : Engine) (format : CursorFormat (UnionColumn C) V) (text : String → V) (types : SqlTypes C)
    (database : Database C V) (sourceValues : SourceValues) (values : List (Key V)) :
    Except UnionQueryError (BatchResult (Connection (UnionRow step.members))) :=
  match resolveCursor format step.orderBy step.after sourceValues,
      resolveCursor format step.orderBy step.before sourceValues with
  | .error e, _                        => .error (.cursor e)
  | .ok _, .error e                    => .error (.cursor e)
  | .ok afterValues, .ok beforeValues  =>
    let keys := step.normalizedKeys values
    let uniqueKeys := keys.eraseDups.filterMap id
    if step.isPerParent && uniqueKeys.isEmpty then
      .ok ⟨0, values.map fun _ => step.build format text [] 0 sourceValues afterValues beforeValues⟩
    else if !step.columnsStored then
      .error .undefinedColumn
    else if !step.typesMatch types then
      .error .mismatchedTypes
    else if !step.isPerParent && (step.pageLimit sourceValues).any (· < 0) then
      .error .negativeLimit
    else
      let rows := step.pageRows e text database uniqueKeys sourceValues afterValues beforeValues
      let totals := step.totals database uniqueKeys
      let byKey := (rows.map fun row => (groupingKey row.columns step.matchColumns, row)).foldl
        Batch.addToGroup []
      .ok ⟨if step.needsTotal then 2 else 1, keys.map fun key =>
        if step.isPerParent then
          step.build format text ((byKey.lookup key).getD []) ((totals.lookup key).getD 0) sourceValues
            afterValues beforeValues
        else
          step.build format text rows ((totals.lookup none).getD 0) sourceValues afterValues beforeValues⟩

-- The connections of a bucket, with their rows decoded.
def execute (e : Engine) (format : CursorFormat (UnionColumn C) V) (text : String → V) (types : SqlTypes C)
    (database : Database C V) (sourceValues : SourceValues) (values : List (Key V)) :
    Except UnionQueryError (BatchResult (Connection (UnionRow step.members))) :=
  step.decodeConnections (step.connections e format text types database sourceValues values)

end Execution

end PgUnionAllStep

end Grafast
