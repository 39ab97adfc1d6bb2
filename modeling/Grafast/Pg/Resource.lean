namespace Grafast

inductive SqlType
  | integer
  | boolean
  | string
  | json
  | other (name : String)
  deriving DecidableEq

-- A decoder may reject a value, for which it raises.
structure PgCodec (V : Type) where
  toPy       : Option (Option V → Option V)
  rejects    : Option V → Bool := fun _ => false
  toPg       : Option (V → V)
  sqlType    : Option SqlType
  jsonStable : Option Bool

structure PgColumn (V : Type) where
  codec   : Option (PgCodec V)
  sqlType : Option SqlType

-- A table with the stored columns `C`, and the computed attributes `A` over them. Rows are fetched with the
-- attributes that are listed.
structure PgResource (C A V : Type) where
  schema        : String
  table         : String
  primaryKey    : C
  names         : List (C ⊕ A)
  attributes    : C ⊕ A → PgColumn V
  expression    : A → (C → Option V) → Option V
  columnTypes   : C ⊕ A → Option SqlType
  optOutInline  : Bool
  hasCustomizer : Bool

-- A fetched row, as a dictionary from attributes to values.
abbrev RowDict (C A V : Type) := C ⊕ A → Option V

namespace PgResource

variable {C A V : Type}

-- What a SELECT of the stored columns and the computed projections fetches for a row of the table.
def project (resource : PgResource C A V) (row : C → Option V) : RowDict C A V
  | .inl column   => row column
  | .inr computed => resource.expression computed row

-- The resource without its decoders.
def undecoded (resource : PgResource C A V) : PgResource C A V :=
  { resource with attributes := fun _ => ⟨none, none⟩ }

def toPy (resource : PgResource C A V) (name : C ⊕ A) : Option (Option V → Option V) :=
  (resource.attributes name).codec.bind (·.toPy)

-- Attributes without a decoder pass through.
def decodeRow (resource : PgResource C A V) (row : RowDict C A V) : RowDict C A V :=
  fun name =>
    match resource.toPy name with
    | none   => row name
    | some f => f (row name)

-- Whether one value is rejected by the decoder of its attribute.
def rejectsValue (resource : PgResource C A V) (name : C ⊕ A) (value : Option V) : Bool :=
  (resource.attributes name).codec.any fun codec => codec.toPy.isSome && codec.rejects value

def rejects (resource : PgResource C A V) (row : RowDict C A V) : Bool :=
  resource.names.any fun name => resource.rejectsValue name (row name)

def decodeRows (resource : PgResource C A V) (rows : List (RowDict C A V)) : List (RowDict C A V) :=
  rows.map resource.decodeRow

-- What is taken of the rows where all of them are decoded. One value that is rejected raises for all.
def decodedBy {β : Type} (resource : PgResource C A V) (take : List (RowDict C A V) → β)
    (rows : List (RowDict C A V)) : Option β :=
  if rows.any resource.rejects then none else some (take (resource.decodeRows rows))

end PgResource

end Grafast
