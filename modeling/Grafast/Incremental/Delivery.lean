import Grafast.Incremental.Record

namespace Grafast

variable {V U : Type}

namespace Data

def isNull : Data V → Bool
  | null => true
  | _    => false

def child : Data V → PathKey → Option (Data V)
  | list items,    .index i => items[i]?
  | object fields, .name k  => fields.lookup k
  | _,             _        => none

def get? : Data V → Path → Option (Data V)
  | data, []          => some data
  | data, key :: path => (data.child key).bind (·.get? path)

-- Whether there is a null at a path or above it, and how far down the path the first one is.
def nullDepth : Data V → Path → Option Nat
  | null, _           => some 0
  | _,    []          => none
  | data, key :: path => (data.child key).bind fun node => (node.nullDepth path).map (· + 1)

def nulled (data : Data V) (path : Path) : Bool :=
  (data.nullDepth path).isSome

-- Whether the path leads to something that is not null.
def present (data : Data V) (path : Path) : Bool :=
  (data.get? path).any (!·.isNull)

-- What a client does at a path with what is delivered for it.
def modify : Data V → Path → (Data V → Data V) → Data V
  | data,          [],               f => f data
  | list items,    .index i :: path, f => list (items.modify i (·.modify path f))
  | object fields, .name k :: path,  f => object (fields.map fun field =>
      if field.1 = k then (field.1, field.2.modify path f) else field)
  | data,          _,                _ => data

def merge (output : List (String × Data V)) : Data V → Data V
  | object fields => object (fields ++ output)
  | data          => data

def append (item : Data V) : Data V → Data V
  | list items => list (items ++ [item])
  | data       => data

end Data

-- `_path_nulled`: a key that is not there ends the search.
def pathNulledFrom : Data V → Path → Bool
  | data,  []       => data.isNull
  | .null, _ :: _   => true
  | data,  key :: path =>
    match data.child key with
    | none      => false
    | some node => pathNulledFrom node path

def pathNulled (data : Data V) (path : Path) : Bool :=
  pathNulledFrom data path.dropLast && !path.isEmpty

def filterNulledRecords (records : List (IncRecord U)) (data : Data V) : List (IncRecord U) :=
  records.filter fun record => !pathNulled data record.recordPath

def filterGroupChildren (children : List (IncRecord U)) (path : Path) (data : Data V) : List (IncRecord U) :=
  children.filter fun child => !pathNulled data (child.recordPath.drop path.length)

-- A completed item as its stream delivers it. Without one the stream has come to its end.
def buildStreamItem (itemIsNonNull : Bool) : Completed V → Option (Data V)
  | .value data => some data
  | .bubble _   => if itemIsNonNull then none else some .null

namespace Delivery

-- What comes of a group, of an item of a stream, or of a stream that has ended. The children are the
-- records that were captured on the way.
inductive Outcome (V U : Type)
  | group (group : ExecGroup U) (out : Slot V) (children : List (IncRecord U))
  | item (stream : StreamRec) (itemIsNonNull : Bool) (completed : Completed V) (children : List (IncRecord U))
  | exhausted (stream : StreamRec)

-- The data that the client has, and the records that may still be announced or delivered.
structure State (V U : Type) where
  client : Data V
  live   : List (IncRecord U)

-- A record is captured at a place that the run has been to, at or below the path of what is run. The
-- place is in the data, unless a null has taken it.
structure Captured (base : Path) (data : Data V) (record : IncRecord U) : Prop where
  below   : base <+: record.path
  reached : data.nulled (record.path.drop base.length) = false →
    (data.get? (record.path.drop base.length)).isSome

namespace State

variable [DecidableEq U]

def init (data : Data V) (records : List (IncRecord U)) : State V U where
  client := data
  live   := filterNulledRecords records data

def drop (s : State V U) (record : IncRecord U) : State V U :=
  { s with live := s.live.erase record }

def deliver (s : State V U) : Outcome V U → State V U
  | .group group (.live output) children => {
      client := s.client.modify group.path (.merge output)
      live   := s.live.erase (.group group) ++ filterGroupChildren children group.path (.object output) }
  | .group group (.dead _) _ => s.drop (.group group)
  | .item stream itemIsNonNull completed children =>
    match buildStreamItem itemIsNonNull completed with
    | some item => { client := s.client.modify stream.path (.append item), live := s.live ++ children }
    | none      => s.drop (.stream stream)
  | .exhausted stream => s.drop (.stream stream)

-- What the executor comes up with: a group has the fields of its object that are not delivered before, and
-- an item comes after the items of its list so far. The children of an item are captured in its own completion;
-- those of a group may come from the run of another group of its batch.
def Permits (s : State V U) : Outcome V U → Prop
  | .group group (.live output) _ =>
    .group group ∈ s.live ∧
    ∀ node, s.client.get? group.path = some node → node.isNull = false →
      ∃ fields, node = .object fields ∧ ∀ name ∈ output.map Prod.fst, name ∉ fields.map Prod.fst
  | .group _ (.dead _) _ => True
  | .item stream itemIsNonNull completed children =>
    .stream stream ∈ s.live ∧
    ∀ item, buildStreamItem itemIsNonNull completed = some item →
      ∀ node, s.client.get? stream.path = some node → node.isNull = false →
        ∃ items, node = .list items ∧
          ∀ record ∈ children, Captured (stream.path ++ [.index items.length]) item record
  | .exhausted _ => True

def Permitted (s : State V U) : List (Outcome V U) → Prop
  | []                  => True
  | outcome :: outcomes => s.Permits outcome ∧ (s.deliver outcome).Permitted outcomes

end State

end Delivery

end Grafast
