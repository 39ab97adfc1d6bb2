import Grafast.Batch.Scatter
import Grafast.Step.Basic
import Grafast.Step.Core
import Grafast.Step.GlobalId

namespace Grafast

open PyValue

open Text (Str Json Raised)

-- What a loader gives: its results, an exception that it raises, or an awaitable of either.
inductive Loaded (V : Type)
  | column (values : List V)
  | raised (error : V)
  | awaitable (result : Except V (List V))

def Loaded.settled {V : Type} : Loaded V → Except V (List V)
  | column values    => .ok values
  | raised error     => .error error
  | awaitable result => result

class Loading (V F : Type) where
  load : F → List V → Loaded V

-- What leaves `execute`: what the engine asserts of loaders, one result a key, or what an id raises other than a
-- `ValueError`.
inductive LoadError (V : Type)
  | misaligned (results keys : Nat)
  | misalignedType (typename : Str) (results keys : Nat)
  | noResult
  | undecoded (error : V)

-- Values of an interpreter, some of which are strings. Other values are given by their texts, JSON by its values, and
-- the exceptions of the decoding by theirs.
class GlobalIds (V : Type) (S : outParam Type) extends PyValue V S where
  python         : GlobalId.Python V V
  given          : V → GlobalId.Given V
  ofStr          : Str → V
  ofJson         : Json → V
  valueError     : String → V
  keyError       : String → V
  recursionError : V
  given_ofStr    : ∀ s, given (ofStr s) = .str s
  not_exception  : ∀ s, isException (ofStr s) = false

section

variable {V S : Type} [GlobalIds V S]

open GlobalIds

def Decoding.ofExcept : Except (Raised V) (Str × List Json) → Decoding V
  | .ok (typename, idParts)    => .decoded typename (idParts.map ofJson)
  | .error (.valueError text)  => .valueError (GlobalIds.valueError text)
  | .error .recursionError     => .raised recursionError
  | .error (.other error)      => .raised error

-- An entry of a column, as the node step finds it.
def GlobalIds.entry (raw : V) : GlobalId.IdEntry V V :=
  if isException raw then .exception raw else .value (given raw)

def GlobalIds.keyValue : GlobalId.Key → V
  | .single part     => ofJson part
  | .composite parts => ofTuple (parts.map ofJson)

def GlobalIds.errorValue : GlobalId.EntryError V → V
  | .upstream error => error
  | .malformed text => valueError text
  | .noLoader text  => keyError text

def GlobalIds.keyOrError : Except (GlobalId.EntryError V) (Str × GlobalId.Key) → Except V (Str × V)
  | .ok (typename, key) => .ok (typename, keyValue key)
  | .error error        => .error (errorValue error)

def GlobalIds.raisedValue : Raised V → V
  | .valueError text => valueError text
  | .recursionError  => recursionError
  | .other error     => error

end

-- The values whose global ids are decoded as text, and whose errors have the texts of the node step.
class DecodedIds (V : Type) (S : outParam Type) extends GlobalIds V S where
  decode_eq   : ∀ raw, decodeGlobalId raw = .ofExcept (GlobalId.decodeGlobalId python (given raw))
  noLoader_eq : ∀ typename, noLoader typename =
    keyError ("node(id): no loader registered for type " ++ python.reprStr typename)

variable {V S F : Type} [PyValue V S] [Loading V F]

-- A call of a loader, which is recorded.
def callLoader (loader : F) (keys : List V) : StateM (List (F × List V)) (Loaded V) := do
  modify (· ++ [(loader, keys)])
  return Loading.load loader keys

def Out.ofExcept {E : Type} : Except E (List V) → Out V E
  | .ok values   => .column values
  | .error error => .raised error

namespace LoadStep

def scatter (loaded : List V) (entrySlot : List Nat) (nKeys : Nat) : Except (LoadError V) (List V) :=
  if loaded.length ≠ nKeys then
    .error (.misaligned loaded.length nKeys)
  else
    match entrySlot.mapM (loaded[·]?) with
    | some column => .ok column
    | none        => .error .noResult

def execute (loadFn : F) (keys : List V) : StateM (List (F × List V)) (Out V (LoadError V)) := do
  let c := CoreStep.coalesce keys
  match ← callLoader loadFn c.uniqueKeys with
  | .raised error            => return .column (List.replicate keys.length error)
  | .column loaded           => return .ofExcept (scatter loaded c.entrySlot c.uniqueKeys.length)
  | .awaitable (.error error) => return .awaitable (.ok (List.replicate keys.length error))
  | .awaitable (.ok loaded)   => return .awaitable (scatter loaded c.entrySlot c.uniqueKeys.length)

end LoadStep

namespace NodeStep

-- The keys of each type, in the order of the entries. An entry with an error has none.
def keysByType (entries : List (Except V (Str × V))) : List (Str × List V) :=
  (entries.filterMap Except.toOption).foldl Batch.addToGroup []

-- Each type is loaded once, in the order of the types.
def loadTypes (loaders : Loaders F) :
    List (Str × List V) → StateM (List (F × List V)) (List (Str × Loaded V))
  | []                       => return []
  | (typename, keys) :: rest =>
    match loaders.items.lookup typename with
    | none        => loadTypes loaders rest
    | some loader => do
      let result ← callLoader loader keys
      return (typename, result) :: (← loadTypes loaders rest)

-- The results that come back are as many as the keys.
def checkTypes (loaded : List (Str × Except V (List V))) :
    List (Str × List V) → Except (LoadError V) Unit
  | []                       => .ok ()
  | (typename, keys) :: rest =>
    match loaded.lookup typename with
    | some (.ok results) =>
      if results.length ≠ keys.length then
        .error (.misalignedType typename results.length keys.length)
      else
        checkTypes loaded rest
    | _                  => checkTypes loaded rest

-- The walk over the entries. Each type has a cursor of its own, which stays where it is over an error.
def scatterFrom (loaded : List (Str × Except V (List V))) :
    (Str → Nat) → List (Except V (Str × V)) → Option (List V)
  | _,       []                            => some []
  | nextPos, .error error :: entries       => (scatterFrom loaded nextPos entries).map (error :: ·)
  | nextPos, .ok (typename, _) :: entries  =>
    match loaded.lookup typename with
    | none                => none
    | some (.error error) => (scatterFrom loaded nextPos entries).map (error :: ·)
    | some (.ok results)  =>
      (results[nextPos typename]?).bind fun value =>
        (scatterFrom loaded (Function.update nextPos typename (nextPos typename + 1)) entries).map (value :: ·)

def scatterNodes (entries : List (Except V (Str × V))) (loaded : List (Str × Except V (List V))) :
    Except (LoadError V) (List V) :=
  match checkTypes loaded (keysByType entries) with
  | .error error => .error error
  | .ok _        =>
    match scatterFrom loaded (fun _ => 0) entries with
    | some column => .ok column
    | none        => .error .noResult

def isAwaitable : Loaded V → Bool
  | .awaitable _ => true
  | _            => false

-- The awaitables of types are awaited one after the other.
def execute (loaders : Loaders F) (ids : List V) : StateM (List (F × List V)) (Out V (LoadError V)) := do
  match CoreStep.nodeKeys loaders ids with
  | .error error => return .raised (.undecoded error)
  | .ok entries  =>
    let loaded ← loadTypes loaders (keysByType entries)
    let column := scatterNodes entries (loaded.map fun result => (result.fst, result.snd.settled))
    return if loaded.any (isAwaitable ·.snd) then .awaitable column else .ofExcept column

end NodeStep

-- The column that the step ends with.
def Out.settled {E : Type} : Out V E → Except E (List V)
  | column values    => .ok values
  | awaitable result => result
  | raised error     => .error error

end Grafast
