import Grafast.Incremental.Stream

namespace Grafast.Streaming

variable {V : Type}

-- The outcome of an item, without a result if its completion raises: it fails with some error.
def Fails (outcome : Option (Completed V)) (error : LocatedError V) : Prop :=
  ∀ completed, outcome = some completed → completed = .bubble error

-- What is to be delivered of some items: their data in order, up to the failure of a non-null item, and
-- the errors that the stream completes with.
inductive Delivery (itemIsNonNull : Bool) (ending : List (LocatedError V)) :
    List (Option (Completed V)) → List (Data V) → List (LocatedError V) → Prop
  | ended : Delivery itemIsNonNull ending [] [] ending
  | value {data : Data V} {outcomes : List (Option (Completed V))} {ds : List (Data V)}
    {errors : List (LocatedError V)} : Delivery itemIsNonNull ending outcomes ds errors →
    Delivery itemIsNonNull ending (some (.value data) :: outcomes) (data :: ds) errors
  | nulled {outcome : Option (Completed V)} {error : LocatedError V}
    {outcomes : List (Option (Completed V))} {ds : List (Data V)} {errors : List (LocatedError V)} :
    itemIsNonNull = false → Fails outcome error → Delivery itemIsNonNull ending outcomes ds errors →
    Delivery itemIsNonNull ending (outcome :: outcomes) (.null :: ds) errors
  | failed {outcome : Option (Completed V)} {error : LocatedError V}
    {outcomes : List (Option (Completed V))} : itemIsNonNull = true → Fails outcome error →
    Delivery itemIsNonNull ending (outcome :: outcomes) [] [error]

-- The batches of a stream deliver its items, each once, and one record ends it.
def Streams (itemIsNonNull : Bool) (outcomes : List (Option (Completed V)))
    (ending : List (LocatedError V)) (results : List (StreamResult V)) : Prop :=
  ∃ (batches : List (List (Data V) × List (LocatedError V))) (errors : List (LocatedError V)),
    results = batches.map (fun batch => .incremental batch.fst batch.snd) ++ [.completed errors] ∧
      Delivery itemIsNonNull ending outcomes (batches.flatMap (·.fst)) errors

-- The initial items are those of the list, and the stream delivers the others. A failure of a non-null
-- item among the initial ones nulls the list.
def DeliversItems (itemIsNonNull : Bool) (head tail : List (Option (Completed V)))
    (ending : List (LocatedError V)) (driven : Option (Driven V)) : Prop :=
  ∃ items, head = items.map some ∧
    match completeItems itemIsNonNull items with
    | .bubble error => driven = some (.field (.bubble error))
    | .value data   => ∃ results, driven = some (.streamed data results) ∧
      Streams itemIsNonNull tail ending results

-- Whether no item raises up to the one that ends the stream, and the last pull neither if it is reached.
def ItemsSafe (itemIsNonNull endingSafe : Bool) : List (Option (Completed V)) → Prop
  | []                              => endingSafe
  | none :: _                       => False
  | some (.value _) :: outcomes     => ItemsSafe itemIsNonNull endingSafe outcomes
  | some (.bubble _) :: outcomes    => itemIsNonNull ∨ ItemsSafe itemIsNonNull endingSafe outcomes

-- Whether no item of a list that is completed in advance raises before its result is awaited.
def AdvanceSafe (early : Bool) (arrivals : Nat → Arrival) (initialCount : Nat)
    (outcomes : List (Option (Completed V))) (source : Source V) : Prop :=
  match source with
  | .list _       => early → ∀ k, arrivals (initialCount + k) = .ready → outcomes[k]? ≠ some none
  | .iterator _ _ => True

def Caught (isCaughtError : V → Bool) (raises : Option V) : Bool :=
  raises.all isCaughtError

section Source

variable {T L S I : Type} [DecidableEq I] [Host V T] (runs : LayerRuns L S I V)

open Host

-- What completion makes of the items of a list.
def outcomes (item : Completer T L S) (fieldLabel : String) (e : Grafast.Entry V) (keys : Option (List I))
    (seed : I → V) (source : Source V) : List (Option (Completed V)) :=
  (itemEntries e source.values).map fun i =>
    Reported.value? (completeItem runs item fieldLabel i (layerSeeds (keys.getD []) (some <| seed ·)))

-- What a streamed field is to come to.
def Delivers (itemIsNonNull : Bool) (path : Path) (initialCount : Int) (source : Source V)
    (outcomes : List (Option (Completed V))) (driven : Option (Driven V)) : Prop :=
  let n := initialCount.toNat
  if initialCount < 0 then
    driven = some (.field (.bubbleAt initialCountError path))
  else
    match headError n source with
    | some error => driven = some (.field (.bubbleAt (.raised error) path))
    | none       => DeliversItems itemIsNonNull (outcomes.take n) (outcomes.drop n)
      (source.raises.toList.map fun error => located (.raised error) path) driven

-- Whether a streamed field calls nothing that raises what is not caught.
def DriveSafe (isCaughtError : V → Bool) (itemIsNonNull early : Bool) (arrivals : Nat → Arrival)
    (initialCount : Int) (source : Source V) (outcomes : List (Option (Completed V))) : Prop :=
  let n := initialCount.toNat
  if initialCount < 0 then
    True
  else
    match headError n source with
    | some error => isCaughtError error
    | none       => none ∉ outcomes.take n ∧
      ((∃ error, itemIsNonNull ∧ some (.bubble error) ∈ outcomes.take n) ∨
        ItemsSafe itemIsNonNull (Caught isCaughtError source.raises) (outcomes.drop n) ∧
          AdvanceSafe early arrivals n (outcomes.drop n) source)

end Source

end Grafast.Streaming
