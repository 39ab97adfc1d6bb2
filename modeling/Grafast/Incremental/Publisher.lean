import Grafast.Incremental.Graph

namespace Grafast.IncGraph

structure CompletedResult (E : Type) where
  id     : Option Nat
  errors : Option (List E)
  deriving DecidableEq

-- A sub path that is empty is left out of the payload.
inductive IncrementalResult (U K D E : Type)
  | defer (result : GroupResult U K D E) (id : Option Nat) (subPath : Path)
  | stream (items : D) (errors : List E) (id : Option Nat)
  deriving DecidableEq

def IncrementalResult.id {U K D E : Type} : IncrementalResult U K D E → Option Nat
  | defer _ id _  => id
  | stream _ _ id => id

structure Payload (U K D E : Type) where
  pending     : List (Node U K × Nat)
  incremental : List (IncrementalResult U K D E)
  completed   : List (CompletedResult E)
  hasNext     : Bool
  deriving DecidableEq

-- Where the consumer of the payloads is: it has the initial payload, it takes up what is in the queue, it waits
-- for the next record, it has a payload in hand, or it has the last one.
inductive Phase
  | initial
  | active
  | waiting
  | holding
  | finished
  deriving DecidableEq

-- The payloads that were sent come latest first. `records` holds all that was ever handed to the graph.
structure State (U K D E : Type) where
  graph       : Graph U K D E
  ids         : List (Node U K × Nat)
  nextId      : Nat
  pending     : List (Node U K × Nat)
  incremental : List (IncrementalResult U K D E)
  completed   : List (CompletedResult E)
  payloads    : List (Payload U K D E)
  phase       : Phase
  records     : List (Record U K)
  deriving DecidableEq

variable {U K D E : Type}

def Record.path : Record U K → Path
  | group g  => g.path
  | stream s => s.path

-- What the filters go by.
def Record.recordPath : Record U K → Path
  | group g  => g.deferRecords.foldl (fun deepest record =>
      if deepest.length < record.path.length then record.path else deepest) []
  | stream s => s.path

-- Whether a null has taken the place of a path in the data.
variable (nulled : D → Path → Bool)

def filterGroupChildren (result : GroupResult U K D E) (data : D) : List (Record U K) :=
  result.children.filter fun child => !nulled data (child.recordPath.drop result.group.path.length)

variable [DecidableEq U] [DecidableEq K] [DecidableEq D] [DecidableEq E]

def filterNulledRecords (records : List (Record U K)) (data : D) : List (Record U K) :=
  records.filter fun record => !nulled data record.recordPath

namespace State

def idOf (s : State U K D E) (node : Node U K) : Option Nat :=
  s.ids.lookup node

def toPending (s : State U K D E) (newRootNodes : List (Node U K)) : State U K D E :=
  newRootNodes.foldl (fun s node => { s with
    ids     := (node, s.nextId) :: s.ids
    nextId  := s.nextId + 1
    pending := s.pending ++ [(node, s.nextId)] }) s

def removeDeferredFragment (errors : List E) (s : State U K D E) (record : Fragment U) : State U K D E :=
  if s.graph.isRoot record then { s with
    graph     := s.graph.removeRootNode (.fragment record)
    completed := s.completed ++ [⟨s.idOf (.fragment record), some errors⟩] }
  else
    s

def longerId (s : State U K D E) (initialRecord : Fragment U) (best : Nat × Option Nat) (record : Fragment U) :
    Nat × Option Nat :=
  if record = initialRecord then
    best
  else
    match s.idOf (.fragment record) with
    | none    => best
    | some id => if best.1 < record.path.length then (record.path.length, some id) else best

def bestIdAndSubPath (s : State U K D E) (initialRecord : Fragment U) (result : GroupResult U K D E) :
    Option Nat × Path :=
  let best := result.group.deferRecords.foldl (s.longerId initialRecord)
    (initialRecord.path.length, s.idOf (.fragment initialRecord))
  (best.2, result.group.path.drop best.1)

def deliver (s : State U K D E) (record : Fragment U) (result : GroupResult U K D E) :
    IncrementalResult U K D E :=
  .defer result (s.bestIdAndSubPath record result).1 (s.bestIdAndSubPath record result).2

def completeFragment (s : State U K D E) (record : Fragment U) : State U K D E :=
  match s.graph.completeDeferredFragment record with
  | none => s
  | some (graph, newRootNodes, successfulResults) =>
    let s := { s with graph }.toPending newRootNodes
    { s with
      incremental := s.incremental ++ successfulResults.map (s.deliver record)
      completed   := s.completed ++ [⟨s.idOf (.fragment record), none⟩] }

def handleExecutionGroup (s : State U K D E) (result : GroupResult U K D E) : Option (State U K D E) :=
  match result.data with
  | none      => some (result.group.deferRecords.foldl (removeDeferredFragment result.errors) s)
  | some data =>
    let result := { result with children := filterGroupChildren nulled result data }
    (s.graph.addCompletedGroup result).map fun graph =>
      result.group.deferRecords.foldl completeFragment
        { s with graph, records := s.records ++ result.children }

-- The records of an item are handed over as they are.
def handleStreamItems (s : State U K D E) (stream : Stream K) (items : D) (errors : List E)
    (children : List (Record U K)) : Option (State U K D E) :=
  (s.graph.getNewRootNodes children).map fun revealed =>
    toPending { s with
      graph       := revealed.1
      incremental := s.incremental ++ [.stream items errors (s.idOf (.stream stream))]
      records     := s.records ++ children } revealed.2

-- It is an error to remove a stream that is not there.
def handleStreamDone (s : State U K D E) (stream : Stream K) (errors : Option (List E)) :
    Option (State U K D E) :=
  if s.graph.rootNodes.contains (.stream stream) then some { s with
    graph     := s.graph.removeRootNode (.stream stream)
    completed := s.completed ++ [⟨s.idOf (.stream stream), errors⟩] }
  else
    none

def handleCompleted (s : State U K D E) : Completed U K D E → Option (State U K D E)
  | .group result                        => s.handleExecutionGroup nulled result
  | .items stream items errors children  => s.handleStreamItems stream items errors children
  | .done stream errors                  => s.handleStreamDone stream errors

-- One who waits is woken up by the next record.
def enqueue (s : State U K D E) (graph : Graph U K D E) (completed : Completed U K D E) : State U K D E :=
  { s with
    graph := { graph with completedQueue := graph.completedQueue ++ [completed] }
    phase := if s.phase = .waiting then .active else s.phase }

def hasNext (s : State U K D E) : Bool :=
  !s.graph.rootNodes.isEmpty

-- The end of a batch. A payload without data and completions is not sent.
def flush (s : State U K D E) : State U K D E :=
  if s.incremental.isEmpty && s.completed.isEmpty then
    { s with pending := [], phase := .waiting }
  else
    { s with
      pending     := []
      incremental := []
      completed   := []
      payloads    := ⟨s.pending, s.incremental, s.completed, s.hasNext⟩ :: s.payloads
      phase       := if s.hasNext then .holding else .finished }

-- The initial payload, once the records have been freed from those that a null has taken the place of.
def buildResponse (records : List (Record U K)) : Option (State U K D E) :=
  (Graph.getNewRootNodes (Graph.empty (D := D) (E := E)) records).map fun revealed =>
    let s := toPending ⟨revealed.1, [], 0, [], [], [], [], .initial, records⟩ revealed.2
    { s with pending := [], payloads := [⟨s.pending, [], [], true⟩] }

end State

-- What may happen: a group that runs comes to its end, a drain hands over items or comes to its end, and the
-- consumer takes up a record, ends its batch or asks for the next payload.
inductive Event (U K D E : Type)
  | finish (result : GroupResult U K D E)
  | items (stream : Stream K) (items : D) (errors : List E) (children : List (Record U K))
  | done (stream : Stream K) (errors : Option (List E))
  | handle
  | flush
  | pull

namespace State

-- Without a result where the source raises an exception that nothing catches.
def step (s : State U K D E) : Event U K D E → Option (State U K D E)
  | .finish result =>
    some (s.enqueue { s.graph with running := s.graph.running.erase result.group } (.group result))
  | .items stream items errors children => some (s.enqueue s.graph (.items stream items errors children))
  | .done stream errors =>
    some (s.enqueue { s.graph with draining := s.graph.draining.erase stream } (.done stream errors))
  | .handle =>
    match s.graph.completedQueue with
    | []                 => none
    | completed :: queue =>
      { s with graph := { s.graph with completedQueue := queue } }.handleCompleted nulled completed
  | .flush => some s.flush
  | .pull  => some { s with phase := if s.phase = .initial then .active else .waiting }

end State

end Grafast.IncGraph
