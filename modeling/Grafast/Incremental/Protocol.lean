import Grafast.Incremental.Publisher

namespace Grafast.IncGraph

variable {U K D E : Type}

def Completed.children : Completed U K D E → List (Record U K)
  | .group result           => result.children
  | .items _ _ _ children   => children
  | .done _ _               => []

variable [DecidableEq U] [DecidableEq K] [DecidableEq D] [DecidableEq E]

namespace Graph

-- A fragment that is below one that is a root node now.
def Anchored (g : Graph U K D E) (f : Fragment U) : Prop :=
  ∃ outer ∈ f.chain, g.isRoot outer

end Graph

namespace State

-- A fragment that the graph has nothing of.
structure Fresh (s : State U K D E) (f : Fragment U) : Prop where
  unannounced : ∀ id, (.fragment f, id) ∉ s.ids
  childless   : ∀ node, (f, node) ∉ s.graph.children
  idle        : ∀ group, (f, group) ∉ s.graph.pendingGroups

-- The objects of one run are not those of another.
def New (s : State U K D E) (records : List (Record U K)) : Prop :=
  records.Nodup ∧ ∀ record ∈ records, record ∉ s.records

def Enabled (s : State U K D E) : Event U K D E → Prop
  | .finish result      => result.group ∈ s.graph.running
  | .items stream _ _ _ => stream ∈ s.graph.draining
  | .done stream _      => stream ∈ s.graph.draining
  | .handle             => s.phase = .active ∧ ∃ completed ∈ s.graph.completedQueue.head?, s.New completed.children
  | .flush              => s.phase = .active ∧ s.graph.completedQueue = []
  | .pull               => s.phase = .initial ∨ s.phase = .holding

-- What a group reveals is below a fragment that is a root node, and a stream in one place only.
def Hangs (s : State U K D E) (group : Group U K) : Record U K → Prop
  | .group child => ∀ f ∈ child.deferRecords, s.graph.Anchored f
  | .stream _    => ∃ f, group.deferRecords = [f] ∧ s.graph.Anchored f

-- Of what an item reveals, a fragment may also have an outermost one that is new.
def HangsOrStarts (s : State U K D E) : Record U K → Prop
  | .group child => ∀ f ∈ child.deferRecords, s.graph.Anchored f ∨ s.Fresh f.outermost
  | .stream _    => True

-- A result that is delivered for a fragment is not addressed to one that has failed.
def Addressed (s : State U K D E) (f : Fragment U) (result : GroupResult U K D E) : Prop :=
  ∀ other ∈ result.group.deferRecords, (∃ id, (.fragment other, id) ∈ s.ids) → s.graph.isRoot other = false →
    other.path.length ≤ f.path.length ∨
    ∃ longer ∈ result.group.deferRecords, s.graph.isRoot longer ∧ other.path.length < longer.path.length

variable (nulled : D → Path → Bool)

-- A group's success is taken up while its fragments are there, and what completes them is well addressed.
structure ClearSuccess (s : State U K D E) (result : GroupResult U K D E) (data : D) : Prop where
  hangs     : ∀ child ∈ filterGroupChildren nulled result data, s.Hangs result.group child
  addressed : ∀ f ∈ result.group.deferRecords, s.graph.isRoot f → s.graph.pendingOf f = [result.group] →
    Addressed s f result ∧ ∀ other ∈ s.graph.successfulOf f, Addressed s f other

def ClearCompleted (s : State U K D E) : Completed U K D E → Prop
  | .group result         => ∀ data ∈ result.data, s.ClearSuccess nulled result data
  | .items _ _ _ children => ∀ child ∈ children, s.HangsOrStarts child
  | .done _ _             => True

-- Nothing gets into the queue while the consumer has a payload in hand.
def Clear (s : State U K D E) : Event U K D E → Prop
  | .handle => ∀ completed ∈ s.graph.completedQueue.head?, s.ClearCompleted nulled completed
  | .pull   => s.phase = .initial ∨ s.graph.completedQueue = []
  | _       => True

end State

-- The states of the runs whose steps meet a condition.
inductive Reaches (nulled : D → Path → Bool) (condition : State U K D E → Event U K D E → Prop)
    (data : D) (records : List (Record U K)) : State U K D E → Prop
  | init {s : State U K D E} (survive : filterNulledRecords nulled records data ≠ [])
      (distinct : (filterNulledRecords nulled records data).Nodup)
      (start : State.buildResponse (filterNulledRecords nulled records data) = some s) :
      Reaches nulled condition data records s
  | step {s s' : State U K D E} (event : Event U K D E) (run : Reaches nulled condition data records s)
      (enabled : s.Enabled event) (meets : condition s event) (step : s.step nulled event = some s') :
      Reaches nulled condition data records s'

section

variable {U K D E : Type}

def announced (payloads : List (Payload U K D E)) : List (Node U K × Nat) :=
  payloads.flatMap (·.pending)

def closed (payloads : List (Payload U K D E)) : List (CompletedResult E) :=
  payloads.flatMap (·.completed)

-- What a payload says, after those before it, of which the latest comes first.
structure Payload.Follows (p : Payload U K D E) (older : List (Payload U K D E)) : Prop where
  used    : ∀ entry ∈ p.incremental, ∃ node id, entry.id = some id ∧ (node, id) ∈ announced (p :: older) ∧
    ∀ result ∈ closed older, result.id ≠ some id
  closes  : ∀ result ∈ p.completed, ∃ node id, result.id = some id ∧ (node, id) ∈ announced (p :: older)
  hasNext : p.hasNext = true ↔
    ∃ entry ∈ announced (p :: older), ∀ result ∈ closed (p :: older), result.id ≠ some entry.2
  before  : ∀ earlier ∈ older, earlier.hasNext = true

structure Protocol (payloads : List (Payload U K D E)) : Prop where
  nodeOnce   : ((announced payloads).map (·.1)).Nodup
  idOnce     : ((announced payloads).map (·.2)).Nodup
  closedOnce : ((closed payloads).map (·.id)).Nodup
  follows    : ∀ p older, p :: older <:+ payloads → p.Follows older
  nested     : ∀ p older, p :: older <:+ payloads → ∀ f id, (.fragment f, id) ∈ p.pending → ∀ outer ∈ f.ancestors,
    ∀ id', (.fragment outer, id') ∈ announced payloads → ⟨some id', none⟩ ∈ closed (p :: older)

end

namespace State

-- All payloads, with the one that is made up now.
def log (s : State U K D E) : List (Payload U K D E) :=
  ⟨s.pending, s.incremental, s.completed, true⟩ :: s.payloads

def Announced (s : State U K D E) (node : Node U K) : Prop :=
  ∃ id, (node, id) ∈ announced s.log

def Failed (s : State U K D E) (f : Fragment U) : Prop :=
  ∃ id errors, (.fragment f, id) ∈ announced s.log ∧ ⟨some id, some errors⟩ ∈ closed s.log

def delivered (s : State U K D E) (group : Group U K) : Nat :=
  (s.log.flatMap (·.incremental)).countP fun
    | .defer result _ _ => result.group = group
    | .stream _ _ _     => false

-- The protocol, and what it is for.
structure Delivers (s : State U K D E) : Prop where
  protocol : Protocol s.payloads
  nonEmpty : ∀ f, s.Announced (.fragment f) → ∀ outer ∈ f.ancestors, s.graph.pendingOf outer = []
  drained  : s.graph.tasks.Nodup ∧ ∀ stream, stream ∈ s.graph.tasks ↔ s.Announced (.stream stream)
  once     : ∀ group, (∀ f ∈ group.deferRecords, ¬s.Failed f) → s.delivered group ≤ 1
  complete : s.phase = .finished → ∀ group, .group group ∈ s.records → s.delivered group = 1 ∨
    (∃ f ∈ group.deferRecords, s.Failed f) ∨ ∀ f ∈ group.deferRecords, ∃ outer ∈ f.ancestors, s.Failed outer
  last     : s.phase = .finished ↔ ∃ p older, s.payloads = p :: older ∧ p.hasNext = false
  woken    : s.phase = .waiting → s.graph.running ≠ [] ∨ s.graph.draining ≠ []

end State

end Grafast.IncGraph
