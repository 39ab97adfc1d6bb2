import Grafast.Incremental.Record

namespace Grafast.IncGraph

-- A deferred fragment, with the fragments that it is nested in. Fragments are told apart by usage and path.
inductive Fragment (U : Type)
  | top (usage : U) (path : Path)
  | nested (usage : U) (path : Path) (parent : Fragment U)
  deriving DecidableEq

namespace Fragment

variable {U : Type}

def path : Fragment U → Path
  | top _ path      => path
  | nested _ path _ => path

def parent? : Fragment U → Option (Fragment U)
  | top _ _         => none
  | nested _ _ outer => some outer

def ancestors : Fragment U → List (Fragment U)
  | top _ _         => []
  | nested _ _ outer => outer :: outer.ancestors

-- The fragment with all that it is nested in, from the inside out.
def chain (f : Fragment U) : List (Fragment U) :=
  f :: f.ancestors

def outermost : Fragment U → Fragment U
  | top usage path  => top usage path
  | nested _ _ outer => outer.outermost

end Fragment

-- The key stands for the identity of an object.
structure Group (U K : Type) where
  key          : K
  path         : Path
  deferRecords : List (Fragment U)
  nonempty     : deferRecords ≠ []
  nodup        : deferRecords.Nodup
  deriving DecidableEq

structure Stream (K : Type) where
  key   : K
  path  : Path
  label : Option String
  deriving DecidableEq

inductive Node (U K : Type)
  | fragment (f : Fragment U)
  | stream (s : Stream K)
  deriving DecidableEq

inductive Record (U K : Type)
  | group (g : Group U K)
  | stream (s : Stream K)
  deriving DecidableEq

-- A group without data has failed.
structure GroupResult (U K D E : Type) where
  group    : Group U K
  data     : Option D
  errors   : List E
  children : List (Record U K)
  deriving DecidableEq

-- What waits to be published.
inductive Completed (U K D E : Type)
  | group (result : GroupResult U K D E)
  | items (stream : Stream K) (items : D) (errors : List E) (children : List (Record U K))
  | done (stream : Stream K) (errors : Option (List E))
  deriving DecidableEq

-- The dictionaries of all fragments, each as one list of pairs. `running` holds the groups that have been
-- started and have no result yet, `tasks` the drains of streams that were ever started, and `draining` those
-- that have not come to an end.
structure Graph (U K D E : Type) where
  rootNodes        : List (Node U K)
  children         : List (Fragment U × Node U K)
  pendingGroups    : List (Fragment U × Group U K)
  successfulGroups : List (Fragment U × GroupResult U K D E)
  pendingRuns      : List (Group U K)
  running          : List (Group U K)
  tasks            : List (Stream K)
  draining         : List (Stream K)
  completedQueue   : List (Completed U K D E)
  deriving DecidableEq

-- A key that is set in a dictionary keeps the place that it has there.
def setKey {α : Type} [DecidableEq α] (keys : List α) (key : α) : List α :=
  if key ∈ keys then keys else keys ++ [key]

def valuesOf {α β : Type} [DecidableEq α] (pairs : List (α × β)) (key : α) : List β :=
  (pairs.filter (·.1 = key)).map (·.2)

variable {U K D E : Type} [DecidableEq U] [DecidableEq K] [DecidableEq D] [DecidableEq E]

namespace Graph

def empty : Graph U K D E := ⟨[], [], [], [], [], [], [], [], []⟩

def childrenOf (g : Graph U K D E) (f : Fragment U) : List (Node U K) :=
  valuesOf g.children f

def pendingOf (g : Graph U K D E) (f : Fragment U) : List (Group U K) :=
  valuesOf g.pendingGroups f

def successfulOf (g : Graph U K D E) (f : Fragment U) : List (GroupResult U K D E) :=
  valuesOf g.successfulGroups f

def isRoot (g : Graph U K D E) (f : Fragment U) : Bool :=
  .fragment f ∈ g.rootNodes

def addChild (g : Graph U K D E) (f : Fragment U) (node : Node U K) : Graph U K D E :=
  { g with children := setKey g.children (f, node) }

def addPending (g : Graph U K D E) (f : Fragment U) (group : Group U K) : Graph U K D E :=
  { g with pendingGroups := setKey g.pendingGroups (f, group) }

def completesRootNode (g : Graph U K D E) (group : Group U K) : Bool :=
  group.deferRecords.any g.isRoot

-- A group that has been run early already gives its result as one that is run now.
def onExecutionGroup (g : Graph U K D E) (group : Group U K) : Graph U K D E :=
  { g with pendingRuns := g.pendingRuns ++ [group] }

-- Runs the groups that were collected. What ends at once ends in some later step here, before all others.
def flushRuns (g : Graph U K D E) : Graph U K D E :=
  { g with pendingRuns := [], running := g.running ++ g.pendingRuns }

-- The graph while records are added, with `initial_children`, which is not always a dictionary.
abbrev Adding (U K D E : Type) := Graph U K D E × Option (List (Node U K))

-- A fragment that is nested in nothing is set in `initial_children`; it is an error when there is none.
def addDeferredFragmentNode (record : Fragment U) (adding : Adding U K D E) : Option (Adding U K D E) :=
  if adding.1.isRoot record then
    some adding
  else
    match record with
    | .top usage path         =>
      adding.2.map fun initial => (adding.1, some (setKey initial (.fragment (.top usage path))))
    | .nested usage path outer =>
      addDeferredFragmentNode outer (adding.1.addChild outer (.fragment (.nested usage path outer)), adding.2)

def addGroupNode (group : Group U K) (record : Fragment U) (adding : Adding U K D E) : Option (Adding U K D E) :=
  (addDeferredFragmentNode record adding).map fun adding => (adding.1.addPending record group, adding.2)

def addGroup (group : Group U K) (adding : Adding U K D E) : Option (Adding U K D E) :=
  (group.deferRecords.foldlM (fun adding record => addGroupNode group record adding) adding).map fun adding =>
    if adding.1.completesRootNode group then (adding.1.onExecutionGroup group, adding.2) else adding

def addStreamNode (stream : Stream K) (parent : Fragment U) (adding : Adding U K D E) :
    Option (Adding U K D E) :=
  (addDeferredFragmentNode parent adding).map fun adding => (adding.1.addChild parent (.stream stream), adding.2)

def addStream (stream : Stream K) (parents : Option (List (Fragment U))) (adding : Adding U K D E) :
    Option (Adding U K D E) :=
  match parents with
  | none         => adding.2.map fun initial => (adding.1, some (setKey initial (.stream stream)))
  | some parents => parents.foldlM (fun adding parent => addStreamNode stream parent adding) adding

def addRecord (parents : Option (List (Fragment U))) (adding : Adding U K D E) :
    Record U K → Option (Adding U K D E)
  | .group group   => addGroup group adding
  | .stream stream => addStream stream parents adding

def addIncrementalRecords (records : List (Record U K)) (parents : Option (List (Fragment U)))
    (adding : Adding U K D E) : Option (Adding U K D E) :=
  records.foldlM (addRecord parents) adding

structure Promotion (U K D E : Type) where
  graph        : Graph U K D E
  maybeEmpty   : List (Node U K)
  newRootNodes : List (Node U K)

def addRoot (g : Graph U K D E) (node : Node U K) : Graph U K D E :=
  { g with rootNodes := setKey g.rootNodes node }

def onStreamItems (g : Graph U K D E) (stream : Stream K) : Graph U K D E :=
  { g with tasks := g.tasks ++ [stream], draining := g.draining ++ [stream] }

def startGroups (g : Graph U K D E) (groups : List (Group U K)) : Graph U K D E :=
  groups.foldl (fun g group => if g.completesRootNode group then g else g.onExecutionGroup group) g

def promoteFrom : Nat → List (Node U K) → Promotion U K D E → Promotion U K D E
  | 0,        _,                   p => p
  | _,        [],                  p => p
  | fuel + 1, node :: unprocessed, p =>
    match node with
    | .fragment f =>
      if (p.graph.pendingOf f).isEmpty then
        let added := (p.graph.childrenOf f).filter (· ∉ p.maybeEmpty)
        promoteFrom fuel (unprocessed ++ added) { p with maybeEmpty := p.maybeEmpty ++ added }
      else
        promoteFrom fuel unprocessed { p with
          graph        := (p.graph.startGroups (p.graph.pendingOf f)).addRoot (.fragment f)
          newRootNodes := p.newRootNodes ++ [.fragment f] }
    | .stream s =>
      promoteFrom fuel unprocessed { p with
        graph        := (p.graph.addRoot (.stream s)).onStreamItems s
        newRootNodes := p.newRootNodes ++ [.stream s] }

-- A node is taken up once for each place in `maybe_empty`, where only children of fragments are set.
def promoteNonEmptyToRoot (g : Graph U K D E) (maybeEmpty : List (Node U K)) : Promotion U K D E :=
  promoteFrom (maybeEmpty.length + g.children.length) maybeEmpty ⟨g, maybeEmpty, []⟩

def getNewRootNodes (g : Graph U K D E) (records : List (Record U K)) :
    Option (Graph U K D E × List (Node U K)) :=
  (addIncrementalRecords records none (g, some [])).map fun adding =>
    let p := promoteNonEmptyToRoot adding.1 (adding.2.getD [])
    (p.graph.flushRuns, p.newRootNodes)

-- Takes a result into account for each fragment of its group.
def recordSuccess (g : Graph U K D E) (result : GroupResult U K D E) : Graph U K D E :=
  result.group.deferRecords.foldl (fun g record => { g with
    pendingGroups    := g.pendingGroups.erase (record, result.group)
    successfulGroups := g.successfulGroups ++ [(record, result)] }) g

def addCompletedGroup (g : Graph U K D E) (result : GroupResult U K D E) : Option (Graph U K D E) :=
  (addIncrementalRecords result.children (some result.group.deferRecords) (g.recordSuccess result, none)).map
    fun adding => adding.1.flushRuns

def popSuccessful (g : Graph U K D E) (result : GroupResult U K D E) : Graph U K D E :=
  result.group.deferRecords.foldl (fun g other =>
    { g with successfulGroups := g.successfulGroups.erase (other, result) }) g

def removeRootNode (g : Graph U K D E) (node : Node U K) : Graph U K D E :=
  { g with rootNodes := g.rootNodes.erase node }

def releaseFragment (g : Graph U K D E) (record : Fragment U) : Promotion U K D E :=
  let g := (g.successfulOf record).foldl popSuccessful (g.removeRootNode (.fragment record))
  promoteNonEmptyToRoot g (g.childrenOf record)

-- The dictionary that is promoted is the one of the fragment itself, which is added to on the way.
def completeDeferredFragment (g : Graph U K D E) (record : Fragment U) :
    Option (Graph U K D E × List (Node U K) × List (GroupResult U K D E)) :=
  if g.isRoot record && (g.pendingOf record).isEmpty then
    let p := g.releaseFragment record
    some ((p.maybeEmpty.foldl (·.addChild record ·) p.graph).flushRuns, p.newRootNodes, g.successfulOf record)
  else
    none

end Graph

end Grafast.IncGraph
