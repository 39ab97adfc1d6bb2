import Grafast.Incremental.Walk

namespace Grafast.Incremental

-- A group as it is captured: its object, its fields, and for each of its usages the record, if there is one.
structure PendingGroup (U F V : Type) where
  path          : Path
  parent        : V
  deferUsageSet : List U
  fieldMap      : F
  deferRecords  : List (Option { record : DeferRecord U // record.path <+: path })

-- Without the record of a usage no operation of the graph on the group succeeds.
def PendingGroup.execGroup? {U F V : Type} (group : PendingGroup U F V) : Option (ExecGroup U) := do
  let deferRecords ← group.deferRecords.mapM id
  return { path := group.path, deferRecords }

inductive Child (U F V : Type)
  | group (group : PendingGroup U F V)
  | stream (stream : StreamRec) (tail : List (Cell V))

-- A group without data has failed.
structure GroupResult (U F V : Type) where
  path     : Path
  data     : Option (List (String × Data V))
  errors   : List (LocatedError V)
  children : List (Child U F V)

variable {T U F V : Type}

section

variable [DecidableEq U]

def captureDeferGroups (registry : Registry U) (deferred : Deferred U F) (parent : V) (path : Path) :
    List (PendingGroup U F V) :=
  deferred.newGroups.map fun (deferUsageSet, fieldMap) =>
    { path, parent, deferUsageSet, fieldMap, deferRecords := deferUsageSet.map (registry.lookupRecord · path) }

end

def Event.error? : Event U F V → Option (LocatedError V)
  | .error _ e => some e
  | _          => none

def Event.stream? : Event U F V → Option (Child U F V)
  | .stream list tail => some (.stream list tail)
  | _                 => none

def buildGroupResult (path : Path) (errors : List (LocatedError V)) (children : List (Child U F V)) :
    Slot V → GroupResult U F V
  | .dead error  => ⟨path, none, [error], []⟩
  | .live output => ⟨path, some output, errors, children⟩

variable [DecidableEq U] [DeferUsage U]

def mintInto (registry : Registry U) : Event U F V → Registry U
  | .mint newDeferUsages path => registry.addNewDeferredFragments newDeferUsages path
  | _                         => registry

-- The children that the sinks of a group get, with the records that are there at that time.
def sunkChildren (registry : Registry U) : List (Event U F V) → List (Child U F V)
  | []              => []
  | event :: events =>
    match event with
    | .mint _ _                    => sunkChildren (mintInto registry event) events
    | .error _ _                   => sunkChildren registry events
    | .defer deferred parent path  =>
      (captureDeferGroups registry deferred parent path).map .group ++ sunkChildren registry events
    | .stream list tail            => .stream list tail :: sunkChildren registry events

variable (errorPath : V → Option Path) [DecidableEq T]

def memberParent (member : V × Path) : Parent V :=
  ⟨member.1, member.2, .live []⟩

def runExecutionGroup (registry : Registry U) (plan : ObjectPlan T U F V) (member : V × Path) :
    Option (GroupResult U F V) :=
  let (walked, events) := executeObjectPlan errorPath plan [memberParent member]
  walked.head?.map fun parent =>
    buildGroupResult member.2 (events.filterMap (·.error?)) (sunkChildren registry events) parent.slot

variable {Id : Type} [DecidableEq Id] (ident : V → Id)

-- The groups that go to a member: those of an object that is the member's own.
def Event.groupsOf (registry : Registry U) (member : V × Path) : Event U F V → List (Child U F V)
  | .defer deferred parent path =>
    if ident parent = ident member.1 then (captureDeferGroups registry deferred parent path).map .group else []
  | _ => []

def errorUnder (path : Path) (error : LocatedError V) : Bool :=
  decide (path <+: error.path)

def Event.streamUnder (path : Path) (event : Event U F V) : Option (Child U F V) :=
  if path <+: event.place then event.stream? else none

-- One walk for all members, of which each gets what is found to be its own.
def runExecutionGroupBatch (registry : Registry U) (plan : ObjectPlan T U F V) (members : List (V × Path)) :
    List (GroupResult U F V) :=
  let (walked, events) := executeObjectPlan errorPath plan (members.map memberParent)
  let registry := events.foldl mintInto registry
  (members.zip walked).map fun (member, parent) =>
    buildGroupResult member.2 ((events.filterMap (·.error?)).filter (errorUnder member.2))
      (events.flatMap (·.groupsOf ident registry member) ++ events.filterMap (·.streamUnder member.2)) parent.slot

end Grafast.Incremental
