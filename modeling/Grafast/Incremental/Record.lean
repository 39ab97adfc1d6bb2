import Grafast.Execute.Value

namespace Grafast

-- A @defer of the operation. Usages are told apart by identity.
class DeferUsage (U : Type) where
  label            : U → Option String
  parentDeferUsage : U → Option U

-- A fragment that is deferred at a path. The key of a record in the registry is its usage with its path.
structure DeferRecord (U : Type) where
  usage  : U
  path   : Path
  label  : Option String
  parent : Option (U × Path)
  deriving DecidableEq

-- The fields to be run at a path for some fragments, each of which was declared at the path or above.
structure ExecGroup (U : Type) where
  path         : Path
  deferRecords : List { record : DeferRecord U // record.path <+: path }
  deriving DecidableEq

structure StreamRec where
  path  : Path
  label : Option String
  deriving DecidableEq

inductive IncRecord (U : Type)
  | group (group : ExecGroup U)
  | stream (stream : StreamRec)
  deriving DecidableEq

abbrev Registry (U : Type) := List (DeferRecord U)

variable {U : Type}

namespace Registry

variable [DecidableEq U]

-- The records of a usage at the prefixes of a path.
def recordsAbove (registry : Registry U) (usage : U) (path : Path) :
    List { record : DeferRecord U // record.path <+: path } :=
  registry.filterMap fun record =>
    if h : record.usage = usage ∧ record.path <+: path then some ⟨record, h.2⟩ else none

def longest {path : Path} (best : Option { record : DeferRecord U // record.path <+: path })
    (record : { record : DeferRecord U // record.path <+: path }) :
    Option { record : DeferRecord U // record.path <+: path } :=
  match best with
  | none   => some record
  | some b => if b.val.path.length < record.val.path.length then some record else some b

def lookupRecord (registry : Registry U) (usage : U) (path : Path) :
    Option { record : DeferRecord U // record.path <+: path } :=
  (registry.recordsAbove usage path).foldl longest none

def has (registry : Registry U) (usage : U) (path : Path) : Bool :=
  registry.any fun record => record.usage = usage ∧ record.path = path

variable [DeferUsage U]

open DeferUsage

def addNewDeferredFragments (registry : Registry U) (newDeferUsages : List U) (path : Path) : Registry U :=
  newDeferUsages.foldl (fun registry usage =>
    if registry.has usage path then registry else
      let parent := (parentDeferUsage usage).bind (registry.lookupRecord · path)
      registry ++ [⟨usage, path, label usage, parent.map fun record => (record.val.usage, record.val.path)⟩])
    registry

end Registry

namespace ExecGroup

-- The path of the deepest fragment of a group.
def recordPath (group : ExecGroup U) : Path :=
  group.deferRecords.foldl (fun deepest record =>
    if deepest.length < record.val.path.length then record.val.path else deepest) []

end ExecGroup

namespace IncRecord

def path : IncRecord U → Path
  | .group g  => g.path
  | .stream s => s.path

-- What the filters go by.
def recordPath : IncRecord U → Path
  | .group g  => g.recordPath
  | .stream s => s.path

-- The paths at which a record may be announced or delivered.
def targets : IncRecord U → List Path
  | .group g  => g.path :: g.deferRecords.map (·.val.path)
  | .stream s => [s.path]

end IncRecord

end Grafast
