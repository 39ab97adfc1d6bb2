import Grafast.Graph.PostOrder
import Mathlib.Logic.Function.Basic

namespace Grafast

-- What the class and the parameters of a step determine, for any kind of step. `key` stands for the
-- class, `peer_key` and `dedup_params()`.
class StepClass (K : Type) (Key : outParam Type) where
  key       : K → Key
  dedupable : K → Bool
  isUnary   : K → Bool

-- The identity of a step object: its place in the heap.
abbrev Ref := Nat

instance Id.lawful : LawfulBEq (Option Nat) := inferInstance

instance Edge.lawful : LawfulBEq (Ref × Nat) := inferInstance

-- The id of a step that is not registered is `none`.
structure StepObject (K : Type) where
  id           : Option Nat
  dependencies : List Ref
  isUnary      : Bool
  kind         : K
  deriving DecidableEq

abbrev Remap := Option Nat → Option Ref

-- The step objects of an operation, and the plan that they are registered in.
structure Plan (K : Type) where
  heap             : List (StepObject K)
  steps            : List Ref
  seen             : List Ref
  dependentsIndex  : Option Nat → List (Ref × Nat)
  deadIds          : List (Option Nat)
  sideReplacements : List (Ref × Ref)

namespace Plan

variable {K : Type}

def empty : Plan K where
  heap             := []
  steps            := []
  seen             := []
  dependentsIndex  := fun _ => []
  deadIds          := []
  sideReplacements := []

def dependencies (p : Plan K) (r : Ref) : List Ref :=
  p.heap[r]?.elim [] (·.dependencies)

def stepId (p : Plan K) (r : Ref) : Option Nat :=
  p.heap[r]?.bind (·.id)

def kind (p : Plan K) (r : Ref) : Option K :=
  p.heap[r]?.map (·.kind)

def isUnary (p : Plan K) (r : Ref) : Bool :=
  p.heap[r]?.elim false (·.isUnary)

def modify (p : Plan K) (r : Ref) (f : StepObject K → StepObject K) : Plan K :=
  { p with heap := p.heap.modify r f }

def setIndex (p : Plan K) (id : Option Nat) (edges : List (Ref × Nat)) : Plan K :=
  { p with dependentsIndex := Function.update p.dependentsIndex id edges }

def addEdge (p : Plan K) (id : Option Nat) (edge : Ref × Nat) : Plan K :=
  p.setIndex id (p.dependentsIndex id ++ [edge])

variable {Key : Type} [StepClass K Key]

def dedupable (p : Plan K) (r : Ref) : Bool :=
  (p.kind r).elim false StepClass.dedupable

-- The constructor of a step class: each dependency is wired with `add_dependency`, which narrows
-- the unariness of the step.
def construct (p : Plan K) (kind : K) (deps : List Ref) : Plan K :=
  { p with heap := p.heap ++ [⟨none, deps, StepClass.isUnary kind && deps.all p.isUnary, kind⟩] }

omit [StepClass K Key]

def setId (p : Plan K) (r : Ref) (id : Nat) : Plan K :=
  p.modify r ({ · with id := some id })

-- Adds one of a step's own edges to the index.
def link (r : Ref) (p : Plan K) (edge : Ref × Nat) : Plan K :=
  p.addEdge (p.stepId edge.fst) (r, edge.snd)

-- Registers a step whose dependencies are all registered.
def enroll (p : Plan K) (r : Ref) : Plan K :=
  let p := p.setId r p.steps.length
  let p := { p with steps := p.steps ++ [r], seen := r :: p.seen }
  (p.dependencies r).zipIdx.foldl (link r) p

-- `none` is the recursion error of a cyclic step.
def register : Nat → Plan K → Ref → Option (Plan K)
  | 0,        _, _ => none
  | fuel + 1, p, r =>
    if r ∈ p.seen then
      some p
    else do
      let p ← (p.dependencies r).foldlM (register fuel) p
      return p.enroll r

def addStep (p : Plan K) (step : Ref) : Option (Plan K) :=
  register (p.heap.length + 1) p step

-- The least id that is not used.
def freshId (used : List (Option Nat)) : Nat :=
  ((List.range (used.length + 1)).find? (some · ∉ used)).getD 0

-- Assigns an id to each of the steps that has none.
def assignIds : List Ref → List (Option Nat) → Plan K → Plan K
  | [],      _,    p => p
  | r :: rs, used, p =>
    if p.stepId r = none then
      let id := freshId used
      assignIds rs (some id :: used) (p.setId r id)
    else
      assignIds rs used p

def orderSteps (p : Plan K) (targets : List Ref) : Plan K × List Ref :=
  let ordered := Graph.postOrder p.dependencies (fun _ => false) (p.heap.length + 1) targets
  (assignIds ordered ((ordered.map p.stepId).filter (·.isSome)) p, ordered)

def orderStepsWithin (p : Plan K) (targets : List Ref) (boundaryIds : List (Option Nat)) :
    List Ref :=
  Graph.postOrder p.dependencies (p.stepId · ∈ boundaryIds) (p.heap.length + 1) targets

def dependentsOf (p : Plan K) (step : Ref) : List Ref :=
  ((p.dependentsIndex (p.stepId step)).map Prod.fst).eraseDups

-- Moves one edge onto the survivor and narrows the unariness of its source.
def repoint (survivor : Ref) (p : Plan K) (edge : Ref × Nat) : Plan K :=
  let narrow := p.isUnary survivor
  p.modify edge.fst
    (fun s => { s with
      dependencies := s.dependencies.set edge.snd survivor
      isUnary      := s.isUnary && narrow })
  |>.addEdge (p.stepId survivor) edge

-- Takes one of a step's own edges out of the index.
def unlink (dead : Ref) (p : Plan K) (edge : Ref × Nat) : Plan K :=
  p.setIndex (p.stepId edge.fst) <|
    (p.dependentsIndex (p.stepId edge.fst)).filter (· != (dead, edge.snd))

def eradicate (p : Plan K) (dead survivor : Ref) : Plan K :=
  if dead = survivor then
    p
  else
    let moved := p.dependentsIndex (p.stepId dead)
    let p := moved.foldl (repoint survivor) (p.setIndex (p.stepId dead) [])
    let p := (p.dependencies dead).zipIdx.foldl (unlink dead) p
    { p with deadIds := p.stepId dead :: p.deadIds }

def sweepDead (p : Plan K) : Plan K :=
  { p with steps := p.steps.filter (p.stepId · ∉ p.deadIds), deadIds := [] }

def recordReplacement (p : Plan K) (old new : Ref) : Plan K :=
  { p with sideReplacements := p.sideReplacements ++ [(old, new)] }

end Plan

end Grafast
