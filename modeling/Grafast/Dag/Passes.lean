import Grafast.Dag.Plan

namespace Grafast

-- What an `optimize` hook can do to the plan it is handed.
inductive HookAction (K : Type)
  | construct (kind : K) (deps : List Ref)
  | addStep (step : Ref)
  | eradicate (dead survivor : Ref)
  | recordReplacement (old new : Ref)

-- The `optimize` methods of all steps: the actions of the method and the step that it returns.
abbrev Optimizer (K : Type) := Plan K → Ref → List (HookAction K) × Ref

-- A rewriting pass over the steps of a plan.
structure Pass (K : Type) where
  plan    : Plan K
  merged  : Remap
  changed : Bool

namespace Plan

variable {K Key : Type} [StepClass K Key]

def perform (p : Plan K) : HookAction K → Option (Plan K)
  | .construct kind deps        => some (p.construct kind deps)
  | .addStep step               => p.addStep step
  | .eradicate dead survivor    => some (p.eradicate dead survivor)
  | .recordReplacement old new  => some (p.recordReplacement old new)

-- Registers a replacement if it is fresh.
def registerFresh (p : Plan K) (new : Ref) : Option (Plan K) :=
  if p.stepId new = none then p.addStep new else some p

-- Wires a replacement in.
def replace (p : Plan K) (old new : Ref) : Option (Plan K) :=
  (p.registerFresh new).map (·.eradicate old new)

def replaceIn (s : Pass K) (old new : Ref) : Option (Pass K) := do
  let plan ← s.plan.replace old new
  return ⟨plan, Function.update s.merged (plan.stepId old) (some new), true⟩

-- Drains the side replacements that a hook has recorded.
def drain (s : Pass K) : Option (Pass K) := do
  let s ← s.plan.sideReplacements.foldlM (fun s (old, new) => replaceIn s old new) s
  return { s with plan := { s.plan with sideReplacements := [] } }

def optimizeStep (hook : Optimizer K) (s : Pass K) (step : Ref) : Option (Pass K) :=
  if s.plan.stepId step ∈ s.plan.deadIds then
    some s
  else do
    let (actions, new) := hook s.plan step
    let plan ← actions.foldlM perform s.plan
    let s ← drain { s with plan }
    if new = step then some s else replaceIn s step new

def maxOptimizationLoops : Nat := 1000

def optimize.loop (hook : Optimizer K) : Nat → Pass K → Option (Pass K)
  | 0,         s => some s
  | loops + 1, s => do
    let (plan, ordered) := s.plan.orderSteps s.plan.steps
    let s ← ordered.foldlM (optimizeStep hook) { s with plan, changed := false }
    if s.changed then loop hook loops s else some s

-- Follows the links of a remap to the final survivor.
def follow (p : Plan K) (merged : Remap) : Nat → Ref → Ref
  | 0,        r => r
  | fuel + 1, r =>
    match merged (p.stepId r) with
    | some s => if s = r then r else follow p merged fuel s
    | none   => r

def resolveMerged (p : Plan K) (merged : Remap) : Remap :=
  fun id => (merged id).map (p.follow merged (p.heap.length + 1))

def composeRemaps (p : Plan K) (first second : Remap) : Remap :=
  fun id =>
    match first id with
    | some mid => some ((second (p.stepId mid)).getD mid)
    | none     => second id

def optimize (hook : Optimizer K) (p : Plan K) : Option (Plan K × Remap) := do
  let s ← optimize.loop hook maxOptimizationLoops ⟨p, fun _ => none, true⟩
  return (s.plan.sweepDead, s.plan.resolveMerged s.merged)

def treeShake (p : Plan K) (consumptionRoots : List Ref) : Plan K × List Ref :=
  let (p, reached) := p.orderSteps consumptionRoots
  let reachable := reached.map p.stepId
  let sideEffecting := p.steps.filter (¬ p.dedupable ·)
  let (p, kept) := p.orderSteps sideEffecting
  let keep := reachable ++ kept.map p.stepId
  let plan := { p with
    steps           := p.steps.filter (p.stepId · ∈ keep)
    dependentsIndex := fun id =>
      if id ∈ keep then (p.dependentsIndex id).filter (p.stepId ·.fst ∈ keep) else [] }
  (plan, sideEffecting.filter (p.stepId · ∉ reachable))

abbrev StructuralKey (Key : Type) := Option Key × List (Option Nat)

def structuralKey (p : Plan K) (step : Ref) : StructuralKey Key :=
  ((p.kind step).map StepClass.key, (p.dependencies step).map p.stepId)

structure DedupPass (K Key : Type) extends Pass K where
  byKey : List (StructuralKey Key × Ref)

variable [DecidableEq Key]

def dedupStep (s : DedupPass K Key) (step : Ref) : DedupPass K Key :=
  if s.plan.stepId step ∈ s.plan.deadIds then
    s
  else if ¬ s.plan.dedupable step then
    s
  else
    let key := s.plan.structuralKey step
    match s.byKey.lookup key with
    | none        => { s with byKey := (key, step) :: s.byKey }
    | some winner => { s with
        plan    := s.plan.eradicate step winner
        merged  := Function.update s.merged (s.plan.stepId step) (some winner)
        changed := true }

def dedupPass (s : Pass K) : Pass K :=
  let (plan, ordered) := s.plan.orderSteps s.plan.steps
  ordered.foldl dedupStep ⟨{ s with plan, changed := false }, []⟩ |>.toPass

def deduplicate.loop : Nat → Pass K → Pass K
  | 0,        s => s
  | fuel + 1, s =>
    let s := dedupPass s
    if s.changed then loop fuel s else s

-- The step with the given id.
def stepOf (p : Plan K) (id : Option Nat) : Option Ref :=
  p.steps.reverse.find? (p.stepId · == id)

-- A pass that changes the plan removes a step, which bounds the number of passes.
def deduplicate (p : Plan K) : Plan K × Remap :=
  let s := deduplicate.loop (p.steps.length + 1) ⟨p, fun _ => none, true⟩
  let final := s.plan.follow s.merged (p.steps.length + 1)
  (s.plan.sweepDead, fun id => (p.stepOf id).map final)

end Plan

-- What the owner of a plan can do with it.
inductive Operation (K : Type)
  | construct (kind : K) (deps : List Ref)
  | addStep (step : Ref)
  | eradicate (dead survivor : Ref)
  | optimize (hook : Optimizer K)
  | deduplicate
  | treeShake (consumptionRoots : List Ref)

namespace Operation

variable {K Key : Type} [StepClass K Key] [DecidableEq Key]

def apply (p : Plan K) : Operation K → Option (Plan K)
  | construct kind deps      => some (p.construct kind deps)
  | addStep step             => p.addStep step
  | eradicate dead survivor  => some (p.eradicate dead survivor)
  | optimize hook            => (p.optimize hook).map (·.fst)
  | deduplicate              => some p.deduplicate.fst
  | treeShake roots          => some (p.treeShake roots).fst

end Operation

end Grafast
