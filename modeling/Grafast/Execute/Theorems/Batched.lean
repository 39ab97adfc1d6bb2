import Grafast.Execute.Theorems.Layer
import Grafast.Execute.Theorems.Extra

namespace Grafast

variable {T K Key V S C : Type} [PlanStep K Key] {p : Plan K} {t op : OutputPlan T} {above : List Ref}

namespace ObjectPlan

omit [PlanStep K Key] in
theorem Has.path (h : t.Has above op) : ∃ outer, t.Path (op :: outer) := by
  induction h
  case top              => exact ⟨[], .top⟩
  case child _ hf hc ih =>
    obtain ⟨_, hp⟩ := ih
    exact ⟨_, hp.child hf hc⟩

omit [PlanStep K Key] in
theorem Planted.registers (h : t.Planted (· ∈ p.steps) (· ∈ p.steps)) (hm : (above, op) ∈ t.scopes []) :
    p.Registers op := by
  have hop := (h.has (mem_scopes_iff.mp hm)).plain
  refine ⟨hop.parent, fun step hs => ?_⟩
  rw [runTargets, hop.hoistedIn, List.append_nil] at hs
  cases List.mem_append.mp hs with
  | inr hs => exact hop.effects step hs
  | inl hs =>
    obtain ⟨f, hf, rfl⟩ := List.mem_map.mp hs
    exact hop.fields f hf

-- What is lifted into a layer is registered.
theorem Arranged.registers (h : Arranged p t) (hm : (above, op) ∈ (settle p [] [] t).scopes []) :
    ∃ hoisted, op = hoisted.populateLayers p ∧ p.Registers hoisted := by
  obtain ⟨outer, hpath⟩ := (mem_scopes_iff.mp hm).path
  clear hm
  obtain ⟨path, hp, hs⟩ := h.path_settle hpath
  clear hpath
  cases hs
  case cons above own available ha hs =>
    refine ⟨_, rfl, ?_, fun step hm => ?_⟩
    · rw [hoistLayer_fst]
      exact h.parent own above hp
    · have hw : (hoistLayer p available above.isEmpty own).fst.runTargets =
          own.targets ++ liftedIn p available above own := (hoistLayer_walk ..).left
      cases List.mem_append.mp (hw ▸ hm) with
      | inl hm => exact h.targets own above hp hm
      | inr hm => exact h.owns_mem hp ((stays_iff h hp ha).mp ((mem_liftedIn h hp ha).mp hm).right).left

end ObjectPlan

namespace OperationDefinition

variable [DecidableEq Key] {hook : Optimizer K} {o : OperationDefinition T K} {q : Plan K} {t' : OutputPlan T}

-- The plan of an operation satisfies the graph invariant, and all layers of its tree run registered steps.
theorem planOperation_registers (ho : o.Permitted)
    (ha : ∀ p t, o.planOutput = some (p, t) →
      Pass.LoopMeets Pass.CallSettles hook Plan.maxOptimizationLoops ⟨p, fun _ => none, true⟩)
    (hr : (o.hoist && !o.isMutation) = true → ∀ t, { o with hoist := false }.arrange hook = some (q, t) →
      q.isRoot t.layer.parentStep = true ∧ q.dependencies t.layer.parentStep = [])
    (h : o.planOperation hook = some (q, t')) :
    q.view.Inv ∧ ∀ above op, (above, op) ∈ t'.scopes [] →
      ∃ bare, op = bare.populateLayers q ∧ q.Registers bare := by
  obtain ⟨⟨p, t₀⟩, hp, h⟩ := Option.bind_eq_some_iff.mp h
  obtain ⟨hg, hs, hpl⟩ := planOutput_planted ho hp
  obtain ⟨q', t₁, hi, hpl, harr⟩ := arrangePlan_planted hg hs hpl (ha p t₀ hp)
  simp only [finalizePlan, harr, Option.bind_eq_bind, Option.bind_some, Option.pure_def, Option.some.injEq,
    Prod.mk.injEq] at h
  obtain ⟨rfl, rfl⟩ := h
  have hbare : { o with hoist := false }.arrange hook = some (q', t₁) := by
    have hp : { o with hoist := false }.planOutput = some (p, t₀) := hp
    rw [arrange, hp]
    exact (harr false).trans rfl
  refine ⟨hi, fun above op hm => ?_⟩
  cases hh : o.hoist && !o.isMutation with
  | false =>
    rw [hh, if_neg Bool.false_ne_true, ObjectPlan.scopes_populateLayers] at hm
    obtain ⟨⟨_, bare⟩, hbm, hbe⟩ := List.mem_map.mp hm
    exact ⟨bare, (Prod.mk.inj hbe).right.symm, hpl.registers hbm⟩
  | true  =>
    rw [hh, if_pos rfl] at hm
    obtain ⟨hroot, hfree⟩ := hr hh t₁ hbare
    exact (hpl.arranged hi hroot hfree).registers hm

variable [PyValue V S] [EachErrors V] [ExecutableStep K V C] {isAwaitable isCoroutine : V → Bool}

-- In a scheduled plan of an operation, every layer gives each parent of a bucket what it gives a parent that
-- has a bucket of its own, and no layer raises.
theorem planOperation_batches (ho : o.Permitted)
    (ha : ∀ p t, o.planOutput = some (p, t) →
      Pass.LoopMeets Pass.CallSettles hook Plan.maxOptimizationLoops ⟨p, fun _ => none, true⟩)
    (hr : (o.hoist && !o.isMutation) = true → ∀ t, { o with hoist := false }.arrange hook = some (q, t) →
      q.isRoot t.layer.parentStep = true ∧ q.dependencies t.layer.parentStep = [])
    (h : o.planOperation hook = some (q, t')) (hs : t'.Scheduled q) (he : q.Entrywise isAwaitable isCoroutine)
    (r : Request T K C V) (streaming : Bool) :
    ∀ above op ordered, (above, op) ∈ t'.scopes [] → op.layer.orderedSteps = some ordered →
      ∀ (parents : List (Entry V)) (parentStore : List (Option Nat × List V)), parents ≠ [] →
        parentStore.map Prod.fst = op.layer.hoistedOutIds → (∀ c ∈ parentStore, c.snd.length = parents.length) →
          r.runBucket isAwaitable isCoroutine q op.layer parents parentStore =
            (r.layerRuns isAwaitable isCoroutine q streaming).pointwise op.layer parents parentStore := by
  obtain ⟨hi, hreg⟩ := planOperation_registers ho ha hr h
  intro above op ordered hm hord parents parentStore hne hk hl
  obtain ⟨bare, rfl, hb⟩ := hreg above op hm
  obtain ⟨hc, hroot⟩ := hs above _ ordered hm hord
  have hready := ObjectPlan.populateLayers_ready hi hb hord (fun step hm => (hroot step hm).left) hc
  exact Request.runBucket_eq streaming he hi hready hne hk hl

end OperationDefinition

section Check

-- A check of the schedule of a tree.
def ObjectPlan.isScheduled (p : Plan K) (t : OutputPlan T) : Bool :=
  (t.scopes []).all fun (above, op) => (op.layer.orderedSteps.getD []).zipIdx.all fun (step, k) =>
    ((p.dependencies step).all fun d => ((op.layer.orderedSteps.getD []).take k).contains d ||
      p.stepId d == p.stepId op.layer.parentStep || op.layer.hoistedOutIds.contains (p.stepId d)) &&
    !p.isRoot step && !above.contains step

theorem ObjectPlan.scheduled_of_isScheduled (h : t.isScheduled p = true) : t.Scheduled p := by
  intro above op ordered hm ho
  have h := List.all_eq_true.mp h (above, op) hm
  simp only [ho, Option.getD_some] at h
  have hk (k : Nat) (hk : k < ordered.length) := List.all_eq_true.mp h (ordered[k], k)
    (List.mem_zipIdx_iff_getElem?.mpr (List.getElem?_eq_getElem hk))
  simp only [Bool.and_eq_true, List.all_eq_true, Bool.or_eq_true, List.contains_iff_mem, beq_iff_eq,
    Bool.not_eq_true', ← Bool.not_eq_true] at hk
  constructor
  · intro before step after he d hd
    subst he
    have hd := (hk before.length (by simp)).left.left d (by simpa using hd)
    rw [List.take_left, or_assoc] at hd
    exact hd
  · intro step hs
    obtain ⟨k, hlt, rfl⟩ := List.mem_iff_getElem.mp hs
    have := hk k hlt
    exact ⟨Bool.eq_false_iff.mpr this.left.right, this.right⟩

end Check

namespace Users

open Authors (Val Extra)

-- The root, a constant, a user that is read from the parent, and the posts of a user, whose resolver takes
-- its path into account.
inductive Kind
  | root
  | limit
  | user
  | posts
  deriving DecidableEq

instance : PlanStep Kind Kind where
  key         := id
  dedupable _ := true
  isUnary     := (· = .limit)
  hoistable   := (· ≠ .posts)
  isRoot      := (· = .root)
  isItem _    := false

def constantStep (id : Nat) (ds : List Nat) (value : Val) : EntryStep Val Val (bucketExtras Val Unit) fun _ => false where
  id; dependencies := ds; isUnary := true; isSyncAndSafe := true; wantsExtra := false
  execute count cols _ := .column (entrywise (fun _ _ => value) count cols)
  fn _ _               := value
  execute_eq _ _ _ _ _ := .inl rfl
  placeless _ _ _ _    := rfl
  concrete _ _ _       := rfl

def readStep (id : Nat) (ds : List Nat) (wantsExtra : Bool) (fn : Option (EntryExtra Unit Val) → List Val → Val) :
    EntryStep Val Val (bucketExtras Val Unit) fun _ => false where
  id; dependencies := ds; isUnary := false; isSyncAndSafe := true; wantsExtra; fn
  execute count cols x := .column (entrywise (fun i => fn (x.map (·.entry i))) count cols)
  execute_eq _ _ _ _ _ := .inl rfl
  placeless h          := absurd h Bool.false_ne_true
  concrete _ _ _       := rfl

def node (id : Nat) (ds : List Nat) : Kind → EntryStep Val Val (bucketExtras Val Unit) fun _ => false
  | .root  => readStep id ds false fun _ _ => []
  | .limit => constantStep id ds [3]
  | .user  => readStep id ds false fun _ vs => 1 :: vs.flatten
  | .posts => readStep id ds true fun x vs => (x.elim [] fun x => [x.parentPath.length]) ++ vs.flatten

theorem node_id {id : Nat} {ds : List Nat} {kind : Kind} : (node id ds kind).id = id := by
  cases kind <;> rfl

theorem node_dependencies {id : Nat} {ds : List Nat} {kind : Kind} : (node id ds kind).dependencies = ds := by
  cases kind <;> rfl

instance : ExecutableStep Kind Val Unit where
  node kind id ds := .step (node id ds kind).toStep

-- The operation `{ user { posts } }`.
def operation : OperationDefinition String Kind where
  rootStep              := .root
  rootFields            := [.field "user" "Query.user" (.object "User")
    (some fun p parentStep => ([(.user, [parentStep])], p.heap.length)) .user none
    [.field "posts" "User.posts" (.leaf "String") (some fun p parentStep =>
      ([(.limit, []), (.posts, [parentStep, p.heap.length])], p.heap.length + 1)) .posts none []]]
  abstractChildPlan _ _ := ⟨[], planLayer 0⟩
  isMutation            := false
  hoist                 := true

def identity : Optimizer Kind := fun _ r => ([], r)

def plan : Plan Kind × OutputPlan String :=
  (operation.planOperation identity).getD (Plan.empty, ⟨[], planLayer 0⟩)

theorem planOperation_eq : operation.planOperation identity = some (plan.fst, plan.snd) := by
  have hs : (operation.planOperation identity).isSome := by decide +kernel
  obtain ⟨x, hx⟩ := Option.isSome_iff_exists.mp hs
  rw [plan, hx]
  rfl

theorem operation_permitted : operation.Permitted := by
  simp only [OperationDefinition.Permitted, operation, SelectionsPermitted, Selection.Permitted, Option.some.injEq,
    forall_eq', and_true]
  constructor
  · intro p parentStep h
    simpa [Plan.ConstructsObjects] using h
  · intro p parentStep h
    have hp : parentStep < p.heap.length + 1 := Nat.lt_succ_of_lt h
    simp only [Plan.ConstructsObjects, List.length_cons, List.length_nil, List.not_mem_nil, List.mem_cons, or_false,
      false_implies, implies_true, forall_eq_or_imp, forall_eq, true_and, and_true]
    exact ⟨⟨hp, Nat.lt_succ_self _⟩, Nat.add_lt_add_left Nat.one_lt_two _⟩

theorem identity_settles {p : Plan Kind} (hp : p.Growing) (hs : p.Swept) :
    Pass.LoopMeets Pass.CallSettles identity Plan.maxOptimizationLoops ⟨p, fun _ => none, true⟩ :=
  loopMeets_settles
    (fun _ _ ho _ _ => ⟨Pass.keep_admits ho.side, Plan.keep_permitted ho.side⟩)
    (Plan.chained_init (hp.inv.registry hp.dense (fun r hr => (hp.live r hr).left) hs) hs)
    ⟨hp.inv, fun _ => hp.dense, hp.side, by simp⟩

theorem root_kept {q : Plan Kind} {t : OutputPlan String}
    (h : { operation with hoist := false }.arrange identity = some (q, t)) :
    q.isRoot t.layer.parentStep = true ∧ q.dependencies t.layer.parentStep = [] := by
  have hv : ({ operation with hoist := false }.arrange identity).map (fun x : Plan Kind × OutputPlan String =>
      (x.fst.isRoot x.snd.layer.parentStep, x.fst.dependencies x.snd.layer.parentStep)) = some (true, []) := by
    decide +kernel
  rw [h, Option.map_some, Option.some.injEq, Prod.mk.injEq] at hv
  exact hv

theorem plan_entrywise {p : Plan Kind} : p.Entrywise (fun _ => false) fun _ => false := by
  have hx (r : Ref) (n : Node Val Extra) (h : p.node r = some n) : ∃ kind id ds,
      p.stepId r = some id ∧ (p.dependencies r).mapM p.stepId = some ds ∧ n = .step (node id ds kind).toStep := by
    simp only [Plan.node, Option.bind_eq_bind, Option.bind_eq_some_iff] at h
    obtain ⟨kind, _, id, hid, ds, hds, hn⟩ := h
    exact ⟨kind, id, ds, hid, hds, (Option.some.inj hn).symm⟩
  constructor
  case id =>
    intro r n _ h
    obtain ⟨kind, id, ds, hid, _, rfl⟩ := hx r n h
    exact hid.trans (congrArg some node_id.symm)
  case dependencies =>
    intro r n _ h
    obtain ⟨kind, id, ds, _, hds, rfl⟩ := hx r n h
    exact (Batch.map_of_mapM hds).trans (congrArg (List.map some) node_dependencies.symm)
  case entrywise =>
    intro r n _ h
    obtain ⟨kind, id, ds, _, _, rfl⟩ := hx r n h
    exact ⟨node id ds kind, rfl⟩

def request : Request String Kind Unit Val where
  context        := ()
  sourceValues _ := none
  isMutation     := false
  operation      := plan
  subplans       := []

-- The layer of the user, which gets the limit from the root.
def layer : LayerPlan :=
  ((plan.snd.scopes [])[1]?.map (·.snd.layer)).getD (planLayer 0)

def users : List (Entry Val) :=
  [⟨[7], [.name "user"], []⟩, ⟨[8], [.name "user", .index 1], []⟩]

theorem plan_batches :
    request.runBucket (fun _ => false) (fun _ => false) plan.fst layer users [(some 2, [[3], [3]])] =
      (request.layerRuns (fun _ => false) (fun _ => false) plan.fst false).pointwise layer users
        [(some 2, [[3], [3]])] := by
  have hs : (plan.snd.scopes [])[1]?.isSome := by decide +kernel
  obtain ⟨scope, hscope⟩ := Option.isSome_iff_exists.mp hs
  have hlayer : layer = scope.snd.layer := by
    rw [layer, hscope]
    rfl
  have hordered : layer.orderedSteps = some [3] := by decide +kernel
  have hhoisted : layer.hoistedOutIds = [some 2] := by decide +kernel
  rw [hlayer] at hordered hhoisted ⊢
  refine OperationDefinition.planOperation_batches operation_permitted (fun p t h => ?_) (fun _ _ h => root_kept h)
    planOperation_eq (ObjectPlan.scheduled_of_isScheduled (by decide +kernel)) plan_entrywise request false scope.fst
    scope.snd [3] (List.mem_of_getElem? hscope) hordered users _ (by simp [users]) hhoisted.symm (by simp [users])
  obtain ⟨hg, hs, _⟩ := OperationDefinition.planOutput_planted operation_permitted h
  exact identity_settles hg hs

end Users

end Grafast
