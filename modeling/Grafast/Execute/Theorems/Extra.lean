import Grafast.Execute.Extra
import Grafast.Planner.Theorems.Tree
import Grafast.Batch.Traverse

namespace Grafast

variable {V S X E : Type}

namespace Bucket

variable {b : Bucket V E X} {step : Step V E X} {steps : List (Step V E X)} {s s' : RunState V X}

theorem record_log {out : List V} (h : b.record step s out = .ok s') : s'.log = s.log := by
  rw [record] at h
  cases hr : storeColumn s.results step b.count out (b.unaryHere step.id) b.isAwaitable
  case error e    => rw [hr] at h; cases h
  case ok results => rw [hr] at h; cases h; rfl

theorem advance_log {out : Out V E} (h : b.advance step s out = .ok s') : s'.log = s.log := by
  cases out
  case raised e         => cases h
  case column out       => exact record_log h
  case awaitable result =>
    cases result
    case error e => cases h
    case ok out  => exact record_log h

theorem call_eq : b.call step s = (do
    let cols ← gatherCols s.results step (b.unaryHere step.id)
    let e : Execution V X := ⟨step.id, b.stepCount step, cols, b.extraFor step⟩
    return ({ s with log := s.log ++ [e] },
      step.execute (b.stepCount step) cols (b.extraFor step))) :=
  rfl

-- The loop that awaits columns goes on where no exception ends the run.
theorem go_cons : runStepsAsync.go b (step :: steps) s = (do
    let (s, out) ← b.call step s
    runStepsAsync.go b steps (← b.advance step s out)) := by
  rw [runStepsAsync.go]
  cases b.call step s
  case error e => rfl
  case ok c    =>
    obtain ⟨s, out⟩ := c
    cases out
    case raised e         => rfl
    case column out       => rfl
    case awaitable result => cases result <;> rfl

-- What a finished run has logged are all of its executions.
theorem go_log (h : runStepsAsync.go b steps s = .ok s') : s'.log = s.log ++ b.executed steps s := by
  induction steps generalizing s
  case nil =>
    cases h
    simp [executed]
  case cons step steps hi =>
    rw [go_cons, call_eq] at h
    rw [executed]
    cases hg : gatherCols s.results step (b.unaryHere step.id)
    case error e => rw [hg] at h; cases h
    case ok cols =>
      rw [hg] at h
      simp only [pure, bind, Except.pure, Except.bind] at h ⊢
      cases ha : b.advance step { s with log := s.log ++ [⟨step.id, b.stepCount step, cols, b.extraFor step⟩] }
          (step.execute (b.stepCount step) cols (b.extraFor step))
      case error e => rw [ha] at h; cases h
      case ok s₁   =>
        rw [ha] at h
        have hl := hi h
        rw [advance_log ha] at hl
        simp [hl]

theorem runSteps_go_log {running : Running V E X} (h : runSteps.go b steps s = .ok running)
    (hr : running.resolve = .ok s') : s'.log = s.log ++ b.executed steps s := by
  refine go_log ?_
  induction steps generalizing s
  case nil => cases h; exact hr
  case cons step steps hi =>
    rw [go_cons]
    rw [runSteps.go] at h
    cases hc : b.call step s
    case error e => rw [hc] at h; cases h
    case ok c    =>
      obtain ⟨s₁, out⟩ := c
      rw [hc] at h
      cases out
      case raised e         => cases h
      case awaitable result =>
        cases h
        cases result
        case error e => cases hr
        case ok out  => exact hr
      case column out       =>
        simp only [bind, Except.bind, advance] at h ⊢
        cases ho : b.record step s₁ out
        case error e => rw [ho] at h; cases h
        case ok s₂   => rw [ho] at h; exact hi h

-- Each execution of a run is that of the step at its place, which gets its extra from the bucket.
theorem executed_extra {k : Nat} {e : Execution V X} (h : (b.executed steps s)[k]? = some e) :
    ∃ step, steps[k]? = some step ∧ e.extra = b.extraFor step := by
  induction steps generalizing s k
  case nil => cases h
  case cons step steps hi =>
    rw [executed] at h
    split at h
    case h_1 => cases h
    case h_2 cols hg =>
      dsimp only at h
      split at h
      case h_1 =>
        obtain _ | k := k
        · exact ⟨step, rfl, Option.some.inj h ▸ rfl⟩
        · cases h
      case h_2 s₁ ha =>
        obtain _ | k := k
        · exact ⟨step, rfl, Option.some.inj h ▸ rfl⟩
        · exact hi h

end Bucket

-- The log of a run that ends without an exception is what the run executes.
theorem runSteps_log {count : Nat} {steps : List (Step V E X)} {isAwaitable : V → Bool}
    {seed : Store V} {extra : Option X} {running : Running V E X} {s : RunState V X}
    (h : runSteps count steps isAwaitable seed extra = .ok running) (hr : running.resolve = .ok s) :
    s.log = Bucket.executed ⟨count, bucketUnariness steps (fun id => (seed id).isSome) count,
      isAwaitable, extra⟩ steps ⟨seed, []⟩ :=
  Bucket.runSteps_go_log h hr

section

variable [PyValue V S] [EachErrors V] {isAwaitable isCoroutine : V → Bool}

-- A call that ends has executed what it has logged.
theorem RunCall.deliveries_eq {c : RunCall V X} {running : Running V V X} {s : RunState V X}
    (h : runSteps c.count (toSteps isCoroutine c.orderedSteps) isAwaitable c.seed c.extra = .ok running)
    (hr : running.resolve = .ok s) :
    c.deliveries isAwaitable isCoroutine = Grafast.deliveries isCoroutine c.orderedSteps s.log := by
  rw [deliveries, runSteps_log h hr]

mutual

theorem Node.within_plain {e : Execution V X} {d : Step V V X × Option X} :
    (node : Node V X) → node.SubDagsPlain isCoroutine → d ∈ node.within isCoroutine e →
      d.fst.wantsExtra = false
  | .step _, _, hd               => absurd hd List.not_mem_nil
  | .each id list subDag m, h, hd => by
    rw [Node.within] at hd
    cases hi : eachItems e.count e.cols
    case error x  => rw [hi] at hd; exact absurd hd List.not_mem_nil
    case ok lists =>
      rw [hi] at hd
      exact deliveries_plain (subDag lists.flatten) (h lists.flatten) hd

theorem deliveries_plain {es : List (Execution V X)} {d : Step V V X × Option X} :
    (nodes : List (Node V X)) → AllPlain isCoroutine nodes → d ∈ deliveries isCoroutine nodes es →
      d.fst.wantsExtra = false
  | [], _, hd            => by rw [deliveries] at hd; exact absurd hd List.not_mem_nil; nofun
  | node :: nodes, h, hd => by
    obtain _ | ⟨e, es⟩ := es
    · rw [deliveries] at hd
      · exact absurd hd List.not_mem_nil
      · nofun
    · rw [deliveries, List.cons_append, List.mem_cons, List.mem_append] at hd
      obtain rfl | hd | hd := hd
      · exact h.left
      · exact node.within_plain h.right.left hd
      · exact deliveries_plain nodes h.right.right hd

end

-- Where the sub-DAGs are plain, a step that wants the extra gets that of the bucket.
theorem deliveries_extra {x : Option X} {nodes : List (Node V X)} {es : List (Execution V X)}
    (hn : ∀ node ∈ nodes, node.SubDagsPlain isCoroutine)
    (he : ∀ (k : Nat) (e : Execution V X), es[k]? = some e →
      ∃ node, nodes[k]? = some node ∧
        e.extra = if (node.toStep isCoroutine).wantsExtra then x else none)
    {d : Step V V X × Option X} (hd : d ∈ deliveries isCoroutine nodes es)
    (hw : d.fst.wantsExtra = true) :
    d.snd = x ∧ ∃ node ∈ nodes, d.fst = node.toStep isCoroutine := by
  induction nodes generalizing es
  case nil =>
    rw [deliveries] at hd
    · exact absurd hd List.not_mem_nil
    · nofun
  case cons node nodes hi =>
    obtain _ | ⟨e, es⟩ := es
    · rw [deliveries] at hd
      · exact absurd hd List.not_mem_nil
      · nofun
    · rw [deliveries, List.cons_append, List.mem_cons, List.mem_append] at hd
      obtain rfl | hd | hd := hd
      · obtain ⟨n, hm, hx⟩ := he 0 e rfl
        obtain rfl := Option.some.inj hm
        exact ⟨hx.trans (if_pos hw), node, .head _, rfl⟩
      · have hp := node.within_plain (hn node (.head _)) hd
        exact absurd (hw.symm.trans hp) Bool.noConfusion
      · have ⟨hx, n, hm, hs⟩ := hi (fun n hm => hn n (.tail _ hm)) (fun k e => he (k + 1) e) hd
        exact ⟨hx, n, .tail _ hm, hs⟩

theorem toSteps_eq_map {nodes : List (Node V X)} :
    toSteps isCoroutine nodes = nodes.map (Node.toStep isCoroutine) := by
  induction nodes
  case nil              => rfl
  case cons node ns hi => rw [toSteps, hi, List.map_cons]

theorem RunCall.deliveries_extra {isAwaitable : V → Bool} {c : RunCall V X}
    (hn : ∀ node ∈ c.orderedSteps, node.SubDagsPlain isCoroutine) {d : Step V V X × Option X}
    (hd : d ∈ c.deliveries isAwaitable isCoroutine) (hw : d.fst.wantsExtra = true) :
    d.snd = c.extra ∧ ∃ node ∈ c.orderedSteps, d.fst = node.toStep isCoroutine := by
  refine Grafast.deliveries_extra hn (fun k e he => ?_) hd hw
  obtain ⟨step, hs, hx⟩ := Bucket.executed_extra he
  rw [toSteps_eq_map, List.getElem?_map, Option.map_eq_some_iff] at hs
  obtain ⟨node, hm, rfl⟩ := hs
  exact ⟨node, hm, hx⟩

end

section

variable {T K C : Type} [ExecutableStep K V C] {p : Plan K}

theorem Plan.mem_nodes {steps : List Ref} {nodes : List (Node V (BucketExtra C V))}
    (h : p.nodes steps = some nodes) {node : Node V (BucketExtra C V)} (hm : node ∈ nodes) :
    ∃ step ∈ steps, p.node step = some node := by
  obtain ⟨k, hk⟩ := List.mem_iff_getElem?.mp hm
  have hl : k < steps.length := Batch.mapM_length h ▸ (List.getElem?_eq_some_iff.mp hk).choose
  obtain ⟨node', hn, hp⟩ := Batch.mapM_getElem? h (List.getElem?_eq_getElem hl)
  obtain rfl := Option.some.inj (hk.symm.trans hn)
  exact ⟨steps[k], List.getElem_mem hl, hp⟩

namespace Request

variable {r : Request T K C V} {c : RunCall V (BucketExtra C V)} {layer : LayerPlan}
  {parents : List V} {parentPaths : List Path} {parentStore : Store V}

theorem runLayer_eq (h : r.runLayer p layer parents parentPaths parentStore = some c) :
    c.extra = some (r.extra parentPaths) ∧
      ∀ node ∈ c.orderedSteps, ∃ step, p.node step = some node := by
  simp only [runLayer, Option.bind_eq_bind, Option.bind_eq_some_iff] at h
  obtain ⟨_, _, ordered, _, nodes, hn, h⟩ := h
  obtain rfl := Option.some.inj h
  exact ⟨rfl, fun node hm => (Plan.mem_nodes hn hm).imp fun _ h => h.right⟩

theorem runSerialPlanField_eq {f : FieldPlan T LayerPlan Ref} {parentStep : Ref}
    (h : r.runSerialPlanField p f parents parentPaths parentStep = some c) :
    c.extra = some (r.extra parentPaths) ∧
      ∀ node ∈ c.orderedSteps, ∃ step, p.node step = some node := by
  simp only [runSerialPlanField, Option.bind_eq_bind, Option.bind_eq_some_iff] at h
  obtain ⟨_, _, nodes, hn, h⟩ := h
  obtain rfl := Option.some.inj h
  exact ⟨rfl, fun node hm => (Plan.mem_nodes hn hm).imp fun _ h => h.right⟩

theorem runEffectSteps_eq (h : runEffectSteps p layer parents = some c) :
    ∀ node ∈ c.orderedSteps, ∃ step ∈ p.orderStepsWithin layer.effectSteps [p.stepId layer.parentStep],
      p.node step = some node := by
  simp only [runEffectSteps, Option.bind_eq_bind, Option.bind_eq_some_iff] at h
  obtain ⟨id, hi, nodes, hn, h⟩ := h
  obtain rfl := Option.some.inj h
  exact hi ▸ fun node hm => Plan.mem_nodes hn hm

omit [ExecutableStep K V C] in
theorem mem_plans_of_mem_objectPlans {op : OutputPlan T} (h : (p, op) ∈ r.objectPlans) :
    ∃ t, (p, t) ∈ r.operation :: r.subplans := by
  simp only [objectPlans, List.mem_append, List.mem_map, List.mem_flatMap] at h
  obtain ⟨_, _, he⟩ | ⟨⟨q, u⟩, hq, _, _, he⟩ := h
  · exact (Prod.mk.inj he).left ▸ ⟨r.operation.snd, .head _⟩
  · exact (Prod.mk.inj he).left ▸ ⟨u, .tail _ hq⟩

omit [ExecutableStep K V C] in
theorem operation_mem_objectPlans (h : r.isMutation = false) : r.operation ∈ r.objectPlans := by
  rw [objectPlans, h]
  exact List.mem_append_left _ (List.mem_map.mpr ⟨r.operation.snd,
    List.mem_map.mpr ⟨_, ObjectPlan.self_mem_scopes _ _, rfl⟩, rfl⟩)

variable [PyValue V S] [EachErrors V] {isAwaitable isCoroutine : V → Bool}

-- Where no effect of a mutation and no mapper depends on a step that wants the extra, every step of a
-- request that wants it gets it.
theorem suppliesExtra (h : r.Plain isCoroutine) : r.SuppliesExtra isAwaitable isCoroutine := by
  intro c hc d hd hw
  cases hc
  case layer p op parents parentPaths parentStore hm hr =>
    have ⟨hx, hn⟩ := runLayer_eq hr
    have ⟨t, ht⟩ := mem_plans_of_mem_objectPlans hm
    have hs node (hm : node ∈ c.orderedSteps) : node.SubDagsPlain isCoroutine :=
      (hn node hm).elim fun step hp => h.subDags p t ht step node hp
    exact ⟨parentPaths, (RunCall.deliveries_extra hs hd hw).left.trans hx⟩
  case field f parents parentPaths hm hf hr =>
    have ⟨hx, hn⟩ := runSerialPlanField_eq hr
    have hs node (hm : node ∈ c.orderedSteps) : node.SubDagsPlain isCoroutine :=
      (hn node hm).elim fun step hp => h.subDags _ _ (.head _) step node hp
    exact ⟨parentPaths, (RunCall.deliveries_extra hs hd hw).left.trans hx⟩
  case effects parents hm he hr =>
    have hn := runEffectSteps_eq hr
    have hs node (hm : node ∈ c.orderedSteps) : node.SubDagsPlain isCoroutine :=
      (hn node hm).elim fun step hp => h.subDags _ _ (.head _) step node hp.right
    obtain ⟨_, node, hm', hd⟩ := RunCall.deliveries_extra hs hd hw
    obtain ⟨step, hw', hp⟩ := hn node hm'
    have hf := h.effects hm step hw' node hp
    exact absurd ((hd ▸ hw).symm.trans hf) Bool.noConfusion

end Request

end

namespace Authors

-- Values are lists of numbers, and a number is a list of its own.
abbrev Val := List Nat

instance : PyValue Val String where
  pyNone           := []
  isNone v         := v.isEmpty
  isException _    := false
  truthy v         := !v.isEmpty
  hashable _       := false
  keyEq a b        := a = b
  typeName _       := "list"
  repr _           := "list"
  asDict _         := none
  getItem _ _      := .missing
  getAttr _ _      := .missing
  iterate v        := .ok (v.map ([·]))
  ofList vs        := vs.flatten
  ofTuple vs       := vs.flatten
  ofDict _         := []
  decodeGlobalId v := .valueError v
  noLoader _       := []

instance : EachErrors Val where
  ofStepError _ := []
  indexError    := []

-- A root step, the constant list of the ids of authors, and a step that loads authors by their ids
-- with a placeholder that it resolves from the source values, either once for each item of a list or
-- for the list.
inductive Kind
  | root
  | ids
  | each
  | select
  deriving DecidableEq

instance : PlanStep Kind Kind where
  key         := id
  dedupable _ := true
  isUnary _   := false
  hoistable _ := true
  isRoot      := (· = .root)
  isItem _    := false

abbrev Extra := BucketExtra Unit Val

def source (column : Nat → List Val) (id : Nat) : Step Val Val Extra where
  id; dependencies := []; isUnary := false; isSyncAndSafe := true; wantsExtra := false
  execute count _ _ := .column (column count)

def select (id ids : Nat) : Step Val Val Extra where
  id; dependencies := [ids]; isUnary := false; isSyncAndSafe := false; wantsExtra := true
  execute count _ x := .column (List.replicate count ((x.bind (·.sourceValues "var:name")).getD []))

instance : ExecutableStep Kind Val Unit where
  node
    | .root, id, _   => .step (source (List.replicate · []) id)
    | .ids, id, _    => .step (source (List.replicate · [1, 2]) id)
    | .each, id, ds  => .each id (ds.headD 0)
      (fun items => [.step (source (fun _ => items) 0), .step (select 1 0)]) fun _ => 1
    | .select, id, ds => .step (select id (ds.headD 0))

-- The operation `{ authors }`.
def authors (kind : Kind) : OperationDefinition String Kind where
  rootStep              := .root
  rootFields            := [.field "authors" "Query.authors" (.list (.leaf "String"))
    (some fun p _ => ([(.ids, []), (kind, [p.heap.length])], p.heap.length + 1)) .ids none []]
  abstractChildPlan _ _ := ⟨[], planLayer 0⟩
  isMutation            := false
  hoist                 := false

def identity : Optimizer Kind := fun _ r => ([], r)

def request (kind : Kind) : Request String Kind Unit Val where
  context        := ()
  sourceValues _ := some [7]
  isMutation     := false
  operation      := ((authors kind).planOperation identity).getD (Plan.empty, ⟨[], planLayer 0⟩)
  subplans       := []

def call (kind : Kind) : Option (RunCall Val Extra) :=
  (request kind).runLayer (request kind).operation.fst (request kind).operation.snd.layer [[]] [[]] .empty

theorem planOperation_eq {kind : Kind} (h : ((authors kind).planOperation identity).isSome) :
    (authors kind).planOperation identity = some (request kind).operation := by
  have ⟨_, h⟩ := Option.isSome_iff_exists.mp h
  simp [request, h]

-- The mapper of the list loads authors without the source values.
theorem not_suppliesExtra : ∃ r : Request String Kind Unit Val,
    (authors .each).planOperation identity = some r.operation ∧
      ¬r.SuppliesExtra (fun _ => false) (fun _ => false) := by
  refine ⟨request .each, planOperation_eq (by decide +kernel), fun h => ?_⟩
  have hs : (call .each).isSome := by decide +kernel
  obtain ⟨c, hc⟩ := Option.isSome_iff_exists.mp hs
  have hd : (call .each).any (fun c => (c.deliveries (fun _ => false) fun _ => false).any fun d =>
      d.fst.wantsExtra && d.snd.isNone) = true := by decide +kernel
  rw [hc, Option.any_some, List.any_eq_true] at hd
  obtain ⟨d, hd, hw⟩ := hd
  rw [Bool.and_eq_true] at hw
  obtain ⟨paths, hx⟩ := h c (.layer (Request.operation_mem_objectPlans rfl) hc) d hd hw.left
  have hn := hw.right
  rw [hx] at hn
  exact Bool.false_ne_true hn

theorem select_plain : (request .select).Plain fun _ => false where
  effects h           := absurd h Bool.false_ne_true
  subDags p t hm r n hn := by
    have hp : p = (request .select).operation.fst := congrArg Prod.fst (List.mem_singleton.mp hm)
    subst hp
    have hk : ((request .select).operation.fst.heap.all (·.kind ≠ .each)) = true := by decide +kernel
    simp only [Plan.node, Plan.kind, Option.bind_eq_bind, Option.bind_eq_some_iff,
      Option.map_eq_some_iff] at hn
    obtain ⟨kind, ⟨o, ho, rfl⟩, id, _, ds, _, hn⟩ := hn
    have hk := List.all_eq_true.mp hk o (List.mem_of_getElem? ho)
    cases hk' : o.kind
    case each => simp [hk'] at hk
    all_goals
      rw [hk'] at hn
      exact Option.some.inj hn ▸ trivial

-- Without a mapper in between, the source values are passed on, as the log of the root bucket shows.
theorem select_suppliesExtra :
    (request .select).SuppliesExtra (fun _ => false) (fun _ => false) ∧
      ∀ c running s, call .select = some c →
        runSteps c.count (toSteps (fun _ => false) c.orderedSteps) (fun _ => false) c.seed c.extra = .ok running →
        running.resolve = .ok s →
        ∀ d ∈ deliveries (fun _ => false) c.orderedSteps s.log, d.fst.wantsExtra = true →
          ∃ parentPaths, d.snd = some ((request .select).extra parentPaths) := by
  have supplied : (request .select).SuppliesExtra (fun _ => false) (fun _ => false) :=
    Request.suppliesExtra select_plain
  refine ⟨supplied, fun c running s hc h hr d hd => ?_⟩
  rw [← RunCall.deliveries_eq h hr] at hd
  exact supplied c (.layer (Request.operation_mem_objectPlans rfl) hc) d hd

end Authors

end Grafast
