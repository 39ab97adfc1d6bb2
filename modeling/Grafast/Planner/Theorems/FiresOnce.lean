import Grafast.Planner.Theorems.Planted
import Grafast.Planner.Theorems.Finalize

namespace Grafast

open Relation (ReflTransGen)

namespace ObjectPlan

variable {T K Key : Type} {p : Plan K} {t op : OutputPlan T} {above path : List (OutputPlan T)} {step : Ref}

-- The object plans of the fields of a rebuilt one are those of its own fields, rebuilt.
theorem mem_rebuild_children {onStep : Ref → Ref} {onLayer : List Ref → LayerPlan → LayerPlan}
    {child : OutputPlan T} :
    (∃ f ∈ (op.rebuild onStep onLayer).fields, f.completer.findObject = some child) ↔
      ∃ f ∈ op.fields, ∃ c, f.completer.findObject = some c ∧ c.rebuild onStep onLayer = child := by
  rw [rebuild_fields]
  simp only [List.mem_map, exists_exists_and_eq_and, FieldPlan.rebuild_findObject, Option.map_eq_some_iff]

variable [PlanStep K Key] {available : List (Option Nat)}

-- A layer as it is run: hoisted and populated.
def settle (p : Plan K) (available : List (Option Nat)) (above : List (OutputPlan T)) (op : OutputPlan T) :
    OutputPlan T :=
  (hoistLayer p available above.isEmpty op).fst.populateLayers p

theorem mem_settle_children (p : Plan K) (available : List (Option Nat)) {child : OutputPlan T} :
    (∃ f ∈ (settle p available above op).fields, f.completer.findObject = some child) ↔
      ∃ f ∈ op.fields, ∃ c, f.completer.findObject = some c ∧ settle p
        ((availableHere p available op).filter (· != p.stepId c.layer.parentStep)) (op :: above) c = child := by
  rw [settle, populateLayers, mem_rebuild_children, hoistLayer_fst]
  simp only [hoistedFields_fst, List.mem_map, exists_exists_and_eq_and, hoistCompleter_findObject,
    Option.map_eq_some_iff]
  exact Iff.rfl

-- The layers of a settled tree, next to those of the tree that it comes from.
inductive Settles (p : Plan K) (root : Ref) : List (OutputPlan T) → List (OutputPlan T) → Prop
  | nil : Settles p root [] []
  | cons {outer above : List (OutputPlan T)} {op : OutputPlan T} (available : List (Option Nat)) :
    Settles p root outer above → Available p root above op available →
    Settles p root (settle p available above op :: outer) (op :: above)

theorem available_top : Available p t.layer.parentStep [] t [] := by
  intro s _
  simp [Needed]

section Paths

variable (h : Arranged p t)

include h

theorem Arranged.path_settle (hp : (settle p [] [] t).Path path) :
    ∃ path', t.Path path' ∧ Settles p t.layer.parentStep path path' := by
  induction hp
  case top => exact ⟨[t], .top, .cons [] .nil available_top⟩
  case child hp' hf hc ih =>
    obtain ⟨_, hp, hs⟩ := ih
    cases hs
    case cons available ha hs =>
      obtain ⟨f, hfm, c, hfc, rfl⟩ := (mem_settle_children p available).mp ⟨_, hf, hc⟩
      exact ⟨_, hp.child hfm hfc, .cons _ (.cons _ hs ha) (h.available_child hp ha hfm hfc)⟩

theorem Arranged.settle_path (hp : t.Path path) :
    ∃ path', (settle p [] [] t).Path path' ∧ Settles p t.layer.parentStep path' path := by
  induction hp
  case top => exact ⟨_, .top, .cons [] .nil available_top⟩
  case child hp hf hc ih =>
    obtain ⟨_, hp', hs⟩ := ih
    cases hs
    case cons available hs ha =>
      obtain ⟨_, hf', hc'⟩ := (mem_settle_children p available).mpr ⟨_, hf, _, hc, rfl⟩
      exact ⟨_, hp'.child hf' hc', .cons _ (.cons _ hs ha) (h.available_child hp ha hf hc)⟩

-- A layer of a settled tree that runs a step stands for one in which the step stays or is taken up again.
theorem Arranged.exists_layerRun_iff {outer : List (OutputPlan T)}
    (hs : Settles p t.layer.parentStep outer above) (hp : above = [] ∨ t.Path above) :
    (∃ o ∈ outer, step ∈ o.layerRun) ↔ ∃ layers, layers <:+ above ∧
      (Stays p t.layer.parentStep layers step ∨ Reenters p t.layer.parentStep layers step) := by
  induction hs
  case nil =>
    simp only [List.not_mem_nil, false_and, exists_false, false_iff, not_exists, not_and, List.suffix_nil]
    rintro _ rfl hs
    exact hs.elim id id
  case cons outer above op available _ ha ih =>
    have hp : t.Path (op :: above) := hp.resolve_left (List.cons_ne_nil _ _)
    have ht : above = [] ∨ t.Path above := by
      cases above
      case nil  => exact .inl rfl
      case cons => exact .inr hp.tail.left
    simp only [List.exists_mem_cons_iff, List.suffix_cons_iff, or_and_right, exists_or, exists_eq_left, ih ht]
    exact or_congr_left (mem_layerRun h hp ha)

-- A step fires once if and only if it settles once.
theorem Arranged.firesOnce_iff (hl : p.liftable step = true) :
    ((hoistSteps p t).populateLayers p).FiresOnce step ↔ t.SettlesOnce p step := by
  change (settle p [] [] t).FiresOnce step ↔ _
  have hroot : step ≠ t.layer.parentStep := by
    rintro rfl
    simp [Plan.liftable, h.root] at hl
  have hfires : (settle p [] [] t).FiresOnce step ↔ ∀ op above, t.Path (op :: above) →
      Stays p t.layer.parentStep (op :: above) step ∨ Reenters p t.layer.parentStep (op :: above) step →
      ∀ layers, layers <:+ above →
        ¬(Stays p t.layer.parentStep layers step ∨ Reenters p t.layer.parentStep layers step) := by
    constructor
    case mp  =>
      intro hf op above hp hs layers hl hs'
      obtain ⟨_, hp', hset⟩ := h.settle_path hp
      cases hset
      case cons outer available hset ha =>
        have ht : above = [] ∨ t.Path above := by
          cases above
          case nil  => exact .inl rfl
          case cons => exact .inr hp.tail.left
        obtain ⟨o, ho, hm⟩ := (h.exists_layerRun_iff hset ht).mpr ⟨layers, hl, hs'⟩
        exact hf _ outer hp' ((mem_layerRun h hp ha).mpr hs) o ho hm
    case mpr =>
      intro hf op outer hp hm o ho hmo
      obtain ⟨_, hp', hset⟩ := h.path_settle hp
      cases hset
      case cons above op available ha hset =>
        have ht : above = [] ∨ t.Path above := by
          cases above
          case nil  => exact .inl rfl
          case cons => exact .inr hp'.tail.left
        obtain ⟨layers, hl, hs⟩ := (h.exists_layerRun_iff hset ht).mp ⟨o, ho, hmo⟩
        exact hf _ _ hp' ((mem_layerRun h hp' ha).mp hm) layers hl hs
  rw [hfires]
  constructor
  case mp  =>
    intro hf
    constructor
    case fresh =>
      intro path hp hr
      cases path
      case nil           => exact hr
      case cons op above =>
        obtain ⟨layers, hl, hs⟩ := (hr.needed h.root_free).lands hp hroot
        exact hf op above hp (.inr hr) layers hl (.inl hs)
    case alone => exact fun op above hp hs outer ho hs' => hf op above hp (.inl hs) outer ho (.inl hs')
  case mpr =>
    intro hs op above hp hk layers hl hk'
    have hne : layers ≠ [] := by
      rintro rfl
      exact hk'.elim id id
    have hp' : t.Path layers := hp.suffix (hl.trans (List.suffix_cons ..)) hne
    have hk := hk.resolve_right (hs.fresh _ hp)
    exact hs.alone op above hp hk layers hl (hk'.resolve_right (hs.fresh _ hp'))

end Paths

-- A planted tree over a plan that satisfies the graph invariant.
theorem Planted.arranged (h : t.Planted (· ∈ p.steps) (· ∈ p.steps)) (hi : p.view.Inv)
    (hr : p.isRoot t.layer.parentStep = true) (hd : p.dependencies t.layer.parentStep = []) : Arranged p t where
  inv                    := hi
  root                   := hr
  root_free              := hd
  hoistedIn _ _ hp       := (h.path hp).plain.hoistedIn
  hoistedOut _ _ hp      := (h.path hp).plain.hoistedOut
  parent _ _ hp          := (h.path hp).plain.parent
  child _ _ hp f hf c hc := (h.path hp).plain.child f hf c hc
  targets op _ hp        := by
    refine List.append_subset.mpr ⟨fun s hs => ?_, (h.path hp).plain.effects⟩
    obtain ⟨f, hf, rfl⟩ := List.mem_map.mp hs
    exact (h.path hp).plain.fields f hf

end ObjectPlan

namespace OperationDefinition

variable {T K Key : Type} [PlanStep K Key] [DecidableEq Key] {hook : Optimizer K}

-- In a plan with hoisting, a step that can be lifted fires once on each way down if and only if it
-- settles once in the tree that the plan has without hoisting.
theorem planOperation_firesOnce_iff {o : OperationDefinition T K} {q : Plan K} {t : OutputPlan T}
    (ho : o.Permitted) (hm : o.isMutation = false) (hh : o.hoist = true)
    (ha : ∀ p t, o.planOutput = some (p, t) →
      Pass.LoopMeets Pass.CallSettles hook Plan.maxOptimizationLoops ⟨p, fun _ => none, true⟩)
    (h : { o with hoist := false }.arrange hook = some (q, t))
    (hr : q.isRoot t.layer.parentStep = true) (hd : q.dependencies t.layer.parentStep = []) :
    ∃ t', o.planOperation hook = some (q, t') ∧
      ∀ step, q.liftable step = true → (t'.FiresOnce step ↔ t.SettlesOnce q step) := by
  obtain ⟨⟨p, t₀⟩, hp, h⟩ := Option.bind_eq_some_iff.mp h
  obtain ⟨hg, hs, hpl⟩ := planOutput_planted ho hp
  obtain ⟨q', t₁, hi, hpl, harr⟩ := arrangePlan_planted hg hs hpl (ha p t₀ hp)
  have he := (harr false).symm.trans h
  rw [if_neg Bool.false_ne_true, Option.some.injEq, Prod.mk.injEq] at he
  obtain ⟨rfl, rfl⟩ := he
  refine ⟨(hoistSteps q' t₁).populateLayers q', ?_, fun step hl => (hpl.arranged hi hr hd).firesOnce_iff hl⟩
  have hp : o.planOutput = some (p, t₀) := hp
  simp only [planOperation, finalizePlan, hp, hm, hh, Bool.not_false, Bool.and_true, harr, Option.bind_eq_bind,
    Option.bind_some, if_true, Option.pure_def]

end OperationDefinition

namespace Limits

open Profile

-- `constant(...)`
def limit : PlanFn ProfileStep :=
  fun p _ => ([(.core (.constant ()), [])], p.heap.length)

-- `object_({"user": $parent, "limit": constant(...)})`
def limited : PlanFn ProfileStep := fun p parentStep =>
  ([(.core (.constant ()), []), (.core (.object ["user", "limit"]), [parentStep, p.heap.length])],
    p.heap.length + 1)

def user : Selection String ProfileStep :=
  .field "user" "Query.user" (.object "User") (some (.access ["user"])) (.resolve 0) none
    [.field "posts" "User.posts" (.leaf "String") (some limited) (.resolve 1) none []]

-- An operation with hoisting.
def operation (rootFields : List (Selection String ProfileStep)) : OperationDefinition String ProfileStep where
  rootStep              := .core (.root 0)
  rootFields            := rootFields
  abstractChildPlan _ _ := ⟨[], planLayer 0⟩
  isMutation            := false
  hoist                 := true

-- The operation `{ user { posts } }`.
def once : OperationDefinition String ProfileStep := operation [user]

-- The operation `{ limit user { posts } }`.
def twice : OperationDefinition String ProfileStep :=
  operation [.field "limit" "Query.limit" (.leaf "Int") (some limit) (.resolve 2) none [], user]

-- What each layer of a plan runs, down to the fields of the top one.
def runs (x : Plan ProfileStep × OutputPlan String) : Bool × List Ref × List Ref × List (Option (List Ref)) :=
  (x.fst.liftable 1, x.fst.dependencies 1, x.snd.layerRun,
    x.snd.fields.map fun f => f.completer.findObject.map ObjectPlan.layerRun)

-- The constant is in the ordered steps of the root and in those of the user.
theorem twice_not_firesOnce : ∃ q t, twice.planOperation identity = some (q, t) ∧ q.liftable 1 = true ∧
    q.dependencies 1 = [] ∧ ¬t.FiresOnce 1 := by
  have hv : (twice.planOperation identity).map runs = some (true, [], [1, 2], [none, some [1, 4]]) := by
    decide +kernel
  obtain ⟨x, hp, hx⟩ := Option.map_eq_some_iff.mp hv
  simp only [runs, Prod.mk.injEq] at hx
  obtain ⟨hl, hd, ht, hf⟩ := hx
  refine ⟨x.fst, x.snd, hp, hl, hd, fun h => ?_⟩
  have hm : some [1, 4] ∈ x.snd.fields.map fun f => f.completer.findObject.map ObjectPlan.layerRun :=
    hf ▸ List.mem_cons_of_mem _ (List.mem_cons_self ..)
  obtain ⟨f, hfm, hfc⟩ := List.mem_map.mp hm
  obtain ⟨child, hc, hr⟩ := Option.map_eq_some_iff.mp hfc
  have hchild : 1 ∈ child.layerRun := hr.symm ▸ by decide
  have htop : 1 ∈ x.snd.layerRun := ht.symm ▸ by decide
  exact h child [x.snd] (.child .top hfm hc) hchild x.snd (.head _) htop

theorem limited_permitted : PlanFn.Permitted limited := by
  intro p parentStep h
  simp only [limited, Plan.ConstructsObjects, List.length_cons, List.length_nil]
  refine ⟨⟨by simp, ?_, trivial⟩, Nat.add_lt_add_left Nat.one_lt_two _⟩
  simpa using h.trans (Nat.lt_succ_self _)

theorem once_permitted : once.Permitted := by
  simp [OperationDefinition.Permitted, once, operation, user, SelectionsPermitted, Selection.Permitted,
    access_permitted, limited_permitted]

theorem identity_settles {p : Plan ProfileStep} (hp : p.Growing) (hs : p.Swept) :
    Pass.LoopMeets Pass.CallSettles identity Plan.maxOptimizationLoops ⟨p, fun _ => none, true⟩ :=
  loopMeets_settles
    (fun _ _ ho _ _ => ⟨Pass.keep_admits ho.side, Plan.keep_permitted ho.side⟩)
    (Plan.chained_init (hp.inv.registry hp.dense (fun r hr => (hp.live r hr).left) hs) hs)
    ⟨hp.inv, fun _ => hp.dense, hp.side, by simp⟩

def plan : Plan ProfileStep × OutputPlan String :=
  (({ once with hoist := false }).arrange identity).getD (Plan.empty, ⟨[], planLayer 0⟩)

-- Without the field of the root, the constant is lifted into the root and run there.
theorem once_firesOnce_iff : ∃ t', once.planOperation identity = some (plan.fst, t') ∧
    ∀ step, plan.fst.liftable step = true → (t'.FiresOnce step ↔ plan.snd.SettlesOnce plan.fst step) := by
  have hs : (({ once with hoist := false }).arrange identity).isSome := by decide +kernel
  have hp : ({ once with hoist := false }).arrange identity = some (plan.fst, plan.snd) := by
    obtain ⟨x, hx⟩ := Option.isSome_iff_exists.mp hs
    rw [plan, hx]
    rfl
  refine OperationDefinition.planOperation_firesOnce_iff once_permitted rfl rfl (fun p t h => ?_) hp
    (by decide +kernel) (by decide +kernel)
  obtain ⟨hg, hs, _⟩ := OperationDefinition.planOutput_planted once_permitted h
  exact identity_settles hg hs

end Limits

end Grafast
