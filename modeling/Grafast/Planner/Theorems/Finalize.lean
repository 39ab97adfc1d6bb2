import Grafast.Planner.Projection
import Grafast.Planner.Theorems.Operation
import Grafast.Planner.Theorems.Schedule

namespace Grafast

section

variable {T K Key : Type} [PlanStep K Key] {p q : Plan K} {t t' : OutputPlan T} {hook : Optimizer K}

omit [PlanStep K Key] in
theorem Plan.Growing.objects (h : p.Growing) : p.Objects p.heap.length where
  length   := rfl
  dep_lt   := h.inv.dep_lt
  steps_lt := fun r hr => h.inv.seen_lt r (h.inv.steps_seen r hr)
  side_lt  := by simp [h.side]

variable [DecidableEq Key]

-- Hoisting and the attachment of effects leave the plan as it is.
theorem arrangePlan_objects {n : Nat} {hoist : Bool} (h : p.Objects n) (hh : hook.OverObjects)
    (ha : arrangePlan hook hoist p t = some (q, t')) : ∃ m, q.Objects m := by
  simp only [arrangePlan, Option.bind_eq_bind, Option.bind_eq_some_iff] at ha
  obtain ⟨⟨p₁, remap⟩, hp₁, ha⟩ := ha
  obtain ⟨m, hm⟩ := h.optimize hh hp₁
  obtain ⟨rfl, _⟩ := Prod.ext_iff.mp (Option.some.inj ha)
  exact ⟨m, hm.deduplicate.treeShake⟩

namespace OperationDefinition

variable {o : OperationDefinition T K}

-- A plan of an operation is a populated tree over a plan of objects.
theorem planOperation_arranged (ho : o.Permitted) (hh : hook.OverObjects)
    (h : o.planOperation hook = some (q, t')) :
    ∃ t n, o.arrange hook = some (q, t) ∧ q.Objects n ∧ t' = t.populateLayers q := by
  obtain ⟨p, t, hp, hg⟩ := planOutput_growing ho
  simp only [planOperation, hp, finalizePlan, Option.bind_eq_bind, Option.bind_some,
    Option.bind_eq_some_iff] at h
  obtain ⟨⟨q', t''⟩, ha, h⟩ := h
  obtain ⟨rfl, rfl⟩ := Prod.ext_iff.mp (Option.some.inj h)
  obtain ⟨n, hn⟩ := arrangePlan_objects hg.objects hh ha
  exact ⟨t'', n, by simp [arrange, hp, ha], hn, rfl⟩

-- A plan of an operation is scheduled if and only if the tree from which its layers are populated is
-- guarded.
theorem planOperation_scheduled_iff (ho : o.Permitted) (hh : hook.OverObjects)
    (h : o.planOperation hook = some (q, t')) :
    ∃ t, o.arrange hook = some (q, t) ∧ t' = t.populateLayers q ∧
      (t'.Scheduled q ↔ t.Guarded q) := by
  have ⟨t, n, ha, hn, ht⟩ := planOperation_arranged ho hh h
  exact ⟨t, ha, ht, ht ▸ ObjectPlan.populateLayers_scheduled_iff hn⟩

end OperationDefinition

end

namespace Profile

instance : PyValue Unit String where
  pyNone           := ()
  isNone _         := true
  isException _    := false
  truthy _         := false
  hashable _       := true
  keyEq _ _        := true
  typeName _       := "NoneType"
  repr _           := "None"
  asDict _         := none
  getItem _ _      := .missing
  getAttr _ _      := .missing
  iterate v        := .error v
  ofList _         := ()
  ofTuple _        := ()
  ofDict _         := ()
  decodeGlobalId v := .valueError v
  noLoader _       := ()

instance : AsyncCallable Empty where
  isAsync := nofun

abbrev ProfileStep := OperationStep Unit String Empty

-- The operation `{ user { name } }`, where `user` is an access to the root value.
def user (name : PlanFn ProfileStep) : OperationDefinition String ProfileStep where
  rootStep              := .core (.root 0)
  rootFields            := [.field "user" "Query.user" (.object "User") (some (.access ["user"]))
    (.resolve 0) none [.field "name" "User.name" (.leaf "String") (some name) (.resolve 1) none []]]
  abstractChildPlan _ _ := ⟨[], planLayer 0⟩
  isMutation            := false
  hoist                 := false

-- Without optimizations of its own, a step is replaced by itself.
def identity : Optimizer ProfileStep := fun _ r => ([], r)

def plan (name : PlanFn ProfileStep) : Plan ProfileStep × OutputPlan String :=
  ((user name).planOperation identity).getD (Plan.empty, ⟨[], planLayer 0⟩)

theorem planOperation_eq {name : PlanFn ProfileStep} (h : ((user name).planOperation identity).isSome) :
    (user name).planOperation identity = some ((plan name).fst, (plan name).snd) := by
  have ⟨_, h⟩ := Option.isSome_iff_exists.mp h
  simp [plan, h]

-- The enclosing parent steps and the ordered steps of the layers of a tree.
def layers (t : OutputPlan String) : List (List Ref × Option (List Ref)) :=
  (t.scopes []).map fun (above, op) => (above, op.layer.orderedSteps)

theorem mem_layers {t : OutputPlan String} {above ordered : List Ref}
    (h : (above, some ordered) ∈ layers t) :
    ∃ op, (above, op) ∈ t.scopes [] ∧ op.layer.orderedSteps = some ordered := by
  have ⟨⟨_, op⟩, hm, he⟩ := List.mem_map.mp h
  obtain ⟨rfl, ho⟩ := Prod.ext_iff.mp he
  exact ⟨op, hm, ho⟩

-- `$parent.get("name")` makes the layer of the user run the root step.
theorem not_scheduled : ∃ q t, (user (.accessGet "name")).planOperation identity = some (q, t) ∧
    ¬t.Scheduled q := by
  refine ⟨(plan (.accessGet "name")).fst, (plan (.accessGet "name")).snd, planOperation_eq (by decide +kernel),
    fun h => ?_⟩
  have hl : ([0], some [0, 2]) ∈ layers (plan (.accessGet "name")).snd := by decide +kernel
  have hr : (plan (.accessGet "name")).fst.isRoot 0 = true := by decide +kernel
  have ⟨op, hm, ho⟩ := mem_layers hl
  have ⟨hf, _⟩ := (h [0] op [0, 2] hm ho).right 0 (by decide)
  exact absurd (hr.symm.trans hf) Bool.noConfusion

theorem access_permitted {path : List String} : PlanFn.Permitted (K := ProfileStep) (.access path) :=
  fun _ _ h => ⟨⟨by simpa using h, trivial⟩, Nat.lt_succ_self _⟩

theorem accessed_permitted : (user (.access ["name"])).Permitted := by
  simp [OperationDefinition.Permitted, user, SelectionsPermitted, Selection.Permitted,
    access_permitted]

theorem accessed_scheduled_iff :
    ∃ t, (user (.access ["name"])).arrange identity = some ((plan (.access ["name"])).fst, t) ∧
      (plan (.access ["name"])).snd = t.populateLayers (plan (.access ["name"])).fst ∧
      ((plan (.access ["name"])).snd.Scheduled (plan (.access ["name"])).fst ↔
        t.Guarded (plan (.access ["name"])).fst) :=
  OperationDefinition.planOperation_scheduled_iff accessed_permitted (fun _ _ h => h)
    (planOperation_eq (by decide +kernel))

end Profile

end Grafast
