import Grafast.Planner.Effects
import Grafast.Planner.Theorems.Finalize

namespace Grafast

section

variable {α β : Type} [DecidableEq α] {a : α} {l : List (List α)}

-- An element of lists without duplicates occurs once if exactly one of the lists contains it.
theorem count_flatten_eq_one_iff (hn : ∀ x ∈ l, x.Nodup) :
    l.flatten.count a = 1 ↔ ∃ before x after, l = before ++ x :: after ∧ a ∈ x ∧
      ∀ y ∈ before ++ after, a ∉ y := by
  constructor
  case mp =>
    intro h
    have hm : a ∈ l.flatten := List.count_pos_iff.mp (h ▸ Nat.zero_lt_one)
    obtain ⟨x, hx, ha⟩ := List.mem_flatten.mp hm
    obtain ⟨before, after, rfl⟩ := List.append_of_mem hx
    have hx : 0 < x.count a := List.count_pos_iff.mpr ha
    simp only [List.flatten_append, List.flatten_cons, List.count_append] at h
    refine ⟨before, x, after, rfl, ha, fun y hy hay => ?_⟩
    -- A second list with the element would add to the count of the first one.
    have hp : 0 < (before ++ after).flatten.count a :=
      List.count_pos_iff.mpr (List.mem_flatten.mpr ⟨y, hy, hay⟩)
    rw [List.flatten_append, List.count_append] at hp
    omega
  case mpr =>
    intro ⟨before, x, after, hl, ha, ho⟩
    subst hl
    have h0 {l : List (List α)} (h : ∀ y ∈ l, a ∉ y) : l.flatten.count a = 0 :=
      List.count_eq_zero.mpr fun hm =>
        have ⟨y, hy, ha⟩ := List.mem_flatten.mp hm
        h y hy ha
    have hx : x.count a = 1 := List.count_eq_one_of_mem (hn x (by simp)) ha
    simp only [List.flatten_append, List.flatten_cons, List.count_append, hx]
    rw [h0 fun y hy => ho y (List.mem_append_left _ hy),
      h0 fun y hy => ho y (List.mem_append_right _ hy)]

-- The same for lists that are given by the members of another list.
theorem count_flatten_map_eq_one_iff {f : β → List α} {P : β → Prop} {l : List β}
    (hn : ∀ b ∈ l, (f b).Nodup) (hP : ∀ b, a ∈ f b ↔ P b) :
    (l.map f).flatten.count a = 1 ↔ ∃ before b after, l = before ++ b :: after ∧ P b ∧
      ∀ c ∈ before ++ after, ¬P c := by
  rw [count_flatten_eq_one_iff (by simpa using hn)]
  constructor
  case mp =>
    intro ⟨before, x, after, hl, ha, ho⟩
    obtain ⟨before, l', rfl, rfl, hl'⟩ := List.map_eq_append_iff.mp hl
    obtain ⟨b, after, rfl, rfl, rfl⟩ := List.map_eq_cons_iff.mp hl'
    refine ⟨before, b, after, rfl, (hP b).mp ha, fun c hc h => ?_⟩
    exact ho (f c) (List.map_append ▸ List.mem_map_of_mem hc) ((hP c).mpr h)
  case mpr =>
    intro ⟨before, b, after, hl, hb, ho⟩
    refine ⟨before.map f, f b, after.map f, by simp [hl], (hP b).mpr hb, fun y hy ha => ?_⟩
    rw [← List.map_append] at hy
    obtain ⟨c, hc, rfl⟩ := List.mem_map.mp hy
    exact ho c hc ((hP c).mp ha)

end

namespace ObjectPlan

variable {T K Key : Type} {p : Plan K} {t op : OutputPlan T} {isMutation : Bool}

theorem layerRun_populate : (op.populateLayers p).layerRun = (op.walk p).steps p := by
  rw [layerRun, populateLayers_layer, LayerPlan.populate]
  simp only
  split
  case isTrue h  =>
    have h : op.runTargets = [] := List.isEmpty_iff.mp h
    simp [Walk.steps, walk, Plan.orderStepsWithin, Graph.postOrder, h]
  case isFalse h => rfl

theorem serialWalks_populate : (t.populateLayers p).serialWalks p = t.serialWalks p := by
  let walk (step : Ref) : Walk := ⟨[step], [p.stepId t.layer.parentStep]⟩
  have hf : (t.populateLayers p).fields.map (walk ·.step) = t.fields.map (walk ·.step) := by
    simpa only [List.map_map, Function.comp_def] using congrArg (List.map walk) (populateLayers_steps (t := t) (p := p))
  simp only [serialWalks, populateLayers_layer, LayerPlan.populate]
  exact congrArg _ hf

-- Every run of a populated tree takes the steps of a walk.
theorem runs_populate :
    (t.populateLayers p).runs p isMutation = (t.walks p isMutation).map (Walk.steps p) := by
  have ht : ((t.populateLayers p).scopes []).tail.map (·.snd.layerRun) =
      ((t.scopes []).tail.map (·.snd.walk p)).map (Walk.steps p) := by
    rw [scopes_populateLayers, ← List.map_tail, List.map_map, List.map_map]
    exact List.map_congr_left fun _ _ => layerRun_populate
  rw [runs, walks, List.map_append, ht, serialWalks_populate, layerRun_populate]
  cases isMutation <;> rfl

variable [PlanStep K Key]

theorem effectsOnce_iff {n : Nat} (hp : p.Objects n) :
    (t.populateLayers p).EffectsOnce p isMutation ↔ t.EffectsOwned p isMutation := by
  refine forall_congr' fun step => forall_congr' fun _ => forall_congr' fun _ => ?_
  rw [runs_populate]
  exact count_flatten_map_eq_one_iff (fun w _ => hp.orderStepsWithin_nodup)
    fun w => hp.mem_orderStepsWithin_iff

end ObjectPlan

variable {T K Key : Type} [PlanStep K Key] [DecidableEq Key]

-- A plan of an operation runs its effects once if and only if, in the tree from which its layers are
-- populated, each effect belongs to one walk.
theorem OperationDefinition.planOperation_effectsOnce_iff {o : OperationDefinition T K}
    {hook : Optimizer K} {q : Plan K} {t' : OutputPlan T} (ho : o.Permitted)
    (hh : hook.OverObjects) (h : o.planOperation hook = some (q, t')) :
    ∃ t, o.arrange hook = some (q, t) ∧ t' = t.populateLayers q ∧
      (t'.EffectsOnce q o.isMutation ↔ t.EffectsOwned q o.isMutation) := by
  have ⟨t, n, ha, hn, ht⟩ := planOperation_arranged ho hh h
  exact ⟨t, ha, ht, ht ▸ ObjectPlan.effectsOnce_iff hn⟩

namespace Payload

open Profile (ProfileStep identity)

-- The payload of a mutation that wraps the row that the mutation writes.
def payload : PlanFn ProfileStep := fun p _ =>
  ([(.core (.constant ()), []), (.write 0, [p.heap.length]),
    (.core (.object ["user"]), [p.heap.length + 1])], p.heap.length + 2)

-- The operation `mutation { createUser { user { id } } }`.
def createUser (user : PlanFn ProfileStep) : OperationDefinition String ProfileStep where
  rootStep              := .core (.root 0)
  rootFields            := [.field "createUser" "Mutation.createUser" (.object "Payload")
    (some payload) (.resolve 0) none
    [.field "user" "Payload.user" (.object "User") (some user) (.resolve 1) none
      [.field "id" "User.id" (.leaf "ID") (some (.access ["id"])) (.resolve 2) none []]]]
  abstractChildPlan _ _ := ⟨[], planLayer 0⟩
  isMutation            := true
  hoist                 := false

def plan (user : PlanFn ProfileStep) : Plan ProfileStep × OutputPlan String :=
  ((createUser user).planOperation identity).getD (Plan.empty, ⟨[], planLayer 0⟩)

theorem planOperation_eq {user : PlanFn ProfileStep}
    (h : ((createUser user).planOperation identity).isSome) :
    (createUser user).planOperation identity = some ((plan user).fst, (plan user).snd) := by
  have ⟨_, h⟩ := Option.isSome_iff_exists.mp h
  simp [plan, h]

-- `$payload.get("user")` is the write itself, and the layer of the payload runs it again.
theorem not_effectsOnce : ∃ q t,
    (createUser (.objectGet "user")).planOperation identity = some (q, t) ∧
      ¬t.EffectsOnce q true := by
  refine ⟨(plan (.objectGet "user")).fst, (plan (.objectGet "user")).snd,
    planOperation_eq (by decide +kernel), fun h => ?_⟩
  have hm : 2 ∈ (plan (.objectGet "user")).fst.steps := by decide +kernel
  have hd : (plan (.objectGet "user")).fst.dedupable 2 = false := by decide +kernel
  have hc : ((plan (.objectGet "user")).snd.runs (plan (.objectGet "user")).fst true).flatten.count 2
      = 2 := by decide +kernel
  exact absurd ((h 2 hm hd).symm.trans hc) (by decide)

theorem payload_permitted : PlanFn.Permitted payload := by
  intro p _ _
  refine ⟨⟨by simp, by simp, by simp, trivial⟩, ?_⟩
  simp [payload]

theorem accessed_permitted : (createUser (.access ["user"])).Permitted := by
  simp [OperationDefinition.Permitted, createUser, SelectionsPermitted, Selection.Permitted,
    Profile.access_permitted, payload_permitted]

theorem accessed_effectsOnce_iff :
    ∃ t, (createUser (.access ["user"])).arrange identity = some ((plan (.access ["user"])).fst, t) ∧
      (plan (.access ["user"])).snd = t.populateLayers (plan (.access ["user"])).fst ∧
      ((plan (.access ["user"])).snd.EffectsOnce (plan (.access ["user"])).fst true ↔
        t.EffectsOwned (plan (.access ["user"])).fst true) :=
  OperationDefinition.planOperation_effectsOnce_iff accessed_permitted (fun _ _ h => h)
    (planOperation_eq (by decide +kernel))

end Payload

end Grafast
