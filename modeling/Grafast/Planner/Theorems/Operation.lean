import Grafast.Planner.Theorems.Tree
import Grafast.Dag.Theorems.Operation

namespace Grafast

variable {T K Key : Type} [PlanStep K Key]

namespace Plan

-- A plan in which nothing has been removed yet.
structure Growing (p : Plan K) : Prop where
  inv   : p.view.Inv
  dense : p.view.Dense
  side  : p.sideReplacements = []
  live  : ∀ r ∈ p.seen, p.view.Live r

-- The steps that are to be constructed depend on objects only.
def ConstructsObjects : Nat → List (K × List Ref) → Prop
  | _, []              => True
  | n, (_, deps) :: cs => (∀ d ∈ deps, d < n) ∧ ConstructsObjects (n + 1) cs

namespace Growing

variable {p : Plan K} {r : Ref}

omit [PlanStep K Key]

theorem empty : (empty : Plan K).Growing where
  inv   := empty_inv
  dense := ⟨by simp [view, Plan.empty], by simp [view, Plan.empty]⟩
  side  := rfl
  live  := by simp [Plan.empty]

-- Every object can be registered, with the objects that it depends on.
theorem sound (h : p.Growing) (hr : r < p.heap.length) : p.view.Sound r := by
  induction r using Nat.strong_induction_on
  case _ r hi =>
    by_cases hs : r ∈ p.seen
    case pos => exact .live (h.live r hs)
    case neg =>
      refine .new hr hs fun d hd => ?_
      have hlt := h.inv.unseen_dep r hs d hd
      exact hi d hlt (hlt.trans hr)

theorem addStep (h : p.Growing) (hr : r < p.heap.length) :
    ∃ q, p.addStep r = some q ∧ q.Growing ∧ q.heap.length = p.heap.length ∧ q.view.Live r := by
  have ⟨q, hq, hx, hl⟩ := addStep_registers h.inv h.dense (h.sound hr)
  refine ⟨q, hq, ⟨hx.inv, hx.dense, hx.extends_v.replacements.trans h.side, ?_⟩,
    hx.extends_v.length, hl⟩
  exact fun s hs => (hx.extends_v.seen' s hs).elim (fun hs => hx.extends_v.live s (h.live s hs)) id

end Growing

variable {p : Plan K}

theorem Growing.construct {kind : K} {deps : List Ref} (h : p.Growing)
    (hd : ∀ d ∈ deps, d < p.heap.length) : (p.construct kind deps).Growing := by
  have hk : Keeps p (p.construct kind deps) := .construct h.inv hd
  have hv : (p.construct kind deps).view = p.view.construct kind deps := construct_view
  exact ⟨hk.inv, hk.dense h.dense, h.side, fun r hr => hv ▸ h.live r hr⟩

theorem Growing.constructAll {cs : List (K × List Ref)} (h : p.Growing)
    (hc : ConstructsObjects p.heap.length cs) :
    (p.constructAll cs).Growing ∧ (p.constructAll cs).heap.length = p.heap.length + cs.length := by
  induction cs generalizing p
  case nil => exact ⟨h, rfl⟩
  case cons c cs hi =>
    have hl : (p.construct c.fst c.snd).heap.length = p.heap.length + 1 := by simp [Plan.construct]
    have hg : (p.construct c.fst c.snd).Growing := h.construct hc.left
    obtain ⟨hg', hl'⟩ := hi hg (by rw [hl]; exact hc.right)
    refine ⟨hg', hl'.trans ?_⟩
    rw [hl, List.length_cons, Nat.add_assoc, Nat.add_comm 1]

end Plan

-- A plan resolver constructs steps over objects and returns an object.
def PlanFn.Permitted (planFn : PlanFn K) : Prop :=
  ∀ (p : Plan K) parentStep, parentStep < p.heap.length →
    Plan.ConstructsObjects p.heap.length (planFn p parentStep).fst ∧
    (planFn p parentStep).snd < p.heap.length + (planFn p parentStep).fst.length

mutual

def Selection.Permitted : Selection T K → Prop
  | .field _ _ _ planFn _ _ subfields =>
    (∀ f, planFn = some f → PlanFn.Permitted f) ∧ SelectionsPermitted subfields

def SelectionsPermitted : List (Selection T K) → Prop
  | []      => True
  | f :: fs => f.Permitted ∧ SelectionsPermitted fs

end

variable {p : Plan K}

omit [PlanStep K Key] in
theorem resolveStep_permitted {adapter : K} : PlanFn.Permitted (resolveStep adapter) :=
  fun _ _ h => ⟨⟨by simpa using h, trivial⟩, Nat.lt_succ_self _⟩

theorem planField_growing {planFn : PlanFn K} {parentStep : Ref} (h : p.Growing)
    (hp : parentStep < p.heap.length) (hf : planFn.Permitted) :
    ∃ q step, planField planFn p parentStep = some (q, step) ∧ q.Growing ∧
      p.heap.length ≤ q.heap.length ∧ step < q.heap.length := by
  have ⟨hc, hs⟩ := hf p parentStep hp
  have ⟨hg, hl⟩ := h.constructAll hc
  have ⟨q, hq, hgq, hlq, _⟩ := hg.addStep (hl ▸ hs)
  refine ⟨q, _, by simp [planField, hq]; rfl, hgq, ?_, ?_⟩
  · exact hlq ▸ hl ▸ Nat.le_add_right ..
  · exact hlq ▸ hl ▸ hs

variable {abstractChildPlan : T → T → OutputPlan T}

mutual

theorem planFields_growing {p : Plan K} {parentStep : Ref} (h : p.Growing)
    (hp : parentStep < p.heap.length) : (fields : List (Selection T K)) →
    SelectionsPermitted fields → ∃ q fs, planFields abstractChildPlan p parentStep fields =
      some (q, fs) ∧ q.Growing ∧ p.heap.length ≤ q.heap.length
  | [], _      => ⟨p, [], rfl, h, le_refl _⟩
  | f :: fs, hf => by
    obtain ⟨p₁, field, h₁, hg₁, hl₁⟩ := planSelection_growing h hp f hf.left
    obtain ⟨p₂, fields, h₂, hg₂, hl₂⟩ := planFields_growing hg₁ (hp.trans_le hl₁) fs hf.right
    exact ⟨p₂, field :: fields, by simp [planFields, h₁, h₂], hg₂, hl₁.trans hl₂⟩

theorem planSelection_growing {p : Plan K} {parentStep : Ref} (h : p.Growing)
    (hp : parentStep < p.heap.length) : (f : Selection T K) → f.Permitted →
    ∃ q field, planSelection abstractChildPlan p parentStep f = some (q, field) ∧ q.Growing ∧
      p.heap.length ≤ q.heap.length
  | .field _ _ type planFn adapter _ subfields, hf => by
    have hfn : PlanFn.Permitted (planFn.getD (resolveStep adapter)) := by
      cases hp : planFn
      case none   => exact resolveStep_permitted
      case some f => exact hf.left f hp
    obtain ⟨p₁, step, h₁, hg₁, hl₁, hs₁⟩ := planField_growing h hp hfn
    by_cases ho : type.isObject
    case pos =>
      obtain ⟨p₂, fields, h₂, hg₂, hl₂⟩ := planFields_growing hg₁ hs₁ subfields hf.right
      exact ⟨p₂, _, by simp [planSelection, h₁, ho, h₂]; rfl, hg₂, hl₁.trans hl₂⟩
    case neg => exact ⟨p₁, _, by simp [planSelection, h₁, ho]; rfl, hg₁, hl₁⟩

end

-- The plan resolvers of all selected fields are permitted.
def OperationDefinition.Permitted (o : OperationDefinition T K) : Prop :=
  SelectionsPermitted o.rootFields

theorem OperationDefinition.planOutput_growing {o : OperationDefinition T K} (h : o.Permitted) :
    ∃ p t, o.planOutput = some (p, t) ∧ p.Growing := by
  have he : (Plan.empty.construct o.rootStep []).Growing :=
    Plan.Growing.empty.construct (by simp)
  obtain ⟨p, hp, hg, hl, _⟩ := he.addStep (r := 0) (by simp [Plan.construct])
  have hl : 0 < p.heap.length := hl ▸ by simp [Plan.construct]
  obtain ⟨q, fs, hq, hgq, _⟩ : ∃ q fs, planFields o.abstractChildPlan p 0 o.rootFields =
      some (q, fs) ∧ q.Growing ∧ p.heap.length ≤ q.heap.length :=
    planFields_growing hg hl o.rootFields h
  exact ⟨q, _, by simp [planOutput, hp, planObject, hq]; rfl, hgq⟩

end Grafast
