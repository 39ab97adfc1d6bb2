import Grafast.Planner.Hoist
import Grafast.Planner.Theorems.Tree
import Grafast.Dag.Theorems.Operation

namespace Grafast

variable {T K Key : Type}

section Induction

variable {P : OutputPlan T → Prop}

-- What holds of an object plan if it holds of those of its fields.
def Inherited (P : OutputPlan T → Prop) : Prop :=
  ∀ op : OutputPlan T, (∀ f ∈ op.fields, ∀ child, f.completer.findObject = some child → P child) → P op

mutual

theorem ObjectPlan.child_induction (h : Inherited P) : (op : OutputPlan T) → P op
  | ⟨fields, layer⟩ => h ⟨fields, layer⟩ (fields_child_induction h fields)

theorem fields_child_induction (h : Inherited P) : (fields : List (FieldPlan T LayerPlan Ref)) →
    ∀ f ∈ fields, ∀ child, f.completer.findObject = some child → P child
  | [], _, hf, _, _                                => absurd hf List.not_mem_nil
  | ⟨_, _, _, completer, _⟩ :: fields, f, hf, child, hc => by
    have hfs := fields_child_induction h fields
    cases List.mem_cons.mp hf
    case inl he => exact completer_child_induction h completer child (by rw [← hc, he])
    case inr hm => exact hfs f hm child hc

theorem completer_child_induction (h : Inherited P) : (completer : Completer T LayerPlan Ref) →
    ∀ child, completer.findObject = some child → P child
  | .leaf _, _, hc         => nomatch hc
  | .object _ child, _, hc => Option.some.inj hc ▸ ObjectPlan.child_induction h child
  | .abstract _ _, _, hc   => nomatch hc
  | .list item, child, hc  => completer_child_induction h item child hc
  | .nonNull inner, child, hc => completer_child_induction h inner child hc

end

end Induction

variable [PlanStep K Key] {p : Plan K}

namespace Plan

-- Ids tell the steps of a plan apart.
theorem hasId_iff (hi : p.view.Inv) {steps : List Ref} {step : Ref} (hs : steps ⊆ p.steps)
    (h : step ∈ p.steps) : p.hasId steps step = true ↔ step ∈ steps := by
  rw [hasId, List.contains_iff_mem, List.mem_map]
  constructor
  case mp  => exact fun ⟨s, hm, he⟩ => hi.ids s (hs hm) step h he ▸ hm
  case mpr => exact fun hm => ⟨step, hm, rfl⟩

theorem isHoistable_iff {step : Ref} {liftableAbove : List (Option Nat)} :
    p.isHoistable step liftableAbove = true ↔
      p.liftable step = true ∧ ∀ d ∈ p.dependencies step, p.stepId d ∈ liftableAbove := by
  rw [isHoistable, ← liftable, Bool.and_eq_true, List.all_eq_true]
  simp only [List.contains_iff_mem]

section LiftOut

variable {availableAbove : List (Option Nat)} {ownSteps lifted : List Ref} {fuel : Nat}

-- The steps of a round are those that are not lifted yet and can be.
theorem mem_round {step : Ref} : step ∈ ownSteps.filter (fun step => !p.hasId lifted step &&
      p.isHoistable step (availableAbove ++ lifted.map p.stepId)) ↔
    step ∈ ownSteps ∧ p.hasId lifted step = false ∧
      p.isHoistable step (availableAbove ++ lifted.map p.stepId) = true := by
  rw [List.mem_filter, Bool.and_eq_true, Bool.not_eq_true']

-- What is lifted is own, and it satisfies what every step satisfies that can be lifted after such steps.
theorem liftOut_sound {P : Ref → Prop} (hl : ∀ s ∈ lifted, s ∈ ownSteps ∧ P s)
    (hp : ∀ step ∈ ownSteps, ∀ l : List Ref, (∀ s ∈ l, s ∈ ownSteps ∧ P s) →
      p.isHoistable step (availableAbove ++ l.map p.stepId) = true → P step) :
    ∀ s ∈ p.liftOut availableAbove ownSteps fuel lifted, s ∈ ownSteps ∧ P s := by
  induction fuel generalizing lifted
  case zero         => exact hl
  case succ fuel ih =>
    rw [liftOut]
    split
    case isTrue  => exact hl
    case isFalse =>
      refine ih fun s hs => ?_
      cases List.mem_append.mp hs
      case inl hs => exact hl s hs
      case inr hs =>
        obtain ⟨ho, _, hs⟩ := mem_round.mp hs
        exact ⟨ho, hp s ho lifted hl hs⟩

theorem hasId_append_left {steps new : List Ref} {step : Ref} (h : p.hasId steps step = true) :
    p.hasId (steps ++ new) step = true := by
  simp only [hasId, List.contains_iff_mem, List.map_append] at h ⊢
  exact List.mem_append_left _ h

theorem hasId_of_mem {steps : List Ref} {step : Ref} (h : step ∈ steps) : p.hasId steps step = true := by
  simp only [hasId, List.contains_iff_mem]
  exact List.mem_map_of_mem h

-- A round with a step that is not lifted yet leaves fewer such steps.
theorem length_rest_lt {new : List Ref} {step : Ref} (ho : step ∈ ownSteps) (hl : p.hasId lifted step = false)
    (hn : step ∈ new) : (ownSteps.filter (!p.hasId (lifted ++ new) ·)).length <
      (ownSteps.filter (!p.hasId lifted ·)).length := by
  have hsub : ownSteps.filter (!p.hasId (lifted ++ new) ·) =
      (ownSteps.filter (!p.hasId lifted ·)).filter (!p.hasId (lifted ++ new) ·) := by
    rw [List.filter_filter]
    refine List.filter_congr fun s _ => ?_
    cases hs : p.hasId lifted s
    case false => rw [Bool.not_false, Bool.and_true]
    case true  => rw [hasId_append_left hs, Bool.not_true, Bool.false_and]
  rw [hsub, List.length_filter_lt_length_iff_exists]
  refine ⟨step, List.mem_filter.mpr ⟨ho, by rw [hl, Bool.not_false]⟩, ?_⟩
  rw [hasId_of_mem (List.mem_append_right _ hn), Bool.not_true]
  exact Bool.false_ne_true

-- With one round for each own step, nothing is left that could be lifted.
theorem liftOut_complete (hf : (ownSteps.filter (!p.hasId lifted ·)).length < fuel) {step : Ref}
    (ho : step ∈ ownSteps) (hs : p.isHoistable step
      (availableAbove ++ (p.liftOut availableAbove ownSteps fuel lifted).map p.stepId) = true) :
    p.hasId (p.liftOut availableAbove ownSteps fuel lifted) step = true := by
  induction fuel generalizing lifted
  case zero         => exact absurd hf (Nat.not_lt_zero _)
  case succ fuel ih =>
    rw [liftOut] at hs ⊢
    split at hs
    case isTrue he  =>
      rw [if_pos he]
      by_contra hn
      have hm := mem_round.mpr ⟨ho, Bool.not_eq_true _ ▸ hn, hs⟩
      exact absurd (List.isEmpty_iff.mp he ▸ hm) List.not_mem_nil
    case isFalse he =>
      rw [if_neg he]
      obtain ⟨new, hnew⟩ := List.exists_mem_of_ne_nil _ (mt List.isEmpty_iff.mpr he)
      obtain ⟨hno, hnl, _⟩ := mem_round.mp hnew
      exact ih (lt_of_lt_of_le (length_rest_lt hno hnl hnew) (Nat.lt_succ_iff.mp hf)) hs

end LiftOut

end Plan

section Hoist

variable {available : List (Option Nat)}

variable (p) in
-- A child layer and what has left it.
def hoistChild (available : List (Option Nat)) (child : OutputPlan T) : OutputPlan T × List Ref :=
  hoistLayer p (available.filter (· != p.stepId child.layer.parentStep)) false child

theorem hoistCompleter_findObject (completer : Completer T LayerPlan Ref) :
    (hoistCompleter p available completer).fst.findObject =
      completer.findObject.map fun child => (hoistChild p available child).fst := by
  induction completer using Completer.chain_induction
  case leaf         => rfl
  case object       => rfl
  case abstract     => rfl
  case list _ hi    => exact hi
  case nonNull _ hi => exact hi

theorem mem_hoistCompleter (completer : Completer T LayerPlan Ref) {step : Ref} :
    step ∈ (hoistCompleter p available completer).snd ↔
      ∃ child, completer.findObject = some child ∧ step ∈ (hoistChild p available child).snd := by
  induction completer using Completer.chain_induction
  case leaf         => simp [hoistCompleter, Completer.findObject]
  case object       => simp [hoistCompleter, Completer.findObject, hoistChild]
  case abstract     => simp [hoistCompleter, Completer.findObject]
  case list _ hi    => exact hi
  case nonNull _ hi => exact hi

theorem hoistFields_fst (fields : List (FieldPlan T LayerPlan Ref)) (own hoistedIn : List Ref) :
    (hoistFields p available own hoistedIn fields).fst =
      fields.map fun f => { f with completer := (hoistCompleter p available f.completer).fst } := by
  induction fields generalizing own hoistedIn
  case nil            => rfl
  case cons f fields hi =>
    cases f
    simp only [hoistFields, List.map_cons, hi]

variable (p) in
-- The steps that a child layer lifts out for a layer.
def Lifts (available : List (Option Nat)) (fields : List (FieldPlan T LayerPlan Ref)) (step : Ref) : Prop :=
  ∃ f ∈ fields, ∃ child, f.completer.findObject = some child ∧ step ∈ (hoistChild p available child).snd

-- The steps of a layer are its own ones and those that are lifted into it, each of which is noted.
theorem mem_hoistFields (hi : p.view.Inv) {fields : List (FieldPlan T LayerPlan Ref)} {own : List Ref}
    (ho : own ⊆ p.steps) (hl : ∀ step, Lifts p available fields step → step ∈ p.steps) (hoistedIn : List Ref)
    (step : Ref) :
    (step ∈ (hoistFields p available own hoistedIn fields).snd.fst ↔
      step ∈ own ∨ Lifts p available fields step) ∧
    (step ∈ (hoistFields p available own hoistedIn fields).snd.snd ↔
      step ∈ hoistedIn ∨ step ∉ own ∧ Lifts p available fields step) := by
  induction fields generalizing own hoistedIn
  case nil            => simp [hoistFields, Lifts]
  case cons f fields ih =>
    have hc (step : Ref) : Lifts p available (f :: fields) step ↔
        step ∈ (hoistCompleter p available f.completer).snd ∨ Lifts p available fields step := by
      rw [mem_hoistCompleter]
      simp only [Lifts, List.exists_mem_cons_iff]
    set fresh := (hoistCompleter p available f.completer).snd.filter (!p.hasId own ·) with hfresh
    have hm (step : Ref) : step ∈ fresh ↔
        step ∈ (hoistCompleter p available f.completer).snd ∧ step ∉ own := by
      rw [hfresh, List.mem_filter]
      refine and_congr_right fun hs => ?_
      rw [Bool.not_eq_true', ← Bool.not_eq_true, Plan.hasId_iff hi ho (hl step ((hc step).mpr (.inl hs)))]
    have hf : fresh ⊆ p.steps := fun s hs => hl s ((hc s).mpr (.inl ((hm s).mp hs).left))
    have hr := ih (List.append_subset.mpr ⟨ho, hf⟩) (fun s hs => hl s ((hc s).mpr (.inr hs))) (hoistedIn ++ fresh)
    cases f
    simp only [hoistFields]
    refine ⟨hr.left.trans ?_, hr.right.trans ?_⟩
    · rw [List.mem_append, hm, hc]
      grind
    · rw [List.mem_append, List.mem_append, hm, hc]
      grind

end Hoist

end Grafast
