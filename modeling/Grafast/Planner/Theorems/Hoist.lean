import Grafast.Planner.Theorems.HoistLayer
import Grafast.Planner.Theorems.Effects

-- A search from a node, along a path to a node outside of a closed set that contains all stops.
theorem Graph.reaches_outside {α : Type*} {succ : α → List α} {stop : α → Bool} {I Q : α → Prop} {s x : α}
    (hi : ∀ a, I a → ∀ b ∈ succ a, I b) (hq : ∀ a, Q a → ∀ b ∈ succ a, Q b)
    (hs : ∀ a, I a → stop a = true → Q a) (hp : Relation.ReflTransGen (fun a b => b ∈ succ a) s x)
    (his : I s) (hx : ¬Q x) : I x ∧ stop x = false ∧ Graph.Region succ stop [s] x := by
  have hn {a : α} (ha : I a) (hna : ¬Q a) : stop a = false := by
    by_contra hc
    exact hna (hs a ha (Bool.not_eq_false _ ▸ hc))
  induction hp
  case refl         => exact ⟨his, hn his hx, .target (List.mem_singleton_self s) (hn his hx)⟩
  case tail y z _ e ih =>
    obtain ⟨hy, _, hr⟩ := ih fun hc => hx (hq y hc z e)
    have hz := hi y hy z e
    exact ⟨hz, hn hz hx, hr.tail ⟨e, hn hz hx⟩⟩

namespace Grafast

open Relation (ReflTransGen)

namespace ObjectPlan

variable {T K Key : Type} {p : Plan K} {root : Ref} {t op child : OutputPlan T}
  {above layers path : List (OutputPlan T)} {f : FieldPlan T LayerPlan Ref} {step d : Ref}

section Needed

theorem needed_cons_iff : Needed p root (op :: above) step ↔
    Needed p root above step ∨ ∃ target ∈ op.targets, ReflTransGen p.DependsOn target step := by
  simp only [Needed, List.exists_mem_cons_iff, or_assoc]
  exact or_congr_right or_comm

theorem Needed.cons (h : Needed p root above step) : Needed p root (op :: above) step :=
  needed_cons_iff.mpr (.inl h)

-- What the layers need, they need with its dependencies.
theorem Needed.dep (hr : p.dependencies root = []) (h : Needed p root layers step)
    (hd : d ∈ p.dependencies step) : Needed p root layers d := by
  obtain rfl | ⟨op, ho, target, ht, hp⟩ := h
  · exact absurd (hr ▸ hd) List.not_mem_nil
  · exact .inr ⟨op, ho, target, ht, hp.tail hd⟩

theorem Needed.reaches (hr : p.dependencies root = []) (h : Needed p root layers step)
    (hp : ReflTransGen p.DependsOn step d) : Needed p root layers d := by
  induction hp
  case refl        => exact h
  case tail _ e ih => exact ih.dep hr e

end Needed

variable [PlanStep K Key]

theorem CanLeave.dep (h : CanLeave p root above op step) (hd : d ∈ p.dependencies step)
    (hn : ¬Needed p root above d) : CanLeave p root above op d := by
  cases h
  case intro _ _ h => exact h d hd hn

theorem CanLeave.liftable (h : CanLeave p root above op step) : p.liftable step = true := by
  cases h
  case intro h _ _ => exact h

theorem Owns.not_needed (h : Owns p root (op :: above) step) : ¬Needed p root above step := by
  generalize hp : op :: above = path at h
  induction h generalizing op above
  case own _ _ hn      => exact (List.cons.inj hp).right ▸ hn
  case lifted _ _ _ ih =>
    obtain ⟨rfl, rfl⟩ := List.cons.inj hp
    exact fun hn => ih rfl hn.cons

-- With a step come its dependencies.
theorem Owns.dep (h : Owns p root (op :: above) step) (hd : d ∈ p.dependencies step)
    (hn : ¬Needed p root above d) : Owns p root (op :: above) d := by
  generalize hp : op :: above = path at h
  induction h generalizing op above
  case own ht hr _ =>
    obtain ⟨rfl, rfl⟩ := List.cons.inj hp
    exact .own ht (hr.tail hd) hn
  case lifted child _ _ _ hf hc _ hl ih =>
    obtain ⟨rfl, rfl⟩ := List.cons.inj hp
    by_cases hnd : Needed p root (op :: above) d
    case pos =>
      obtain ⟨target, ht, hr⟩ := (needed_cons_iff.mp hnd).resolve_left hn
      exact .own ht hr hn
    case neg => exact .lifted hf hc (ih hd hnd rfl) (hl.dep hd hnd)

theorem Path.tail {o : OutputPlan T} (h : t.Path (op :: o :: above)) :
    t.Path (o :: above) ∧ ∃ f ∈ o.fields, f.completer.findObject = some op := by
  cases h
  case child hc hf hp => exact ⟨hp, _, hf, hc⟩

theorem Path.suffix {outer : List (OutputPlan T)} (h : t.Path path) (hs : outer <:+ path) (hn : outer ≠ []) :
    t.Path outer := by
  induction h
  case top =>
    obtain rfl | hs := List.suffix_cons_iff.mp hs
    · exact .top
    · exact absurd (List.suffix_nil.mp hs) hn
  case child hp hf hc ih =>
    obtain rfl | hs := List.suffix_cons_iff.mp hs
    · exact .child hp hf hc
    · exact ih hs

-- A step that comes to a layer stays in it or in an enclosing one.
theorem Owns.lands (hp : t.Path (op :: above)) (h : Owns p root (op :: above) step) :
    ∃ outer, outer <:+ op :: above ∧ Stays p root outer step := by
  induction above generalizing op
  case nil              => exact ⟨[op], List.suffix_rfl, h, .inl rfl⟩
  case cons o above ih =>
    by_cases hl : CanLeave p root (o :: above) op step
    case pos =>
      obtain ⟨hp, f, hf, hc⟩ := hp.tail
      obtain ⟨outer, hs, ho⟩ := ih hp (.lifted hf hc h hl)
      exact ⟨outer, hs.trans (List.suffix_cons ..), ho⟩
    case neg => exact ⟨op :: o :: above, List.suffix_rfl, h, .inr hl⟩

-- What the enclosing layers need stays in one of them.
theorem Needed.lands (hp : t.Path (op :: above)) (h : Needed p root above step) (hr : step ≠ root) :
    ∃ outer, outer <:+ above ∧ Stays p root outer step := by
  induction above generalizing op
  case nil             =>
    obtain rfl | ⟨_, hm, _⟩ := h
    · exact absurd rfl hr
    · exact absurd hm List.not_mem_nil
  case cons o above ih =>
    have hp := hp.tail.left
    by_cases hn : Needed p root above step
    case pos =>
      obtain ⟨outer, hs, ho⟩ := ih hp hn
      exact ⟨outer, hs.trans (List.suffix_cons ..), ho⟩
    case neg =>
      obtain ⟨target, ht, hd⟩ := (needed_cons_iff.mp h).resolve_left hn
      exact Owns.lands hp (.own ht hd hn)

theorem Reenters.needed (hr : p.dependencies root = []) (h : Reenters p root (op :: above) step) :
    Needed p root above step := by
  obtain ⟨back, hn, _, s, hs, _, hp⟩ := h
  obtain rfl := List.mem_singleton.mp hs
  exact hn.reaches hr (hp.lift id fun _ _ e => e.left)

variable (p) in
-- A tree as it is handed to `hoist_steps`: no layer has been annotated, the parent step of a layer is the
-- step of its field, the parent step of the top layer is the root step, and the steps are in the plan.
structure Arranged (t : OutputPlan T) : Prop where
  inv        : p.view.Inv
  root       : p.isRoot t.layer.parentStep = true
  root_free  : p.dependencies t.layer.parentStep = []
  hoistedIn  : ∀ op above, t.Path (op :: above) → op.layer.hoistedIn = []
  hoistedOut : ∀ op above, t.Path (op :: above) → op.layer.hoistedOutIds = []
  parent     : ∀ op above, t.Path (op :: above) → op.layer.parentStep ∈ p.steps
  targets    : ∀ op above, t.Path (op :: above) → op.targets ⊆ p.steps
  child      : ∀ op above, t.Path (op :: above) → ∀ f ∈ op.fields, ∀ child,
    f.completer.findObject = some child → child.layer.parentStep = f.step

variable (p root) in
-- The ids that are available above a layer are those of what the enclosing layers need, apart from the
-- parent step of the layer.
def Available (above : List (OutputPlan T)) (op : OutputPlan T) (available : List (Option Nat)) : Prop :=
  ∀ step ∈ p.steps, p.stepId step ∈ available ↔ Needed p root above step ∧ step ≠ op.layer.parentStep

-- The ids at which the walk for the own steps of a layer stops.
def hereBoundary (p : Plan K) (available : List (Option Nat)) (op : OutputPlan T) : List (Option Nat) :=
  available ++ [p.stepId op.layer.parentStep]

def ownSteps (p : Plan K) (available : List (Option Nat)) (op : OutputPlan T) : List Ref :=
  p.orderStepsWithin op.targets (hereBoundary p available op)

def availableHere (p : Plan K) (available : List (Option Nat)) (op : OutputPlan T) : List (Option Nat) :=
  hereBoundary p available op ++ (ownSteps p available op).map p.stepId

namespace Arranged

variable {available : List (Option Nat)}

theorem reaches (h : Arranged p t) {s : Ref} (hs : s ∈ p.steps) (hp : ReflTransGen p.DependsOn s step) :
    step ∈ p.steps := by
  induction hp
  case refl        => exact hs
  case tail _ e ih => exact h.inv.steps_dep _ ih _ e

theorem owns_mem (h : Arranged p t) (hp : t.Path path) (ho : Owns p root path step) : step ∈ p.steps := by
  induction ho
  case own ht hr _        => exact h.reaches (h.targets _ _ hp ht) hr
  case lifted hf hc _ _ ih => exact ih (.child hp hf hc)

-- The enclosing layers need the parent step of a layer.
theorem needed_parent (h : Arranged p t) (hp : t.Path (op :: above)) :
    Needed p t.layer.parentStep above op.layer.parentStep := by
  cases above
  case nil          =>
    cases hp
    exact .inl rfl
  case cons o above =>
    obtain ⟨hp, f, hf, hc⟩ := hp.tail
    have ht : f.step ∈ o.targets := List.mem_append_left _ (List.mem_map_of_mem hf)
    exact .inr ⟨o, .head _, f.step, ht, h.child _ _ hp f hf op hc ▸ .refl⟩

theorem mem_hereBoundary (h : Arranged p t) (hp : t.Path (op :: above))
    (ha : Available p t.layer.parentStep above op available) (hs : step ∈ p.steps) :
    p.stepId step ∈ hereBoundary p available op ↔ Needed p t.layer.parentStep above step := by
  rw [hereBoundary, List.mem_append, List.mem_singleton, ha step hs]
  constructor
  case mp  =>
    rintro (⟨hn, _⟩ | he)
    · exact hn
    · exact h.inv.ids _ hs _ (h.parent _ _ hp) he ▸ h.needed_parent hp
  case mpr =>
    intro hn
    by_cases he : step = op.layer.parentStep
    case pos => exact .inr (congrArg p.stepId he)
    case neg => exact .inl ⟨hn, he⟩

theorem mem_orderStepsWithin (h : Arranged p t) {targets : List Ref} {boundaryIds : List (Option Nat)} :
    step ∈ p.orderStepsWithin targets boundaryIds ↔
      Graph.Region p.dependencies (p.stepId · ∈ boundaryIds) targets step := by
  have hd {r d : Ref} (hd : d ∈ p.dependencies r) : r < p.heap.length := by
    by_contra hr
    simp [Plan.dependencies, List.getElem?_eq_none (Nat.le_of_not_lt hr)] at hd
  have hu : Graph.Universe p.dependencies (Finset.range p.heap.length) := fun r d hm =>
    ⟨Finset.mem_range.mpr (hd hm), Finset.mem_range.mpr (h.inv.dep_lt r d hm)⟩
  exact Graph.mem_postOrder_iff hu (by simp)

-- The own steps of a layer are what it depends on and the enclosing layers do not need.
theorem mem_ownSteps (h : Arranged p t) (hp : t.Path (op :: above))
    (ha : Available p t.layer.parentStep above op available) : step ∈ ownSteps p available op ↔
      ¬Needed p t.layer.parentStep above step ∧
        ∃ target ∈ op.targets, ReflTransGen p.DependsOn target step := by
  rw [ownSteps, h.mem_orderStepsWithin]
  constructor
  case mp  =>
    intro hr
    have hb := hr.not_stop
    obtain ⟨target, ht, _, hd⟩ := hr
    have hd : ReflTransGen p.DependsOn target step := hd.lift id fun _ _ e => e.left
    have hs := h.reaches (h.targets _ _ hp ht) hd
    exact ⟨fun hn => absurd ((h.mem_hereBoundary hp ha hs).mpr hn) (of_decide_eq_false hb), target, ht, hd⟩
  case mpr =>
    rintro ⟨hn, target, ht, hd⟩
    refine (Graph.reaches_outside (I := (· ∈ p.steps)) h.inv.steps_dep
      (fun _ hn _ => hn.dep h.root_free) ?_ hd (h.targets _ _ hp ht) hn).right.right.mono ?_
    · exact fun s hs hb => (h.mem_hereBoundary hp ha hs).mp (of_decide_eq_true hb)
    · exact List.cons_subset.mpr ⟨ht, List.nil_subset _⟩

theorem ownSteps_subset (h : Arranged p t) (hp : t.Path (op :: above))
    (ha : Available p t.layer.parentStep above op available) : ownSteps p available op ⊆ p.steps := by
  intro s hs
  obtain ⟨_, target, ht, hd⟩ := (h.mem_ownSteps hp ha).mp hs
  exact h.reaches (h.targets _ _ hp ht) hd

-- What is available in a layer is what the layer and those that enclose it need.
theorem mem_availableHere (h : Arranged p t) (hp : t.Path (op :: above))
    (ha : Available p t.layer.parentStep above op available) (hs : step ∈ p.steps) :
    p.stepId step ∈ availableHere p available op ↔ Needed p t.layer.parentStep (op :: above) step := by
  have hi : p.stepId step ∈ (ownSteps p available op).map p.stepId ↔ step ∈ ownSteps p available op := by
    refine ⟨fun hm => ?_, List.mem_map_of_mem⟩
    obtain ⟨s, hm, he⟩ := List.mem_map.mp hm
    exact h.inv.ids s (h.ownSteps_subset hp ha hm) step hs he ▸ hm
  rw [availableHere, List.mem_append, h.mem_hereBoundary hp ha hs, hi, h.mem_ownSteps hp ha, needed_cons_iff]
  grind

theorem available_child (h : Arranged p t) (hp : t.Path (op :: above))
    (ha : Available p t.layer.parentStep above op available) (hf : f ∈ op.fields)
    (hc : f.completer.findObject = some child) : Available p t.layer.parentStep (op :: above) child
      ((availableHere p available op).filter (· != p.stepId child.layer.parentStep)) := by
  intro s hs
  rw [List.mem_filter, h.mem_availableHere hp ha hs, bne_iff_ne]
  refine and_congr_right fun _ => not_congr ⟨?_, congrArg p.stepId⟩
  exact h.inv.ids s hs _ (h.parent _ _ (.child hp hf hc))

end Arranged

section Layer

variable {available : List (Option Nat)} {isTop : Bool}

-- The fields of a layer, the steps that come to it, and those of them that have been lifted into it.
def hoistedFields (p : Plan K) (available : List (Option Nat)) (op : OutputPlan T) :
    List (FieldPlan T LayerPlan Ref) × List Ref × List Ref :=
  hoistFields p (availableHere p available op) (ownSteps p available op) op.layer.hoistedIn op.fields

theorem hoistLayer_snd : (hoistLayer p available isTop op).snd =
    if isTop then [] else p.liftOut available (hoistedFields p available op).snd.fst
      ((hoistedFields p available op).snd.fst.length + 1) [] := by
  cases op
  simp only [hoistLayer]
  rfl

theorem hoistLayer_fst : (hoistLayer p available isTop op).fst = ⟨(hoistedFields p available op).fst,
    { op.layer with
      hoistedIn     := (hoistedFields p available op).snd.snd.filter
        (!p.hasId (hoistLayer p available isTop op).snd ·)
      hoistedOutIds := op.layer.hoistedOutIds ++ (hoistLayer p available isTop op).snd.map p.stepId }⟩ := by
  cases op
  simp only [hoistLayer]
  rfl

theorem hoistedFields_fst : (hoistedFields p available op).fst = op.fields.map fun f =>
    { f with completer := (hoistCompleter p (availableHere p available op) f.completer).fst } :=
  hoistFields_fst ..

variable (p t) in
-- What a layer lifts out is what comes to it and can leave it, if there is a layer to receive it.
def LiftsRight (op : OutputPlan T) : Prop :=
  ∀ above available, t.Path (op :: above) → Available p t.layer.parentStep above op available →
    ∀ step, step ∈ (hoistLayer p available above.isEmpty op).snd ↔
      above ≠ [] ∧ Owns p t.layer.parentStep (op :: above) step ∧ CanLeave p t.layer.parentStep above op step

-- The steps that come to a layer, in view of its children.
theorem Arranged.mem_hoistedFields (h : Arranged p t) (hp : t.Path (op :: above))
    (ha : Available p t.layer.parentStep above op available)
    (hc : ∀ f ∈ op.fields, ∀ child, f.completer.findObject = some child → LiftsRight p t child) :
    (step ∈ (hoistedFields p available op).snd.fst ↔ Owns p t.layer.parentStep (op :: above) step) ∧
    (step ∈ (hoistedFields p available op).snd.snd ↔
      step ∉ ownSteps p available op ∧ Owns p t.layer.parentStep (op :: above) step) := by
  have hl (step : Ref) : Lifts p (availableHere p available op) op.fields step ↔
      ∃ f ∈ op.fields, ∃ child, f.completer.findObject = some child ∧
        Owns p t.layer.parentStep (child :: op :: above) step ∧
        CanLeave p t.layer.parentStep (op :: above) child step := by
    refine exists_congr fun f => and_congr_right fun hf => exists_congr fun child => and_congr_right fun hfc => ?_
    refine (hc f hf child hfc (op :: above) _ (.child hp hf hfc) (h.available_child hp ha hf hfc) step).trans ?_
    exact and_iff_right (List.cons_ne_nil _ _)
  have hls (s : Ref) (hs : Lifts p (availableHere p available op) op.fields s) : s ∈ p.steps := by
    obtain ⟨f, hf, child, hfc, ho, _⟩ := (hl s).mp hs
    exact h.owns_mem (.child hp hf hfc) ho
  have hm := mem_hoistFields h.inv (h.ownSteps_subset hp ha) hls op.layer.hoistedIn step
  have ho : step ∈ ownSteps p available op ∨ Lifts p (availableHere p available op) op.fields step ↔
      Owns p t.layer.parentStep (op :: above) step := by
    rw [h.mem_ownSteps hp ha, hl]
    constructor
    case mp  =>
      rintro (⟨hn, target, ht, hd⟩ | ⟨f, hf, child, hfc, ho, hc⟩)
      · exact .own ht hd hn
      · exact .lifted hf hfc ho hc
    case mpr =>
      intro ho
      cases ho
      case own ht hd hn          => exact .inl ⟨hn, _, ht, hd⟩
      case lifted hfc hf ho hc => exact .inr ⟨_, hf, _, hfc, ho, hc⟩
  refine ⟨hm.left.trans ho, hm.right.trans ?_⟩
  rw [h.hoistedIn op above hp, ← ho]
  simp only [List.not_mem_nil, false_or]
  grind

theorem Arranged.liftsRight (h : Arranged p t) : (op : OutputPlan T) → LiftsRight p t op := by
  refine child_induction fun op hc above available hp ha step => ?_
  have ho (s : Ref) : s ∈ (hoistedFields p available op).snd.fst ↔ Owns p t.layer.parentStep (op :: above) s :=
    (h.mem_hoistedFields hp ha hc).left
  have hsub : (hoistedFields p available op).snd.fst ⊆ p.steps := fun s hs => h.owns_mem hp ((ho s).mp hs)
  rw [hoistLayer_snd]
  cases above
  case nil          => simp
  case cons o above =>
    set own := (hoistedFields p available op).snd.fst
    set lifted := p.liftOut available own (own.length + 1) [] with hlift
    have hsound : ∀ s ∈ lifted, s ∈ own ∧ CanLeave p t.layer.parentStep (o :: above) op s := by
      refine Plan.liftOut_sound (fun s hs => absurd hs List.not_mem_nil) fun s hs l hl hh => ?_
      obtain ⟨hk, hd⟩ := Plan.isHoistable_iff.mp hh
      -- A dependency is available above the layer, or it has been lifted before.
      have hd (d : Ref) (hm : d ∈ p.dependencies s) :
          Needed p t.layer.parentStep (o :: above) d ∧ d ≠ op.layer.parentStep ∨ d ∈ l := by
        have hds : d ∈ p.steps := h.inv.steps_dep s (hsub hs) d hm
        obtain hda | hda := List.mem_append.mp (hd d hm)
        · exact .inl ((ha d hds).mp hda)
        · obtain ⟨e, he, hid⟩ := List.mem_map.mp hda
          exact .inr (h.inv.ids e (hsub (hl e he).left) d hds hid ▸ he)
      refine .intro hk (fun hm => ?_) fun d hm hn => ?_
      · obtain hd | hd := hd _ hm
        · exact hd.right rfl
        · exact ((ho _).mp (hl _ hd).left).not_needed (h.needed_parent hp)
      · exact (hl d ((hd d hm).resolve_left fun hd => hn hd.left)).right
    have hid {s : Ref} (hs : s ∈ p.steps) : p.hasId lifted s = true ↔ s ∈ lifted :=
      Plan.hasId_iff h.inv (fun e he => hsub (hsound e he).left) hs
    rw [if_neg (by simp)]
    constructor
    case mp  => exact fun hs => ⟨List.cons_ne_nil _ _, (ho step).mp (hsound step hs).left, (hsound step hs).right⟩
    case mpr =>
      rintro ⟨-, hs, hl⟩
      induction hl
      case intro s hk hpar hd ih =>
        refine (hid (hsub ((ho s).mpr hs))).mp (Plan.liftOut_complete ?_ ((ho s).mpr hs) ?_)
        · exact Nat.lt_succ_of_le (List.length_filter_le ..)
        · refine Plan.isHoistable_iff.mpr ⟨hk, fun d hm => ?_⟩
          by_cases hn : Needed p t.layer.parentStep (o :: above) d
          case pos =>
            have hne : d ≠ op.layer.parentStep := fun he => hpar (he ▸ hm)
            have hds : d ∈ p.steps := h.inv.steps_dep s (hsub ((ho s).mpr hs)) d hm
            exact List.mem_append_left _ ((ha d hds).mpr ⟨hn, hne⟩)
          case neg => exact List.mem_append_right _ (List.mem_map_of_mem (ih d hm hn (hs.dep hm hn)))

-- The parts of a hoisted layer that are run.
theorem hoistLayer_walk (p : Plan K) (available : List (Option Nat)) (isTop : Bool) (op : OutputPlan T) :
    ((hoistLayer p available isTop op).fst.walk p).targets =
      op.targets ++ (hoistedFields p available op).snd.snd.filter
        (!p.hasId (hoistLayer p available isTop op).snd ·) ∧
    ((hoistLayer p available isTop op).fst.walk p).boundaryIds = p.stepId op.layer.parentStep ::
      (op.layer.hoistedOutIds ++ (hoistLayer p available isTop op).snd.map p.stepId) := by
  rw [hoistLayer_fst]
  simp only [walk, runTargets, LayerPlan.boundaryIds, hoistedFields_fst, List.map_map, Function.comp_def,
    targets, and_self]

section Run

-- What a layer lifts out, what it takes in, and where its walk stops.
def liftedOut (p : Plan K) (available : List (Option Nat)) (above : List (OutputPlan T)) (op : OutputPlan T) :
    List Ref :=
  (hoistLayer p available above.isEmpty op).snd

def liftedIn (p : Plan K) (available : List (Option Nat)) (above : List (OutputPlan T)) (op : OutputPlan T) :
    List Ref :=
  (hoistedFields p available op).snd.snd.filter (!p.hasId (liftedOut p available above op) ·)

def stopsAt (p : Plan K) (available : List (Option Nat)) (above : List (OutputPlan T)) (op : OutputPlan T)
    (step : Ref) : Bool :=
  p.stepId step ∈ p.stepId op.layer.parentStep :: (liftedOut p available above op).map p.stepId

variable (h : Arranged p t) (hp : t.Path (op :: above)) (ha : Available p t.layer.parentStep above op available)

include h hp ha

theorem mem_liftedOut : step ∈ liftedOut p available above op ↔ above ≠ [] ∧
    Owns p t.layer.parentStep (op :: above) step ∧ CanLeave p t.layer.parentStep above op step :=
  h.liftsRight op above available hp ha step

theorem liftedOut_subset : liftedOut p available above op ⊆ p.steps :=
  fun _ hs => h.owns_mem hp ((mem_liftedOut h hp ha).mp hs).right.left

theorem stays_iff : Stays p t.layer.parentStep (op :: above) step ↔
    Owns p t.layer.parentStep (op :: above) step ∧ step ∉ liftedOut p available above op := by
  rw [Stays, mem_liftedOut h hp ha]
  grind

theorem mem_liftedIn : step ∈ liftedIn p available above op ↔
    step ∉ ownSteps p available op ∧ Stays p t.layer.parentStep (op :: above) step := by
  rw [liftedIn, List.mem_filter, (h.mem_hoistedFields hp ha fun _ _ child _ => h.liftsRight child).right,
    and_assoc, stays_iff h hp ha]
  refine and_congr_right fun _ => and_congr_right fun ho => ?_
  rw [Bool.not_eq_true', ← Bool.not_eq_true,
    Plan.hasId_iff h.inv (liftedOut_subset h hp ha) (h.owns_mem hp ho)]

theorem stopsAt_eq_false_iff (hs : step ∈ p.steps) : stopsAt p available above op step = false ↔
    step ≠ op.layer.parentStep ∧ step ∉ liftedOut p available above op := by
  rw [stopsAt, decide_eq_false_iff_not, List.mem_cons, not_or]
  refine and_congr (not_congr ⟨h.inv.ids _ hs _ (h.parent _ _ hp), congrArg p.stepId⟩) (not_congr ?_)
  refine ⟨fun hm => ?_, List.mem_map_of_mem⟩
  obtain ⟨e, he, hid⟩ := List.mem_map.mp hm
  exact h.inv.ids e (liftedOut_subset h hp ha he) step hs hid ▸ he

theorem stopsAt_of_stays (hs : Stays p t.layer.parentStep (op :: above) step) :
    stopsAt p available above op step = false := by
  obtain ⟨ho, hl⟩ := (stays_iff h hp ha).mp hs
  exact (stopsAt_eq_false_iff h hp ha (h.owns_mem hp ho)).mpr
    ⟨fun he => ho.not_needed (he ▸ h.needed_parent hp), hl⟩

-- What the enclosing layers need is not lifted out.
theorem stopsAt_of_needed (hs : step ∈ p.steps) (hn : Needed p t.layer.parentStep above step)
    (hpar : step ≠ op.layer.parentStep) : stopsAt p available above op step = false :=
  (stopsAt_eq_false_iff h hp ha hs).mpr
    ⟨hpar, fun hm => ((mem_liftedOut h hp ha).mp hm).right.left.not_needed hn⟩

-- A target of the layer, or a dependency of what stays in it, stays too or is taken up again.
theorem stays_or_reenters (hs : step ∈ p.steps) (hstop : stopsAt p available above op step = false)
    (hi : step ∈ op.targets ∨ ∃ s, Stays p t.layer.parentStep (op :: above) s ∧ step ∈ p.dependencies s) :
    Stays p t.layer.parentStep (op :: above) step ∨ Reenters p t.layer.parentStep (op :: above) step := by
  obtain ⟨hpar, hl⟩ := (stopsAt_eq_false_iff h hp ha hs).mp hstop
  by_cases hn : Needed p t.layer.parentStep above step
  case pos =>
    exact .inr ⟨step, hn, hi, .target (List.mem_singleton_self step) (by simpa using hpar)⟩
  case neg =>
    refine .inl ((stays_iff h hp ha).mpr ⟨?_, hl⟩)
    obtain ht | ⟨s, hs, hd⟩ := hi
    · exact .own ht .refl hn
    · exact ((stays_iff h hp ha).mp hs).left.dep hd hn

-- What stays in a layer is reached by its walk: no path to it passes through what has been lifted out.
theorem region_of_stays (hs : Stays p t.layer.parentStep (op :: above) step) :
    Graph.Region p.dependencies (stopsAt p available above op)
      (op.targets ++ liftedIn p available above op) step := by
  by_cases how : step ∈ ownSteps p available op
  case neg =>
    exact .target (List.mem_append_right _ ((mem_liftedIn h hp ha).mpr ⟨how, hs⟩)) (stopsAt_of_stays h hp ha hs)
  case pos =>
    obtain ⟨hn, target, ht, hd⟩ := (h.mem_ownSteps hp ha).mp how
    have hl := ((stays_iff h hp ha).mp hs).right
    refine (Graph.reaches_outside (I := (· ∈ p.steps))
      (Q := fun s => Needed p t.layer.parentStep above s ∨ s ∈ liftedOut p available above op)
      h.inv.steps_dep ?_ ?_ hd (h.targets _ _ hp ht) (not_or.mpr ⟨hn, hl⟩)).right.right.mono ?_
    · rintro s (hs | hs) d hd
      · exact .inl (hs.dep h.root_free hd)
      · obtain ⟨hne, ho, hl⟩ := (mem_liftedOut h hp ha).mp hs
        by_cases hnd : Needed p t.layer.parentStep above d
        case pos => exact .inl hnd
        case neg => exact .inr ((mem_liftedOut h hp ha).mpr ⟨hne, ho.dep hd hnd, hl.dep hd hnd⟩)
    · intro s hs hstop
      by_contra hc
      obtain ⟨hn, hl⟩ := not_or.mp hc
      have hf := (stopsAt_eq_false_iff h hp ha hs).mpr ⟨fun he => hn (he ▸ h.needed_parent hp), hl⟩
      exact absurd (hstop.symm.trans hf) Bool.noConfusion
    · exact List.cons_subset.mpr ⟨List.mem_append_left _ ht, List.nil_subset _⟩

-- So is what a layer takes up again.
theorem region_of_reenters (hr : Reenters p t.layer.parentStep (op :: above) step) :
    Graph.Region p.dependencies (stopsAt p available above op)
      (op.targets ++ liftedIn p available above op) step := by
  obtain ⟨_, hn, hi, back, hs, hpar, hd⟩ := hr
  obtain rfl := List.mem_singleton.mp hs
  have hpar : back ≠ op.layer.parentStep := by simpa using hpar
  have hback : back ∈ p.steps ∧ Graph.Region p.dependencies (stopsAt p available above op)
      (op.targets ++ liftedIn p available above op) back := by
    obtain ht | ⟨s, hs, hb⟩ := hi
    · have hm := h.targets _ _ hp ht
      exact ⟨hm, .target (List.mem_append_left _ ht) (stopsAt_of_needed h hp ha hm hn hpar)⟩
    · have hm := h.inv.steps_dep s (h.owns_mem hp ((stays_iff h hp ha).mp hs).left) back hb
      exact ⟨hm, (region_of_stays h hp ha hs).tail ⟨hb, stopsAt_of_needed h hp ha hm hn hpar⟩⟩
  clear hi
  induction hd
  case refl             => exact hback.right
  case tail s d hbs e ih =>
    have hbd : ReflTransGen p.DependsOn back d := (hbs.tail e).lift id fun _ _ e => e.left
    exact ih.tail ⟨e.left, stopsAt_of_needed h hp ha (h.reaches hback.left hbd) (hn.reaches h.root_free hbd)
      (by simpa using e.right)⟩

-- A layer runs what stays in it and what it takes up again.
theorem mem_layerRun :
    step ∈ ((hoistLayer p available above.isEmpty op).fst.populateLayers p).layerRun ↔
      Stays p t.layer.parentStep (op :: above) step ∨ Reenters p t.layer.parentStep (op :: above) step := by
  obtain ⟨htargets, hbound⟩ := hoistLayer_walk p available above.isEmpty op
  rw [h.hoistedOut op above hp, List.nil_append] at hbound
  rw [layerRun_populate, Walk.steps, htargets, hbound, h.mem_orderStepsWithin]
  change Graph.Region p.dependencies (stopsAt p available above op)
    (op.targets ++ liftedIn p available above op) step ↔ _
  constructor
  case mpr => exact fun hs => hs.elim (region_of_stays h hp ha) (region_of_reenters h hp ha)
  case mp  =>
    intro hr
    refine (hr.subset_of_closed (p := fun s => s ∈ p.steps ∧ (Stays p t.layer.parentStep (op :: above) s ∨
      Reenters p t.layer.parentStep (op :: above) s)) ?_ ?_).right
    · intro s hs hstop
      obtain hs | hs := List.mem_append.mp hs
      · have hm := h.targets _ _ hp hs
        exact ⟨hm, stays_or_reenters h hp ha hm hstop (.inl hs)⟩
      · have hs := ((mem_liftedIn h hp ha).mp hs).right
        exact ⟨h.owns_mem hp ((stays_iff h hp ha).mp hs).left, .inl hs⟩
    · rintro s d ⟨hs, hk⟩ ⟨hd, hstop⟩
      have hm := h.inv.steps_dep s hs d hd
      refine ⟨hm, ?_⟩
      obtain hk | ⟨back, hn, hi, hr⟩ := hk
      · exact stays_or_reenters h hp ha hm hstop (.inr ⟨s, hk, hd⟩)
      · have hpar : (d == op.layer.parentStep) = false := by
          simpa using ((stopsAt_eq_false_iff h hp ha hm).mp hstop).left
        exact .inr ⟨back, hn, hi, hr.tail ⟨hd, hpar⟩⟩

end Run

end Layer

end ObjectPlan

end Grafast
