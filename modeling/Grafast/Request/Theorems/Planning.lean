import Grafast.Request.Planning
import Grafast.Request.Theorems.Gate
import Mathlib.Data.List.Perm.Basic

namespace Grafast

open PyObject

variable {A F V Y P : Type} [PyObject V Y] [DecidableEq Y]

-- Equality tells a value from another one that is found in its place.
def Discerned (v : V) (found : Option V) : Prop :=
  ∀ w, found = some w → valuesEqual (some w) (some v) = true → w = v

-- A key that one context lacks is lacking in the other one, which is a mapping as well or of the same type.
def MissesAlike (context context' : V) (key : String) : Prop :=
  ContextGate.read context' key = none ∧ (keys context').isSome = (keys context).isSome ∧
    (keys context = none → typeOf context' = typeOf context)

-- The reads that another request repeats if their constraints hold for it: values that are equal are the same, and
-- what is missing is missing there too.
def GateRead.Repeats (facts facts' : RequestFacts V) : GateRead V → Prop
  | .eval key     =>
    match ContextGate.read facts.contextValue key with
    | some v => Discerned v (ContextGate.read facts'.contextValue key)
    | none   => MissesAlike facts.contextValue facts'.contextValue key
  | .evalIs key _ =>
    ContextGate.read facts.contextValue key = none → MissesAlike facts.contextValue facts'.contextValue key
  | .getItem name =>
    match facts.variableValues.lookup name with
    | some v => Discerned v (facts'.variableValues.lookup name)
    | none   => facts'.variableValues.lookup name = none
  | .get name     => ∀ v, facts.variableValues.lookup name = some v →
    Discerned v (facts'.variableValues.lookup name)
  | read          => read.Stable facts'

def PlanRead.Repeats (facts facts' : RequestFacts V) : PlanRead A F V → Prop
  | .tracked read                      => read.Repeats facts facts'
  | .directives selectionSet fragments => ∀ name ∈ directiveVariables selectionSet fragments,
    ∀ v, facts.variableValues.lookup name = some v → Discerned v (facts'.variableValues.lookup name)
  | _                                  => True

-- The coerced variables of a request come in the order of the definitions of its operation.
def RequestFacts.Follows (facts : RequestFacts V) (definitions : List String) : Prop :=
  (facts.variableValues.map Prod.fst).Sublist definitions

variable {facts facts' : RequestFacts V} {definitions : List String} {key name : String}

omit [DecidableEq Y] in
theorem MissesAlike.missing_eq {context context' : V} (h : MissesAlike context context' key) :
    (ContextGate.missing context' key : Observation V Y) = ContextGate.missing context key := by
  rw [ContextGate.missing, ContextGate.missing, h.right.left]
  cases hk : keys context
  case none   => rw [h.right.right hk]
  case some _ => rfl

theorem eq_of_valuesEqual {a b : Option V} (hd : ∀ v, b = some v → Discerned v a)
    (h : valuesEqual a b = true) : a = b := by
  cases a <;> cases b
  case none.none     => rfl
  case some.some w v => exact congrArg some (hd v rfl w rfl h)
  all_goals cases h

-- A variable whose value is discerned has that value in each request for which the constraint on it holds.
theorem lookup_eq_of_holds
    (hd : ∀ v, facts.variableValues.lookup name = some v → Discerned v (facts'.variableValues.lookup name))
    (h : Constraint.holds facts' (.value .variables [name] (facts.variableValues.lookup name)) = true) :
    facts'.variableValues.lookup name = facts.variableValues.lookup name := by
  rw [Constraint.holds, valueAt_variables] at h
  exact eq_of_valuesEqual hd h

theorem read_eq_of_holds {v : V} (hd : Discerned v (ContextGate.read facts'.contextValue key))
    (h : Constraint.holds facts' (.value .context [key] (some v)) = true) :
    ContextGate.read facts'.contextValue key = some v := by
  have h : valuesEqual (valueAt facts'.contextValue [key]) (some v) = true := h
  cases hv : valueAt facts'.contextValue [key]
  case none   => rw [hv] at h; cases h
  case some w =>
    have hs := isSome_valueAt_context.mp (Option.isSome_of_eq_some hv)
    have hr : ContextGate.read facts'.contextValue key = some w := valueAt_context hs.left ▸ hv
    rw [hv] at h
    exact hr.trans (congrArg some (hd w hr h))

-- A comparison that comes out the same on a context that has the key as well.
theorem evalIs_of_holds {expected : V} {passed : Bool}
    (he : Constraint.holds facts' (.exists .context [key] true) = true)
    (h : Constraint.holds facts' (.equality .context [key] expected passed) = true) :
    ∃ w, ContextGate.read facts'.contextValue key = some w ∧
      valuesEqual (some w) (some expected) = passed := by
  have hs : (valueAt facts'.contextValue [key]).isSome = true := by
    simpa [Constraint.holds, RequestFacts.scopeValue] using he
  obtain ⟨hv, hr⟩ := isSome_valueAt_context.mp hs
  obtain ⟨w, hw⟩ := Option.isSome_iff_exists.mp hr
  refine ⟨w, hw, ?_⟩
  have h : (valuesEqual (valueAt facts'.contextValue [key]) (some expected) == passed) = true := h
  rw [valueAt_context hv, hw] at h
  exact beq_iff_eq.mp h

theorem evalHas_of_holds (hs : (GateRead.evalHas key).Stable facts') {present : Bool}
    (h : Constraint.holds facts' (.exists .context [key] present) = true) :
    ContextGate.has facts'.contextValue key = present := by
  have h : ((valueAt facts'.contextValue [key]).isSome == present) = true := h
  rw [← beq_iff_eq.mp h]
  by_cases hv : Visible facts'.contextValue key
  case pos => exact has_iff hv
  case neg =>
    rw [isSome_valueAt_of_not_visible hv, Option.isSome_none]
    exact Bool.eq_false_iff.mpr fun hh => hv (hs hh)

theorem names_eq_of_holds (hd : definitions.Nodup) (hf : facts.Follows definitions)
    (hf' : facts'.Follows definitions)
    (h : Constraint.holds facts' (.keys .variables [] (facts.variableValues.map Prod.fst).mergeSort) = true) :
    facts'.variableValues.map Prod.fst = facts.variableValues.map Prod.fst := by
  have hk : (facts'.variableValues.map Prod.fst).mergeSort = (facts.variableValues.map Prod.fst).mergeSort := by
    simpa [Constraint.holds, RequestFacts.scopeValue, valueAt, keys_ofItems] using h
  have hp := (List.mergeSort_perm _ _).symm.trans (hk ▸ List.mergeSort_perm (facts.variableValues.map Prod.fst) _)
  exact (hd.perm_iff_eq_of_sublist hf' hf).mp hp

theorem GateRead.observe_eq (hd : definitions.Nodup) (hf : facts.Follows definitions)
    (hf' : facts'.Follows definitions) {read : GateRead V} (hr : read.Repeats facts facts')
    (h : constraintsMatch (read.record facts) facts' = true) : read.observe facts' = read.observe facts := by
  rw [constraintsMatch, List.all_eq_true] at h
  cases read
  case eval key            =>
    rw [Repeats] at hr
    rw [record] at h
    rw [observe, observe]
    cases hv : ContextGate.read facts.contextValue key
    case none   =>
      rw [hv] at hr
      rw [hr.left, Option.elim_none, hr.missing_eq, Option.elim_none]
    case some v =>
      rw [hv] at hr h
      rw [read_eq_of_holds hr (h _ (.head _)), Option.elim_some, Option.elim_some]
  case evalIs key expected =>
    rw [record] at h
    rw [observe, observe]
    cases hv : ContextGate.read facts.contextValue key
    case none   =>
      have hm := hr hv
      rw [hm.left, Option.elim_none, hm.missing_eq, Option.elim_none]
    case some v =>
      rw [hv] at h
      obtain ⟨w, hw, he⟩ := evalIs_of_holds (h _ (.head _)) (h _ (.tail _ (.head _)))
      rw [hw, Option.elim_some, he, Option.elim_some]
  case evalHas key         =>
    rw [observe, observe, evalHas_of_holds hr (h _ (.head _))]
  case getItem name        =>
    rw [Repeats] at hr
    rw [record] at h
    rw [observe, observe]
    cases hv : facts.variableValues.lookup name
    case none   =>
      rw [hv] at hr
      rw [hr]
    case some v =>
      rw [hv] at hr h
      have hl : facts'.variableValues.lookup name = some v := by
        rw [← hv]
        exact lookup_eq_of_holds (fun w hw => Option.some.inj (hv.symm.trans hw) ▸ hr) (hv ▸ h _ (.head _))
      rw [hl]
  case get name            =>
    rw [observe, observe, lookup_eq_of_holds hr (h _ (.head _))]
  case contains name       =>
    have hc := h _ (.head _)
    rw [Constraint.holds, valueAt_variables, beq_iff_eq] at hc
    have hs : (facts'.variableValues.any fun item => name.equals item.fst) =
      (facts'.variableValues.lookup name.str).isSome := hr
    rw [observe, observe, hs, hc]
  case enumerate           =>
    rw [observe, observe, names_eq_of_holds hd hf hf' (h _ (.head _))]

theorem PlanRead.observe_eq (hd : definitions.Nodup) (hf : facts.Follows definitions)
    (hf' : facts'.Follows definitions) {read : PlanRead A F V} (hr : read.Repeats facts facts')
    (h : constraintsMatch (read.record facts) facts' = true) : read.observe facts' = read.observe facts := by
  cases read
  case tracked read                      => exact GateRead.observe_eq hd hf hf' hr h
  case token                             => rfl
  case refused                           => rfl
  case directives selectionSet fragments =>
    rw [observe, observe]
    refine congrArg Observation.values (List.map_congr_left fun name hm => lookup_eq_of_holds (hr name hm) ?_)
    rw [constraintsMatch, List.all_eq_true] at h
    exact h _ (List.mem_map.mpr ⟨name, hm, rfl⟩)

namespace Planning

variable {planning : Planning A F V Y P}

-- Each read of a run finds what another request repeats.
def Repeats (planning : Planning A F V Y P) (facts facts' : RequestFacts V) : Prop :=
  ∀ entry ∈ (planning.run facts).reads, entry.fst.Repeats facts facts'

theorem run_of_match (hd : definitions.Nodup) (hf : facts.Follows definitions)
    (hf' : facts'.Follows definitions) (hr : planning.Repeats facts facts')
    (h : constraintsMatch (planning.build facts).constraints facts' = true) :
    planning.run facts' = planning.run facts := by
  refine Replay.Program.run_congr fun entry he => PlanRead.observe_eq hd hf hf' (hr entry he) ?_
  rw [constraintsMatch, List.all_eq_true] at h ⊢
  exact fun constraint hc => h constraint (List.mem_flatMap.mpr ⟨entry, he, hc⟩)

-- A request whose inputs the constraints of a build match plans as that build did, and so the candidate that it is
-- served is the plan that it would have built, if equality discerns what the reads have found and none of them has
-- missed what the request has.
theorem served_of_repeats (hd : definitions.Nodup) (hf' : facts'.Follows definitions) :
    (∀ facts, facts.Follows definitions → planning.Repeats facts facts' →
        constraintsMatch (planning.build facts).constraints facts' = true →
          planning.run facts' = planning.run facts) ∧
      ∀ candidates : List (BuiltPlan V P),
        (∀ candidate ∈ candidates, ∃ facts, facts.Follows definitions ∧ planning.Repeats facts facts' ∧
          candidate = planning.build facts) →
        ∀ candidate, serve candidates facts' = some candidate → candidate.plan = (planning.build facts').plan := by
  constructor
  case left  => exact fun facts hf hr h => run_of_match hd hf hf' hr h
  case right =>
    intro candidates hb candidate hs
    obtain ⟨facts, hf, hr, rfl⟩ := hb candidate (List.mem_of_find?_eq_some hs)
    have hm := List.find?_some hs
    exact congrArg Replay.Run.result (run_of_match hd hf hf' hr hm).symm

end Planning

namespace Visitors

abbrev VisitPlanning := Planning Unit Unit PyData String String

def visit (context : List (String × PyData)) : RequestFacts PyData where
  variableValues := []
  contextValue   := .ofItems context

def guest : RequestFacts PyData :=
  visit []

def member : RequestFacts PyData :=
  visit [("tenant", .str "acme")]

def subscriber : RequestFacts PyData :=
  visit [("tenant", .str "acme"), ("contract", .str "yearly")]

def rowsOf : Observation PyData String → VisitPlanning
  | .value (.str tenant) => .done ("rows of " ++ tenant)
  | _                    => .done "public rows"

def allOrOwn : Observation PyData String → VisitPlanning
  | .outcome true => .done "all rows"
  | _             => .done "own rows"

def byRole : Observation PyData String → VisitPlanning
  | .outcome true => .read (.tracked (.evalIs "role" (.str "admin"))) allOrOwn
  | _             => .read (.tracked (.eval "tenant")) rowsOf

-- A plan resolver that asks for the role of those who have one.
def planned : VisitPlanning :=
  .read (.tracked (.evalHas "role")) byRole

-- A plan resolver that catches the exception of a missing key.
def guarded : VisitPlanning :=
  .read (.tracked (.eval "tenant")) rowsOf

theorem discerned_str (s : String) (found : Option PyData) : Discerned (PyData.str s) found := by
  intro w hw h
  clear hw
  cases w
  case str s' =>
    have he : (s' == s) = true := by simpa [valuesEqual, typeOf, PyData.typeName, eq, PyData.equals] using h
    rw [beq_iff_eq.mp he]
  all_goals simp [valuesEqual, typeOf, PyData.typeName] at h

theorem planned_repeats : planned.Repeats member subscriber := by
  have hr : (planned.run member).reads.map Prod.fst =
    [.tracked (.evalHas "role"), .tracked (.eval "tenant")] := rfl
  intro entry he
  have hm := hr ▸ List.mem_map_of_mem (f := Prod.fst) he
  simp only [List.mem_cons, List.not_mem_nil, or_false] at hm
  cases hm
  case inl h =>
    rw [h]
    exact fun hh => absurd hh (by decide)
  case inr h =>
    rw [h]
    exact discerned_str "acme" _

-- The plan of a member is what a subscriber of the same tenant is served.
theorem planned_served : serve [planned.build member] subscriber = some (planned.build member) ∧
    (planned.build member).plan = (planned.build subscriber).plan := by
  have hs : serve [planned.build member] subscriber = some (planned.build member) := rfl
  have hb : ∀ candidate ∈ [planned.build member], ∃ facts : RequestFacts PyData, facts.Follows [] ∧
      planned.Repeats facts subscriber ∧ candidate = planned.build facts :=
    fun candidate hc => ⟨member, List.nil_sublist _, planned_repeats, List.mem_singleton.mp hc⟩
  have hf : subscriber.Follows [] := List.nil_sublist _
  exact ⟨hs, (Planning.served_of_repeats List.nodup_nil hf).right _ hb _ hs⟩

-- The plan of a guest has no constraints, and so it is served to a member, who would have got another plan.
theorem guarded_stale : constraintsMatch (guarded.build guest).constraints member = true ∧
    serve [guarded.build guest] member = some (guarded.build guest) ∧
    (guarded.build guest).plan ≠ (guarded.build member).plan :=
  ⟨rfl, rfl, by decide⟩

end Visitors

end Grafast
