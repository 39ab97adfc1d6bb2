import Grafast.Execute.Serial
import Grafast.Planner.Projection
import Grafast.Planner.Theorems.Finalize

namespace Grafast

namespace StepsRun

variable {r : StepsRun} {steps : List Ref}

theorem split_append (r : StepsRun) (steps : List Ref) :
    (r.split steps).fst ++ (r.split steps).snd.getD [] = r.started steps := by
  simp only [split]
  cases r.awaits
  case none   => exact List.append_nil _
  case some k =>
    dsimp only
    split
    case isTrue h  => exact List.take_append_drop ..
    case isFalse h => exact List.append_nil _

theorem mem_started {step : Ref} (h : step ∈ r.started steps) : step ∈ steps := by
  rw [started] at h
  split at h
  case h_1   => exact h
  case h_2 k => exact List.mem_of_mem_take h

end StepsRun

theorem starts_append {field : Nat} {steps steps' : List Ref} :
    starts field steps ++ starts field steps' = starts field (steps ++ steps') :=
  List.map_append.symm

-- The events of the root fields from a field on.
inductive SerialFrom : Nat → List SerialEvent → Prop
  | nil {field : Nat} : SerialFrom field []
  | raised {field : Nat} (steps : List Ref) : SerialFrom field (starts field steps)
  | nulled {field : Nat} (steps : List Ref) :
    SerialFrom field (starts field steps ++ [.finished field true])
  | kept {field : Nat} (steps : List Ref) {events : List SerialEvent} :
    SerialFrom (field + 1) events → SerialFrom field (starts field steps ++ .finished field false :: events)

-- What the execution of one root field amounts to.
inductive FieldEvents (field : Nat) : List SerialEvent → Root → Prop
  | raised (steps : List Ref) : FieldEvents field (starts field steps) .raised
  | nulled (steps : List Ref) :
    FieldEvents field (starts field steps ++ [.finished field true]) .nulled
  | kept (steps : List Ref) : FieldEvents field (starts field steps ++ [.finished field false]) .live

section

variable {field : Nat} {walk : List Ref} {run : FieldRun} {root : Root}

theorem FieldEvents.prepend {events : List SerialEvent} (steps : List Ref)
    (h : FieldEvents field events root) : FieldEvents field (starts field steps ++ events) root := by
  cases h
  case raised s => exact starts_append ▸ .raised (steps ++ s)
  case nulled s => exact List.append_assoc .. ▸ starts_append ▸ .nulled (steps ++ s)
  case kept s   => exact List.append_assoc .. ▸ starts_append ▸ .kept (steps ++ s)

theorem completeSteps_events (field : Nat) (c : CompletionRun) :
    FieldEvents field (completeSteps field c).fst.events (completeSteps field c).snd := by
  have hf (steps : List Ref) : FieldEvents field (starts field steps ++ (finish field c.outcome).fst)
      (finish field c.outcome).snd := by
    cases c.outcome
    case kept      => exact .kept steps
    case nullsRoot => exact .nulled steps
    case raised    => exact (List.append_nil (starts field steps)).symm ▸ .raised steps
  rw [completeSteps]
  cases c.awaited
  case none      => simpa [Call.events] using hf c.called
  case some rest => simpa [Call.events] using (hf rest).prepend c.called

theorem completeSerialField_live (field : Nat) (walk : List Ref) (run : FieldRun) : FieldEvents field
    (completeSerialField field walk run .live).fst.events
    (completeSerialField field walk run .live).snd := by
  have hc := completeSteps_events field run.completion
  rw [completeSerialField, if_neg (by simp)]
  cases hs : run.steps.split walk with
  | mk called awaited =>
    cases awaited
    case none =>
      cases run.steps.isRaised walk
      case true  => simpa [Call.events] using FieldEvents.raised called
      case false => simpa [Call.events] using hc.prepend called
    case some rest =>
      cases run.steps.isRaised walk
      case true  => simpa [Call.events, starts_append] using FieldEvents.raised (called ++ rest)
      case false => simpa [Call.events] using (hc.prepend rest).prepend called

theorem completeSerialField_nulled :
    completeSerialField field walk run .nulled = (⟨[], none⟩, .nulled) :=
  rfl

end

variable {field : Nat} {fields : List (List Ref × FieldRun)}

theorem finishFields_nulled : finishFields field fields .nulled = [] := by
  induction fields generalizing field
  case nil         => rfl
  case cons f fs hi => simpa [finishFields, completeSerialField_nulled, Call.events] using hi

-- Wherever the loop becomes a coroutine, the events are those of one field after the other.
theorem executeSerialFields_events {root : Root} :
    (executeSerialFields field fields root).events = finishFields field fields root := by
  induction fields generalizing field root
  case nil          => rfl
  case cons f fs hi =>
    obtain ⟨walk, run⟩ := f
    rw [executeSerialFields, finishFields]
    obtain ⟨⟨called, awaited⟩, root⟩ := completeSerialField field walk run root
    cases awaited
    case none =>
      by_cases hr : root = .raised
      case pos => simp [hr, Call.events]
      case neg => simp [hr, ← hi, Call.events]
    case some rest =>
      by_cases hr : root = .raised
      case pos => simp [hr, Call.events]
      case neg => simp [hr, Call.events]

-- Where an element stands in a list that has been put together of two.
theorem eq_append_cons {α : Type} {l r before after : List α} {a : α}
    (h : l ++ r = before ++ a :: after) :
    (∃ rest, before = l ++ rest ∧ r = rest ++ a :: after) ∨
      ∃ rest, l = before ++ a :: rest ∧ after = rest ++ r := by
  obtain ⟨rest, hb, hr⟩ | ⟨rest, hl, hr⟩ := List.append_eq_append_iff.mp h
  · exact .inl ⟨rest, hb, hr⟩
  · cases rest
    case nil         => exact .inl ⟨[], by simpa using hl.symm, hr.symm⟩
    case cons b rest =>
      obtain ⟨rfl, ha⟩ := List.cons.inj hr
      exact .inr ⟨rest, hl, ha⟩

theorem not_mem_starts {k : Nat} {steps : List Ref} {nulls : Bool} :
    .finished k nulls ∉ starts field steps := by
  simp [starts]

theorem mem_starts {f : Option Nat} {step : Ref} {steps : List Ref}
    (h : .start f step ∈ starts field steps) : f = some field := by
  simp only [starts, List.mem_map, SerialEvent.start.injEq] at h
  obtain ⟨_, _, hf, _⟩ := h
  exact hf.symm

namespace SerialFrom

variable {events : List SerialEvent}

theorem le (h : SerialFrom field events) {f : Nat} {step : Ref}
    (hm : .start (some f) step ∈ events) : field ≤ f := by
  induction h
  case nil => exact absurd hm List.not_mem_nil
  case raised field steps => exact (Option.some.inj (mem_starts hm)).ge
  case nulled field steps =>
    have hm := (List.mem_append.mp hm).resolve_right (by simp)
    exact (Option.some.inj (mem_starts hm)).ge
  case kept field steps events _ hi =>
    obtain hm | hm := List.mem_append.mp hm
    · exact (Option.some.inj (mem_starts hm)).ge
    · exact Nat.le_of_succ_le (hi (List.mem_of_ne_of_mem (by simp) hm))

-- Before a step of a field, the fields before it have been completed.
theorem finished (h : SerialFrom field events) {before after : List SerialEvent} {f : Nat}
    {step : Ref} (he : events = before ++ .start (some f) step :: after) {k : Nat} (hk : field ≤ k)
    (hf : k < f) : .finished k false ∈ before := by
  have hs {field : Nat} {steps : List Ref} {before rest : List SerialEvent} (hk : field ≤ k)
      (h : starts field steps = before ++ .start (some f) step :: rest) : .finished k false ∈ before := by
    have hm := mem_starts (h ▸ List.mem_append_right before (.head _))
    obtain rfl := Option.some.inj hm
    omega
  induction h generalizing before
  case nil => exact absurd he (by simp)
  case raised field steps => exact hs hk he
  case nulled field steps =>
    obtain ⟨rest, _, hr⟩ | ⟨rest, hl, _⟩ := eq_append_cons he
    · cases rest <;> simp at hr
    · exact hs hk hl
  case kept field steps events _ hi =>
    obtain ⟨rest, rfl, hr⟩ | ⟨rest, hl, _⟩ := eq_append_cons he
    · cases rest
      case nil         => simp at hr
      case cons e rest =>
        obtain ⟨rfl, ht⟩ := List.cons.inj hr
        by_cases he : k = field
        case pos => simp [he]
        case neg => exact List.mem_append_right _ (.tail _ (hi ht (by omega)))
    · exact hs hk hl

-- Once a field has nulled the root, no step starts.
theorem nil_of_nulled (h : SerialFrom field events) {before after : List SerialEvent} {f : Nat}
    (he : events = before ++ .finished f true :: after) : after = [] := by
  induction h generalizing before
  case nil => exact absurd he (by simp)
  case raised field steps =>
    exact absurd (he ▸ List.mem_append_right before (.head _)) not_mem_starts
  case nulled field steps =>
    obtain ⟨rest, _, hr⟩ | ⟨rest, hl, _⟩ := eq_append_cons he
    · cases rest
      case nil    => exact (List.cons.inj hr).right.symm
      case cons   => simp at hr
    · exact absurd (hl ▸ List.mem_append_right before (.head _)) not_mem_starts
  case kept field steps events _ hi =>
    obtain ⟨rest, _, hr⟩ | ⟨rest, hl, _⟩ := eq_append_cons he
    · cases rest
      case nil         => simp at hr
      case cons e rest => exact hi (List.cons.inj hr).right
    · exact absurd (hl ▸ List.mem_append_right before (.head _)) not_mem_starts

end SerialFrom

theorem finishFields_serialFrom (field : Nat) (fields : List (List Ref × FieldRun)) :
    SerialFrom field (finishFields field fields .live) := by
  induction fields generalizing field
  case nil          => exact .nil
  case cons f fs hi =>
    obtain ⟨walk, run⟩ := f
    rw [finishFields]
    have hf := completeSerialField_live field walk run
    generalize completeSerialField field walk run .live = c at hf ⊢
    obtain ⟨call, root⟩ := c
    dsimp only at hf ⊢
    generalize call.events = events at hf ⊢
    cases hf
    case raised s => exact .raised s
    case nulled s =>
      rw [if_neg (by simp), finishFields_nulled, List.append_nil]
      exact .nulled s
    case kept s   =>
      rw [if_neg (by simp), List.append_assoc]
      exact .kept s (hi _)

theorem executeSerialFields_serial (fields : List (List Ref × FieldRun)) :
    Serial (executeSerialFields 0 fields .live).events := by
  rw [executeSerialFields_events]
  have h := finishFields_serialFrom 0 fields
  exact {
    finished := fun before f step after he k hk => h.finished he k.zero_le hk
    nulled   := fun before f after he _ _ hm => by rw [h.nil_of_nulled he] at hm; cases hm }

namespace ObjectPlan

variable {T K : Type} {p : Plan K} {owner : Ref → Option Nat} {t : OutputPlan T}

theorem ownedStarts_append {steps steps' : List Ref} :
    ownedStarts owner steps ++ ownedStarts owner steps' = ownedStarts owner (steps ++ steps') :=
  List.map_append.symm

theorem effectWalk_of_isEmpty (h : t.layer.effectSteps.isEmpty) : t.effectWalk p = [] := by
  simp [effectWalk, Plan.orderStepsWithin, Graph.postOrder, List.isEmpty_iff.mp h]

-- The events are those of the orphaned effects, and then those of the fields unless an effect raises.
theorem executeSerially_events (p : Plan K) (owner : Ref → Option Nat) (t : OutputPlan T)
    (effects : StepsRun) (runs : FieldPlan T LayerPlan Ref → FieldRun) :
    ∃ started, (t.effectWalk p = [] ∨ started = effects.started (t.effectWalk p)) ∧
      (∀ step ∈ started, step ∈ t.effectWalk p) ∧
      ∃ events, Serial events ∧
        (t.executeSerially p owner effects runs).events = ownedStarts owner started ++ events := by
  have hs := executeSerialFields_serial (t.fields.map fun f => (t.fieldWalk p f, runs f))
  have hn : Serial [] := ⟨by simp, by simp⟩
  rw [executeSerially]
  by_cases he : t.layer.effectSteps.isEmpty
  case pos =>
    rw [if_pos he]
    exact ⟨[], .inl (effectWalk_of_isEmpty he), by simp, _, hs, rfl⟩
  case neg =>
    rw [if_neg he]
    have ha := effects.split_append (t.effectWalk p)
    refine ⟨effects.started (t.effectWalk p), .inr rfl, fun _ => StepsRun.mem_started, ?_⟩
    cases hx : effects.split (t.effectWalk p) with
    | mk called awaited =>
      rw [hx] at ha
      cases awaited
      case none =>
        obtain rfl : called = _ := (List.append_nil _).symm.trans ha
        cases hr : effects.isRaised (t.effectWalk p)
        case true  => exact ⟨[], hn, by simp [Call.events]⟩
        case false => exact ⟨_, hs, by simp [Call.events]⟩
      case some rest =>
        rw [Option.getD_some] at ha
        rw [← ha, ← ownedStarts_append]
        cases hr : effects.isRaised (t.effectWalk p)
        case true  => exact ⟨[], hn, by simp [Call.events]⟩
        case false => exact ⟨_, hs, by simp [Call.events]⟩

-- Effects that belong to the first field come before all of its events.
theorem executeSerially_serial {effects : StepsRun} {runs : FieldPlan T LayerPlan Ref → FieldRun}
    (h : ∀ step ∈ t.effectWalk p, ∀ field, owner step = some field → field = 0) :
    Serial (t.executeSerially p owner effects runs).events := by
  obtain ⟨started, _, hm, events, hs, he⟩ := t.executeSerially_events p owner effects runs
  rw [he]
  constructor
  case finished =>
    intro before f step after hb k hk
    obtain ⟨rest, rfl, hr⟩ | ⟨rest, hl, _⟩ := eq_append_cons hb
    · exact List.mem_append_right _ (hs.finished rest f step after hr k hk)
    · have hf : .start (some f) step ∈ ownedStarts owner started := hl ▸ List.mem_append_right _ (.head _)
      simp only [ownedStarts, List.mem_map, SerialEvent.start.injEq] at hf
      obtain ⟨step, hst, ho, rfl⟩ := hf
      exact absurd (h step (hm step hst) f ho ▸ hk) (Nat.not_lt_zero k)
  case nulled =>
    intro before f after hb
    obtain ⟨rest, rfl, hr⟩ | ⟨rest, hl, _⟩ := eq_append_cons hb
    · exact hs.nulled rest f after hr
    · have hf : .finished f true ∈ ownedStarts owner started := hl ▸ List.mem_append_right _ (.head _)
      simp [ownedStarts] at hf

-- An effect of a later field starts before the first field has been completed.
theorem executeSerially_not_serial {step : Ref} {field : Nat} (h : step ∈ t.effectWalk p)
    (ho : owner step = some (field + 1)) {runs : FieldPlan T LayerPlan Ref → FieldRun} :
    ¬Serial (t.executeSerially p owner ⟨none, none⟩ runs).events := by
  intro hs
  obtain ⟨started, hst, _, events, _, he⟩ := t.executeSerially_events p owner ⟨none, none⟩ runs
  obtain rfl : started = t.effectWalk p := hst.resolve_left (List.ne_nil_of_mem h)
  obtain ⟨before, after, hw⟩ := List.append_of_mem h
  have hb : (t.executeSerially p owner ⟨none, none⟩ runs).events = ownedStarts owner before ++
      .start (some (field + 1)) step :: (ownedStarts owner after ++ events) := by
    rw [he, hw]
    simp [ownedStarts, ho]
  have hf := hs.finished _ _ _ _ hb 0 field.succ_pos
  simp [ownedStarts] at hf

-- In every run of a mutation the root fields are executed serially, if and only if the effects that have
-- been orphaned in the root bucket, and what these depend on, belong to the first field.
theorem executeSerially_iff (t : OutputPlan T) (p : Plan K) (owner : Ref → Option Nat) :
    (∀ effects runs, Serial (t.executeSerially p owner effects runs).events) ↔
      ∀ step ∈ t.effectWalk p, ∀ field, owner step = some field → field = 0 := by
  constructor
  case mp =>
    intro h step hm field ho
    cases field
    case zero       => rfl
    case succ field =>
      have hr := h ⟨none, none⟩ fun _ => ⟨⟨none, none⟩, [], none, .kept⟩
      exact absurd hr (executeSerially_not_serial hm ho)
  case mpr => exact fun h effects runs => executeSerially_serial h

end ObjectPlan

namespace Writes

open Profile (ProfileStep)

-- The operation `mutation { first second }`. The second field selects from the row that it writes.
def writes : OperationDefinition String ProfileStep where
  rootStep              := .core (.root 0)
  rootFields            := [
    .field "first" "Mutation.first" (.leaf "ID")
      (some fun p parent => ([(.write 0, [parent])], p.heap.length)) (.resolve 0) none [],
    .field "second" "Mutation.second" (.leaf "ID")
      (some fun p parent => ([(.write 1, [parent]), (.core (.access ["id"] ()), [p.heap.length])],
        p.heap.length + 1)) (.resolve 1) none []]
  abstractChildPlan _ _ := ⟨[], planLayer 0⟩
  isMutation            := true
  hoist                 := false

-- An optimization that inlines what is selected from a row.
def inline : Optimizer ProfileStep := fun p r =>
  match p.kind r with
  | some (.core (.access _ _)) => ([.construct (.core (.constant ())) []], p.heap.length)
  | _                          => ([], r)

def plan : Plan ProfileStep × OutputPlan String :=
  (writes.planOperation inline).getD (Plan.empty, ⟨[], planLayer 0⟩)

theorem planOperation_eq (h : (writes.planOperation inline).isSome) :
    writes.planOperation inline = some (plan.fst, plan.snd) := by
  have ⟨_, h⟩ := Option.isSome_iff_exists.mp h
  simp [plan, h]

-- The write of the second field is orphaned, and runs before that of the first field.
theorem not_serial : ∃ q t, writes.planOperation inline = some (q, t) ∧
    ¬∀ effects runs, Serial (t.executeSerially q writes.fieldOf effects runs).events := by
  refine ⟨plan.fst, plan.snd, planOperation_eq (by decide +kernel), fun h => ?_⟩
  have hm : 2 ∈ plan.snd.effectWalk plan.fst := by decide +kernel
  have ho : writes.fieldOf 2 = some 1 := by decide +kernel
  exact ObjectPlan.executeSerially_not_serial hm ho
    (h ⟨none, none⟩ fun _ => ⟨⟨none, none⟩, [], none, .kept⟩)

end Writes

end Grafast
