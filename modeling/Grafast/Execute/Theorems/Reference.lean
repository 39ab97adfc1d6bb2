import Grafast.Execute.Entrywise

namespace Grafast

open Batch

variable {T L S I V : Type} [DecidableEq I]

section Items

variable {items : List (Completed V)}

theorem collectItems_nullable {done : List (Data V)} {errors : List (LocatedError V)} :
    (collectItems false items done errors).fst = .value (.list (done ++ items.map (·.orNull))) := by
  induction items generalizing done errors
  case nil              => simp [collectItems]
  case cons completed _ hi => cases completed <;> simp [collectItems, hi, Completed.orNull]

theorem collectItems_nonNull {done : List (Data V)} {errors : List (LocatedError V)} :
    (collectItems true items done errors).fst =
      match items.findSome? (·.bubble?) with
      | some error => .bubble error
      | none       => .value (.list (done ++ items.map (·.orNull))) := by
  induction items generalizing done errors
  case nil              => simp [collectItems]
  case cons completed _ hi =>
    cases completed <;> simp [collectItems, hi, Completed.orNull, Completed.bubble?]

-- The loop over the completed items keeps the first violation of a non-null item.
theorem collectItems_fst {itemIsNonNull : Bool} :
    (collectItems itemIsNonNull items [] []).fst = completeItems itemIsNonNull items := by
  cases itemIsNonNull
  case false => simp [collectItems_nullable, completeItems]
  case true  =>
    cases h : items.findSome? (·.bubble?) <;> simp [collectItems_nonNull, completeItems, h]

end Items

section Slot

-- A parent after some of its fields have been completed.
def Slot.write (slot : Slot V) (f : FieldResult V) : Slot V :=
  writeValue f.responseName f.isNonNull slot f.completed

theorem Slot.write_live {output : List (String × Data V)} {f : FieldResult V} :
    (Slot.live output).write f = match f.bubble? with
      | some error => .dead error
      | none       => .live (output ++ [(f.responseName, f.completed.orNull)]) := by
  obtain ⟨name, nonNull, completed⟩ := f
  cases completed <;> cases nonNull <;>
    simp [write, writeValue, FieldResult.bubble?, Completed.bubble?, Completed.orNull]

end Slot

-- What is left of a parent when its fields have the given results.
def Slot.writeAll : List (FieldResult V) → Slot V → Slot V
  | [],      slot => slot
  | f :: fs, slot => writeAll fs (slot.write f)

theorem Slot.writeAll_dead {fs : List (FieldResult V)} {error : LocatedError V} :
    Slot.writeAll fs (.dead error) = .dead error := by
  induction fs
  case nil          => rfl
  case cons f fs hi => exact hi

theorem Slot.writeAll_live {fs : List (FieldResult V)} {output : List (String × Data V)} :
    Slot.writeAll fs (.live output) = match fs.findSome? (·.bubble?) with
      | some error => .dead error
      | none       => .live (output ++ fs.map fun f => (f.responseName, f.completed.orNull)) := by
  induction fs generalizing output
  case nil          => simp [writeAll]
  case cons f fs hi =>
    rw [writeAll, write_live]
    cases hf : f.bubble?
    case some error => simp [hf, writeAll_dead]
    case none       => simp [hf, hi]

theorem Slot.assemble_writeAll {fs : List (FieldResult V)} :
    (Slot.writeAll fs (.live [])).assemble = completeOutput fs := by
  rw [writeAll_live]
  cases h : fs.findSome? (·.bubble?) <;> simp [assemble, completeOutput, h]

variable {runs : LayerRuns L S I V} [Host V T]

open Host

theorem completeSingleLeaf_iff {leafType : T} {e : Entry V} {r : Completed V} {label : String}
    {seeds : I → Option V} : completeSingleLeaf leafType e = some r ↔
      Safe runs (.leaf leafType) label e seeds ∧ reference runs (.leaf leafType) label e seeds = r := by
  unfold completeSingleLeaf Safe reference isPresent objectResult serializeLeaf
  cases hx : isException e.value
  case true  => simp
  case false =>
    cases hn : isNull e.value
    case true  => simp
    case false =>
      cases hs : serialize leafType e.value
      case error error => cases hc : isLeafError error <;> simp [isCaught, hc]
      case ok v        => cases hv : isNull v <;> simp [isCaught, hv, nullSerializedError]

theorem listItems_of_present {label : String} {e : Entry V} (h : isPresent e.value) :
    listItems label e = presentItems label e := by
  simp only [isPresent, Bool.and_eq_true, Bool.not_eq_true'] at h
  simp [listItems, h.left, h.right]

theorem listItems_of_absent (label : String) {e : Entry V} (h : isPresent e.value = false) :
    ∃ items : Items V, listItems label e = some items ∧
      ((∃ error, items = .invalid error ∧ objectResult e = .bubble error) ∨
        items = .null ∧ objectResult e = .value .null) := by
  cases hx : isException e.value
  case true  => exact ⟨_, by simp [listItems, hx]; rfl, .inl ⟨_, rfl, by simp [objectResult, hx]; rfl⟩⟩
  case false =>
    have hn : isNull e.value = true := by simpa [isPresent, hx] using h
    exact ⟨.null, by simp [listItems, hx, hn], .inr ⟨rfl, by simp [objectResult, hx]⟩⟩

-- A parent that has been nulled stays so.
theorem completeSlots_dead {fs : List (FieldPlan T L S)} {e : Entry V} {columns : I → Bool}
    {value : I → V} {error : LocatedError V} :
    completeSlots runs fs e columns value (.dead error) = some (.dead error) := by
  induction fs
  case nil          => rw [completeSlots]
  case cons f fs hi =>
    obtain ⟨_, _, _, _, _⟩ := f
    rw [completeSlots, completeSlot]
    exact hi

mutual

-- What the executor makes of a value is what the reference makes of it, unless something raises that
-- nothing catches.
theorem completeValue_iff : (c : Completer T L S) → (label : String) → (e : Entry V) →
    (seeds : I → Option V) → (r : Completed V) →
    (completeValue runs c label e seeds = some r ↔
      Safe runs c label e seeds ∧ reference runs c label e seeds = r)
  | .leaf leafType, label, e, seeds, r => by
    rw [completeValue]
    exact completeSingleLeaf_iff
  | .nonNull inner, label, e, seeds, r => by
    simp only [completeValue, Safe, reference, Option.map_eq_some_iff,
      completeValue_iff inner label e seeds]
    constructor
    case mp  => exact fun ⟨_, ⟨hs, hr⟩, he⟩ => ⟨hs, hr ▸ he⟩
    case mpr => exact fun ⟨hs, he⟩ => ⟨_, ⟨hs, rfl⟩, he⟩
  | .list item, label, e, seeds, r => by
    rw [completeValue, Safe, reference]
    cases hp : isPresent e.value
    case false =>
      obtain ⟨items, hl, ho⟩ := listItems_of_absent label hp
      rcases ho with ⟨error, hi, ho⟩ | ⟨hi, ho⟩
      all_goals simp [hl, hi, ho]
    case true =>
      rw [listItems_of_present hp, presentItems]
      cases hi : iterate e.value
      case none => simp [Completed.bubbleAt]
      case some result =>
        cases result
        case error error => simp
        case ok values   =>
          have hm := fun cs => mapM_eq_some_iff (l := itemEntries e values) (b := cs)
            fun e _ r => completeValue_iff item label e seeds r
          simp only [Option.map_eq_some_iff, hm, collectItems_fst, forall_const, Option.some.injEq,
            forall_eq', Except.ok.injEq, exists_eq_left']
          constructor
          case mp  => exact fun ⟨_, ⟨hs, hc⟩, hr⟩ => ⟨hs, hc ▸ hr⟩
          case mpr => exact fun ⟨hs, hr⟩ => ⟨_, ⟨hs, rfl⟩, hr⟩
  | .object objectType child, label, e, seeds, r => by
    rw [completeValue, Safe, reference]
    cases hp : isPresent e.value
    case false => simp
    case true  =>
      cases hc : checkTypeOf objectType e
      case error error => simp
      case ok ok       =>
        cases ok
        case false => simp
        case true  => simp [completeObject_iff child e seeds]
  | .abstract abstractType plans, label, e, seeds, r => by
    rw [completeValue, Safe, reference]
    simp only [groupType, abstractResult]
    cases hp : isPresent e.value
    case false => simp
    case true  =>
      cases ht : runtimeType abstractType e
      case error error   => simp [Except.toOption]
      case ok objectType => simp [Except.toOption, completeObject_iff (plans objectType) e seeds]

theorem completeObject_iff : (op : ObjectPlan T L S) → (e : Entry V) → (seeds : I → Option V) →
    (r : Completed V) → (completeObject runs op e seeds = some r ↔
      SafeObject runs op e seeds ∧ referenceObject runs op e seeds = r)
  | ⟨fields, layer⟩, e, seeds, r => by
    rw [completeObject, SafeObject, referenceObject, ← List.all_eq_true]
    cases ha : (runs.hoistedOutIds layer).all (seeds · |>.isSome)
    case false => simp
    case true  =>
      simp only [if_true, true_and, Option.map_eq_some_iff, completeSlots_iff]
      constructor
      case mp  => exact fun ⟨slot, ⟨hs, hw⟩, hr⟩ => ⟨hs, by rw [← Slot.assemble_writeAll, hw, hr]⟩
      case mpr => exact fun ⟨hs, hr⟩ => ⟨_, ⟨hs, rfl⟩, by rw [Slot.assemble_writeAll, hr]⟩

theorem completeSlots_iff : (fs : List (FieldPlan T L S)) → (e : Entry V) → (columns : I → Bool) →
    (value : I → V) → (output : List (String × Data V)) → (slot : Slot V) →
    (completeSlots runs fs e columns value (.live output) = some slot ↔
      SafeFields runs fs e columns value ∧
        Slot.writeAll (referenceFields runs fs e value) (.live output) = slot)
  | [], e, columns, value, output, slot => by
    simp [completeSlots, SafeFields, referenceFields, Slot.writeAll]
  | f :: fs, e, columns, value, output, slot => by
    rw [completeSlots, SafeFields, referenceFields, Slot.writeAll]
    simp only [Option.bind_eq_some_iff, completeSlot_iff f e columns value output]
    constructor
    case mp =>
      intro ⟨slot', ⟨hf, hw⟩, hfs⟩
      obtain rfl := hw
      rw [Slot.write_live] at hfs ⊢
      cases hb : (referenceField runs f e value).bubble?
      case some error =>
        rw [hb, completeSlots_dead] at hfs
        exact ⟨⟨hf, fun h => by simp at h⟩, by rw [Slot.writeAll_dead]; exact Option.some.inj hfs⟩
      case none =>
        rw [hb, completeSlots_iff] at hfs
        exact ⟨⟨hf, fun _ => hfs.left⟩, hfs.right⟩
    case mpr =>
      intro ⟨⟨hf, hfs⟩, hw⟩
      refine ⟨_, ⟨hf, rfl⟩, ?_⟩
      rw [Slot.write_live] at hw ⊢
      cases hb : (referenceField runs f e value).bubble?
      case some error =>
        rw [hb, Slot.writeAll_dead] at hw
        exact hw ▸ completeSlots_dead
      case none =>
        rw [hb] at hw
        exact completeSlots_iff fs e columns value _ slot |>.mpr ⟨hfs hb, hw⟩

theorem completeSlot_iff : (f : FieldPlan T L S) → (e : Entry V) → (columns : I → Bool) →
    (value : I → V) → (output : List (String × Data V)) → (slot : Slot V) →
    (completeSlot runs f e columns value (.live output) = some slot ↔
      SafeField runs f e columns value ∧ (Slot.live output).write (referenceField runs f e value) = slot)
  | ⟨name, label, step, completer, _⟩, e, columns, value, output, slot => by
    simp only [completeSlot, SafeField, referenceField, Slot.isLive, if_true, Slot.write]
    cases hc : columns (runs.stepId step) && (runs.childHoistedOutIds completer).all columns
    case false =>
      have hc : ¬(columns (runs.stepId step) = true ∧
          ∀ id ∈ runs.childHoistedOutIds completer, columns id = true) := by
        rw [← List.all_eq_true, ← Bool.and_eq_true, hc]
        exact Bool.false_ne_true
      simp only [Bool.false_eq_true, if_false, reduceCtorEq, false_iff]
      exact fun h => hc ⟨h.left.left, h.left.right.left⟩
    case true =>
      rw [Bool.and_eq_true, List.all_eq_true] at hc
      simp only [if_true, Option.map_eq_some_iff, completeValue_iff, hc.left, true_and]
      constructor
      case mp  => exact fun ⟨_, ⟨hs, hr⟩, hw⟩ => ⟨⟨hc.right, hs⟩, hr ▸ hw⟩
      case mpr => exact fun ⟨⟨_, hs⟩, hw⟩ => ⟨_, ⟨hs, rfl⟩, hw⟩

end

end Grafast
