import Grafast.Execute.Reference

namespace Grafast

variable {T L S I V : Type} [DecidableEq I]
variable (runs : LayerRuns L S I V) [Host V T]

mutual

-- What the completion of a column makes of one of its values.
def completeValue : Completer T L S → String → Entry V → (I → Option V) → Option (Completed V)
  | .leaf leafType, _, e, _ => completeSingleLeaf leafType e
  | .nonNull inner, fieldLabel, e, seeds =>
    (completeValue inner fieldLabel e seeds).map (enforceNonNull fieldLabel e)
  | .list item, fieldLabel, e, seeds =>
    match listItems fieldLabel e with
    | none                  => none
    | some (.invalid error) => some (.bubble error)
    | some .null            => some (.value .null)
    | some (.items items)   =>
      (items.mapM fun e => completeValue item fieldLabel e seeds).map fun completed =>
        (collectItems item.isNonNull completed [] []).fst
  | .object objectType child, _, e, seeds =>
    if isPresent e.value then
      match checkTypeOf objectType e with
      | .error _  => none
      | .ok false => some (rejectChild objectType e)
      | .ok true  => completeObject child e seeds
    else
      some (objectResult e)
  | .abstract abstractType plans, _, e, seeds =>
    match groupType abstractType e with
    | none            => some (abstractResult abstractType e)
    | some objectType => completeObject (plans objectType) e seeds

def completeObject : ObjectPlan T L S → Entry V → (I → Option V) → Option (Completed V)
  | ⟨fields, layer⟩, e, seeds =>
    if (runs.hoistedOutIds layer).all (seeds · |>.isSome) then
      (completeSlots fields e (runs.columns layer)
        (runs.value layer (layerSeeds (runs.hoistedOutIds layer) seeds) e.value e.path)
        (.live [])).map (·.assemble)
    else
      none

def completeSlots : List (FieldPlan T L S) → Entry V → (I → Bool) → (I → V) → Slot V →
    Option (Slot V)
  | [],      _, _,       _,     slot => some slot
  | f :: fs, e, columns, value, slot =>
    (completeSlot f e columns value slot).bind (completeSlots fs e columns value)

def completeSlot : FieldPlan T L S → Entry V → (I → Bool) → (I → V) → Slot V → Option (Slot V)
  | ⟨responseName, fieldLabel, step, completer, _⟩, e, columns, value, slot =>
    if slot.isLive then
      if columns (runs.stepId step) && (runs.childHoistedOutIds completer).all columns then
        let path := e.path ++ [.name responseName]
        (completeValue completer fieldLabel ⟨value (runs.stepId step), path, path⟩
          (layerSeeds (runs.childHoistedOutIds completer) (some <| value ·))).map
          (writeValue responseName completer.isNonNull slot)
      else
        none
    else
      some slot

end

mutual

-- The errors that the completion of a column catches for one of its values. All items of a list are
-- completed.
def reportedErrors : Completer T L S → String → Entry V → (I → Option V) → List (LocatedError V)
  | .leaf _, _, _, _ => []
  | .nonNull inner, fieldLabel, e, seeds => reportedErrors inner fieldLabel e seeds
  | .list item, fieldLabel, e, seeds =>
    (iteratedEntries e).flatMap fun i => Part.reported
      ⟨item.isNonNull, reference runs item fieldLabel i seeds, reportedErrors item fieldLabel i seeds⟩
  | .object objectType child, _, e, seeds =>
    if isObjectOf objectType e then reportedObjectErrors child e seeds else []
  | .abstract abstractType plans, _, e, seeds =>
    match groupType abstractType e with
    | some objectType => reportedObjectErrors (plans objectType) e seeds
    | none            => []

def reportedObjectErrors : ObjectPlan T L S → Entry V → (I → Option V) → List (LocatedError V)
  | ⟨fields, layer⟩, e, seeds =>
    let value := runs.value layer (layerSeeds (runs.hoistedOutIds layer) seeds) e.value e.path
    partErrors (reportedParts fields e value)

def reportedParts : List (FieldPlan T L S) → Entry V → (I → V) → List (Part V)
  | [],      _, _     => []
  | f :: fs, e, value => reportedPart f e value :: reportedParts fs e value

def reportedPart : FieldPlan T L S → Entry V → (I → V) → Part V
  | ⟨responseName, fieldLabel, step, completer, _⟩, e, value =>
    let path := e.path ++ [.name responseName]
    let seeds := layerSeeds (runs.childHoistedOutIds completer) (some <| value ·)
    let entry := ⟨value (runs.stepId step), path, path⟩
    ⟨completer.isNonNull, reference runs completer fieldLabel entry seeds,
      reportedErrors completer fieldLabel entry seeds⟩

end

end Grafast
