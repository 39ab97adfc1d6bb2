import Grafast.Execute.Reference

namespace Grafast

-- A result with the errors that are caught on the way to it.
structure Reported (V α : Type) where
  value  : α
  errors : List (LocatedError V)

variable {T L S I V α β : Type}

def Reported.of (value : α) : Reported V α :=
  ⟨value, []⟩

def Reported.map (f : α → β) (r : Reported V α) : Reported V β :=
  ⟨f r.value, r.errors⟩

-- The results of a list of computations, of which none may fail.
def Reported.all (f : α → Option (Reported V β)) (l : List α) : Option (Reported V (List β)) :=
  (l.mapM f).map fun rs => ⟨rs.map (·.value), rs.flatMap (·.errors)⟩

-- What a list makes of its completed items.
def Reported.collect (itemIsNonNull : Bool) (items : Reported V (List (Completed V))) :
    Reported V (Completed V) :=
  let (list, errors) := collectItems itemIsNonNull items.value [] []
  ⟨list, items.errors ++ errors⟩

-- Writes the completed value of a field, which catches a violation if it may be null.
def Reported.write (responseName : String) (isNonNull : Bool) (slot : Slot V)
    (r : Reported V (Completed V)) : Reported V (Slot V) :=
  ⟨writeValue responseName isNonNull slot r.value, r.errors ++ caughtErrors isNonNull [r.value]⟩

def Reported.value? (r : Option (Reported V α)) : Option α :=
  r.map (·.value)

def Reported.caught (r : Option (Reported V α)) : List (LocatedError V) :=
  r.elim [] (·.errors)

-- The same result, and the same errors in some order.
def Reported.Agree (r s : Option (Reported V α)) : Prop :=
  value? r = value? s ∧ (caught r).Perm (caught s)

variable [DecidableEq I] (runs : LayerRuns L S I V) [Host V T]

open Host

mutual

-- The completion of one value on its own, with the heads of the streams below it.
def completeItem : Completer T L S → String → Entry V → (I → Option V) →
    Option (Reported V (Completed V))
  | .leaf leafType, _, e, _ => (completeSingleLeaf leafType e).map .of
  | .nonNull inner, fieldLabel, e, seeds =>
    (completeItem inner fieldLabel e seeds).map (·.map (enforceNonNull fieldLabel e))
  | .list item, fieldLabel, e, seeds =>
    match listItems fieldLabel e with
    | none                  => none
    | some (.invalid error) => some (.of (.bubble error))
    | some .null            => some (.of (.value .null))
    | some (.items items)   =>
      (Reported.all (completeItem item fieldLabel · seeds) items).map (·.collect item.isNonNull)
  | .object objectType child, _, e, seeds =>
    if isPresent e.value then
      match checkTypeOf objectType e with
      | .error _  => none
      | .ok false => some (.of (rejectChild objectType e))
      | .ok true  => completeParent child e seeds
    else
      some (.of (objectResult e))
  | .abstract abstractType plans, _, e, seeds =>
    match groupType abstractType e with
    | none            => some (.of (abstractResult abstractType e))
    | some objectType => completeParent (plans objectType) e seeds

def completeParent : ObjectPlan T L S → Entry V → (I → Option V) → Option (Reported V (Completed V))
  | ⟨fields, layer⟩, e, seeds =>
    if (runs.hoistedOutIds layer).all (seeds · |>.isSome) then
      (writeFields fields e (runs.columns layer)
        (runs.value layer (layerSeeds (runs.hoistedOutIds layer) seeds) e.value e.path)
        (.live [])).map (·.map (·.assemble))
    else
      none

def writeFields : List (FieldPlan T L S) → Entry V → (I → Bool) → (I → V) → Slot V →
    Option (Reported V (Slot V))
  | [],      _, _,       _,     slot => some (.of slot)
  | f :: fs, e, columns, value, slot => do
    let written ← writeField f e columns value slot
    let rest ← writeFields fs e columns value written.value
    return ⟨rest.value, written.errors ++ rest.errors⟩

def writeField : FieldPlan T L S → Entry V → (I → Bool) → (I → V) → Slot V →
    Option (Reported V (Slot V))
  | ⟨responseName, fieldLabel, step, completer, stream⟩, e, columns, value, slot =>
    if slot.isLive then
      if columns (runs.stepId step) && (runs.childHoistedOutIds completer).all columns then
        let path := e.path ++ [.name responseName]
        let field : Entry V := ⟨value (runs.stepId step), path, path⟩
        let seeds := layerSeeds (runs.childHoistedOutIds completer) (some <| value ·)
        let completed : Option (Reported V (Completed V)) := match stream, runs.streaming with
          | some (.error message), true           => some (.of (.bubbleAt (.graphQLError message) path))
          | some (.args initialCount _), true     =>
            if initialCount < 0 then
              some (.of (.bubbleAt initialCountError path))
            else
              completeHead completer initialCount.toNat fieldLabel field seeds
          | _, _                                  => completeItem completer fieldLabel field seeds
        completed.map (·.write responseName completer.isNonNull slot)
      else
        none
    else
      some (.of slot)

-- The head of a streamed list.
def completeHead : Completer T L S → Nat → String → Entry V → (I → Option V) →
    Option (Reported V (Completed V))
  | .nonNull inner, initialCount, fieldLabel, e, seeds =>
    completeHead inner initialCount fieldLabel e seeds
  | .list item, initialCount, fieldLabel, e, seeds =>
    if isNone e.value then
      some (.of (.value .null))
    else
      match iterate e.value with
      | none              => some (.of (.bubbleAt (notIterableError fieldLabel) e.path))
      | some (.error _)   => none
      | some (.ok values) =>
        (Reported.all (completeItem item fieldLabel · seeds)
          ((itemEntries e values).take initialCount)).map (·.collect item.isNonNull)
  | _, _, _, _, _ => none

end

-- A completed item as its list reports it: without data if it nulls the list.
def Reported.inline (itemIsNonNull : Bool) : Reported V (Completed V) → Reported V (Option (Data V))
  | ⟨.value data, errors⟩   => ⟨some data, errors⟩
  | ⟨.bubble error, errors⟩ => ⟨if itemIsNonNull then none else some .null, errors ++ [error]⟩

-- An item as its stream reports it.
def StreamItem.report? : StreamItem V → Option (Reported V (Option (Data V)))
  | .item data errors _ => some ⟨data, errors⟩
  | .raised             => none

-- Whether a null that bubbles out of a value leaves nothing behind that has been caught below it.
def BubblesAlone (c : Completer T L S) (fieldLabel : String) (e : Entry V) (seeds : I → Option V) : Prop :=
  ∀ error errors, completeItem runs c fieldLabel e seeds = some ⟨.bubble error, errors⟩ → errors = []

end Grafast
