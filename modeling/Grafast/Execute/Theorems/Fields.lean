import Grafast.Execute.Theorems.Objects

namespace Grafast

open Batch

-- A parent of a bucket, with the values of its columns and its output so far.
structure Parent (I V : Type) where
  entry : Entry V
  value : I → V
  slot  : Slot V

variable {T L S I V α : Type}

-- The columns of a bucket.
def Parent.store (columns : I → Bool) (ps : List (Parent I V)) : BucketStore I V :=
  fun id => if columns id then some (ps.map (·.value id)) else none

section Gather

variable {ps : List (Parent I V)} {c : I → Bool}

theorem gather_store (ps : List (Parent I V)) (c : I → Bool) (id : I) :
    (Parent.store c ps id).bind (gather · (livePlaces (ps.map (·.slot)))) =
      if c id then some ((ps.filter (·.slot.isLive)).map (·.value id)) else none := by
  have hl : livePlaces (ps.map (·.slot)) = placesFrom (·.slot.isLive) 0 ps := placesFrom_map
  unfold Parent.store
  cases c id
  case false => rfl
  case true  =>
    rw [hl]
    exact gather_places

def Parent.seeded (p : Parent I V) : Seeded I V :=
  ⟨p.entry, p.value⟩

def Parent.field (responseName : String) (id : I) (p : Parent I V) : Seeded I V :=
  p.seeded.field responseName id

def bridgeKeys (ids : List I) : Option (List I) :=
  if ids.isEmpty then none else some ids

theorem bridgeKeys_getD {ids : List I} : (bridgeKeys ids).getD [] = ids := by
  cases ids <;> rfl

theorem hoistBridgeForField_eq {ids : List I} (responseName : String) (id : I) :
    hoistBridgeForField ids (Parent.store c ps) (livePlaces (ps.map (·.slot))) =
      if ids.all c then
        some (bridgeOf (bridgeKeys ids)
          ((ps.filter (·.slot.isLive)).map (Parent.field responseName id)))
      else
        none := by
  unfold hoistBridgeForField
  cases hi : ids.isEmpty
  case true  => rw [List.isEmpty_iff.mp hi]; rfl
  case false =>
    have hc (id : I) : (Parent.store c ps id).bind (fun column =>
        (gather column (livePlaces (ps.map (·.slot)))).bind fun column => some (id, column)) =
          if c id then some (id, (ps.filter (·.slot.isLive)).map (·.value id)) else none := by
      rw [← Option.bind_assoc, gather_store]
      cases c id <;> rfl
    simp only [Bool.false_eq_true, if_false]
    show Option.map some (ids.mapM fun id => (Parent.store c ps id).bind fun column =>
      (gather column (livePlaces (ps.map (·.slot)))).bind fun column => some (id, column)) = _
    simp only [hc, mapM_ite]
    cases ids.all c
    case false => rfl
    case true  => simp [bridgeOf, bridgeKeys, hi, Function.comp_def, Parent.field, Parent.seeded, Seeded.field]

theorem fieldEntries_eq {responseName : String} {id : I} :
    fieldEntries responseName (ps.map (·.value id)) (ps.map (·.entry)) =
      (ps.map (Parent.field responseName id)).map (·.entry) := by
  simp [fieldEntries, List.zipWith_map, Parent.field, Parent.seeded, Seeded.field]

theorem gather_parents : gather (ps.map (·.entry)) (livePlaces (ps.map (·.slot))) =
    some ((ps.filter (·.slot.isLive)).map (·.entry)) := by
  have hl : livePlaces (ps.map (·.slot)) = placesFrom (·.slot.isLive) 0 ps := placesFrom_map
  rw [hl]
  exact gather_places

end Gather

variable [DecidableEq I] {runs : LayerRuns L S I V} [Host V T]

theorem caughtErrors_eq {isNonNull : Bool} {f : α → Completed V} {l : List α} :
    caughtErrors isNonNull (l.map f) =
      l.flatMap fun a => if isNonNull then [] else (f a).bubble?.toList := by
  induction l
  case nil         => rfl
  case cons a l hi =>
    rw [caughtErrors] at hi ⊢
    rw [List.map_cons, List.filterMap_cons, hi, List.flatMap_cons]
    cases f a <;> cases isNonNull <;> simp [Completed.bubble?]

variable [DecidableEq T] {f : FieldPlan T L S} {ps : List (Parent I V)} {columns : I → Bool}
variable {runLayer : RunLayer L I V}

-- The parents that take part in the bucket of a field.
def Parent.living (ps : List (Parent I V)) : List (Seeded I V) :=
  (ps.filter (·.slot.isLive)).map Parent.seeded

omit [DecidableEq T] in
theorem completeSlot_dead {p : Parent I V} (h : p.slot.isLive = false) :
    completeSlot runs f p.entry columns p.value p.slot = some p.slot := by
  obtain ⟨_, _, _, _, _⟩ := f
  simp [completeSlot, h]

omit [DecidableEq T] in
theorem completeSlot_live {p : Parent I V} (h : p.slot.isLive) :
    completeSlot runs f p.entry columns p.value p.slot =
      if columns (runs.stepId f.step) && (runs.childHoistedOutIds f.completer).all columns then
        let x := p.field f.responseName (runs.stepId f.step)
        (completeValue runs f.completer f.fieldLabel x.entry
          (layerSeeds (runs.childHoistedOutIds f.completer) (some <| x.seed ·))).map
            (writeValue f.responseName f.completer.isNonNull p.slot)
      else
        none := by
  obtain ⟨_, _, _, _, _⟩ := f
  rw [completeSlot, if_pos h]
  rfl

-- The values of a field are completed for the live parents.
theorem completeLive_yields {name label : String} {id : I} {completer : Completer T L S}
    (h : Pointwise runs runLayer completer)
    (hb : Buckets runs (runs.RunsApart runLayer) completer ((ps.filter (·.slot.isLive)).map (Parent.field name id))) :
    Guarded (Buckets runs (runs.Completes runLayer) completer
        ((ps.filter (·.slot.isLive)).map (Parent.field name id))) (do
        let completed ← completeValues runs.toLayers runLayer completer label
          (((ps.filter (·.slot.isLive)).map (Parent.field name id)).map (·.entry))
          (bridgeOf (bridgeKeys (runs.childHoistedOutIds completer))
            ((ps.filter (·.slot.isLive)).map (Parent.field name id)))
        addErrors (caughtErrors completer.isNonNull completed)
        return scatter (writeValue name completer.isNonNull) (placesFrom (·.slot.isLive) 0 ps)
          completed (ps.map (·.slot)))
      (ps.mapM fun p => if p.slot.isLive then
        (completeValue runs completer label (p.field name id).entry
          (layerSeeds (runs.childHoistedOutIds completer) (some <| (p.field name id).seed ·))).map
            (writeValue name completer.isNonNull p.slot)
        else some p.slot)
      (ps.flatMap fun p => if p.slot.isLive then
        Part.reported ⟨completer.isNonNull,
          reference runs completer label (p.field name id).entry
            (layerSeeds (runs.childHoistedOutIds completer) (some <| (p.field name id).seed ·)),
          reportedErrors runs completer label (p.field name id).entry
            (layerSeeds (runs.childHoistedOutIds completer) (some <| (p.field name id).seed ·))⟩
        else []) := by
  have hx := h label (bridgeKeys (runs.childHoistedOutIds completer))
    ((ps.filter (·.slot.isLive)).map (Parent.field name id)) hb
  simp only [Seeded.seeds, bridgeKeys_getD] at hx
  refine (hx.bind_yields
    (s := fun completed => some (scatter (writeValue name completer.isNonNull)
      (placesFrom (·.slot.isLive) 0 ps) completed (ps.map (·.slot))))
    (z := ((ps.filter (·.slot.isLive)).map (Parent.field name id)).flatMap fun x =>
      if completer.isNonNull then [] else (reference runs completer label x.entry
        (layerSeeds (runs.childHoistedOutIds completer) (some <| x.seed ·))).bubble?.toList)
    fun completed _ hc => ?_).congr Iff.rfl (fun _ => ?_) fun _ _ => ?_
  · have hr := completed_eq_reference (k := some (runs.childHoistedOutIds completer)) hc
    rw [hr, ← caughtErrors_eq]
    exact Yields.addErrors.map
  · rw [mapM_scatter, List.mapM_map, Option.map_eq_bind]
    rfl
  · refine (List.flatMap_append_perm ..).trans (.of_eq ?_)
    rw [List.flatMap_map, flatMap_filter]
    rfl

theorem completeField_yields (ps : List (Parent I V)) (columns : I → Bool) (hs : runs.streaming = false)
    (h : Pointwise runs runLayer f.completer)
    (hb : FieldBuckets runs (runs.RunsApart runLayer) f (Parent.living ps)) :
    Guarded (FieldBuckets runs (runs.Completes runLayer) f (Parent.living ps))
      (completeField runs.toLayers runLayer f (ps.map (·.entry)) (Parent.store columns ps) (ps.map (·.slot)))
      (ps.mapM fun p => completeSlot runs f p.entry columns p.value p.slot)
      (ps.flatMap fun p =>
        if p.slot.isLive then (reportedPart runs f p.entry p.value).reported else []) := by
  have hl : livePlaces (ps.map (·.slot)) = placesFrom (·.slot.isLive) 0 ps := placesFrom_map
  by_cases hp : ps.filter (·.slot.isLive) = []
  case pos =>
    have hd (p) (hm : p ∈ ps) : p.slot.isLive = false :=
      Bool.eq_false_iff.mpr (List.filter_eq_nil_iff.mp hp p hm)
    have hn : (livePlaces (ps.map (·.slot))).isEmpty := by
      rw [hl, List.isEmpty_iff, placesFrom_eq_nil_iff, hp]
    obtain ⟨name, label, step, completer, stream⟩ := f
    rw [completeField, mapM_congr (g := fun p => some p.slot) fun p hm => completeSlot_dead (hd p hm),
      mapM_some]
    simp only [hn, if_true]
    refine Yields.pure.guarded.congr (iff_true_intro ?_) (fun _ => rfl) fun _ _ => .of_eq ?_
    · rw [Parent.living, hp]
      exact buckets_nil completer
    · exact (List.flatMap_eq_nil_iff.mpr fun p hm => by simp [hd p hm]).symm
  case neg =>
    have hn : (livePlaces (ps.map (·.slot))).isEmpty = false := by
      rw [hl]
      exact List.isEmpty_eq_false_iff.mpr fun hn => hp (placesFrom_eq_nil_iff.mp hn)
    have hm : (ps.mapM fun p => completeSlot runs f p.entry columns p.value p.slot) =
        ps.mapM fun p => if p.slot.isLive then
          if columns (runs.stepId f.step) && (runs.childHoistedOutIds f.completer).all columns then
            let x := p.field f.responseName (runs.stepId f.step)
            (completeValue runs f.completer f.fieldLabel x.entry
              (layerSeeds (runs.childHoistedOutIds f.completer) (some <| x.seed ·))).map
                (writeValue f.responseName f.completer.isNonNull p.slot)
          else
            none
        else some p.slot := by
      refine mapM_congr fun p _ => ?_
      cases hd : p.slot.isLive
      case false => rw [completeSlot_dead hd]; rfl
      case true  => rw [completeSlot_live hd]; rfl
    have hnone (hc : (columns (runs.stepId f.step) &&
        (runs.childHoistedOutIds f.completer).all columns) = false) :
        (ps.mapM fun p => completeSlot runs f p.entry columns p.value p.slot) = none := by
      obtain ⟨p, hq⟩ := List.exists_mem_of_ne_nil _ hp
      rw [List.mem_filter] at hq
      rw [hm]
      exact mapM_eq_none_iff.mpr ⟨p, hq.left, by simp only [hq.right, hc, if_true]; rfl⟩
    obtain ⟨name, label, step, completer, stream⟩ := f
    dsimp only at hm hnone h
    have hg := gather_store ps columns (runs.stepId step)
    rw [completeField]
    simp only [hn, Bool.false_eq_true, if_false, hs]
    cases hc : columns (runs.stepId step)
    case false =>
      rw [hnone (by rw [hc, Bool.false_and]), Parent.store, hc]
      exact .fail fun _ => rfl
    case true =>
      have hst : Parent.store columns ps (runs.stepId step) =
        some (ps.map (·.value (runs.stepId step))) := if_pos hc
      rw [hc, hst, Option.bind_some] at hg
      rw [hst]
      refine .lift_bind ?_
      simp only [hg, if_true]
      refine .lift_bind ?_
      rw [gather_parents]
      refine .lift_bind ?_
      rw [hoistBridgeForField_eq name (runs.stepId step), fieldEntries_eq]
      cases ha : (runs.childHoistedOutIds completer).all columns
      case false =>
        rw [hnone (by rw [hc, ha]; rfl)]
        exact .fail fun _ => rfl
      case true =>
        simp only [hc, ha, Bool.and_true, if_true] at hm ⊢
        refine .lift_bind ?_
        rw [hm, hl]
        rw [FieldBuckets, Parent.living, List.map_map] at hb ⊢
        exact completeLive_yields h hb

-- A parent after a field has been written.
def Parent.after (x : Parent I V × Slot V) : Parent I V :=
  { x.fst with slot := x.snd }

-- What a parent reports for some of its fields.
def Parent.reported (runs : LayerRuns L S I V) (fs : List (FieldPlan T L S)) (p : Parent I V) :
    List (LocatedError V) :=
  if p.slot.isLive then partErrors (reportedParts runs fs p.entry p.value) else []

omit [DecidableEq T] in
theorem reportedPart_bubble? {e : Entry V} {value : I → V} :
    (reportedPart runs f e value).bubble? = (referenceField runs f e value).bubble? := by
  obtain ⟨_, _, _, _, _⟩ := f
  rfl

omit [DecidableEq T] in
theorem completeSlot_eq_write {p : Parent I V} {slot : Slot V}
    (h : completeSlot runs f p.entry columns p.value p.slot = some slot) :
    slot = p.slot.write (referenceField runs f p.entry p.value) := by
  obtain ⟨e, value, slot'⟩ := p
  cases slot'
  case live output => exact (completeSlot_iff ..).mp h |>.right.symm
  case dead error  =>
    rw [completeSlot_dead (p := ⟨e, value, .dead error⟩) rfl] at h
    exact (Option.some.inj h).symm

omit [DecidableEq T] in
theorem Parent.reported_cons {fs : List (FieldPlan T L S)} {p : Parent I V} {slot : Slot V}
    (h : completeSlot runs f p.entry columns p.value p.slot = some slot) :
    p.reported runs (f :: fs) =
      (if p.slot.isLive then (reportedPart runs f p.entry p.value).reported else []) ++
        (Parent.after (p, slot)).reported runs fs := by
  obtain rfl := completeSlot_eq_write h
  obtain ⟨e, value, slot⟩ := p
  cases slot
  case dead error  => rfl
  case live output =>
    simp only [reported, after, Slot.write_live, Slot.isLive, if_true, reportedParts, partErrors,
      reportedPart_bubble?]
    cases (referenceField runs f e value).bubble? <;> rfl

omit [DecidableEq T] in
theorem Parent.after_isLive {p : Parent I V} {slot : Slot V}
    (h : completeSlot runs f p.entry columns p.value p.slot = some slot) :
    (Parent.after (p, slot)).slot.isLive =
      (p.slot.isLive && (referenceField runs f p.entry p.value).bubble?.isNone) := by
  obtain rfl := completeSlot_eq_write h
  obtain ⟨e, value, slot⟩ := p
  cases slot
  case dead error  => rfl
  case live output =>
    rw [after, Slot.write_live]
    cases (referenceField runs f e value).bubble? <;> rfl

omit [DecidableEq T] in
-- The parents of the fields that follow are those that the field has not nulled.
theorem Parent.living_after {slots : List (Slot V)}
    (hm : (ps.mapM fun p => completeSlot runs f p.entry columns p.value p.slot) = some slots) :
    Parent.living ((ps.zip slots).map Parent.after) =
      (Parent.living ps).filter fun p => (referenceField runs f p.entry p.seed).bubble?.isNone := by
  have hx : (ps.zip slots).map (·.fst) = ps := List.map_fst_zip (mapM_length hm).ge
  have hf := mapM_map_fst hm
  rw [living, living]
  conv => rhs; rw [← hx]
  rw [List.filter_map, List.filter_map, List.filter_map, List.filter_map, List.filter_filter, List.map_map, List.map_map]
  refine congrArg (List.map _) (List.filter_congr fun x hx => ?_)
  exact (Parent.after_isLive (hf x hx)).trans (Bool.and_comm ..)

theorem walkOutput_yields {fs : List (FieldPlan T L S)} (columns : I → Bool)
    (ps : List (Parent I V)) (hs : runs.streaming = false)
    (h : ∀ f ∈ fs, Pointwise runs runLayer f.completer)
    (hb : FieldsBuckets runs (runs.RunsApart runLayer) fs (Parent.living ps)) :
    Guarded (FieldsBuckets runs (runs.Completes runLayer) fs (Parent.living ps))
      (walkOutput runs.toLayers runLayer fs (ps.map (·.entry)) (Parent.store columns ps) (ps.map (·.slot)))
      (ps.mapM fun p => completeSlots runs fs p.entry columns p.value p.slot)
      (ps.flatMap (·.reported runs fs)) := by
  induction fs generalizing ps
  case nil =>
    simp only [walkOutput, completeSlots, mapM_some]
    refine Yields.pure.guarded.congr (iff_true_intro trivial) (fun _ => rfl) fun _ _ => .of_eq ?_
    exact (List.flatMap_eq_nil_iff.mpr fun p _ => by
      unfold Parent.reported
      cases p.slot.isLive <;> rfl).symm
  case cons f fs hi =>
    have hf := completeField_yields ps columns hs (h f (.head _)) hb.left
    simp only [walkOutput, completeSlots, mapM_bind]
    cases hm : ps.mapM fun p => completeSlot runs f p.entry columns p.value p.slot
    case none =>
      rw [hm] at hf
      exact hf.fail_bind
    case some slots =>
      have hx : (ps.zip slots).map (·.fst) = ps := List.map_fst_zip (mapM_length hm).ge
      have hs : (ps.zip slots).map (·.snd) = slots := List.map_snd_zip (mapM_length hm).le
      have hliving := Parent.living_after hm
      have hw := hi ((ps.zip slots).map Parent.after) (fun f hf => h f (.tail _ hf)) (hliving ▸ hb.right)
      have he : ((ps.zip slots).map Parent.after).map (·.entry) = ps.map (·.entry) := by
        conv => rhs; rw [← hx, List.map_map]
        rw [List.map_map]
        rfl
      have hv (id : I) : ((ps.zip slots).map Parent.after).map (·.value id) = ps.map (·.value id) := by
        conv => rhs; rw [← hx, List.map_map]
        rw [List.map_map]
        rfl
      have hsl : ((ps.zip slots).map Parent.after).map (·.slot) = slots := by
        conv => rhs; rw [← hs]
        rw [List.map_map]
        rfl
      have hst : Parent.store columns ((ps.zip slots).map Parent.after) = Parent.store columns ps := by
        funext id
        rw [Parent.store, hv, Parent.store]
      rw [he, hst, hsl, hliving, List.mapM_map, List.flatMap_map] at hw
      rw [hm] at hf
      refine (hf.bind
        (s := fun slots => (ps.zip slots).mapM fun x =>
          completeSlots runs fs x.fst.entry columns x.fst.value x.snd)
        (z := (ps.zip slots).flatMap fun x => (Parent.after x).reported runs fs)
        fun slots' _ h => ?_).congr Iff.rfl (fun _ => rfl) fun _ _ => ?_
      · obtain rfl := Option.some.inj h
        exact hw
      · have hr : ps.flatMap (·.reported runs (f :: fs)) = (ps.zip slots).flatMap fun x =>
            (if x.fst.slot.isLive then (reportedPart runs f x.fst.entry x.fst.value).reported else []) ++
              (Parent.after x).reported runs fs := by
          conv => lhs; rw [← hx, List.flatMap_map]
          exact List.flatMap_congr fun x hx => Parent.reported_cons (mapM_map_fst hm x hx)
        have hp : (ps.flatMap fun p =>
            if p.slot.isLive then (reportedPart runs f p.entry p.value).reported else []) =
              (ps.zip slots).flatMap fun x =>
                if x.fst.slot.isLive then (reportedPart runs f x.fst.entry x.fst.value).reported else [] := by
          conv => lhs; rw [← hx, List.flatMap_map]
        rw [hr, hp]
        exact List.flatMap_append_perm ..

-- A parent of a bucket that has not been written to.
def Seeded.parent (runs : LayerRuns L S I V) (layer : L) (x : Seeded I V) : Parent I V :=
  ⟨x.entry, (runs.parent layer x).seed, .live []⟩

theorem pointwise_eq {layer : L} {xs : List (Seeded I V)} :
    runs.pointwise layer (xs.map (·.entry)) (storeOf (runs.hoistedOutIds layer) xs) =
      some (Parent.store (runs.columns layer) (xs.map (·.parent runs layer))) := by
  refine congrArg some (funext fun id => ?_)
  unfold Parent.store
  cases runs.columns layer id
  case false => rfl
  case true  =>
    refine congrArg some (List.ext_getElem (by simp) fun k hk _ => ?_)
    have hk : k < xs.length := by simpa using hk
    simp [seedsAt_storeOf hk, Seeded.parent, LayerRuns.parent]

theorem executeObjectPlan_yields {fs : List (FieldPlan T L S)} {layer : L}
    (hs : runs.streaming = false) (h : ∀ f ∈ fs, Pointwise runs runLayer f.completer) :
    PointwiseObject runs runLayer ⟨fs, layer⟩ := by
  intro xs hne hb
  obtain ⟨hr, hb⟩ := hb hne
  have hliving : Parent.living (xs.map (·.parent runs layer)) = xs.map (runs.parent layer) := by
    rw [Parent.living, List.filter_eq_self.mpr fun p hp => ?_, List.map_map]
    · rfl
    · obtain ⟨x, _, rfl⟩ := List.mem_map.mp hp
      rfl
  have hw := walkOutput_yields (runs.columns layer) (xs.map (·.parent runs layer)) hs h (hliving ▸ hb)
  have he : (xs.map (·.parent runs layer)).map (·.entry) = xs.map (·.entry) := by
    rw [List.map_map]
    rfl
  have hl : (xs.map (·.parent runs layer)).map (·.slot) = (xs.map (·.entry)).map fun _ => .live [] := by
    rw [List.map_map, List.map_map]
    rfl
  rw [he, hl, hliving] at hw
  rw [executeObjectPlan]
  cases hrun : runLayer layer (xs.map (·.entry)) (storeOf (runs.hoistedOutIds layer) xs)
  case none       =>
    refine ⟨fun hc => ?_, fun _ _ => rfl⟩
    have hsome := (hc hne).left
    rw [LayerRuns.Completes, hrun] at hsome
    cases hsome
  case some store =>
    obtain rfl := Option.some.inj ((hr store hrun).symm.trans pointwise_eq)
    refine .lift_bind (hw.map.congr ?_ (fun _ => ?_) fun _ _ => .of_eq ?_)
    · rw [ObjectBuckets, imp_iff_right hne, LayerRuns.Completes, hrun]
      exact and_iff_right rfl
    · rw [List.mapM_map, ← mapM_map_const]
      refine mapM_congr fun x _ => ?_
      simp only [completeObject, Option.isSome_some]
      rw [if_pos (by simp)]
      rfl
    · rw [List.flatMap_map]
      rfl

mutual

-- Completion by columns completes every value on its own, whatever else is in its bucket.
theorem completeValues_pointwise (hs : runs.streaming = false) :
    (c : Completer T L S) → Pointwise runs runLayer c
  | .leaf _             => .leaf
  | .nonNull inner      => .nonNull (completeValues_pointwise hs inner)
  | .list item          => .list (completeValues_pointwise hs item)
  | .object _ child     => .object (executeObjectPlan_pointwise hs child)
  | .abstract _ plans   => .abstract fun type => executeObjectPlan_pointwise hs (plans type)

theorem executeObjectPlan_pointwise (hs : runs.streaming = false) :
    (op : ObjectPlan T L S) → PointwiseObject runs runLayer op
  | ⟨fields, _⟩ => executeObjectPlan_yields hs (fields_pointwise hs fields)

theorem fields_pointwise (hs : runs.streaming = false) : (fs : List (FieldPlan T L S)) →
    ∀ f ∈ fs, Pointwise runs runLayer f.completer
  | [],      _, h => nomatch h
  | f :: fs, g, h => by
    cases h
    case head     => exact field_pointwise hs f
    case tail _ h => exact fields_pointwise hs fs g h

theorem field_pointwise (hs : runs.streaming = false) :
    (f : FieldPlan T L S) → Pointwise runs runLayer f.completer
  | ⟨_, _, _, completer, _⟩ => completeValues_pointwise hs completer

end

end Grafast
