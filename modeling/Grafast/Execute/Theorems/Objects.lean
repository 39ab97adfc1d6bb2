import Grafast.Batch.Trace
import Grafast.Execute.Theorems.Lists

namespace Grafast

open Batch

variable {T L S I V α : Type} [DecidableEq I]

theorem filterMap_zip_accepted {f : α → Bool} {l : List α} :
    (l.zip (l.map f)).filterMap (fun (a, ok) => if ok then some a else none) = l.filter f := by
  induction l
  case nil         => rfl
  case cons a l hi => cases h : f a <;> simp [h, hi]

theorem filterMap_zip_rejected {f : α → Bool} {l : List α} :
    (l.zip (l.map f)).filterMap (fun (a, ok) => if ok then none else some a) = l.filter (!f ·) := by
  induction l
  case nil         => rfl
  case cons a l hi => cases h : f a <;> simp [h, hi]

theorem layerSeeds_isSome {keys : List I} {seed : I → V} {id : I} :
    (layerSeeds keys (some <| seed ·) id).isSome = keys.contains id := by
  unfold layerSeeds
  cases keys.contains id <;> simp

-- The seeds of a layer are those of the bridge if the bridge has them all.
theorem layerSeeds_layerSeeds {ids keys : List I} {seed : I → V}
    (h : ids.all (keys.contains ·)) :
    layerSeeds ids (layerSeeds keys (some <| seed ·)) = layerSeeds ids (some <| seed ·) := by
  funext id
  unfold layerSeeds
  cases hc : ids.contains id
  case false => simp
  case true  =>
    have hk := List.all_eq_true.mp h id (List.contains_iff_mem.mp hc)
    simp [List.contains_iff_mem.mp hk]

section Store

variable {s : α → Seeded I V} {p : α → Bool} {l : List α} {keys : Option (List I)} {ids : List I}

theorem lookup_storeOf {xs : List (Seeded I V)} {id : I} :
    (storeOf ids xs).lookup id = if ids.contains id then some (xs.map (·.seed id)) else none := by
  induction ids
  case nil           => rfl
  case cons k ids hi =>
    by_cases hk : id = k
    case pos => simp [storeOf, hk]
    case neg =>
      have hb : (id == k) = false := beq_false_of_ne hk
      simpa [storeOf, List.lookup_cons, hb, hk] using hi

theorem seedsAt_storeOf {xs : List (Seeded I V)} {k : Nat} (hk : k < xs.length) :
    seedsAt (storeOf ids xs) k = layerSeeds ids (some <| xs[k].seed ·) := by
  funext id
  unfold seedsAt layerSeeds
  rw [lookup_storeOf]
  cases ids.contains id <;> simp [hk]

theorem buildHoistParentStore_eq :
    buildHoistParentStore ids (bridgeOf keys (l.map s)) (placesFrom p 0 l) =
      if ids.all ((keys.getD []).contains ·) then some (storeOf ids ((l.filter p).map s)) else none := by
  unfold buildHoistParentStore
  cases hi : ids.isEmpty
  case true  => rw [List.isEmpty_iff.mp hi]; rfl
  case false =>
    cases keys
    case none =>
      obtain ⟨id, ids, rfl⟩ := List.exists_cons_of_ne_nil (by simpa using hi : ids ≠ [])
      simp [bridgeOf]
    case some keys =>
      have hc (id : I) : ((storeOf keys (l.map s)).lookup id).bind (fun column =>
          (gather column (placesFrom p 0 l)).bind fun column => some (id, column)) =
            if keys.contains id then some (id, ((l.filter p).map s).map (·.seed id)) else none := by
        rw [lookup_storeOf]
        cases keys.contains id
        case false => rfl
        case true  =>
          simp only [if_true, Option.bind_some, List.map_map, Function.comp_def]
          rw [gather_places, Option.bind_some]
      simp only [Bool.false_eq_true, if_false]
      show (ids.mapM fun id => ((storeOf keys (l.map s)).lookup id).bind fun column =>
        (gather column (placesFrom p 0 l)).bind fun column => some (id, column)) = _
      simp only [hc, mapM_ite]
      rfl

end Store

variable {runs : LayerRuns L S I V} [Host V T]

variable {op : ObjectPlan T L S} {keys : Option (List I)}

theorem completeObject_seeds {x : Seeded I V} :
    completeObject runs op x.entry (x.seeds keys) =
      if (runs.hoistedOutIds op.layer).all ((keys.getD []).contains ·) then
        completeObject runs op x.entry (some <| x.seed ·)
      else
        none := by
  obtain ⟨fields, layer⟩ := op
  simp only [completeObject, Seeded.seeds, layerSeeds_isSome, Option.isSome_some]
  cases h : (runs.hoistedOutIds layer).all ((keys.getD []).contains ·)
  case false => rfl
  case true  => simp [layerSeeds_layerSeeds h]

theorem reportedObjectErrors_seeds {x : Seeded I V}
    (h : (runs.hoistedOutIds op.layer).all ((keys.getD []).contains ·)) :
    reportedObjectErrors runs op x.entry (x.seeds keys) =
      reportedObjectErrors runs op x.entry (some <| x.seed ·) := by
  obtain ⟨fields, layer⟩ := op
  simp only [reportedObjectErrors, Seeded.seeds, layerSeeds_layerSeeds h]

variable [DecidableEq T]

variable {runLayer : RunLayer L I V}

-- The execution of an object plan completes each parent of the bucket on its own.
def PointwiseObject (runs : LayerRuns L S I V) (runLayer : RunLayer L I V) (op : ObjectPlan T L S) : Prop :=
  ∀ xs : List (Seeded I V), xs ≠ [] → ObjectBuckets runs (runs.RunsApart runLayer) op xs →
    Guarded (ObjectBuckets runs (runs.Completes runLayer) op xs)
      (executeObjectPlan runs.toLayers runLayer op (xs.map (·.entry)) (storeOf (runs.hoistedOutIds op.layer) xs))
      (xs.mapM fun x => completeObject runs op x.entry (some <| x.seed ·))
      (xs.flatMap fun x => reportedObjectErrors runs op x.entry (some <| x.seed ·))

theorem objectBuckets_nil {P : L → List (Seeded I V) → Prop} : ObjectBuckets runs P op [] := by
  obtain ⟨fields, layer⟩ := op
  exact fun hn => absurd rfl hn

theorem buckets_nil {P : L → List (Seeded I V) → Prop} : (c : Completer T L S) → Buckets runs P c []
  | .leaf _           => trivial
  | .nonNull inner    => buckets_nil inner
  | .list item        => buckets_nil item
  | .object _ _       => objectBuckets_nil
  | .abstract _ _ => fun _ => objectBuckets_nil

-- A child bucket of some values of a column.
theorem PointwiseObject.bucket (h : PointwiseObject runs runLayer op) (keys : Option (List I))
    {s : α → Seeded I V} {p : α → Bool} {g : α → Completed V} {l : List α} (hp : l.filter p ≠ [])
    (hb : ObjectBuckets runs (runs.RunsApart runLayer) op ((l.filter p).map s)) :
    Guarded (ObjectBuckets runs (runs.Completes runLayer) op ((l.filter p).map s)) (do
        let store ← buildHoistParentStore (runs.hoistedOutIds op.layer)
          (bridgeOf keys (l.map s)) (placesFrom p 0 l)
        let children ← executeObjectPlan runs.toLayers runLayer op ((l.filter p).map fun a => (s a).entry) store
        return scatter (fun _ completed => completed) (placesFrom p 0 l) children (l.map g))
      (l.mapM fun a =>
        if p a then completeObject runs op (s a).entry ((s a).seeds keys) else some (g a))
      (l.flatMap fun a =>
        if p a then reportedObjectErrors runs op (s a).entry ((s a).seeds keys) else []) := by
  rw [buildHoistParentStore_eq]
  cases ha : (runs.hoistedOutIds op.layer).all ((keys.getD []).contains ·)
  case false =>
    have hn : (l.mapM fun a => if p a then
        completeObject runs op (s a).entry ((s a).seeds keys) else some (g a)) = none := by
      obtain ⟨a, hm⟩ := List.exists_mem_of_ne_nil _ hp
      rw [List.mem_filter] at hm
      refine mapM_eq_none_iff.mpr ⟨a, hm.left, ?_⟩
      rw [if_pos hm.right, completeObject_seeds, ha]
      rfl
    rw [hn]
    exact .fail fun _ => rfl
  case true =>
    refine .lift_bind ?_
    have hx := h ((l.filter p).map s) (mt List.map_eq_nil_iff.mp hp) hb
    rw [List.map_map, List.mapM_map, List.flatMap_map] at hx
    refine hx.map.congr Iff.rfl (fun _ => ?_) fun _ _ => ?_
    · have hm := mapM_scatter (fun _ completed => completed) (g := g) (p := p) (l := l)
        (f := fun a => completeObject runs op (s a).entry ((s a).seeds keys))
      simp only [Option.map_id_fun', id] at hm
      rw [hm]
      simp only [completeObject_seeds, ha, if_true]
      rfl
    · rw [flatMap_filter]
      simp only [reportedObjectErrors_seeds ha]
      exact .refl _

section Object

variable {objectType : T} {es : List (Entry V)}

-- Whether the guard of an object type raises.
def isGuardRaising (objectType : T) (e : Entry V) : Bool :=
  isPresent e.value && (checkTypeOf objectType e).toOption.isNone

def isRejected (objectType : T) (e : Entry V) : Bool :=
  isPresent e.value && !isObjectOf objectType e

def objectOutcome (objectType : T) (e : Entry V) : Completed V :=
  if isRejected objectType e then rejectChild objectType e else objectResult e

omit [DecidableEq T] in
theorem isObjectOf_of_present {e : Entry V} (hp : isPresent e.value)
    (hg : isGuardRaising objectType e = false) :
    (checkTypeOf objectType e).toOption = some (isObjectOf objectType e) := by
  unfold isGuardRaising at hg
  unfold isObjectOf
  cases h : checkTypeOf objectType e
  case error error => simp [hp, h, Except.toOption] at hg
  case ok ok       => simp [hp, Except.toOption]

omit [DecidableEq T] in
theorem objectBucket_eq :
    objectBucket objectType es =
      if es.any (isGuardRaising objectType) then
        none
      else
        some ⟨es.zipIdx.filter (isObjectOf objectType ·.fst), es.map (objectOutcome objectType)⟩ := by
  unfold objectBucket
  cases hg : es.any (isGuardRaising objectType)
  case true =>
    obtain ⟨e, he, hg⟩ := List.any_eq_true.mp hg
    have hn : (es.zipIdx.filter fun x => isPresent x.fst.value).mapM
        (fun x => (checkTypeOf objectType x.fst).toOption) = none := by
      obtain ⟨k, hk, rfl⟩ := List.mem_iff_getElem.mp he
      simp only [isGuardRaising, Bool.and_eq_true, Option.isNone_iff_eq_none] at hg
      refine mapM_eq_none_iff.mpr ⟨(es[k], k), List.mem_filter.mpr ⟨?_, hg.left⟩, hg.right⟩
      exact List.mem_zipIdx_iff_getElem?.mpr (by simp [hk])
    exact congrArg (Option.bind · _) hn
  case false =>
    have hs : (es.zipIdx.filter fun x => isPresent x.fst.value).mapM
        (fun x => (checkTypeOf objectType x.fst).toOption) =
          some ((es.zipIdx.filter fun x => isPresent x.fst.value).map
            fun x => isObjectOf objectType x.fst) := by
      refine mapM_eq_some_map_iff.mpr fun x hx => ?_
      obtain ⟨hm, hp⟩ := List.mem_filter.mp hx
      refine isObjectOf_of_present hp ?_
      exact Bool.eq_false_iff.mpr (List.any_eq_false.mp hg x.fst (List.fst_mem_of_mem_zipIdx hm))
    refine (congrArg (Option.bind · _) hs).trans ?_
    simp only [Option.bind_some, filterMap_zip_accepted, filterMap_zip_rejected, List.filter_filter]
    have ha (e : Entry V) : (isObjectOf objectType e && isPresent e.value) = isObjectOf objectType e := by
      unfold isObjectOf
      cases isPresent e.value <;> simp
    have hb (e : Entry V) : (!isObjectOf objectType e && isPresent e.value) = isRejected objectType e :=
      Bool.and_comm ..
    have hv : (es.zipIdx.filter (isRejected objectType ·.fst)).map (rejectChild objectType ·.fst) =
        (es.filter (isRejected objectType)).map (rejectChild objectType) := by
      rw [← zipIdx_filter_fst (n := 0) (l := es), List.map_map]
      rfl
    simp only [ha, hb, hv, Bool.false_eq_true, if_false]
    refine congrArg (fun rs => some (ObjectBucket.mk _ rs)) ?_
    exact scatter_places (p := isRejected objectType)

omit [DecidableEq T] in
theorem completeValue_object {runs : LayerRuns L S I V} {child : ObjectPlan T L S} {label : String}
    {e : Entry V} {seeds : I → Option V} (hg : isGuardRaising objectType e = false) :
    completeValue runs (.object objectType child) label e seeds =
      if isObjectOf objectType e then completeObject runs child e seeds
      else some (objectOutcome objectType e) := by
  rw [completeValue]
  unfold isGuardRaising at hg
  unfold objectOutcome isRejected isObjectOf
  cases hp : isPresent e.value
  case false => simp
  case true  =>
    cases hc : checkTypeOf objectType e
    case error error => simp [hp, hc, Except.toOption] at hg
    case ok ok       => cases ok <;> simp

end Object

theorem Pointwise.object {objectType : T} {child : ObjectPlan T L S}
    (h : PointwiseObject runs runLayer child) : Pointwise runs runLayer (.object objectType child) := by
  intro label keys xs hb
  rw [Buckets] at hb
  rw [completeValues, objectBucket_eq, List.any_map, Buckets]
  cases hg : xs.any (isGuardRaising objectType ∘ (·.entry))
  case true =>
    obtain ⟨x, hx, hr⟩ := List.any_eq_true.mp hg
    have hn : (xs.mapM fun x =>
        completeValue runs (.object objectType child) label x.entry (x.seeds keys)) = none := by
      refine mapM_eq_none_iff.mpr ⟨x, hx, ?_⟩
      rw [Function.comp_apply, isGuardRaising, Bool.and_eq_true] at hr
      rw [completeValue, if_pos hr.left]
      cases hc : checkTypeOf objectType x.entry
      case error error => rfl
      case ok ok       => simp [hc, Except.toOption] at hr
    rw [hn]
    exact .fail fun _ => rfl
  case false =>
    have hg (x) (hx : x ∈ xs) : isGuardRaising objectType x.entry = false :=
      Bool.eq_false_iff.mpr (List.any_eq_false.mp hg x hx)
    have hm : (xs.mapM fun x =>
        completeValue runs (.object objectType child) label x.entry (x.seeds keys)) = xs.mapM fun x =>
          if isObjectOf objectType x.entry then completeObject runs child x.entry (x.seeds keys)
          else some (objectOutcome objectType x.entry) :=
      mapM_congr fun x hx => completeValue_object (hg x hx)
    have hk : ((xs.map (·.entry)).zipIdx.filter (isObjectOf objectType ·.fst)).map (·.snd) =
        placesFrom (isObjectOf objectType ·.entry) 0 xs :=
      placesFrom_map
    have hf : ((xs.map (·.entry)).zipIdx.filter (isObjectOf objectType ·.fst)).map (·.fst) =
        (xs.filter (isObjectOf objectType ·.entry)).map (·.entry) := by
      rw [zipIdx_filter_fst, List.filter_map]
      rfl
    rw [hm]
    simp only [reportedErrors]
    refine .lift_bind ?_
    dsimp only
    split
    case isTrue he =>
      rw [List.isEmpty_iff.mp he, List.map_nil, eq_comm, List.map_eq_nil_iff] at hf
      have hx (x) (hx : x ∈ xs) : isObjectOf objectType x.entry = false :=
        Bool.eq_false_iff.mpr (List.filter_eq_nil_iff.mp hf x hx)
      rw [mapM_congr (g := fun x => some (objectOutcome objectType x.entry))
        fun x hm => by simp [hx x hm], mapM_some, List.map_map]
      refine Yields.pure.guarded.congr (iff_true_intro ?_) (fun _ => rfl) fun _ _ => .of_eq ?_
      · rw [List.filter_eq_nil_iff.mpr fun x hm => Bool.eq_false_iff.mp (hx x hm)]
        exact objectBuckets_nil
      · exact (List.flatMap_eq_nil_iff.mpr fun x hm => by simp [hx x hm]).symm
    case isFalse he =>
      have hp : xs.filter (isObjectOf objectType ·.entry) ≠ [] := by
        intro hn
        rw [hn, List.map_nil, List.map_eq_nil_iff] at hf
        exact he (List.isEmpty_iff.mpr hf)
      simp only [hk, hf, List.map_map, Function.comp_def]
      have hm : (xs.filter (isObjectOf objectType ·.entry)).map id = xs.filter (isObjectOf objectType ·.entry) :=
        List.map_id _
      simpa using h.bucket keys (s := id) (g := (objectOutcome objectType ·.entry)) hp (hm.symm ▸ hb)

section Abstract

variable {abstractType : T} {plans : T → ObjectPlan T L S} {keys : Option (List I)}

theorem groupByType_grouped {es : List (Entry V)} :
    Grouped (es.zipIdx.filterMap fun (e, i) =>
      (groupType abstractType e).map fun type => (type, e, i)) (groupByType abstractType es) :=
  grouped _

-- The members of a group are the values of its type.
theorem members_eq {es : List (Entry V)} {g : T × List (Entry V × Nat)}
    (h : g ∈ groupByType abstractType es) :
    g.snd = es.zipIdx.filter (groupType abstractType ·.fst = some g.fst) := by
  rw [groupByType_grouped.members g h]
  generalize es.zipIdx = l
  induction l
  case nil         => rfl
  case cons x l hi =>
    obtain ⟨e, i⟩ := x
    cases ht : groupType abstractType e
    case none      => simpa [ht] using hi
    case some type =>
      by_cases hg : type = g.fst
      case pos => simpa [ht, hg] using hi
      case neg => simpa [ht, hg] using hi

theorem mem_types_iff {es : List (Entry V)} {type : T} :
    type ∈ (groupByType abstractType es).map (·.fst) ↔
      ∃ e ∈ es, groupType abstractType e = some type := by
  rw [groupByType_grouped.key_mem]
  constructor
  case mp =>
    intro h
    obtain ⟨x, hx, rfl⟩ := List.mem_map.mp h
    obtain ⟨⟨e, i⟩, he, hm⟩ := List.mem_filterMap.mp hx
    obtain ⟨type, ht, rfl⟩ := Option.map_eq_some_iff.mp hm
    exact ⟨e, List.fst_mem_of_mem_zipIdx he, ht⟩
  case mpr =>
    intro ⟨e, he, ht⟩
    obtain ⟨i, hi, rfl⟩ := List.mem_iff_getElem.mp he
    refine List.mem_map.mpr ⟨(type, es[i], i), List.mem_filterMap.mpr ⟨(es[i], i), ?_, ?_⟩, rfl⟩
    · exact List.mem_zipIdx_iff_getElem?.mpr (by simp [hi])
    · simp [ht]

-- What is left of a value when the buckets of some types have been completed.
def completeGroups (runs : LayerRuns L S I V) (abstractType : T) (plans : T → ObjectPlan T L S)
    (types : List T) (e : Entry V) (seeds : I → Option V) (before : Completed V) :
    Option (Completed V) :=
  match groupType abstractType e with
  | none      => some before
  | some type => if type ∈ types then completeObject runs (plans type) e seeds else some before

def groupErrors (runs : LayerRuns L S I V) (abstractType : T) (plans : T → ObjectPlan T L S)
    (types : List T) (e : Entry V) (seeds : I → Option V) : List (LocatedError V) :=
  match groupType abstractType e with
  | none      => []
  | some type => if type ∈ types then reportedObjectErrors runs (plans type) e seeds else []

theorem completeGroups_cons {type : T} {types : List T} {e : Entry V} {seeds : I → Option V}
    {before : Completed V} (h : type ∉ types) :
    completeGroups runs abstractType plans (type :: types) e seeds before =
      (if groupType abstractType e = some type then completeObject runs (plans type) e seeds
        else some before).bind (completeGroups runs abstractType plans types e seeds) := by
  unfold completeGroups
  cases ht : groupType abstractType e
  case none   => simp
  case some t =>
    by_cases he : t = type
    case pos => simp [he, h]
    case neg => simp [he]

theorem groupErrors_cons {type : T} {types : List T} {e : Entry V} {seeds : I → Option V}
    (h : type ∉ types) :
    groupErrors runs abstractType plans (type :: types) e seeds =
      (if groupType abstractType e = some type then reportedObjectErrors runs (plans type) e seeds
        else []) ++ groupErrors runs abstractType plans types e seeds := by
  unfold groupErrors
  cases ht : groupType abstractType e
  case none   => simp
  case some t =>
    by_cases he : t = type
    case pos => simp [he, h]
    case neg => simp [he]

-- The buckets of the types run one after another.
theorem groups_yields (abstractType : T) (keys : Option (List I))
    (h : ∀ type, PointwiseObject runs runLayer (plans type)) {xs : List (Seeded I V)}
    (ha : ∀ type, ObjectBuckets runs (runs.RunsApart runLayer) (plans type)
      (xs.filter (groupType abstractType ·.entry = some type)))
    {gs : List (T × List (Entry V × Nat))} {bs : List (Completed V)} (hb : bs.length = xs.length)
    (hm : ∀ g ∈ gs, g.snd = (xs.map (·.entry)).zipIdx.filter
      (groupType abstractType ·.fst = some g.fst))
    (hn : (gs.map (·.fst)).Nodup)
    (he : ∀ g ∈ gs, ∃ x ∈ xs, groupType abstractType x.entry = some g.fst) :
    Guarded (∀ g ∈ gs, ObjectBuckets runs (runs.Completes runLayer) (plans g.fst)
        (xs.filter (groupType abstractType ·.entry = some g.fst)))
      (gs.foldlM (fun results (objectType, members) => do
        let origin := members.map (·.snd)
        let store ← buildHoistParentStore (runs.hoistedOutIds (plans objectType).layer)
          (bridgeOf keys xs) origin
        let children ← executeObjectPlan runs.toLayers runLayer (plans objectType) (members.map (·.fst)) store
        return scatter (fun _ completed => completed) origin children results) bs)
      ((xs.zip bs).mapM fun z => completeGroups runs abstractType plans (gs.map (·.fst))
        z.fst.entry (z.fst.seeds keys) z.snd)
      (xs.flatMap fun x => groupErrors runs abstractType plans (gs.map (·.fst)) x.entry
        (x.seeds keys)) := by
  have hx {bs : List (Completed V)} (hb : bs.length = xs.length) : (xs.zip bs).map (·.fst) = xs :=
    List.map_fst_zip hb.ge
  have hs {bs : List (Completed V)} (hb : bs.length = xs.length) : (xs.zip bs).map (·.snd) = bs :=
    List.map_snd_zip hb.le
  induction gs generalizing bs
  case nil =>
    have hg (x : Seeded I V) : groupErrors runs abstractType plans [] x.entry (x.seeds keys) = [] := by
      unfold groupErrors
      split <;> simp
    have hc (z : Seeded I V × Completed V) : completeGroups runs abstractType plans [] z.fst.entry
        (z.fst.seeds keys) z.snd = some z.snd := by
      unfold completeGroups
      split <;> simp
    simp only [List.map_nil, hg, hc, mapM_some, hs hb]
    exact Yields.pure.guarded.congr (iff_true_intro fun _ hg => absurd hg List.not_mem_nil) (fun _ => rfl)
      fun _ _ => by simp
  case cons g gs hi =>
    obtain ⟨type, members⟩ := g
    obtain ⟨hd, hn⟩ := List.nodup_cons.mp hn
    have hm' : members = (xs.map (·.entry)).zipIdx.filter
      (groupType abstractType ·.fst = some type) := hm _ (.head _)
    have hp : (xs.zip bs).filter (groupType abstractType ·.fst.entry = some type) ≠ [] := by
      obtain ⟨x, hm, ht⟩ := he _ (.head _)
      rw [← hx hb] at hm
      obtain ⟨z, hz, rfl⟩ := List.mem_map.mp hm
      exact List.ne_nil_of_mem (List.mem_filter.mpr ⟨hz, decide_eq_true ht⟩)
    have ho : members.map (·.snd) =
        placesFrom (fun z => decide (groupType abstractType z.fst.entry = some type)) 0 (xs.zip bs) := by
      have hc := placesFrom_map (p := fun x : Seeded I V => decide (groupType abstractType x.entry = some type))
        (f := Prod.fst) (n := 0) (l := xs.zip bs)
      rw [hx hb] at hc
      rw [hm', ← hc]
      exact placesFrom_map (p := fun e : Entry V => decide (groupType abstractType e = some type))
    have hf : members.map (·.fst) = ((xs.zip bs).filter
        fun z => decide (groupType abstractType z.fst.entry = some type)).map (·.fst.entry) := by
      rw [hm', zipIdx_filter_fst (p := fun e => decide (groupType abstractType e = some type)),
        List.filter_map]
      conv => lhs; rw [← hx hb, List.filter_map, List.map_map]
      rfl
    have hfilter : ((xs.zip bs).filter fun z => decide (groupType abstractType z.fst.entry = some type)).map Prod.fst =
        xs.filter (groupType abstractType ·.entry = some type) := by
      conv => rhs; rw [← hx hb, List.filter_map]
      rfl
    have hh := (h type).bucket keys (s := Prod.fst) (g := Prod.snd) hp (hfilter.symm ▸ ha type)
    rw [hx hb, hs hb, ← ho, ← hf, hfilter] at hh
    rw [List.foldlM_cons]
    refine (hh.bind
      (s := fun bs => (xs.zip bs).mapM fun z => completeGroups runs abstractType plans
        (gs.map (·.fst)) z.fst.entry (z.fst.seeds keys) z.snd)
      (z := xs.flatMap fun x => groupErrors runs abstractType plans (gs.map (·.fst)) x.entry
        (x.seeds keys)) fun bs' _ hb' => ?_).congr List.forall_mem_cons (fun _ => ?_) fun _ _ => ?_
    · exact hi (by rw [mapM_length hb', List.length_zip, hb, Nat.min_self])
        (fun g hg => hm g (.tail _ hg)) hn fun g hg => he g (.tail _ hg)
    · simp only [List.map_cons, completeGroups_cons hd, mapM_bind, decide_eq_true_eq]
      refine Option.bind_congr fun bs' hb' => ?_
      have hz : xs.zip bs' = ((xs.zip bs).zip bs').map fun z => (z.fst.fst, z.snd) := by
        conv => lhs; rw [← hx hb, List.zip_map_left]
        rfl
      rw [hz, List.mapM_map]
      rfl
    · have hz := List.flatMap_map (l := xs.zip bs) (f := Prod.fst) (g := fun x =>
        if groupType abstractType x.entry = some type then
          reportedObjectErrors runs (plans type) x.entry (x.seeds keys) else [])
      rw [hx hb] at hz
      simp only [decide_eq_true_eq, List.map_cons, groupErrors_cons hd]
      rw [← hz]
      exact List.flatMap_append_perm ..

theorem Pointwise.abstract (h : ∀ type, PointwiseObject runs runLayer (plans type)) :
    Pointwise runs runLayer (.abstract abstractType plans) := by
  intro label keys xs ha
  rw [Buckets] at ha
  rw [completeValues, Buckets]
  have ht {x} (hx : x ∈ xs) {type} (ht : groupType abstractType x.entry = some type) :
      type ∈ (groupByType abstractType (xs.map (·.entry))).map (·.fst) :=
    mem_types_iff.mpr ⟨_, List.mem_map_of_mem hx, ht⟩
  have hb : ((xs.map (·.entry)).map (abstractResult abstractType)).length = xs.length := by simp
  have hc := groups_yields abstractType keys h ha hb (fun g => members_eq) groupByType_grouped.nodup fun g hg => by
      obtain ⟨e, he, ht⟩ := mem_types_iff.mp (List.mem_map_of_mem (f := Prod.fst) hg)
      obtain ⟨x, hx, rfl⟩ := List.mem_map.mp he
      exact ⟨x, hx, ht⟩
  refine hc.congr ⟨fun hr g _ => hr g.fst, fun hr type => ?_⟩ (fun _ => ?_) fun _ _ => .of_eq ?_
  · by_cases hg : type ∈ (groupByType abstractType (xs.map (·.entry))).map (·.fst)
    case pos =>
      obtain ⟨g, hm, rfl⟩ := List.mem_map.mp hg
      exact hr g hm
    case neg =>
      rw [List.filter_eq_nil_iff.mpr fun x hx he => hg (ht hx (of_decide_eq_true he))]
      exact objectBuckets_nil
  · rw [List.map_map, ← List.map_prod_left_eq_zip, List.mapM_map]
    refine mapM_congr fun x hx => ?_
    rw [Function.comp_apply, completeValue, completeGroups]
    cases hg : groupType abstractType x.entry
    case none      => rfl
    case some type => exact if_pos (ht hx hg)
  · refine List.flatMap_congr fun x hx => ?_
    rw [reportedErrors, groupErrors]
    cases hg : groupType abstractType x.entry
    case none      => rfl
    case some type => exact if_pos (ht hx hg)

end Abstract

end Grafast
