import Grafast.Execute.Itemwise
import Grafast.Execute.Theorems.Fields

namespace Grafast

open Batch

variable {T L S I V α β : Type}

open Reported

section All

variable {f : α → Option (Reported V β)} {l : List α}

theorem Reported.value?_eq_some {r : Option (Reported V α)} {a : α} (h : value? r = some a) :
    r = some ⟨a, caught r⟩ := by
  cases r
  case none   => exact nomatch h
  case some r =>
    obtain rfl := Option.some.inj h
    rfl

theorem Reported.value?_all : value? (all f l) = l.mapM fun a => value? (f a) := by
  unfold value? all
  rw [mapM_map_const, Option.map_map]
  rfl

theorem Reported.caught_all {bs : List β} (h : (l.mapM fun a => value? (f a)) = some bs) :
    caught (all f l) = l.flatMap fun a => caught (f a) := by
  unfold value? at h
  rw [mapM_map_const, Option.map_eq_some_iff] at h
  obtain ⟨rs, hr, _⟩ := h
  have hf := mapM_map_fst hr
  have hl : (l.zip rs).map (·.fst) = l := List.map_fst_zip (mapM_length hr).ge
  have hs : (l.zip rs).map (·.snd) = rs := List.map_snd_zip (mapM_length hr).le
  unfold caught all
  rw [hr]
  show rs.flatMap (·.errors) = _
  conv => lhs; rw [← hs]
  conv => rhs; rw [← hl]
  rw [List.flatMap_map, List.flatMap_map]
  exact List.flatMap_congr fun z hz => by rw [hf z hz]; rfl

end All

variable [DecidableEq I] {runs : LayerRuns L S I V} [Host V T]

section List

variable {item : Completer T L S} {label : String} {keys : Option (List I)}

def Items.reported (itemIsNonNull : Bool) (list : Items V) (items : Reported V (List (Completed V))) :
    Reported V (Completed V) :=
  ⟨list.finish itemIsNonNull items.value, items.errors ++ list.caught itemIsNonNull items.value⟩

theorem completeItem_list {x : Seeded I V} :
    completeItem runs (.list item) label x.entry (x.seeds keys) =
      (listItems label x.entry).bind fun list =>
        (all (fun y => completeItem runs item label y.entry (y.seeds keys))
          (SeededItems.items (x, list))).map (list.reported item.isNonNull) := by
  rw [completeItem]
  cases listItems label x.entry
  case none      => rfl
  case some list =>
    cases list
    case items entries =>
      simp [SeededItems.items, Items.entries, all, List.mapM_map, Function.comp_def]
      rfl
    all_goals rfl

-- The lists of a column are completed in two passes.
theorem mapM_completeItem_list (xs : List (Seeded I V)) :
    (xs.mapM fun x => value? (completeItem runs (.list item) label x.entry (x.seeds keys))) =
      (xs.mapM fun x => listItems label x.entry).bind fun lists =>
        ((xs.zip lists).mapM fun z => (SeededItems.items z).mapM fun x =>
          value? (completeItem runs item label x.entry (x.seeds keys))).map
            (List.zipWith (·.finish item.isNonNull) lists) := by
  have hx (x : Seeded I V) :
      value? (completeItem runs (.list item) label x.entry (x.seeds keys)) =
        (listItems label x.entry).bind fun list =>
          ((SeededItems.items (x, list)).mapM fun y =>
            value? (completeItem runs item label y.entry (y.seeds keys))).map (list.finish item.isNonNull) := by
    rw [completeItem_list, value?, Option.map_bind]
    refine Option.bind_congr fun list _ => ?_
    rw [← value?_all, value?, Function.comp_apply, Option.map_map, Option.map_map]
    rfl
  simp only [hx, mapM_bind]
  cases hl : xs.mapM fun x => listItems label x.entry
  case none       => rfl
  case some lists =>
    have hs : (xs.zip lists).map (·.snd) = lists := List.map_snd_zip (mapM_length hl).le
    simp only [Option.bind_some, mapM_map (g := fun z : SeededItems I V => z.snd.finish item.isNonNull)]
    refine congrArg (Option.map · _) (funext fun bs => ?_)
    conv => rhs; rw [← hs, List.zipWith_map_left]

theorem caught_completeItem_list {z : SeededItems I V} {bs : List (Completed V)}
    (h : listItems label z.fst.entry = some z.snd)
    (hb : (z.items.mapM fun y => value? (completeItem runs item label y.entry (y.seeds keys))) = some bs) :
    caught (completeItem runs (.list item) label z.fst.entry (z.fst.seeds keys)) =
      (z.items.flatMap fun y => caught (completeItem runs item label y.entry (y.seeds keys))) ++
        z.snd.caught item.isNonNull bs := by
  have hv := value?_all (f := fun y : Seeded I V => completeItem runs item label y.entry (y.seeds keys))
    (l := z.items)
  rw [completeItem_list, h, Option.bind_some, value?_eq_some (hv.trans hb), caught_all hb]
  rfl

end List

variable [DecidableEq T]

-- The completion of a column completes each of its values on its own, with the heads of streams.
def Itemwise (runs : LayerRuns L S I V) (c : Completer T L S) : Prop :=
  ∀ (label : String) (keys : Option (List I)) (xs : List (Seeded I V)),
    Yields (completeValues runs.toLayers runs.pointwise c label (xs.map (·.entry)) (bridgeOf keys xs))
      (xs.mapM fun x => value? (completeItem runs c label x.entry (x.seeds keys)))
      (xs.flatMap fun x => caught (completeItem runs c label x.entry (x.seeds keys)))

theorem Itemwise.leaf {leafType : T} : Itemwise runs (.leaf leafType) := by
  intro label keys xs
  rw [completeValues, List.mapM_map]
  refine Yields.lift.congr ?_ fun _ => ?_
  · simp only [completeItem, value?, Option.map_map, Function.comp_def, Reported.of, Option.map_id']
  · refine .of_eq (List.flatMap_eq_nil_iff.mpr fun x _ => ?_).symm
    rw [completeItem]
    cases completeSingleLeaf leafType x.entry <;> rfl

theorem Itemwise.nonNull {inner : Completer T L S} (h : Itemwise runs inner) :
    Itemwise runs (.nonNull inner) := by
  intro label keys xs
  rw [completeValues]
  refine (h label keys xs).map.congr ?_ fun _ => ?_
  · have hv (x : Seeded I V) :
        value? (completeItem runs (.nonNull inner) label x.entry (x.seeds keys)) =
          (value? (completeItem runs inner label x.entry (x.seeds keys))).map
            (enforceNonNull label x.entry) := by
      rw [completeItem, value?, value?, Option.map_map, Option.map_map]
      rfl
    simp only [hv, mapM_map]
    exact congrArg (Option.map · _) (funext fun bs => List.zipWith_map_left)
  · refine .of_eq (List.flatMap_congr fun x _ => ?_)
    rw [completeItem]
    cases completeItem runs inner label x.entry (x.seeds keys) <;> rfl

theorem Itemwise.list {item : Completer T L S} (h : Itemwise runs item) : Itemwise runs (.list item) := by
  intro label keys xs
  rw [mapM_completeItem_list, completeValues, flattenFrom_eq, List.mapM_map]
  simp only [Function.comp_def]
  cases hl : xs.mapM fun x => listItems label x.entry
  case none       => exact .fail fun _ => rfl
  case some lists =>
    have hx : (xs.zip lists).map (·.fst) = xs := List.map_fst_zip (mapM_length hl).ge
    have hs : (xs.zip lists).map (·.snd) = lists := List.map_snd_zip (mapM_length hl).le
    have hi := mapM_map_fst hl
    rw [Option.bind_some]
    generalize xs.zip lists = zs at hx hs hi
    subst hx hs
    have hg : Bridge.gather (bridgeOf keys (zs.map (·.fst))) (ownersFrom 0 (zs.map (·.snd))) =
        some (bridgeOf keys (zs.flatMap SeededItems.items)) :=
      bridge_gather fun id => by simpa [Function.comp_def] using gather_ownersFrom (b := [])
    have hc := h label keys (zs.flatMap SeededItems.items)
    rw [← flatMap_entries, mapM_flatMap] at hc
    simp only [Option.map_some]
    refine .lift_bind ?_
    simp only [hg]
    refine .lift_bind ?_
    cases hm : zs.mapM fun z => (SeededItems.items z).mapM fun x =>
      value? (completeItem runs item label x.entry (x.seeds keys))
    case none     =>
      rw [hm] at hc
      exact hc.fail_bind
    case some bss =>
      rw [hm] at hc
      have hf := mapM_forall₂ hm
      have hl : List.Forall₂ (fun (list : Items V) bs => bs.length = list.length)
          (zs.map (·.snd)) bss := by
        rw [List.forall₂_map_left_iff]
        refine hf.imp fun z bs hb => ?_
        rw [mapM_length hb, Items.length_eq, SeededItems.items, List.length_map]
      refine (hc.bind
        (s := fun _ => some (List.zipWith (·.finish item.isNonNull) (zs.map (·.snd)) bss))
        (z := (List.zipWith (·.caught item.isNonNull) (zs.map (·.snd)) bss).flatten)
        fun completed h => ?_).congr rfl fun _ => ?_
      · obtain rfl := Option.some.inj h
        exact collectSpans_yields (b := []) hl
      · have hz : (zs.zip bss).map (·.fst) = zs := List.map_fst_zip (mapM_length hm).ge
        have hb : (zs.zip bss).map (·.snd) = bss := List.map_snd_zip (mapM_length hm).le
        have hr := mapM_map_fst hm
        have he (y) (hy : y ∈ zs.zip bss) := hi y.fst (List.of_mem_zip hy).left
        generalize zs.zip bss = ys at hz hb hr he
        subst hz hb
        simp only [List.zipWith_map, List.zipWith_self, List.map_map, ← List.flatMap_def,
          List.flatMap_map]
        rw [List.flatMap_assoc]
        refine (List.flatMap_append_perm _ _ _).trans (.of_eq (List.flatMap_congr fun y hy => ?_))
        exact (caught_completeItem_list (he y hy) (hr y hy)).symm

section Object

variable {op : ObjectPlan T L S} {keys : Option (List I)}

omit [DecidableEq T] in
theorem completeParent_seeds {x : Seeded I V} :
    completeParent runs op x.entry (x.seeds keys) =
      if (runs.hoistedOutIds op.layer).all ((keys.getD []).contains ·) then
        completeParent runs op x.entry (some <| x.seed ·)
      else
        none := by
  obtain ⟨fields, layer⟩ := op
  simp only [completeParent, Seeded.seeds, layerSeeds_isSome, Option.isSome_some]
  cases h : (runs.hoistedOutIds layer).all ((keys.getD []).contains ·)
  case false => rfl
  case true  => simp [layerSeeds_layerSeeds h]

-- The execution of an object plan completes each parent of the bucket on its own.
def ItemwiseObject (runs : LayerRuns L S I V) (op : ObjectPlan T L S) : Prop :=
  ∀ xs : List (Seeded I V),
    Yields (executeObjectPlan runs.toLayers runs.pointwise op (xs.map (·.entry))
        (storeOf (runs.hoistedOutIds op.layer) xs))
      (xs.mapM fun x => value? (completeParent runs op x.entry (some <| x.seed ·)))
      (xs.flatMap fun x => caught (completeParent runs op x.entry (some <| x.seed ·)))

-- A child bucket of some values of a column.
theorem ItemwiseObject.bucket (h : ItemwiseObject runs op) (keys : Option (List I)) {s : α → Seeded I V}
    {p : α → Bool} {g : α → Completed V} {l : List α} (hp : l.filter p ≠ []) :
    Yields (do
        let store ← buildHoistParentStore (runs.hoistedOutIds op.layer)
          (bridgeOf keys (l.map s)) (placesFrom p 0 l)
        let children ← executeObjectPlan runs.toLayers runs.pointwise op ((l.filter p).map fun a => (s a).entry) store
        return scatter (fun _ completed => completed) (placesFrom p 0 l) children (l.map g))
      (l.mapM fun a => if p a then
        value? (completeParent runs op (s a).entry ((s a).seeds keys)) else some (g a))
      (l.flatMap fun a => if p a then
        caught (completeParent runs op (s a).entry ((s a).seeds keys)) else []) := by
  rw [buildHoistParentStore_eq]
  cases ha : (runs.hoistedOutIds op.layer).all ((keys.getD []).contains ·)
  case false =>
    have hn : (l.mapM fun a => if p a then
        value? (completeParent runs op (s a).entry ((s a).seeds keys)) else some (g a)) = none := by
      obtain ⟨a, hm⟩ := List.exists_mem_of_ne_nil _ hp
      rw [List.mem_filter] at hm
      refine mapM_eq_none_iff.mpr ⟨a, hm.left, ?_⟩
      rw [if_pos hm.right, completeParent_seeds, ha]
      rfl
    rw [hn]
    exact .fail fun _ => rfl
  case true =>
    refine .lift_bind ?_
    have hx := h ((l.filter p).map s)
    simp only [List.map_map, Function.comp_def, List.mapM_map, List.flatMap_map] at hx
    refine (hx.map.congr ?_ fun _ => ?_)
    · have hm := mapM_scatter (fun _ completed => completed) (g := g) (p := p) (l := l)
        (f := fun a => value? (completeParent runs op (s a).entry ((s a).seeds keys)))
      simp only [Option.map_id_fun', id] at hm
      rw [hm]
      simp only [completeParent_seeds, ha, if_true]
    · rw [flatMap_filter]
      simp only [completeParent_seeds, ha, if_true]
      exact .refl _

end Object

section Object

variable {objectType : T} {child : ObjectPlan T L S} {label : String}

omit [DecidableEq T] in
theorem completeItem_object {e : Entry V} {seeds : I → Option V}
    (hg : isGuardRaising objectType e = false) :
    completeItem runs (.object objectType child) label e seeds =
      if isObjectOf objectType e then completeParent runs child e seeds
      else some (.of (objectOutcome objectType e)) := by
  rw [completeItem]
  unfold isGuardRaising at hg
  unfold objectOutcome isRejected isObjectOf
  cases hp : isPresent e.value
  case false => simp
  case true  =>
    cases hc : checkTypeOf objectType e
    case error error => simp [hp, hc, Except.toOption] at hg
    case ok ok       => cases ok <;> simp

theorem Itemwise.object (h : ItemwiseObject runs child) : Itemwise runs (.object objectType child) := by
  intro label keys xs
  rw [completeValues, objectBucket_eq, List.any_map]
  cases hg : xs.any (isGuardRaising objectType ∘ (·.entry))
  case true =>
    obtain ⟨x, hx, hr⟩ := List.any_eq_true.mp hg
    have hn : (xs.mapM fun x =>
        value? (completeItem runs (.object objectType child) label x.entry (x.seeds keys))) = none := by
      refine mapM_eq_none_iff.mpr ⟨x, hx, ?_⟩
      rw [Function.comp_apply, isGuardRaising, Bool.and_eq_true] at hr
      rw [completeItem, if_pos hr.left]
      cases hc : checkTypeOf objectType x.entry
      case error error => rfl
      case ok ok       => simp [hc, Except.toOption] at hr
    rw [hn]
    exact .fail fun _ => rfl
  case false =>
    have hg (x) (hx : x ∈ xs) : isGuardRaising objectType x.entry = false :=
      Bool.eq_false_iff.mpr (List.any_eq_false.mp hg x hx)
    have hm : (xs.mapM fun x =>
        value? (completeItem runs (.object objectType child) label x.entry (x.seeds keys))) =
          xs.mapM fun x => if isObjectOf objectType x.entry then
            value? (completeParent runs child x.entry (x.seeds keys))
          else some (objectOutcome objectType x.entry) := by
      refine mapM_congr fun x hx => ?_
      rw [completeItem_object (hg x hx)]
      split <;> rfl
    have hc : (xs.flatMap fun x =>
        caught (completeItem runs (.object objectType child) label x.entry (x.seeds keys))) =
          xs.flatMap fun x => if isObjectOf objectType x.entry then
            caught (completeParent runs child x.entry (x.seeds keys)) else [] := by
      refine List.flatMap_congr fun x hx => ?_
      rw [completeItem_object (hg x hx)]
      split <;> rfl
    have hk : ((xs.map (·.entry)).zipIdx.filter (isObjectOf objectType ·.fst)).map (·.snd) =
        placesFrom (isObjectOf objectType ·.entry) 0 xs :=
      placesFrom_map
    have hf : ((xs.map (·.entry)).zipIdx.filter (isObjectOf objectType ·.fst)).map (·.fst) =
        (xs.filter (isObjectOf objectType ·.entry)).map (·.entry) := by
      rw [zipIdx_filter_fst, List.filter_map]
      rfl
    rw [hm, hc]
    refine .lift_bind ?_
    dsimp only
    split
    case isTrue he =>
      rw [List.isEmpty_iff.mp he, List.map_nil, eq_comm, List.map_eq_nil_iff] at hf
      have hx (x) (hx : x ∈ xs) : isObjectOf objectType x.entry = false :=
        Bool.eq_false_iff.mpr (List.filter_eq_nil_iff.mp hf x hx)
      rw [mapM_congr (g := fun x => some (objectOutcome objectType x.entry))
        fun x hm => by simp [hx x hm], mapM_some, List.map_map]
      refine Yields.pure.congr rfl fun _ => .of_eq ?_
      exact (List.flatMap_eq_nil_iff.mpr fun x hm => by simp [hx x hm]).symm
    case isFalse he =>
      have hp : xs.filter (isObjectOf objectType ·.entry) ≠ [] := by
        intro hn
        rw [hn, List.map_nil, List.map_eq_nil_iff] at hf
        exact he (List.isEmpty_iff.mpr hf)
      simp only [hk, hf, List.map_map, Function.comp_def]
      simpa using h.bucket keys (s := id) (g := (objectOutcome objectType ·.entry)) hp

end Object

section Abstract

variable {abstractType : T} {plans : T → ObjectPlan T L S}

-- What is left of a value when the buckets of some types have been completed.
def completeMembers (runs : LayerRuns L S I V) (abstractType : T) (plans : T → ObjectPlan T L S)
    (types : List T) (e : Entry V) (seeds : I → Option V) (before : Completed V) :
    Option (Completed V) :=
  match groupType abstractType e with
  | none      => some before
  | some type => if type ∈ types then value? (completeParent runs (plans type) e seeds) else some before

def memberErrors (runs : LayerRuns L S I V) (abstractType : T) (plans : T → ObjectPlan T L S)
    (types : List T) (e : Entry V) (seeds : I → Option V) : List (LocatedError V) :=
  match groupType abstractType e with
  | none      => []
  | some type => if type ∈ types then caught (completeParent runs (plans type) e seeds) else []

variable {type : T} {types : List T} {e : Entry V} {seeds : I → Option V}

theorem completeMembers_cons {before : Completed V} (h : type ∉ types) :
    completeMembers runs abstractType plans (type :: types) e seeds before =
      (if groupType abstractType e = some type then value? (completeParent runs (plans type) e seeds)
        else some before).bind (completeMembers runs abstractType plans types e seeds) := by
  unfold completeMembers
  cases ht : groupType abstractType e
  case none   => simp
  case some t =>
    by_cases he : t = type
    case pos => simp [he, h]
    case neg => simp [he]

theorem memberErrors_cons (h : type ∉ types) :
    memberErrors runs abstractType plans (type :: types) e seeds =
      (if groupType abstractType e = some type then caught (completeParent runs (plans type) e seeds)
        else []) ++ memberErrors runs abstractType plans types e seeds := by
  unfold memberErrors
  cases ht : groupType abstractType e
  case none   => simp
  case some t =>
    by_cases he : t = type
    case pos => simp [he, h]
    case neg => simp [he]

-- The bucket of a type, whose members are the values of the type.
theorem ItemwiseObject.members (h : ItemwiseObject runs (plans type)) (keys : Option (List I))
    {xs : List (Seeded I V)} {bs : List (Completed V)} {members : List (Entry V × Nat)}
    (hb : bs.length = xs.length)
    (hm : members = (xs.map (·.entry)).zipIdx.filter (groupType abstractType ·.fst = some type))
    (he : ∃ x ∈ xs, groupType abstractType x.entry = some type) :
    Yields (do
        let store ← buildHoistParentStore (runs.hoistedOutIds (plans type).layer)
          (bridgeOf keys xs) (members.map (·.snd))
        let children ← executeObjectPlan runs.toLayers runs.pointwise (plans type) (members.map (·.fst)) store
        return scatter (fun _ completed => completed) (members.map (·.snd)) children bs)
      ((xs.zip bs).mapM fun z => if groupType abstractType z.fst.entry = some type then
        value? (completeParent runs (plans type) z.fst.entry (z.fst.seeds keys)) else some z.snd)
      (xs.flatMap fun x => if groupType abstractType x.entry = some type then
        caught (completeParent runs (plans type) x.entry (x.seeds keys)) else []) := by
  have hx : (xs.zip bs).map (·.fst) = xs := List.map_fst_zip hb.ge
  have hs : (xs.zip bs).map (·.snd) = bs := List.map_snd_zip hb.le
  have hp : (xs.zip bs).filter (groupType abstractType ·.fst.entry = some type) ≠ [] := by
    obtain ⟨x, hm, ht⟩ := he
    rw [← hx] at hm
    obtain ⟨z, hz, rfl⟩ := List.mem_map.mp hm
    exact List.ne_nil_of_mem (List.mem_filter.mpr ⟨hz, decide_eq_true ht⟩)
  have ho : members.map (·.snd) =
      placesFrom (fun z => decide (groupType abstractType z.fst.entry = some type)) 0 (xs.zip bs) := by
    have hc := placesFrom_map (p := fun x : Seeded I V => decide (groupType abstractType x.entry = some type))
      (f := Prod.fst) (n := 0) (l := xs.zip bs)
    rw [hx] at hc
    rw [hm, ← hc]
    exact placesFrom_map (p := fun e : Entry V => decide (groupType abstractType e = some type))
  have hf : members.map (·.fst) = ((xs.zip bs).filter
      fun z => decide (groupType abstractType z.fst.entry = some type)).map (·.fst.entry) := by
    rw [hm, zipIdx_filter_fst (p := fun e => decide (groupType abstractType e = some type)),
      List.filter_map]
    conv => lhs; rw [← hx, List.filter_map, List.map_map]
    rfl
  have hh := h.bucket keys (s := Prod.fst) (g := Prod.snd) hp
  rw [hx, hs, ← ho, ← hf] at hh
  simp only [decide_eq_true_eq] at hh
  refine hh.congr rfl fun _ => .of_eq ?_
  conv => rhs; rw [← hx, List.flatMap_map]

-- The buckets of the types run one after another.
theorem members_yield (abstractType : T) (keys : Option (List I)) (h : ∀ type, ItemwiseObject runs (plans type))
    {xs : List (Seeded I V)} {gs : List (T × List (Entry V × Nat))} {bs : List (Completed V)}
    (hb : bs.length = xs.length)
    (hm : ∀ g ∈ gs, g.snd = (xs.map (·.entry)).zipIdx.filter
      (groupType abstractType ·.fst = some g.fst))
    (hn : (gs.map (·.fst)).Nodup)
    (he : ∀ g ∈ gs, ∃ x ∈ xs, groupType abstractType x.entry = some g.fst) :
    Yields (gs.foldlM (fun results (objectType, members) => do
        let origin := members.map (·.snd)
        let store ← buildHoistParentStore (runs.hoistedOutIds (plans objectType).layer)
          (bridgeOf keys xs) origin
        let children ← executeObjectPlan runs.toLayers runs.pointwise (plans objectType) (members.map (·.fst)) store
        return scatter (fun _ completed => completed) origin children results) bs)
      ((xs.zip bs).mapM fun z => completeMembers runs abstractType plans (gs.map (·.fst))
        z.fst.entry (z.fst.seeds keys) z.snd)
      (xs.flatMap fun x => memberErrors runs abstractType plans (gs.map (·.fst)) x.entry
        (x.seeds keys)) := by
  induction gs generalizing bs
  case nil =>
    have hs : (xs.zip bs).map (·.snd) = bs := List.map_snd_zip hb.le
    have hg (x : Seeded I V) : memberErrors runs abstractType plans [] x.entry (x.seeds keys) = [] := by
      unfold memberErrors
      split <;> simp
    have hc (z : Seeded I V × Completed V) : completeMembers runs abstractType plans [] z.fst.entry
        (z.fst.seeds keys) z.snd = some z.snd := by
      unfold completeMembers
      split <;> simp
    simp only [List.map_nil, hg, hc, mapM_some, hs]
    exact Yields.pure.congr rfl fun _ => by simp
  case cons g gs hi =>
    obtain ⟨type, members⟩ := g
    obtain ⟨hd, hn⟩ := List.nodup_cons.mp hn
    have hx : (xs.zip bs).map (·.fst) = xs := List.map_fst_zip hb.ge
    rw [List.foldlM_cons]
    refine (((h type).members keys hb (hm _ (.head _)) (he _ (.head _))).bind
      (s := fun bs => (xs.zip bs).mapM fun z => completeMembers runs abstractType plans
        (gs.map (·.fst)) z.fst.entry (z.fst.seeds keys) z.snd)
      (z := xs.flatMap fun x => memberErrors runs abstractType plans (gs.map (·.fst)) x.entry
        (x.seeds keys)) fun bs' hb' => ?_).congr ?_ fun _ => ?_
    · exact hi (by rw [mapM_length hb', List.length_zip, hb, Nat.min_self])
        (fun g hg => hm g (.tail _ hg)) hn fun g hg => he g (.tail _ hg)
    · simp only [List.map_cons, completeMembers_cons hd, mapM_bind]
      refine Option.bind_congr fun bs' hb' => ?_
      have hz : xs.zip bs' = ((xs.zip bs).zip bs').map fun z => (z.fst.fst, z.snd) := by
        conv => lhs; rw [← hx, List.zip_map_left]
        rfl
      rw [hz, List.mapM_map]
      rfl
    · simp only [List.map_cons, memberErrors_cons hd]
      exact List.flatMap_append_perm ..

theorem Itemwise.abstract (h : ∀ type, ItemwiseObject runs (plans type)) :
    Itemwise runs (.abstract abstractType plans) := by
  intro label keys xs
  rw [completeValues]
  have ht {x} (hx : x ∈ xs) {type} (ht : groupType abstractType x.entry = some type) :
      type ∈ (groupByType abstractType (xs.map (·.entry))).map (·.fst) :=
    mem_types_iff.mpr ⟨_, List.mem_map_of_mem hx, ht⟩
  have hb : ((xs.map (·.entry)).map (abstractResult abstractType)).length = xs.length := by simp
  have hc := members_yield abstractType keys h hb (fun g => members_eq) groupByType_grouped.nodup fun g hg => by
    obtain ⟨e, he, ht⟩ := mem_types_iff.mp (List.mem_map_of_mem (f := Prod.fst) hg)
    obtain ⟨x, hx, rfl⟩ := List.mem_map.mp he
    exact ⟨x, hx, ht⟩
  refine hc.congr ?_ fun _ => .of_eq ?_
  · rw [List.map_map, ← List.map_prod_left_eq_zip, List.mapM_map]
    refine mapM_congr fun x hx => ?_
    rw [Function.comp_apply, completeItem, completeMembers]
    cases hg : groupType abstractType x.entry
    case none      => rfl
    case some type => exact if_pos (ht hx hg)
  · refine List.flatMap_congr fun x hx => ?_
    rw [completeItem, memberErrors]
    cases hg : groupType abstractType x.entry
    case none      => rfl
    case some type => exact if_pos (ht hx hg)

end Abstract

end Grafast
