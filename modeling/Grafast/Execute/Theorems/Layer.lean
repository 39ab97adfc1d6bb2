import Grafast.Execute.Layer
import Grafast.Step.Theorems.Run
import Grafast.Execute.Theorems.Objects
import Grafast.Planner.Theorems.FiresOnce

namespace Grafast

open Batch

variable {T K Key V S C : Type} [PlanStep K Key]

section Ready

variable {p : Plan K} {op : OutputPlan T} {ordered : List Ref}

-- A layer whose steps can be run in a given order, once its boundary columns are known.
structure LayerPlan.Ready (p : Plan K) (layer : LayerPlan) (ordered : List Ref) : Prop where
  orderedSteps : layer.orderedSteps = some ordered
  parent       : layer.parentStep ∈ p.steps
  steps        : ∀ step ∈ ordered, step ∈ p.steps ∧ p.isRoot step = false
  nodup        : ordered.Nodup
  bounded      : ∀ step ∈ ordered, p.stepId step ∉ layer.boundaryIds p
  closed       : ∀ before step after, ordered = before ++ step :: after → ∀ d ∈ p.dependencies step,
    d ∈ before ∨ p.stepId d ∈ layer.boundaryIds p

-- A bucket whose parent step and whose run targets are registered.
structure Plan.Registers (p : Plan K) (op : OutputPlan T) : Prop where
  parent  : op.layer.parentStep ∈ p.steps
  targets : ∀ step ∈ op.runTargets, step ∈ p.steps

omit [PlanStep K Key] in
-- The walk of a layer depends on the steps and their edges only, so that the invariant of the plan is enough.
theorem Plan.objects_of_inv (hi : p.view.Inv) : ({ p with sideReplacements := [] } : Plan K).Objects p.heap.length where
  length   := rfl
  dep_lt   := hi.dep_lt
  steps_lt := fun r hr => hi.seen_lt r (hi.steps_seen r hr)
  side_lt  := fun _ he => absurd he List.not_mem_nil

-- A layer of a scheduled tree is ready once it has been populated.
theorem ObjectPlan.populateLayers_ready (hi : p.view.Inv) (hr : p.Registers op)
    (ho : (op.populateLayers p).layer.orderedSteps = some ordered)
    (hs : ∀ step ∈ ordered, p.isRoot step = false)
    (hc : ∀ before step after, ordered = before ++ step :: after → ∀ d ∈ p.dependencies step,
      d ∈ before ∨ p.stepId d = p.stepId (op.populateLayers p).layer.parentStep ∨
        p.stepId d ∈ (op.populateLayers p).layer.hoistedOutIds) :
    (op.populateLayers p).layer.Ready p ordered := by
  have he := orderedSteps_populate ho
  have hp := p.objects_of_inv hi
  have hb : (op.populateLayers p).layer.boundaryIds p = op.layer.boundaryIds p := by
    rw [populateLayers_layer]
    rfl
  have hreach {step : Ref} (hs : step ∈ ordered) : op.Reaches p step :=
    hp.mem_orderStepsWithin_iff.mp (he ▸ hs)
  constructor
  case orderedSteps => exact ho
  case parent       => exact populateLayers_layer ▸ hr.parent
  case nodup        => exact he ▸ hp.orderStepsWithin_nodup
  case steps        =>
    intro step hm
    refine ⟨?_, hs step hm⟩
    exact (hreach hm).subset_of_closed (fun t ht _ => hr.targets t ht) fun a b ha he => hi.steps_dep a ha b he.left
  case bounded      =>
    intro step hs
    have := (hreach hs).not_stop
    rwa [hb, ← decide_eq_false_iff_not]
  case closed       =>
    intro before step after hs d hd
    exact (hc before step after hs d hd).imp_right List.mem_cons.mpr

end Ready

section HandedDown

variable {I : Type} [DecidableEq I] {parentStore : List (I × List V)} {id : I}

theorem handedDown_isSome_iff : (handedDown parentStore id).isSome ↔ id ∈ parentStore.map Prod.fst := by
  rw [handedDown, List.lookup_isSome_iff, List.mem_map]
  exact exists_congr fun c => and_congr_right fun _ => by rw [beq_iff_eq, eq_comm]

theorem mem_of_handedDown {col : List V} (h : handedDown parentStore id = some col) : (id, col) ∈ parentStore := by
  obtain ⟨l₁, l₂, hl, -⟩ := List.lookup_eq_some_iff.mp h
  simp [hl]

end HandedDown

-- The extra of a bucket gives each parent its own path.
def bucketExtras (V C : Type) : EntryExtras (BucketExtra C V) (EntryExtra C V) where
  entry          := BucketExtra.entry
  covers x count := count ≤ x.parentPaths.length
  mono h hc      := h.trans hc

section Nodes

variable [PyValue V S] [EachErrors V] [ExecutableStep K V C] (isAwaitable isCoroutine : V → Bool)

-- The executable steps of a plan have the ids of the steps and of their dependencies, and compute their
-- columns entry by entry. A root step cannot be executed.
structure Plan.Entrywise (p : Plan K) : Prop where
  id           : ∀ r node, p.isRoot r = false → p.node r = some node → p.stepId r = some (node.toStep isCoroutine).id
  dependencies : ∀ r node, p.isRoot r = false → p.node r = some node →
    (p.dependencies r).map p.stepId = (node.toStep isCoroutine).dependencies.map some
  entrywise    : ∀ r node, p.isRoot r = false → p.node r = some node →
    ∃ step : EntryStep V V (bucketExtras V C) isAwaitable, step.toStep = node.toStep isCoroutine

-- The steps that a layer executes, in terms of those of the plan.
structure Executes (p : Plan K) (ordered : List Ref) (nodes : List (Node V (BucketExtra C V)))
    (steps : List (EntryStep V V (bucketExtras V C) isAwaitable)) : Prop where
  nodes_eq     : p.nodes ordered = some nodes
  toSteps_eq   : toSteps isCoroutine nodes = steps.map (·.toStep)
  ids          : ordered.map p.stepId = steps.map (some ·.id)
  dependencies : ordered.map (fun r => (p.dependencies r).map p.stepId) = steps.map (·.dependencies.map some)

variable {isAwaitable isCoroutine} {p : Plan K} {ordered : List Ref}

omit [EachErrors V] in
theorem Plan.node_isSome {r : Ref} (hi : p.view.Inv) (hr : r ∈ p.steps) :
    ∃ node : Node V (BucketExtra C V), p.node r = some node := by
  have hs := hi.steps_seen r hr
  have hlt : r < p.heap.length := hi.seen_lt r hs
  obtain ⟨id, hid⟩ := Option.isSome_iff_exists.mp (hi.seen_id r hs)
  have hd : ∀ d ∈ p.dependencies r, p.stepId d = some ((p.stepId d).getD 0) := by
    intro d hd
    obtain ⟨i, hi⟩ := Option.isSome_iff_exists.mp (hi.seen_id d (hi.seen_dep r hs d hd))
    have hi : p.stepId d = some i := hi
    rw [hi, Option.getD_some]
  have hk : p.kind r = some p.heap[r].kind := by simp [Plan.kind, hlt]
  have hid : p.stepId r = some id := hid
  exact ⟨_, by simp only [Plan.node, hk, hid, mapM_eq_some_map_iff.mpr hd]; rfl⟩

theorem Plan.Entrywise.executes (he : p.Entrywise isAwaitable isCoroutine) (hi : p.view.Inv)
    (hs : ∀ step ∈ ordered, step ∈ p.steps ∧ p.isRoot step = false) :
    ∃ nodes steps, Executes isAwaitable isCoroutine p ordered nodes steps := by
  induction ordered with
  | nil          => exact ⟨[], [], rfl, rfl, rfl, rfl⟩
  | cons r ordered ih =>
    obtain ⟨nodes, steps, hx⟩ := ih fun step hm => hs step (.tail _ hm)
    obtain ⟨hr, hroot⟩ := hs r (.head _)
    obtain ⟨node, hn⟩ := p.node_isSome hi hr
    obtain ⟨step, ht⟩ := he.entrywise r node hroot hn
    refine ⟨node :: nodes, step :: steps, ?_, ?_, ?_, ?_⟩
    · have hm : ordered.mapM p.node = some nodes := hx.nodes_eq
      rw [Plan.nodes, mapM_cons, hn, hm]
      rfl
    · rw [toSteps, hx.toSteps_eq, ← ht, List.map_cons]
    · rw [List.map_cons, List.map_cons, he.id r node hroot hn, ht, hx.ids]
    · rw [List.map_cons, List.map_cons, he.dependencies r node hroot hn, ht, hx.dependencies]

namespace Executes

variable {nodes : List (Node V (BucketExtra C V))} {steps : List (EntryStep V V (bucketExtras V C) isAwaitable)}
  {layer : LayerPlan} {parentStore : List (Option Nat × List V)} {parents : List V} {parentId : Nat}

theorem mem_ids (h : Executes isAwaitable isCoroutine p ordered nodes steps) {id : Nat} :
    id ∈ steps.map (·.id) ↔ some id ∈ ordered.map p.stepId := by
  rw [h.ids, List.mem_map, List.mem_map]
  exact exists_congr fun t => and_congr_right fun _ => (Option.some_inj).symm

-- What is known of one of the steps, and of the steps before it.
theorem split (h : Executes isAwaitable isCoroutine p ordered nodes steps)
    {a b : List (EntryStep V V (bucketExtras V C) isAwaitable)}
    {s : EntryStep V V (bucketExtras V C) isAwaitable} (he : steps = a ++ s :: b) :
    ∃ before r after, ordered = before ++ r :: after ∧ before.map p.stepId = a.map (some ·.id) ∧
      p.stepId r = some s.id ∧ (p.dependencies r).map p.stepId = s.dependencies.map some := by
  have hids := h.ids
  have hdeps := h.dependencies
  rw [he, List.map_append, List.map_cons] at hids hdeps
  obtain ⟨before, rest, ho, hb, hr⟩ := List.map_eq_append_iff.mp hids
  obtain ⟨r, after, hra, hid, -⟩ := List.map_eq_cons_iff.mp hr
  subst hra
  have hl : (before.map fun r => (p.dependencies r).map p.stepId).length =
      (a.map (·.dependencies.map some)).length := by
    have := congrArg List.length hb
    simpa using this
  rw [ho, List.map_append, List.map_cons] at hdeps
  obtain ⟨-, hd⟩ := List.append_inj hdeps hl
  exact ⟨before, r, after, ho, hb, hid, (List.cons.inj hd).left⟩

-- The parents and the columns that are handed down are the boundary columns of a layer.
omit [PyValue V S] [EachErrors V] [ExecutableStep K V C] in
theorem seed_isSome_iff (hp : p.stepId layer.parentStep = some parentId)
    (hs : parentStore.map Prod.fst = layer.hoistedOutIds) {id : Nat} :
    (Store.insert (fun id => handedDown parentStore (some id)) parentId parents id).isSome ↔
      some id ∈ layer.boundaryIds p := by
  rw [LayerPlan.boundaryIds, hp, List.mem_cons, Option.some_inj]
  by_cases hid : id = parentId
  case pos =>
    rw [hid, Store.insert_self, Option.isSome_some]
    exact ⟨fun _ => .inl rfl, fun _ => rfl⟩
  case neg =>
    rw [Store.insert_of_ne hid, handedDown_isSome_iff, or_iff_right hid, hs]

theorem schedule (h : Executes isAwaitable isCoroutine p ordered nodes steps) (hi : p.view.Inv)
    (hl : layer.Ready p ordered) (hp : p.stepId layer.parentStep = some parentId) (hne : parents ≠ [])
    (hs : parentStore.map Prod.fst = layer.hoistedOutIds)
    (hc : ∀ c ∈ parentStore, c.snd.length = parents.length) :
    Schedule parents.length (Store.insert (fun id => handedDown parentStore (some id)) parentId parents) steps := by
  constructor
  case count_pos => exact List.length_pos_of_ne_nil hne
  case seed_length =>
    intro id col hid
    by_cases he : id = parentId
    case pos =>
      rw [he, Store.insert_self] at hid
      rw [← Option.some.inj hid]
    case neg =>
      rw [Store.insert_of_ne he] at hid
      exact hc (some id, col) (mem_of_handedDown hid)
  case ids_nodup =>
    have hn : (ordered.map p.stepId).Nodup := by
      refine (List.nodup_map_iff_inj_on hl.nodup).mpr fun r hr s hs he => ?_
      exact hi.ids r (hl.steps r hr).left s (hl.steps s hs).left he
    rw [h.ids] at hn
    exact List.Nodup.of_map some (by rwa [List.map_map])
  case unseeded =>
    intro s hsm
    obtain ⟨a, b, he⟩ := List.append_of_mem hsm
    obtain ⟨before, r, after, ho, -, hid, -⟩ := h.split he
    have hb := hl.bounded r (by simp [ho])
    rwa [hid, ← seed_isSome_iff hp hs, Option.not_isSome_iff_eq_none] at hb
  case ordered =>
    intro a s b he d hd
    obtain ⟨before, r, after, ho, hb, -, hdeps⟩ := h.split he
    have hm : some d ∈ (p.dependencies r).map p.stepId := hdeps ▸ List.mem_map_of_mem hd
    obtain ⟨d', hd', hid⟩ := List.mem_map.mp hm
    cases hl.closed before r after ho d' hd' with
    | inr hb' => exact .inl ((seed_isSome_iff hp hs).mpr (hid ▸ hb'))
    | inl hb' =>
      have hm : some d ∈ a.map (some ·.id) := hb ▸ hid ▸ List.mem_map_of_mem hb'
      obtain ⟨t, ht, he⟩ := List.mem_map.mp hm
      exact .inr (Option.some.inj he ▸ List.mem_map_of_mem ht)

end Executes

section Batch

variable {r : Request T K C V} {layer : LayerPlan} {parents : List (Entry V)}
  {parentStore : List (Option Nat × List V)}

-- The columns of a bucket: every column that the layer has holds at each parent what the steps compute for it.
theorem Request.bucketStore_eq {nodes : List (Node V (BucketExtra C V))}
    {steps : List (EntryStep V V (bucketExtras V C) isAwaitable)} {parentId : Nat}
    (hx : Executes isAwaitable isCoroutine p ordered nodes steps) (hi : p.view.Inv) (hl : layer.Ready p ordered)
    (hp : p.stepId layer.parentStep = some parentId) (hne : parents ≠ [])
    (hs : parentStore.map Prod.fst = layer.hoistedOutIds)
    (hc : ∀ c ∈ parentStore, c.snd.length = parents.length) :
    ∃ results, r.bucketStore isAwaitable isCoroutine p layer parents parentStore = some results ∧
      (∀ id col, results id = some col → col.length = parents.length) ∧
      (∀ id, (results id).isSome ↔ some id ∈ layer.columnIds p) ∧
      ∀ k e, parents[k]? = some e → ∀ id, results.entry k id =
        evaluate (some ⟨r.context, e.path, r.sourceValues⟩) steps
          (Function.update (fun id => seedsAt parentStore k (some id)) parentId (some e.value)) id := by
  have S : Schedule (parents.map (·.value)).length
      (Store.insert (fun id => handedDown parentStore (some id)) parentId (parents.map (·.value))) steps :=
    hx.schedule hi hl hp (by simpa using hne) hs (by simpa using hc)
  obtain ⟨running, s, hr, hs', inv⟩ := S.runSteps_ok (some (r.extra (parents.map (·.path)))) fun extra he => by
    rw [← Option.some.inj he]
    simp [Request.extra, bucketExtras]
  refine ⟨s.results, ?_, fun id col hid => ?_, fun id => ?_, fun k e he id => ?_⟩
  · simp only [Request.bucketStore, Request.runLayer, hp, hl.orderedSteps, hx.nodes_eq, Option.bind_eq_bind,
      Option.bind_some, Option.pure_def, RunCall.results, hx.toSteps_eq]
    rw [hr]
    simp only [Except.toOption, Option.bind_some, hs']
  · simpa [Schedule.bucket] using inv.length id col hid
  · rw [inv.stored, hx.mem_ids, Executes.seed_isSome_iff hp hs, LayerPlan.columnIds, hl.orderedSteps,
      Option.elim_some, List.mem_append]
  · obtain ⟨hk, hke⟩ := List.getElem?_eq_some_iff.mp he
    have hseed : (Store.insert (fun id => handedDown parentStore (some id)) parentId (parents.map (·.value))).entry k =
        Function.update (fun id => seedsAt parentStore k (some id)) parentId (some e.value) := by
      funext id
      by_cases hid : id = parentId
      case pos => simp [hid, he]
      case neg =>
        rw [Store.entry_insert_of_ne hid, Function.update_of_ne hid]
        rfl
    have hx : (bucketExtras V C).entry (r.extra (parents.map (·.path))) k = ⟨r.context, e.path, r.sourceValues⟩ := by
      simp [Request.extra, bucketExtras, BucketExtra.entry, he]
    have hv := inv.value k (by simpa [Schedule.bucket] using hk) id
    rwa [hseed, Schedule.bucket, Option.map_some, hx] at hv

-- What is handed down to one of the parents of a bucket.
def storeAt {I : Type} (parentStore : List (I × List V)) (k : Nat) : List (I × List V) :=
  parentStore.map fun c => (c.fst, c.snd[k]?.toList)

omit [PyValue V S] [EachErrors V] [ExecutableStep K V C] in
theorem seedsAt_storeAt {I : Type} [DecidableEq I] {parentStore : List (I × List V)} {k : Nat} :
    seedsAt (storeAt parentStore k) 0 = seedsAt parentStore k := by
  funext id
  induction parentStore with
  | nil          => rfl
  | cons c cs ih =>
    unfold seedsAt storeAt at ih ⊢
    rw [List.map_cons, List.lookup_cons, List.lookup_cons]
    cases id == c.fst with
    | true  => cases hk : c.snd[k]? <;> simp [hk]
    | false => exact ih

omit [PyValue V S] [EachErrors V] [ExecutableStep K V C] in
theorem handedDown_storeAt {I : Type} [DecidableEq I] {parentStore : List (I × List V)} {k : Nat}
    (hc : ∀ c ∈ parentStore, k < c.snd.length) (id : I) :
    handedDown (storeAt parentStore k) id = (seedsAt parentStore k id).map fun v => [v] := by
  induction parentStore with
  | nil          => rfl
  | cons c cs ih =>
    have ih := ih fun c hm => hc c (.tail _ hm)
    unfold seedsAt storeAt handedDown at ih ⊢
    rw [List.map_cons, List.lookup_cons, List.lookup_cons]
    cases id == c.fst with
    | true  => simp [hc c (.head _)]
    | false => exact ih

theorem Request.valueAlone_eq {k : Nat} {e : Entry V} {id : Nat} (hc : ∀ c ∈ parentStore, k < c.snd.length) :
    r.valueAlone isAwaitable isCoroutine p layer (seedsAt parentStore k) e.value e.path (some id) =
      (r.bucketStore isAwaitable isCoroutine p layer [e] (storeAt parentStore k)).bind (·.entry 0 id) := by
  have hf : (fun id : Nat => handedDown (storeAt parentStore k) (some id)) =
      fun id => (seedsAt parentStore k (some id)).map fun v => [v] :=
    funext fun id => handedDown_storeAt hc (some id)
  rw [bucketStore, hf, valueAlone]
  simp only [List.map_cons, List.map_nil, Option.bind_eq_bind, Option.bind_assoc, Option.bind_some]

theorem Request.layerRuns_value {streaming : Bool} {seeds : Option Nat → Option V} {parent : V} {path : Path}
    {id : Option Nat} : (r.layerRuns isAwaitable isCoroutine p streaming).value layer seeds parent path id =
      (r.valueAlone isAwaitable isCoroutine p layer seeds parent path id).getD PyValue.pyNone :=
  rfl

-- Running the steps of a layer over a bucket gives each parent what it gets in a bucket of its own.
theorem Request.runBucket_eq (streaming : Bool) (he : p.Entrywise isAwaitable isCoroutine) (hi : p.view.Inv)
    (hl : layer.Ready p ordered) (hne : parents ≠ []) (hs : parentStore.map Prod.fst = layer.hoistedOutIds)
    (hc : ∀ c ∈ parentStore, c.snd.length = parents.length) :
    r.runBucket isAwaitable isCoroutine p layer parents parentStore =
      (r.layerRuns isAwaitable isCoroutine p streaming).pointwise layer parents parentStore := by
  obtain ⟨nodes, steps, hx⟩ := he.executes hi hl.steps
  obtain ⟨parentId, hp⟩ := Option.isSome_iff_exists.mp (hi.seen_id _ (hi.steps_seen _ hl.parent))
  obtain ⟨results, hr, hlen, hcol, hval⟩ := bucketStore_eq hx hi hl hp hne hs hc
  rw [runBucket, hr]
  refine congrArg some (funext fun id => ?_)
  cases id with
  | none    => rfl
  | some id =>
    show results id = _
    have hcols : (r.layerRuns isAwaitable isCoroutine p streaming).columns layer (some id) = (results id).isSome := by
      have hcol := hcol id
      rw [← List.contains_iff_mem, ← Bool.eq_iff_iff] at hcol
      exact hcol.symm
    rw [hcols]
    cases hid : results id with
    | none     => rfl
    | some col =>
      rw [if_pos (Option.isSome_some)]
      refine congrArg some (List.ext_getElem (by simp [hlen id col hid]) fun k hk hk' => ?_)
      have hk : k < parents.length := by simpa using hk'
      have hlt : ∀ c ∈ parentStore, k < c.snd.length := fun c hm => (hc c hm).symm ▸ hk
      have hs' : (storeAt parentStore k).map Prod.fst = layer.hoistedOutIds := by
        rw [← hs, storeAt, List.map_map]
        rfl
      have hc' : ∀ c ∈ storeAt parentStore k, c.snd.length = [parents[k]].length := by
        intro c hm
        obtain ⟨d, hd, rfl⟩ := List.mem_map.mp hm
        simp [hlt d hd]
      obtain ⟨alone, ha, -, -, hv⟩ := bucketStore_eq (r := r) hx hi hl hp (List.cons_ne_nil parents[k] []) hs' hc'
      have hv := hv 0 parents[k] rfl id
      have hb := hval k parents[k] (List.getElem?_eq_getElem hk) id
      have hcol : results.entry k id = some col[k] := by
        rw [Store.entry, hid, Option.bind_eq_bind, Option.bind_some, List.getElem?_eq_getElem]
      rw [seedsAt_storeAt, ← hb, hcol] at hv
      rw [List.getElem_mapIdx, layerRuns_value, valueAlone_eq hlt, ha, Option.bind_some, hv, Option.getD_some]

end Batch

end Nodes

end Grafast
