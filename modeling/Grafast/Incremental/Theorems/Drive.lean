import Grafast.Incremental.Theorems.Stream

namespace Grafast.Streaming

open Batch Reported

section Head

variable {V : Type} {nn : Bool} {cs : List (Completed V)} {error : LocatedError V} {data : Data V}

theorem completeItems_bubble (h : completeItems nn cs = .bubble error) : nn ∧ .bubble error ∈ cs := by
  unfold completeItems at h
  cases nn
  case false => exact nomatch h
  case true  =>
    simp only [if_true] at h
    cases hf : cs.findSome? (·.bubble?)
    case none    => rw [hf] at h; exact nomatch h
    case some e' =>
      rw [hf] at h
      obtain rfl : e' = error := by simpa using h
      obtain ⟨c, hm, hc⟩ := List.exists_of_findSome?_eq_some hf
      cases c
      case value    => exact nomatch hc
      case bubble b => exact ⟨rfl, Option.some.inj hc ▸ hm⟩

theorem completeItems_value (h : completeItems nn cs = .value data) (hn : nn = true) :
    ∀ error, .bubble error ∉ cs := by
  intro error hm
  subst hn
  unfold completeItems at h
  simp only [if_true] at h
  cases hf : cs.findSome? (·.bubble?)
  case none =>
    rw [List.findSome?_eq_none_iff] at hf
    exact nomatch hf _ hm
  case some e' => rw [hf] at h; exact nomatch h

theorem mapM_eq_some_iff_map {α β : Type} {f : α → Option β} {l : List α} {bs : List β}
    (h : l.mapM f = some bs) : l.map f = bs.map some := by
  have hl : (l.zip bs).map (·.fst) = l := List.map_fst_zip (mapM_length h).ge
  have hs : (l.zip bs).map (·.snd) = bs := List.map_snd_zip (mapM_length h).le
  conv => lhs; rw [← hl]
  conv => rhs; rw [← hs]
  rw [List.map_map, List.map_map]
  exact List.map_congr_left fun z hz => mapM_map_fst h z hz

end Head

section Source

variable {T L S I V : Type} [DecidableEq I] {runs : LayerRuns L S I V} [Host V T] [DecidableEq T]

theorem itemOf_streamItem {m : Exec V (List (Completed V))} {r : Option (Reported V (Completed V))}
    (nn : Bool) (h : Yields m ((value? r).map ([·])) (caught r)) : ItemOf nn (value? r) (streamItem nn m) := by
  unfold streamItem
  cases r
  case none =>
    have hr : m.run ⟨[], []⟩ = none := Option.map_eq_none_iff.mp (h.result ⟨[], []⟩)
    rw [hr]
    rfl
  case some r =>
    obtain ⟨⟨bs, context⟩, hr, hb⟩ := Option.map_eq_some_iff.mp (h.result ⟨[], []⟩)
    obtain rfl : bs = [r.value] := hb
    rw [hr]
    obtain ⟨value, errors⟩ := r
    cases value
    case value data   => exact ⟨_, _, rfl⟩
    case bubble error =>
      cases nn
      case false => exact ⟨_, _, rfl⟩
      case true  => rfl

section Tail

variable {nn : Bool} {O : Grafast.Entry V → Option (Completed V)} {R : Grafast.Entry V → StreamItem V}
  {entries : List (Grafast.Entry V)} {arrivals : Nat → Arrival}

omit [Host V T] [DecidableEq I] [DecidableEq T] in
theorem ItemOf.raised_iff {o : Option (Completed V)} {r : StreamItem V} (h : ItemOf nn o r) :
    r = .raised ↔ o = none := by
  rcases o with _ | data | error
  case none  => exact iff_of_true h rfl
  case value =>
    obtain ⟨_, _, rfl⟩ := h
    exact iff_of_false nofun nofun
  case bubble =>
    refine iff_of_false (fun hr => ?_) nofun
    subst hr
    cases nn
    case false => exact nomatch h
    case true  => exact nomatch (show StreamItem.raised = .item none [error] [] from h)

theorem arriving_cons {start : Nat} {r : StreamItem V} {rs : List (StreamItem V)} :
    arriving arrivals start (r :: rs) = (arrivals start, r) :: arriving arrivals (start + 1) rs := by
  rw [arriving, List.mapIdx_cons, arriving]
  refine congrArg₂ _ rfl (congrArg (List.mapIdx · rs) (funext fun k => ?_))
  rw [Nat.add_assoc, Nat.add_comm 1 k]

theorem arriving_itemOf (h : ∀ i, ItemOf nn (O i) (R i)) (entries : List (Grafast.Entry V))
    (arrivals : Nat → Arrival) (start : Nat) :
    List.Forall₂ (fun o a => ItemOf nn o a.snd) (entries.map O) (arriving arrivals start (entries.map R)) := by
  induction entries generalizing start
  case nil               => exact .nil
  case cons i entries hi =>
    rw [List.map_cons, List.map_cons, arriving_cons]
    exact .cons (h i) (hi (start + 1))

theorem raisesAtOnce_iff {a : Arriving V} : raisesAtOnce a = true ↔ a = (.ready, .raised) := by
  obtain ⟨arrival, result⟩ := a
  cases arrival <;> cases result <;> simp [raisesAtOnce]

-- An item raises in advance if its completion raises at once.
theorem any_raisesAtOnce_iff (h : ∀ i, ItemOf nn (O i) (R i)) (entries : List (Grafast.Entry V))
    (arrivals : Nat → Arrival) (start : Nat) :
    (arriving arrivals start (entries.map R)).any raisesAtOnce = true ↔
      ∃ k, arrivals (start + k) = .ready ∧ (entries.map O)[k]? = some none := by
  simp only [List.any_eq_true, raisesAtOnce_iff, exists_eq_right, arriving, List.mem_iff_getElem?,
    List.getElem?_mapIdx, List.getElem?_map, Option.map_map]
  refine exists_congr fun k => ?_
  cases entries[k]?
  case none   => simp
  case some i => simp [(h i).raised_iff]

omit [DecidableEq T] in
theorem ending_snd {isCaughtError : V → Bool} {path : Path} {raises : Option V} :
    endingItem isCaughtError path raises = if Caught isCaughtError raises then
      .item none (raises.toList.map fun error => located (.raised error) path) [] else .raised := by
  cases raises
  case none       => rfl
  case some error => cases h : isCaughtError error <;> simp [endingItem, Caught, h]

-- A producer delivers its items if and only if none raises where it is reached or started.
omit [DecidableEq T] in
theorem producer_streams_iff (h : ∀ i, ItemOf nn (O i) (R i)) (isCaughtError : V → Bool) (early : Bool)
    (path : Path) (n : Nat) (source : Source V) (entries : List (Grafast.Entry V)) (arrivals : Nat → Arrival) :
    Streams nn (entries.map O) (source.raises.toList.map fun error => located (.raised error) path)
        ((onStreamItems [producer isCaughtError early arrivals path n source (entries.map R)]).map
          handleStreamBatch) ↔
      ItemsSafe nn (Caught isCaughtError source.raises) (entries.map O) ∧
        AdvanceSafe early arrivals n (entries.map O) source := by
  have hi := arriving_itemOf h entries arrivals n
  cases source
  case iterator values raises =>
    rw [producer, onStreamItems_pull]
    exact (drainItems_iff _ _ hi ending_snd).trans (and_iff_left trivial).symm
  case list values =>
    have ha := any_raisesAtOnce_iff h entries arrivals n
    have hd := drainItems_iff true (.ready, exhausted) hi rfl
    rw [producer, onStreamItems_first]
    cases hr : early && (arriving arrivals n (entries.map R)).any raisesAtOnce
    case true =>
      obtain ⟨he, hr⟩ := Bool.and_eq_true_iff.mp hr
      obtain ⟨k, hk, ho⟩ := ha.mp hr
      refine iff_of_false (fun hs => ?_) (fun hs => hs.right he k hk ho)
      obtain ⟨_, hm⟩ := Streams.done_mem hs
      exact absurd hm List.not_mem_nil
    case false =>
      refine hd.trans (and_iff_left fun he k hk ho => ?_).symm
      rw [he, Bool.true_and] at hr
      exact Bool.eq_false_iff.mp hr (ha.mpr ⟨k, hk, ho⟩)

end Tail

section Drive

variable {item : Completer T L S} {label : String} {keys : Option (List I)} {seed : I → V}

omit [DecidableEq I] in
theorem bridge_eq (entries : List (Grafast.Entry V)) :
    (keys.map fun ids => ids.map fun id => (id, entries.map fun _ => seed id)) =
      bridgeOf keys (entries.map (⟨·, seed⟩)) := by
  cases keys
  case none     => rfl
  case some ids => simp [bridgeOf, Function.comp_def]

-- What a streamed field comes to when its initial items have been completed.
def drivenOf (isCaughtError : V → Bool) (e : Grafast.Entry V) (early : Bool) (arrivals : Nat → Arrival)
    (n : Nat) (source : Source V) (items : List (StreamItem V)) : Completed V → Driven V
  | .bubble error => .field (.bubble error)
  | .value data   => .streamed data ((onStreamItems
    [producer isCaughtError early arrivals e.path n source items]).map handleStreamBatch)

theorem driveSource_yields (runs : LayerRuns L S I V) (item : Completer T L S) (label : String)
    (keys : Option (List I)) (seed : I → V) (isCaughtError : V → Bool) (e : Grafast.Entry V) (early : Bool)
    (arrivals : Nat → Arrival) (n : Nat) (source : Source V) :
    ∃ errors, Yields (driveSource runs isCaughtError item label e keys seed early arrivals n source)
      ((((itemEntries e source.values).take n).mapM fun i => value? (completeItem runs item label i
        (layerSeeds (keys.getD []) (some <| seed ·)))).map fun cs =>
          drivenOf isCaughtError e early arrivals n source
            (((itemEntries e source.values).drop n).map fun i => streamItem item.isNonNull
              (completeValues runs.toLayers runs.pointwise item label [i] (bridgeOf keys [⟨i, seed⟩])))
            (completeItems item.isNonNull cs)) errors := by
  have hi : Itemwise runs item := completeValues_itemwise item
  have hh := headItems_yield hi label keys seed ((itemEntries e source.values).take n)
  rw [driveSource]
  simp only [bridge_eq]
  cases hm : ((itemEntries e source.values).take n).mapM fun i =>
      value? (completeItem runs item label i (layerSeeds (keys.getD []) (some <| seed ·)))
  case none =>
    rw [hm] at hh
    exact ⟨[], .ite hh.fail_bind⟩
  case some cs =>
    rw [hm] at hh
    refine ⟨_, .ite (hh.bind (s := fun cs => some (drivenOf isCaughtError e early arrivals n source _
      (completeItems item.isNonNull cs))) (z := (collectItems item.isNonNull cs [] []).snd) fun cs' hc => ?_)⟩
    obtain rfl := Option.some.inj hc
    refine .addErrors_bind ?_
    rw [← collectItems_fst]
    cases (collectItems item.isNonNull cs [] []).fst <;> exact .pure

theorem driveSource_iff {isCaughtError : V → Bool} {e : Grafast.Entry V} {early : Bool} {arrivals : Nat → Arrival}
    {n : Nat} {source : Source V} {context : Context V} :
    let os := outcomes runs item label e keys seed source
    DeliversItems item.isNonNull (os.take n) (os.drop n)
        (source.raises.toList.map fun error => located (.raised error) e.path)
        (((driveSource runs isCaughtError item label e keys seed early arrivals n source).run context).map
          (·.fst)) ↔
      none ∉ os.take n ∧
        ((∃ error, item.isNonNull ∧ some (.bubble error) ∈ os.take n) ∨
          ItemsSafe item.isNonNull (Caught isCaughtError source.raises) (os.drop n) ∧
            AdvanceSafe early arrivals n (os.drop n) source) := by
  intro os
  obtain ⟨errors, hy⟩ := driveSource_yields runs item label keys seed isCaughtError e early arrivals n source
  have ht : os.take n = ((itemEntries e source.values).take n).map fun i => value?
      (completeItem runs item label i (layerSeeds (keys.getD []) (some <| seed ·))) := List.map_take.symm
  have hd : os.drop n = ((itemEntries e source.values).drop n).map fun i => value?
      (completeItem runs item label i (layerSeeds (keys.getD []) (some <| seed ·))) := List.map_drop.symm
  rw [hy.result context]
  cases hm : ((itemEntries e source.values).take n).mapM fun i =>
      value? (completeItem runs item label i (layerSeeds (keys.getD []) (some <| seed ·)))
  case none =>
    obtain ⟨i, hi, ho⟩ := mapM_eq_none_iff.mp hm
    have hn : none ∈ os.take n := ht ▸ List.mem_map.mpr ⟨i, hi, ho⟩
    refine iff_of_false (fun h => ?_) fun h => h.left hn
    obtain ⟨items, hs, _⟩ := h
    rw [hs] at hn
    obtain ⟨_, _, h⟩ := List.mem_map.mp hn
    cases h
  case some cs =>
    have hs : os.take n = cs.map some := ht.trans (mapM_eq_some_iff_map hm)
    have hn : none ∉ os.take n := by
      rw [hs]
      simp
    have hi (items : List (Completed V)) (h : os.take n = items.map some) : items = cs :=
      List.map_injective_iff.mpr (Option.some_injective _) (h.symm.trans hs)
    rw [hd]
    have ho (i : Grafast.Entry V) := itemOf_streamItem item.isNonNull (completeItem_run runs item label keys ⟨i, seed⟩)
    have hp := producer_streams_iff (O := fun i => value? (completeItem runs item label i
      (layerSeeds (keys.getD []) (some <| seed ·)))) ho isCaughtError early e.path n source
        ((itemEntries e source.values).drop n) arrivals
    rw [Option.map_some, ← hp]
    cases hc : completeItems item.isNonNull cs
    case bubble error =>
      obtain ⟨hnn, hb⟩ := completeItems_bubble hc
      refine iff_of_true ⟨cs, hs, by rw [hc]; rfl⟩ ⟨hn, .inl ⟨error, hnn, ?_⟩⟩
      rw [hs]
      exact List.mem_map_of_mem hb
    case value data =>
      have hv : ¬∃ error, item.isNonNull ∧ some (.bubble error) ∈ os.take n := by
        intro ⟨error, hnn, hb⟩
        rw [hs] at hb
        obtain ⟨c, hm, hc'⟩ := List.mem_map.mp hb
        exact completeItems_value hc hnn error (Option.some.inj hc' ▸ hm)
      constructor
      case mp =>
        intro ⟨items, hh, h⟩
        obtain rfl := hi items hh
        rw [hc] at h
        obtain ⟨results, hr, hs⟩ := h
        cases hr
        exact ⟨hn, .inr hs⟩
      case mpr =>
        intro ⟨_, h⟩
        refine ⟨cs, hs, ?_⟩
        rw [hc]
        exact ⟨_, rfl, h.resolve_left hv⟩

-- A streamed field delivers its list, the initial items with the value of the field and the others in
-- batches that one record ends, if and only if nothing that is reached raises what is not caught.
theorem driveStreamValue_delivers_iff (runs : LayerRuns L S I V) (isCaughtError : V → Bool)
    (item : Completer T L S) (label : String) (e : Grafast.Entry V) (keys : Option (List I)) (seed : I → V)
    (early : Bool) (arrivals : Nat → Arrival) (initialCount : Int) (source : Source V) (context : Context V) :
    Delivers item.isNonNull e.path initialCount source (outcomes runs item label e keys seed source)
        (((driveStreamValue runs isCaughtError item label e keys seed early arrivals initialCount
          (.source source)).run context).map (·.fst)) ↔
      DriveSafe isCaughtError item.isNonNull early arrivals initialCount source
        (outcomes runs item label e keys seed source) := by
  unfold Delivers DriveSafe driveStreamValue
  dsimp only
  split
  case isTrue  => exact iff_of_true rfl trivial
  case isFalse =>
    cases headError initialCount.toNat source
    case none       => exact driveSource_iff
    case some error =>
      dsimp only
      by_cases hc : isCaughtError error = true
      case pos =>
        rw [if_pos hc]
        exact iff_of_true rfl hc
      case neg =>
        rw [if_neg hc]
        exact iff_of_false nofun hc

end Drive

end Source

namespace Ticker

inductive Value
  | number (n : Nat)
  | keyError

instance : Host Value Unit where
  isException
    | .keyError => true
    | _         => false
  isNone _ := false
  isUndefined _ := false
  iterate _ := none
  serialize _ value := .ok value
  isTypeOf _ := none
  resolveType _ _ _ := .error .keyError
  ensureValidRuntimeType _ _ _ _ := .error .keyError
  isLeafError _ := false
  errorPath _ := none
  typeName _ := "Int"
  inspect _ := "value"

def runs : LayerRuns Unit Nat Nat Value where
  stepId := id
  hoistedOutIds _ := []
  columns _ _ := true
  value _ _ value _ _ := value
  streaming := true

-- A field `ticks: [Int]` of an iterator that yields a number and then raises a `KeyError`.
def entry : Grafast.Entry Value :=
  ⟨.number 0, [.name "ticks"], [.name "ticks"]⟩

def ticks : Source Value :=
  .iterator [.number 1] (some .keyError)

def tick : Completer Unit Unit Nat :=
  .leaf ()

-- The task that drains the stream ends with the exception: no record completes the stream.
theorem not_delivered : ¬Delivers tick.isNonNull entry.path 0 ticks
    (outcomes runs tick "Query.ticks" entry none (fun _ => .number 0) ticks)
    (((driveStreamValue runs (fun _ => false) tick "Query.ticks" entry none (fun _ => .number 0) false
      (fun _ => .pending) 0 (.source ticks)).run ⟨[], []⟩).map (·.fst)) := by
  intro h
  obtain ⟨items, hi, h⟩ := h
  obtain rfl : items = [] := List.map_eq_nil_iff.mp hi.symm
  obtain ⟨results, hr, hs⟩ := h
  have hr : [StreamResult.incremental [.leaf (.number 1)] []] = results :=
    (Driven.streamed.inj (Option.some.inj hr)).right
  obtain ⟨batches, errors, hb, _⟩ := hs
  have hm : StreamResult.completed errors ∈ results := hb ▸ List.mem_append_right _ (.head _)
  rw [← hr] at hm
  simp at hm

end Ticker

end Grafast.Streaming
