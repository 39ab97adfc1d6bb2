import Grafast.Execute.Theorems.Itemwise

namespace Grafast

open Batch Reported

variable {T L S I V α β γ : Type}

theorem Yields.addStream {stream : StreamRecord V} : Yields (Grafast.addStream stream) (some ()) [] where
  result _ := rfl
  errors h := by
    obtain rfl := Option.some.inj h
    rw [List.append_nil]

theorem Yields.addErrors_bind {errors : List (LocatedError V)} {k : Unit → Exec V β} {r : Option β}
    (h : Yields (k ()) r []) : Yields (Grafast.addErrors errors >>= k) r errors := by
  have ha : Yields (Grafast.addErrors errors) (some ()) errors := .addErrors
  have hb := ha.bind (s := fun _ => r) fun _ _ => h
  rwa [List.append_nil] at hb

theorem Yields.all {m : Exec V (List β)} {f : α → Option (Reported V β)} {l : List α}
    (h : Yields m (l.mapM fun a => value? (f a)) (l.flatMap fun a => caught (f a))) :
    Yields m (value? (Reported.all f l)) (caught (Reported.all f l)) := by
  refine h.congr value?_all.symm fun hs => ?_
  obtain ⟨bs, hb⟩ := Option.isSome_iff_exists.mp hs
  exact .of_eq (caught_all hb).symm

theorem Yields.ite {c : Prop} [Decidable c] {m m' : Exec V α} {k : α → Exec V β} {r : Option β}
    {errors : List (LocatedError V)} (h : Yields ((if c then m else m') >>= k) r errors) :
    Yields (if c then m >>= k else m' >>= k) r errors := by
  split
  case isTrue hc  => rwa [if_pos hc] at h
  case isFalse hc => rwa [if_neg hc] at h

theorem mapM_eq_some_mem {f : α → Option β} {l : List α} {bs : List β} (h : l.mapM f = some bs) :
    ∀ a ∈ l, ∃ b, f a = some b := by
  intro a ha
  refine Option.ne_none_iff_exists'.mp fun hn => ?_
  rw [mapM_eq_none_iff.mpr ⟨a, ha, hn⟩] at h
  cases h

-- A loop over the elements with a property, each of which writes to its own place.
theorem foldlM_yields {p : α → Bool} {s : α → Entry V} {g : α → γ} {w : γ → β → γ}
    {m : Entry V → Nat → Exec V β} {r : α → Option β} {errors : α → List (LocatedError V)}
    {l : List α} {b : List γ} {n k : Nat} (hn : b.length = n)
    (h : ∀ j a, (l.filter p)[j]? = some a → Yields (m (s a) (k + j)) (r a) (errors a)) :
    Yields ((((placesFrom p n l).zip ((l.filter p).map s)).zipIdx k).foldlM (fun slots x => do
        let c ← m x.fst.snd x.snd
        return slots.modify x.fst.fst (w · c)) (b ++ l.map g))
      ((l.mapM fun a => if p a then (r a).map (w (g a)) else some (g a)).map (b ++ ·))
      (l.flatMap fun a => if p a then errors a else []) := by
  induction l generalizing b n k
  case nil         => exact Yields.pure
  case cons a l hi =>
    rw [placesFrom_cons, List.map_cons, mapM_cons, List.flatMap_cons]
    cases hp : p a
    case false =>
      rw [List.filter_cons_of_neg (by simp [hp])] at h ⊢
      have hi := hi (n := n + 1) (b := b ++ [g a]) (by simp [hn]) h
      simpa [Option.map_map, Function.comp_def] using hi
    case true =>
      rw [List.filter_cons_of_pos hp] at h ⊢
      have hi (c : β) := hi (n := n + 1) (b := b ++ [w (g a) c]) (k := k + 1) (by simp [hn])
        fun j a ha => by simpa [Nat.add_assoc, Nat.add_comm 1 j] using h (j + 1) a ha
      rw [List.map_cons]
      simp only [if_true, List.zip_cons_cons, List.zipIdx_cons, List.foldlM_cons, ← hn,
        modify_append_length, bind_assoc, pure_bind]
      refine ((h 0 a rfl).bind (s := fun c => (l.mapM fun a =>
        if p a then (r a).map (w (g a)) else some (g a)).map ((b ++ [w (g a) c]) ++ ·))
          fun c _ => ?_).congr ?_ fun _ => .refl _
      · have hi := hi c
        rw [hn]
        simpa using hi
      · cases r a <;> simp [Option.map_map, Function.comp_def]

variable [DecidableEq I] {runs : LayerRuns L S I V} [Host V T] [DecidableEq T]

section Head

variable {item : Completer T L S} {keys : Option (List I)} {xs : List (Seeded I V)}

theorem gather_at {l : List α} {a : α} {k : Nat} (hk : l[k]? = some a) (n : Nat) :
    gather l (List.replicate n k) = some (List.replicate n a) := by
  have hm : List.replicate n a = (List.replicate n k).map fun _ => a := by simp
  rw [gather, hm]
  exact mapM_eq_some_map_iff.mpr fun i hi => List.eq_of_mem_replicate hi ▸ hk

-- The seeds of a list are those of its items.
omit [DecidableEq I] in
theorem bridge_at {x : Seeded I V} {k : Nat} (hk : xs[k]? = some x) (items : List (Entry V)) :
    Bridge.gather (bridgeOf keys xs) (List.replicate items.length k) =
      some (bridgeOf keys (items.map (⟨·, x.seed⟩))) := by
  refine bridge_gather fun id => ?_
  rw [gather_at (a := x.seed id) (by rw [List.getElem?_map, hk]; rfl), List.map_map]
  simp [Function.comp_def, List.map_const']

-- The head of a streamed list is completed on its own.
def HeadItemwise (runs : LayerRuns L S I V) (c : Completer T L S) : Prop :=
  ∀ (n : Nat) (label : Option String) (fieldLabel : String) (keys : Option (List I))
    (xs : List (Seeded I V)) (k : Nat) (x : Seeded I V), xs[k]? = some x →
    Yields (completeStreamValue runs.toLayers runs.pointwise c n label fieldLabel x.entry (bridgeOf keys xs) k)
      (value? (completeHead runs c n fieldLabel x.entry (x.seeds keys)))
      (caught (completeHead runs c n fieldLabel x.entry (x.seeds keys)))

theorem headItems_yield (h : Itemwise runs item) (label : String) (keys : Option (List I)) (seed : I → V)
    (items : List (Entry V)) :
    Yields (if items.isEmpty then pure [] else
        completeValues runs.toLayers runs.pointwise item label items (bridgeOf keys (items.map (⟨·, seed⟩))))
      (items.mapM fun e => value? (completeItem runs item label e (layerSeeds (keys.getD []) (some <| seed ·))))
      (items.flatMap fun e => caught (completeItem runs item label e
        (layerSeeds (keys.getD []) (some <| seed ·)))) := by
  cases items
  case nil          => exact .pure
  case cons e items =>
    have h := h label keys ((e :: items).map (⟨·, seed⟩))
    rw [List.map_map, List.mapM_map, List.flatMap_map] at h
    have hm : (e :: items).map ((·.entry) ∘ (Seeded.mk · seed)) = e :: items := List.map_id _
    rw [hm] at h
    exact h

theorem HeadItemwise.list (h : Itemwise runs item) : HeadItemwise runs (.list item) := by
  intro n label fieldLabel keys xs k x hk
  rw [completeStreamValue, completeHead]
  split
  case isTrue  => exact .pure
  case isFalse =>
    cases Host.iterate x.entry.value
    case none        => exact .pure
    case some result =>
      cases result
      case error _   => exact .fail fun _ => rfl
      case ok values =>
        dsimp only
        rw [bridge_at hk]
        refine .lift_bind ?_
        have hh := (headItems_yield h fieldLabel keys x.seed ((itemEntries x.entry values).take n)).all
        cases ha : Reported.all (fun e => completeItem runs item fieldLabel e
            (layerSeeds (keys.getD []) (some <| x.seed ·))) ((itemEntries x.entry values).take n)
        case none =>
          rw [ha] at hh
          have ha' : Reported.all (fun e => completeItem runs item fieldLabel e (x.seeds keys))
            ((itemEntries x.entry values).take n) = none := ha
          rw [ha']
          exact .ite hh.fail_bind
        case some items =>
          rw [ha] at hh
          have ha' : Reported.all (fun e => completeItem runs item fieldLabel e (x.seeds keys))
            ((itemEntries x.entry values).take n) = some items := ha
          rw [ha']
          refine .ite (hh.bind (s := fun bs => some (collectItems item.isNonNull bs [] []).fst)
            (z := (collectItems item.isNonNull items.value [] []).snd) fun bs hb => ?_)
          obtain rfl := Option.some.inj hb
          refine .addErrors_bind ?_
          cases (collectItems item.isNonNull items.value [] []).fst
          case bubble error => exact .pure
          case value data   =>
            have hb : Bridge.gather (bridgeOf keys xs) [k] = some _ := bridge_at hk [x.entry]
            dsimp only
            rw [hb]
            exact .lift_bind Yields.addStream.map

-- A stream of what is no list fails.
theorem HeadItemwise.leaf {leafType : T} : HeadItemwise runs (.leaf leafType) := by
  intro n label fieldLabel keys xs k x hk
  simp only [completeStreamValue, completeHead]
  exact .fail fun _ => rfl

theorem HeadItemwise.object {objectType : T} {child : ObjectPlan T L S} :
    HeadItemwise runs (.object objectType child) := by
  intro n label fieldLabel keys xs k x hk
  simp only [completeStreamValue, completeHead]
  exact .fail fun _ => rfl

theorem HeadItemwise.abstract {abstractType : T} {plans : T → ObjectPlan T L S} :
    HeadItemwise runs (.abstract abstractType plans) := by
  intro n label fieldLabel keys xs k x hk
  simp only [completeStreamValue, completeHead]
  exact .fail fun _ => rfl

theorem HeadItemwise.nonNull {inner : Completer T L S} (h : HeadItemwise runs inner) :
    HeadItemwise runs (.nonNull inner) := by
  intro n label fieldLabel keys xs k x hk
  rw [completeStreamValue, completeHead]
  exact h n label fieldLabel keys xs k x hk

end Head

section Field

variable {f : FieldPlan T L S} {ps : List (Parent I V)} {columns : I → Bool}

-- What completion makes of the value of a field.
def completeFieldValue (runs : LayerRuns L S I V) (f : FieldPlan T L S) (x : Seeded I V) :
    Option (Reported V (Completed V)) :=
  let seeds := layerSeeds (runs.childHoistedOutIds f.completer) (some <| x.seed ·)
  match f.stream, runs.streaming with
  | some (.error message), true       => some (.of (.bubbleAt (.graphQLError message) x.entry.path))
  | some (.args initialCount _), true =>
    if initialCount < 0 then
      some (.of (.bubbleAt initialCountError x.entry.path))
    else
      completeHead runs f.completer initialCount.toNat f.fieldLabel x.entry seeds
  | _, _                              => completeItem runs f.completer f.fieldLabel x.entry seeds

omit [DecidableEq T] in
theorem writeField_dead {p : Parent I V} (h : p.slot.isLive = false) :
    writeField runs f p.entry columns p.value p.slot = some (.of p.slot) := by
  obtain ⟨_, _, _, _, _⟩ := f
  simp [writeField, h]

omit [DecidableEq T] in
theorem writeField_live {p : Parent I V} (h : p.slot.isLive) :
    writeField runs f p.entry columns p.value p.slot =
      if columns (runs.stepId f.step) && (runs.childHoistedOutIds f.completer).all columns then
        (completeFieldValue runs f (p.field f.responseName (runs.stepId f.step))).map
          (·.write f.responseName f.completer.isNonNull p.slot)
      else
        none := by
  obtain ⟨_, _, _, _, _⟩ := f
  rw [writeField, if_pos h]
  rfl

-- A field reports what is caught below it, and the violation that it catches.
def caughtAt (isNonNull : Bool) (r : Option (Reported V (Completed V))) : List (LocatedError V) :=
  r.elim [] fun r => r.errors ++ caughtErrors isNonNull [r.value]

theorem value?_write {r : Option (Reported V (Completed V))} {name : String} {nn : Bool} {slot : Slot V} :
    value? (r.map (·.write name nn slot)) = (value? r).map (writeValue name nn slot) := by
  cases r <;> rfl

theorem caught_write {r : Option (Reported V (Completed V))} {name : String} {nn : Bool} {slot : Slot V} :
    caught (r.map (·.write name nn slot)) = caughtAt nn r := by
  cases r <;> rfl

omit [DecidableEq I] [DecidableEq T] [Host V T] in
theorem caughtErrors_eq_flatMap {nn : Bool} {l : List (Completed V)} :
    caughtErrors nn l = l.flatMap fun c => caughtErrors nn [c] := by
  induction l
  case nil         => rfl
  case cons c l hi =>
    rw [List.flatMap_cons, ← hi]
    exact List.filterMap_append (l := [c])

-- The violations that a field catches are those of its values.
theorem caught_append {q : α → Option (Reported V (Completed V))} {nn : Bool} {l : List α}
    {bs : List (Completed V)} (h : (l.mapM fun a => value? (q a)) = some bs) :
    ((l.flatMap fun a => caught (q a)) ++ caughtErrors nn bs).Perm (l.flatMap fun a => caughtAt nn (q a)) := by
  have hl : (l.zip bs).map (·.fst) = l := List.map_fst_zip (mapM_length h).ge
  have hb : (l.zip bs).map (·.snd) = bs := List.map_snd_zip (mapM_length h).le
  have hq := mapM_map_fst h
  generalize l.zip bs = zs at hl hb hq
  subst hl hb
  rw [caughtErrors_eq_flatMap, List.flatMap_map, List.flatMap_map, List.flatMap_map]
  refine (List.flatMap_append_perm _ _ _).trans (.of_eq (List.flatMap_congr fun z hz => ?_))
  rw [value?_eq_some (hq z hz)]
  rfl

theorem Yields.caughtAt {m : Exec V (Completed V)} {q : Option (Reported V (Completed V))} {nn : Bool}
    (h : Yields m (value? q) (caught q)) :
    Yields (do let c ← m; Grafast.addErrors (caughtErrors nn [c]); return c) (value? q) (Grafast.caughtAt nn q) := by
  cases q
  case none   => exact h.fail_bind
  case some r =>
    refine h.bind (s := some) fun c hc => ?_
    obtain rfl := Option.some.inj hc
    exact .addErrors_bind .pure

-- The values of a field are completed for the live parents.
theorem itemwiseLive_yields (name label : String) (id : I) (ps : List (Parent I V)) {completer : Completer T L S}
    (h : Itemwise runs completer) :
    Yields (do
        let completed ← completeValues runs.toLayers runs.pointwise completer label
          (((ps.filter (·.slot.isLive)).map (Parent.field name id)).map (·.entry))
          (bridgeOf (bridgeKeys (runs.childHoistedOutIds completer))
            ((ps.filter (·.slot.isLive)).map (Parent.field name id)))
        addErrors (caughtErrors completer.isNonNull completed)
        return scatter (writeValue name completer.isNonNull) (placesFrom (·.slot.isLive) 0 ps)
          completed (ps.map (·.slot)))
      (ps.mapM fun p => if p.slot.isLive then
        (value? (completeItem runs completer label (p.field name id).entry
          (layerSeeds (runs.childHoistedOutIds completer) (some <| (p.field name id).seed ·)))).map
            (writeValue name completer.isNonNull p.slot)
        else some p.slot)
      (ps.flatMap fun p => if p.slot.isLive then
        Grafast.caughtAt completer.isNonNull (completeItem runs completer label (p.field name id).entry
          (layerSeeds (runs.childHoistedOutIds completer) (some <| (p.field name id).seed ·))) else []) := by
  have hx := h label (bridgeKeys (runs.childHoistedOutIds completer))
    ((ps.filter (·.slot.isLive)).map (Parent.field name id))
  simp only [Seeded.seeds, bridgeKeys_getD] at hx
  rw [mapM_scatter]
  rw [List.mapM_map] at hx
  cases hm : (ps.filter (·.slot.isLive)).mapM fun p => value? (completeItem runs completer label
      (p.field name id).entry (layerSeeds (runs.childHoistedOutIds completer)
        (some <| (p.field name id).seed ·)))
  case none           => exact (hx.congr (s := none) hm fun _ => .refl _).fail_bind
  case some completed =>
    have hb := hx.congr (s := some completed) hm fun _ => .refl _
    refine (hb.bind
      (s := fun completed => some (scatter (writeValue name completer.isNonNull)
        (placesFrom (·.slot.isLive) 0 ps) completed (ps.map (·.slot))))
      (z := caughtErrors completer.isNonNull completed) fun bs hc => ?_).congr rfl fun _ => ?_
    · obtain rfl := Option.some.inj hc
      exact .addErrors_bind .pure
    · rw [List.flatMap_map, ← flatMap_filter]
      exact caught_append hm

-- The head of the list of one parent.
def streamHead (runs : LayerRuns L S I V) (completer : Completer T L S) (label : String)
    (bridge : Option (Bridge I V)) (directive : StreamDirective) (e : Entry V) (k : Nat) :
    Exec V (Completed V) :=
  match directive with
  | .error message               => pure (.bubbleAt (.graphQLError message) e.path)
  | .args initialCount label' =>
    if initialCount < 0 then
      pure (.bubbleAt initialCountError e.path)
    else
      completeStreamValue runs.toLayers runs.pointwise completer initialCount.toNat label' label e bridge k

theorem streamHead_yields (name : String) {label : String} (step : S) {completer : Completer T L S}
    {directive : StreamDirective} {xs : List (Seeded I V)} {x : Seeded I V} {k : Nat}
    (hs : runs.streaming) (hh : HeadItemwise runs completer) (hk : xs[k]? = some x) :
    let r := completeFieldValue runs ⟨name, label, step, completer, some directive⟩ x
    Yields (streamHead runs completer label (bridgeOf (bridgeKeys (runs.childHoistedOutIds completer)) xs)
      directive x.entry k) (value? r) (caught r) := by
  unfold streamHead completeFieldValue
  simp only [hs]
  cases directive
  case error message             => exact .pure
  case args initialCount label' =>
    by_cases hn : initialCount < 0
    case pos =>
      simp only [hn, if_true]
      exact .pure
    case neg =>
      simp only [hn, if_false]
      have hh := hh initialCount.toNat label' label (bridgeKeys (runs.childHoistedOutIds completer)) xs k x hk
      simp only [Seeded.seeds, bridgeKeys_getD] at hh
      exact hh

-- The heads of the live parents are completed one after another.
theorem streamHeads_yield (name label : String) (step : S) {completer : Completer T L S}
    (directive : StreamDirective) (id : I) (ps : List (Parent I V))
    (hs : runs.streaming) (hh : HeadItemwise runs completer) :
    let f : FieldPlan T L S := ⟨name, label, step, completer, some directive⟩
    let xs := (ps.filter (·.slot.isLive)).map (Parent.field name id)
    Yields ((((placesFrom (·.slot.isLive) 0 ps).zip (xs.map (·.entry))).zipIdx).foldlM
        (fun slots x => do
          let c ← (do
            let c ← streamHead runs completer label
              (bridgeOf (bridgeKeys (runs.childHoistedOutIds completer)) xs) directive x.fst.snd x.snd
            addErrors (caughtErrors completer.isNonNull [c])
            return c)
          return slots.modify x.fst.fst (writeValue name completer.isNonNull · c)) (ps.map (·.slot)))
      (ps.mapM fun p => if p.slot.isLive then
        (value? (completeFieldValue runs f (p.field name id))).map
          (writeValue name completer.isNonNull p.slot) else some p.slot)
      (ps.flatMap fun p => if p.slot.isLive then
        caughtAt completer.isNonNull (completeFieldValue runs f (p.field name id)) else []) := by
  intro f xs
  have hx : xs.map (·.entry) = (ps.filter (·.slot.isLive)).map fun p => (p.field name id).entry := by
    rw [List.map_map]
    rfl
  rw [hx]
  refine (foldlM_yields (b := []) (w := writeValue name completer.isNonNull)
    (r := fun p => value? (completeFieldValue runs f (p.field name id)))
    (m := fun e k => do
      let c ← streamHead runs completer label
        (bridgeOf (bridgeKeys (runs.childHoistedOutIds completer)) xs) directive e k
      addErrors (caughtErrors completer.isNonNull [c])
      return c) rfl fun j p hj => ?_).congr ?_ fun _ => .refl _
  · rw [Nat.zero_add]
    refine (streamHead_yields name step hs hh ?_).caughtAt
    rw [List.getElem?_map, hj]
    rfl
  · simp only [List.nil_append, Option.map_id']

theorem completeField_itemwise (ps : List (Parent I V)) (columns : I → Bool)
    (h : Itemwise runs f.completer) (hh : HeadItemwise runs f.completer) :
    Yields (completeField runs.toLayers runs.pointwise f (ps.map (·.entry)) (Parent.store columns ps) (ps.map (·.slot)))
      (ps.mapM fun p => value? (writeField runs f p.entry columns p.value p.slot))
      (ps.flatMap fun p => caught (writeField runs f p.entry columns p.value p.slot)) := by
  have hl : livePlaces (ps.map (·.slot)) = placesFrom (·.slot.isLive) 0 ps := placesFrom_map
  by_cases hp : ps.filter (·.slot.isLive) = []
  case pos =>
    have hd (p) (hm : p ∈ ps) : p.slot.isLive = false :=
      Bool.eq_false_iff.mpr (List.filter_eq_nil_iff.mp hp p hm)
    have hn : (livePlaces (ps.map (·.slot))).isEmpty := by
      rw [hl, List.isEmpty_iff, placesFrom_eq_nil_iff, hp]
    have hw (p) (hm : p ∈ ps) : writeField runs f p.entry columns p.value p.slot = some (.of p.slot) :=
      writeField_dead (hd p hm)
    rw [mapM_congr (g := fun p => some p.slot) fun p hm => by rw [hw p hm]; rfl, mapM_some,
      List.flatMap_eq_nil_iff.mpr fun p hm => by rw [hw p hm]; rfl]
    obtain ⟨name, label, step, completer, stream⟩ := f
    rw [completeField]
    simp only [hn, if_true]
    exact .pure
  case neg =>
    have hn : (livePlaces (ps.map (·.slot))).isEmpty = false := by
      rw [hl]
      exact List.isEmpty_eq_false_iff.mpr fun hn => hp (placesFrom_eq_nil_iff.mp hn)
    have hnone (hc : (columns (runs.stepId f.step) &&
        (runs.childHoistedOutIds f.completer).all columns) = false) :
        (ps.mapM fun p => value? (writeField runs f p.entry columns p.value p.slot)) = none := by
      obtain ⟨p, hq⟩ := List.exists_mem_of_ne_nil _ hp
      rw [List.mem_filter] at hq
      refine mapM_eq_none_iff.mpr ⟨p, hq.left, ?_⟩
      rw [writeField_live hq.right, hc]
      rfl
    have hg := gather_store ps columns (runs.stepId f.step)
    obtain ⟨name, label, step, completer, stream⟩ := f
    rw [completeField]
    simp only [hn, Bool.false_eq_true, if_false]
    cases hc : columns (runs.stepId step)
    case false =>
      rw [hnone (by rw [hc, Bool.false_and]), Parent.store, hc]
      exact .fail fun _ => rfl
    case true =>
      have hst : Parent.store columns ps (runs.stepId step) =
        some (ps.map (·.value (runs.stepId step))) := if_pos hc
      rw [hc, hst, Option.bind_some] at hg
      rw [hst]
      refine .lift_bind ?_
      simp only [hg, if_true]
      refine .lift_bind ?_
      rw [gather_parents]
      refine .lift_bind ?_
      rw [hoistBridgeForField_eq name (runs.stepId step), fieldEntries_eq]
      cases ha : (runs.childHoistedOutIds completer).all columns
      case false =>
        rw [hnone (by rw [hc, ha]; rfl)]
        exact .fail fun _ => rfl
      case true =>
        refine .lift_bind ?_
        rw [hl]
        have hk : (columns (runs.stepId step) && (runs.childHoistedOutIds completer).all columns) = true := by
          rw [hc, ha]
          rfl
        have hf (p : Parent I V) (hd : p.slot.isLive) :
            writeField runs ⟨name, label, step, completer, stream⟩ p.entry columns p.value p.slot =
              (completeFieldValue runs ⟨name, label, step, completer, stream⟩
                (p.field name (runs.stepId step))).map (·.write name completer.isNonNull p.slot) :=
          (writeField_live hd).trans (if_pos hk)
        have hv : (ps.mapM fun p => value? (writeField runs ⟨name, label, step, completer, stream⟩ p.entry
            columns p.value p.slot)) = ps.mapM fun p => if p.slot.isLive then
              (value? (completeFieldValue runs ⟨name, label, step, completer, stream⟩
                (p.field name (runs.stepId step)))).map (writeValue name completer.isNonNull p.slot)
              else some p.slot := by
          refine mapM_congr fun p _ => ?_
          cases hd : p.slot.isLive
          case false => rw [writeField_dead hd]; rfl
          case true  => rw [hf p hd, value?_write]; rfl
        have he : (ps.flatMap fun p => caught (writeField runs ⟨name, label, step, completer, stream⟩ p.entry
            columns p.value p.slot)) = ps.flatMap fun p => if p.slot.isLive then
              caughtAt completer.isNonNull (completeFieldValue runs ⟨name, label, step, completer, stream⟩
                (p.field name (runs.stepId step))) else [] := by
          refine List.flatMap_congr fun p _ => ?_
          cases hd : p.slot.isLive
          case false => rw [writeField_dead hd]; rfl
          case true  => rw [hf p hd, caught_write]; rfl
        rw [hv, he]
        cases stream
        case none           => exact itemwiseLive_yields name label _ ps h
        case some directive =>
          cases hs : runs.streaming
          case false =>
            have hi := itemwiseLive_yields name label (runs.stepId step) ps h
            simpa only [completeFieldValue, hs] using hi
          case true  =>
            have hw := streamHeads_yield name label step directive (runs.stepId step) ps hs hh
            simp only [bind_assoc, pure_bind, streamHead] at hw
            cases directive
            case error message           => exact hw
            case args initialCount label' =>
              by_cases hn : initialCount < 0
              case pos =>
                simp only [hn, if_true, pure_bind] at hw ⊢
                exact hw
              case neg =>
                simp only [hn, if_false] at hw ⊢
                exact hw

end Field

section Fields

variable {f : FieldPlan T L S} {fs : List (FieldPlan T L S)} {columns : I → Bool} {e : Entry V} {value : I → V}
  {slot : Slot V}

omit [DecidableEq T] in
theorem value?_writeFields_cons :
    value? (writeFields runs (f :: fs) e columns value slot) =
      (value? (writeField runs f e columns value slot)).bind fun slot =>
        value? (writeFields runs fs e columns value slot) := by
  rw [writeFields]
  cases writeField runs f e columns value slot
  case none         => rfl
  case some written =>
    show value? ((writeFields runs fs e columns value written.value).bind _) = _
    cases h : writeFields runs fs e columns value written.value <;> simp [value?, h]

omit [DecidableEq T] in
theorem caught_writeFields_cons {written last : Slot V}
    (h : value? (writeField runs f e columns value slot) = some written)
    (hl : value? (writeFields runs fs e columns value written) = some last) :
    caught (writeFields runs (f :: fs) e columns value slot) =
      caught (writeField runs f e columns value slot) ++ caught (writeFields runs fs e columns value written) := by
  rw [writeFields, value?_eq_some h]
  show caught ((writeFields runs fs e columns value written).bind _) = _
  rw [value?_eq_some hl]
  rfl

theorem walkOutput_itemwise (columns : I → Bool) (ps : List (Parent I V))
    (h : ∀ f ∈ fs, Itemwise runs f.completer ∧ HeadItemwise runs f.completer) :
    Yields (walkOutput runs.toLayers runs.pointwise fs (ps.map (·.entry)) (Parent.store columns ps) (ps.map (·.slot)))
      (ps.mapM fun p => value? (writeFields runs fs p.entry columns p.value p.slot))
      (ps.flatMap fun p => caught (writeFields runs fs p.entry columns p.value p.slot)) := by
  induction fs generalizing ps
  case nil =>
    simp only [walkOutput, writeFields, value?, Option.map_some, Reported.of, mapM_some]
    refine Yields.pure.congr rfl fun _ => .of_eq ?_
    exact (List.flatMap_eq_nil_iff.mpr fun _ _ => rfl).symm
  case cons f fs hi =>
    have hf := completeField_itemwise ps columns (h f (.head _)).left (h f (.head _)).right
    simp only [walkOutput, value?_writeFields_cons, mapM_bind]
    cases hm : ps.mapM fun p => value? (writeField runs f p.entry columns p.value p.slot)
    case none =>
      rw [hm] at hf
      exact hf.fail_bind
    case some slots =>
      have hx : (ps.zip slots).map (·.fst) = ps := List.map_fst_zip (mapM_length hm).ge
      have hs : (ps.zip slots).map (·.snd) = slots := List.map_snd_zip (mapM_length hm).le
      have hv := mapM_map_fst hm
      have hw := hi ((ps.zip slots).map Parent.after) fun f hf => h f (.tail _ hf)
      have he : ((ps.zip slots).map Parent.after).map (·.entry) = ps.map (·.entry) := by
        conv => rhs; rw [← hx, List.map_map]
        rw [List.map_map]
        rfl
      have hst : Parent.store columns ((ps.zip slots).map Parent.after) = Parent.store columns ps := by
        funext id
        unfold Parent.store
        conv => rhs; rw [← hx, List.map_map]
        rw [List.map_map]
        rfl
      have hsl : ((ps.zip slots).map Parent.after).map (·.slot) = slots := by
        conv => rhs; rw [← hs]
        rw [List.map_map]
        rfl
      rw [he, hst, hsl, List.mapM_map, List.flatMap_map] at hw
      rw [hm] at hf
      refine (hf.bind
        (s := fun slots => (ps.zip slots).mapM fun x =>
          value? (writeFields runs fs x.fst.entry columns x.fst.value x.snd))
        (z := (ps.zip slots).flatMap fun x =>
          caught (writeFields runs fs x.fst.entry columns x.fst.value x.snd))
        fun slots' h => ?_).congr rfl fun hs => ?_
      · obtain rfl := Option.some.inj h
        exact hw
      · obtain ⟨last, hl⟩ := Option.isSome_iff_exists.mp hs
        have hc : (ps.flatMap fun p => caught (writeFields runs (f :: fs) p.entry columns p.value p.slot)) =
            (ps.zip slots).flatMap fun x =>
              caught (writeField runs f x.fst.entry columns x.fst.value x.fst.slot) ++
                caught (writeFields runs fs x.fst.entry columns x.fst.value x.snd) := by
          conv => lhs; rw [← hx, List.flatMap_map]
          refine List.flatMap_congr fun x hm => ?_
          obtain ⟨_, hl⟩ := mapM_eq_some_mem hl x hm
          exact caught_writeFields_cons (hv x hm) hl
        have hp : (ps.flatMap fun p => caught (writeField runs f p.entry columns p.value p.slot)) =
            (ps.zip slots).flatMap fun x =>
              caught (writeField runs f x.fst.entry columns x.fst.value x.fst.slot) := by
          conv => lhs; rw [← hx, List.flatMap_map]
        rw [hc, hp]
        exact List.flatMap_append_perm ..

theorem executeObjectPlan_itemwise {layer : L}
    (h : ∀ f ∈ fs, Itemwise runs f.completer ∧ HeadItemwise runs f.completer) :
    ItemwiseObject runs ⟨fs, layer⟩ := by
  intro xs
  have hw := walkOutput_itemwise (runs.columns layer) (xs.map (·.parent runs layer)) h
  have he : (xs.map (·.parent runs layer)).map (·.entry) = xs.map (·.entry) := by
    rw [List.map_map]
    rfl
  have hl : (xs.map (·.parent runs layer)).map (·.slot) = (xs.map (·.entry)).map fun _ => .live [] := by
    rw [List.map_map, List.map_map]
    rfl
  have hp (x : Seeded I V) : completeParent runs ⟨fs, layer⟩ x.entry (some <| x.seed ·) =
      (writeFields runs fs (x.parent runs layer).entry (runs.columns layer) (x.parent runs layer).value
        (x.parent runs layer).slot).map (·.map (·.assemble)) := by
    simp only [completeParent, Option.isSome_some]
    rw [if_pos (by simp)]
    rfl
  rw [he, hl] at hw
  rw [executeObjectPlan, pointwise_eq]
  refine .lift_bind (hw.map.congr ?_ fun _ => .of_eq ?_)
  · rw [List.mapM_map, ← mapM_map_const]
    refine mapM_congr fun x _ => ?_
    rw [hp, Function.comp_apply]
    cases writeFields runs fs (x.parent runs layer).entry (runs.columns layer) (x.parent runs layer).value
      (x.parent runs layer).slot <;> rfl
  · rw [List.flatMap_map]
    refine List.flatMap_congr fun x _ => ?_
    rw [hp]
    cases writeFields runs fs (x.parent runs layer).entry (runs.columns layer) (x.parent runs layer).value
      (x.parent runs layer).slot <;> rfl

end Fields

mutual

-- Completion by columns completes every value on its own, with the heads of the streams below it.
theorem completeValues_itemwise : (c : Completer T L S) → Itemwise runs c
  | .leaf _           => .leaf
  | .nonNull inner    => .nonNull (completeValues_itemwise inner)
  | .list item        => .list (completeValues_itemwise item)
  | .object _ child   => .object (objects_itemwise child)
  | .abstract _ plans => .abstract fun type => objects_itemwise (plans type)

theorem heads_itemwise : (c : Completer T L S) → HeadItemwise runs c
  | .leaf _           => .leaf
  | .nonNull inner    => .nonNull (heads_itemwise inner)
  | .list item        => .list (completeValues_itemwise item)
  | .object _ _       => .object
  | .abstract _ _     => .abstract

theorem objects_itemwise : (op : ObjectPlan T L S) → ItemwiseObject runs op
  | ⟨fields, _⟩ => executeObjectPlan_itemwise (fields_itemwise fields)

theorem fields_itemwise : (fs : List (FieldPlan T L S)) →
    ∀ f ∈ fs, Itemwise runs f.completer ∧ HeadItemwise runs f.completer
  | [],      _, h => nomatch h
  | f :: fs, g, h => by
    cases h
    case head     => exact field_itemwise f
    case tail _ h => exact fields_itemwise fs g h

theorem field_itemwise : (f : FieldPlan T L S) → Itemwise runs f.completer ∧ HeadItemwise runs f.completer
  | ⟨_, _, _, completer, _⟩ => ⟨completeValues_itemwise completer, heads_itemwise completer⟩

end

end Grafast
