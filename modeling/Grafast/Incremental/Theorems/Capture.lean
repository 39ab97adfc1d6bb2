import Grafast.Incremental.Group
import Grafast.Incremental.Theorems.Walk

namespace Grafast

namespace Registry

variable {U : Type}

-- The records at the prefixes of a path.
def above (registry : Registry U) (path : Path) : Registry U :=
  registry.filter fun record => decide (record.path <+: path)

theorem above_append (registry records : Registry U) (path : Path) :
    above (registry ++ records) path = registry.above path ++ above records path :=
  List.filter_append ..

variable [DecidableEq U]

theorem recordsAbove_above (registry : Registry U) (usage : U) {p q : Path} (h : q <+: p) :
    (registry.above p).recordsAbove usage q = registry.recordsAbove usage q := by
  unfold recordsAbove above
  rw [List.filterMap_filter]
  congr
  funext record
  by_cases hr : record.path <+: q
  · rw [decide_eq_true (hr.trans h), if_pos rfl]
  · rw [dif_neg (fun hc => hr hc.2)]
    split <;> rfl

theorem lookupRecord_above (registry : Registry U) (usage : U) {p q : Path} (h : q <+: p) :
    (registry.above p).lookupRecord usage q = registry.lookupRecord usage q := by
  rw [lookupRecord, recordsAbove_above registry usage h]
  rfl

theorem has_above (registry : Registry U) (usage : U) {p q : Path} (h : q <+: p) :
    (registry.above p).has usage q = registry.has usage q := by
  rw [Bool.eq_iff_iff]
  simp only [has, above, List.any_eq_true, List.mem_filter, decide_eq_true_eq]
  constructor
  · rintro ⟨record, ⟨hm, -⟩, hr⟩
    exact ⟨record, hm, hr⟩
  · rintro ⟨record, hm, hr⟩
    exact ⟨record, ⟨hm, hr.2 ▸ h⟩, hr⟩

variable [DeferUsage U]

-- New records at a path are made in view of the records above it, and are seen from below it only.
theorem addNewDeferredFragments_above (registry : Registry U) (usages : List U) (p q : Path) :
    (registry.addNewDeferredFragments usages q).above p =
      if q <+: p then (registry.above p).addNewDeferredFragments usages q else registry.above p := by
  unfold addNewDeferredFragments
  induction usages generalizing registry with
  | nil => simp
  | cons usage usages ih =>
    rw [List.foldl_cons, ih, List.foldl_cons]
    by_cases h : q <+: p
    · rw [if_pos h, if_pos h, has_above registry usage h]
      cases registry.has usage q with
      | true  => simp
      | false =>
        have hlookup : (fun u => (registry.above p).lookupRecord u q) = (registry.lookupRecord · q) :=
          funext fun u => lookupRecord_above registry u h
        simp only [Bool.false_eq_true, if_false, above_append, hlookup]
        simp [above, h]
    · rw [if_neg h, if_neg h]
      cases registry.has usage q with
      | true  => simp
      | false => simp [above, h]

end Registry

namespace Incremental

open Batch

variable {T U F V : Type}

def Event.isDefer : Event U F V → Bool
  | .defer _ _ _ => true
  | _            => false

def Event.isMint : Event U F V → Bool
  | .mint _ _ => true
  | _         => false

section

variable [DecidableEq U]

theorem captureDeferGroups_above (registry : Registry U) (deferred : Deferred U F) (parent : V) (path : Path) :
    captureDeferGroups (registry.above path) deferred parent path =
      captureDeferGroups registry deferred parent path := by
  have hlookup : ((registry.above path).lookupRecord · path) = (registry.lookupRecord · path) :=
    funext fun u => registry.lookupRecord_above u List.prefix_rfl
  rw [captureDeferGroups, captureDeferGroups, hlookup]

variable [DeferUsage U]

theorem mintInto_of_not_mint {event : Event U F V} (h : event.isMint = false) (registry : Registry U) :
    mintInto registry event = registry := by
  cases event <;> first | rfl | cases h

theorem foldl_mintInto_of_not_mint {events : List (Event U F V)} (h : ∀ event ∈ events, event.isMint = false)
    (registry : Registry U) : events.foldl mintInto registry = registry := by
  induction events with
  | nil               => rfl
  | cons event events ih =>
    rw [List.foldl_cons, mintInto_of_not_mint (h event (.head _)), ih fun event he => h event (.tail _ he)]

theorem mintInto_above (registry : Registry U) (event : Event U F V) (p : Path) :
    (mintInto registry event).above p =
      if sees p event then mintInto (registry.above p) event else registry.above p := by
  cases event with
  | mint usages q =>
    rw [mintInto, Registry.addNewDeferredFragments_above]
    by_cases hq : q <+: p <;> simp [sees, Event.place, mintInto, hq]
  | error _ _   => simp [mintInto]
  | defer _ _ _ => simp [mintInto]
  | stream _ _  => simp [mintInto]

-- What is in the registry above a path comes of what is seen from it.
theorem foldl_mintInto_above (registry : Registry U) (events : List (Event U F V)) (p : Path) :
    (events.foldl mintInto registry).above p = (events.filter (sees p)).foldl mintInto (registry.above p) := by
  induction events generalizing registry with
  | nil               => rfl
  | cons event events ih =>
    rw [List.foldl_cons, ih, mintInto_above]
    cases hs : sees p event <;> simp [hs]

end

-- No record is made above the place of a group after the group has been captured.
def Tidy (events : List (Event U F V)) : Prop :=
  events.Pairwise fun x y => x.isDefer = true → y.isMint = true → ¬ y.place <+: x.place

section

variable [DecidableEq U]

-- What an event hands over, given the records.
def Event.children (registry : Registry U) : Event U F V → List (Child U F V)
  | .defer deferred parent path => (captureDeferGroups registry deferred parent path).map .group
  | .stream list tail           => [.stream list tail]
  | _                           => []

theorem Event.children_congr {registry registry' : Registry U} (event : Event U F V)
    (h : registry.above event.place = registry'.above event.place) :
    event.children registry = event.children registry' := by
  cases event with
  | defer deferred parent path =>
    have h : registry.above path = registry'.above path := h
    rw [children, children, ← captureDeferGroups_above registry, h, captureDeferGroups_above]
  | mint _ _   => rfl
  | error _ _  => rfl
  | stream _ _ => rfl

variable [DeferUsage U]

-- In a tidy run the records that a group is captured with are those that there are in the end.
theorem sunkChildren_eq {events : List (Event U F V)} (h : Tidy events) (registry : Registry U) :
    sunkChildren registry events = events.flatMap (·.children (events.foldl mintInto registry)) := by
  induction events generalizing registry with
  | nil               => rfl
  | cons event events ih =>
    obtain ⟨he, hes⟩ := List.pairwise_cons.mp h
    rw [List.flatMap_cons, List.foldl_cons]
    have hchildren : event.isDefer = true → event.children registry =
        event.children (events.foldl mintInto (mintInto registry event)) := by
      intro hd
      apply event.children_congr
      have hm : mintInto registry event = registry :=
        mintInto_of_not_mint (by cases event <;> first | rfl | cases hd) registry
      rw [hm, foldl_mintInto_above, foldl_mintInto_of_not_mint]
      intro y hy
      obtain ⟨hy, hs⟩ := List.mem_filter.mp hy
      rw [← Bool.not_eq_true]
      exact fun hmint => he y hy hd hmint (of_decide_eq_true hs)
    cases event with
    | mint _ _    => exact ih hes _
    | error _ _   => exact ih hes _
    | defer _ _ _ =>
      rw [← hchildren rfl, sunkChildren, ih hes]
      rfl
    | stream _ _  =>
      rw [sunkChildren, ih hes]
      rfl

end

namespace Tidy

variable {l l' : List (Event U F V)}

theorem append (h : Tidy l) (h' : Tidy l')
    (hc : ∀ x ∈ l, ∀ y ∈ l', x.isDefer = true → y.isMint = true → ¬ y.place <+: x.place) : Tidy (l ++ l') :=
  List.pairwise_append.mpr ⟨h, h', hc⟩

theorem of_no_mint (h : ∀ x ∈ l, x.isMint = false) : Tidy l :=
  List.pairwise_of_forall_mem_list fun _ _ y hy _ hm => absurd ((h y hy).symm.trans hm) Bool.noConfusion

theorem append_no_mint (h : Tidy l) (h' : ∀ x ∈ l', x.isMint = false) : Tidy (l ++ l') :=
  h.append (of_no_mint h') fun _ _ y hy _ hm => absurd ((h' y hy).symm.trans hm) Bool.noConfusion

theorem append_independent (h : Tidy l) (h' : Tidy l') (hi : Independent sees l l') : Tidy (l ++ l') := by
  refine h.append h' fun x hx y hy _ _ hp => ?_
  have := hi x hx y hy x.place (decide_eq_true List.prefix_rfl)
  rw [sees, decide_eq_true hp] at this
  cases this

theorem flatMap {ι : Type} {w : ι → List (Event U F V)} {is : List ι} (h : ∀ i, Tidy (w i))
    (hi : is.Pairwise fun i j => Independent sees (w i) (w j)) : Tidy (is.flatMap w) := by
  induction is with
  | nil          => exact List.Pairwise.nil
  | cons i is ih =>
    obtain ⟨hc, hi⟩ := List.pairwise_cons.mp hi
    exact (h i).append_independent (ih hi) (Independent.flatMap_right hc)

end Tidy

theorem catchErrors_no_mint (place : Path) (errors : List (LocatedError V)) :
    ∀ x ∈ (catchErrors place errors : List (Event U F V)), x.isMint = false := by
  intro x hx
  obtain ⟨error, -, rfl⟩ := List.mem_map.mp hx
  rfl

variable {errorPath : V → Option Path} [DecidableEq T]

abbrev TidyValues (c : Completer T U F V) (errorPath : V → Option Path) : Prop :=
  ∀ label (es : List (Entry V)), es.Pairwise (fun i j => Apart i.path j.path) →
    Tidy (completeValues errorPath c label es).2

abbrev TidyParents (run : List (Parent V) → List (Parent V) × List (Event U F V)) : Prop :=
  ∀ ps : List (Parent V), ps.Pairwise (fun i j => Apart i.path j.path) → Tidy (run ps).2

abbrev TidyStreams (c : Completer T U F V) (errorPath : V → Option Path) : Prop :=
  ∀ label initialCount name e, Tidy (completeStreamValue errorPath c label initialCount name e).2.1 ∧
    ∀ x ∈ (completeStreamValue errorPath c label initialCount name e).2.2, x.isMint = false

theorem TidyValues.list {iterate : V → Except (FieldError V) (List (Cell V))} {item : Completer T U F V}
    (h : TidyValues item errorPath) : TidyValues (.list iterate item) errorPath := by
  intro label es hes
  rw [completeValues]
  apply (h label _ (items_apart errorPath iterate hes)).append_no_mint
  intro x hx
  obtain ⟨_, -, hx⟩ := List.mem_flatMap.mp hx
  exact catchErrors_no_mint _ _ x hx

-- What happens when a bucket is walked happens below one of its members.
theorem mem_executeObjectPlan {op : ObjectPlan T U F V} {ps : List (Parent V)}
    (hps : ps.Pairwise fun i j => Apart i.path j.path) {x : Event U F V}
    (hx : x ∈ (executeObjectPlan errorPath op ps).2) : ∃ p ∈ ps, p.path <+: x.place := by
  obtain ⟨r, w, ⟨hb, hr⟩, -⟩ := executeObjectPlan_pointwise errorPath op
  obtain ⟨p, hp, hx⟩ := List.mem_flatMap.mp ((hr ps hps).2.perm.subset hx)
  exact ⟨p, hp, hb p x hx⟩

theorem mem_completeValues {c : Completer T U F V} {label : String} {es : List (Entry V)}
    (hes : es.Pairwise fun i j => Apart i.path j.path) {x : Event U F V}
    (hx : x ∈ (completeValues errorPath c label es).2) : ∃ e ∈ es, e.path <+: x.place := by
  obtain ⟨r, w, hb, hr⟩ := completeValues_pointwise errorPath c label
  obtain ⟨e, he, hx⟩ := List.mem_flatMap.mp ((hr es hes).2.perm.subset hx)
  exact ⟨e, he, hb e x hx⟩

theorem TidyValues.object {runtimeType : V → Path → Except (FieldError V) T} {childPlan : T → ObjectPlan T U F V}
    (h : ∀ type, TidyParents (executeObjectPlan errorPath (childPlan type))) :
    TidyValues (.object runtimeType childPlan) errorPath := by
  intro label es hes
  rw [completeValues]
  let typeOf (e : Entry V) : Option T := (concreteType runtimeType e).map (·.snd)
  have hrun : ∀ (types done : List T) (results : List (Completed V)) (events : List (Event U F V)),
      (done ++ types).Nodup → Tidy events →
      (∀ x ∈ events, ∃ e ∈ es, (∃ type ∈ done, typeOf e = some type) ∧ e.path <+: x.place) →
      Tidy (types.foldl (fun results type =>
        let walked := executeObjectPlan errorPath (childPlan type) (es.filterMap (memberOf runtimeType type))
        (writeMembers runtimeType type es results.1 walked.1, results.2 ++ walked.2)) (results, events)).2 := by
    intro types
    induction types with
    | nil => exact fun _ _ _ _ ht _ => ht
    | cons type types ih =>
      intro done results events hn ht hb
      have hd : type ∉ done := fun hd => (List.nodup_append.mp hn).2.2 type hd type (.head _) rfl
      have hmem : ∀ y ∈ (executeObjectPlan errorPath (childPlan type) (es.filterMap (memberOf runtimeType type))).2,
          ∃ e ∈ es, typeOf e = some type ∧ e.path <+: y.place := by
        intro y hy
        obtain ⟨p, hp, hy⟩ := mem_executeObjectPlan (members_apart runtimeType type hes) hy
        obtain ⟨e, he, hm⟩ := List.mem_filterMap.mp hp
        exact ⟨e, he, memberOf_type hm, memberOf_path hm ▸ hy⟩
      apply ih (done ++ [type]) _ _ (by simpa using hn)
      · apply ht.append_independent (h type _ (members_apart runtimeType type hes))
        apply independent_of_apart
        intro x hx y hy
        obtain ⟨e, he, ⟨type', hd', ht'⟩, hx⟩ := hb x hx
        obtain ⟨e', he', ht'', hy⟩ := hmem y hy
        have hne : e ≠ e' := by
          rintro rfl
          cases ht'.symm.trans ht''
          exact hd hd'
        exact ⟨e.path, e'.path, apart_of_ne hes he he' hne, hx, hy⟩
      · intro x hx
        rcases List.mem_append.mp hx with hx | hx
        · obtain ⟨e, he, ⟨type', hd', ht'⟩, hp⟩ := hb x hx
          exact ⟨e, he, ⟨type', List.mem_append_left _ hd', ht'⟩, hp⟩
        · obtain ⟨e, he, ht', hp⟩ := hmem x hx
          exact ⟨e, he, ⟨type, by simp, ht'⟩, hp⟩
  exact hrun _ [] _ [] (nodup_eraseDups _) List.Pairwise.nil fun x hx => absurd hx List.not_mem_nil

theorem TidyStreams.list {iterate : V → Except (FieldError V) (List (Cell V))} {item : Completer T U F V}
    (h : TidyValues item errorPath) : TidyStreams (.list iterate item) errorPath := by
  intro label initialCount name e
  have hnil : Tidy ([] : List (Event U F V)) ∧ ∀ x ∈ ([] : List (Event U F V)), x.isMint = false :=
    ⟨List.Pairwise.nil, fun x hx => absurd hx List.not_mem_nil⟩
  rw [completeStreamValue]
  cases e.cell with
  | error _ => exact hnil
  | ok cell =>
    cases cell with
    | none       => exact hnil
    | some value =>
      dsimp only
      cases iterate value with
      | error _  => exact hnil
      | ok cells =>
        dsimp only
        have hitems := h label _ ((entries_apart e.path cells).take (i := initialCount))
        split
        · exact ⟨hitems.append_no_mint (catchErrors_no_mint _ _), hnil.2⟩
        · refine ⟨hitems.append_no_mint (catchErrors_no_mint _ _), fun x hx => ?_⟩
          rw [List.mem_singleton.mp hx]
          rfl

theorem TidyParents.field (f : FieldPlan T U F V) (hv : TidyValues f.completer errorPath)
    (hs : TidyStreams f.completer errorPath) : TidyParents (completeField errorPath f) := by
  obtain ⟨name, label, column, completer, stream⟩ := f
  intro ps hps
  have hes := entries_live_apart ⟨name, label, column, completer, stream⟩ hps
  cases stream with
  | none           =>
    rw [completeField]
    apply (hv label _ hes).append_no_mint
    intro x hx
    obtain ⟨_, -, hx⟩ := List.mem_flatMap.mp hx
    exact catchErrors_no_mint _ _ x hx
  | some directive =>
    obtain ⟨initialCount, streamLabel⟩ := directive
    rw [completeField]
    dsimp only
    rw [List.flatMap_map]
    apply Tidy.flatMap
    · intro e
      obtain ⟨ht, hsunk⟩ := hs label initialCount streamLabel e
      exact (ht.append_no_mint (catchErrors_no_mint _ _)).append_no_mint hsunk
    · have hb : ∀ e, Below e.path ((completeStreamValue errorPath completer label initialCount streamLabel e).2.1 ++
          catchErrors e.path (caughtError completer.isNonNull
            (completeStreamValue errorPath completer label initialCount streamLabel e).1) ++
          (completeStreamValue errorPath completer label initialCount streamLabel e).2.2) := by
        intro e
        obtain ⟨he, hsunk⟩ := completeStreamValue_below errorPath completer label initialCount streamLabel e
        exact (he.append (Below.catchErrors _ _)).append hsunk
      exact hes.imp fun hij => (hb _).independent (hb _) hij

-- What happens when a field is walked happens below the field.
theorem mem_completeField {f : FieldPlan T U F V} {ps : List (Parent V)}
    (hps : ps.Pairwise fun i j => Apart i.path j.path) {x : Event U F V}
    (hx : x ∈ (completeField errorPath f ps).2) : ∃ p ∈ ps, p.path ++ [.name f.responseName] <+: x.place := by
  obtain ⟨name, label, column, completer, stream⟩ := f
  have hes := entries_live_apart ⟨name, label, column, completer, stream⟩ hps
  suffices he : ∃ e ∈ (ps.filter (·.slot.isLive)).map
      (FieldPlan.entry ⟨name, label, column, completer, stream⟩), e.path <+: x.place by
    obtain ⟨e, he, hx⟩ := he
    obtain ⟨p, hp, rfl⟩ := List.mem_map.mp he
    exact ⟨p, (List.mem_filter.mp hp).1, hx⟩
  cases stream with
  | none           =>
    rw [completeField] at hx
    rcases List.mem_append.mp hx with hx | hx
    · exact mem_completeValues hes hx
    · obtain ⟨⟨e, c⟩, hm, hx⟩ := List.mem_flatMap.mp hx
      exact ⟨e, (List.of_mem_zip hm).1, Below.catchErrors _ _ x hx⟩
  | some directive =>
    obtain ⟨initialCount, streamLabel⟩ := directive
    rw [completeField] at hx
    dsimp only at hx
    rw [List.flatMap_map] at hx
    obtain ⟨e, he, hx⟩ := List.mem_flatMap.mp hx
    obtain ⟨hb, hsunk⟩ := completeStreamValue_below errorPath completer label initialCount streamLabel e
    exact ⟨e, he, (hb.append (Below.catchErrors _ _)).append hsunk x hx⟩

theorem completeField_paths (errorPath : V → Option Path) (f : FieldPlan T U F V) {ps : List (Parent V)}
    (hps : ps.Pairwise fun i j => Apart i.path j.path) :
    (completeField errorPath f ps).1.map (·.path) = ps.map (·.path) := by
  obtain ⟨r, w, ⟨_, hr⟩, hp⟩ := completeField_pointwise errorPath f
  rw [(hr ps hps).1, List.map_map]
  exact List.map_congr_left fun p _ => hp p

theorem pairwise_of_paths {ps qs : List (Parent V)} (h : qs.map (·.path) = ps.map (·.path))
    (hps : ps.Pairwise fun i j => Apart i.path j.path) : qs.Pairwise fun i j => Apart i.path j.path := by
  rw [← List.pairwise_map (f := Parent.path)] at hps ⊢
  rwa [h]

theorem mem_walkFields {fs : List (FieldPlan T U F V)} {ps : List (Parent V)}
    (hps : ps.Pairwise fun i j => Apart i.path j.path) {x : Event U F V}
    (hx : x ∈ (walkFields errorPath fs ps).2) :
    ∃ p ∈ ps, ∃ f ∈ fs, p.path ++ [.name f.responseName] <+: x.place := by
  induction fs generalizing ps with
  | nil          => exact absurd hx List.not_mem_nil
  | cons f fs ih =>
    rw [walkFields] at hx
    rcases List.mem_append.mp hx with hx | hx
    · obtain ⟨p, hp, hx⟩ := mem_completeField hps hx
      exact ⟨p, hp, f, .head _, hx⟩
    · have hpaths := completeField_paths errorPath f hps
      obtain ⟨q, hq, g, hg, hx⟩ := ih (pairwise_of_paths hpaths hps) hx
      have hm := List.mem_map_of_mem (f := Parent.path) hq
      rw [hpaths] at hm
      obtain ⟨p, hp, he⟩ := List.mem_map.mp hm
      exact ⟨p, hp, g, .tail _ hg, he ▸ hx⟩

theorem Apart.of_names {p q : Path} {name name' : String} (h : p = q ∨ Apart p q) (hn : name ≠ name') :
    Apart (p ++ [.name name]) (q ++ [.name name']) := by
  rcases h with rfl | h
  · exact Apart.snoc fun hk => hn (by injection hk)
  · exact h.of_isPrefix (List.prefix_append _ _) (List.prefix_append _ _)

theorem TidyParents.cons {f : FieldPlan T U F V} {fs : List (FieldPlan T U F V)}
    (hn : f.responseName ∉ fs.map (·.responseName)) (hf : TidyParents (completeField errorPath f))
    (hfs : TidyParents (walkFields errorPath fs)) : TidyParents (walkFields errorPath (f :: fs)) := by
  intro ps hps
  have hpaths := completeField_paths errorPath f hps
  have hps' := pairwise_of_paths hpaths hps
  rw [walkFields]
  apply (hf ps hps).append_independent (hfs _ hps')
  apply independent_of_apart
  intro x hx y hy
  obtain ⟨p, hp, hx⟩ := mem_completeField hps hx
  obtain ⟨q, hq, g, hg, hy⟩ := mem_walkFields hps' hy
  have hm := List.mem_map_of_mem (f := Parent.path) hq
  rw [hpaths] at hm
  obtain ⟨p', hp', he⟩ := List.mem_map.mp hm
  have hname : f.responseName ≠ g.responseName := fun h => hn (h ▸ List.mem_map_of_mem hg)
  refine ⟨_, _, Apart.of_names (p := p.path) (q := q.path) ?_ hname, hx, hy⟩
  rw [← he]
  by_cases hpp : p = p'
  · exact .inl (by rw [hpp])
  · exact .inr (apart_of_ne hps hp hp' hpp)

theorem TidyParents.object {fields : List (FieldPlan T U F V)} {deferred : Deferred U F}
    (h : TidyParents (walkFields errorPath fields)) : TidyParents (executeObjectPlan errorPath ⟨fields, deferred⟩) := by
  intro ps hps
  rw [executeObjectPlan]
  apply Tidy.append_no_mint
  · have hm : ∀ x ∈ mintEvents deferred ps, x.isDefer = false := by
      intro x hx
      unfold mintEvents at hx
      split at hx
      · exact absurd hx List.not_mem_nil
      · obtain ⟨p, -, rfl⟩ := List.mem_map.mp hx
        rfl
    refine Tidy.append ?_ (h ps hps) fun x hx y _ hd _ => absurd ((hm x hx).symm.trans hd) Bool.noConfusion
    exact List.pairwise_of_forall_mem_list fun x hx _ _ hd => absurd ((hm x hx).symm.trans hd) Bool.noConfusion
  · intro x hx
    unfold captureDeferredJobs at hx
    split at hx
    · exact absurd hx List.not_mem_nil
    · obtain ⟨p, -, rfl⟩ := List.mem_map.mp hx
      rfl

mutual

theorem completeValues_tidy : (c : Completer T U F V) → c.Distinct → TidyValues c errorPath
  | .leaf _, _             => fun label es _ => by
    rw [completeValues]
    exact List.Pairwise.nil
  | .nonNull inner, h      => fun label es hes => by
    rw [completeValues]
    exact completeValues_tidy inner h label es hes
  | .list _ item, h        => .list (completeValues_tidy item h)
  | .object _ childPlan, h => .object fun type => executeObjectPlan_tidy (childPlan type) (h type)

theorem completeStreamValue_tidy : (c : Completer T U F V) → c.Distinct → TidyStreams c errorPath
  | .leaf _, _        => fun label initialCount name e => by
    rw [completeStreamValue]
    exact ⟨List.Pairwise.nil, fun x hx => absurd hx List.not_mem_nil⟩
  | .nonNull inner, h => fun label initialCount name e => by
    rw [completeStreamValue]
    exact completeStreamValue_tidy inner h label initialCount name e
  | .list _ item, h   => .list (completeValues_tidy item h)
  | .object _ _, _    => fun label initialCount name e => by
    rw [completeStreamValue]
    exact ⟨List.Pairwise.nil, fun x hx => absurd hx List.not_mem_nil⟩

-- The records above a group are made before the group is captured.
theorem executeObjectPlan_tidy : (op : ObjectPlan T U F V) → op.Distinct → TidyParents (executeObjectPlan errorPath op)
  | ⟨fields, _⟩, h => .object (walkFields_tidy fields h.1 h.2)

theorem walkFields_tidy : (fs : List (FieldPlan T U F V)) → (fs.map (·.responseName)).Nodup → fieldsDistinct fs →
    TidyParents (walkFields errorPath fs)
  | [], _, _                                           => fun ps _ => by
    rw [walkFields]
    exact List.Pairwise.nil
  | ⟨name, label, column, completer, stream⟩ :: fs, hn, h =>
    .cons (List.nodup_cons.mp hn).1 (.field _ (completeValues_tidy completer h.1) (completeStreamValue_tidy completer h.1))
      (walkFields_tidy fs (List.nodup_cons.mp hn).2 h.2)

end

end Incremental

end Grafast
