import Grafast.Incremental.Theorems.Capture

namespace Grafast.Incremental

open Batch

variable {T U F V Id : Type}

-- The same result, but for the order of its errors and children.
structure GroupResult.Same (a b : GroupResult U F V) : Prop where
  path     : a.path = b.path
  data     : a.data = b.data
  errors   : a.errors.Perm b.errors
  children : a.children.Perm b.children

theorem GroupResult.Same.build_iff (path : Path) (errors errors' : List (LocatedError V))
    (children children' : List (Child U F V)) (slot : Slot V) :
    (buildGroupResult path errors children slot).Same (buildGroupResult path errors' children' slot) ↔
      (slot.isLive = true → errors.Perm errors' ∧ children.Perm children') := by
  cases slot with
  | live output => exact ⟨fun h _ => ⟨h.errors, h.children⟩, fun h => ⟨rfl, rfl, (h rfl).1, (h rfl).2⟩⟩
  | dead error  => exact ⟨fun _ h => (by cases h), fun _ => ⟨rfl, rfl, .refl _, .refl _⟩⟩

-- Whether an event hands over groups.
def Event.defers : Event U F V → Bool
  | .defer deferred _ _ => !deferred.newGroups.isEmpty
  | _                   => false

-- Whether the object that an event hands over is a member's own.
def Event.isOf [DecidableEq Id] (ident : V → Id) (member : V × Path) : Event U F V → Bool
  | .defer _ parent _ => decide (ident parent = ident member.1)
  | _                 => false

variable {errorPath : V → Option Path} [DecidableEq T]

-- What happens in the run of a member alone.
def eventsOf (errorPath : V → Option Path) (plan : ObjectPlan T U F V) (member : V × Path) : List (Event U F V) :=
  (executeObjectPlan errorPath plan [memberParent member]).2

theorem eventsOf_below (plan : ObjectPlan T U F V) (member : V × Path) :
    Below member.2 (eventsOf errorPath plan member) := by
  intro event he
  obtain ⟨p, hp, he⟩ := mem_executeObjectPlan (List.pairwise_singleton _ _) he
  rw [List.mem_singleton.mp hp] at he
  exact he

-- The run of a batch holds what the runs of its members hold, and what is seen from below a member is what is
-- seen in that member's run.
theorem batch_events (errorPath : V → Option Path) (plan : ObjectPlan T U F V) {members : List (V × Path)}
    (hm : members.Pairwise fun m n => Apart m.2 n.2) :
    SameTrace sees (executeObjectPlan errorPath plan (members.map memberParent)).2
      (members.flatMap (eventsOf errorPath plan)) ∧
    ∃ slot : V × Path → Slot V,
      (executeObjectPlan errorPath plan (members.map memberParent)).1.map (·.slot) = members.map slot ∧
      ∀ m, (executeObjectPlan errorPath plan [memberParent m]).1.map (·.slot) = [slot m] := by
  obtain ⟨r, w, ⟨_, hr⟩, _⟩ := executeObjectPlan_pointwise errorPath plan
  have hps : (members.map memberParent).Pairwise fun i j => Apart i.path j.path := by
    rw [List.pairwise_map]
    exact hm
  have hone := fun m : V × Path => hr [memberParent m] (List.pairwise_singleton _ _)
  obtain ⟨hall, hw⟩ := hr _ hps
  constructor
  · rw [List.flatMap_map] at hw
    refine hw.trans (SameTrace.flatMap fun m _ => ?_)
    have := (hone m).2
    rw [List.flatMap_singleton] at this
    exact this.symm
  · refine ⟨fun m => (r (memberParent m)).slot, ?_, fun m => ?_⟩
    · rw [hall, List.map_map, List.map_map]
      rfl
    · rw [(hone m).1]
      rfl

section

variable [DecidableEq U] [DeferUsage U]

theorem runExecutionGroup_eq {plan : ObjectPlan T U F V} {slot : V × Path → Slot V}
    (h : ∀ m, (executeObjectPlan errorPath plan [memberParent m]).1.map (·.slot) = [slot m]) (registry : Registry U)
    (member : V × Path) : runExecutionGroup errorPath registry plan member =
      some (buildGroupResult member.2 ((eventsOf errorPath plan member).filterMap (·.error?))
        (sunkChildren registry (eventsOf errorPath plan member)) (slot member)) := by
  have h := h member
  rw [runExecutionGroup]
  cases hp : (executeObjectPlan errorPath plan [memberParent member]).1 with
  | nil              => rw [hp] at h; cases h
  | cons p ps =>
    rw [hp, List.map_cons] at h
    have hs : p.slot = slot member := (List.cons.inj h).1
    simp [hp, hs, eventsOf]

variable [DecidableEq Id] {ident : V → Id}

theorem map_zip_slots {α β : Type} {ms : List α} {ps : List (Parent V)} {slot : α → Slot V}
    (h : ps.map (·.slot) = ms.map slot) (f : α → Slot V → β) :
    (ms.zip ps).map (fun x => f x.1 x.2.slot) = ms.map fun m => f m (slot m) := by
  have hz : (ms.zip ps).map (fun x => f x.1 x.2.slot) = (ms.zip (ps.map (·.slot))).map fun x => f x.1 x.2 := by
    rw [List.zip_map_right, List.map_map]
    rfl
  rw [hz, h, zip_map_self, List.map_map]
  rfl

theorem runExecutionGroupBatch_eq {plan : ObjectPlan T U F V} {members : List (V × Path)}
    {slot : V × Path → Slot V}
    (h : (executeObjectPlan errorPath plan (members.map memberParent)).1.map (·.slot) = members.map slot)
    (registry : Registry U) : runExecutionGroupBatch errorPath ident registry plan members =
      members.map fun m =>
        let events := (executeObjectPlan errorPath plan (members.map memberParent)).2
        buildGroupResult m.2 ((events.filterMap (·.error?)).filter (errorUnder m.2))
          (events.flatMap (·.groupsOf ident (events.foldl mintInto registry) m) ++
            events.filterMap (·.streamUnder m.2)) (slot m) := by
  rw [runExecutionGroupBatch]
  generalize executeObjectPlan errorPath plan (members.map memberParent) = run at *
  obtain ⟨walked, events⟩ := run
  dsimp only at h ⊢
  exact map_zip_slots h fun m slot => buildGroupResult m.2 ((events.filterMap (·.error?)).filter (errorUnder m.2))
    (events.flatMap (·.groupsOf ident (events.foldl mintInto registry) m) ++
      events.filterMap (·.streamUnder m.2)) slot

end

-- Every group and error that a member's run comes up with is recognised as the member's own, and no other member
-- that does not fail takes it: the object of a group is the member's own object, and an error has a path below
-- that of the member.
structure Routed [DecidableEq Id] (ident : V → Id) (errorPath : V → Option Path) (plan : ObjectPlan T U F V)
    (members : List (V × Path)) : Prop where
  defers : ∀ m ∈ members, (∀ p ∈ (executeObjectPlan errorPath plan [memberParent m]).1, p.slot.isLive = true) →
    ∀ n ∈ members, ∀ x ∈ eventsOf errorPath plan n, x.defers = true → (x.isOf ident m = true ↔ n = m)
  errors : ∀ m ∈ members, (∀ p ∈ (executeObjectPlan errorPath plan [memberParent m]).1, p.slot.isLive = true) →
    ∀ n ∈ members, ∀ x ∈ eventsOf errorPath plan n, ∀ e, x.error? = some e → (errorUnder m.2 e = true ↔ n = m)

section

variable [DecidableEq U]

-- The stream of an event, or the groups of an event.
theorem Event.children_eq (registry : Registry U) (event : Event U F V) :
    event.children registry =
      (if event.defers then event.children registry else []) ++ event.stream?.toList := by
  cases event with
  | defer deferred parent path =>
    cases hd : deferred.newGroups.isEmpty with
    | true  => simp [children, stream?, defers, captureDeferGroups, List.isEmpty_iff.mp hd]
    | false => simp [children, stream?, defers, hd]
  | mint _ _   => rfl
  | error _ _  => rfl
  | stream _ _ => rfl

theorem Event.groupsOf_eq [DecidableEq Id] {ident : V → Id} (registry : Registry U) (member : V × Path)
    (event : Event U F V) :
    event.groupsOf ident registry member =
      if event.defers then (if event.isOf ident member then event.children registry else []) else [] := by
  cases event with
  | defer deferred parent path =>
    cases hd : deferred.newGroups.isEmpty with
    | true  => simp [groupsOf, defers, captureDeferGroups, List.isEmpty_iff.mp hd]
    | false => simp [groupsOf, children, defers, isOf, hd]
  | mint _ _   => rfl
  | error _ _  => rfl
  | stream _ _ => rfl

theorem Event.children_ne_nil {registry : Registry U} {event : Event U F V} (h : event.defers = true) :
    event.children registry ≠ [] := by
  cases event with
  | defer deferred parent path =>
    cases hd : deferred.newGroups with
    | nil      => rw [defers, hd] at h; cases h
    | cons _ _ => simp [children, captureDeferGroups, hd]
  | mint _ _   => cases h
  | error _ _  => cases h
  | stream _ _ => cases h

def Child.path : Child U F V → Path
  | .group g    => g.path
  | .stream s _ => s.path

theorem Event.children_path {registry : Registry U} {event : Event U F V} {child : Child U F V}
    (h : child ∈ event.children registry) : child.path = event.place := by
  cases event with
  | defer deferred parent path =>
    obtain ⟨group, hg, rfl⟩ := List.mem_map.mp h
    obtain ⟨_, -, rfl⟩ := List.mem_map.mp hg
    rfl
  | mint _ _   => cases h
  | error _ _  => cases h
  | stream _ _ =>
    rw [List.mem_singleton.mp h]
    rfl

theorem nodup_of_apart {members : List (V × Path)} (hm : members.Pairwise fun m n => Apart m.2 n.2) :
    members.Nodup :=
  hm.imp fun h => by
    rintro rfl
    exact h.1 List.prefix_rfl

omit [DecidableEq U] in
-- What can be seen from below a member in the runs of all members is what can be seen in its own.
theorem filter_sees_events {plan : ObjectPlan T U F V} {members : List (V × Path)}
    (hm : members.Pairwise fun m n => Apart m.2 n.2) {m : V × Path} (hmem : m ∈ members) {path : Path}
    (hp : m.2 <+: path) :
    (members.flatMap (eventsOf errorPath plan)).filter (sees path) = (eventsOf errorPath plan m).filter (sees path) := by
  rw [List.filter_flatMap]
  refine flatMap_eq_of_routed (g := fun n => (eventsOf errorPath plan n).filter (sees path)) (nodup_of_apart hm) hmem
    fun n hn hne => List.filter_eq_nil_iff.mpr fun x hx hs => ?_
  have hnp := (eventsOf_below plan n x hx).trans (of_decide_eq_true hs)
  rcases List.prefix_or_prefix_of_prefix hnp hp with hc | hc
  · exact (apart_of_ne hm hn hmem hne).1 hc
  · exact (apart_of_ne hm hn hmem hne).2 hc

variable [DeferUsage U]

-- Below a member the registry of a batch is what it is in the member's own run.
theorem registry_above {events : List (Event U F V)} {plan : ObjectPlan T U F V} {members : List (V × Path)}
    (hm : members.Pairwise fun m n => Apart m.2 n.2)
    (he : SameTrace sees events (members.flatMap (eventsOf errorPath plan))) (registry : Registry U)
    {m : V × Path} (hmem : m ∈ members) {path : Path} (hp : m.2 <+: path) :
    (events.foldl mintInto registry).above path =
      ((eventsOf errorPath plan m).foldl mintInto registry).above path := by
  rw [foldl_mintInto_above, foldl_mintInto_above, he.seen, filter_sees_events hm hmem hp]

section

variable {events : List (Event U F V)} {plan : ObjectPlan T U F V} {members : List (V × Path)} {m : V × Path}

omit [DecidableEq U] [DeferUsage U] in
theorem errors_iff (hm : members.Pairwise fun m n => Apart m.2 n.2)
    (he : SameTrace sees events (members.flatMap (eventsOf errorPath plan))) (hmem : m ∈ members) :
    ((events.filterMap (·.error?)).filter (errorUnder m.2)).Perm
        ((eventsOf errorPath plan m).filterMap (·.error?)) ↔
      ∀ n ∈ members, ∀ x ∈ eventsOf errorPath plan n, ∀ e, x.error? = some e → (errorUnder m.2 e = true ↔ n = m) := by
  have hperm := (he.perm.filterMap (·.error?)).filter (errorUnder m.2)
  rw [List.filterMap_flatMap, List.filter_flatMap] at hperm
  have hiff := filter_perm_iff (f := fun n => (eventsOf errorPath plan n).filterMap (·.error?)) (nodup_of_apart hm)
    hmem (errorUnder m.2)
  rw [hperm.congr_left, hiff]
  constructor
  · intro h n hn x hx e hxe
    exact h n hn e (List.mem_filterMap.mpr ⟨x, hx, hxe⟩)
  · intro h n hn e hxe
    obtain ⟨x, hx, hxe⟩ := List.mem_filterMap.mp hxe
    exact h n hn x hx e hxe

omit [DecidableEq U] [DeferUsage U] in
theorem streams_perm (hm : members.Pairwise fun m n => Apart m.2 n.2)
    (he : SameTrace sees events (members.flatMap (eventsOf errorPath plan))) (hmem : m ∈ members) :
    (events.filterMap (·.streamUnder m.2)).Perm ((eventsOf errorPath plan m).filterMap (·.stream?)) := by
  have hperm := he.perm.filterMap (·.streamUnder m.2)
  rw [List.filterMap_flatMap] at hperm
  have hown : (eventsOf errorPath plan m).filterMap (·.streamUnder m.2) =
      (eventsOf errorPath plan m).filterMap (·.stream?) :=
    List.filterMap_congr fun x hx => if_pos (eventsOf_below plan m x hx)
  rw [flatMap_eq_of_routed (nodup_of_apart hm) hmem, hown] at hperm
  · exact hperm
  · intro n hn hne
    rw [List.filterMap_eq_nil_iff]
    intro x hx
    apply if_neg
    intro hp
    rcases List.prefix_or_prefix_of_prefix (eventsOf_below plan n x hx) hp with hc | hc
    · exact (apart_of_ne hm hn hmem hne).1 hc
    · exact (apart_of_ne hm hn hmem hne).2 hc

-- What a member's run hands over, by means of the registry of the batch.
theorem sunkChildren_perm (hm : members.Pairwise fun m n => Apart m.2 n.2)
    (he : SameTrace sees events (members.flatMap (eventsOf errorPath plan))) (hmem : m ∈ members)
    (hd : plan.Distinct) (registry : Registry U) :
    (sunkChildren registry (eventsOf errorPath plan m)).Perm
      (((eventsOf errorPath plan m).flatMap fun x =>
          if x.defers then x.children (events.foldl mintInto registry) else []) ++
        (eventsOf errorPath plan m).filterMap (·.stream?)) := by
  have htidy : Tidy (eventsOf errorPath plan m) := executeObjectPlan_tidy plan hd _ (List.pairwise_singleton _ _)
  have hchildren : (eventsOf errorPath plan m).flatMap
        (·.children ((eventsOf errorPath plan m).foldl mintInto registry)) =
      (eventsOf errorPath plan m).flatMap fun x =>
        (if x.defers then x.children (events.foldl mintInto registry) else []) ++ x.stream?.toList :=
    List.flatMap_congr fun x hx => by
      rw [← Event.children_eq]
      exact x.children_congr (registry_above hm he registry hmem (eventsOf_below plan m x hx)).symm
  rw [sunkChildren_eq htidy, hchildren, List.filterMap_eq_flatMap_toList]
  exact (List.flatMap_append_perm ..).symm

variable [DecidableEq Id] {ident : V → Id}

theorem children_iff (hm : members.Pairwise fun m n => Apart m.2 n.2)
    (he : SameTrace sees events (members.flatMap (eventsOf errorPath plan))) (hmem : m ∈ members)
    (hd : plan.Distinct) (registry : Registry U) :
    (events.flatMap (·.groupsOf ident (events.foldl mintInto registry) m) ++
        events.filterMap (·.streamUnder m.2)).Perm (sunkChildren registry (eventsOf errorPath plan m)) ↔
      ∀ n ∈ members, ∀ x ∈ eventsOf errorPath plan n, x.defers = true → (x.isOf ident m = true ↔ n = m) := by
  generalize hR : events.foldl mintInto registry = R
  let g (x : Event U F V) := if x.defers then x.children R else []
  have hgroups : (events.flatMap (·.groupsOf ident R m)).Perm
      (members.flatMap fun n => ((eventsOf errorPath plan n).filter (·.isOf ident m)).flatMap g) := by
    have hperm := he.perm.flatMap_right (·.groupsOf ident R m)
    rw [List.flatMap_assoc] at hperm
    refine hperm.trans (.of_eq (List.flatMap_congr fun n _ => ?_))
    rw [flatMap_filter]
    refine List.flatMap_congr fun x _ => ?_
    rw [Event.groupsOf_eq]
    dsimp only [g]
    cases x.defers <;> simp
  have hsunk := sunkChildren_perm hm he hmem hd registry
  rw [hR] at hsunk
  rw [hsunk.congr_right, ((streams_perm hm he hmem).append_left _).congr_left, List.perm_append_right_iff,
    hgroups.congr_left]
  have hpath : ∀ n, ∀ x ∈ eventsOf errorPath plan n, ∀ child ∈ g x, n.2 <+: child.path := by
    intro n x hx child hc
    dsimp only [g] at hc
    split at hc
    · exact Event.children_path hc ▸ eventsOf_below plan n x hx
    · cases hc
  rw [flatMap_filter_perm_iff (nodup_of_apart hm) hmem _ g fun child => decide (m.2 <+: child.path)]
  · constructor
    · intro h n hn x hx hdef
      exact h n hn x hx (by simpa [g, hdef] using Event.children_ne_nil hdef)
    · intro h n hn x hx hg
      apply h n hn x hx
      by_contra hdef
      exact hg (if_neg hdef)
  · exact fun x hx child hc => decide_eq_true (hpath m x hx child hc)
  · intro n hn hne x hx child hc
    rw [decide_eq_false_iff_not]
    intro hp
    rcases List.prefix_or_prefix_of_prefix (hpath n x hx child hc) hp with hc | hc
    · exact (apart_of_ne hm hn hmem hne).1 hc
    · exact (apart_of_ne hm hn hmem hne).2 hc

end

-- A batch makes of each of its members what a run of that member alone makes of it just when groups and errors are
-- routed.
theorem runExecutionGroupBatch_iff [DecidableEq Id] {ident : V → Id} (registry : Registry U)
    {plan : ObjectPlan T U F V} (hd : plan.Distinct) {members : List (V × Path)}
    (hm : members.Pairwise fun m n => Apart m.2 n.2) :
    List.Forall₂ (fun member result => ∃ alone, runExecutionGroup errorPath registry plan member = some alone ∧
        result.Same alone)
      members (runExecutionGroupBatch errorPath ident registry plan members) ↔
    Routed ident errorPath plan members := by
  obtain ⟨he, slot, hall, hone⟩ := batch_events errorPath plan hm
  have hlive : ∀ m, (∀ p ∈ (executeObjectPlan errorPath plan [memberParent m]).1, p.slot.isLive = true) ↔
      (slot m).isLive = true := by
    intro m
    rw [← List.forall_mem_map (f := Parent.slot) (P := fun s => s.isLive = true), hone m, List.forall_mem_singleton]
  rw [runExecutionGroupBatch_eq hall, List.forall₂_map_right_iff, List.forall₂_same]
  simp only [runExecutionGroup_eq hone, Option.some.injEq, exists_eq_left', GroupResult.Same.build_iff]
  constructor
  · intro h
    constructor
    · intro m hmem hl
      exact (children_iff hm he hmem hd registry).mp (h m hmem ((hlive m).mp hl)).2
    · intro m hmem hl
      exact (errors_iff hm he hmem).mp (h m hmem ((hlive m).mp hl)).1
  · intro h m hmem hl
    have hl := (hlive m).mpr hl
    exact ⟨(errors_iff hm he hmem).mpr (h.errors m hmem hl),
      (children_iff hm he hmem hd registry).mpr (h.defers m hmem hl)⟩

end

-- `{ items { ... @defer { name nested { ... @defer { more } } } } }`: the groups of the items are run in one batch.
-- An object is given by its number.
namespace Items

inductive Usage
  | more
  deriving DecidableEq

instance : DeferUsage Usage where
  label _            := none
  parentDeferUsage _ := none

def name : FieldPlan Unit Usage Unit Nat where
  responseName := "name"
  fieldLabel   := "Item.name"
  column v _   := .ok (some v)
  completer    := .leaf fun v => .ok v
  stream       := none

-- An object with a fragment of its own.
def deferring : ObjectPlan Unit Usage Unit Nat where
  fields   := [name]
  deferred := ⟨[.more], [([.more], ())]⟩

def nested : ObjectPlan Unit Usage Unit Nat where
  fields   := [{ name with
    responseName := "nested"
    column v _   := .ok (some (v + 10))
    completer    := .object (fun _ _ => .ok ()) fun _ => deferring }]
  deferred := ⟨[], []⟩

def members : List (Nat × Path) :=
  [(1, [.name "items", .index 0]), (2, [.name "items", .index 1])]

theorem members_apart : members.Pairwise fun m n => Apart m.2 n.2 := by
  refine List.Pairwise.cons ?_ (List.pairwise_singleton _ _)
  intro m hm
  rw [List.mem_singleton.mp hm]
  exact ⟨by decide, by decide⟩

theorem deferring_distinct : deferring.Distinct :=
  ⟨List.nodup_singleton _, trivial, trivial⟩

theorem runExecutionGroupBatch_deferring :
    List.Forall₂ (fun member result => ∃ alone, runExecutionGroup (fun _ => none) [] deferring member = some alone ∧
        result.Same alone)
      members (runExecutionGroupBatch (fun _ => none) id [] deferring members) := by
  apply (runExecutionGroupBatch_iff [] deferring_distinct members_apart).mpr
  constructor
  · decide
  · have hnone : ∀ n ∈ members, ∀ x ∈ eventsOf (fun _ => none) deferring n, x.error?.isSome = false := by
      decide
    intro m _ _ n hn x hx e he
    have := hnone n hn x hx
    rw [he] at this
    cases this

-- The group of the nested object of each item gets lost.
theorem not_runExecutionGroupBatch :
    ¬List.Forall₂ (fun member result => ∃ alone, runExecutionGroup (fun _ => none) [] nested member = some alone ∧
        result.Same alone)
      members (runExecutionGroupBatch (fun _ => none) id [] nested members) := by
  have hlost : ∀ result ∈ runExecutionGroupBatch (fun _ => none) id [] nested members, result.children.length = 0 := by
    decide
  have hfound : ∀ member ∈ members, ∀ alone ∈ runExecutionGroup (fun _ => none) [] nested member,
      alone.children.length = 1 := by
    decide
  intro h
  obtain ⟨result, rest, ⟨alone, ha, hs⟩, -, hb⟩ := List.forall₂_cons_left_iff.mp h
  have hlen := hs.children.length_eq
  rw [hlost result (hb ▸ .head _), hfound _ (.head _) alone ha] at hlen
  cases hlen

end Items

end Grafast.Incremental
