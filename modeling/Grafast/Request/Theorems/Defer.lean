import Mathlib.Data.Finset.Max
import Grafast.Batch.Scatter
import Grafast.Request.Collect

namespace Grafast.Collection

variable {A F : Type} {group : List (FieldDetails A F)} {usages parents : List DeferUsage}
  {entry : String × List (FieldDetails A F)} {groups : List (List DeferUsage × GroupedFieldSet A F)}
  {collected : CollectedFields A F} {u a : DeferUsage}

theorem sameUsages_iff {b : List DeferUsage} : sameUsages usages b = true ↔ usages.toFinset = b.toFinset := by
  rw [Finset.ext_iff]
  simp only [sameUsages, Bool.and_eq_true, List.all_eq_true, List.contains_iff_mem, List.mem_toFinset]
  exact ⟨fun h u => ⟨h.left u, h.right u⟩, fun h => ⟨fun u => (h u).mp, fun u => (h u).mpr⟩⟩

namespace DeferUsage

theorem length_ancestors_lt (h : a ∈ u.ancestors) : a.ancestors.length < u.ancestors.length := by
  induction u
  case outermost              => cases h
  case nested id label parent hi =>
    rw [ancestors, List.length_cons]
    cases List.mem_cons.mp h
    case inl h => rw [h]; omega
    case inr h => have := hi h; omega

-- A usage with the fewest ancestors has none of them beside it.
theorem exists_outermost (h : usages ≠ []) : ∃ u ∈ usages, ∀ a ∈ u.ancestors, a ∉ usages := by
  obtain ⟨u, hu, hmin⟩ := usages.toFinset.exists_min_image (·.ancestors.length)
    (List.toFinset_nonempty_iff _ |>.mpr h)
  refine ⟨u, List.mem_toFinset.mp hu, fun a ha hm => ?_⟩
  have hle := hmin a (List.mem_toFinset.mpr hm)
  exact absurd (length_ancestors_lt ha) (by omega)

end DeferUsage

-- The usages of the members of a group.
def usagesOf (group : List (FieldDetails A F)) : List DeferUsage :=
  (group.filterMap (·.deferUsage)).eraseDups

theorem mem_usagesOf : u ∈ usagesOf group ↔ ∃ details ∈ group, details.deferUsage = some u := by
  rw [usagesOf, List.mem_eraseDups, List.mem_filterMap]

theorem not_any_isNone :
    ¬group.any (·.deferUsage.isNone) = true ↔ ∀ details ∈ group, details.deferUsage ≠ none := by
  simp

theorem mem_filter_usagesOf :
    u ∈ ((usagesOf group).filter fun usage => !usage.ancestors.any ((usagesOf group).contains ·)) ↔
      u ∈ usagesOf group ∧ ∀ a ∈ u.ancestors, a ∉ usagesOf group := by
  rw [List.mem_filter, Bool.not_eq_true', List.any_eq_false]
  simp only [List.contains_iff_mem]

theorem nodup_getFilteredDeferUsageSet : (getFilteredDeferUsageSet group).Nodup := by
  unfold getFilteredDeferUsageSet
  split
  case isTrue  => exact List.nodup_nil
  case isFalse => exact (Batch.nodup_eraseDups _).filter _

-- Where all members are deferred, their usages are kept that have no ancestor among them.
theorem mem_getFilteredDeferUsageSet (h : ∀ details ∈ group, details.deferUsage ≠ none) :
    u ∈ getFilteredDeferUsageSet group ↔ u ∈ usagesOf group ∧ ∀ a ∈ u.ancestors, a ∉ usagesOf group := by
  rw [getFilteredDeferUsageSet, if_neg (not_any_isNone.mpr h)]
  exact mem_filter_usagesOf

-- A group has members, so that it has no usages only if one of them is not deferred.
theorem getFilteredDeferUsageSet_eq_nil_iff (hg : group ≠ []) :
    getFilteredDeferUsageSet group = [] ↔ ∃ details ∈ group, details.deferUsage = none := by
  by_cases h : ∀ details ∈ group, details.deferUsage ≠ none
  case neg =>
    rw [getFilteredDeferUsageSet, if_pos (not_not.mp (mt not_any_isNone.mp h))]
    simpa using h
  case pos =>
    have hne : getFilteredDeferUsageSet group ≠ [] := by
      obtain ⟨details, hd⟩ := List.exists_mem_of_ne_nil group hg
      obtain ⟨usage, hu⟩ := Option.ne_none_iff_exists'.mp (h details hd)
      have hm : usage ∈ usagesOf group := mem_usagesOf.mpr ⟨details, hd, hu⟩
      obtain ⟨u, hu, ho⟩ := DeferUsage.exists_outermost (List.ne_nil_of_mem hm)
      exact List.ne_nil_of_mem ((mem_getFilteredDeferUsageSet h).mpr ⟨hu, ho⟩)
    exact iff_of_false hne fun ⟨details, hd, hn⟩ => h details hd hn

-- The key of a group is the set of its usages.
def keyed (group : List DeferUsage × GroupedFieldSet A F) : Finset DeferUsage × GroupedFieldSet A F :=
  (group.fst.toFinset, group.snd)

theorem map_keyed_addToGroup (h : ((groups.map keyed).map (·.fst)).Nodup) :
    (addToGroup usages entry groups).map keyed =
      Batch.addToGroup (groups.map keyed) (usages.toFinset, entry) := by
  induction groups
  case nil                => rfl
  case cons group rest hi =>
    rw [List.map_cons, List.map_cons, List.nodup_cons] at h
    rw [addToGroup]
    split
    case isTrue hs  =>
      have hk : (keyed group).fst = usages.toFinset := (sameUsages_iff.mp hs).symm
      rw [List.map_cons, List.map_cons, Batch.addToGroup_cons_of_eq hk (hk ▸ h.left)]
      rfl
    case isFalse hs =>
      have hk : (keyed group).fst ≠ usages.toFinset := fun he => hs (sameUsages_iff.mpr he.symm)
      rw [List.map_cons, List.map_cons, hi h.right, Batch.addToGroup_cons_of_ne hk]

-- The fields of a level that are not run now, under the keys of their groups.
def deferredFields (entries : GroupedFieldSet A F) : List (Finset DeferUsage × String × List (FieldDetails A F)) :=
  entries.map fun entry => ((getFilteredDeferUsageSet entry.snd).toFinset, entry)

theorem map_keyed_foldl (entries : GroupedFieldSet A F) :
    (entries.foldl (fun groups entry => addToGroup (getFilteredDeferUsageSet entry.snd) entry groups) []).map keyed =
      (deferredFields entries).foldl Batch.addToGroup [] := by
  induction entries using List.reverseRecOn
  case nil                     => rfl
  case append_singleton l x hi =>
    have hg := (Batch.grouped (deferredFields l)).nodup
    rw [← hi] at hg
    rw [List.foldl_append, List.foldl_cons, List.foldl_nil, map_keyed_addToGroup hg, hi]
    simp only [deferredFields, List.map_append, List.map_cons, List.map_nil, List.foldl_append, List.foldl_cons,
      List.foldl_nil]

-- The groups of the fields that are deferred.
def newGroups (entries : GroupedFieldSet A F) : List (List DeferUsage × GroupedFieldSet A F) :=
  entries.foldl (fun groups entry => addToGroup (getFilteredDeferUsageSet entry.snd) entry groups) []

theorem grouped_newGroups (entries : GroupedFieldSet A F) :
    Batch.Grouped (deferredFields entries) ((newGroups entries).map keyed) := by
  rw [newGroups, map_keyed_foldl]
  exact Batch.grouped (deferredFields entries)

theorem nodup_newGroups (entries : GroupedFieldSet A F) :
    ((newGroups entries).map (·.fst.toFinset)).Nodup := by
  have h := (grouped_newGroups entries).nodup
  rwa [List.map_map] at h

-- A group has the fields of its key in the order of the response.
theorem snd_of_mem_newGroups {entries : GroupedFieldSet A F} {group : List DeferUsage × GroupedFieldSet A F}
    (h : group ∈ newGroups entries) :
    group.snd = entries.filter fun entry => (getFilteredDeferUsageSet entry.snd).toFinset = group.fst.toFinset := by
  have hm := (grouped_newGroups entries).members (keyed group) (List.mem_map_of_mem h)
  rw [deferredFields, List.filter_map, List.map_map] at hm
  exact hm.trans (List.map_id _)

theorem exists_newGroup_iff {entries : GroupedFieldSet A F} {key : Finset DeferUsage} :
    (∃ group ∈ newGroups entries, group.fst.toFinset = key) ↔
      ∃ entry ∈ entries, (getFilteredDeferUsageSet entry.snd).toFinset = key := by
  have h := (grouped_newGroups entries).key_mem key
  simpa only [deferredFields, List.map_map, List.mem_map, Function.comp_apply, keyed] using h

-- What is left to groups is all of it, each field once.
theorem newGroups_perm (entries : GroupedFieldSet A F) : ((newGroups entries).flatMap (·.snd)).Perm entries := by
  have hadd (entry : String × List (FieldDetails A F)) (groups : List (List DeferUsage × GroupedFieldSet A F)) :
      ((addToGroup (getFilteredDeferUsageSet entry.snd) entry groups).flatMap (·.snd)).Perm
        (groups.flatMap (·.snd) ++ [entry]) := by
    induction groups
    case nil                => exact .refl _
    case cons group rest hi =>
      rw [addToGroup]
      split
      case isTrue  =>
        rw [List.flatMap_cons, List.flatMap_cons, List.append_assoc, List.append_assoc]
        exact List.perm_append_comm.append_left _
      case isFalse =>
        rw [List.flatMap_cons, List.flatMap_cons, List.append_assoc]
        exact hi.append_left _
  induction entries using List.reverseRecOn
  case nil                     => exact .refl _
  case append_singleton l x hi =>
    rw [newGroups, List.foldl_append]
    exact (hadd x _).trans (hi.append_right _)

-- Both ways to split a level are the same.
theorem partitionDefer_eq :
    partitionDefer collected parents = ((buildExecutionPlanGroups collected parents).fst,
      (buildExecutionPlanGroups collected parents).snd.newGroups) := by
  rw [partitionDefer, buildExecutionPlanGroups]
  dsimp only
  induction collected.groupedFieldSet using List.reverseRecOn
  case nil                     => rfl
  case append_singleton l x hi =>
    rw [List.foldl_append, List.filter_append, List.filter_append, List.foldl_append, hi]
    cases hs : sameUsages (getFilteredDeferUsageSet x.snd) parents <;> simp [hs]

-- Field details are collected under their response names, so that a name comes once and with some of them.
structure CollectedFields.Valid (collected : CollectedFields A F) : Prop where
  nodup    : (collected.groupedFieldSet.map (·.fst)).Nodup
  nonempty : ∀ entry ∈ collected.groupedFieldSet, entry.snd ≠ []

-- A level is split by the sets of usages that govern its fields.
structure Partition (collected : CollectedFields A F) (parents : List DeferUsage) (initial : GroupedFieldSet A F)
    (groups : List (List DeferUsage × GroupedFieldSet A F)) : Prop where
  unfiltered : ∀ entry ∈ collected.groupedFieldSet,
    getFilteredDeferUsageSet entry.snd = [] ↔ ∃ details ∈ entry.snd, details.deferUsage = none
  filtered   : ∀ entry ∈ collected.groupedFieldSet, (∀ details ∈ entry.snd, details.deferUsage ≠ none) →
    (getFilteredDeferUsageSet entry.snd).Nodup ∧ ∀ u, u ∈ getFilteredDeferUsageSet entry.snd ↔
      (∃ details ∈ entry.snd, details.deferUsage = some u) ∧
        ∀ a ∈ u.ancestors, ¬∃ details ∈ entry.snd, details.deferUsage = some a
  initial_eq : initial = collected.groupedFieldSet.filter fun entry =>
    (getFilteredDeferUsageSet entry.snd).toFinset = parents.toFinset
  group_eq   : ∀ group ∈ groups, group.snd = collected.groupedFieldSet.filter fun entry =>
    (getFilteredDeferUsageSet entry.snd).toFinset = group.fst.toFinset
  keys       : (parents.toFinset :: groups.map (·.fst.toFinset)).Nodup
  covered    : ∀ entry ∈ collected.groupedFieldSet,
    (getFilteredDeferUsageSet entry.snd).toFinset ∈ parents.toFinset :: groups.map (·.fst.toFinset)
  nonempty   : ∀ group ∈ groups, group.snd ≠ []
  once       : ∀ name ∈ collected.groupedFieldSet.map (·.fst),
    ((initial ++ groups.flatMap (·.snd)).map (·.fst)).count name = 1

-- Splitting a level leaves each of its fields at one place, which the usages of the field tell: the fields of the
-- usages above the level are run now, and there is one group for each other set of usages.
theorem buildExecutionPlanGroups_partition (collected : CollectedFields A F) (parents : List DeferUsage)
    (h : collected.Valid) :
    Partition collected parents (buildExecutionPlanGroups collected parents).fst
        (buildExecutionPlanGroups collected parents).snd.newGroups ∧
      partitionDefer collected parents = ((buildExecutionPlanGroups collected parents).fst,
        (buildExecutionPlanGroups collected parents).snd.newGroups) := by
  let isInitial (entry : String × List (FieldDetails A F)) : Bool :=
    sameUsages (getFilteredDeferUsageSet entry.snd) parents
  let others := collected.groupedFieldSet.filter (!isInitial ·)
  have hi (entry : String × List (FieldDetails A F)) :
      isInitial entry = true ↔ (getFilteredDeferUsageSet entry.snd).toFinset = parents.toFinset := sameUsages_iff
  have hother {entry : String × List (FieldDetails A F)} : entry ∈ others ↔ entry ∈ collected.groupedFieldSet ∧
      (getFilteredDeferUsageSet entry.snd).toFinset ≠ parents.toFinset := by
    rw [List.mem_filter, Bool.not_eq_true', ← Bool.not_eq_true, hi]
  -- the key of a group is that of one of its fields
  have hkey {group : List DeferUsage × GroupedFieldSet A F} (hg : group ∈ newGroups others) :
      ∃ entry ∈ others, (getFilteredDeferUsageSet entry.snd).toFinset = group.fst.toFinset :=
    exists_newGroup_iff.mp ⟨group, hg, rfl⟩
  have hne {group : List DeferUsage × GroupedFieldSet A F} (hg : group ∈ newGroups others) :
      group.fst.toFinset ≠ parents.toFinset := by
    obtain ⟨entry, he, hk⟩ := hkey hg
    exact hk ▸ (hother.mp he).right
  refine ⟨?_, partitionDefer_eq⟩
  change Partition collected parents (collected.groupedFieldSet.filter isInitial) (newGroups others)
  constructor
  case unfiltered => exact fun entry he => getFilteredDeferUsageSet_eq_nil_iff (h.nonempty entry he)
  case filtered   =>
    intro entry _ hd
    refine ⟨nodup_getFilteredDeferUsageSet, fun u => ?_⟩
    rw [mem_getFilteredDeferUsageSet hd]
    simp only [mem_usagesOf]
  case initial_eq => exact List.filter_congr fun entry _ => Bool.eq_iff_iff.mpr (by simpa using hi entry)
  case group_eq   =>
    intro group hg
    rw [snd_of_mem_newGroups hg, List.filter_filter]
    refine List.filter_congr fun entry _ => ?_
    rw [Bool.and_eq_left_iff_imp, decide_eq_true_eq, Bool.not_eq_true', ← Bool.not_eq_true, hi]
    exact fun he => he ▸ hne hg
  case keys       =>
    refine List.nodup_cons.mpr ⟨fun hm => ?_, nodup_newGroups others⟩
    obtain ⟨group, hg, hk⟩ := List.mem_map.mp hm
    exact hne hg hk
  case covered    =>
    intro entry he
    by_cases hp : (getFilteredDeferUsageSet entry.snd).toFinset = parents.toFinset
    case pos => exact hp ▸ .head _
    case neg =>
      obtain ⟨group, hg, hk⟩ := exists_newGroup_iff.mpr ⟨entry, hother.mpr ⟨he, hp⟩, rfl⟩
      exact .tail _ (List.mem_map.mpr ⟨group, hg, hk⟩)
  case nonempty   =>
    intro group hg
    obtain ⟨entry, he, hk⟩ := hkey hg
    rw [snd_of_mem_newGroups hg]
    exact List.ne_nil_of_mem (List.mem_filter.mpr ⟨he, decide_eq_true hk⟩)
  case once       =>
    intro name hn
    have hp : (collected.groupedFieldSet.filter isInitial ++ (newGroups others).flatMap (·.snd)).Perm
        collected.groupedFieldSet :=
      ((newGroups_perm others).append_left _).trans (List.filter_append_perm isInitial _)
    rw [(hp.map _).count_eq]
    exact List.count_eq_one_of_mem h.nodup hn

namespace Profile

def summary : DeferUsage :=
  .outermost 0 (some "summary")

def history : DeferUsage :=
  .nested 1 (some "history") summary

def posts : DeferUsage :=
  .outermost 2 none

def field (name : String) (usages : List (Option DeferUsage)) : String × List (FieldDetails Unit String) :=
  (name, usages.map fun usage => ⟨⟨name, [], []⟩, usage⟩)

-- Fields outside and inside of three fragments, one of which is inside of another.
def profile : CollectedFields Unit String where
  groupedFieldSet :=
    [field "name" [some summary, none], field "bio" [some history, some summary], field "posts" [some posts],
      field "logins" [some history], field "age" [some summary], field "avatar" [some posts, some summary],
      field "photo" [some summary, some posts, some history]]
  newDeferUsages  := [summary, history, posts]

theorem profile_partition :
    Partition profile [] [field "name" [some summary, none]]
      [([summary], [field "bio" [some history, some summary], field "age" [some summary]]),
        ([posts], [field "posts" [some posts]]), ([history], [field "logins" [some history]]),
        ([posts, summary], [field "avatar" [some posts, some summary],
          field "photo" [some summary, some posts, some history]])] :=
  (buildExecutionPlanGroups_partition profile [] ⟨by decide, by decide⟩).left

end Profile

end Grafast.Collection
