import Grafast.Incremental.Theorems.Promote

namespace Grafast.IncGraph

set_option linter.unusedSectionVars false

variable {U K D E : Type} [DecidableEq U] [DecidableEq K] [DecidableEq D] [DecidableEq E]

def Completed.group? : Completed U K D E → Option (Group U K)
  | group result => some result.group
  | items _ _ _ _ => none
  | done _ _      => none

namespace Graph

section

variable (g : Graph U K D E) (group : Group U K)

-- How often a group is under way: collected, running or with a result that waits to be published.
def flights : Nat :=
  g.pendingRuns.count group + g.running.count group + (g.completedQueue.filterMap (·.group?)).count group

def isPending : Bool :=
  g.pendingGroups.any (·.2 = group)

-- How often the result of a group waits for the other groups of a fragment.
def results (f : Fragment U) : Nat :=
  g.successfulGroups.countP fun entry => entry.1 = f ∧ entry.2.group = group

-- A group waits to be run, waits for its result, waits with its result, or is delivered.
structure Accounted (delivered : Nat) : Prop where
  once    : ∀ f ∈ group.deferRecords, (g.isPending group).toNat + g.results group f + delivered = 1
  flights : g.flights group = (g.isPending group && g.completesRootNode group).toNat
  waits   : ∀ f ∈ group.deferRecords, 0 < g.results group f → g.completesRootNode group = true

end

-- What becomes of the groups. One that was made is accounted for, unless a fragment of it has failed.
structure Accounts (g : Graph U K D E) (made : Group U K → Prop) (failed : Fragment U → Prop)
    (delivered : Group U K → Nat) : Prop where
  consistent : g.Consistent
  distinct   : g.pendingGroups.Nodup
  members    : ∀ f result, (f, result) ∈ g.successfulGroups → f ∈ result.group.deferRecords
  equal      : ∀ result f other, f ∈ result.group.deferRecords → other ∈ result.group.deferRecords →
    g.successfulGroups.count (f, result) = g.successfulGroups.count (other, result)
  flying     : ∀ f group, g.isRoot f = true → (f, group) ∈ g.pendingGroups → 0 < g.flights group
  unmade     : ∀ group, ¬made group →
    g.isPending group = false ∧ g.flights group = 0 ∧ (∀ f, g.results group f = 0) ∧ delivered group = 0
  clean      : ∀ group, made group → (∀ f ∈ group.deferRecords, ¬failed f) → g.Accounted group (delivered group)

variable {g : Graph U K D E} {f : Fragment U} {group : Group U K}

theorem isPending_iff : g.isPending group = true ↔ ∃ f, (f, group) ∈ g.pendingGroups := by
  simp [isPending]

theorem isPending_false : g.isPending group = false ↔ ∀ f, (f, group) ∉ g.pendingGroups := by
  rw [← Bool.not_eq_true, isPending_iff, not_exists]

theorem Consistent.mem_of_isPending (hc : g.Consistent) (h : g.isPending group = true)
    (hf : f ∈ group.deferRecords) : (f, group) ∈ g.pendingGroups := by
  obtain ⟨other, h⟩ := isPending_iff.mp h
  exact (hc other group h).2 f hf

theorem results_pos : 0 < g.results group f ↔ ∃ result, result.group = group ∧ (f, result) ∈ g.successfulGroups := by
  simp only [results, List.countP_pos_iff, decide_eq_true_eq]
  constructor
  · rintro ⟨⟨a, result⟩, h, rfl, hg⟩
    exact ⟨result, hg, h⟩
  · rintro ⟨result, hg, h⟩
    exact ⟨(f, result), h, rfl, hg⟩

theorem countP_successfulOf : (g.successfulOf f).countP (·.group = group) = g.results group f := by
  simp [successfulOf, valuesOf, results, List.countP_map, List.countP_filter, Function.comp_def, Bool.and_comm]

-- What does not touch the groups keeps their accounts.
theorem Accounted.congr {g' : Graph U K D E} {delivered : Nat} (h : g.Accounted group delivered)
    (hp : g'.isPending group = g.isPending group) (hr : ∀ f ∈ group.deferRecords, g'.results group f = g.results group f)
    (hf : g'.flights group = g.flights group) (hc : g'.completesRootNode group = g.completesRootNode group) :
    g'.Accounted group delivered where
  once    := fun f hm => by rw [hp, hr f hm, h.once f hm]
  flights := by rw [hf, hp, hc, h.flights]
  waits   := fun f hm hw => by
    rw [hc]
    exact h.waits f hm (hr f hm ▸ hw)

namespace Accounts

variable {made : Group U K → Prop} {failed : Fragment U → Prop} {delivered : Group U K → Nat}

-- Flights may come to be counted elsewhere.
theorem of_flights {g' : Graph U K D E} (a : g.Accounts made failed delivered)
    (hroot : g'.isRoot = g.isRoot) (hp : g'.pendingGroups = g.pendingGroups)
    (hs : g'.successfulGroups = g.successfulGroups) (hf : ∀ group, g'.flights group = g.flights group) :
    g'.Accounts made failed delivered := by
  have hpend : g'.isPending = g.isPending := by
    funext group
    rw [isPending, hp, isPending]
  have hres : g'.results = g.results := by
    funext group f
    rw [results, hs, results]
  refine ⟨?_, hp ▸ a.distinct, ?_, ?_, ?_, ?_, ?_⟩
  · unfold Consistent
    rw [hp]
    exact a.consistent
  · rw [hs]
    exact a.members
  · rw [hs]
    exact a.equal
  · intro f group h hm
    rw [hf]
    exact a.flying f group (hroot ▸ h) (hp ▸ hm)
  · intro group h
    rw [hf, hpend, hres]
    exact a.unmade group h
  · intro group hm hc
    refine (a.clean group hm hc).congr (by rw [hpend]) (fun f _ => by rw [hres]) (hf group) ?_
    rw [completesRootNode, hroot, completesRootNode]

-- A group that runs comes to its end.
theorem finish (a : g.Accounts made failed delivered) {result : GroupResult U K D E}
    (h : result.group ∈ g.running) : Accounts { g with
      running        := g.running.erase result.group
      completedQueue := g.completedQueue ++ [.group result] } made failed delivered := by
  refine a.of_flights ?_ ?_ ?_ fun group => ?_
  iterate 3 rfl
  simp only [flights, List.filterMap_append, List.count_append, List.filterMap_cons, List.filterMap_nil,
    Completed.group?]
  by_cases hg : group = result.group
  · subst hg
    have := List.count_pos_iff.mpr h
    rw [List.count_erase_self, List.count_singleton_self]
    omega
  · rw [List.count_erase_of_ne hg, List.count_singleton, if_neg (by simpa using fun h => hg h.symm)]
    rfl

theorem flushRuns (a : g.Accounts made failed delivered) : g.flushRuns.Accounts made failed delivered := by
  refine a.of_flights ?_ ?_ ?_ fun group => ?_
  iterate 3 rfl
  simp [flights, Graph.flushRuns, Nat.add_comm]

-- A record of another kind comes into the queue.
theorem enqueue (a : g.Accounts made failed delivered) {completed : Completed U K D E} (h : completed.group? = none)
    (draining : List (Stream K)) : Accounts { g with
      draining, completedQueue := g.completedQueue ++ [completed] } made failed delivered := by
  refine a.of_flights ?_ ?_ ?_ fun group => ?_
  iterate 3 rfl
  simp [flights, h]

-- Such a record is taken up, and root nodes may go with it, though none that are fragments.
theorem dequeue (a : g.Accounts made failed delivered) {completed : Completed U K D E}
    {queue : List (Completed U K D E)} (hq : g.completedQueue = completed :: queue) (h : completed.group? = none)
    {roots : List (Node U K)} (hr : ∀ f, .fragment f ∈ roots ↔ .fragment f ∈ g.rootNodes) :
    Accounts { g with rootNodes := roots, completedQueue := queue } made failed delivered := by
  refine a.of_flights (funext fun f => ?_) rfl rfl fun group => ?_
  · rw [Bool.eq_iff_iff, isRoot_iff, isRoot_iff]
    exact hr f
  · simp [flights, hq, h]

end Accounts

-- The graph once the result at the head of the queue is taken from it.
theorem flights_dequeue {result : GroupResult U K D E} {queue : List (Completed U K D E)}
    (hq : g.completedQueue = .group result :: queue) : g.flights group =
      flights { g with completedQueue := queue } group + if result.group = group then 1 else 0 := by
  simp [flights, hq, Completed.group?, List.count_cons, Nat.add_assoc]

theorem recordSuccess_eq (result : GroupResult U K D E) : g.recordSuccess result = { g with
    pendingGroups    := (result.group.deferRecords.map (·, result.group)).foldl List.erase g.pendingGroups
    successfulGroups := g.successfulGroups ++ result.group.deferRecords.map (·, result) } := by
  unfold recordSuccess
  generalize result.group.deferRecords = records
  induction records generalizing g with
  | nil => simp
  | cons f records ih =>
    rw [List.foldl_cons, ih]
    simp

theorem mem_foldl_erase {α : Type} [BEq α] [LawfulBEq α] {l removed : List α} (h : l.Nodup) {x : α} :
    x ∈ removed.foldl List.erase l ↔ x ∈ l ∧ x ∉ removed := by
  induction removed generalizing l with
  | nil => simp
  | cons y removed ih =>
    rw [List.foldl_cons, ih (h.erase y), h.mem_erase_iff, List.mem_cons, not_or]
    tauto

theorem foldl_erase_nodup {α : Type} [BEq α] [LawfulBEq α] {l removed : List α} (h : l.Nodup) :
    (removed.foldl List.erase l).Nodup := by
  induction removed generalizing l with
  | nil => exact h
  | cons y removed ih => exact ih (h.erase y)

theorem count_pairs (result r : GroupResult U K D E) (f : Fragment U) :
    (result.group.deferRecords.map (·, result)).count (f, r) =
      if result = r ∧ f ∈ r.group.deferRecords then 1 else 0 := by
  rw [(result.group.nodup.map fun _ _ h => (Prod.ext_iff.mp h).1).count]
  congr 1
  rw [List.mem_map]
  apply propext
  constructor
  · rintro ⟨x, hx, h⟩
    cases h
    exact ⟨rfl, hx⟩
  · rintro ⟨rfl, hf⟩
    exact ⟨f, hf, rfl⟩

-- A group that succeeds is pending no more.
theorem mem_recordSuccess_pendingGroups (hc : g.Consistent) (hd : g.pendingGroups.Nodup)
    (result : GroupResult U K D E) :
    (f, group) ∈ (g.recordSuccess result).pendingGroups ↔ (f, group) ∈ g.pendingGroups ∧ group ≠ result.group := by
  have hm : (f, group) ∈ result.group.deferRecords.map (·, result.group) ↔
      f ∈ result.group.deferRecords ∧ group = result.group := by
    simp only [List.mem_map, Prod.mk.injEq]
    constructor
    · rintro ⟨a, ha, rfl, rfl⟩
      exact ⟨ha, rfl⟩
    · rintro ⟨hf, rfl⟩
      exact ⟨f, hf, rfl, rfl⟩
  rw [recordSuccess_eq]
  change (f, group) ∈ List.foldl List.erase _ _ ↔ _
  rw [mem_foldl_erase hd, hm]
  refine and_congr_right fun h => ?_
  constructor
  · rintro hn rfl
    exact hn ⟨(hc f _ h).1, rfl⟩
  · exact fun hn h => hn h.2

theorem results_recordSuccess (result : GroupResult U K D E) : (g.recordSuccess result).results group f =
    g.results group f + if result.group = group ∧ f ∈ group.deferRecords then 1 else 0 := by
  have hv : ∀ records : List (Fragment U), records.Nodup →
      (records.map (·, result)).countP (fun entry => entry.1 = f ∧ entry.2.group = group) =
        if result.group = group ∧ f ∈ records then 1 else 0 := by
    intro records hn
    rw [List.countP_map]
    by_cases hg : result.group = group
    · have : ((fun entry : Fragment U × GroupResult U K D E => decide (entry.1 = f ∧ entry.2.group = group)) ∘
          fun x => (x, result)) = (· == f) := by
        funext a
        simp [hg, beq_eq_decide]
      rw [this]
      simpa [hg, List.count] using hn.count
    · simp [Function.comp_def, hg]
  rw [recordSuccess_eq, results, List.countP_append, hv _ result.group.nodup]
  congr 1
  by_cases hg : result.group = group
  · rw [hg]
  · simp [hg]

theorem isRoot_recordSuccess (result : GroupResult U K D E) : (g.recordSuccess result).isRoot = g.isRoot := by
  funext a
  rw [recordSuccess_eq]
  rfl

theorem flights_recordSuccess (result : GroupResult U K D E) :
    (g.recordSuccess result).flights group = g.flights group := by
  rw [recordSuccess_eq]
  rfl

theorem isPending_recordSuccess (hc : g.Consistent) (hd : g.pendingGroups.Nodup) (result : GroupResult U K D E) :
    (g.recordSuccess result).isPending group = true ↔ g.isPending group = true ∧ group ≠ result.group := by
  simp only [isPending_iff, mem_recordSuccess_pendingGroups hc hd, exists_and_right]

namespace Accounts

variable {made : Group U K → Prop} {failed : Fragment U → Prop} {delivered : Group U K → Nat}

-- A result at the head of the queue is that of a group that is pending, and the only one of it.
theorem head (a : g.Accounts made failed delivered) {result : GroupResult U K D E}
    {queue : List (Completed U K D E)} (hq : g.completedQueue = .group result :: queue) :
    made result.group ∧ ((∀ f ∈ result.group.deferRecords, ¬failed f) →
      g.isPending result.group = true ∧ g.completesRootNode result.group = true ∧ g.flights result.group = 1) := by
  have hf : 0 < g.flights result.group := by
    rw [flights_dequeue hq, if_pos rfl]
    exact Nat.succ_pos _
  have hm : made result.group := by
    by_contra hm
    exact hf.ne' (a.unmade _ hm).2.1
  refine ⟨hm, fun hc => ?_⟩
  have h := (a.clean _ hm hc).flights
  cases hp : g.isPending result.group <;> cases hr : g.completesRootNode result.group <;>
    simp [hp, hr] at h <;> simp [h] at hf ⊢

-- A group that has succeeded waits with its result.
theorem recordSuccess (a : g.Accounts made failed delivered) {result : GroupResult U K D E}
    {queue : List (Completed U K D E)} (hq : g.completedQueue = .group result :: queue) :
    (Graph.recordSuccess { g with completedQueue := queue } result).Accounts made failed delivered := by
  have hc : Consistent { g with completedQueue := queue } := a.consistent
  have hm : ∀ f group, (f, group) ∈ (Graph.recordSuccess { g with completedQueue := queue } result).pendingGroups ↔
      (f, group) ∈ g.pendingGroups ∧ group ≠ result.group :=
    fun _ _ => mem_recordSuccess_pendingGroups hc a.distinct result
  have hr := isRoot_recordSuccess (g := { g with completedQueue := queue }) result
  have hfl : ∀ group, group ≠ result.group →
      (Graph.recordSuccess { g with completedQueue := queue } result).flights group = g.flights group := by
    intro group h
    rw [flights_recordSuccess, flights_dequeue hq, if_neg h.symm, Nat.add_zero]
  have hpe : ∀ group, group ≠ result.group →
      (Graph.recordSuccess { g with completedQueue := queue } result).isPending group = g.isPending group := by
    intro group h
    rw [Bool.eq_iff_iff, isPending_recordSuccess hc a.distinct]
    exact and_iff_left h
  have hre : ∀ group f, group ≠ result.group →
      (Graph.recordSuccess { g with completedQueue := queue } result).results group f = g.results group f := by
    intro group f h
    rw [results_recordSuccess, if_neg fun hn => h hn.1.symm]
    rfl
  have hco : ∀ group, (Graph.recordSuccess { g with completedQueue := queue } result).completesRootNode group =
      g.completesRootNode group := by
    intro group
    rw [completesRootNode, hr]
    rfl
  have hmade := (a.head hq).1
  refine ⟨?_, ?_, ?_, ?_, ?_, ?_, ?_⟩
  · intro f group h
    obtain ⟨h, hn⟩ := (hm f group).mp h
    exact ⟨(a.consistent f group h).1, fun other ho => (hm other group).mpr ⟨(a.consistent f group h).2 other ho, hn⟩⟩
  · rw [recordSuccess_eq]
    exact foldl_erase_nodup a.distinct
  · intro f r h
    rw [recordSuccess_eq] at h
    rcases List.mem_append.mp h with h | h
    · exact a.members f r h
    · obtain ⟨x, hx, he⟩ := List.mem_map.mp h
      cases he
      exact hx
  · intro r f other hf ho
    rw [recordSuccess_eq]
    simp only [List.count_append, count_pairs, hf, ho, a.equal r f other hf ho]
  · intro f group h hp
    obtain ⟨hp, hn⟩ := (hm f group).mp hp
    rw [hfl group hn]
    exact a.flying f group (hr ▸ h) hp
  · intro group h
    have hn : group ≠ result.group := fun he => h (he ▸ hmade)
    rw [hfl group hn, hpe group hn]
    obtain ⟨h₁, h₂, h₃, h₄⟩ := a.unmade group h
    exact ⟨h₁, h₂, fun f => (hre group f hn).trans (h₃ f), h₄⟩
  · intro group h hcl
    by_cases hn : group = result.group
    · subst hn
      obtain ⟨hp, hcr, hfly⟩ := (a.head hq).2 hcl
      have hpn : (Graph.recordSuccess { g with completedQueue := queue } result).isPending result.group = false := by
        rw [← Bool.not_eq_true, isPending_recordSuccess hc a.distinct]
        exact fun h => h.2 rfl
      have hres : ∀ f ∈ result.group.deferRecords,
          (Graph.recordSuccess { g with completedQueue := queue } result).results result.group f =
            g.results result.group f + 1 := by
        intro f hf
        rw [results_recordSuccess, if_pos ⟨rfl, hf⟩]
        rfl
      refine ⟨?_, ?_, ?_⟩
      · intro f hf
        have := (a.clean _ h hcl).once f hf
        rw [hp] at this
        rw [hpn, hres f hf]
        simpa [Nat.add_comm] using this
      · rw [flights_dequeue hq, if_pos rfl] at hfly
        rw [hpn, flights_recordSuccess]
        simpa using hfly
      · exact fun _ _ _ => (hco _).trans hcr
    · exact (a.clean group h hcl).congr (hpe group hn) (fun f _ => hre group f hn) (hfl group hn) (hco group)

end Accounts

theorem count_foldl_erase {α : Type} [BEq α] [LawfulBEq α] (l removed : List α) (x : α) :
    (removed.foldl List.erase l).count x = l.count x - removed.count x := by
  induction removed generalizing l with
  | nil => simp
  | cons y removed ih =>
    rw [List.foldl_cons, ih, List.count_erase, List.count_cons, Nat.sub_sub, Nat.add_comm]

theorem countP_congr_count {α : Type} [BEq α] [LawfulBEq α] {l l' : List α} {p : α → Bool}
    (h : ∀ x, p x = true → l.count x = l'.count x) : l.countP p = l'.countP p := by
  rw [List.countP_eq_length_filter, List.countP_eq_length_filter]
  apply List.Perm.length_eq
  rw [List.perm_iff_count]
  intro x
  by_cases hx : p x = true
  · rw [List.count_filter hx, List.count_filter hx, h x hx]
  · rw [List.count_eq_zero_of_not_mem fun hm => hx (List.mem_filter.mp hm).2,
      List.count_eq_zero_of_not_mem fun hm => hx (List.mem_filter.mp hm).2]

theorem popSuccessful_eq (result : GroupResult U K D E) : g.popSuccessful result = { g with
    successfulGroups := (result.group.deferRecords.map (·, result)).foldl List.erase g.successfulGroups } := by
  unfold popSuccessful
  generalize result.group.deferRecords = records
  induction records generalizing g with
  | nil => rfl
  | cons f records ih => exact ih

theorem count_popSuccessful (results : List (GroupResult U K D E)) (f : Fragment U) (r : GroupResult U K D E) :
    (results.foldl popSuccessful g).successfulGroups.count (f, r) =
      g.successfulGroups.count (f, r) - if f ∈ r.group.deferRecords then results.count r else 0 := by
  induction results generalizing g with
  | nil => simp
  | cons result results ih =>
    have hp : (g.popSuccessful result).successfulGroups.count (f, r) =
        g.successfulGroups.count (f, r) - if result = r ∧ f ∈ r.group.deferRecords then 1 else 0 := by
      rw [popSuccessful_eq, ← count_pairs]
      exact count_foldl_erase _ _ _
    rw [List.foldl_cons, ih, hp, List.count_cons]
    by_cases hf : f ∈ r.group.deferRecords <;> by_cases hr : result = r <;> simp [hf, hr, Nat.sub_sub, Nat.add_comm]

-- The graph without a fragment that is complete, and without the results that it delivers.
def without (g : Graph U K D E) (f : Fragment U) : Graph U K D E :=
  (g.successfulOf f).foldl popSuccessful (g.removeRootNode (.fragment f))

theorem without_frame : g.without f = { g with
    rootNodes        := g.rootNodes.erase (.fragment f)
    successfulGroups := (g.without f).successfulGroups } := by
  have : ∀ (results : List (GroupResult U K D E)) (g : Graph U K D E), results.foldl popSuccessful g =
      { g with successfulGroups := (results.foldl popSuccessful g).successfulGroups } := by
    intro results
    induction results with
    | nil => exact fun g => rfl
    | cons result results ih =>
      intro g
      rw [List.foldl_cons, ih, popSuccessful_eq]
  rw [without, this]
  rfl

theorem count_successfulOf (r : GroupResult U K D E) : (g.successfulOf f).count r = g.successfulGroups.count (f, r) := by
  rw [successfulOf, valuesOf, List.count, List.countP_map, List.countP_filter, List.count]
  congr 1
  funext entry
  rw [Bool.eq_iff_iff]
  simp [Prod.ext_iff, and_comm]

namespace Accounts

variable {made : Group U K → Prop} {failed : Fragment U → Prop} {delivered : Group U K → Nat}

-- What a fragment delivers is taken from all the fragments that it would be delivered for.
theorem count_without (a : g.Accounts made failed delivered) (f other : Fragment U) (r : GroupResult U K D E) :
    (g.without f).successfulGroups.count (other, r) =
      if f ∈ r.group.deferRecords then 0 else g.successfulGroups.count (other, r) := by
  rw [without, count_popSuccessful, count_successfulOf]
  have none : ∀ x, x ∉ r.group.deferRecords → g.successfulGroups.count (x, r) = 0 := fun x hx =>
    List.count_eq_zero_of_not_mem fun h => hx (a.members x r h)
  by_cases hf : f ∈ r.group.deferRecords <;> by_cases ho : other ∈ r.group.deferRecords
  · rw [if_pos hf, if_pos ho, a.equal r f other hf ho]
    exact Nat.sub_self _
  · rw [if_pos hf, if_neg ho]
    exact (Nat.sub_zero _).trans (none other ho)
  · rw [if_neg hf, if_pos ho, none f hf]
    rfl
  · rw [if_neg hf, if_neg ho]
    rfl

theorem results_without (a : g.Accounts made failed delivered) (f other : Fragment U) (group : Group U K) :
    (g.without f).results group other = if f ∈ group.deferRecords then 0 else g.results group other := by
  by_cases hf : f ∈ group.deferRecords
  · rw [if_pos hf, results, List.countP_eq_zero]
    rintro ⟨x, r⟩ hm h
    obtain ⟨rfl, rfl⟩ := of_decide_eq_true h
    have := List.count_pos_iff.mpr hm
    rw [a.count_without, if_pos hf] at this
    exact this.false
  · rw [if_neg hf, results, results]
    apply countP_congr_count
    rintro ⟨x, r⟩ h
    obtain ⟨-, rfl⟩ := of_decide_eq_true h
    rw [a.count_without, if_neg hf]

theorem without (a : g.Accounts made failed delivered) (he : g.pendingOf f = []) (hn : g.rootNodes.Nodup) :
    (g.without f).Accounts made failed fun group => delivered group + g.results group f := by
  have hp : (g.without f).pendingGroups = g.pendingGroups := by rw [without_frame]
  have hfl : ∀ group, (g.without f).flights group = g.flights group := fun group => by
    rw [without_frame]
    rfl
  have hro : ∀ x, (g.without f).isRoot x = true ↔ g.isRoot x = true ∧ x ≠ f := by
    intro x
    rw [isRoot_iff, isRoot_iff, without_frame]
    simp only [hn.mem_erase_iff, ne_eq, Node.fragment.injEq, and_comm]
  have hpe : ∀ group, (g.without f).isPending group = g.isPending group := fun group => by
    rw [isPending, hp, isPending]
  have zero : ∀ group, f ∉ group.deferRecords → g.results group f = 0 := by
    intro group hf
    by_contra h
    obtain ⟨r, rfl, hm⟩ := results_pos.mp (Nat.pos_of_ne_zero h)
    exact hf (a.members f r hm)
  refine ⟨?_, hp ▸ a.distinct, ?_, ?_, ?_, ?_, ?_⟩
  · unfold Consistent
    rw [hp]
    exact a.consistent
  · intro x r h
    have := List.count_pos_iff.mpr h
    rw [a.count_without] at this
    split at this
    · exact absurd this (Nat.lt_irrefl 0)
    · exact a.members x r (List.count_pos_iff.mp this)
  · intro r x y hx hy
    rw [a.count_without, a.count_without, a.equal r x y hx hy]
  · intro x group h hm
    rw [hfl]
    exact a.flying x group ((hro x).mp h).1 (hp ▸ hm)
  · intro group h
    obtain ⟨h₁, h₂, h₃, h₄⟩ := a.unmade group h
    refine ⟨(hpe group).trans h₁, (hfl group).trans h₂, fun x => ?_, by rw [h₄, h₃]⟩
    rw [a.results_without, h₃, ite_self]
  · intro group h hc
    have c := a.clean group h hc
    by_cases hf : f ∈ group.deferRecords
    · have hnp : g.isPending group = false := by
        rw [isPending_false]
        exact fun x hx => pendingOf_eq_nil.mp he group ((a.consistent x group hx).2 f hf)
      refine ⟨fun x hx => ?_, ?_, fun x hx hw => ?_⟩
      · have := c.once f hf
        rw [hnp] at this
        rw [a.results_without, if_pos hf, hpe, hnp]
        simpa [Nat.add_comm] using this
      · rw [hfl, c.flights, hpe, hnp]
        rfl
      · rw [a.results_without, if_pos hf] at hw
        exact absurd hw (Nat.lt_irrefl 0)
    · have hcr : (g.without f).completesRootNode group = g.completesRootNode group := by
        rw [Bool.eq_iff_iff, completesRootNode_iff, completesRootNode_iff]
        simp only [hro]
        refine exists_congr fun x => and_congr_right fun hx => and_iff_left fun he => hf (he ▸ hx)
      rw [zero group hf, Nat.add_zero]
      exact c.congr (hpe group) (fun x _ => by rw [a.results_without, if_neg hf]) (hfl group) hcr

-- The groups that new root nodes wait for are started.
theorem takenUp (a : g.Accounts made failed delivered) {nodes : List (Node U K)} {g' : Graph U K D E}
    (t : TakenUp g nodes g') : g'.Accounts made failed delivered := by
  have hp : g'.pendingGroups = g.pendingGroups := by rw [t.frame]
  have hs : g'.successfulGroups = g.successfulGroups := by rw [t.frame]
  have hpe : g'.isPending = g.isPending := by
    funext group
    rw [isPending, hp, isPending]
  have hre : g'.results = g.results := by
    funext group f
    rw [results, hs, results]
  have hfl : ∀ group, g'.flights group = g.flights group + g.startedOnce nodes group := by
    intro group
    have := t.runs a.consistent a.distinct group
    have hr : g'.running = g.running := by rw [t.frame]
    have hq : g'.completedQueue = g.completedQueue := by rw [t.frame]
    simp only [flights, this, hr, hq]
    omega
  have hro : ∀ f, g'.isRoot f = true ↔ g.isRoot f = true ∨ .fragment f ∈ nodes ∧ g.pendingOf f ≠ [] := by
    intro f
    rw [isRoot_iff, isRoot_iff, t.rootNodes, mem_foldl_setKey]
    simp [nonEmpty]
  have none : ∀ group, g.isPending group = false → g.startedOnce nodes group = 0 := by
    intro group h
    rw [startedOnce_eq, if_neg]
    rintro ⟨-, f, -, -, hm⟩
    exact isPending_false.mp h f (mem_pendingOf.mp hm)
  refine ⟨?_, hp ▸ a.distinct, hs ▸ a.members, hs ▸ a.equal, ?_, ?_, ?_⟩
  · unfold Consistent
    rw [hp]
    exact a.consistent
  · intro f group h hm
    rw [hp] at hm
    have hf := (a.consistent f group hm).1
    rw [hfl]
    by_cases hc : g.completesRootNode group = true
    · obtain ⟨x, hx, hr⟩ := completesRootNode_iff.mp hc
      exact Nat.add_pos_left (a.flying x group hr ((a.consistent f group hm).2 x hx)) _
    · apply Nat.add_pos_right
      rcases (hro f).mp h with h | ⟨h, -⟩
      · exact absurd (completesRootNode_iff.mpr ⟨f, hf, h⟩) hc
      · rw [startedOnce_eq, if_pos ⟨Bool.of_not_eq_true hc, f, hf, h, mem_pendingOf.mpr hm⟩]
        exact Nat.one_pos
  · intro group h
    obtain ⟨h₁, h₂, h₃, h₄⟩ := a.unmade group h
    exact ⟨hpe ▸ h₁, by rw [hfl, h₂, none group h₁], fun f => hre ▸ h₃ f, h₄⟩
  · intro group h hcl
    have c := a.clean group h hcl
    have hmono : g.completesRootNode group = true → g'.completesRootNode group = true := by
      rw [completesRootNode_iff, completesRootNode_iff]
      rintro ⟨x, hx, h⟩
      exact ⟨x, hx, (hro x).mpr (.inl h)⟩
    refine ⟨fun f hf => ?_, ?_, fun f hf hw => ?_⟩
    · rw [hpe, hre]
      exact c.once f hf
    · rw [hfl, c.flights, hpe]
      cases hpd : g.isPending group with
      | false => rw [none group hpd]; rfl
      | true  =>
        by_cases hc : g.completesRootNode group = true
        · rw [hc, hmono hc, startedOnce_eq, if_neg (by simp [hc])]
          rfl
        · have hc := Bool.of_not_eq_true hc
          have hiff : g'.completesRootNode group = true ↔
              ∃ f ∈ group.deferRecords, .fragment f ∈ nodes ∧ group ∈ g.pendingOf f := by
            rw [completesRootNode_iff]
            constructor
            · rintro ⟨x, hx, h⟩
              rcases (hro x).mp h with h | ⟨h, -⟩
              · rw [completesRootNode_iff.mpr ⟨x, hx, h⟩] at hc
                cases hc
              · exact ⟨x, hx, h, mem_pendingOf.mpr (a.consistent.mem_of_isPending hpd hx)⟩
            · rintro ⟨x, hx, h, hm⟩
              exact ⟨x, hx, (hro x).mpr (.inr ⟨h, List.ne_nil_of_mem hm⟩)⟩
          by_cases hs : g'.completesRootNode group = true
          · rw [hs, hc, startedOnce_eq, if_pos ⟨hc, hiff.mp hs⟩]
            rfl
          · rw [Bool.of_not_eq_true hs, hc, startedOnce_eq, if_neg fun h => hs (hiff.mpr h.2)]
            rfl
    · apply hmono
      exact c.waits f hf (hre ▸ hw)

end Accounts

theorem wire_frame (records : List (Fragment U)) (group : Group U K) : g.wire group records = { g with
    children      := (g.wire group records).children
    pendingGroups := (records.map (·, group)).foldl setKey g.pendingGroups } := by
  induction records generalizing g with
  | nil => rfl
  | cons f records ih =>
    have h : g.wire group (f :: records) = ((link f g).addPending f group).wire group records := rfl
    rw [h, ih, addPending, link_frame]
    rfl

theorem attachStream_frame (parents : List (Fragment U)) (stream : Stream K) :
    g.attachStream parents stream = { g with children := (g.attachStream parents stream).children } := by
  induction parents generalizing g with
  | nil => rfl
  | cons f parents ih =>
    have h : g.attachStream (f :: parents) stream =
        ((link f g).addChild f (.stream stream)).attachStream parents stream := rfl
    rw [h, ih, addChild, link_frame]

-- What a group adds to the graph: it is pending for its fragments, and collected if one is a root node.
theorem attachGroup_frame (group : Group U K) : g.attachGroup group = { g with
    children      := (g.attachGroup group).children
    pendingGroups := (group.deferRecords.map (·, group)).foldl setKey g.pendingGroups
    pendingRuns   := g.pendingRuns ++ if g.completesRootNode group then [group] else [] } := by
  have hw := wire_frame (g := g) group.deferRecords group
  have hc : (g.wire group group.deferRecords).completesRootNode group = g.completesRootNode group := by
    have : (g.wire group group.deferRecords).isRoot = g.isRoot := by
      funext f
      rw [isRoot, wire_rootNodes, isRoot]
    rw [completesRootNode, this, completesRootNode]
  unfold attachGroup
  rw [hc]
  by_cases h : g.completesRootNode group = true
  · rw [if_pos h, if_pos h, onExecutionGroup, hw]
  · rw [if_neg h, if_neg h, List.append_nil]
    exact hw

namespace Accounts

variable {made : Group U K → Prop} {failed : Fragment U → Prop} {delivered : Group U K → Nat}

-- A new group is pending for all its fragments, and under way if one of them is a root node.
theorem attachGroup (a : g.Accounts made failed delivered) (hn : ¬made group) :
    (g.attachGroup group).Accounts (fun other => made other ∨ other = group) failed delivered := by
  have hro : (g.attachGroup group).isRoot = g.isRoot := by
    funext f
    rw [isRoot, attachGroup_frame, isRoot]
  have hp : ∀ f other, (f, other) ∈ (g.attachGroup group).pendingGroups ↔
      (f, other) ∈ g.pendingGroups ∨ other = group ∧ f ∈ group.deferRecords := by
    intro f other
    rw [attachGroup_frame]
    simp only [mem_foldl_setKey, List.mem_map, Prod.mk.injEq]
    refine or_congr_right ⟨?_, ?_⟩
    · rintro ⟨x, hx, rfl, rfl⟩
      exact ⟨rfl, hx⟩
    · rintro ⟨rfl, hf⟩
      exact ⟨f, hf, rfl, rfl⟩
  have hs : (g.attachGroup group).successfulGroups = g.successfulGroups := by rw [attachGroup_frame]
  have hre : (g.attachGroup group).results = g.results := by
    funext other f
    rw [results, hs, results]
  have hco : (g.attachGroup group).completesRootNode = g.completesRootNode := by
    funext other
    rw [completesRootNode, hro, completesRootNode]
  have hfl : ∀ other, (g.attachGroup group).flights other =
      g.flights other + if other = group ∧ g.completesRootNode group = true then 1 else 0 := by
    intro other
    rw [attachGroup_frame]
    by_cases hc : g.completesRootNode group = true
    · by_cases ho : other = group
      · subst ho
        simp only [flights, hc, if_true, List.count_append, List.count_singleton_self, and_self]
        omega
      · simp only [flights, hc, if_true, List.count_append, ho, false_and, if_false]
        rw [List.count_singleton, if_neg (by simpa using fun h => ho h.symm)]
        rfl
    · simp [flights, hc]
  have hpo : ∀ other, other ≠ group → (g.attachGroup group).isPending other = g.isPending other := by
    intro other ho
    rw [Bool.eq_iff_iff, isPending_iff, isPending_iff]
    simp [hp, ho]
  have hpg : (g.attachGroup group).isPending group = true := by
    obtain ⟨f, hf⟩ := List.exists_mem_of_ne_nil _ group.nonempty
    exact isPending_iff.mpr ⟨f, (hp f group).mpr (.inr ⟨rfl, hf⟩)⟩
  obtain ⟨u₁, u₂, u₃, u₄⟩ := a.unmade group hn
  refine ⟨?_, ?_, hs ▸ a.members, hs ▸ a.equal, ?_, ?_, ?_⟩
  · intro f other h
    rcases (hp f other).mp h with h | ⟨rfl, hf⟩
    · exact ⟨(a.consistent f other h).1, fun x hx => (hp x other).mpr (.inl ((a.consistent f other h).2 x hx))⟩
    · exact ⟨hf, fun x hx => (hp x other).mpr (.inr ⟨rfl, hx⟩)⟩
  · rw [attachGroup_frame]
    exact foldl_setKey_nodup a.distinct _
  · intro f other h hm
    rw [hro] at h
    rw [hfl]
    rcases (hp f other).mp hm with hm | ⟨rfl, hf⟩
    · exact Nat.add_pos_left (a.flying f other h hm) _
    · rw [if_pos ⟨rfl, completesRootNode_iff.mpr ⟨f, hf, h⟩⟩]
      exact Nat.succ_pos _
  · intro other h
    obtain ⟨hm, ho⟩ := not_or.mp h
    obtain ⟨h₁, h₂, h₃, h₄⟩ := a.unmade other hm
    exact ⟨(hpo other ho).trans h₁, by rw [hfl, h₂, if_neg fun h => ho h.1], fun f => hre ▸ h₃ f, h₄⟩
  · intro other h hcl
    by_cases ho : other = group
    · subst ho
      refine ⟨fun f _ => ?_, ?_, fun f _ hw => ?_⟩
      · rw [hpg, hre, u₃, u₄]
        rfl
      · rw [hfl, u₂, hpg, hco]
        cases hc : g.completesRootNode other <;> simp
      · rw [hre, u₃] at hw
        exact absurd hw (Nat.lt_irrefl 0)
    · exact (a.clean other (h.resolve_right ho) hcl).congr (hpo other ho) (fun f _ => by rw [hre])
        (by rw [hfl, if_neg fun h => ho h.1]; rfl) (by rw [hco])

theorem congr_made {made' : Group U K → Prop} (a : g.Accounts made failed delivered)
    (h : ∀ group, made' group ↔ made group) : g.Accounts made' failed delivered := by
  obtain rfl : made' = made := funext fun group => propext (h group)
  exact a

theorem attachAll (a : g.Accounts made failed delivered) {records : List (Record U K)} (hd : records.Nodup)
    (hn : ∀ group, .group group ∈ records → ¬made group) (parents : List (Fragment U)) :
    (g.attachAll parents records).Accounts (fun group => made group ∨ .group group ∈ records) failed delivered := by
  induction records generalizing g made with
  | nil => exact a.congr_made (by simp)
  | cons record records ih =>
    obtain ⟨hr, hd'⟩ := List.nodup_cons.mp hd
    have hn' := fun group hm => hn group (List.mem_cons_of_mem _ hm)
    cases record with
    | group group =>
      refine (ih (a.attachGroup (hn group List.mem_cons_self)) hd' ?_).congr_made ?_
      · rintro other hm (h | rfl)
        · exact hn' other hm h
        · exact hr hm
      · simp [or_assoc]
    | stream stream =>
      have hf := attachStream_frame (g := g) parents stream
      have a : (g.attachStream parents stream).Accounts made failed delivered := by
        refine a.of_flights ?_ ?_ ?_ fun group => ?_
        all_goals rw [hf]
        · rfl
        · rfl
      exact (ih a hd' hn').congr_made (by simp)

-- The fragments of a group that has failed have failed.
theorem fail (a : g.Accounts made failed delivered) {result : GroupResult U K D E}
    {queue : List (Completed U K D E)} (hq : g.completedQueue = .group result :: queue)
    {roots : List (Node U K)} {failed' : Fragment U → Prop}
    (hroots : ∀ f, .fragment f ∈ roots ↔ .fragment f ∈ g.rootNodes ∧ f ∉ result.group.deferRecords)
    (hf : ∀ f, failed f → failed' f) (hr : ∀ f ∈ result.group.deferRecords, g.isRoot f = true → failed' f) :
    Accounts { g with rootNodes := roots, completedQueue := queue } made failed' delivered := by
  have hro : ∀ f, isRoot { g with rootNodes := roots, completedQueue := queue } f = true ↔
      g.isRoot f = true ∧ f ∉ result.group.deferRecords := by
    intro f
    rw [isRoot_iff, isRoot_iff]
    exact hroots f
  have hfl : ∀ group, group ≠ result.group →
      flights { g with rootNodes := roots, completedQueue := queue } group = g.flights group := by
    intro group h
    rw [flights_dequeue hq, if_neg h.symm]
    rfl
  have hmade := (a.head hq).1
  refine ⟨a.consistent, a.distinct, a.members, a.equal, ?_, ?_, ?_⟩
  · intro f group h hm
    obtain ⟨h, hn⟩ := (hro f).mp h
    have hg : group ≠ result.group := by
      rintro rfl
      exact hn (a.consistent f _ hm).1
    rw [hfl group hg]
    exact a.flying f group h hm
  · intro group h
    have hg : group ≠ result.group := fun he => h (he ▸ hmade)
    obtain ⟨h₁, h₂, h₃, h₄⟩ := a.unmade group h
    exact ⟨h₁, (hfl group hg).trans h₂, h₃, h₄⟩
  · intro group h hcl
    have hold : ∀ f ∈ group.deferRecords, ¬failed f := fun f hm hx => hcl f hm (hf f hx)
    have hg : group ≠ result.group := by
      rintro rfl
      obtain ⟨x, hx, h⟩ := completesRootNode_iff.mp ((a.head hq).2 hold).2.1
      exact hcl x hx (hr x hx h)
    refine (a.clean group h hold).congr rfl (fun _ _ => rfl) (hfl group hg) ?_
    rw [Bool.eq_iff_iff, completesRootNode_iff, completesRootNode_iff]
    constructor
    · rintro ⟨x, hx, h⟩
      exact ⟨x, hx, ((hro x).mp h).1⟩
    · rintro ⟨x, hx, h⟩
      exact ⟨x, hx, (hro x).mpr ⟨h, fun hm => hcl x hx (hr x hm h)⟩⟩

end Accounts

end Graph

end Grafast.IncGraph
