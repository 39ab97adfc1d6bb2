import Grafast.Incremental.Theorems.Publisher

namespace Grafast.IncGraph

set_option linter.unusedSectionVars false

variable {U K D E : Type} [DecidableEq U] [DecidableEq K] [DecidableEq D] [DecidableEq E]

namespace Graph

variable {g : Graph U K D E}

-- What attaching records leaves as it is.
structure Attaches (g g' : Graph U K D E) : Prop where
  rootNodes        : g'.rootNodes = g.rootNodes
  successfulGroups : g'.successfulGroups = g.successfulGroups
  completedQueue   : g'.completedQueue = g.completedQueue
  pendingGroups    : ∀ entry ∈ g.pendingGroups, entry ∈ g'.pendingGroups

theorem attaches_one (parents : List (Fragment U)) (record : Record U K) :
    g.Attaches (g.attach parents record) := by
  have hr := attach_rootNodes (g := g) parents record
  cases record with
  | group group   => exact {
    rootNodes        := hr
    successfulGroups := by rw [attach, attachGroup_frame]
    completedQueue   := by rw [attach, attachGroup_frame]
    pendingGroups    := fun entry hm => by
      rw [attach, attachGroup_frame]
      exact mem_foldl_setKey.mpr (.inl hm) }
  | stream stream => exact {
    rootNodes        := hr
    successfulGroups := by rw [attach, attachStream_frame]
    completedQueue   := by rw [attach, attachStream_frame]
    pendingGroups    := fun entry hm => by
      rw [attach, attachStream_frame]
      exact hm }

theorem attaches (parents : List (Fragment U)) (records : List (Record U K)) :
    g.Attaches (g.attachAll parents records) := by
  induction records generalizing g with
  | nil => exact ⟨rfl, rfl, rfl, fun _ h => h⟩
  | cons record records ih =>
    have h := attaches_one (g := g) parents record
    have h' := ih (g := g.attach parents record)
    exact {
      rootNodes        := h'.rootNodes.trans h.rootNodes
      successfulGroups := h'.successfulGroups.trans h.successfulGroups
      completedQueue   := h'.completedQueue.trans h.completedQueue
      pendingGroups    := fun entry hm => h'.pendingGroups entry (h.pendingGroups entry hm) }

-- What the queue starts with may be another result of the same group.
theorem Healthy.replace {known : Node U K → Prop} {barrier : Fragment U → Prop} {made : Record U K → Prop}
    {failed : Fragment U → Prop} {delivered : Group U K → Nat} (h : g.Healthy known barrier made failed delivered)
    {result result' : GroupResult U K D E} {queue : List (Completed U K D E)}
    (hq : g.completedQueue = .group result :: queue) (hg : result'.group = result.group) :
    Healthy { g with completedQueue := .group result' :: queue } known barrier made failed delivered where
  wired     := h.wired.of_children rfl (fun _ h => h) h.wired.rooted
  accounts  := h.accounts.of_flights rfl rfl rfl fun group => by simp [flights, hq, Completed.group?, hg]
  drains    := {
    tasksOnce    := h.drains.tasksOnce
    tasks        := h.drains.tasks
    rooted       := h.drains.rooted
    drainingOnce := h.drains.drainingOnce
    draining     := fun stream hm => by simpa [hq] using h.drains.draining stream hm
    queued       := by simpa [hq, Completed.stream?] using h.drains.queued
    order        := by simpa [hq] using h.drains.order
    underWay     := fun stream hm => by simpa [hq] using h.drains.underWay stream hm }
  links     := h.links
  rootOnce  := h.rootOnce
  madeLinks := h.madeLinks
  madeKnown := h.madeKnown

end Graph

namespace State

variable {s s' s₀ : State U K D E} {f : Fragment U}

-- What holds between two events, apart from where the consumer is.
structure Settled (s : State U K D E) : Prop where
  core  : s.Core
  runs  : s.graph.pendingRuns = []
  busy  : ∀ f, s.graph.isRoot f = true → s.graph.pendingOf f ≠ []
  quiet : s.incremental = [] → s.completed = [] → s.pending = []

-- What taking up a record comes to. The last root node does not go without being completed.
structure Handles (s s' : State U K D E) : Prop where
  settled  : s'.Settled
  live     : s.graph.rootNodes ≠ [] ∨ s.completed ≠ [] → s'.graph.rootNodes ≠ [] ∨ s'.completed ≠ []
  phase    : s'.phase = s.phase
  payloads : s'.payloads = s.payloads

theorem released_frame (s : State U K D E) (f : Fragment U) :
    (released s f).pendingGroups = s.graph.pendingGroups ∧
      (released s f).successfulGroups = (s.graph.without f).successfulGroups ∧
      (released s f).completedQueue = s.graph.completedQueue ∧ (released s f).pendingRuns = [] := by
  have p := Graph.promotes (g := s.graph.without f) (s.graph.childrenOf f)
  simp only [released, Graph.Healthy.foldl_addChild, Graph.flushRuns, promotion, p.pendingGroups, p.successfulGroups,
    p.completedQueue, true_and, and_true]
  rw [Graph.without_frame]
  exact ⟨rfl, rfl⟩

section

variable (c : s.Core) (hr : s.graph.isRoot f = true) (he : s.graph.pendingOf f = [])

include c hr he

theorem isRoot_completeFragment (x : Fragment U) : (s.completeFragment f).graph.isRoot x = true ↔
    (s.graph.isRoot x = true ∧ x ≠ f) ∨ .fragment x ∈ (promotion s f).newRootNodes := by
  rw [Graph.isRoot_iff, Graph.isRoot_iff, (c.continues hr he).roots, List.mem_singleton, Node.fragment.injEq]

-- What becomes a root node in place of a fragment waits for groups.
theorem root_of_completeFragment {x : Fragment U} (hx : (s.completeFragment f).graph.isRoot x = true) :
    (s.graph.isRoot x = true ∧ x ≠ f) ∨ s.graph.pendingOf x ≠ [] := by
  refine ((isRoot_completeFragment c hr he x).mp hx).imp_right fun hx => ?_
  have h := (Graph.promotes _).nonEmpty x hx
  have hp := (Graph.promotes (g := s.graph.without f) (s.graph.childrenOf f)).pendingGroups
  rw [Graph.pendingOf, hp] at h
  rwa [Graph.without_frame] at h

end

-- How far the fragments of a group have been completed. A result that is left is one of fragments that are.
structure Progress (s₀ s : State U K D E) : Prop where
  core     : s.Core
  known    : ∀ node, s₀.Known node → s.Known node
  revealed : ∀ f, s.Known (.fragment f) → s₀.Known (.fragment f) ∨ s.graph.isRoot f = true
  left     : ∀ f result, (f, result) ∈ s.graph.successfulGroups → (f, result) ∈ s₀.graph.successfulGroups ∧
    ∀ other ∈ result.group.deferRecords, s₀.graph.isRoot other = true → s.graph.isRoot other = true
  pending  : s.graph.pendingGroups = s₀.graph.pendingGroups
  busy     : ∀ f, s.graph.isRoot f = true → s₀.graph.isRoot f = true ∨ s.graph.pendingOf f ≠ []
  runs     : s.graph.pendingRuns = []
  moved    : s = s₀ ∨ s.completed ≠ []
  phase    : s.phase = s₀.phase
  payloads : s.payloads = s₀.payloads

namespace Progress

theorem refl (c : s.Core) (hr : s.graph.pendingRuns = []) : s.Progress s :=
  ⟨c, fun _ h => h, fun _ h => .inl h, fun _ _ h => ⟨h, fun _ _ h => h⟩, rfl, fun _ h => .inl h, hr, .inl rfl, rfl, rfl⟩

theorem pendingOf (p : s₀.Progress s) (f : Fragment U) : s.graph.pendingOf f = s₀.graph.pendingOf f := by
  rw [Graph.pendingOf, p.pending, Graph.pendingOf]

-- The results that are delivered for a fragment are not addressed to what has been completed before.
theorem well (p : s₀.Progress s) (c : s₀.Core) {result : GroupResult U K D E}
    (hr : (f, result) ∈ s.graph.successfulGroups) (ha : s₀.Addressed f result) : s.Well f result := by
  intro other ho hk hn
  have hleft := (p.left f result hr).2
  have hk₀ : s₀.Known (.fragment other) := (p.revealed other hk).resolve_right fun h => by simp [hn] at h
  have hn₀ : s₀.graph.isRoot other = false := Bool.of_not_eq_true fun h => by simp [hleft other ho h] at hn
  refine (ha other ho hk₀ hn₀).imp_right ?_
  rintro ⟨longer, hl, hroot, hlt⟩
  exact ⟨longer, hl, p.known _ (c.recorded.known_of_root (Graph.isRoot_iff.mp hroot)), hlt⟩

theorem completeFragment (p : s₀.Progress s) (c : s₀.Core) (hr : s.graph.isRoot f = true) (he : s.graph.pendingOf f = [])
    (hw : ∀ result ∈ s.graph.successfulOf f, s.Well f result) : s₀.Progress (s.completeFragment f) := by
  have k := p.core.continues hr he
  have hg : (s.completeFragment f).graph = released s f := by
    rw [completeFragment_eq hr he, announcing, toPending_eq]
  obtain ⟨hpending, hsuccessful, hqueue, hruns⟩ := released_frame s f
  have hroot := isRoot_completeFragment p.core hr he
  have hf₀ : s₀.graph.isRoot f = true := (p.busy f hr).resolve_right (not_not_intro he)
  refine ⟨p.core.completeFragment hr he hw, ?_, ?_, ?_, ?_, ?_, ?_, ?_, ?_, ?_⟩
  · exact fun node h => k.known.mpr (.inl (p.known node h))
  · intro x hx
    rcases k.known.mp hx with hx | hx
    · rcases p.revealed x hx with h | h
      · exact .inl h
      · by_cases he : x = f
        · exact .inl (he ▸ c.recorded.known_of_root (Graph.isRoot_iff.mp hf₀))
        · exact .inr ((hroot x).mpr (.inl ⟨h, he⟩))
    · exact .inr ((hroot x).mpr (.inr hx))
  · intro x result hm
    rw [hg, hsuccessful] at hm
    have hc := p.core.healthy.accounts.count_without f x result
    have hpos := List.count_pos_iff.mpr hm
    by_cases hf : f ∈ result.group.deferRecords
    · rw [hc, if_pos hf] at hpos
      exact absurd hpos (Nat.lt_irrefl 0)
    · rw [hc, if_neg hf] at hpos
      obtain ⟨hold, hroots⟩ := p.left x result (List.count_pos_iff.mp hpos)
      refine ⟨hold, fun other ho hr => (hroot other).mpr (.inl ⟨hroots other ho hr, ?_⟩)⟩
      rintro rfl
      exact hf ho
  · rw [hg, hpending, p.pending]
  · intro x hx
    have hpo : (s.completeFragment f).graph.pendingOf x = s.graph.pendingOf x := by
      rw [hg, Graph.pendingOf, hpending, Graph.pendingOf]
    rw [hpo]
    exact (root_of_completeFragment p.core hr he hx).elim (fun h => p.busy x h.1) .inr
  · rw [hg, hruns]
  · right
    rw [k.completed]
    simp
  · rw [completeFragment_eq hr he, announcing, toPending_eq]
    exact p.phase
  · rw [k.payloads, p.payloads]

-- A fragment that is no root node, or that waits for groups, stays as it is.
theorem completeFragment_of_not (h : ¬(s.graph.isRoot f = true ∧ s.graph.pendingOf f = [])) :
    s.completeFragment f = s := by
  have : (s.graph.isRoot f && (s.graph.pendingOf f).isEmpty) = false := by
    rw [Bool.and_eq_false_imp]
    intro hr
    rw [← Bool.not_eq_true, List.isEmpty_iff]
    exact fun he => h ⟨hr, he⟩
  rw [State.completeFragment, Graph.completeDeferredFragment, this]
  rfl

-- What one of the fragments leaves: each root node was one before, or it waits for groups.
theorem next (p : s₀.Progress s) (c : s₀.Core)
    (ha : s₀.graph.isRoot f = true → s₀.graph.pendingOf f = [] →
      ∀ result ∈ s₀.graph.successfulOf f, s₀.Addressed f result) :
    s₀.Progress (s.completeFragment f) ∧ ∀ x, (s.completeFragment f).graph.isRoot x = true →
      (s.graph.isRoot x = true ∧ x ≠ f) ∨ s₀.graph.pendingOf x ≠ [] := by
  by_cases h : s.graph.isRoot f = true ∧ s.graph.pendingOf f = []
  case pos =>
    obtain ⟨hr, he⟩ := h
    have hr₀ : s₀.graph.isRoot f = true := (p.busy f hr).resolve_right (not_not_intro he)
    have hw : ∀ result ∈ s.graph.successfulOf f, s.Well f result := by
      intro result hm
      have hm : (f, result) ∈ s.graph.successfulGroups := mem_valuesOf.mp hm
      exact p.well c hm (ha hr₀ (p.pendingOf f ▸ he) result (mem_valuesOf.mpr (p.left f result hm).1))
    refine ⟨p.completeFragment c hr he hw, fun x hx => ?_⟩
    rw [← p.pendingOf]
    exact root_of_completeFragment p.core hr he hx
  case neg =>
    rw [completeFragment_of_not h]
    refine ⟨p, fun x hx => ?_⟩
    by_cases he : x = f
    · subst he
      exact .inr (p.pendingOf x ▸ fun he => h ⟨hx, he⟩)
    · exact .inl ⟨hx, he⟩

-- The fragments of a group are completed one after another.
theorem completeFragments (p : s₀.Progress s) (c : s₀.Core) (records : List (Fragment U))
    (ha : ∀ f ∈ records, s₀.graph.isRoot f = true → s₀.graph.pendingOf f = [] →
      ∀ result ∈ s₀.graph.successfulOf f, s₀.Addressed f result) :
    s₀.Progress (records.foldl State.completeFragment s) ∧
      ∀ x, (records.foldl State.completeFragment s).graph.isRoot x = true →
        (s.graph.isRoot x = true ∧ x ∉ records) ∨ s₀.graph.pendingOf x ≠ [] := by
  induction records generalizing s with
  | nil => exact ⟨p, fun x hx => .inl ⟨hx, List.not_mem_nil⟩⟩
  | cons f records ih =>
    obtain ⟨p', hroots⟩ := p.next c (ha f List.mem_cons_self)
    obtain ⟨q, hq⟩ := ih p' fun a hm => ha a (List.mem_cons_of_mem _ hm)
    refine ⟨q, fun x hx => ?_⟩
    rcases hq x hx with ⟨hx, hn⟩ | hx
    · refine (hroots x hx).imp_left fun h => ⟨h.1, ?_⟩
      rw [List.mem_cons, not_or]
      exact ⟨h.2, hn⟩
    · exact .inr hx

end Progress

-- The graph and the records are of no matter for the payloads, apart from the root nodes.
theorem Recorded.of_roots (r : s.Recorded) {graph : Graph U K D E} (h : graph.rootNodes = s.graph.rootNodes)
    (records : List (Record U K)) : Recorded { s with graph, records } where
  perm       := r.perm
  nodeOnce   := r.nodeOnce
  idOnce     := r.idOnce
  below      := r.below
  rootOnce   := h ▸ r.rootOnce
  roots      := h ▸ r.roots
  closedOnce := r.closedOnce
  closes     := r.closes
  sound      := r.sound

section

variable (s)

-- The state in which the fragments of a group that has succeeded are completed.
def succeeding (queue : List (Completed U K D E)) (result : GroupResult U K D E) : State U K D E := { s with
  graph   := ((Graph.recordSuccess { s.graph with completedQueue := queue } result).attachAll
    result.group.deferRecords result.children).flushRuns
  records := s.records ++ result.children }

end

section

variable {result : GroupResult U K D E} {queue : List (Completed U K D E)}

theorem succeeding_rootNodes : (s.succeeding queue result).graph.rootNodes = s.graph.rootNodes := by
  have h := (Graph.attaches (g := Graph.recordSuccess { s.graph with completedQueue := queue } result)
    result.group.deferRecords result.children).rootNodes
  rw [Graph.recordSuccess_eq] at h
  rw [succeeding, Graph.recordSuccess_eq]
  exact h

theorem succeeding_isRoot : (s.succeeding queue result).graph.isRoot = s.graph.isRoot := by
  funext x
  rw [Graph.isRoot, succeeding_rootNodes, Graph.isRoot]

variable {first : GroupResult U K D E} (w : s.Settled) (hq : s.graph.completedQueue = .group first :: queue)
  (hg : result.group = first.group) (hn : s.New result.children)
  (hh : ∀ child ∈ result.children, s.Hangs result.group child)

include w hq hg hn hh

theorem Settled.succeeding : (s.succeeding queue result).Core := by
  have held : ∀ x, s.graph.Anchored x → Held s.Bar x := by
    rintro x ⟨outer, ho, hr⟩
    exact ⟨outer, ho, .inl hr⟩
  have h := (w.core.healthy.replace hq hg).recordSuccess rfl
  have h := (h.attachAll hn.1 hn.2
    (fun group hm f hf => held f (hh _ hm f hf)) fun stream hm => by
      obtain ⟨f, hf, ha⟩ := hh _ hm
      exact .inr ⟨f, hf, held f ha⟩).flushRuns
  have r : (s.succeeding queue result).Recorded :=
    w.core.recorded.of_roots succeeding_rootNodes (s.records ++ result.children)
  refine ⟨r, h.congr (fun _ => .rfl) (fun x => ?_) (fun record => ?_) (fun _ => .rfl) fun _ => rfl⟩
  · rw [Bar, Bar, succeeding_isRoot]
    exact .rfl
  · exact List.mem_append

omit w hq hg hn in
theorem addCompletedGroup_eq : ({ s.graph with completedQueue := queue } : Graph U K D E).addCompletedGroup result =
    some (s.succeeding queue result).graph := by
  have hr : (Graph.recordSuccess { s.graph with completedQueue := queue } result).rootNodes = s.graph.rootNodes := by
    rw [Graph.recordSuccess_eq]
  have anchored : ∀ x, s.graph.Anchored x →
      (Graph.recordSuccess { s.graph with completedQueue := queue } result).anchored x = true := by
    intro x hx
    rw [Graph.anchored_congr hr, Graph.anchored_iff]
    exact hx
  rw [Graph.addCompletedGroup, Graph.addIncrementalRecords_anchored]
  · rfl
  · intro stream hm f hf
    obtain ⟨x, hx, ha⟩ := hh _ hm
    rw [hx] at hf
    exact anchored f (List.mem_singleton.mp hf ▸ ha)
  · exact fun group hm f hf => anchored f (hh _ hm f hf)

omit hq hg hn hh in
-- Of what was pending, the group alone is not pending any more.
theorem Settled.pending_succeeding {x : Fragment U} {group : Group U K} (hne : group ≠ result.group)
    (hm : group ∈ s.graph.pendingOf x) : group ∈ (s.succeeding queue result).graph.pendingOf x := by
  have acc := w.core.healthy.accounts
  have att := Graph.attaches (g := Graph.recordSuccess { s.graph with completedQueue := queue } result)
    result.group.deferRecords result.children
  refine mem_valuesOf.mpr (att.pendingGroups _ ?_)
  rw [Graph.mem_recordSuccess_pendingGroups]
  case hc => exact acc.consistent
  case hd => exact acc.distinct
  exact ⟨mem_valuesOf.mp hm, hne⟩

omit hq hg hn hh in
theorem Settled.pendingOf_eq {x : Fragment U} (hr : s.graph.isRoot x = true)
    (he : (s.succeeding queue result).graph.pendingOf x = []) : s.graph.pendingOf x = [result.group] := by
  have hall : ∀ group ∈ s.graph.pendingOf x, group = result.group := by
    intro group hm
    by_contra hne
    have hm : group ∈ (s.succeeding queue result).graph.pendingOf x := w.pending_succeeding hne hm
    rw [he] at hm
    cases hm
  have hd : (s.graph.pendingOf x).Nodup := valuesOf_nodup w.core.healthy.accounts.distinct x
  refine List.eq_replicate_iff (n := 1) |>.mpr ⟨?_, hall⟩
  have hpos := List.length_pos_iff.mpr (w.busy x hr)
  have hle := (List.nodup_iff_count_le_one.mp hd) result.group
  rw [List.count_eq_length.mpr fun group hm => (hall group hm).symm] at hle
  omega

omit w hq hg hn hh in
theorem mem_successfulOf_succeeding {x : Fragment U} {r : GroupResult U K D E}
    (hm : r ∈ (s.succeeding queue result).graph.successfulOf x) : r ∈ s.graph.successfulOf x ∨ r = result := by
  have hm : (x, r) ∈ (s.succeeding queue result).graph.successfulGroups := mem_valuesOf.mp hm
  have att := (Graph.attaches (g := Graph.recordSuccess { s.graph with completedQueue := queue } result)
    result.group.deferRecords result.children).successfulGroups
  have he : (s.succeeding queue result).graph.successfulGroups =
      s.graph.successfulGroups ++ result.group.deferRecords.map (·, result) := by
    rw [Graph.recordSuccess_eq] at att
    rw [State.succeeding, Graph.recordSuccess_eq]
    exact att
  rcases List.mem_append.mp (he ▸ hm) with hm | hm
  · exact .inl (mem_valuesOf.mpr hm)
  · obtain ⟨_, _, he⟩ := List.mem_map.mp hm
    exact .inr (Prod.ext_iff.mp he).2.symm

-- A fragment of the group is complete now, or it still waits for another group.
theorem Settled.handles_success
    (ha : ∀ f ∈ result.group.deferRecords, s.graph.isRoot f = true → s.graph.pendingOf f = [result.group] →
      s.Addressed f result ∧ ∀ other ∈ s.graph.successfulOf f, s.Addressed f other) :
    s.Handles (result.group.deferRecords.foldl completeFragment (s.succeeding queue result)) := by
  have c := w.succeeding hq hg hn hh
  obtain ⟨p, hroots⟩ := (Progress.refl c rfl).completeFragments c result.group.deferRecords (by
    intro f hf hr he r hm
    rw [succeeding_isRoot] at hr
    obtain ⟨h, hothers⟩ := ha f hf hr (w.pendingOf_eq hr he)
    have hs : s.Addressed f r := (mem_successfulOf_succeeding hm).elim (hothers r) fun h' => h' ▸ h
    unfold Addressed at hs ⊢
    rw [succeeding_isRoot]
    exact hs)
  refine ⟨⟨p.core, p.runs, fun x hx => ?_, fun hi hc => ?_⟩, fun hlive => ?_, p.phase, p.payloads⟩
  · rw [p.pendingOf]
    refine (hroots x hx).elim (fun h he => h.2 ?_) id
    have hr : (s.succeeding queue result).graph.isRoot x = true := h.1
    rw [succeeding_isRoot] at hr
    have hm : result.group ∈ s.graph.pendingOf x := by
      rw [w.pendingOf_eq hr he]
      exact List.mem_singleton_self _
    exact (w.core.healthy.accounts.consistent x _ (mem_valuesOf.mp hm)).1
  · rcases p.moved with he | hne
    · rw [he] at hi hc ⊢
      exact w.quiet hi hc
    · exact absurd hc hne
  · rcases p.moved with he | hne
    · rw [he, succeeding_rootNodes]
      exact hlive
    · exact .inr hne

end

section

variable (s)

-- The fragments of a group that are still there when it fails.
def failing (records : List (Fragment U)) : List (Fragment U) :=
  records.filter s.graph.isRoot

def failingNodes (records : List (Fragment U)) : List (Node U K) :=
  (s.failing records).map .fragment

def failures (records : List (Fragment U)) (errors : List E) : List (CompletedResult E) :=
  (s.failing records).map fun f => ⟨s.idOf (.fragment f), some errors⟩

end

theorem mem_failingNodes {records : List (Fragment U)} {node : Node U K} :
    node ∈ s.failingNodes records ↔ ∃ f ∈ records, s.graph.isRoot f = true ∧ node = .fragment f := by
  simp only [failingNodes, failing, List.mem_map, List.mem_filter, and_assoc, eq_comm (a := node)]

theorem failingNodes_nodup {records : List (Fragment U)} (h : records.Nodup) : (s.failingNodes records).Nodup :=
  (h.filter _).map fun _ _ he => Node.fragment.inj he

theorem mem_failures {records : List (Fragment U)} {errors : List E} {result : CompletedResult E} :
    result ∈ s.failures records errors ↔
      ∃ f ∈ records, s.graph.isRoot f = true ∧ result = ⟨s.idOf (.fragment f), some errors⟩ := by
  simp only [failures, failing, List.mem_map, List.mem_filter, and_assoc, eq_comm (a := result)]

theorem removeDeferredFragments_eq {records : List (Fragment U)} (hd : records.Nodup)
    (hr : s.graph.rootNodes.Nodup) (errors : List E) :
    records.foldl (removeDeferredFragment errors) s = { s with
      graph     := { s.graph with rootNodes := (s.failingNodes records).foldl List.erase s.graph.rootNodes }
      completed := s.completed ++ s.failures records errors } := by
  induction records generalizing s with
  | nil => simp [failingNodes, failures, failing]
  | cons f records ih =>
    obtain ⟨hf, hd⟩ := List.nodup_cons.mp hd
    rw [List.foldl_cons]
    by_cases h : s.graph.isRoot f = true
    case neg =>
      have hs : s.removeDeferredFragment errors f = s := by rw [removeDeferredFragment, if_neg h]
      have hfail : s.failing (f :: records) = s.failing records := List.filter_cons_of_neg h
      rw [hs, ih hd hr, failingNodes, failures, failingNodes, failures, hfail]
    case pos =>
      have hs : s.removeDeferredFragment errors f = { s with
          graph     := s.graph.removeRootNode (.fragment f)
          completed := s.completed ++ [⟨s.idOf (.fragment f), some errors⟩] } := by
        rw [removeDeferredFragment, if_pos h]
      have hroot : ∀ x ∈ records, (s.graph.removeRootNode (.fragment f)).isRoot x = s.graph.isRoot x := by
        intro x hx
        have hne : Node.fragment (K := K) x ≠ .fragment f := fun he => hf (Node.fragment.inj he ▸ hx)
        simp [Graph.isRoot, Graph.removeRootNode, List.mem_erase_of_ne hne]
      have hfail : s.failing (f :: records) = f :: s.failing records := List.filter_cons_of_pos h
      have hrest : (s.removeDeferredFragment errors f).failing records = s.failing records := by
        rw [hs]
        exact List.filter_congr hroot
      have hids : (s.removeDeferredFragment errors f).idOf = s.idOf := by
        funext node
        rw [hs]
        rfl
      rw [ih hd (by rw [hs]; exact hr.erase _), failingNodes, failures, hrest, hids, failingNodes, failures, hfail, hs]
      simp only [Graph.removeRootNode, List.map_cons, List.foldl_cons, List.append_assoc, List.singleton_append]

section

variable {result : GroupResult U K D E} {queue : List (Completed U K D E)} (w : s.Settled)

-- The state once a group has failed: those of its fragments that are there are taken out of it.
def failed (s : State U K D E) (queue : List (Completed U K D E)) (result : GroupResult U K D E) :
    State U K D E := { s with
  graph     := { s.graph with
    completedQueue := queue
    rootNodes      := (s.failingNodes result.group.deferRecords).foldl List.erase s.graph.rootNodes }
  completed := s.completed ++ s.failures result.group.deferRecords result.errors }

include w

theorem Settled.continues_failed : Continues s (s.failed queue result) []
    (s.failingNodes result.group.deferRecords) [] (s.failures result.group.deferRecords result.errors) where
  ids         := rfl
  nextId      := rfl
  pending     := (List.append_nil _).symm
  incremental := (List.append_nil _).symm
  completed   := rfl
  payloads    := rfl
  newOnce     := List.nodup_nil
  newUnknown  := fun _ hm => absurd hm List.not_mem_nil
  goneOnce    := failingNodes_nodup result.group.nodup
  goneRoots   := by
    intro node hm
    obtain ⟨f, _, hr, rfl⟩ := mem_failingNodes.mp hm
    exact Graph.isRoot_iff.mp hr
  goneIds     := by
    rw [failures, failingNodes, List.map_map, List.map_map]
    rfl
  roots       := by
    intro node
    rw [failed, Graph.mem_foldl_erase w.core.healthy.rootOnce, or_iff_left List.not_mem_nil]
  rootOnce    := Graph.foldl_erase_nodup w.core.healthy.rootOnce

theorem Settled.handles_failure (hq : s.graph.completedQueue = .group result :: queue) :
    s.Handles (s.failed queue result) := by
  have k : s.Continues (s.failed queue result) _ _ _ _ := w.continues_failed
  have hroot : ∀ f, (s.failed queue result).graph.isRoot f = true ↔
      s.graph.isRoot f = true ∧ f ∉ result.group.deferRecords := by
    intro f
    rw [Graph.isRoot_iff, k.roots, or_iff_left List.not_mem_nil, Graph.isRoot_iff, mem_failingNodes]
    refine and_congr_right fun hr => not_congr ⟨?_, fun hm => ⟨f, hm, Graph.isRoot_iff.mpr hr, rfl⟩⟩
    rintro ⟨f', hm, -, he⟩
    exact Node.fragment.inj he ▸ hm
  have hlost : ∀ f ∈ result.group.deferRecords, s.graph.isRoot f = true →
      ∃ id errors, (.fragment f, id) ∈ s.ids ∧
        (⟨some id, some errors⟩ : CompletedResult E) ∈ s.failures result.group.deferRecords result.errors := by
    intro f hm hr
    obtain ⟨id, hid⟩ := w.core.recorded.known_of_root (Graph.isRoot_iff.mp hr)
    refine ⟨id, result.errors, hid, mem_failures.mpr ⟨f, hm, hr, ?_⟩⟩
    rw [w.core.recorded.idOf_eq hid]
  have hstream : ∀ stream, .stream stream ∈ (s.failed queue result).graph.rootNodes ↔
      .stream stream ∈ s.graph.rootNodes := by
    intro stream
    rw [k.roots, or_iff_left List.not_mem_nil, and_iff_left]
    intro hm
    obtain ⟨f, -, -, he⟩ := mem_failingNodes.mp hm
    cases he
  have healthy : (s.failed queue result).graph.Healthy s.Known s.Bar (· ∈ s.records)
      (fun x => s.Failed x ∨ ∃ id errors, (.fragment x, id) ∈ s.ids ∧
        (⟨some id, some errors⟩ : CompletedResult E) ∈ s.failures result.group.deferRecords result.errors)
      s.delivered := by
    have h := w.core.healthy
    refine ⟨?_, ?_, ?_, h.links, k.rootOnce, h.madeLinks, h.madeKnown⟩
    · exact h.wired.of_children rfl (fun _ h => h) fun f hf => h.wired.rooted f ((hroot f).mp hf).1
    · refine h.accounts.fail hq (fun f => ?_) (fun _ => .inl) fun f hm hr => .inr (hlost f hm hr)
      rw [← Graph.isRoot_iff, ← hroot, Graph.isRoot_iff]
      exact .rfl
    · exact h.drains.dequeue hq fun stream => (hstream stream).trans (by simp)
  have core : (s.failed queue result).Core := by
    refine k.core w.core.recorded s.Bar ?_ (fun x => ?_) (fun _ hm => absurd hm List.not_mem_nil)
    · refine healthy.congr (fun _ => ?_) (fun _ => ?_) (fun _ => .rfl) (fun _ => .rfl) fun _ => rfl
      · exact or_iff_left List.not_mem_nil
      · exact or_iff_left List.not_mem_nil
    · rw [Bar, mem_failingNodes]
      constructor
      · rintro (hr | hf)
        · by_cases hm : x ∈ result.group.deferRecords
          · exact .inr (.inr (hlost x hm hr))
          · refine .inl ⟨hr, ?_⟩
            rintro ⟨f, hf, -, he⟩
            exact hm (Node.fragment.inj he ▸ hf)
        · exact .inr (.inl hf)
      · rintro (⟨hr, -⟩ | hf | ⟨id, errors, hid, hm⟩)
        · exact .inl hr
        · exact .inr hf
        · obtain ⟨f, -, hr, he⟩ := mem_failures.mp hm
          have hid' := (CompletedResult.mk.inj he).1
          obtain ⟨i, hi⟩ := w.core.recorded.known_of_root (Graph.isRoot_iff.mp hr)
          rw [w.core.recorded.idOf_eq hi] at hid'
          cases Option.some.inj hid'
          exact .inl (Node.fragment.inj (w.core.recorded.node_unique hid hi) ▸ hr)
  refine ⟨⟨core, w.runs, fun f hf => w.busy f ((hroot f).mp hf).1, fun hi hc => ?_⟩, fun hlive => ?_, rfl, rfl⟩
  · exact w.quiet hi (List.append_eq_nil_iff.mp hc).1
  · by_cases hnone : s.failing result.group.deferRecords = []
    · have hnodes : s.failingNodes result.group.deferRecords = [] := by rw [failingNodes, hnone, List.map_nil]
      simp only [failed, hnodes, List.foldl_nil]
      exact hlive.imp_right fun hc he => hc (List.append_eq_nil_iff.mp he).1
    · right
      intro he
      exact hnone (List.map_eq_nil_iff.mp (List.append_eq_nil_iff.mp he).2)

end

end State

end Grafast.IncGraph
