import Grafast.Incremental.Theorems.Wired
import Grafast.Incremental.Theorems.Accounts

namespace Grafast.IncGraph

set_option linter.unusedSectionVars false

variable {U K D E : Type} [DecidableEq U] [DecidableEq K] [DecidableEq D] [DecidableEq E]

def Completed.stream? : Completed U K D E → Option (Stream K)
  | group _            => none
  | items stream _ _ _ => some stream
  | done stream _      => some stream

namespace Graph

-- What becomes of the streams. One that is announced is drained by one task, which ends with the last record.
structure Drains (g : Graph U K D E) (known : Node U K → Prop) : Prop where
  tasksOnce    : g.tasks.Nodup
  tasks        : ∀ stream, stream ∈ g.tasks ↔ known (.stream stream)
  rooted       : ∀ stream, .stream stream ∈ g.rootNodes → known (.stream stream)
  drainingOnce : g.draining.Nodup
  draining     : ∀ stream ∈ g.draining, .stream stream ∈ g.rootNodes ∧
    ∀ errors, .done stream errors ∉ g.completedQueue
  queued       : ∀ completed ∈ g.completedQueue, ∀ stream, completed.stream? = some stream →
    .stream stream ∈ g.rootNodes
  order        : g.completedQueue.Pairwise fun completed later =>
    ∀ stream errors, completed = .done stream errors → later.stream? ≠ some stream
  underWay     : ∀ stream, .stream stream ∈ g.rootNodes →
    stream ∈ g.draining ∨ ∃ errors, .done stream errors ∈ g.completedQueue

variable {g g' : Graph U K D E} {f : Fragment U} {known : Node U K → Prop}

namespace Drains

theorem congr {known' : Node U K → Prop} (d : g.Drains known) (ht : g'.tasks = g.tasks)
    (hd : g'.draining = g.draining) (hq : g'.completedQueue = g.completedQueue)
    (hr : ∀ stream, .stream stream ∈ g'.rootNodes ↔ .stream stream ∈ g.rootNodes)
    (hk : ∀ stream, known' (.stream stream) ↔ known (.stream stream)) : g'.Drains known' := by
  refine ⟨ht ▸ d.tasksOnce, ?_, ?_, hd ▸ d.drainingOnce, ?_, ?_, hq ▸ d.order, ?_⟩
  · intro stream
    rw [ht, hk]
    exact d.tasks stream
  · intro stream hm
    exact (hk stream).mpr (d.rooted stream ((hr stream).mp hm))
  · intro stream hm
    rw [hr, hq]
    exact d.draining stream (hd ▸ hm)
  · intro completed hm stream hs
    rw [hr]
    exact d.queued completed (hq ▸ hm) stream hs
  · intro stream hm
    rw [hd, hq]
    exact d.underWay stream ((hr stream).mp hm)

-- The streams among new root nodes are drained from now on.
theorem takenUp (d : g.Drains known) {nodes : List (Node U K)} (t : TakenUp g nodes g') (hd : nodes.Nodup)
    (hn : ∀ node ∈ nodes, ¬known node) :
    g'.Drains fun node => known node ∨ node ∈ nodes ∧ g.nonEmpty node = true := by
  have ht : g'.tasks = g.tasks ++ nodes.filterMap (·.stream?) := by rw [t.frame]
  have hdr : g'.draining = g.draining ++ nodes.filterMap (·.stream?) := by rw [t.frame]
  have hq : g'.completedQueue = g.completedQueue := by rw [t.frame]
  have hm : ∀ stream, stream ∈ nodes.filterMap (·.stream?) ↔ .stream stream ∈ nodes := by
    intro stream
    rw [List.mem_filterMap]
    constructor
    · rintro ⟨node, hm, hs⟩
      cases node with
      | fragment f => cases hs
      | stream s   => cases hs; exact hm
    · exact fun h => ⟨_, h, rfl⟩
  have hr : ∀ stream, .stream stream ∈ g'.rootNodes ↔ .stream stream ∈ g.rootNodes ∨ .stream stream ∈ nodes := by
    intro stream
    rw [t.rootNodes, mem_foldl_setKey]
    simp [nonEmpty]
  have hon : (nodes.filterMap (·.stream?)).Nodup := by
    apply hd.filterMap
    intro a b stream ha hb
    cases a <;> cases b <;> simp_all [Node.stream?]
  have apart : ∀ l : List (Stream K), l.Nodup → (∀ stream ∈ l, known (.stream stream)) →
      (l ++ nodes.filterMap (·.stream?)).Nodup := by
    intro l hl hk
    apply List.nodup_append.mpr
    refine ⟨hl, hon, ?_⟩
    rintro a ha b hb rfl
    exact hn _ ((hm a).mp hb) (hk a ha)
  refine ⟨?_, ?_, ?_, ?_, ?_, ?_, hq ▸ d.order, ?_⟩
  · rw [ht]
    exact apart _ d.tasksOnce fun stream h => (d.tasks stream).mp h
  · intro stream
    rw [ht, List.mem_append, d.tasks, hm]
    simp [nonEmpty]
  · intro stream h
    rcases (hr stream).mp h with h | h
    · exact .inl (d.rooted stream h)
    · exact .inr ⟨h, rfl⟩
  · rw [hdr]
    exact apart _ d.drainingOnce fun stream h => d.rooted stream (d.draining stream h).1
  · intro stream h
    rw [hr, hq]
    rcases List.mem_append.mp (hdr ▸ h) with h | h
    · exact ⟨.inl (d.draining stream h).1, (d.draining stream h).2⟩
    · have h := (hm stream).mp h
      exact ⟨.inr h, fun errors he => hn _ h (d.rooted stream (d.queued _ he stream rfl))⟩
  · intro completed h stream hs
    exact (hr stream).mpr (.inl (d.queued completed (hq ▸ h) stream hs))
  · intro stream h
    rw [hdr, hq, List.mem_append, hm]
    rcases (hr stream).mp h with h | h
    · exact (d.underWay stream h).imp_left .inl
    · exact .inl (.inr h)

-- A record comes into the queue: of a group, or of a stream that is being drained.
theorem enqueue (d : g.Drains known) {completed : Completed U K D E}
    (hs : ∀ stream, completed.stream? = some stream → stream ∈ g.draining) {draining : List (Stream K)}
    (hd : draining.Sublist g.draining)
    (hn : ∀ stream ∈ draining, ∀ errors, completed ≠ .done stream errors)
    (ho : ∀ stream ∈ g.draining, stream ∉ draining → ∃ errors, completed = .done stream errors)
    {running : List (Group U K)} : Drains { g with
      running, draining, completedQueue := g.completedQueue ++ [completed] } known := by
  refine ⟨d.tasksOnce, d.tasks, d.rooted, d.drainingOnce.sublist hd, ?_, ?_, ?_, ?_⟩
  · intro stream h
    obtain ⟨hr, hq⟩ := d.draining stream (hd.subset h)
    refine ⟨hr, fun errors hm => ?_⟩
    rcases List.mem_append.mp hm with hm | hm
    · exact hq errors hm
    · exact hn stream h errors (List.mem_singleton.mp hm).symm
  · intro c hm stream hc
    rcases List.mem_append.mp hm with hm | hm
    · exact d.queued c hm stream hc
    · rw [List.mem_singleton] at hm
      exact (d.draining stream (hs stream (hm ▸ hc))).1
  · apply List.pairwise_append.mpr
    refine ⟨d.order, List.pairwise_singleton _ _, ?_⟩
    intro c hc later hl stream errors he hls
    rw [List.mem_singleton] at hl
    exact (d.draining stream (hs stream (hl ▸ hls))).2 errors (he ▸ hc)
  · intro stream h
    rcases d.underWay stream h with h | ⟨errors, h⟩
    · by_cases hm : stream ∈ draining
      · exact .inl hm
      · obtain ⟨errors, he⟩ := ho stream h hm
        exact .inr ⟨errors, List.mem_append_right _ (List.mem_singleton.mpr he.symm)⟩
    · exact .inr ⟨errors, List.mem_append_left _ h⟩

-- The head of the queue is taken up. The last record of a stream is the end of it.
theorem dequeue (d : g.Drains known) {completed : Completed U K D E} {queue : List (Completed U K D E)}
    (hq : g.completedQueue = completed :: queue) {roots : List (Node U K)}
    (hr : ∀ stream, .stream stream ∈ roots ↔
      .stream stream ∈ g.rootNodes ∧ ∀ errors, completed ≠ .done stream errors) :
    Drains { g with rootNodes := roots, completedQueue := queue } known := by
  have ho := List.pairwise_cons.mp (hq ▸ d.order)
  have hm : ∀ c ∈ queue, c ∈ g.completedQueue := fun c h => hq ▸ List.mem_cons_of_mem _ h
  have hh : completed ∈ g.completedQueue := hq ▸ List.mem_cons_self
  refine ⟨d.tasksOnce, d.tasks, fun stream h => d.rooted stream ((hr stream).mp h).1, d.drainingOnce, ?_, ?_, ho.2,
    ?_⟩
  · intro stream h
    obtain ⟨h₁, h₂⟩ := d.draining stream h
    refine ⟨(hr stream).mpr ⟨h₁, ?_⟩, fun errors h => h₂ errors (hm _ h)⟩
    rintro errors rfl
    exact h₂ errors hh
  · intro c h stream hs
    refine (hr stream).mpr ⟨d.queued c (hm c h) stream hs, ?_⟩
    rintro errors rfl
    exact ho.1 c h stream errors rfl hs
  · intro stream h
    obtain ⟨h, hn⟩ := (hr stream).mp h
    rcases d.underWay stream h with h | ⟨errors, h⟩
    · exact .inl h
    · rcases List.mem_cons.mp (hq ▸ h) with h | h
      · exact absurd h.symm (hn errors)
      · exact .inr ⟨errors, h⟩

end Drains

-- The graph as it is between two operations. Nodes are known once they are announced, and records are made once
-- they are handed over.
structure Healthy (g : Graph U K D E) (known : Node U K → Prop) (barrier : Fragment U → Prop)
    (made : Record U K → Prop) (failed : Fragment U → Prop) (delivered : Group U K → Nat) : Prop where
  wired     : g.Wired known barrier
  accounts  : g.Accounts (fun group => made (.group group)) failed delivered
  drains    : g.Drains known
  links     : g.children.Nodup
  rootOnce  : g.rootNodes.Nodup
  madeLinks : ∀ p stream, (p, .stream stream) ∈ g.children → made (.stream stream)
  madeKnown : ∀ stream, known (.stream stream) → made (.stream stream)

namespace Healthy

variable {barrier : Fragment U → Prop} {made : Record U K → Prop} {failed : Fragment U → Prop}
  {delivered : Group U K → Nat}

theorem flushRuns (h : g.Healthy known barrier made failed delivered) :
    g.flushRuns.Healthy known barrier made failed delivered where
  wired     := h.wired.of_children rfl (fun _ h => h) h.wired.rooted
  accounts  := h.accounts.flushRuns
  drains    := h.drains.congr rfl rfl rfl (fun _ => .rfl) fun _ => .rfl
  links     := h.links
  rootOnce  := h.rootOnce
  madeLinks := h.madeLinks
  madeKnown := h.madeKnown

theorem congr {known' : Node U K → Prop} {barrier' : Fragment U → Prop} {made' : Record U K → Prop}
    {failed' : Fragment U → Prop} {delivered' : Group U K → Nat} (h : g.Healthy known barrier made failed delivered)
    (hk : ∀ node, known' node ↔ known node) (hb : ∀ f, barrier' f ↔ barrier f)
    (hm : ∀ record, made' record ↔ made record) (hf : ∀ f, failed' f ↔ failed f)
    (hd : ∀ group, delivered' group = delivered group) : g.Healthy known' barrier' made' failed' delivered' := by
  obtain rfl : known' = known := funext fun node => propext (hk node)
  obtain rfl : barrier' = barrier := funext fun f => propext (hb f)
  obtain rfl : made' = made := funext fun record => propext (hm record)
  obtain rfl : failed' = failed := funext fun f => propext (hf f)
  obtain rfl : delivered' = delivered := funext hd
  exact h

theorem attach_links (parents : List (Fragment U)) (record : Record U K) (h : g.children.Nodup) :
    (g.attach parents record).children.Nodup := by
  have link : ∀ (f : Fragment U) {g : Graph U K D E}, g.children.Nodup → (Graph.link f g).children.Nodup := by
    intro f
    induction f with
    | top _ _ => exact fun h => h
    | nested usage path outer ih =>
      intro g h
      unfold Graph.link
      split
      · exact h
      · exact ih (setKey_nodup h _)
  cases record with
  | group group =>
    have wire : ∀ (records : List (Fragment U)) {g : Graph U K D E}, g.children.Nodup →
        (g.wire group records).children.Nodup := by
      intro records
      induction records with
      | nil => exact fun h => h
      | cons f records ih =>
        intro g h
        exact ih (g := (Graph.link f g).addPending f group) (link f h)
    change (g.attachGroup group).children.Nodup
    unfold attachGroup
    split
    · exact wire _ h
    · exact wire _ h
  | stream stream =>
    change (g.attachStream parents stream).children.Nodup
    unfold attachStream
    induction parents generalizing g with
    | nil => exact h
    | cons f parents ih => exact ih (setKey_nodup (link f h) _)

-- New records are attached below what holds them back.
theorem attachAll (h : g.Healthy known barrier made failed delivered) {parents : List (Fragment U)}
    {records : List (Record U K)} (hd : records.Nodup) (hn : ∀ record ∈ records, ¬made record)
    (hg : ∀ group, .group group ∈ records → ∀ f ∈ group.deferRecords, Held barrier f)
    (hs : ∀ stream, .stream stream ∈ records → parents = [] ∨ ∃ f, parents = [f] ∧ Held barrier f) :
    (g.attachAll parents records).Healthy known barrier (fun record => made record ∨ record ∈ records) failed
      delivered := by
  have links : ∀ (records : List (Record U K)) {g : Graph U K D E}, g.children.Nodup →
      (g.attachAll parents records).children.Nodup ∧
        ∀ p stream, (p, .stream stream) ∈ (g.attachAll parents records).children →
          (p, .stream stream) ∈ g.children ∨ .stream stream ∈ records := by
    intro records
    induction records with
    | nil => exact fun h => ⟨h, fun p stream h => .inl h⟩
    | cons record records ih =>
      intro g h
      obtain ⟨h₁, h₂⟩ := ih (attach_links parents record h)
      refine ⟨h₁, fun p stream hm => ?_⟩
      rcases h₂ p stream hm with hm | hm
      · rcases mem_attach_children hm with hm | rfl
        · exact .inl hm
        · exact .inr List.mem_cons_self
      · exact .inr (List.mem_cons_of_mem _ hm)
  have drains : ∀ (records : List (Record U K)) {g : Graph U K D E}, g.Drains known →
      (g.attachAll parents records).Drains known := by
    intro records
    induction records with
    | nil => exact fun d => d
    | cons record records ih =>
      intro g d
      apply ih
      have hr := attach_rootNodes (g := g) parents record
      cases record with
      | group group =>
        change (g.attachGroup group).Drains known
        change (g.attachGroup group).rootNodes = g.rootNodes at hr
        rw [attachGroup_frame] at hr ⊢
        exact d.congr rfl rfl rfl (fun _ => by rw [hr]) fun _ => .rfl
      | stream stream =>
        change (g.attachStream parents stream).Drains known
        rw [attachStream_frame]
        exact d.congr rfl rfl rfl (fun _ => .rfl) fun _ => .rfl
  refine ⟨?_, ?_, drains records h.drains, (links records h.links).1, ?_, ?_, ?_⟩
  · apply h.wired.attachAll
    refine ⟨hd, hg, fun stream hm => ⟨fun hk => ?_, fun p hl => ?_, hs stream hm⟩⟩
    · exact hn _ hm (h.madeKnown stream hk)
    · exact hn _ hm (h.madeLinks p stream hl)
  · exact h.accounts.attachAll hd (fun group hm => hn _ hm) parents
  · rw [attachAll_rootNodes]
    exact h.rootOnce
  · intro p stream hm
    rcases (links records h.links).2 p stream hm with hm | hm
    · exact .inl (h.madeLinks p stream hm)
    · exact .inr hm
  · exact fun stream hk => .inl (h.madeKnown stream hk)

-- Promoting announces what is come to and is not empty, which holds back what is nested in it from then on.
theorem promote {released : Fragment U → Prop} {start : List (Node U K)}
    (h : g.Healthy known (fun f => barrier f ∨ released f) made failed delivered)
    (r : g.Release known barrier released (· ∈ start)) (hd : start.Nodup)
    (hm : ∀ stream, .stream stream ∈ start → made (.stream stream)) :
    (g.promoteNonEmptyToRoot start).graph.Healthy
      (fun node => known node ∨ node ∈ (g.promoteNonEmptyToRoot start).newRootNodes)
      (fun f => barrier f ∨ .fragment f ∈ (g.promoteNonEmptyToRoot start).newRootNodes) made failed delivered := by
  have p := promoteNonEmptyToRoot_promoted (g := g) start
  have t := Graph.takenUp (g := g) (g.promoteNonEmptyToRoot start).maybeEmpty
  rw [← p.graph] at t
  have hnew : ∀ node, node ∈ (g.promoteNonEmptyToRoot start).newRootNodes ↔
      g.Walk (· ∈ start) node ∧ g.nonEmpty node = true := by
    intro node
    rw [p.newRootNodes, List.mem_filter, p.walk]
  have hraised : ∀ f, .fragment f ∈ (g.promoteNonEmptyToRoot start).newRootNodes ↔
      Wired.Raised g (· ∈ start) f := by
    intro f
    rw [hnew]
    simp [Wired.Raised, nonEmpty]
  have hc : (g.promoteNonEmptyToRoot start).graph.children = g.children := by rw [t.frame]
  have hwalk : ∀ stream, g.Walk (· ∈ start) (.stream stream) → made (.stream stream) := by
    intro stream hw
    cases hw with
    | start hs     => exact hm stream hs
    | child _ _ hl => exact h.madeLinks _ stream hl
  refine ⟨?_, h.accounts.takenUp t, ?_, hc ▸ h.links, ?_, ?_, ?_⟩
  · have hroot : ∀ f, (g.promoteNonEmptyToRoot start).graph.isRoot f = true →
        known (.fragment f) ∨ Wired.Raised g (· ∈ start) f := by
      intro f hf
      rw [isRoot_iff, t.rootNodes, mem_foldl_setKey, ← p.newRootNodes] at hf
      exact hf.imp (fun hf => h.wired.rooted f (isRoot_iff.mpr hf)) (hraised f).mp
    have w := Wired.promote h.wired r hc (by rw [t.frame]) hroot
    exact w.congr (fun node => or_congr_right (hnew node)) fun f => or_congr_right (hraised f)
  · have d := h.drains.takenUp t (p.nodup h.links hd) fun node hn =>
      Wired.walk_unannounced h.wired r ((p.walk node).mp hn)
    refine d.congr rfl rfl rfl (fun _ => .rfl) fun stream => or_congr_right ?_
    rw [hnew, p.walk]
  · rw [t.rootNodes]
    exact foldl_setKey_nodup h.rootOnce _
  · intro p stream hl
    exact h.madeLinks p stream (hc ▸ hl)
  · rintro stream (hk | hk)
    · exact h.madeKnown stream hk
    · exact hwalk stream ((hnew _).mp hk).1

-- The nodes that a promotion announces are new, and each of them is announced once.
theorem promote_new {released : Fragment U → Prop} {start : List (Node U K)}
    (h : g.Healthy known (fun f => barrier f ∨ released f) made failed delivered)
    (r : g.Release known barrier released (· ∈ start)) (hd : start.Nodup) :
    (g.promoteNonEmptyToRoot start).newRootNodes.Nodup ∧
      ∀ node ∈ (g.promoteNonEmptyToRoot start).newRootNodes, ¬known node := by
  have p := promoteNonEmptyToRoot_promoted (g := g) start
  rw [p.newRootNodes]
  refine ⟨(p.nodup h.links hd).filter _, fun node hm => ?_⟩
  exact Wired.walk_unannounced h.wired r ((p.walk node).mp (List.mem_filter.mp hm).1)

-- A fragment that is complete is no root node any more, and its results are delivered.
theorem without (h : g.Healthy known barrier made failed delivered) (he : g.pendingOf f = []) :
    (g.without f).Healthy known barrier made failed fun group => delivered group + g.results group f := by
  have a := h.accounts.without he h.rootOnce
  have hr : ∀ node, node ∈ (g.without f).rootNodes ↔ node ∈ g.rootNodes ∧ node ≠ .fragment f := by
    intro node
    rw [without_frame]
    simp only [h.rootOnce.mem_erase_iff, and_comm]
  refine ⟨?_, a, ?_, ?_, ?_, ?_, h.madeKnown⟩
  · have hc : (g.without f).children = g.children := by rw [without_frame]
    have hp : (g.without f).pendingGroups = g.pendingGroups := by rw [without_frame]
    refine h.wired.of_children hc (fun _ hm => hp ▸ hm) fun x hx => ?_
    exact h.wired.rooted x (isRoot_iff.mpr ((hr _).mp (isRoot_iff.mp hx)).1)
  · refine h.drains.congr ?_ ?_ ?_ (fun stream => ?_) fun _ => .rfl
    iterate 3 rw [without_frame]
    simp [hr]
  · rw [without_frame]
    exact h.links
  · rw [without_frame]
    exact h.rootOnce.erase _
  · rw [without_frame]
    exact h.madeLinks

theorem foldl_addChild (nodes : List (Node U K)) : nodes.foldl (·.addChild f ·) g =
    { g with children := (nodes.map (f, ·)).foldl setKey g.children } := by
  induction nodes generalizing g with
  | nil => rfl
  | cons node nodes ih =>
    rw [List.foldl_cons, ih]
    rfl

-- What a fragment that holds nothing back is left with as children does not matter.
theorem addChildren (h : g.Healthy known barrier made failed delivered) (hh : ¬Held barrier f)
    (hk : known (.fragment f)) {nodes : List (Node U K)}
    (hs : ∀ stream, .stream stream ∈ nodes → known (.stream stream)) :
    (nodes.foldl (·.addChild f ·) g).Healthy known barrier made failed delivered := by
  rw [foldl_addChild]
  have hm : ∀ p node, (p, node) ∈ (nodes.map (f, ·)).foldl setKey g.children ↔
      (p, node) ∈ g.children ∨ p = f ∧ node ∈ nodes := by
    intro p node
    simp only [mem_foldl_setKey, List.mem_map, Prod.mk.injEq]
    refine or_congr_right ⟨?_, ?_⟩
    · rintro ⟨n, hn, rfl, rfl⟩
      exact ⟨rfl, hn⟩
    · rintro ⟨rfl, hn⟩
      exact ⟨node, hn, rfl, rfl⟩
  refine ⟨⟨h.wired.rooted, h.wired.blocked, ?_, ?_, h.wired.under, h.wired.barred, ?_, ?_⟩, ?_, ?_, ?_, h.rootOnce,
    ?_, h.madeKnown⟩
  · intro p x hp hl
    rcases (hm p _).mp hl with hl | ⟨rfl, -⟩
    · exact h.wired.parent p x hp hl
    · exact absurd hp hh
  · intro x p hx ho
    apply (hm p _).mpr
    left
    apply h.wired.linked x p _ ho
    rcases hx with hx | hx | ⟨node, hx⟩
    · exact .inl hx
    · exact .inr (.inl hx)
    · rcases (hm x node).mp hx with hx | ⟨rfl, -⟩
      · exact .inr (.inr ⟨node, hx⟩)
      · exact .inl hk
  · intro p stream hl
    rcases (hm p _).mp hl with hl | ⟨rfl, hn⟩
    · exact h.wired.streams p stream hl
    · exact iff_of_true (hs stream hn) hh
  · intro p p' stream hp hl hl'
    rcases (hm p _).mp hl with ho | ⟨rfl, -⟩
    · rcases (hm p' _).mp hl' with ho' | ⟨-, hn⟩
      · exact h.wired.single p p' stream hp ho ho'
      · exact absurd hp ((h.wired.streams p stream ho).mp (hs stream hn))
    · exact absurd hp hh
  · exact h.accounts.of_flights rfl rfl rfl fun _ => rfl
  · exact h.drains.congr rfl rfl rfl (fun _ => .rfl) fun _ => .rfl
  · exact foldl_setKey_nodup h.links _
  · intro p stream hl
    rcases (hm p _).mp hl with hl | ⟨-, hl⟩
    · exact h.madeLinks p stream hl
    · exact h.madeKnown stream (hs stream hl)

-- The result at the head of the queue is taken into account.
theorem recordSuccess (h : g.Healthy known barrier made failed delivered) {result : GroupResult U K D E}
    {queue : List (Completed U K D E)} (hq : g.completedQueue = .group result :: queue) :
    (Graph.recordSuccess { g with completedQueue := queue } result).Healthy known barrier made failed delivered := by
  have a := h.accounts.recordSuccess hq
  have d : Drains { g with completedQueue := queue } known :=
    h.drains.dequeue hq (by simp)
  refine ⟨?_, a, ?_, ?_, ?_, ?_, h.madeKnown⟩
  · refine h.wired.of_children ?_ ?_ ?_
    · rw [recordSuccess_eq]
    · rintro ⟨x, group⟩ hm
      have hc : Consistent { g with completedQueue := queue } := h.accounts.consistent
      exact ((mem_recordSuccess_pendingGroups hc h.accounts.distinct result).mp hm).1
    · intro x hx
      rw [isRoot_recordSuccess] at hx
      exact h.wired.rooted x hx
  · refine d.congr ?_ ?_ ?_ (fun stream => ?_) fun _ => .rfl
    all_goals rw [recordSuccess_eq]
  · rw [recordSuccess_eq]
    exact h.links
  · rw [recordSuccess_eq]
    exact h.rootOnce
  · rw [recordSuccess_eq]
    exact h.madeLinks

end Healthy

end Graph

end Grafast.IncGraph
