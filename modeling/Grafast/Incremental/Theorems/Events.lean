import Grafast.Incremental.Theorems.Reveal

namespace Grafast.IncGraph

set_option linter.unusedSectionVars false

variable {U K D E : Type} [DecidableEq U] [DecidableEq K] [DecidableEq D] [DecidableEq E]

namespace Graph

variable {g : Graph U K D E} {known : Node U K → Prop} {barrier : Fragment U → Prop} {made : Record U K → Prop}
  {failed : Fragment U → Prop} {delivered : Group U K → Nat}

-- A record of a stream is taken up, with which the stream may come to its end.
theorem Healthy.dequeue (h : g.Healthy known barrier made failed delivered) {completed : Completed U K D E}
    {queue : List (Completed U K D E)} (hq : g.completedQueue = completed :: queue) (hg : completed.group? = none)
    {roots : List (Node U K)} (hd : roots.Nodup)
    (hf : ∀ f, .fragment f ∈ roots ↔ .fragment f ∈ g.rootNodes)
    (hs : ∀ stream, .stream stream ∈ roots ↔
      .stream stream ∈ g.rootNodes ∧ ∀ errors, completed ≠ .done stream errors) :
    Healthy { g with rootNodes := roots, completedQueue := queue } known barrier made failed delivered where
  wired     := h.wired.of_children rfl (fun _ h => h) fun f hr => by
    rw [isRoot_iff] at hr
    exact h.wired.rooted f (isRoot_iff.mpr ((hf f).mp hr))
  accounts  := h.accounts.dequeue hq hg hf
  drains    := h.drains.dequeue hq hs
  links     := h.links
  rootOnce  := hd
  madeLinks := h.madeLinks
  madeKnown := h.madeKnown

-- A record comes into the queue.
theorem Healthy.enqueue (h : g.Healthy known barrier made failed delivered) {completed : Completed U K D E}
    {running : List (Group U K)} {draining : List (Stream K)}
    (a : Accounts { g with running, draining, completedQueue := g.completedQueue ++ [completed] }
      (fun group => made (.group group)) failed delivered)
    (d : Drains { g with running, draining, completedQueue := g.completedQueue ++ [completed] } known) :
    Healthy { g with running, draining, completedQueue := g.completedQueue ++ [completed] } known barrier made failed
      delivered where
  wired     := h.wired.of_children rfl (fun _ h => h) h.wired.rooted
  accounts  := a
  drains    := d
  links     := h.links
  rootOnce  := h.rootOnce
  madeLinks := h.madeLinks
  madeKnown := h.madeKnown

end Graph

namespace State

variable {s s' : State U K D E}

-- The graph may change while the root nodes stay as they are.
theorem Settled.of_roots (w : s.Settled) {graph : Graph U K D E}
    (hr : graph.rootNodes = s.graph.rootNodes)
    (h : graph.Healthy s.Known s.Bar (· ∈ s.records) s.Failed s.delivered)
    (hp : graph.pendingGroups = s.graph.pendingGroups) (hruns : graph.pendingRuns = [])
    (phase : Phase) : Settled { s with graph, phase } := by
  have r := w.core.recorded.of_roots hr s.records
  have hroot : graph.isRoot = s.graph.isRoot := by
    funext f
    rw [Graph.isRoot, hr, Graph.isRoot]
  refine ⟨⟨⟨r.perm, r.nodeOnce, r.idOnce, r.below, r.rootOnce, r.roots, r.closedOnce, r.closes, r.sound⟩, ?_⟩, hruns,
    fun f hf => ?_, w.quiet⟩
  · refine h.congr (fun _ => .rfl) (fun f => ?_) (fun _ => .rfl) (fun _ => .rfl) fun _ => rfl
    rw [Bar, Bar, hroot]
    exact .rfl
  · rw [Graph.pendingOf, hp]
    exact w.busy f (hroot ▸ hf)

section

variable {stream : Stream K} {queue : List (Completed U K D E)} (w : s.Settled)

include w

-- What is known of a graph whose queue has a record of a stream less.
theorem Settled.dequeue_items {items : D} {errors : List E} {children : List (Record U K)}
    (hq : s.graph.completedQueue = .items stream items errors children :: queue) :
    Graph.Healthy { s.graph with completedQueue := queue } s.Known s.Bar (· ∈ s.records) s.Failed s.delivered :=
  w.core.healthy.dequeue hq rfl w.core.healthy.rootOnce (fun _ => .rfl)
    fun _ => (and_iff_left fun _ he => by cases he).symm

-- What a stream hands over is delivered under its id, and what its items reveal is announced.
theorem Settled.handles_items {items : D} {errors : List E} {children : List (Record U K)}
    (hq : s.graph.completedQueue = .items stream items errors children :: queue) (hn : s.New children)
    (hh : ∀ child ∈ children, s.HangsOrStarts child) :
    s.Handles (s.revealing { s.graph with completedQueue := queue }
      [.stream items errors (s.idOf (.stream stream))] children) := by
  have r := w.core.recorded
  have h := w.dequeue_items hq
  have v : Graph.Revealable ({ s.graph with completedQueue := queue } : Graph U K D E) s.Known (· ∈ s.records)
      children := by
    refine ⟨hn.1, hn.2, fun group hm f hf => (hh _ hm f hf).imp (fun ha => ?_) fun hf => ?_⟩
    · exact Graph.anchored_iff.mpr ha
    · refine ⟨f.parent?_outermost, ?_, hf.childless, hf.idle⟩
      rintro ⟨id, hid⟩
      exact hf.unannounced id hid
  have hroot : .stream stream ∈ s.graph.rootNodes :=
    w.core.healthy.drains.queued _ (hq ▸ List.mem_cons_self) stream rfl
  have k := continues_revealing [.stream items errors (s.idOf (.stream stream))] r h rfl v
  refine ⟨⟨core_revealing _ r h rfl v ?_ ?_, ?_, busy_revealing _ r h rfl v w.busy, ?_⟩, ?_, ?_, k.payloads⟩
  · intro entry hm
    obtain ⟨id, hid⟩ := r.known_of_root hroot
    rw [List.mem_singleton.mp hm]
    exact ⟨.stream stream, id, r.idOf_eq hid, hid, hroot⟩
  · exact fun group => rfl
  · rw [revealing, toPending_eq]
    rfl
  · rw [k.incremental]
    intro hi
    simp at hi
  · refine fun hlive => hlive.imp (fun hne => ?_) fun hne => ?_
    · obtain ⟨node, hm⟩ := List.exists_mem_of_ne_nil _ hne
      exact List.ne_nil_of_mem ((k.roots node).mpr (.inl ⟨hm, List.not_mem_nil⟩))
    · rw [k.completed, List.append_nil]
      exact hne
  · rw [revealing, toPending_eq]

-- The state once a stream has come to its end.
def ended (s : State U K D E) (queue : List (Completed U K D E)) (stream : Stream K) (errors : Option (List E)) :
    State U K D E := { s with
  graph     := { s.graph with completedQueue := queue, rootNodes := s.graph.rootNodes.erase (.stream stream) }
  completed := s.completed ++ [⟨s.idOf (.stream stream), errors⟩] }

theorem Settled.handles_done {errors : Option (List E)}
    (hq : s.graph.completedQueue = .done stream errors :: queue) : s.Handles (s.ended queue stream errors) := by
  have r := w.core.recorded
  have hroot : .stream stream ∈ s.graph.rootNodes :=
    w.core.healthy.drains.queued _ (hq ▸ List.mem_cons_self) stream rfl
  have hmem : ∀ node, node ∈ s.graph.rootNodes.erase (.stream stream) ↔
      node ∈ s.graph.rootNodes ∧ node ≠ .stream stream := by
    intro node
    rw [w.core.healthy.rootOnce.mem_erase_iff, and_comm]
  have k : Continues s (s.ended queue stream errors) [] [.stream stream] []
      [⟨s.idOf (.stream stream), errors⟩] := {
    ids         := rfl
    nextId      := rfl
    pending     := (List.append_nil _).symm
    incremental := (List.append_nil _).symm
    completed   := rfl
    payloads    := rfl
    newOnce     := List.nodup_nil
    newUnknown  := fun _ hm => absurd hm List.not_mem_nil
    goneOnce    := List.nodup_singleton _
    goneRoots   := fun node hm => List.mem_singleton.mp hm ▸ hroot
    goneIds     := rfl
    roots       := fun node => by
      rw [or_iff_left List.not_mem_nil, List.mem_singleton]
      exact hmem node
    rootOnce    := w.core.healthy.rootOnce.erase _ }
  have hfragment : ∀ f, .fragment f ∈ s.graph.rootNodes.erase (.stream stream) ↔ .fragment f ∈ s.graph.rootNodes :=
    fun f => (hmem _).trans (and_iff_left fun he => by cases he)
  have hnone : ∀ x, ¬∃ id lost, (.fragment x, id) ∈ s.ids ∧
      (⟨some id, some lost⟩ : CompletedResult E) ∈ [⟨s.idOf (.stream stream), errors⟩] := by
    rintro x ⟨id, lost, hid, hm⟩
    obtain ⟨i, hi⟩ := r.known_of_root hroot
    have he := (CompletedResult.mk.inj (List.mem_singleton.mp hm)).1
    rw [r.idOf_eq hi] at he
    cases Option.some.inj he
    cases r.node_unique hid hi
  have healthy : (s.ended queue stream errors).graph.Healthy s.Known s.Bar (· ∈ s.records) s.Failed s.delivered := by
    refine w.core.healthy.dequeue hq rfl (w.core.healthy.rootOnce.erase _) hfragment fun other => ?_
    rw [hmem]
    refine and_congr_right fun _ => ⟨fun hne lost he => hne ?_, fun hne he => ?_⟩
    · exact congrArg Node.stream (Completed.done.inj he).1.symm
    · exact hne errors (Node.stream.inj he ▸ rfl)
  refine ⟨⟨k.core r s.Bar ?_ (fun x => ?_) fun _ hm => absurd hm List.not_mem_nil, ?_, ?_, ?_⟩, ?_, rfl, rfl⟩
  · refine healthy.congr (fun _ => ?_) (fun _ => ?_) (fun _ => .rfl) (fun x => ?_) fun _ => rfl
    · exact or_iff_left List.not_mem_nil
    · exact or_iff_left List.not_mem_nil
    · exact or_iff_left (hnone x)
  · rw [or_iff_left (hnone x), Bar, List.mem_singleton, and_iff_left fun he => by cases he]
  · exact w.runs
  · exact fun f hf => w.busy f (Graph.isRoot_iff.mpr ((hfragment f).mp (Graph.isRoot_iff.mp hf)))
  · intro _ hc
    simp [ended] at hc
  · exact fun _ => .inr (by simp [ended])

end

end State

end Grafast.IncGraph
