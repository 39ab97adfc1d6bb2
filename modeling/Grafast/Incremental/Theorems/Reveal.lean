import Grafast.Incremental.Theorems.Handle

namespace Grafast.IncGraph

set_option linter.unusedSectionVars false

variable {U K D E : Type} [DecidableEq U] [DecidableEq K] [DecidableEq D] [DecidableEq E]

theorem Fragment.outermost_mem_chain (f : Fragment U) : f.outermost ∈ f.chain := by
  induction f with
  | top usage path             => exact self_mem_chain _
  | nested usage path outer ih => exact List.mem_cons_of_mem _ ih

theorem Fragment.parent?_outermost (f : Fragment U) : f.outermost.parent? = none := by
  induction f with
  | top usage path             => rfl
  | nested usage path outer ih => exact ih

namespace Graph

variable {g : Graph U K D E} {records : List (Record U K)}

section

variable (g)

-- The nodes that new records start from, and what comes of promoting them.
def startNodes (records : List (Record U K)) : List (Node U K) :=
  (records.flatMap g.starts).foldl setKey []

def reveal (records : List (Record U K)) : Promotion U K D E :=
  (g.attachAll [] records).promoteNonEmptyToRoot (g.startNodes records)

end

theorem getNewRootNodes_eq (records : List (Record U K)) :
    g.getNewRootNodes records = some ((g.reveal records).graph.flushRuns, (g.reveal records).newRootNodes) := by
  rw [getNewRootNodes, addIncrementalRecords_eq]
  rfl

theorem mem_startNodes {node : Node U K} :
    node ∈ g.startNodes records ↔ ∃ record ∈ records, node ∈ g.starts record := by
  rw [startNodes, mem_foldl_setKey, or_iff_right List.not_mem_nil, List.mem_flatMap]

-- Without parents, streams are not linked to anything.
theorem mem_attachAll_children {p : Fragment U} {stream : Stream K}
    (h : (p, .stream stream) ∈ (g.attachAll [] records).children) : (p, .stream stream) ∈ g.children := by
  induction records generalizing g with
  | nil => exact h
  | cons record records ih =>
    have h := ih (g := g.attach [] record) h
    cases record with
    | stream s    => exact h
    | group group =>
      have h : (p, .stream stream) ∈ (g.attachGroup group).children := h
      have h : (p, .stream stream) ∈ (g.wire group group.deferRecords).children := by
        unfold attachGroup at h
        split at h <;> exact h
      rcases mem_wire_children h with h | ⟨f, hf⟩
      · exact h
      · cases hf

variable {known : Node U K → Prop} {barrier : Fragment U → Prop} {made : Record U K → Prop}
  {failed : Fragment U → Prop} {delivered : Group U K → Nat}

-- New records may be revealed: each fragment of a group is below a root node or has an outermost one that is new.
structure Revealable (g : Graph U K D E) (known : Node U K → Prop) (made : Record U K → Prop)
    (records : List (Record U K)) : Prop where
  distinct : records.Nodup
  new      : ∀ record ∈ records, ¬made record
  groups   : ∀ group, .group group ∈ records → ∀ f ∈ group.deferRecords,
    g.anchored f = true ∨ g.Unseen known f.outermost

namespace Revealable

variable (v : g.Revealable known made records)

include v

theorem unseen {f : Fragment U} (hf : .fragment f ∈ g.startNodes records) : g.Unseen known f := by
  obtain ⟨record, hm, hs⟩ := mem_startNodes.mp hf
  cases record with
  | stream stream => simp [starts] at hs
  | group group   =>
    obtain ⟨x, hx, he⟩ := List.mem_map.mp hs
    obtain ⟨hx, ha⟩ := List.mem_filter.mp hx
    refine Node.fragment.inj he ▸ (v.groups group hm x hx).resolve_left fun h => ?_
    simp [h] at ha

omit v in
theorem mem_streams {stream : Stream K} (hs : .stream stream ∈ g.startNodes records) : .stream stream ∈ records := by
  obtain ⟨record, hm, hs⟩ := mem_startNodes.mp hs
  cases record with
  | stream other => simp only [starts, List.mem_singleton, Node.stream.injEq] at hs; exact hs ▸ hm
  | group group  => simp [starts] at hs

variable (h : g.Healthy known barrier made failed delivered) (hb : ∀ f, barrier f → known (.fragment f))
  (hr : ∀ f, g.isRoot f = true → barrier f)

include h hb

-- The outermost fragments that are new hold back what is nested in them until they are promoted.
theorem attached (hr : ∀ f, g.isRoot f = true → barrier f) : (g.attachAll [] records).Healthy known
    (fun f => barrier f ∨ .fragment f ∈ g.startNodes records) (fun record => made record ∨ record ∈ records) failed
    delivered := by
  have h' : g.Healthy known (fun f => barrier f ∨ .fragment f ∈ g.startNodes records) made failed delivered :=
    { h with wired := h.wired.unseen (fun f hf => v.unseen hf) hb }
  refine h'.attachAll v.distinct v.new (fun group hm f hf => ?_) fun _ _ => .inl rfl
  by_cases ha : g.anchored f = true
  · obtain ⟨outer, ho, hroot⟩ := anchored_iff.mp ha
    exact ⟨outer, ho, .inl (hr outer hroot)⟩
  · refine ⟨f.outermost, f.outermost_mem_chain, .inr (mem_startNodes.mpr ⟨_, hm, ?_⟩)⟩
    exact List.mem_map.mpr ⟨f, List.mem_filter.mpr ⟨hf, by simp [ha]⟩, rfl⟩

theorem release : (g.attachAll [] records).Release known barrier (fun f => .fragment f ∈ g.startNodes records)
    (· ∈ g.startNodes records) where
  free   := fun f hf hbar => (v.unseen hf).unannounced (hb f hbar)
  cover  := fun f hf => .inl hf
  origin := by
    intro node hm
    cases node with
    | fragment f    => exact .inl ⟨f, rfl, hm, (v.unseen hm).unannounced⟩
    | stream stream =>
      have hs := mem_streams hm
      refine .inr (.inr ⟨stream, rfl, fun hk => v.new _ hs (h.madeKnown stream hk), fun p hl => ?_⟩)
      exact v.new _ hs (h.madeLinks p stream (mem_attachAll_children hl))

include hr

theorem healthy : (g.reveal records).graph.flushRuns.Healthy
    (fun node => known node ∨ node ∈ (g.reveal records).newRootNodes)
    (fun f => barrier f ∨ .fragment f ∈ (g.reveal records).newRootNodes)
    (fun record => made record ∨ record ∈ records) failed delivered :=
  ((v.attached h hb hr).promote (v.release h hb) (foldl_setKey_nodup List.nodup_nil _) fun _ hs =>
    .inr (mem_streams hs)).flushRuns

theorem once : (g.reveal records).newRootNodes.Nodup ∧ ∀ node ∈ (g.reveal records).newRootNodes, ¬known node :=
  (v.attached h hb hr).promote_new (v.release h hb) (foldl_setKey_nodup List.nodup_nil _)

end Revealable

theorem mem_reveal_rootNodes {node : Node U K} : node ∈ (g.reveal records).graph.flushRuns.rootNodes ↔
    node ∈ g.rootNodes ∨ node ∈ (g.reveal records).newRootNodes := by
  have h := (promotes (g := g.attachAll [] records) (g.startNodes records)).rootNodes node
  rw [attachAll_rootNodes] at h
  exact h

end Graph

namespace State

variable {s : State U K D E}

-- The state once records have been revealed: what they start from is announced.
def revealing (s : State U K D E) (graph : Graph U K D E) (entries : List (IncrementalResult U K D E))
    (records : List (Record U K)) : State U K D E :=
  toPending { s with
    graph       := (graph.reveal records).graph.flushRuns
    incremental := s.incremental ++ entries
    records     := s.records ++ records } (graph.reveal records).newRootNodes

section

variable {graph : Graph U K D E} (entries : List (IncrementalResult U K D E)) {records : List (Record U K)}
  (r : s.Recorded) (h : graph.Healthy s.Known s.Bar (· ∈ s.records) s.Failed s.delivered)
  (hr : graph.rootNodes = s.graph.rootNodes) (v : graph.Revealable s.Known (· ∈ s.records) records)

include r h hr v

theorem known_of_bar {f : Fragment U} (hf : s.Bar f) : s.Known (.fragment f) := by
  rcases hf with hf | hf
  · exact r.known_of_root (Graph.isRoot_iff.mp hf)
  · exact r.known_of_failed hf

theorem healthy_revealing : (graph.reveal records).graph.flushRuns.Healthy
    (fun node => s.Known node ∨ node ∈ (graph.reveal records).newRootNodes)
    (fun f => s.Bar f ∨ .fragment f ∈ (graph.reveal records).newRootNodes)
    (fun record => record ∈ s.records ∨ record ∈ records) s.Failed s.delivered := by
  refine v.healthy h (fun f hf => known_of_bar r h hr v hf) fun f hf => .inl ?_
  rw [Graph.isRoot_iff, ← hr]
  exact Graph.isRoot_iff.mp hf

theorem continues_revealing : Continues s (s.revealing graph entries records)
    (graph.reveal records).newRootNodes [] entries [] := by
  have hroot : ∀ f, graph.isRoot f = true → s.Bar f := by
    intro f hf
    rw [Graph.isRoot_iff, hr] at hf
    exact .inl (Graph.isRoot_iff.mpr hf)
  have ho := v.once h (fun f hf => known_of_bar r h hr v hf) hroot
  rw [revealing, toPending_eq]
  refine ⟨rfl, rfl, rfl, rfl, (List.append_nil _).symm, rfl, ho.1, ho.2, List.nodup_nil, ?_, rfl, fun node => ?_, ?_⟩
  · exact fun _ hm => absurd hm List.not_mem_nil
  · rw [Graph.mem_reveal_rootNodes, hr, and_iff_left List.not_mem_nil]
  · exact (healthy_revealing r h hr v).rootOnce

theorem core_revealing (hu : ∀ entry ∈ entries, ∃ node id, entry.id = some id ∧ (node, id) ∈ s.ids ∧
      node ∈ s.graph.rootNodes)
    (hd : ∀ group, entries.countP (·.isOf group) = 0) : (s.revealing graph entries records).Core := by
  have k := continues_revealing entries r h hr v
  have hnone : ∀ x, ¬∃ id errors, (.fragment x, id) ∈ s.ids ∧ (⟨some id, some errors⟩ : CompletedResult E) ∈ [] := by
    rintro x ⟨id, errors, -, hm⟩
    exact List.not_mem_nil hm
  have hg : (s.revealing graph entries records).graph = (graph.reveal records).graph.flushRuns := by
    rw [revealing, toPending_eq]
  have hrec : (s.revealing graph entries records).records = s.records ++ records := by
    rw [revealing, toPending_eq]
  refine k.core r s.Bar ?_ (fun x => ?_) fun entry hm => ?_
  · rw [hg, hrec]
    refine (healthy_revealing r h hr v).congr (fun _ => .rfl) (fun _ => .rfl) (fun record => ?_) (fun x => ?_)
      fun group => ?_
    · exact List.mem_append
    · exact or_iff_left (hnone x)
    · rw [hd, Nat.add_zero]
  · rw [or_iff_left (hnone x), and_iff_left List.not_mem_nil, Bar]
  · obtain ⟨node, id, he, hid, hroot⟩ := hu entry hm
    exact ⟨node, id, he, k.mem_ids.mpr (.inr hid), .inl hroot⟩

theorem busy_revealing (hb : ∀ f, graph.isRoot f = true → graph.pendingOf f ≠ []) (f : Fragment U)
    (hf : (s.revealing graph entries records).graph.isRoot f = true) :
    (s.revealing graph entries records).graph.pendingOf f ≠ [] := by
  have hg : (s.revealing graph entries records).graph = (graph.reveal records).graph.flushRuns := by
    rw [revealing, toPending_eq]
  have p := Graph.promotes (g := graph.attachAll [] records) (graph.startNodes records)
  rw [hg, Graph.isRoot_iff, Graph.mem_reveal_rootNodes] at hf
  rw [hg]
  rcases hf with hf | hf
  · obtain ⟨group, hm⟩ := List.exists_mem_of_ne_nil _ (hb f (Graph.isRoot_iff.mpr hf))
    have hm := (Graph.attaches [] records).pendingGroups _ (mem_valuesOf.mp hm)
    rw [← p.pendingGroups] at hm
    exact List.ne_nil_of_mem (mem_valuesOf.mpr hm)
  · exact p.nonEmpty f hf

end

end State

end Grafast.IncGraph
