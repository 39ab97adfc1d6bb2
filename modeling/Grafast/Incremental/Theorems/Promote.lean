import Grafast.Incremental.Theorems.Graph

namespace Grafast.IncGraph

set_option linter.unusedSectionVars false

variable {U K D E : Type} [DecidableEq U] [DecidableEq K] [DecidableEq D] [DecidableEq E]

def Node.stream? : Node U K → Option (Stream K)
  | fragment _ => none
  | stream s   => some s

namespace Graph

variable {g : Graph U K D E} {f p : Fragment U} {group : Group U K} {stream : Stream K}

section

variable (g)

-- What becomes a root node when its turn comes.
def nonEmpty : Node U K → Bool
  | .fragment f => !(g.pendingOf f).isEmpty
  | .stream _   => true

def promoteNode : Node U K → Graph U K D E
  | .fragment f =>
    if (g.pendingOf f).isEmpty then g else (g.startGroups (g.pendingOf f)).addRoot (.fragment f)
  | .stream s   => (g.addRoot (.stream s)).onStreamItems s

-- The nodes that are come to from some others through fragments that are empty.
inductive Walk (start : Node U K → Prop) : Node U K → Prop
  | start {node : Node U K} (h : start node) : Walk start node
  | child {outer : Fragment U} {node : Node U K} (walk : Walk start (.fragment outer))
      (empty : g.pendingOf outer = []) (linked : (outer, node) ∈ g.children) : Walk start node

end

@[simp] theorem startGroups_nil : g.startGroups [] = g := rfl

-- Whether a group completes a root node does not change when others are started.
theorem startGroups_eq (groups : List (Group U K)) : g.startGroups groups =
    { g with pendingRuns := g.pendingRuns ++ groups.filter (!g.completesRootNode ·) } := by
  induction groups generalizing g with
  | nil => simp
  | cons group groups ih =>
    have hs : g.startGroups (group :: groups) =
        startGroups (if g.completesRootNode group then g else g.onExecutionGroup group) groups := rfl
    by_cases h : g.completesRootNode group = true
    · rw [hs, if_pos h, ih, List.filter_cons_of_neg (by simp [h])]
    · rw [hs, if_neg h, ih, List.filter_cons_of_pos (by simp [h])]
      have hc : (g.onExecutionGroup group).completesRootNode = g.completesRootNode := rfl
      rw [hc]
      simp [onExecutionGroup]

theorem promoteNode_children (node : Node U K) : (g.promoteNode node).children = g.children := by
  cases node with
  | fragment f =>
    unfold promoteNode
    dsimp only
    split
    · rfl
    · rw [startGroups_eq]
      rfl
  | stream s => rfl

theorem promoteNode_pendingGroups (node : Node U K) : (g.promoteNode node).pendingGroups = g.pendingGroups := by
  cases node with
  | fragment f =>
    unfold promoteNode
    dsimp only
    split
    · rfl
    · rw [startGroups_eq]
      rfl
  | stream s => rfl

-- The children of a fragment that are new no longer count among the links to what is new.
theorem length_added_le (maybeEmpty : List (Node U K)) :
    ((g.childrenOf f).filter (· ∉ maybeEmpty)).length +
      (g.children.filter (·.2 ∉ maybeEmpty ++ (g.childrenOf f).filter (· ∉ maybeEmpty))).length ≤
      (g.children.filter (·.2 ∉ maybeEmpty)).length := by
  rw [List.length_eq_length_filter_add (l := g.children.filter (·.2 ∉ maybeEmpty)) (·.1 = f)]
  apply Nat.add_le_add
  · simp only [childrenOf, valuesOf, List.filter_map, List.length_map, List.filter_filter, Function.comp_def]
    apply le_of_eq
    congr 1
    apply List.filter_congr
    intro link _
    exact Bool.and_comm _ _
  · rw [List.filter_filter, ← List.countP_eq_length_filter, ← List.countP_eq_length_filter]
    apply List.countP_mono_left
    intro link hl hn
    simp only [List.mem_append, List.mem_filter, mem_childrenOf] at hn
    simp only [decide_not, Bool.and_eq_true, Bool.not_eq_true', decide_eq_false_iff_not] at hn ⊢
    refine ⟨fun hf => hn (.inr ⟨hf ▸ hl, ?_⟩), fun h => hn (.inl h)⟩
    simpa using fun h => hn (.inl h)

-- The loop takes up what is unprocessed and what it adds, and adds all the children of what is empty.
structure Takes (p : Promotion U K D E) (unprocessed : List (Node U K)) (q : Promotion U K D E)
    (added : List (Node U K)) : Prop where
  maybeEmpty   : q.maybeEmpty = p.maybeEmpty ++ added
  graph        : q.graph = (unprocessed ++ added).foldl promoteNode p.graph
  newRootNodes : q.newRootNodes = p.newRootNodes ++ (unprocessed ++ added).filter p.graph.nonEmpty
  closed       : ∀ f, .fragment f ∈ unprocessed ++ added → p.graph.pendingOf f = [] →
    ∀ node, (f, node) ∈ p.graph.children → node ∈ q.maybeEmpty
  walk         : ∀ start, (∀ node ∈ unprocessed, p.graph.Walk start node) → ∀ node ∈ added, p.graph.Walk start node
  nodup        : p.graph.children.Nodup → p.maybeEmpty.Nodup → q.maybeEmpty.Nodup

theorem Walk.congr {g' : Graph U K D E} (hc : g'.children = g.children) (hp : g'.pendingGroups = g.pendingGroups)
    {start : Node U K → Prop} {node : Node U K} (h : g.Walk start node) : g'.Walk start node := by
  induction h with
  | start h => exact .start h
  | child _ empty linked ih =>
    refine .child ih ?_ (hc ▸ linked)
    rw [pendingOf, hp]
    exact empty

theorem promoteNode_nonEmpty (node : Node U K) : (g.promoteNode node).nonEmpty = g.nonEmpty := by
  funext n
  cases n <;> simp [nonEmpty, pendingOf, promoteNode_pendingGroups]

namespace Takes

variable {p q : Promotion U K D E} {node : Node U K} {unprocessed added : List (Node U K)}

theorem nil : Takes p [] p [] :=
  ⟨by simp, rfl, by simp, by simp, by simp, fun _ h => h⟩

-- A node that is not empty, of whatever kind, becomes a root node.
theorem root (hn : p.graph.nonEmpty node = true)
    (t : Takes { p with graph := p.graph.promoteNode node, newRootNodes := p.newRootNodes ++ [node] } unprocessed q
      added) :
    Takes p (node :: unprocessed) q added := by
  have hc := promoteNode_children (g := p.graph) node
  have hp := promoteNode_pendingGroups (g := p.graph) node
  have hpo : ∀ f, (p.graph.promoteNode node).pendingOf f = p.graph.pendingOf f := fun f => by
    rw [pendingOf, hp, pendingOf]
  refine ⟨t.maybeEmpty, t.graph, ?_, ?_, ?_, ?_⟩
  · rw [t.newRootNodes, promoteNode_nonEmpty, List.cons_append, List.filter_cons_of_pos hn, List.append_assoc]
    rfl
  · intro f hm he n hl
    rcases List.mem_cons.mp hm with rfl | hm
    · simp [nonEmpty, he] at hn
    · exact t.closed f hm ((hpo f).trans he) n (hc ▸ hl)
  · intro start hw n hn
    have hw : ∀ m ∈ unprocessed, (p.graph.promoteNode node).Walk start m :=
      fun m hm => (hw m (List.mem_cons_of_mem _ hm)).congr hc hp
    exact (t.walk start hw n hn).congr hc.symm hp.symm
  · intro hd hm
    exact t.nodup (hc.symm ▸ hd) hm

-- The children of a fragment that is empty are taken up in its place.
theorem pass {f : Fragment U} (he : p.graph.pendingOf f = [])
    (t : Takes { p with maybeEmpty := p.maybeEmpty ++ (p.graph.childrenOf f).filter (· ∉ p.maybeEmpty) }
      (unprocessed ++ (p.graph.childrenOf f).filter (· ∉ p.maybeEmpty)) q added) :
    Takes p (.fragment f :: unprocessed) q ((p.graph.childrenOf f).filter (· ∉ p.maybeEmpty) ++ added) := by
  have hp : p.graph.promoteNode (.fragment f) = p.graph := by simp [promoteNode, he]
  refine ⟨?_, ?_, ?_, ?_, ?_, ?_⟩
  · rw [t.maybeEmpty, List.append_assoc]
  · rw [t.graph, List.cons_append, List.foldl_cons, hp, List.append_assoc]
  · rw [t.newRootNodes, List.cons_append, List.filter_cons_of_neg (by simp [nonEmpty, he]), List.append_assoc]
  · intro f' hm he' n hl
    rw [List.cons_append, ← List.append_assoc] at hm
    rcases List.mem_cons.mp hm with hm | hm
    · cases hm
      rw [t.maybeEmpty]
      apply List.mem_append_left
      by_cases hn : n ∈ p.maybeEmpty
      · exact List.mem_append_left _ hn
      · exact List.mem_append_right _ (List.mem_filter.mpr ⟨mem_childrenOf.mpr hl, by simpa using hn⟩)
    · exact t.closed f' hm he' n hl
  · intro start hw n hn
    have hc : ∀ m ∈ (p.graph.childrenOf f).filter (· ∉ p.maybeEmpty), p.graph.Walk start m := fun m hm =>
      .child (hw (.fragment f) List.mem_cons_self) he (mem_childrenOf.mp (List.mem_filter.mp hm).1)
    rcases List.mem_append.mp hn with hn | hn
    · exact hc n hn
    · apply t.walk start _ n hn
      intro m hm
      rcases List.mem_append.mp hm with hm | hm
      · exact hw m (List.mem_cons_of_mem _ hm)
      · exact hc m hm
  · intro hc hd
    apply t.nodup hc
    apply List.nodup_append.mpr
    refine ⟨hd, (valuesOf_nodup hc f).filter _, ?_⟩
    rintro a ha b hb rfl
    have := (List.mem_filter.mp hb).2
    simp [ha] at this

end Takes

theorem promoteFrom_takes (fuel : Nat) (unprocessed : List (Node U K)) (p : Promotion U K D E)
    (hf : unprocessed.length + (p.graph.children.filter (·.2 ∉ p.maybeEmpty)).length ≤ fuel) :
    ∃ added, Takes p unprocessed (promoteFrom fuel unprocessed p) added := by
  induction fuel generalizing unprocessed p with
  | zero =>
    obtain rfl : unprocessed = [] := List.length_eq_zero_iff.mp (by omega)
    exact ⟨[], .nil⟩
  | succ fuel ih =>
    cases unprocessed with
    | nil => exact ⟨[], .nil⟩
    | cons node unprocessed =>
      rw [List.length_cons] at hf
      have hr : unprocessed.length +
          ((p.graph.promoteNode node).children.filter (·.2 ∉ p.maybeEmpty)).length ≤ fuel := by
        rw [promoteNode_children]
        omega
      cases node with
      | stream s =>
        obtain ⟨added, t⟩ := ih unprocessed ⟨p.graph.promoteNode (.stream s), p.maybeEmpty, _⟩ hr
        exact ⟨added, t.root rfl⟩
      | fragment f =>
        unfold promoteFrom
        dsimp only
        split
        case isFalse he =>
          have hn : p.graph.promoteNode (.fragment f) =
              (p.graph.startGroups (p.graph.pendingOf f)).addRoot (.fragment f) := by simp [promoteNode, he]
          obtain ⟨added, t⟩ := ih unprocessed ⟨p.graph.promoteNode (.fragment f), p.maybeEmpty, _⟩ hr
          exact ⟨added, .root (by simpa [nonEmpty] using he) (hn ▸ t)⟩
        case isTrue he =>
          obtain ⟨added, t⟩ := ih (unprocessed ++ (p.graph.childrenOf f).filter (· ∉ p.maybeEmpty))
            { p with maybeEmpty := p.maybeEmpty ++ (p.graph.childrenOf f).filter (· ∉ p.maybeEmpty) } (by
              have := length_added_le (g := p.graph) (f := f) p.maybeEmpty
              rw [List.length_append]
              dsimp only
              omega)
          exact ⟨_, t.pass (List.isEmpty_iff.mp he)⟩

-- The nodes that are taken up when some nodes are promoted, of which those that are not empty are new root nodes.
structure Promoted (g : Graph U K D E) (start : List (Node U K)) (q : Promotion U K D E) : Prop where
  graph        : q.graph = q.maybeEmpty.foldl promoteNode g
  newRootNodes : q.newRootNodes = q.maybeEmpty.filter g.nonEmpty
  walk         : ∀ node, node ∈ q.maybeEmpty ↔ g.Walk (· ∈ start) node
  nodup        : g.children.Nodup → start.Nodup → q.maybeEmpty.Nodup

theorem promoteNonEmptyToRoot_promoted (start : List (Node U K)) :
    Promoted g start (g.promoteNonEmptyToRoot start) := by
  obtain ⟨added, t⟩ := promoteFrom_takes (start.length + g.children.length) start ⟨g, start, []⟩
    (Nat.add_le_add_left (List.length_filter_le _ _) _)
  have hm : (g.promoteNonEmptyToRoot start).maybeEmpty = start ++ added := t.maybeEmpty
  refine ⟨?_, ?_, ?_, t.nodup⟩
  · rw [hm]
    exact t.graph
  · rw [hm]
    exact t.newRootNodes
  · intro node
    constructor
    · intro h
      rcases List.mem_append.mp (hm ▸ h) with h | h
      · exact .start h
      · exact t.walk _ (fun _ h => .start h) node h
    · intro h
      induction h with
      | start h => exact hm ▸ List.mem_append_left _ h
      | child _ empty linked ih => exact t.closed _ (hm ▸ ih) empty _ linked

-- The groups that are started for a node.
def startedFor (g : Graph U K D E) : Node U K → List (Group U K)
  | .fragment f => (g.pendingOf f).filter (!g.completesRootNode ·)
  | .stream _   => []

theorem promoteNode_eq (node : Node U K) : g.promoteNode node = { g with
    rootNodes   := if g.nonEmpty node then setKey g.rootNodes node else g.rootNodes
    pendingRuns := g.pendingRuns ++ g.startedFor node
    tasks       := g.tasks ++ node.stream?.toList
    draining    := g.draining ++ node.stream?.toList } := by
  cases node with
  | stream s => simp [promoteNode, nonEmpty, startedFor, Node.stream?, addRoot, onStreamItems]
  | fragment f =>
    by_cases he : g.pendingOf f = []
    · simp [promoteNode, nonEmpty, startedFor, Node.stream?, he]
    · simp [promoteNode, nonEmpty, startedFor, Node.stream?, he, startGroups_eq, addRoot]

-- A group is pending for all of its fragments or for none.
def Consistent (g : Graph U K D E) : Prop :=
  ∀ f group, (f, group) ∈ g.pendingGroups →
    f ∈ group.deferRecords ∧ ∀ other ∈ group.deferRecords, (other, group) ∈ g.pendingGroups

theorem completesRootNode_promoteNode {f : Fragment U} (h : g.pendingOf f ≠ []) (group : Group U K) :
    (g.promoteNode (.fragment f)).completesRootNode group = true ↔
      g.completesRootNode group = true ∨ f ∈ group.deferRecords := by
  have : g.nonEmpty (.fragment f) = true := by simpa [nonEmpty] using h
  simp only [completesRootNode_iff, isRoot_iff, promoteNode_eq, this, if_true, mem_setKey, Node.fragment.injEq]
  constructor
  · rintro ⟨a, ha, h | rfl⟩
    · exact .inl ⟨a, ha, h⟩
    · exact .inr ha
  · rintro (⟨a, ha, h⟩ | h)
    · exact ⟨a, ha, .inl h⟩
    · exact ⟨f, h, .inr rfl⟩

-- Each group that the new root nodes wait for is started once, unless it has been started before.
def startedOnce (g : Graph U K D E) (nodes : List (Node U K)) (group : Group U K) : Nat :=
  if !g.completesRootNode group &&
      group.deferRecords.any fun f => nodes.contains (.fragment f) && (g.pendingOf f).contains group
    then 1 else 0

theorem startedOnce_eq {nodes : List (Node U K)} {group : Group U K} : g.startedOnce nodes group =
    if g.completesRootNode group = false ∧ ∃ f ∈ group.deferRecords, .fragment f ∈ nodes ∧ group ∈ g.pendingOf f
      then 1 else 0 := by
  rw [startedOnce]
  congr 1
  simp

theorem count_startedFor (hn : g.pendingGroups.Nodup) (f : Fragment U) (group : Group U K) :
    (g.startedFor (.fragment f)).count group =
      if g.completesRootNode group = false ∧ group ∈ g.pendingOf f then 1 else 0 := by
  have hd : ((g.pendingOf f).filter (!g.completesRootNode ·)).Nodup := (valuesOf_nodup hn f).filter _
  rw [startedFor, hd.count]
  simp only [List.mem_filter, Bool.not_eq_true', and_comm]

theorem startedOnce_cons (hc : g.Consistent) (hn : g.pendingGroups.Nodup) (node : Node U K)
    (nodes : List (Node U K)) (group : Group U K) : g.startedOnce (node :: nodes) group =
      (g.startedFor node).count group + (g.promoteNode node).startedOnce nodes group := by
  have hp : ∀ f, (g.promoteNode node).pendingOf f = g.pendingOf f := fun f => by
    rw [pendingOf, promoteNode_pendingGroups, pendingOf]
  cases node with
  | stream s =>
    have : (g.promoteNode (.stream s)).completesRootNode group = g.completesRootNode group := by
      rw [Bool.eq_iff_iff]
      simp [completesRootNode_iff, isRoot_iff, promoteNode_eq, nonEmpty]
    simp [startedOnce_eq, startedFor, this, hp]
  | fragment f =>
    rw [count_startedFor hn]
    rw [startedOnce_eq, startedOnce_eq]
    by_cases hr : g.completesRootNode group = true
    · have : (g.promoteNode (.fragment f)).completesRootNode group = true := by
        by_cases he : g.pendingOf f = []
        · simpa [promoteNode, he] using hr
        · exact (completesRootNode_promoteNode he group).mpr (.inl hr)
      simp [hr, this]
    · have hr : g.completesRootNode group = false := Bool.of_not_eq_true hr
      by_cases hg : group ∈ g.pendingOf f
      · have hf := (hc f group (mem_pendingOf.mp hg)).1
        have : (g.promoteNode (.fragment f)).completesRootNode group = true :=
          (completesRootNode_promoteNode (List.ne_nil_of_mem hg) group).mpr (.inr hf)
        rw [if_pos ⟨hr, f, hf, List.mem_cons_self, hg⟩, if_pos ⟨hr, hg⟩, if_neg (by simp [this])]
      · have hz : ¬(g.completesRootNode group = false ∧ group ∈ g.pendingOf f) := fun h => hg h.2
        rw [if_neg hz, Nat.zero_add]
        -- A fragment that waits for other groups alone is none of the group's.
        have hn : (g.promoteNode (.fragment f)).completesRootNode group = true →
            ∀ other ∈ group.deferRecords, group ∉ g.pendingOf other := by
          intro h other ho hp
          by_cases he : g.pendingOf f = []
          · simp [promoteNode, he, hr] at h
          · rcases (completesRootNode_promoteNode he group).mp h with h | h
            · simp [hr] at h
            · exact hg (mem_pendingOf.mpr ((hc other group (mem_pendingOf.mp hp)).2 f h))
        congr 1
        simp only [hr, true_and, hp, eq_iff_iff, List.mem_cons, Node.fragment.injEq]
        constructor
        · rintro ⟨other, ho, he | hm, hw⟩
          · exact absurd (he ▸ hw) hg
          · exact ⟨Bool.of_not_eq_true fun h => hn h other ho hw, other, ho, hm, hw⟩
        · rintro ⟨-, other, ho, hm, hw⟩
          exact ⟨other, ho, .inr hm, hw⟩

-- What taking up some nodes does to the graph.
structure TakenUp (g : Graph U K D E) (nodes : List (Node U K)) (g' : Graph U K D E) : Prop where
  frame : g' = { g with
    rootNodes   := g'.rootNodes
    pendingRuns := g'.pendingRuns
    tasks       := g.tasks ++ nodes.filterMap (·.stream?)
    draining    := g.draining ++ nodes.filterMap (·.stream?) }
  rootNodes : g'.rootNodes = (nodes.filter g.nonEmpty).foldl setKey g.rootNodes
  runs : g.Consistent → g.pendingGroups.Nodup → ∀ group,
    g'.pendingRuns.count group = g.pendingRuns.count group + g.startedOnce nodes group

theorem takenUp (nodes : List (Node U K)) : TakenUp g nodes (nodes.foldl promoteNode g) := by
  induction nodes generalizing g with
  | nil =>
    refine ⟨by simp, rfl, ?_⟩
    intro _ _ group
    simp [startedOnce]
  | cons node nodes ih =>
    have ih := ih (g := g.promoteNode node)
    have hp := promoteNode_pendingGroups (g := g) node
    refine ⟨?_, ?_, ?_⟩
    · rw [List.foldl_cons, ih.frame, promoteNode_eq]
      cases node <;> simp [Node.stream?]
    · rw [List.foldl_cons, ih.rootNodes, promoteNode_nonEmpty, promoteNode_eq]
      by_cases h : g.nonEmpty node = true <;> simp [h]
    · intro hc hn group
      have hc' : (g.promoteNode node).Consistent := by
        unfold Consistent
        rw [hp]
        exact hc
      rw [List.foldl_cons, ih.runs hc' (hp ▸ hn), startedOnce_cons hc hn, promoteNode_eq, List.count_append,
        Nat.add_assoc]

-- What a promotion leaves as it is, and what it makes of the root nodes.
structure Promotes (g : Graph U K D E) (p : Promotion U K D E) : Prop where
  children         : p.graph.children = g.children
  pendingGroups    : p.graph.pendingGroups = g.pendingGroups
  successfulGroups : p.graph.successfulGroups = g.successfulGroups
  completedQueue   : p.graph.completedQueue = g.completedQueue
  rootNodes        : ∀ node, node ∈ p.graph.rootNodes ↔ node ∈ g.rootNodes ∨ node ∈ p.newRootNodes
  nonEmpty         : ∀ f, .fragment f ∈ p.newRootNodes → p.graph.pendingOf f ≠ []
  streams          : ∀ stream, .stream stream ∈ p.maybeEmpty → .stream stream ∈ p.newRootNodes

theorem promotes (start : List (Node U K)) : g.Promotes (g.promoteNonEmptyToRoot start) := by
  have p := promoteNonEmptyToRoot_promoted (g := g) start
  have t := takenUp (g := g) (g.promoteNonEmptyToRoot start).maybeEmpty
  rw [← p.graph] at t
  have hp : (g.promoteNonEmptyToRoot start).graph.pendingGroups = g.pendingGroups := by rw [t.frame]
  refine ⟨by rw [t.frame], hp, by rw [t.frame], by rw [t.frame], fun node => ?_, fun f hf => ?_, fun s hs => ?_⟩
  · rw [t.rootNodes, mem_foldl_setKey, p.newRootNodes]
  · rw [p.newRootNodes] at hf
    have hpo : (g.promoteNonEmptyToRoot start).graph.pendingOf f = g.pendingOf f := by
      rw [pendingOf, hp, pendingOf]
    rw [hpo]
    simpa [Graph.nonEmpty] using (List.mem_filter.mp hf).2
  · rw [p.newRootNodes]
    exact List.mem_filter.mpr ⟨hs, rfl⟩

end Graph

end Grafast.IncGraph
