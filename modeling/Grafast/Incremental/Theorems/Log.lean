import Grafast.Incremental.Protocol
import Grafast.Incremental.Theorems.Graph

namespace Grafast.IncGraph

set_option linter.unusedSectionVars false

variable {U K D E : Type}

-- How a payload fits to those before it, apart from what it says about the end.
structure Payload.Fits (p : Payload U K D E) (older : List (Payload U K D E)) : Prop where
  used   : ∀ entry ∈ p.incremental, ∃ node id, entry.id = some id ∧ (node, id) ∈ announced (p :: older) ∧
    ∀ result ∈ closed older, result.id ≠ some id
  closes : ∀ result ∈ p.completed, ∃ node id, result.id = some id ∧ (node, id) ∈ announced (p :: older)
  nested : ∀ f id, (.fragment f, id) ∈ p.pending → ∀ outer ∈ f.ancestors, ∀ id',
    (.fragment outer, id') ∈ announced (p :: older) → ⟨some id', none⟩ ∈ closed (p :: older)
  fresh  : ∀ outer id, (.fragment outer, id) ∈ p.pending → ∀ f id', (.fragment f, id') ∈ announced older →
    outer ∉ f.ancestors

def Sound : List (Payload U K D E) → Prop
  | []         => True
  | p :: older => p.Fits older ∧ Sound older

theorem announced_cons (p : Payload U K D E) (older : List (Payload U K D E)) :
    announced (p :: older) = p.pending ++ announced older :=
  rfl

theorem closed_cons (p : Payload U K D E) (older : List (Payload U K D E)) :
    closed (p :: older) = p.completed ++ closed older :=
  rfl

theorem announced_subset {older payloads : List (Payload U K D E)} (h : older <:+ payloads)
    {entry : Node U K × Nat} (he : entry ∈ announced older) : entry ∈ announced payloads := by
  obtain ⟨newer, rfl⟩ := h
  rw [announced, List.flatMap_append]
  exact List.mem_append_right _ he

namespace Sound

variable {payloads : List (Payload U K D E)}

theorem fits (h : Sound payloads) {p : Payload U K D E} {older : List (Payload U K D E)}
    (hs : p :: older <:+ payloads) : p.Fits older := by
  induction payloads with
  | nil => cases List.suffix_nil.mp hs
  | cons q payloads ih =>
    rcases List.suffix_cons_iff.mp hs with he | hs
    · cases he
      exact h.1
    · exact ih h.2 hs

-- A fragment is announced after those that it is nested in.
theorem nested (h : Sound payloads) {p : Payload U K D E} {older : List (Payload U K D E)}
    (hs : p :: older <:+ payloads) {f outer : Fragment U} {id id' : Nat} (hf : (.fragment f, id) ∈ p.pending)
    (ho : outer ∈ f.ancestors) (ha : (.fragment outer, id') ∈ announced payloads) :
    ⟨some id', none⟩ ∈ closed (p :: older) := by
  induction payloads with
  | nil => cases List.suffix_nil.mp hs
  | cons q payloads ih =>
    rcases List.suffix_cons_iff.mp hs with he | hs'
    · cases he
      exact h.1.nested f id hf outer ho id' ha
    · rcases List.mem_append.mp ha with ha | ha
      · have hf : (Node.fragment f, id) ∈ announced payloads :=
          announced_subset hs' (List.mem_append_left _ hf)
        exact absurd ho (h.1.fresh outer id' ha f id hf)
      · exact ih h.2 hs' ha

end Sound

-- The payload that is made up grows.
theorem Payload.Fits.extend {p p' : Payload U K D E} {older : List (Payload U K D E)} (h : p.Fits older)
    {pending : List (Node U K × Nat)} {incremental : List (IncrementalResult U K D E)}
    {completed : List (CompletedResult E)} (hp : p'.pending = p.pending ++ pending)
    (hi : p'.incremental = p.incremental ++ incremental) (hc : p'.completed = p.completed ++ completed)
    (used : ∀ entry ∈ incremental, ∃ node id, entry.id = some id ∧ (node, id) ∈ announced (p' :: older) ∧
      ∀ result ∈ closed older, result.id ≠ some id)
    (closes : ∀ result ∈ completed, ∃ node id, result.id = some id ∧ (node, id) ∈ announced (p' :: older))
    (nested : ∀ f id, (.fragment f, id) ∈ pending → ∀ outer ∈ f.ancestors, ∀ id',
      (.fragment outer, id') ∈ announced (p' :: older) → ⟨some id', none⟩ ∈ closed (p' :: older))
    (fresh : ∀ outer id, (.fragment outer, id) ∈ pending → ∀ f id', (.fragment f, id') ∈ announced (p :: older) →
      outer ∉ f.ancestors) : p'.Fits older := by
  have ha : ∀ entry, entry ∈ announced (p' :: older) ↔ entry ∈ announced (p :: older) ∨ entry ∈ pending := by
    intro entry
    simp only [announced_cons, hp, List.mem_append]
    tauto
  have hcl : ∀ result ∈ closed (p :: older), result ∈ closed (p' :: older) := by
    intro result h
    simp only [closed_cons, hc, List.mem_append] at h ⊢
    tauto
  refine ⟨?_, ?_, ?_, ?_⟩
  · intro entry he
    rcases List.mem_append.mp (hi ▸ he) with he | he
    · obtain ⟨node, id, hid, hm, hn⟩ := h.used entry he
      exact ⟨node, id, hid, (ha _).mpr (.inl hm), hn⟩
    · exact used entry he
  · intro result hr
    rcases List.mem_append.mp (hc ▸ hr) with hr | hr
    · obtain ⟨node, id, hid, hm⟩ := h.closes result hr
      exact ⟨node, id, hid, (ha _).mpr (.inl hm)⟩
    · exact closes result hr
  · intro f id hf outer ho id' hm
    rcases List.mem_append.mp (hp ▸ hf) with hf | hf
    · rcases (ha _).mp hm with hm | hm
      · exact hcl _ (h.nested f id hf outer ho id' hm)
      · exact absurd ho (fresh outer id' hm f id (List.mem_append_left _ hf))
    · exact nested f id hf outer ho id' hm
  · intro outer id ho f id' hf
    rcases List.mem_append.mp (hp ▸ ho) with ho | ho
    · exact h.fresh outer id ho f id' hf
    · exact fresh outer id ho f id' (List.mem_append_right _ hf)

variable [DecidableEq U] [DecidableEq K] [DecidableEq D] [DecidableEq E]

namespace State

variable {s s' : State U K D E}

def Known (s : State U K D E) (node : Node U K) : Prop :=
  ∃ id, (node, id) ∈ s.ids

-- The payloads say what the graph is like: the root nodes are those that are announced and not completed.
structure Recorded (s : State U K D E) : Prop where
  perm       : (announced s.log).Perm s.ids
  nodeOnce   : (s.ids.map (·.1)).Nodup
  idOnce     : (s.ids.map (·.2)).Nodup
  below      : ∀ entry ∈ s.ids, entry.2 < s.nextId
  rootOnce   : s.graph.rootNodes.Nodup
  roots      : ∀ node, node ∈ s.graph.rootNodes ↔
    ∃ id, (node, id) ∈ s.ids ∧ ∀ result ∈ closed s.log, result.id ≠ some id
  closedOnce : ((closed s.log).map (·.id)).Nodup
  closes     : ∀ result ∈ closed s.log, ∃ entry ∈ s.ids, result.id = some entry.2
  sound      : Sound s.log

theorem toPending_eq (s : State U K D E) (nodes : List (Node U K)) : s.toPending nodes = { s with
    ids     := (nodes.zipIdx s.nextId).reverse ++ s.ids
    nextId  := s.nextId + nodes.length
    pending := s.pending ++ nodes.zipIdx s.nextId } := by
  unfold toPending
  induction nodes generalizing s with
  | nil => simp
  | cons node nodes ih =>
    rw [List.foldl_cons, ih]
    simp [List.zipIdx_cons, Nat.add_assoc, Nat.add_comm]

namespace Recorded

variable (r : s.Recorded)

include r

theorem mem_announced {entry : Node U K × Nat} : entry ∈ announced s.log ↔ entry ∈ s.ids :=
  r.perm.mem_iff

theorem id_unique {node : Node U K} {id id' : Nat} (h : (node, id) ∈ s.ids) (h' : (node, id') ∈ s.ids) :
    id = id' := by
  have := List.inj_on_of_nodup_map r.nodeOnce h h' rfl
  exact congrArg Prod.snd this

theorem node_unique {node node' : Node U K} {id : Nat} (h : (node, id) ∈ s.ids) (h' : (node', id) ∈ s.ids) :
    node = node' := by
  have := List.inj_on_of_nodup_map r.idOnce h h' rfl
  exact congrArg Prod.fst this

theorem idOf_eq {node : Node U K} {id : Nat} (h : (node, id) ∈ s.ids) : s.idOf node = some id := by
  have hl : ∀ l : List (Node U K × Nat), (l.map (·.1)).Nodup → (node, id) ∈ l → l.lookup node = some id := by
    intro l
    induction l with
    | nil => exact fun _ h => by cases h
    | cons entry l ih =>
      intro hn hm
      obtain ⟨hx, hn⟩ := List.nodup_cons.mp hn
      rcases List.mem_cons.mp hm with rfl | hm
      · simp
      · rw [List.lookup_cons]
        split
        case h_1 he =>
          rw [beq_iff_eq] at he
          exact absurd (List.mem_map.mpr ⟨_, hm, he⟩) hx
        case h_2 => exact ih hn hm
  exact hl s.ids r.nodeOnce h

theorem known_of_root {node : Node U K} (h : node ∈ s.graph.rootNodes) : s.Known node := by
  obtain ⟨id, h, -⟩ := (r.roots node).mp h
  exact ⟨id, h⟩

theorem failed_iff {f : Fragment U} : s.Failed f ↔
    ∃ id errors, (.fragment f, id) ∈ s.ids ∧ ⟨some id, some errors⟩ ∈ closed s.log := by
  simp only [Failed, r.mem_announced]

theorem known_of_failed {f : Fragment U} (h : s.Failed f) : s.Known (.fragment f) := by
  obtain ⟨id, errors, h, -⟩ := r.failed_iff.mp h
  exact ⟨id, h⟩

theorem not_root_of_failed {f : Fragment U} (h : s.Failed f) : s.graph.isRoot f = false := by
  obtain ⟨id, errors, h, hc⟩ := r.failed_iff.mp h
  rw [← Bool.not_eq_true, Graph.isRoot_iff, r.roots]
  rintro ⟨id', h', hn⟩
  exact hn _ hc (congrArg some (r.id_unique h h'))

-- What was announced, and is neither open nor failed, was completed.
theorem completed {f : Fragment U} {id : Nat} (h : (.fragment f, id) ∈ s.ids) (hr : s.graph.isRoot f = false)
    (hf : ¬s.Failed f) : ⟨some id, none⟩ ∈ closed s.log := by
  rw [← Bool.not_eq_true, Graph.isRoot_iff, r.roots] at hr
  have : ∃ result ∈ closed s.log, result.id = some id := by
    by_contra hn
    apply hr
    refine ⟨id, h, fun result hm he => hn ⟨result, hm, he⟩⟩
  obtain ⟨⟨i, errors⟩, hm, he⟩ := this
  obtain rfl : i = some id := he
  cases errors with
  | none        => exact hm
  | some errors => exact absurd (r.failed_iff.mpr ⟨id, errors, h, hm⟩) hf

end Recorded

-- How the consumer goes on with its payload: it announces new nodes and completes some of the root nodes.
structure Continues (s s' : State U K D E) (new gone : List (Node U K))
    (entries : List (IncrementalResult U K D E)) (results : List (CompletedResult E)) : Prop where
  ids         : s'.ids = (new.zipIdx s.nextId).reverse ++ s.ids
  nextId      : s'.nextId = s.nextId + new.length
  pending     : s'.pending = s.pending ++ new.zipIdx s.nextId
  incremental : s'.incremental = s.incremental ++ entries
  completed   : s'.completed = s.completed ++ results
  payloads    : s'.payloads = s.payloads
  newOnce     : new.Nodup
  newUnknown  : ∀ node ∈ new, ¬s.Known node
  goneOnce    : gone.Nodup
  goneRoots   : ∀ node ∈ gone, node ∈ s.graph.rootNodes
  goneIds     : results.map (·.id) = gone.map s.idOf
  roots       : ∀ node, node ∈ s'.graph.rootNodes ↔ (node ∈ s.graph.rootNodes ∧ node ∉ gone) ∨ node ∈ new
  rootOnce    : s'.graph.rootNodes.Nodup

namespace Continues

variable {new gone : List (Node U K)} {entries : List (IncrementalResult U K D E)}
  {results : List (CompletedResult E)} (c : Continues s s' new gone entries results)

include c

theorem mem_ids {entry : Node U K × Nat} :
    entry ∈ s'.ids ↔ entry ∈ new.zipIdx s.nextId ∨ entry ∈ s.ids := by
  rw [c.ids, List.mem_append, List.mem_reverse]

theorem mem_closed {result : CompletedResult E} :
    result ∈ closed s'.log ↔ result ∈ closed s.log ∨ result ∈ results := by
  simp only [log, closed_cons, c.completed, c.payloads, List.mem_append]
  tauto

theorem known {node : Node U K} : s'.Known node ↔ s.Known node ∨ node ∈ new := by
  simp only [Known, c.mem_ids, exists_or]
  rw [or_comm]
  refine or_congr_right ⟨?_, ?_⟩
  · rintro ⟨id, h⟩
    exact List.fst_mem_of_mem_zipIdx h
  · intro h
    obtain ⟨n, hn, rfl⟩ := List.getElem_of_mem h
    exact ⟨s.nextId + n, List.mk_add_mem_zipIdx_iff_getElem?.mpr (List.getElem?_eq_getElem hn)⟩

theorem nextId_le {node : Node U K} {id : Nat} (h : (node, id) ∈ new.zipIdx s.nextId) : s.nextId ≤ id :=
  List.le_snd_of_mem_zipIdx h

variable (r : s.Recorded)

include r

-- The results are those of nodes that are gone.
theorem gone_of_mem {result : CompletedResult E} (h : result ∈ results) :
    ∃ node id, node ∈ gone ∧ (node, id) ∈ s.ids ∧ result.id = some id := by
  have := List.mem_map_of_mem (f := (·.id)) h
  rw [c.goneIds] at this
  obtain ⟨node, hm, he⟩ := List.mem_map.mp this
  obtain ⟨id, hid⟩ := r.known_of_root (c.goneRoots node hm)
  rw [r.idOf_eq hid] at he
  exact ⟨node, id, hm, hid, he.symm⟩

theorem mem_completed {node : Node U K} (h : node ∈ gone) :
    ∃ result ∈ results, ∃ id, (node, id) ∈ s.ids ∧ result.id = some id := by
  obtain ⟨id, hid⟩ := r.known_of_root (c.goneRoots node h)
  have := List.mem_map_of_mem (f := s.idOf) h
  rw [← c.goneIds, r.idOf_eq hid] at this
  obtain ⟨result, hm, he⟩ := List.mem_map.mp this
  exact ⟨result, hm, id, hid, he⟩

theorem failed {f : Fragment U} : (∃ id errors, (.fragment f, id) ∈ s'.ids ∧ ⟨some id, some errors⟩ ∈ closed s'.log) ↔
    s.Failed f ∨ ∃ id errors, (.fragment f, id) ∈ s.ids ∧ ⟨some id, some errors⟩ ∈ results := by
  rw [r.failed_iff]
  constructor
  · rintro ⟨id, errors, hm, hc⟩
    have old : (.fragment f, id) ∈ s.ids := by
      rcases c.mem_ids.mp hm with hm | hm
      · exfalso
        have hle := c.nextId_le hm
        have : ∃ entry ∈ s.ids, some id = some entry.2 := by
          rcases c.mem_closed.mp hc with hc | hc
          · exact r.closes _ hc
          · obtain ⟨node, i, -, hi, he⟩ := c.gone_of_mem r hc
            exact ⟨_, hi, he⟩
        obtain ⟨entry, hm, he⟩ := this
        have := r.below entry hm
        have := Option.some.inj he
        omega
      · exact hm
    rcases c.mem_closed.mp hc with hc | hc
    · exact .inl ⟨id, errors, old, hc⟩
    · exact .inr ⟨id, errors, old, hc⟩
  · rintro (⟨id, errors, hm, hc⟩ | ⟨id, errors, hm, hc⟩)
    · exact ⟨id, errors, c.mem_ids.mpr (.inr hm), c.mem_closed.mpr (.inl hc)⟩
    · exact ⟨id, errors, c.mem_ids.mpr (.inr hm), c.mem_closed.mpr (.inr hc)⟩

-- The ids that entries use are those of nodes that are open, or have just been announced.
theorem recorded
    (used : ∀ entry ∈ entries, ∃ node id, entry.id = some id ∧ (node, id) ∈ s'.ids ∧
      (node ∈ s.graph.rootNodes ∨ node ∈ new))
    (nested : ∀ f, .fragment f ∈ new → ∀ outer ∈ f.ancestors, ∀ id, (.fragment outer, id) ∈ s'.ids →
      ⟨some id, none⟩ ∈ closed s'.log)
    (fresh : ∀ outer, .fragment outer ∈ new → ∀ f, s.Known (.fragment f) → outer ∉ f.ancestors) : s'.Recorded := by
  have hperm : (announced s'.log).Perm s'.ids := by
    have : announced s'.log = s.pending ++ new.zipIdx s.nextId ++ announced s.payloads := by
      simp [log, announced_cons, c.pending, c.payloads]
    rw [this, c.ids]
    have h1 : (s.pending ++ new.zipIdx s.nextId ++ announced s.payloads).Perm
        (new.zipIdx s.nextId ++ (s.pending ++ announced s.payloads)) := by
      rw [List.append_assoc]
      exact List.perm_append_comm_assoc _ _ _
    exact h1.trans ((List.reverse_perm _).symm.append r.perm)
  have hid : ∀ {node id}, (node, id) ∈ new.zipIdx s.nextId → node ∈ new := List.fst_mem_of_mem_zipIdx
  have closedOld : ∀ {id}, s.nextId ≤ id → ∀ result ∈ closed s'.log, result.id ≠ some id := by
    intro id hle result hm he
    have : ∃ entry ∈ s.ids, result.id = some entry.2 := by
      rcases c.mem_closed.mp hm with hm | hm
      · exact r.closes _ hm
      · obtain ⟨node, i, -, hi, h⟩ := c.gone_of_mem r hm
        exact ⟨_, hi, h⟩
    obtain ⟨entry, hm, h⟩ := this
    have := r.below entry hm
    have := Option.some.inj (h.symm.trans he)
    omega
  refine ⟨hperm, ?_, ?_, ?_, c.rootOnce, ?_, ?_, ?_, ?_⟩
  · rw [c.ids, List.map_append, List.map_reverse, List.zipIdx_map_fst]
    apply List.nodup_append.mpr
    refine ⟨List.nodup_reverse.mpr c.newOnce, r.nodeOnce, ?_⟩
    rintro a ha b hb rfl
    obtain ⟨entry, he, rfl⟩ := List.mem_map.mp hb
    exact c.newUnknown _ (List.mem_reverse.mp ha) ⟨entry.2, he⟩
  · rw [c.ids, List.map_append, List.map_reverse, List.zipIdx_map_snd]
    apply List.nodup_append.mpr
    refine ⟨List.nodup_reverse.mpr List.nodup_range', r.idOnce, ?_⟩
    rintro a ha b hb rfl
    obtain ⟨entry, he, rfl⟩ := List.mem_map.mp hb
    have := (List.mem_range'_1.mp (List.mem_reverse.mp ha)).1
    have := r.below entry he
    omega
  · intro entry he
    rw [c.nextId]
    rcases c.mem_ids.mp he with he | he
    · have := List.snd_lt_add_of_mem_zipIdx he
      omega
    · have := r.below entry he
      omega
  · intro node
    rw [c.roots, r.roots]
    constructor
    · rintro (⟨⟨id, hm, hn⟩, hg⟩ | hm)
      · refine ⟨id, c.mem_ids.mpr (.inr hm), fun result hr he => ?_⟩
        rcases c.mem_closed.mp hr with hr | hr
        · exact hn result hr he
        · obtain ⟨other, i, ho, hi, h⟩ := c.gone_of_mem r hr
          cases Option.some.inj (h.symm.trans he)
          exact hg (r.node_unique hm hi ▸ ho)
      · obtain ⟨id, h⟩ := c.known.mpr (.inr hm)
        rcases c.mem_ids.mp h with hz | h'
        · exact ⟨id, h, closedOld (c.nextId_le hz)⟩
        · exact absurd ⟨id, h'⟩ (c.newUnknown node hm)
    · rintro ⟨id, hm, hn⟩
      rcases c.mem_ids.mp hm with hm | hm
      · exact .inr (hid hm)
      · left
        refine ⟨⟨id, hm, fun result hr => hn result (c.mem_closed.mpr (.inl hr))⟩, fun hg => ?_⟩
        obtain ⟨result, hr, i, hi, he⟩ := c.mem_completed r hg
        rw [r.id_unique hm hi] at hn
        exact hn result (c.mem_closed.mpr (.inr hr)) he
  · have : ((closed s'.log).map (·.id)).Perm (results.map (·.id) ++ (closed s.log).map (·.id)) := by
      simp only [log, closed_cons, c.completed, c.payloads, List.map_append, List.append_assoc]
      exact List.perm_append_comm_assoc _ _ _
    rw [this.nodup_iff, c.goneIds]
    apply List.nodup_append.mpr
    refine ⟨?_, r.closedOnce, ?_⟩
    · apply c.goneOnce.map_on
      intro a ha b hb he
      obtain ⟨i, hi⟩ := r.known_of_root (c.goneRoots a ha)
      obtain ⟨j, hj⟩ := r.known_of_root (c.goneRoots b hb)
      rw [r.idOf_eq hi, r.idOf_eq hj] at he
      cases Option.some.inj he
      exact r.node_unique hi hj
    · rintro a ha b hb rfl
      obtain ⟨node, hg, rfl⟩ := List.mem_map.mp ha
      obtain ⟨i, hi, hn⟩ := (r.roots node).mp (c.goneRoots node hg)
      obtain ⟨result, hr, he⟩ := List.mem_map.mp hb
      exact hn result hr (he.trans (r.idOf_eq hi))
  · intro result hr
    rcases c.mem_closed.mp hr with hr | hr
    · obtain ⟨entry, he, h⟩ := r.closes result hr
      exact ⟨entry, c.mem_ids.mpr (.inr he), h⟩
    · obtain ⟨node, i, -, hi, h⟩ := c.gone_of_mem r hr
      exact ⟨_, c.mem_ids.mpr (.inr hi), h⟩
  · obtain ⟨hfit, hsound⟩ := r.sound
    refine ⟨?_, c.payloads ▸ hsound⟩
    rw [c.payloads]
    have hlog : ∀ entry, entry ∈ announced (⟨s'.pending, s'.incremental, s'.completed, true⟩ :: s.payloads) ↔
        entry ∈ s'.ids := by
      intro entry
      rw [← hperm.mem_iff, log, c.payloads]
    apply hfit.extend c.pending c.incremental c.completed
    · intro entry he
      obtain ⟨node, id, hid', hm, ho⟩ := used entry he
      refine ⟨node, id, hid', (hlog _).mpr hm, fun result hr => ?_⟩
      have hr : result ∈ closed s.log := List.mem_append_right _ hr
      rcases ho with ho | ho
      · obtain ⟨i, hi, hn⟩ := (r.roots node).mp ho
        have : (node, i) ∈ s'.ids := c.mem_ids.mpr (.inr hi)
        rcases c.mem_ids.mp hm with hz | hm
        · exact absurd ⟨i, hi⟩ (c.newUnknown node (hid hz))
        · rw [r.id_unique hm hi]
          exact hn result hr
      · rcases c.mem_ids.mp hm with hz | hm
        · exact closedOld (c.nextId_le hz) result (c.mem_closed.mpr (.inl hr))
        · exact absurd ⟨id, hm⟩ (c.newUnknown node ho)
    · intro result hr
      obtain ⟨node, i, -, hi, h⟩ := c.gone_of_mem r hr
      exact ⟨node, i, h, (hlog _).mpr (c.mem_ids.mpr (.inr hi))⟩
    · intro f id hf outer ho id' hm
      have := nested f (hid hf) outer ho id' ((hlog _).mp hm)
      rwa [log, c.payloads] at this
    · intro outer id ho f id' hf
      exact fresh outer (hid ho) f ⟨id', r.mem_announced.mp hf⟩

end Continues

end State

end Grafast.IncGraph
