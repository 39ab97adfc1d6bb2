import Grafast.Incremental.Graph
import Mathlib.Data.List.Nodup
import Mathlib.Data.List.Count

namespace Grafast.IncGraph

set_option linter.unusedSectionVars false

section

variable {α β : Type} [DecidableEq α]

@[simp]
theorem mem_setKey {keys : List α} {key k : α} : k ∈ setKey keys key ↔ k ∈ keys ∨ k = key := by
  unfold setKey
  split <;> simp_all

theorem setKey_nodup {keys : List α} (h : keys.Nodup) (key : α) : (setKey keys key).Nodup := by
  unfold setKey
  split
  case isTrue => exact h
  case isFalse hk =>
    apply List.nodup_append.mpr
    refine ⟨h, List.nodup_singleton key, ?_⟩
    rintro a ha b hb rfl
    exact hk (List.mem_singleton.mp hb ▸ ha)

theorem mem_foldl_setKey {keys added : List α} {k : α} :
    k ∈ added.foldl setKey keys ↔ k ∈ keys ∨ k ∈ added := by
  induction added generalizing keys with
  | nil => simp
  | cons key added ih => rw [List.foldl_cons, ih, mem_setKey, List.mem_cons, or_assoc]

theorem foldl_setKey_nodup {keys : List α} (h : keys.Nodup) (added : List α) :
    (added.foldl setKey keys).Nodup := by
  induction added generalizing keys with
  | nil => exact h
  | cons key added ih => exact ih (setKey_nodup h key)

@[simp]
theorem mem_valuesOf {pairs : List (α × β)} {key : α} {value : β} :
    value ∈ valuesOf pairs key ↔ (key, value) ∈ pairs := by
  simp [valuesOf]

theorem valuesOf_nodup {pairs : List (α × β)} (h : pairs.Nodup) (key : α) : (valuesOf pairs key).Nodup := by
  apply (h.filter _).map_on
  intro a ha b hb he
  have ha := of_decide_eq_true (List.mem_filter.mp ha).2
  have hb := of_decide_eq_true (List.mem_filter.mp hb).2
  exact Prod.ext (ha.trans hb.symm) he

theorem valuesOf_eq_nil {pairs : List (α × β)} {key : α} :
    valuesOf pairs key = [] ↔ ∀ value, (key, value) ∉ pairs := by
  simp [List.eq_nil_iff_forall_not_mem]

end

variable {U K D E : Type}

namespace Fragment

theorem ancestors_of_parent {f outer : Fragment U} (h : f.parent? = some outer) :
    f.ancestors = outer :: outer.ancestors := by
  cases f with
  | top _ _      => cases h
  | nested _ _ _ => cases h; rfl

theorem ancestors_trans {f outer a : Fragment U} (ho : outer ∈ f.ancestors) (ha : a ∈ outer.ancestors) :
    a ∈ f.ancestors := by
  induction f with
  | top _ _ => cases ho
  | nested _ _ parent ih =>
    rcases List.mem_cons.mp ho with rfl | ho
    · exact List.mem_cons_of_mem _ ha
    · exact List.mem_cons_of_mem _ (ih ho)

theorem mem_chain {f a : Fragment U} : a ∈ f.chain ↔ a = f ∨ a ∈ f.ancestors :=
  List.mem_cons

theorem self_mem_chain (f : Fragment U) : f ∈ f.chain :=
  List.mem_cons_self

theorem chain_of_parent {f outer a : Fragment U} (h : f.parent? = some outer) :
    a ∈ f.chain ↔ a = f ∨ a ∈ outer.chain := by
  rw [mem_chain, ancestors_of_parent h, chain]

theorem chain_trans {f outer a : Fragment U} (ho : outer ∈ f.chain) (ha : a ∈ outer.chain) : a ∈ f.chain := by
  rcases mem_chain.mp ho with rfl | ho
  · exact ha
  · rcases mem_chain.mp ha with rfl | ha
    · exact mem_chain.mpr (.inr ho)
    · exact mem_chain.mpr (.inr (ancestors_trans ho ha))

end Fragment

-- A fragment that is, or is nested in, one of the barriers.
def Held (barrier : Fragment U → Prop) (f : Fragment U) : Prop :=
  ∃ outer ∈ f.chain, barrier outer

namespace Held

variable {barrier : Fragment U → Prop} {f outer : Fragment U}

theorem self (h : barrier f) : Held barrier f :=
  ⟨f, f.self_mem_chain, h⟩

theorem above (ho : outer ∈ f.chain) (h : Held barrier outer) : Held barrier f := by
  obtain ⟨a, ha, hb⟩ := h
  exact ⟨a, Fragment.chain_trans ho ha, hb⟩

theorem mono {barrier' : Fragment U → Prop} (h : Held barrier f) (hb : ∀ a ∈ f.chain, barrier a → barrier' a) :
    Held barrier' f := by
  obtain ⟨a, ha, h⟩ := h
  exact ⟨a, ha, hb a ha h⟩

theorem of_ancestor (ho : outer ∈ f.ancestors) (h : barrier outer) : Held barrier f :=
  ⟨outer, Fragment.mem_chain.mpr (.inr ho), h⟩

theorem of_parent (hp : f.parent? = some outer) : Held barrier f ↔ barrier f ∨ Held barrier outer := by
  constructor
  · rintro ⟨a, ha, h⟩
    rcases (Fragment.chain_of_parent hp).mp ha with rfl | ha
    · exact .inl h
    · exact .inr ⟨a, ha, h⟩
  · rintro (h | ⟨a, ha, h⟩)
    · exact self h
    · exact ⟨a, (Fragment.chain_of_parent hp).mpr (.inr ha), h⟩

theorem top {usage : U} {path : Path} : Held barrier (.top usage path) ↔ barrier (.top usage path) := by
  simp [Held, Fragment.chain, Fragment.ancestors]

end Held

variable [DecidableEq U] [DecidableEq K] [DecidableEq D] [DecidableEq E]

namespace Graph

variable {g : Graph U K D E} {f p : Fragment U} {group : Group U K} {stream : Stream K}

@[simp]
theorem mem_childrenOf {node : Node U K} : node ∈ g.childrenOf f ↔ (f, node) ∈ g.children :=
  mem_valuesOf

@[simp]
theorem mem_pendingOf : group ∈ g.pendingOf f ↔ (f, group) ∈ g.pendingGroups :=
  mem_valuesOf

theorem pendingOf_eq_nil : g.pendingOf f = [] ↔ ∀ group, (f, group) ∉ g.pendingGroups :=
  valuesOf_eq_nil

theorem isRoot_iff : g.isRoot f = true ↔ .fragment f ∈ g.rootNodes := by
  simp [isRoot]

theorem completesRootNode_iff : g.completesRootNode group = true ↔ ∃ f ∈ group.deferRecords, g.isRoot f = true := by
  simp [completesRootNode]

section

variable (g)

-- The graph once a fragment is linked up to the first root node that it is in.
def link : Fragment U → Graph U K D E → Graph U K D E
  | .top _ _,            g => g
  | .nested usage path outer, g =>
    if g.isRoot (.nested usage path outer) then g
    else link outer (g.addChild outer (.fragment (.nested usage path outer)))

-- The fragments that are linked, from the inside out.
def unlinked (f : Fragment U) : List (Fragment U) :=
  f.chain.takeWhile fun a => !g.isRoot a

end

theorem link_frame : (link f g) = { g with children := (link f g).children } := by
  induction f generalizing g with
  | top _ _ => rfl
  | nested usage path outer ih =>
    unfold link
    split
    · rfl
    · rw [ih]
      rfl

@[simp] theorem link_rootNodes : (link f g).rootNodes = g.rootNodes := by rw [link_frame]

@[simp] theorem link_pendingGroups : (link f g).pendingGroups = g.pendingGroups := by rw [link_frame]

@[simp] theorem link_isRoot : (link f g).isRoot p = g.isRoot p := by simp [isRoot]

theorem unlinked_nested {usage : U} {path : Path} (h : g.isRoot (.nested usage path p) = false) :
    g.unlinked (.nested usage path p) = .nested usage path p :: g.unlinked p := by
  have : (Fragment.nested usage path p).chain = .nested usage path p :: p.chain := rfl
  rw [unlinked, this, List.takeWhile_cons_of_pos (by simp [h])]
  rfl

theorem mem_link_children {node : Node U K} : (p, node) ∈ (link f g).children ↔
    (p, node) ∈ g.children ∨ ∃ below ∈ g.unlinked f, node = .fragment below ∧ below.parent? = some p := by
  induction f generalizing g with
  | top usage path =>
    have : ¬∃ below ∈ g.unlinked (.top usage path), node = .fragment below ∧ below.parent? = some p := by
      rintro ⟨below, hb, -, hp⟩
      rw [unlinked] at hb
      obtain rfl : below = .top usage path := by
        simpa [Fragment.chain, Fragment.ancestors] using (List.takeWhile_sublist _).subset hb
      cases hp
    simp [link, this]
  | nested usage path outer ih =>
    unfold link
    split
    case isTrue h =>
      have : g.unlinked (.nested usage path outer) = [] := by
        simp [unlinked, Fragment.chain, h]
      simp [this]
    case isFalse h =>
      have hn := unlinked_nested (Bool.of_not_eq_true h)
      rw [ih]
      simp only [addChild, mem_setKey, hn, List.mem_cons, exists_eq_or_imp, Prod.mk.injEq, Fragment.parent?,
        Option.some.injEq]
      constructor
      · rintro ((h | ⟨rfl, rfl⟩) | h)
        · exact .inl h
        · exact .inr (.inl ⟨rfl, rfl⟩)
        · exact .inr (.inr h)
      · rintro (h | ⟨rfl, rfl⟩ | h)
        · exact .inl (.inl h)
        · exact .inl (.inr ⟨rfl, rfl⟩)
        · exact .inr h

theorem unlinked_subset {a : Fragment U} (ha : a ∈ g.unlinked f) : a ∈ f.chain :=
  (List.takeWhile_sublist _).subset ha

-- Whether a fragment is below a root node.
def anchored (g : Graph U K D E) (f : Fragment U) : Bool :=
  f.chain.any g.isRoot

theorem anchored_iff : g.anchored f = true ↔ ∃ outer ∈ f.chain, g.isRoot outer = true := by
  simp [anchored]

theorem addDeferredFragmentNode_eq (initial : Option (List (Node U K))) :
    addDeferredFragmentNode f (g, initial) =
      if g.anchored f then some (link f g, initial)
      else initial.map fun keys => (link f g, some (setKey keys (.fragment f.outermost))) := by
  induction f generalizing g with
  | top usage path =>
    unfold addDeferredFragmentNode
    simp [anchored, Fragment.chain, Fragment.ancestors, link, Fragment.outermost]
  | nested usage path outer ih =>
    unfold addDeferredFragmentNode
    by_cases h : g.isRoot (.nested usage path outer) = true
    · simp [anchored, Fragment.chain, h, link]
    · have ha : (g.addChild outer (.fragment (.nested usage path outer))).anchored outer =
          g.anchored (.nested usage path outer) := by
        have : (Fragment.nested usage path outer).chain = .nested usage path outer :: outer.chain := rfl
        simp only [anchored, this, List.any_cons, Bool.of_not_eq_true h, Bool.false_or]
        rfl
      rw [if_neg h]
      simp only [ih, ha, link, if_neg h]
      rfl

section

variable (g : Graph U K D E)

def wire (group : Group U K) (records : List (Fragment U)) : Graph U K D E :=
  records.foldl (fun g f => (link f g).addPending f group) g

-- Adding a group, where no error is possible.
def attachGroup (group : Group U K) : Graph U K D E :=
  if (g.wire group group.deferRecords).completesRootNode group then
    (g.wire group group.deferRecords).onExecutionGroup group
  else
    g.wire group group.deferRecords

def attachStream (parents : List (Fragment U)) (stream : Stream K) : Graph U K D E :=
  parents.foldl (fun g parent => (link parent g).addChild parent (.stream stream)) g

def attach (parents : List (Fragment U)) : Record U K → Graph U K D E
  | .group group   => g.attachGroup group
  | .stream stream => g.attachStream parents stream

def attachAll (parents : List (Fragment U)) (records : List (Record U K)) : Graph U K D E :=
  records.foldl (attach · parents) g

-- What a record sets in the dictionary of new nodes.
def starts : Record U K → List (Node U K)
  | .group group   => (group.deferRecords.filter (!g.anchored ·)).map (.fragment ·.outermost)
  | .stream stream => [.stream stream]

end

theorem wire_rootNodes (group : Group U K) (records : List (Fragment U)) :
    (g.wire group records).rootNodes = g.rootNodes := by
  induction records generalizing g with
  | nil => rfl
  | cons f records ih => exact (ih (g := (link f g).addPending f group)).trans link_rootNodes

theorem attachStream_rootNodes (parents : List (Fragment U)) (stream : Stream K) :
    (g.attachStream parents stream).rootNodes = g.rootNodes := by
  induction parents generalizing g with
  | nil => rfl
  | cons f parents ih => exact (ih (g := (link f g).addChild f (.stream stream))).trans link_rootNodes

theorem attach_rootNodes (parents : List (Fragment U)) (record : Record U K) :
    (g.attach parents record).rootNodes = g.rootNodes := by
  cases record with
  | group group =>
    have : (g.attachGroup group).rootNodes = g.rootNodes := by
      unfold attachGroup
      split
      · exact wire_rootNodes group _
      · exact wire_rootNodes group _
    exact this
  | stream stream => exact attachStream_rootNodes parents stream

@[simp]
theorem attachAll_rootNodes (parents : List (Fragment U)) (records : List (Record U K)) :
    (g.attachAll parents records).rootNodes = g.rootNodes := by
  induction records generalizing g with
  | nil => rfl
  | cons record records ih => exact (ih (g := g.attach parents record)).trans (attach_rootNodes parents record)

theorem anchored_congr {g' : Graph U K D E} (h : g'.rootNodes = g.rootNodes) : g'.anchored f = g.anchored f := by
  have : g'.isRoot = g.isRoot := by
    funext a
    simp [isRoot, h]
  rw [anchored, this, anchored]

theorem starts_congr {g' : Graph U K D E} (h : g'.rootNodes = g.rootNodes) (record : Record U K) :
    g'.starts record = g.starts record := by
  cases record <;> simp [starts, anchored_congr h]

theorem addGroupNodes_eq (group : Group U K) (records : List (Fragment U)) (initial : Option (List (Node U K)))
    (h : initial = none → ∀ f ∈ records, g.anchored f = true) :
    records.foldlM (fun adding record => addGroupNode group record adding) (g, initial) =
      some (g.wire group records, initial.map
        (((records.filter (!g.anchored ·)).map (Node.fragment ·.outermost)).foldl setKey ·)) := by
  induction records generalizing g initial with
  | nil => simp [wire]
  | cons f records ih =>
    have hc : ∀ a, ((link f g).addPending f group).anchored a = g.anchored a :=
      fun a => anchored_congr link_rootNodes
    rw [List.foldlM_cons, addGroupNode, addDeferredFragmentNode_eq]
    by_cases ha : g.anchored f = true
    · simp only [ha, if_true, Option.map_some, Option.bind_eq_bind, Option.bind_some]
      rw [ih _ fun hn a hm => (hc a).trans (h hn a (List.mem_cons_of_mem _ hm))]
      simp [hc, ha, wire]
    · cases initial with
      | none => exact absurd (h rfl f List.mem_cons_self) ha
      | some keys =>
        simp only [ha, if_false, Option.map_some, Option.bind_eq_bind, Option.bind_some, Bool.false_eq_true]
        rw [ih _ (by simp)]
        simp [hc, ha, wire]

theorem addGroup_eq (group : Group U K) (initial : Option (List (Node U K)))
    (h : initial = none → ∀ f ∈ group.deferRecords, g.anchored f = true) :
    addGroup group (g, initial) =
      some (g.attachGroup group, initial.map ((g.starts (.group group)).foldl setKey ·)) := by
  rw [addGroup, addGroupNodes_eq group _ _ h]
  simp only [Option.map_some, attachGroup, starts]
  split <;> rfl

theorem addStream_eq {parents : List (Fragment U)} (stream : Stream K)
    (h : ∀ f ∈ parents, g.anchored f = true) :
    addStream stream (some parents) (g, none) = some (g.attachStream parents stream, none) := by
  unfold addStream attachStream
  induction parents generalizing g with
  | nil => rfl
  | cons f parents ih =>
    simp only [List.foldlM_cons, addStreamNode, addDeferredFragmentNode_eq, h f List.mem_cons_self, if_true,
      Option.map_some, Option.bind_eq_bind, Option.bind_some, List.foldl_cons]
    apply ih
    intro a ha
    have hc : ((link f g).addChild f (.stream stream)).anchored a = g.anchored a := anchored_congr link_rootNodes
    exact hc.trans (h a (List.mem_cons_of_mem _ ha))

theorem addIncrementalRecords_eq (records : List (Record U K)) (keys : List (Node U K)) :
    addIncrementalRecords records none (g, some keys) =
      some (g.attachAll [] records, some ((records.flatMap g.starts).foldl setKey keys)) := by
  induction records generalizing g keys with
  | nil => rfl
  | cons record records ih =>
    have hr : addRecord none (g, some keys) record =
        some (g.attach [] record, some ((g.starts record).foldl setKey keys)) := by
      cases record with
      | group group   => exact addGroup_eq group _ (by simp)
      | stream stream => rfl
    have hs : (g.attach [] record).starts = g.starts := funext (starts_congr (attach_rootNodes [] record))
    have := ih (g := g.attach [] record) ((g.starts record).foldl setKey keys)
    rw [addIncrementalRecords, List.foldlM_cons, hr, List.flatMap_cons, List.foldl_append]
    rw [hs] at this
    exact this

-- Records that a group reveals are added without an error when they are below root nodes.
theorem addIncrementalRecords_anchored {records : List (Record U K)} {parents : List (Fragment U)}
    (hs : ∀ stream, .stream stream ∈ records → ∀ f ∈ parents, g.anchored f = true)
    (hg : ∀ group, .group group ∈ records → ∀ f ∈ group.deferRecords, g.anchored f = true) :
    addIncrementalRecords records (some parents) (g, none) = some (g.attachAll parents records, none) := by
  induction records generalizing g with
  | nil => rfl
  | cons record records ih =>
    have h : addRecord (some parents) (g, none) record = some (g.attach parents record, none) := by
      cases record with
      | group group   => exact addGroup_eq group none fun _ => hg group List.mem_cons_self
      | stream stream => exact addStream_eq stream (hs stream List.mem_cons_self)
    rw [addIncrementalRecords, List.foldlM_cons, h]
    apply ih
    · intro stream hm f hf
      rw [anchored_congr (attach_rootNodes parents record)]
      exact hs stream (List.mem_cons_of_mem _ hm) f hf
    · intro group hm f hf
      rw [anchored_congr (attach_rootNodes parents record)]
      exact hg group (List.mem_cons_of_mem _ hm) f hf

end Graph

end Grafast.IncGraph
