import Grafast.Incremental.Theorems.Promote

namespace Grafast.IncGraph

set_option linter.unusedSectionVars false

variable {U K D E : Type} [DecidableEq U] [DecidableEq K] [DecidableEq D] [DecidableEq E]

namespace Graph

variable {g : Graph U K D E} {f p : Fragment U} {group : Group U K} {stream : Stream K}

-- A fragment that was announced, or that the graph has something of.
def Known (g : Graph U K D E) (announced : Node U K → Prop) (f : Fragment U) : Prop :=
  announced (.fragment f) ∨ (∃ group, (f, group) ∈ g.pendingGroups) ∨ ∃ node, (f, node) ∈ g.children

-- How the fragments hang together, where the barriers are those that hold back what is nested in them. What waits
-- for groups is held back, and what is not held back has had its streams announced.
structure Wired (g : Graph U K D E) (announced : Node U K → Prop) (barrier : Fragment U → Prop) : Prop where
  rooted  : ∀ f, g.isRoot f = true → announced (.fragment f)
  blocked : ∀ f group, (f, group) ∈ g.pendingGroups → Held barrier f
  parent  : ∀ p f, Held barrier p → (p, .fragment f) ∈ g.children → f.parent? = some p
  linked  : ∀ f p, g.Known announced f → f.parent? = some p → (p, .fragment f) ∈ g.children
  under   : ∀ f, announced (.fragment f) → ∀ outer ∈ f.ancestors, ¬barrier outer
  barred  : ∀ f, barrier f → ∀ outer ∈ f.ancestors, ¬barrier outer
  streams : ∀ p stream, (p, .stream stream) ∈ g.children → (announced (.stream stream) ↔ ¬Held barrier p)
  single  : ∀ p p' stream, Held barrier p → (p, .stream stream) ∈ g.children → (p', .stream stream) ∈ g.children →
    p' = p

theorem unlinked_parent {below outer : Fragment U} (hb : below ∈ g.unlinked f) (hp : below.parent? = some outer) :
    outer ∈ g.unlinked f ∨ g.isRoot outer = true := by
  induction f with
  | top usage path =>
    have := unlinked_subset hb
    obtain rfl : below = .top usage path := by simpa [Fragment.chain, Fragment.ancestors] using this
    cases hp
  | nested usage path parent ih =>
    by_cases h : g.isRoot (.nested usage path parent) = true
    · simp [unlinked, Fragment.chain, h] at hb
    · rw [unlinked_nested (Bool.of_not_eq_true h)] at hb ⊢
      rcases List.mem_cons.mp hb with rfl | hb
      · cases hp
        by_cases hr : g.isRoot outer = true
        · exact .inr hr
        · left
          apply List.mem_cons_of_mem
          simp [unlinked, Fragment.chain, hr]
      · exact (ih hb).imp (List.mem_cons_of_mem _) id

theorem mem_unlinked_self (h : g.isRoot f = false) : f ∈ g.unlinked f := by
  simp [unlinked, Fragment.chain, h]

namespace Wired

variable {announced : Node U K → Prop} {barrier : Fragment U → Prop}

-- The graph may forget about groups, and have other root nodes.
theorem of_children {g' : Graph U K D E} (w : g.Wired announced barrier) (hc : g'.children = g.children)
    (hp : ∀ pending ∈ g'.pendingGroups, pending ∈ g.pendingGroups)
    (hr : ∀ f, g'.isRoot f = true → announced (.fragment f)) : g'.Wired announced barrier where
  rooted  := hr
  blocked := fun f group h => w.blocked f group (hp _ h)
  parent  := fun p f hh h => w.parent p f hh (hc ▸ h)
  linked  := by
    intro f p hk ho
    rw [hc]
    apply w.linked f p _ ho
    rcases hk with hk | ⟨group, hk⟩ | ⟨node, hk⟩
    · exact .inl hk
    · exact .inr (.inl ⟨group, hp _ hk⟩)
    · exact .inr (.inr ⟨node, hc ▸ hk⟩)
  under   := w.under
  barred  := w.barred
  streams := fun p stream h => w.streams p stream (hc ▸ h)
  single  := fun p p' stream hh h h' => w.single p p' stream hh (hc ▸ h) (hc ▸ h')

theorem congr {announced' : Node U K → Prop} {barrier' : Fragment U → Prop} (w : g.Wired announced barrier)
    (ha : ∀ node, announced' node ↔ announced node) (hb : ∀ f, barrier' f ↔ barrier f) :
    g.Wired announced' barrier' := by
  obtain rfl : announced' = announced := funext fun node => propext (ha node)
  obtain rfl : barrier' = barrier := funext fun f => propext (hb f)
  exact w

theorem known_above (w : g.Wired announced barrier) (h : g.Known announced f) {outer : Fragment U}
    (ho : outer ∈ f.chain) : g.Known announced outer := by
  induction f with
  | top usage path =>
    obtain rfl : outer = .top usage path := by simpa [Fragment.chain, Fragment.ancestors] using ho
    exact h
  | nested usage path parent ih =>
    rcases (Fragment.chain_of_parent rfl).mp ho with rfl | ho
    · exact h
    · exact ih (.inr (.inr ⟨_, w.linked _ parent h rfl⟩)) ho

-- Linking fragments up to a root node leaves all fragments linked.
theorem link (w : g.Wired announced barrier) (f : Fragment U) : (Graph.link f g).Wired announced barrier where
  rooted  := fun a h => w.rooted a (link_isRoot.symm.trans h)
  blocked := fun a group h => w.blocked a group (by simpa using h)
  parent  := by
    intro p a hh h
    rcases mem_link_children.mp h with h | ⟨below, -, hn, hp⟩
    · exact w.parent p a hh h
    · cases hn
      exact hp
  linked  := by
    intro a p hk hp
    apply mem_link_children.mpr
    have old : g.Known announced a → (p, .fragment a) ∈ g.children := fun hk => w.linked a p hk hp
    rcases hk with hk | ⟨group, hk⟩ | ⟨node, hk⟩
    · exact .inl (old (.inl hk))
    · exact .inl (old (.inr (.inl ⟨group, by simpa using hk⟩)))
    · rcases mem_link_children.mp hk with hk | ⟨below, hb, -, ho⟩
      · exact .inl (old (.inr (.inr ⟨node, hk⟩)))
      · -- What is linked to is linked itself, or it is the root node where the linking ends.
        rcases unlinked_parent hb ho with ha | hr
        · exact .inr ⟨a, ha, rfl, hp⟩
        · exact .inl (old (.inl (w.rooted a hr)))
  under   := w.under
  barred  := w.barred
  streams := by
    intro p stream h
    rcases mem_link_children.mp h with h | ⟨below, -, hn, -⟩
    · exact w.streams p stream h
    · cases hn
  single  := by
    intro p p' stream hh h h'
    rcases mem_link_children.mp h with h | ⟨below, -, hn, -⟩
    · rcases mem_link_children.mp h' with h' | ⟨below, -, hn, -⟩
      · exact w.single p p' stream hh h h'
      · cases hn
    · cases hn

theorem link_self (w : g.Wired announced barrier) {outer : Fragment U} (hp : f.parent? = some outer) :
    (outer, .fragment f) ∈ (Graph.link f g).children := by
  apply mem_link_children.mpr
  by_cases hr : g.isRoot f = true
  · exact .inl (w.linked f outer (.inl (w.rooted f hr)) hp)
  · exact .inr ⟨f, mem_unlinked_self (Bool.of_not_eq_true hr), rfl, hp⟩

theorem addPending (w : g.Wired announced barrier) (held : Held barrier f)
    (hf : ∀ outer, f.parent? = some outer → (outer, .fragment f) ∈ g.children) (group : Group U K) :
    (g.addPending f group).Wired announced barrier where
  rooted  := w.rooted
  blocked := by
    intro a other h
    rcases mem_setKey.mp h with h | h
    · exact w.blocked a other h
    · cases h
      exact held
  parent  := w.parent
  linked  := by
    intro a outer hk ho
    rcases hk with hk | ⟨other, hk⟩ | hk
    · exact w.linked a outer (.inl hk) ho
    · rcases mem_setKey.mp hk with hk | hk
      · exact w.linked a outer (.inr (.inl ⟨other, hk⟩)) ho
      · cases hk
        exact hf outer ho
    · exact w.linked a outer (.inr (.inr hk)) ho
  under   := w.under
  barred  := w.barred
  streams := w.streams
  single  := w.single

theorem addStream (w : g.Wired announced barrier) (held : Held barrier f)
    (hf : ∀ outer, f.parent? = some outer → (outer, .fragment f) ∈ g.children)
    (ha : ¬announced (.stream stream)) (hn : ∀ p, (p, .stream stream) ∉ g.children) :
    (g.addChild f (.stream stream)).Wired announced barrier where
  rooted  := w.rooted
  blocked := w.blocked
  parent  := by
    intro p a hh h
    rcases mem_setKey.mp h with h | h
    · exact w.parent p a hh h
    · cases h
  linked  := by
    intro a outer hk ho
    apply mem_setKey.mpr
    left
    rcases hk with hk | hk | ⟨node, hk⟩
    · exact w.linked a outer (.inl hk) ho
    · exact w.linked a outer (.inr (.inl hk)) ho
    · rcases mem_setKey.mp hk with hk | hk
      · exact w.linked a outer (.inr (.inr ⟨node, hk⟩)) ho
      · cases hk
        exact hf outer ho
  under   := w.under
  barred  := w.barred
  streams := by
    intro p other h
    rcases mem_setKey.mp h with h | h
    · exact w.streams p other h
    · cases h
      exact iff_of_false ha (not_not_intro held)
  single  := by
    intro p p' other hh h h'
    rcases mem_setKey.mp h with h | h
    · rcases mem_setKey.mp h' with h' | h'
      · exact w.single p p' other hh h h'
      · cases h'
        exact absurd h (hn p)
    · cases h
      rcases mem_setKey.mp h' with h' | h'
      · exact absurd h' (hn p')
      · exact (Prod.ext_iff.mp h').1

theorem wire (w : g.Wired announced barrier) {records : List (Fragment U)}
    (held : ∀ f ∈ records, Held barrier f) (group : Group U K) : (g.wire group records).Wired announced barrier := by
  induction records generalizing g with
  | nil => exact w
  | cons f records ih =>
    have h := (w.link f).addPending (held f List.mem_cons_self) (fun outer ho => w.link_self ho) group
    exact ih h fun a ha => held a (List.mem_cons_of_mem _ ha)

theorem attachGroup (w : g.Wired announced barrier) {group : Group U K}
    (held : ∀ f ∈ group.deferRecords, Held barrier f) : (g.attachGroup group).Wired announced barrier := by
  have h := w.wire held group
  unfold Graph.attachGroup
  split
  · exact h.of_children rfl (fun _ h => h) h.rooted
  · exact h

end Wired

-- What may be added: groups that are held back, and new streams under one fragment at most.
structure Attachable (g : Graph U K D E) (announced : Node U K → Prop) (barrier : Fragment U → Prop)
    (parents : List (Fragment U)) (records : List (Record U K)) : Prop where
  distinct : records.Nodup
  groups   : ∀ group, .group group ∈ records → ∀ f ∈ group.deferRecords, Held barrier f
  streams  : ∀ stream, .stream stream ∈ records → ¬announced (.stream stream) ∧
    (∀ p, (p, .stream stream) ∉ g.children) ∧ (parents = [] ∨ ∃ f, parents = [f] ∧ Held barrier f)

theorem mem_wire_children {records : List (Fragment U)} {node : Node U K}
    (h : (p, node) ∈ (g.wire group records).children) : (p, node) ∈ g.children ∨ ∃ f, node = .fragment f := by
  induction records generalizing g with
  | nil => exact .inl h
  | cons f records ih =>
    rcases ih h with h | h
    · rcases mem_link_children.mp h with h | ⟨below, -, hn, -⟩
      · exact .inl h
      · exact .inr ⟨below, hn⟩
    · exact .inr h

theorem mem_attach_children {record : Record U K} {parents : List (Fragment U)}
    (h : (p, .stream stream) ∈ (g.attach parents record).children) :
    (p, .stream stream) ∈ g.children ∨ record = .stream stream := by
  cases record with
  | group group =>
    have h : (p, .stream stream) ∈ (g.wire group group.deferRecords).children := by
      change (p, .stream stream) ∈ (g.attachGroup group).children at h
      unfold attachGroup at h
      split at h <;> exact h
    rcases mem_wire_children h with h | ⟨f, hf⟩
    · exact .inl h
    · cases hf
  | stream s =>
    change (p, .stream stream) ∈ (g.attachStream parents s).children at h
    unfold attachStream at h
    induction parents generalizing g with
    | nil => exact .inl h
    | cons f parents ih =>
      rcases ih h with h | h
      · rcases mem_setKey.mp h with h | h
        · rcases mem_link_children.mp h with h | ⟨below, -, hn, -⟩
          · exact .inl h
          · cases hn
        · cases h
          exact .inr rfl
      · exact .inr h

namespace Wired

variable {announced : Node U K → Prop} {barrier : Fragment U → Prop}

theorem attachAll (w : g.Wired announced barrier) {parents : List (Fragment U)} {records : List (Record U K)}
    (h : g.Attachable announced barrier parents records) : (g.attachAll parents records).Wired announced barrier := by
  induction records generalizing g with
  | nil => exact w
  | cons record records ih =>
    have hd := List.nodup_cons.mp h.distinct
    have hw : (g.attach parents record).Wired announced barrier := by
      cases record with
      | group group   => exact w.attachGroup (h.groups group List.mem_cons_self)
      | stream stream =>
        obtain ⟨ha, hn, rfl | ⟨f, rfl, held⟩⟩ := h.streams stream List.mem_cons_self
        · exact w
        · apply (w.link f).addStream held (fun outer ho => w.link_self ho) ha
          intro p hp
          rcases mem_link_children.mp hp with hp | ⟨below, -, hb, -⟩
          · exact hn p hp
          · cases hb
    apply ih hw
    refine ⟨hd.2, fun group hm => h.groups group (List.mem_cons_of_mem _ hm), ?_⟩
    intro stream hm
    obtain ⟨ha, hn, hp⟩ := h.streams stream (List.mem_cons_of_mem _ hm)
    refine ⟨ha, fun p hc => ?_, hp⟩
    rcases mem_attach_children hc with hc | rfl
    · exact hn p hc
    · exact hd.1 hm

end Wired

-- What the graph has nothing of, and what is nested in nothing.
structure Unseen (g : Graph U K D E) (announced : Node U K → Prop) (f : Fragment U) : Prop where
  outermost   : f.parent? = none
  unannounced : ¬announced (.fragment f)
  childless   : ∀ node, (f, node) ∉ g.children
  idle        : ∀ group, (f, group) ∉ g.pendingGroups

theorem Unseen.ancestors {announced : Node U K → Prop} (h : g.Unseen announced f) : f.ancestors = [] := by
  cases f with
  | top _ _      => rfl
  | nested _ _ _ => cases h.outermost

namespace Wired

variable {announced : Node U K → Prop} {barrier : Fragment U → Prop}

theorem unseen_not_above (w : g.Wired announced barrier) {t : Fragment U} (ht : g.Unseen announced t)
    (hk : g.Known announced f) : t ∉ f.chain := by
  intro hm
  rcases w.known_above hk hm with h | ⟨group, h⟩ | ⟨node, h⟩
  · exact ht.unannounced h
  · exact ht.idle group h
  · exact ht.childless node h

-- Fragments that are new may be made barriers.
theorem unseen (w : g.Wired announced barrier) {new : Fragment U → Prop}
    (hn : ∀ f, new f → g.Unseen announced f) (hb : ∀ f, barrier f → announced (.fragment f)) :
    g.Wired announced (fun f => barrier f ∨ new f) := by
  have old : ∀ f, g.Known announced f → (Held (fun f => barrier f ∨ new f) f ↔ Held barrier f) := by
    intro f hk
    constructor
    · rintro ⟨a, ha, h | h⟩
      · exact ⟨a, ha, h⟩
      · exact absurd ha (w.unseen_not_above (hn a h) hk)
    · exact fun h => h.mono fun a _ => .inl
  have known : ∀ {p node}, (p, node) ∈ g.children → g.Known announced p := fun h => .inr (.inr ⟨_, h⟩)
  refine ⟨w.rooted, ?_, ?_, w.linked, ?_, ?_, ?_, ?_⟩
  · exact fun f group h => (w.blocked f group h).mono fun a _ => .inl
  · exact fun p f hh h => w.parent p f ((old p (known h)).mp hh) h
  · rintro f hf outer ho (h | h)
    · exact w.under f hf outer ho h
    · exact w.unseen_not_above (hn outer h) (.inl hf) (Fragment.mem_chain.mpr (.inr ho))
  · rintro f (hf | hf) outer ho
    · rintro (h | h)
      · exact w.barred f hf outer ho h
      · exact w.unseen_not_above (hn outer h) (.inl (hb f hf)) (Fragment.mem_chain.mpr (.inr ho))
    · rw [(hn f hf).ancestors] at ho
      cases ho
  · exact fun p stream h => (w.streams p stream h).trans (not_congr (old p (known h)).symm)
  · exact fun p p' stream hh h h' => w.single p p' stream ((old p (known h)).mp hh) h h'

end Wired

-- Where a promotion starts: at fragments that are released, at the children of one that is, and at new streams.
structure Release (g : Graph U K D E) (announced : Node U K → Prop) (barrier released : Fragment U → Prop)
    (start : Node U K → Prop) : Prop where
  free   : ∀ f, released f → ¬barrier f
  cover  : ∀ f, released f →
    start (.fragment f) ∨ g.pendingOf f = [] ∧ ∀ node, (f, node) ∈ g.children → start node
  origin : ∀ node, start node → (∃ f, node = .fragment f ∧ released f ∧ ¬announced node) ∨
    (∃ f, released f ∧ g.pendingOf f = [] ∧ (f, node) ∈ g.children) ∨
    ∃ stream, node = .stream stream ∧ ¬announced node ∧ ∀ p, (p, node) ∉ g.children

-- Nothing that is above a fragment holds it back after the release.
def FreeAbove (g : Graph U K D E) (barrier released : Fragment U → Prop) (f : Fragment U) : Prop :=
  ∀ outer ∈ f.ancestors, ¬barrier outer ∧ (g.pendingOf outer = [] ∨ ¬Held released outer)

namespace Wired

variable {announced : Node U K → Prop} {barrier released : Fragment U → Prop} {start : Node U K → Prop}

section

variable (w : g.Wired announced fun f => barrier f ∨ released f) (r : g.Release announced barrier released start)

include w

theorem freeAbove_of_released (hf : released f) : g.FreeAbove barrier released f := by
  intro outer ho
  refine ⟨fun h => w.barred f (.inr hf) outer ho (.inl h), .inr ?_⟩
  rintro ⟨a, ha, h⟩
  apply w.barred f (.inr hf) a _ (.inr h)
  rcases Fragment.mem_chain.mp ha with rfl | ha
  · exact ho
  · exact Fragment.ancestors_trans ho ha

theorem child_of_released (hh : Held released p) (hl : (p, .fragment f) ∈ g.children) : f.parent? = some p :=
  w.parent p f (hh.mono fun _ _ => .inr) hl

include r

theorem not_barrier (hh : Held released f) : ¬barrier f := by
  obtain ⟨a, hm, hr⟩ := hh
  rcases Fragment.mem_chain.mp hm with rfl | hm
  · exact r.free _ hr
  · exact fun hb => w.barred f (.inl hb) a hm (.inr hr)

theorem child_freeAbove (hh : Held released p) (he : g.pendingOf p = []) (ha : g.FreeAbove barrier released p)
    (hl : (p, .fragment f) ∈ g.children) : Held released f ∧ g.FreeAbove barrier released f := by
  have hp := child_of_released w hh hl
  refine ⟨(Held.of_parent hp).mpr (.inr hh), ?_⟩
  unfold FreeAbove
  rw [Fragment.ancestors_of_parent hp]
  intro outer ho
  rcases List.mem_cons.mp ho with rfl | ho
  · exact ⟨not_barrier w r hh, .inl he⟩
  · exact ha outer ho

-- What is come to is below what is released, and nothing above it holds it back any more.
theorem walk_fragment {node : Node U K} (h : g.Walk start node) :
    ∀ f, node = .fragment f → Held released f ∧ g.FreeAbove barrier released f := by
  induction h with
  | start h =>
    rintro f rfl
    rcases r.origin _ h with ⟨a, ha, hr, -⟩ | ⟨p, hr, he, hl⟩ | ⟨stream, hs, -⟩
    · cases ha
      exact ⟨.self hr, freeAbove_of_released w hr⟩
    · exact child_freeAbove w r (.self hr) he (freeAbove_of_released w hr) hl
    · cases hs
  | child walk he hl ih =>
    rintro f rfl
    obtain ⟨hh, ha⟩ := ih _ rfl
    exact child_freeAbove w r hh he ha hl

theorem walk_unannounced {node : Node U K} (h : g.Walk start node) : ¬announced node := by
  have child : ∀ p n, Held released p → (p, n) ∈ g.children → ¬announced n := by
    intro p n hh hl ha
    cases n with
    | stream s   => exact (w.streams p s hl).mp ha (hh.mono fun _ _ => .inr)
    | fragment f =>
      have hp := child_of_released w hh hl
      obtain ⟨a, hm, hr⟩ := hh
      apply w.under f ha a _ (.inr hr)
      rw [Fragment.ancestors_of_parent hp]
      exact hm
  cases h with
  | start h =>
    rcases r.origin _ h with ⟨f, rfl, -, ha⟩ | ⟨p, hr, -, hl⟩ | ⟨s, rfl, ha, -⟩
    · exact ha
    · exact child p node (.self hr) hl
    · exact ha
  | child walk he hl => exact child _ node (walk_fragment w r walk _ rfl).1 hl

-- What is below something released is come to, or it is held back by something that is come to.
theorem reached (hk : g.Known announced f) (hh : Held released f) :
    g.Walk start (.fragment f) ∨ released f ∧ g.pendingOf f = [] ∨
      ∃ outer ∈ f.ancestors, g.Walk start (.fragment outer) ∧ g.pendingOf outer ≠ [] := by
  have here : ∀ f, released f → g.Walk start (.fragment f) ∨ released f ∧ g.pendingOf f = [] := by
    intro f hr
    rcases r.cover f hr with h | ⟨he, -⟩
    · exact .inl (.start h)
    · exact .inr ⟨hr, he⟩
  induction f with
  | top usage path => exact (here _ (Held.top.mp hh)).imp_right .inl
  | nested usage path outer ih =>
    by_cases hr : released (.nested usage path outer)
    · exact (here _ hr).imp_right .inl
    · have hh : Held released outer := ((Held.of_parent rfl).mp hh).resolve_left hr
      have hl := w.linked _ outer hk rfl
      rcases ih (.inr (.inr ⟨_, hl⟩)) hh with hw | ⟨hr, he⟩ | ⟨a, ha, h⟩
      · by_cases he : g.pendingOf outer = []
        · exact .inl (.child hw he hl)
        · exact .inr (.inr ⟨outer, List.mem_cons_self, hw, he⟩)
      · rcases r.cover outer hr with h | ⟨-, h⟩
        · exact .inl (.child (.start h) he hl)
        · exact .inl (.start (h _ hl))
      · exact .inr (.inr ⟨a, List.mem_cons_of_mem _ ha, h⟩)

-- A stream is come to through the one fragment that it is under, which is then free.
theorem walk_stream (h : g.Walk start (.stream stream)) (hl : (p, .stream stream) ∈ g.children)
    (hh : Held (fun f => barrier f ∨ released f) p) :
    Held released p ∧ g.pendingOf p = [] ∧ g.FreeAbove barrier released p := by
  cases h with
  | start hs =>
    rcases r.origin _ hs with ⟨f, hf, -⟩ | ⟨p', hr, he, hl'⟩ | ⟨s, -, -, hno⟩
    · cases hf
    · obtain rfl := w.single p p' stream hh hl hl'
      exact ⟨.self hr, he, freeAbove_of_released w hr⟩
    · exact absurd hl (hno p)
  | child walk he hl' =>
    obtain rfl := w.single p _ stream hh hl hl'
    obtain ⟨hh, ha⟩ := walk_fragment w r walk _ rfl
    exact ⟨hh, he, ha⟩

-- The fragments that become root nodes are barriers in place of those that are released.
def Raised (g : Graph U K D E) (start : Node U K → Prop) (f : Fragment U) : Prop :=
  g.Walk start (.fragment f) ∧ g.pendingOf f ≠ []

omit r in
theorem clear_of_clear (r : g.Release announced barrier released start)
    (hf : ∀ outer ∈ f.ancestors, ¬(barrier outer ∨ released outer)) :
    ∀ outer ∈ f.ancestors, ¬(barrier outer ∨ Raised g start outer) := by
  rintro outer ho (h | h)
  · exact hf outer ho (.inl h)
  · obtain ⟨a, ha, hra⟩ := (walk_fragment w r h.1 outer rfl).1
    rcases Fragment.mem_chain.mp ha with rfl | ha
    · exact hf _ ho (.inr hra)
    · exact hf a (Fragment.ancestors_trans ho ha) (.inr hra)

theorem clear_of_freeAbove (hf : g.FreeAbove barrier released f) :
    ∀ outer ∈ f.ancestors, ¬(barrier outer ∨ Raised g start outer) := by
  rintro outer ho (h | h)
  · exact (hf outer ho).1 h
  · exact ((hf outer ho).2.resolve_left h.2) (walk_fragment w r h.1 outer rfl).1

theorem held_before (h : Held (fun f => barrier f ∨ Raised g start f) f) :
    Held (fun f => barrier f ∨ released f) f := by
  obtain ⟨a, ha, h | h⟩ := h
  · exact ⟨a, ha, .inl h⟩
  · exact ((walk_fragment w r h.1 a rfl).1.mono fun _ _ => .inr).above ha

theorem held_after (hk : g.Known announced f) (hh : Held (fun f => barrier f ∨ released f) f)
    (hn : g.pendingOf f ≠ [] ∨ ¬Held released f) : Held (fun f => barrier f ∨ Raised g start f) f := by
  obtain ⟨a, ha, hb | hr⟩ := hh
  · exact ⟨a, ha, .inl hb⟩
  · have hh : Held released f := ⟨a, ha, hr⟩
    have hn := hn.resolve_right (not_not_intro hh)
    rcases reached w r hk hh with hw | ⟨-, he⟩ | ⟨outer, ho, h⟩
    · exact .self (.inr ⟨hw, hn⟩)
    · exact absurd he hn
    · exact .of_ancestor ho (.inr h)

theorem streams_after (h : (p, .stream stream) ∈ g.children) :
    announced (.stream stream) ∨ g.Walk start (.stream stream) ↔
      ¬Held (fun f => barrier f ∨ Raised g start f) p := by
  have hk : g.Known announced p := .inr (.inr ⟨_, h⟩)
  by_cases hh : Held (fun f => barrier f ∨ released f) p
  · have ha : ¬announced (.stream stream) := fun ha => (w.streams p stream h).mp ha hh
    constructor
    · rintro (h' | h')
      · exact absurd h' ha
      · obtain ⟨hr, he, hf⟩ := walk_stream w r h' h hh
        rintro ⟨a, hm, hx⟩
        rcases Fragment.mem_chain.mp hm with rfl | hm
        · exact hx.elim (not_barrier w r hr) fun hx => hx.2 he
        · exact clear_of_freeAbove w r hf a hm hx
    · intro hn
      right
      have hr : Held released p := by
        obtain ⟨a, hm, hb | hra⟩ := hh
        · exact absurd ⟨a, hm, .inl hb⟩ hn
        · exact ⟨a, hm, hra⟩
      have he : g.pendingOf p = [] := by
        by_contra he
        exact hn (held_after w r hk hh (.inl he))
      rcases reached w r hk hr with hw | ⟨hrp, -⟩ | ⟨outer, ho, hw⟩
      · exact .child hw he h
      · rcases r.cover p hrp with hs | ⟨-, hs⟩
        · exact .child (.start hs) he h
        · exact .start (hs _ h)
      · exact absurd (.of_ancestor ho (.inr hw)) hn
  · exact iff_of_true (.inl ((w.streams p stream h).mpr hh)) fun h => hh (held_before w r h)

-- What is not empty and is come to becomes a root node, and a barrier in place of what is released.
theorem promote {g' : Graph U K D E} (hc : g'.children = g.children) (hp : g'.pendingGroups = g.pendingGroups)
    (hr : ∀ f, g'.isRoot f = true → announced (.fragment f) ∨ Raised g start f) :
    g'.Wired (fun node => announced node ∨ g.Walk start node ∧ g.nonEmpty node = true)
      fun f => barrier f ∨ Raised g start f := by
  have raised : ∀ f, g.Walk start (.fragment f) ∧ g.nonEmpty (.fragment f) = true ↔ Raised g start f := by
    simp [Raised, nonEmpty]
  have known : ∀ f, g'.Known (fun node => announced node ∨ g.Walk start node ∧ g.nonEmpty node = true) f →
      g.Known announced f := by
    rintro f ((h | h) | h)
    · exact .inl h
    · obtain ⟨group, h⟩ := List.exists_mem_of_ne_nil _ ((raised f).mp h).2
      exact .inr (.inl ⟨group, mem_pendingOf.mp h⟩)
    · rw [hc, hp] at h
      exact .inr h
  refine ⟨fun f h => (hr f h).imp_right (raised f).mpr, ?_, ?_, ?_, ?_, ?_, ?_, ?_⟩
  · intro f group h
    rw [hp] at h
    exact held_after w r (.inr (.inl ⟨group, h⟩)) (w.blocked f group h)
      (.inl (List.ne_nil_of_mem (mem_pendingOf.mpr h)))
  · intro p f hh h
    exact w.parent p f (held_before w r hh) (hc ▸ h)
  · intro f p hk ho
    rw [hc]
    exact w.linked f p (known f hk) ho
  · rintro f (h | h)
    · exact clear_of_clear w r (w.under f h)
    · exact clear_of_freeAbove w r (walk_fragment w r h.1 f rfl).2
  · rintro f (h | h)
    · exact clear_of_clear w r (w.barred f (.inl h))
    · exact clear_of_freeAbove w r (walk_fragment w r h.1 f rfl).2
  · intro p stream h
    rw [← streams_after w r (hc ▸ h)]
    simp [nonEmpty]
  · intro p p' stream hh h h'
    rw [hc] at h h'
    exact w.single p p' stream (held_before w r hh) h h'

end

end Wired

end Graph

end Grafast.IncGraph
