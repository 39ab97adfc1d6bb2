import Grafast.Incremental.Theorems.Healthy
import Grafast.Incremental.Theorems.Log

namespace Grafast.IncGraph

set_option linter.unusedSectionVars false

variable {U K D E : Type} [DecidableEq U] [DecidableEq K] [DecidableEq D] [DecidableEq E]

-- Whether an entry delivers a group.
def IncrementalResult.isOf {U K D E : Type} [DecidableEq U] [DecidableEq K] (group : Group U K) :
    IncrementalResult U K D E → Bool
  | defer result _ _ => result.group = group
  | stream _ _ _     => false

namespace State

variable {s s' : State U K D E} {f : Fragment U}

-- The fragments that hold back what is nested in them: those that are not complete, or never will be.
def Bar (s : State U K D E) (f : Fragment U) : Prop :=
  s.graph.isRoot f = true ∨ s.Failed f

structure Core (s : State U K D E) : Prop where
  recorded : s.Recorded
  healthy  : s.graph.Healthy s.Known s.Bar (· ∈ s.records) s.Failed s.delivered

theorem delivered_eq (s : State U K D E) (group : Group U K) :
    s.delivered group = (s.log.flatMap (·.incremental)).countP (·.isOf group) := by
  rw [delivered]
  congr 1

namespace Continues

variable {new gone : List (Node U K)} {entries : List (IncrementalResult U K D E)}
  {results : List (CompletedResult E)} (c : Continues s s' new gone entries results)

include c

theorem delivered (group : Group U K) :
    s'.delivered group = s.delivered group + entries.countP (·.isOf group) := by
  simp only [delivered_eq, log, List.flatMap_cons, c.incremental, c.payloads, List.countP_append]
  omega

-- What is announced is held back by nothing, and so what it is nested in was completed or is not known.
theorem nested_closed (r : s.Recorded) {outer : Fragment U} {id : Nat}
    (hn : .fragment outer ∉ new) (hr : s.graph.isRoot outer = true → .fragment outer ∈ gone)
    (hf : ¬(s.Failed outer ∨ ∃ id errors, (.fragment outer, id) ∈ s.ids ∧ ⟨some id, some errors⟩ ∈ results))
    (hm : (.fragment outer, id) ∈ s'.ids) : ⟨some id, none⟩ ∈ closed s'.log := by
  obtain ⟨hf, hg⟩ := not_or.mp hf
  have hold : (.fragment outer, id) ∈ s.ids := by
    rcases c.mem_ids.mp hm with hm | hm
    · exact absurd (List.fst_mem_of_mem_zipIdx hm) hn
    · exact hm
  apply c.mem_closed.mpr
  by_cases hr' : s.graph.isRoot outer = true
  case neg => exact .inl (r.completed hold (Bool.of_not_eq_true hr') hf)
  case pos =>
    obtain ⟨⟨i, errors⟩, hc, id', hi, he⟩ := c.mem_completed r (hr hr')
    obtain rfl : i = some id' := he
    rw [r.id_unique hold hi]
    cases errors with
    | none        => exact .inr hc
    | some errors => exact absurd ⟨id', errors, hi, hc⟩ hg

-- Where the graph is healthy once more, the payloads say what it is like.
theorem core (r : s.Recorded) (bar : Fragment U → Prop)
    (h : s'.graph.Healthy (fun node => s.Known node ∨ node ∈ new) (fun x => bar x ∨ .fragment x ∈ new)
      (· ∈ s'.records)
      (fun x => s.Failed x ∨ ∃ id errors, (.fragment x, id) ∈ s.ids ∧ ⟨some id, some errors⟩ ∈ results)
      fun group => s.delivered group + entries.countP (·.isOf group))
    (hb : ∀ x, bar x ↔ (s.graph.isRoot x = true ∧ .fragment x ∉ gone) ∨ s.Failed x ∨
      ∃ id errors, (.fragment x, id) ∈ s.ids ∧ ⟨some id, some errors⟩ ∈ results)
    (used : ∀ entry ∈ entries, ∃ node id, entry.id = some id ∧ (node, id) ∈ s'.ids ∧
      (node ∈ s.graph.rootNodes ∨ node ∈ new)) : s'.Core := by
  have under : ∀ x, s.Known (.fragment x) ∨ .fragment x ∈ new → ∀ outer ∈ x.ancestors,
      ¬(bar outer ∨ .fragment outer ∈ new) := h.wired.under
  have hr : s'.Recorded := by
    apply c.recorded r used
    · intro x hx outer ho id hm
      obtain ⟨hbar, hn⟩ := not_or.mp (under x (.inr hx) outer ho)
      obtain ⟨hroot, hf⟩ := not_or.mp (mt (hb outer).mpr hbar)
      exact c.nested_closed r hn (fun h => by_contra fun hg => hroot ⟨h, hg⟩) hf hm
    · intro outer hn x hk ho
      exact under x (.inl hk) outer ho (.inr hn)
  have hf : ∀ x, s'.Failed x ↔ s.Failed x ∨
      ∃ id errors, (.fragment x, id) ∈ s.ids ∧ ⟨some id, some errors⟩ ∈ results := by
    intro x
    rw [hr.failed_iff]
    exact c.failed r
  refine ⟨hr, h.congr (fun node => c.known) (fun x => ?_) (fun _ => .rfl) hf c.delivered⟩
  rw [Bar, hf, hb, Graph.isRoot_iff, c.roots, Graph.isRoot_iff, or_right_comm]

end Continues

theorem mem_of_idOf {node : Node U K} {id : Nat} (h : s.idOf node = some id) : (node, id) ∈ s.ids := by
  obtain ⟨before, after, he, _⟩ := List.lookup_eq_some_iff.mp h
  simp [he]

theorem idOf_isSome {node : Node U K} : (s.idOf node).isSome = true ↔ s.Known node := by
  rw [idOf, List.lookup_isSome_iff]
  simp [Known]

theorem idOf_toPending {nodes : List (Node U K)} {node : Node U K} (h : node ∉ nodes) :
    (s.toPending nodes).idOf node = s.idOf node := by
  have hn : (nodes.zipIdx s.nextId).reverse.lookup node = none := by
    rw [List.lookup_eq_none_iff]
    intro entry hm
    have := List.fst_mem_of_mem_zipIdx (List.mem_reverse.mp hm)
    exact bne_iff_ne.mpr fun he => h (he ▸ this)
  rw [toPending_eq, idOf, List.lookup_append, hn]
  rfl

-- The best of the fragments that were looked at: the fragment itself, or one of the deepest that are known.
structure Best (s : State U K D E) (f : Fragment U) (seen : List (Fragment U)) (best : Fragment U) : Prop where
  valid : best = f ∨ best ∈ seen ∧ f.path.length < best.path.length ∧ s.Known (.fragment best)
  most  : ∀ other ∈ seen, other ≠ f → s.Known (.fragment other) → other.path.length ≤ best.path.length

theorem Best.longerId {seen : List (Fragment U)} {best : Fragment U} (h : s.Best f seen best) (x : Fragment U) :
    ∃ b, s.longerId f (best.path.length, s.idOf (.fragment best)) x = (b.path.length, s.idOf (.fragment b)) ∧
      s.Best f (seen ++ [x]) b := by
  have keep (hx : x ≠ f → s.Known (.fragment x) → x.path.length ≤ best.path.length) : s.Best f (seen ++ [x]) best := by
    refine ⟨h.valid.imp_right fun ⟨hm, hb⟩ => ⟨List.mem_append_left _ hm, hb⟩, fun other ho hne hk => ?_⟩
    rcases List.mem_append.mp ho with ho | ho
    · exact h.most other ho hne hk
    · rw [List.mem_singleton] at ho
      exact ho ▸ hx (ho ▸ hne) (ho ▸ hk)
  by_cases hx : x = f
  · exact ⟨best, by simp [State.longerId, hx], keep fun h => absurd hx h⟩
  · cases hid : s.idOf (.fragment x) with
    | none =>
      refine ⟨best, by simp [State.longerId, hx, hid], keep fun _ hk => ?_⟩
      rw [← idOf_isSome, hid] at hk
      cases hk
    | some id =>
      by_cases hl : best.path.length < x.path.length
      · have hk : s.Known (.fragment x) := idOf_isSome.mp (by rw [hid]; rfl)
        have hle : f.path.length ≤ best.path.length := h.valid.elim (fun h => h ▸ le_rfl) fun h => h.2.1.le
        refine ⟨x, by simp [State.longerId, hx, hid, hl], .inr ⟨?_, hle.trans_lt hl, hk⟩, fun other ho hne hk => ?_⟩
        · exact List.mem_append_right _ (List.mem_singleton_self x)
        · rcases List.mem_append.mp ho with ho | ho
          · exact (h.most other ho hne hk).trans hl.le
          · rw [List.mem_singleton.mp ho]
      · exact ⟨best, by simp [State.longerId, hx, hid, hl], keep fun _ _ => Nat.le_of_not_lt hl⟩

theorem bestIdAndSubPath_spec (s : State U K D E) (f : Fragment U) (result : GroupResult U K D E) :
    ∃ best, (s.bestIdAndSubPath f result).1 = s.idOf (.fragment best) ∧ s.Best f result.group.deferRecords best := by
  have fold : ∀ (records seen : List (Fragment U)) (best : Fragment U), s.Best f seen best →
      ∃ b, records.foldl (s.longerId f) (best.path.length, s.idOf (.fragment best)) =
        (b.path.length, s.idOf (.fragment b)) ∧ s.Best f (seen ++ records) b := by
    intro records
    induction records with
    | nil => exact fun seen best h => ⟨best, rfl, by simpa using h⟩
    | cons x records ih =>
      intro seen best h
      obtain ⟨b, he, hb⟩ := h.longerId x
      obtain ⟨b', he', hb'⟩ := ih (seen ++ [x]) b hb
      refine ⟨b', ?_, by simpa using hb'⟩
      rw [List.foldl_cons, he, he']
  obtain ⟨b, h₁, h₂⟩ := fold result.group.deferRecords [] f ⟨.inl rfl, fun _ h => by cases h⟩
  exact ⟨b, congrArg Prod.snd h₁, h₂⟩

section

variable (s f)

-- The parts of `completeFragment`, for a fragment that is complete.
def promotion : Graph.Promotion U K D E :=
  (s.graph.without f).promoteNonEmptyToRoot (s.graph.childrenOf f)

def released : Graph U K D E :=
  ((promotion s f).maybeEmpty.foldl (·.addChild f ·) (promotion s f).graph).flushRuns

def announcing : State U K D E :=
  { s with graph := released s f }.toPending (promotion s f).newRootNodes

end

theorem completeFragment_eq (hr : s.graph.isRoot f = true) (he : s.graph.pendingOf f = []) :
    s.completeFragment f = { announcing s f with
      incremental := s.incremental ++ (s.graph.successfulOf f).map ((announcing s f).deliver f)
      completed   := s.completed ++ [⟨(announcing s f).idOf (.fragment f), none⟩] } := by
  have hc : (s.graph.without f).childrenOf f = s.graph.childrenOf f := by
    rw [Graph.childrenOf, Graph.without_frame, Graph.childrenOf]
  have hp : s.graph.releaseFragment f = promotion s f := by
    unfold promotion
    rw [← hc]
    rfl
  simp only [completeFragment, Graph.completeDeferredFragment, hr, he, List.isEmpty_nil, Bool.and_self, if_true, hp]
  simp only [announcing, toPending_eq]
  rfl

section

variable (c : s.Core) (hr : s.graph.isRoot f = true) (he : s.graph.pendingOf f = [])

theorem childrenOf_without (f : Fragment U) : (s.graph.without f).childrenOf f = s.graph.childrenOf f := by
  rw [Graph.childrenOf, Graph.without_frame, Graph.childrenOf]

theorem pendingOf_without (f x : Fragment U) : (s.graph.without f).pendingOf x = s.graph.pendingOf x := by
  rw [Graph.pendingOf, Graph.without_frame, Graph.pendingOf]

include he in
theorem release : (s.graph.without f).Release s.Known (fun x => s.Bar x ∧ x ≠ f) (· = f)
    (· ∈ s.graph.childrenOf f) where
  free   := fun _ hx hb => hb.2 hx
  cover  := by
    intro x hx
    obtain rfl := hx.symm
    refine .inr ⟨(pendingOf_without f f).trans he, fun node hm => ?_⟩
    rw [← childrenOf_without f]
    exact Graph.mem_childrenOf.mpr hm
  origin := by
    intro node hm
    rw [← childrenOf_without f] at hm
    exact .inr (.inl ⟨f, rfl, (pendingOf_without f f).trans he, Graph.mem_childrenOf.mp hm⟩)

include c

include hr in
-- The graph without the fragment, in which it is the one that is released.
theorem Core.healthy_without (he : s.graph.pendingOf f = []) : (s.graph.without f).Healthy s.Known
    (fun x => (s.Bar x ∧ x ≠ f) ∨ x = f) (· ∈ s.records) s.Failed
    fun group => s.delivered group + s.graph.results group f := by
  refine (c.healthy.without he).congr (fun _ => .rfl) (fun x => ?_) (fun _ => .rfl) (fun _ => .rfl) fun _ => rfl
  by_cases hx : x = f
  case pos => exact iff_of_true (.inr hx) (hx ▸ .inl hr)
  case neg => simp [hx]

include hr he

-- What is nested in the fragment is held back by what is announced in its place.
theorem Core.healthy_released : (released s f).Healthy (fun node => s.Known node ∨ node ∈ (promotion s f).newRootNodes)
    (fun x => (s.Bar x ∧ x ≠ f) ∨ .fragment x ∈ (promotion s f).newRootNodes) (· ∈ s.records) s.Failed
    fun group => s.delivered group + s.graph.results group f := by
  have hd : (s.graph.childrenOf f).Nodup := valuesOf_nodup c.healthy.links f
  have hk : s.Known (.fragment f) := c.recorded.known_of_root (Graph.isRoot_iff.mp hr)
  have h := (c.healthy_without hr he).promote (release he) hd fun stream hm =>
    c.healthy.madeLinks f stream (Graph.mem_childrenOf.mp hm)
  refine (h.addChildren ?_ (.inl hk) fun stream hm => .inr ((Graph.promotes _).streams stream hm)).flushRuns
  rintro ⟨outer, ho, hb⟩
  rcases Fragment.mem_chain.mp ho with rfl | ho
  · rcases hb with hb | hb
    · exact hb.2 rfl
    · exact ((c.healthy_without hr he).promote_new (release he) hd).2 _ hb hk
  · exact h.wired.under f (.inl hk) outer ho hb

theorem Core.continues : Continues s (s.completeFragment f) (promotion s f).newRootNodes [.fragment f]
    ((s.graph.successfulOf f).map ((announcing s f).deliver f)) [⟨s.idOf (.fragment f), none⟩] := by
  have hk : s.Known (.fragment f) := c.recorded.known_of_root (Graph.isRoot_iff.mp hr)
  have hd : (s.graph.childrenOf f).Nodup := valuesOf_nodup c.healthy.links f
  have hn := (c.healthy_without hr he).promote_new (release he) hd
  have hid : (announcing s f).idOf (.fragment f) = s.idOf (.fragment f) := idOf_toPending fun hm => hn.2 _ hm hk
  have hroots : (released s f).rootNodes = (promotion s f).graph.rootNodes := by
    simp only [released, Graph.Healthy.foldl_addChild, Graph.flushRuns]
  have hgraph : (announcing s f).graph = released s f := by rw [announcing, toPending_eq]
  have hmem : ∀ node, node ∈ (released s f).rootNodes ↔
      (node ∈ s.graph.rootNodes ∧ node ∉ [Node.fragment f]) ∨ node ∈ (promotion s f).newRootNodes := by
    intro node
    have hw : (s.graph.without f).rootNodes = s.graph.rootNodes.erase (.fragment f) := by rw [Graph.without_frame]
    rw [hroots, promotion, (Graph.promotes _).rootNodes, hw, c.healthy.rootOnce.mem_erase_iff, List.mem_singleton,
      and_comm]
  rw [completeFragment_eq hr he, hid]
  exact {
    ids         := by simp only [announcing, toPending_eq]
    nextId      := by simp only [announcing, toPending_eq]
    pending     := by simp only [announcing, toPending_eq]
    incremental := rfl
    completed   := rfl
    payloads    := by simp only [announcing, toPending_eq]
    newOnce     := hn.1
    newUnknown  := hn.2
    goneOnce    := List.nodup_singleton _
    goneRoots   := fun node hm => List.mem_singleton.mp hm ▸ Graph.isRoot_iff.mp hr
    goneIds     := rfl
    roots       := hgraph ▸ hmem
    rootOnce    := hgraph ▸ (c.healthy_released hr he).rootOnce }

-- A result that is delivered for a fragment is not addressed to another one that is known but no root node.
def Well (s : State U K D E) (f : Fragment U) (result : GroupResult U K D E) : Prop :=
  ∀ other ∈ result.group.deferRecords, s.Known (.fragment other) → s.graph.isRoot other = false →
    other.path.length ≤ f.path.length ∨
    ∃ longer ∈ result.group.deferRecords, s.Known (.fragment longer) ∧ other.path.length < longer.path.length

theorem Core.used (hw : ∀ result ∈ s.graph.successfulOf f, s.Well f result) :
    ∀ entry ∈ (s.graph.successfulOf f).map ((announcing s f).deliver f), ∃ node id, entry.id = some id ∧
      (node, id) ∈ (s.completeFragment f).ids ∧
        (node ∈ s.graph.rootNodes ∨ node ∈ (promotion s f).newRootNodes) := by
  intro entry hm
  obtain ⟨result, hres, rfl⟩ := List.mem_map.mp hm
  have hids : (s.completeFragment f).ids = (announcing s f).ids := by rw [completeFragment_eq hr he]
  have hk : ∀ node, (announcing s f).Known node ↔ s.Known node ∨ node ∈ (promotion s f).newRootNodes := by
    intro node
    have h : (s.completeFragment f).Known node ↔ _ := (c.continues hr he).known
    rwa [Known, hids] at h
  obtain ⟨best, he', hb⟩ := bestIdAndSubPath_spec (announcing s f) f result
  have hknown : (announcing s f).Known (.fragment best) := by
    rcases hb.valid with rfl | ⟨-, -, h⟩
    · exact (hk _).mpr (.inl (c.recorded.known_of_root (Graph.isRoot_iff.mp hr)))
    · exact h
  obtain ⟨id, hid⟩ := Option.isSome_iff_exists.mp (idOf_isSome.mpr hknown)
  refine ⟨.fragment best, id, he'.trans hid, hids ▸ mem_of_idOf hid, ?_⟩
  rcases hb.valid with rfl | ⟨hbm, hlt, -⟩
  · exact .inl (Graph.isRoot_iff.mp hr)
  · rcases (hk _).mp hknown with h | h
    · by_contra hn
      have hroot : s.graph.isRoot best = false := Bool.of_not_eq_true fun h => hn (.inl (Graph.isRoot_iff.mp h))
      rcases hw result hres best hbm h hroot with hle | ⟨longer, hl, hkl, hll⟩
      · omega
      · -- The best of the fragments is not shorter than another one that is known.
        by_cases hf : longer = f
        · subst hf
          omega
        · have := hb.most longer hl hf ((hk _).mpr (.inl hkl))
          omega
    · exact .inr h

-- A fragment that is complete is taken out of the graph, and its results are delivered.
theorem Core.completeFragment (hw : ∀ result ∈ s.graph.successfulOf f, s.Well f result) :
    (s.completeFragment f).Core := by
  have hd : ∀ group, ((s.graph.successfulOf f).map ((announcing s f).deliver f)).countP (·.isOf group) =
      s.graph.results group f := by
    intro group
    rw [List.countP_map, ← Graph.countP_successfulOf]
    rfl
  have hn : ∀ x, ¬∃ id errors, (.fragment x, id) ∈ s.ids ∧
      (⟨some id, some errors⟩ : CompletedResult E) ∈ [⟨s.idOf (.fragment f), none⟩] := by
    rintro x ⟨id, errors, -, hm⟩
    have := congrArg CompletedResult.errors (List.mem_singleton.mp hm)
    cases this
  have hg : (s.completeFragment f).graph = State.released s f := by
    rw [completeFragment_eq hr he, announcing, toPending_eq]
  have hrec : (s.completeFragment f).records = s.records := by
    rw [completeFragment_eq hr he, announcing, toPending_eq]
  refine (c.continues hr he).core c.recorded (fun x => s.Bar x ∧ x ≠ f) ?_ (fun x => ?_)
    (c.used hr he hw)
  · rw [hg, hrec]
    refine (c.healthy_released hr he).congr (fun _ => .rfl) (fun _ => .rfl) (fun _ => .rfl) (fun x => ?_) fun group => ?_
    · exact or_iff_left (hn x)
    · rw [hd]
  · rw [or_iff_left (hn x), Bar, List.mem_singleton, Node.fragment.injEq]
    by_cases hx : x = f
    case neg => simp [hx]
    case pos =>
      subst hx
      simpa using fun hf => absurd hr (by rw [c.recorded.not_root_of_failed hf]; decide)

end

end State

end Grafast.IncGraph
