import Grafast.Incremental.Theorems.Events

namespace Grafast.IncGraph

set_option linter.unusedSectionVars false

variable {U K D E : Type} [DecidableEq U] [DecidableEq K] [DecidableEq D] [DecidableEq E]

-- Whether a payload that has been sent tells if there are more to come.
structure Payload.Tells (p : Payload U K D E) (older : List (Payload U K D E)) : Prop where
  hasNext : p.hasNext = true ↔
    ∃ entry ∈ announced (p :: older), ∀ result ∈ closed (p :: older), result.id ≠ some entry.2
  before  : ∀ earlier ∈ older, earlier.hasNext = true

namespace State

variable {s s' : State U K D E}

-- What holds of every state that is reached.
structure Good (s : State U K D E) : Prop where
  settled  : s.Settled
  live     : s.phase ≠ .finished → s.graph.rootNodes ≠ [] ∨ s.completed ≠ []
  idle     : s.phase ≠ .active → s.pending = [] ∧ s.incremental = [] ∧ s.completed = []
  waiting  : s.phase = .waiting → s.graph.completedQueue = []
  finished : s.phase = .finished → s.graph.rootNodes = []
  sent     : ∀ p older, p :: older <:+ s.payloads → p.Tells older
  last     : s.phase = .finished ↔ ∃ p older, s.payloads = p :: older ∧ p.hasNext = false

section

variable (c : s.Core)

include c

-- A payload is sent: what it was made up of is what it says.
theorem Core.send (hasNext : Bool) (phase : Phase) : Core { s with
    pending := [], incremental := [], completed := [], phase
    payloads := ⟨s.pending, s.incremental, s.completed, hasNext⟩ :: s.payloads } := by
  have r := c.recorded
  have hfit : Payload.Fits (⟨[], [], [], true⟩ : Payload U K D E)
      (⟨s.pending, s.incremental, s.completed, hasNext⟩ :: s.payloads) := by
    refine ⟨?_, ?_, ?_, ?_⟩
    · exact fun _ hm => absurd hm List.not_mem_nil
    · exact fun _ hm => absurd hm List.not_mem_nil
    · exact fun _ _ hm => absurd hm List.not_mem_nil
    · exact fun _ _ hm => absurd hm List.not_mem_nil
  have hsound : Sound (⟨s.pending, s.incremental, s.completed, hasNext⟩ :: s.payloads) :=
    ⟨⟨r.sound.1.used, r.sound.1.closes, r.sound.1.nested, r.sound.1.fresh⟩, r.sound.2⟩
  exact {
    recorded := {
      perm       := r.perm
      nodeOnce   := r.nodeOnce
      idOnce     := r.idOnce
      below      := r.below
      rootOnce   := r.rootOnce
      roots      := r.roots
      closedOnce := r.closedOnce
      closes     := r.closes
      sound      := ⟨hfit, hsound⟩ }
    healthy  := c.healthy }

-- There is more to come as long as something is announced that is not completed.
theorem Core.open_iff : s.graph.rootNodes ≠ [] ↔
    ∃ entry ∈ announced s.log, ∀ result ∈ closed s.log, result.id ≠ some entry.2 := by
  have r := c.recorded
  constructor
  · intro hne
    obtain ⟨node, hm⟩ := List.exists_mem_of_ne_nil _ hne
    obtain ⟨id, hid, hn⟩ := (r.roots node).mp hm
    exact ⟨(node, id), r.mem_announced.mpr hid, hn⟩
  · rintro ⟨⟨node, id⟩, hm, hn⟩
    exact List.ne_nil_of_mem ((r.roots node).mpr ⟨id, r.mem_announced.mp hm, hn⟩)

end

namespace Good

variable (h : s.Good)

include h

theorem earlier (hp : s.phase ≠ .finished) : ∀ p ∈ s.payloads, p.hasNext = true := by
  intro p hm
  cases hs : s.payloads with
  | nil              => rw [hs] at hm; cases hm
  | cons first older =>
    rw [hs] at hm
    rcases List.mem_cons.mp hm with rfl | hm
    · exact Bool.of_not_eq_false fun hf => hp (h.last.mpr ⟨p, older, hs, hf⟩)
    · exact (h.sent first older (hs ▸ List.suffix_refl _)).before p hm

theorem of_active (hp : s.phase ≠ .finished) (w : s'.Settled)
    (live : s'.graph.rootNodes ≠ [] ∨ s'.completed ≠ []) (phase : s'.phase = .active)
    (payloads : s'.payloads = s.payloads) : s'.Good where
  settled  := w
  live     := fun _ => live
  idle     := fun hne => absurd phase hne
  waiting  := fun he => by rw [phase] at he; cases he
  finished := fun he => by rw [phase] at he; cases he
  sent     := payloads ▸ h.sent
  last     := by
    rw [payloads, ← h.last, phase]
    exact iff_of_false (fun he => by cases he) hp

theorem flush (hp : s.phase = .active) (hq : s.graph.completedQueue = []) : s.flush.Good := by
  have hn : s.phase ≠ .finished := by rw [hp]; exact fun he => by cases he
  have hlive := h.live hn
  by_cases hnone : s.incremental = [] ∧ s.completed = []
  case pos =>
    obtain ⟨hi, hc⟩ := hnone
    have hpending := h.settled.quiet hi hc
    have hs : s.flush = { s with graph := s.graph, phase := .waiting } := by
      rw [State.flush, hi, hc, hpending]
      rfl
    rw [hs]
    exact {
      settled  := h.settled.of_roots rfl h.settled.core.healthy rfl h.settled.runs .waiting
      live     := fun _ => hlive
      idle     := fun _ => ⟨hpending, hi, hc⟩
      waiting  := fun _ => hq
      finished := fun he => by cases he
      sent     := h.sent
      last     := by
        rw [← h.last]
        exact iff_of_false (fun he => by cases he) hn }
  case neg =>
    have hs : s.flush = { s with
        pending := [], incremental := [], completed := []
        payloads := ⟨s.pending, s.incremental, s.completed, s.hasNext⟩ :: s.payloads
        phase := if s.hasNext then .holding else .finished } := by
      rw [State.flush, if_neg]
      rw [Bool.and_eq_true, List.isEmpty_iff, List.isEmpty_iff]
      exact hnone
    have hnext : s.hasNext = true ↔ s.graph.rootNodes ≠ [] := by
      rw [State.hasNext, Bool.not_eq_true', ← Bool.not_eq_true, List.isEmpty_iff]
    have hphase : (if s.hasNext then Phase.holding else .finished) = .finished ↔ s.graph.rootNodes = [] := by
      by_cases hx : s.hasNext = true
      · rw [if_pos hx]
        exact iff_of_false (fun he => by cases he) (hnext.mp hx)
      · rw [if_neg hx]
        exact iff_of_true rfl (by_contra fun he => hx (hnext.mpr he))
    rw [hs]
    exact {
      settled  := ⟨h.settled.core.send _ _, h.settled.runs, h.settled.busy, fun _ _ => rfl⟩
      live     := fun he => .inl fun hr => he (hphase.mpr hr)
      idle     := fun _ => ⟨rfl, rfl, rfl⟩
      waiting  := fun he => by
        change (if s.hasNext then Phase.holding else .finished) = .waiting at he
        split at he <;> cases he
      finished := hphase.mp
      sent     := fun p older hm => by
        rcases List.suffix_cons_iff.mp hm with he | hm
        · cases he
          exact ⟨hnext.trans h.settled.core.open_iff, h.earlier hn⟩
        · exact h.sent p older hm
      last     := by
        refine hphase.trans ⟨fun hr => ⟨_, _, rfl, Bool.eq_false_iff.mpr fun he => hnext.mp he hr⟩, ?_⟩
        rintro ⟨p, older, he, hf⟩
        cases he
        exact by_contra fun hr => Bool.eq_false_iff.mp hf (hnext.mpr hr) }

theorem pull (he : s.phase = .initial ∨ s.phase = .holding)
    (hc : s.phase = .initial ∨ s.graph.completedQueue = []) (phase : Phase)
    (hp : phase = if s.phase = .initial then .active else .waiting) : ({ s with phase } : State U K D E).Good := by
  have hne : s.phase ≠ .active ∧ s.phase ≠ .finished := by
    rcases he with he | he <;> rw [he] <;> exact ⟨(by decide), (by decide)⟩
  have hnew : phase ≠ .finished := by
    rw [hp]
    split <;> exact fun h => by cases h
  exact {
    settled  := h.settled.of_roots rfl h.settled.core.healthy rfl h.settled.runs phase
    live     := fun _ => h.live hne.2
    idle     := fun _ => h.idle hne.1
    waiting  := fun hw => hc.resolve_left fun hi => by
      rw [hi, if_pos rfl] at hp
      cases hp.symm.trans hw
    finished := fun hf => absurd hf hnew
    sent     := h.sent
    last     := by
      rw [← h.last]
      exact iff_of_false hnew hne.2 }

-- A record that comes into the queue wakes up the consumer.
theorem enqueue {graph : Graph U K D E} {completed : Completed U K D E}
    (hr : graph.rootNodes = s.graph.rootNodes) (hp : graph.pendingGroups = s.graph.pendingGroups)
    (hruns : graph.pendingRuns = [])
    (hg : Graph.Healthy { graph with completedQueue := graph.completedQueue ++ [completed] } s.Known s.Bar
      (· ∈ s.records) s.Failed s.delivered) : (s.enqueue graph completed).Good := by
  have hphase : ∀ phase : Phase, (if s.phase = .waiting then Phase.active else s.phase) = phase →
      phase ≠ .active → s.phase = phase ∧ phase ≠ .waiting := by
    intro phase he hne
    split at he
    case isTrue        => exact absurd he.symm hne
    case isFalse hwait => exact ⟨he, he ▸ hwait⟩
  have hr' : ({ graph with completedQueue := graph.completedQueue ++ [completed] } : Graph U K D E).rootNodes =
      s.graph.rootNodes := hr
  have w : (s.enqueue graph completed).Settled := h.settled.of_roots hr' hg hp hruns _
  exact {
    settled  := w
    live     := fun hne => hr ▸ h.live fun he => hne (by rw [State.enqueue, he]; rfl)
    idle     := fun hne => h.idle fun he => hne (by rw [State.enqueue, he]; rfl)
    waiting  := fun he => absurd rfl (hphase _ he fun h => by cases h).2
    finished := fun he => hr ▸ h.finished (hphase _ he fun h => by cases h).1
    sent     := h.sent
    last     := by
      refine Iff.trans ⟨fun he => (hphase _ he fun h => by cases h).1, fun he => ?_⟩ h.last
      rw [State.enqueue, he]
      rfl }

end Good

-- A record at the head of the queue is taken up.
theorem Good.handle {nulled : D → Path → Bool} (h : s.Good) (hp : s.phase = .active) {completed : Completed U K D E}
    {queue : List (Completed U K D E)} (hq : s.graph.completedQueue = completed :: queue)
    (hn : s.New completed.children) (hc : s.ClearCompleted nulled completed)
    (hs : ({ s with graph := { s.graph with completedQueue := queue } } : State U K D E).handleCompleted nulled
      completed = some s') : s'.Good := by
  have w := h.settled
  have hfin : s.phase ≠ .finished := by rw [hp]; decide
  have done : s.Handles s' → s'.Good := fun k =>
    h.of_active hfin k.settled (k.live (h.live hfin)) (k.phase.trans hp) k.payloads
  apply done
  cases completed with
  | items stream items errors children =>
    rw [handleCompleted, handleStreamItems, Graph.getNewRootNodes_eq] at hs
    cases Option.some.inj hs
    exact w.handles_items hq hn hc
  | done stream errors =>
    have hroot : .stream stream ∈ s.graph.rootNodes :=
      w.core.healthy.drains.queued _ (hq ▸ List.mem_cons_self) stream rfl
    rw [handleCompleted, handleStreamDone, if_pos (List.contains_iff_mem.mpr hroot)] at hs
    cases Option.some.inj hs
    exact w.handles_done hq
  | group result =>
    obtain ⟨group, data, errors, children⟩ := result
    rw [handleCompleted, handleExecutionGroup] at hs
    cases data with
    | none      =>
      cases Option.some.inj hs
      have he := removeDeferredFragments_eq (s := { s with graph := { s.graph with completedQueue := queue } })
        group.nodup w.core.healthy.rootOnce errors
      dsimp only
      rw [he]
      exact w.handles_failure hq
    | some data =>
      obtain ⟨hangs, addressed⟩ := hc data rfl
      have hsub : (filterGroupChildren nulled ⟨group, some data, errors, children⟩ data).Sublist children :=
        List.filter_sublist
      have hn : s.New (filterGroupChildren nulled ⟨group, some data, errors, children⟩ data) :=
        ⟨hn.1.sublist hsub, fun record hm => hn.2 record (hsub.subset hm)⟩
      obtain ⟨graph, hg, rfl⟩ := Option.map_eq_some_iff.mp hs
      cases Option.some.inj ((addCompletedGroup_eq hangs).symm.trans hg)
      exact w.handles_success hq rfl hn hangs addressed

-- What one event preserves, if it meets the condition.
theorem Good.step {nulled : D → Path → Bool} {event : Event U K D E} (h : s.Good) (enabled : s.Enabled event)
    (clear : s.Clear nulled event) (hs : s.step nulled event = some s') : s'.Good := by
  have hh := h.settled.core.healthy
  cases event with
  | finish result =>
    cases Option.some.inj hs
    refine h.enqueue rfl rfl h.settled.runs (hh.enqueue (hh.accounts.finish enabled) ?_)
    exact hh.drains.enqueue (fun _ he => by cases he) (List.Sublist.refl _) (fun _ _ _ he => by cases he)
      fun stream hm hn => absurd hm hn
  | items stream items errors children =>
    cases Option.some.inj hs
    refine h.enqueue rfl rfl h.settled.runs (hh.enqueue (hh.accounts.enqueue rfl _) ?_)
    exact hh.drains.enqueue (fun other he => by cases he; exact enabled) (List.Sublist.refl _)
      (fun _ _ _ he => by cases he) fun other hm hn => absurd hm hn
  | done stream errors =>
    cases Option.some.inj hs
    refine h.enqueue rfl rfl h.settled.runs (hh.enqueue (hh.accounts.enqueue rfl _) ?_)
    refine hh.drains.enqueue (fun other he => by cases he; exact enabled) List.erase_sublist
      (fun other hm lost he => ?_) fun other hm hn => ?_
    · have he := (Completed.done.inj he).1
      rw [← he, hh.drains.drainingOnce.mem_erase_iff] at hm
      exact hm.1 rfl
    · rw [hh.drains.drainingOnce.mem_erase_iff, not_and, imp_not_comm] at hn
      exact ⟨errors, by_contra fun hne => hn hm fun he => hne (he ▸ rfl)⟩
  | handle =>
    obtain ⟨hp, completed, hm, hn⟩ := enabled
    cases hq : s.graph.completedQueue with
    | nil                => rw [hq] at hm; cases hm
    | cons first queue =>
      rw [hq] at hm
      cases Option.some.inj hm
      have hs : State.step nulled s .handle = some s' := hs
      rw [State.step, hq] at hs
      exact h.handle hp hq hn (clear completed (by rw [hq]; rfl)) hs
  | flush =>
    cases Option.some.inj hs
    exact h.flush enabled.1 enabled.2
  | pull =>
    cases Option.some.inj hs
    exact h.pull enabled clear _ rfl

section

-- The state before anything has been announced.
def blank : State U K D E :=
  ⟨.empty, [], 0, [], [], [], [], .initial, []⟩

theorem not_known_blank (node : Node U K) : ¬(blank : State U K D E).Known node := by
  rintro ⟨_, hm⟩
  exact absurd hm List.not_mem_nil

theorem blank_recorded : (blank : State U K D E).Recorded where
  perm       := .refl _
  nodeOnce   := List.nodup_nil
  idOnce     := List.nodup_nil
  below      := fun _ hm => absurd hm List.not_mem_nil
  rootOnce   := List.nodup_nil
  roots      := by
    refine fun _ => ⟨fun hm => absurd hm List.not_mem_nil, ?_⟩
    rintro ⟨_, hm, -⟩
    exact absurd hm List.not_mem_nil
  closedOnce := List.nodup_nil
  closes     := fun _ hm => absurd hm List.not_mem_nil
  sound      := ⟨⟨fun _ hm => absurd hm List.not_mem_nil, fun _ hm => absurd hm List.not_mem_nil,
    fun _ _ hm => absurd hm List.not_mem_nil, fun _ _ hm => absurd hm List.not_mem_nil⟩, trivial⟩

theorem not_failed_blank (f : Fragment U) : ¬(blank : State U K D E).Failed f := by
  rintro ⟨_, _, hm, -⟩
  exact absurd hm List.not_mem_nil

theorem not_bar_blank (f : Fragment U) : ¬(blank : State U K D E).Bar f := by
  rintro (hr | hf)
  · cases hr
  · exact not_failed_blank f hf

theorem blank_healthy : (Graph.empty : Graph U K D E).Healthy (blank : State U K D E).Known
    (blank : State U K D E).Bar (· ∈ (blank : State U K D E).records) (blank : State U K D E).Failed
    (blank : State U K D E).delivered where
  wired     := {
    rooted  := fun _ hr => by cases hr
    blocked := fun _ _ hm => absurd hm List.not_mem_nil
    parent  := fun _ _ _ hm => absurd hm List.not_mem_nil
    linked  := by
      rintro f p (⟨_, hm⟩ | ⟨_, hm⟩ | ⟨_, hm⟩) _
      all_goals exact absurd hm List.not_mem_nil
    under   := fun _ _ outer _ => not_bar_blank outer
    barred  := fun _ _ outer _ => not_bar_blank outer
    streams := fun _ _ hm => absurd hm List.not_mem_nil
    single  := fun _ _ _ _ hm => absurd hm List.not_mem_nil }
  accounts  := {
    consistent := fun _ _ hm => absurd hm List.not_mem_nil
    distinct   := List.nodup_nil
    members    := fun _ _ hm => absurd hm List.not_mem_nil
    equal      := fun _ _ _ _ _ => rfl
    flying     := fun _ _ hr => by cases hr
    unmade     := fun _ _ => ⟨rfl, rfl, fun _ => rfl, rfl⟩
    clean      := fun _ hm => absurd hm List.not_mem_nil }
  drains    := {
    tasksOnce    := List.nodup_nil
    tasks        := by
      refine fun _ => ⟨fun hm => absurd hm List.not_mem_nil, ?_⟩
      rintro ⟨_, hm⟩
      exact absurd hm List.not_mem_nil
    rooted       := fun _ hm => absurd hm List.not_mem_nil
    drainingOnce := List.nodup_nil
    draining     := fun _ hm => absurd hm List.not_mem_nil
    queued       := fun _ hm => absurd hm List.not_mem_nil
    order        := .nil
    underWay     := fun _ hm => absurd hm List.not_mem_nil }
  links     := List.nodup_nil
  rootOnce  := List.nodup_nil
  madeLinks := fun _ _ hm => absurd hm List.not_mem_nil
  madeKnown := fun _ hk => absurd hk (not_known_blank _)

variable {records : List (Record U K)}

theorem blank_revealable (hd : records.Nodup) :
    (Graph.empty : Graph U K D E).Revealable (blank : State U K D E).Known
      (· ∈ (blank : State U K D E).records) records where
  distinct := hd
  new      := fun _ _ => List.not_mem_nil
  groups   := fun _ _ f _ => .inr {
    outermost   := f.parent?_outermost
    unannounced := not_known_blank _
    childless   := fun _ => List.not_mem_nil
    idle        := fun _ => List.not_mem_nil }

-- Each record leads to a node that is announced at the start.
theorem reveal_nonempty (hd : records.Nodup) (hne : records ≠ []) :
    ((Graph.empty : Graph U K D E).reveal records).newRootNodes ≠ [] := by
  obtain ⟨record, hm⟩ := List.exists_mem_of_ne_nil _ hne
  have v := blank_revealable (D := D) (E := E) hd
  have h := healthy_revealing blank_recorded blank_healthy rfl v
  have p := Graph.promotes (g := (Graph.empty : Graph U K D E).attachAll [] records)
    ((Graph.empty : Graph U K D E).startNodes records)
  cases record with
  | stream stream =>
    refine List.ne_nil_of_mem (p.streams stream ?_)
    rw [(Graph.promoteNonEmptyToRoot_promoted _).walk]
    exact .start (Graph.mem_startNodes.mpr ⟨_, hm, List.mem_singleton_self _⟩)
  | group group   =>
    have hs : ((Graph.empty : Graph U K D E).reveal records).graph.successfulGroups = [] := by
      rw [Graph.reveal, p.successfulGroups, (Graph.attaches [] records).successfulGroups]
      rfl
    obtain ⟨f, hf⟩ := List.exists_mem_of_ne_nil _ group.nonempty
    have hone := (h.accounts.clean group (.inr hm) fun f _ => not_failed_blank f).once f hf
    have hpending : ((Graph.empty : Graph U K D E).reveal records).graph.flushRuns.isPending group = true := by
      by_contra hp
      rw [Bool.of_not_eq_true hp, Graph.results] at hone
      rw [show ((Graph.empty : Graph U K D E).reveal records).graph.flushRuns.successfulGroups = [] from hs] at hone
      cases hone
    obtain ⟨x, hx⟩ := Graph.isPending_iff.mp hpending
    obtain ⟨outer, -, hb⟩ := h.wired.blocked x group hx
    exact List.ne_nil_of_mem (hb.resolve_left (not_bar_blank outer))

theorem buildResponse_good (hd : records.Nodup) (hne : records ≠ []) (hs : buildResponse records = some s) :
    s.Good := by
  have v := blank_revealable (D := D) (E := E) hd
  have c := core_revealing [] blank_recorded blank_healthy rfl v
    (fun _ hm => absurd hm List.not_mem_nil) fun _ => rfl
  have hroots : ((blank : State U K D E).revealing .empty [] records).graph.rootNodes ≠ [] := by
    obtain ⟨node, hm⟩ := List.exists_mem_of_ne_nil _ (reveal_nonempty (D := D) (E := E) hd hne)
    have k := continues_revealing [] blank_recorded blank_healthy rfl v
    exact List.ne_nil_of_mem ((k.roots node).mpr (.inr hm))
  have hbusy := busy_revealing [] blank_recorded blank_healthy rfl v fun f hf => by cases hf
  rw [buildResponse, Graph.getNewRootNodes_eq] at hs
  cases Option.some.inj hs
  have core := c.send true .initial
  have hopen := c.open_iff.mp hroots
  simp only [revealing, toPending_eq] at hroots hbusy core hopen
  simp only [toPending_eq]
  exact {
    settled  := ⟨core, rfl, hbusy, fun _ _ => rfl⟩
    live     := fun _ => .inl hroots
    idle     := fun _ => ⟨rfl, rfl, rfl⟩
    waiting  := fun he => by cases he
    finished := fun he => by cases he
    sent     := fun p older hm => by
      rcases List.suffix_cons_iff.mp hm with he | hm
      · cases he
        exact ⟨iff_of_true rfl hopen, fun _ hm => absurd hm List.not_mem_nil⟩
      · cases List.suffix_nil.mp hm
    last     := iff_of_false (fun he => by cases he) (by
      rintro ⟨p, older, he, hf⟩
      cases he
      cases hf) }

end

end State

theorem Reaches.good {nulled : D → Path → Bool} {data : D} {records : List (Record U K)} {s : State U K D E}
    (h : Reaches nulled (State.Clear nulled) data records s) : s.Good := by
  induction h with
  | init survive distinct start             => exact State.buildResponse_good distinct survive start
  | step event run enabled meets step ih => exact ih.step enabled meets step

namespace State

variable {s : State U K D E}

-- What is announced is held back by nothing any more.
theorem Good.nonEmpty (h : s.Good) {f outer : Fragment U} (hf : s.Announced (.fragment f))
    (ho : outer ∈ f.ancestors) : s.graph.pendingOf outer = [] := by
  obtain ⟨id, hm⟩ := hf
  have hk : s.Known (.fragment f) := ⟨id, h.settled.core.recorded.mem_announced.mp hm⟩
  have hw := h.settled.core.healthy.wired
  rw [Graph.pendingOf_eq_nil]
  intro group hp
  obtain ⟨bar, hb, hbar⟩ := hw.blocked outer group hp
  refine hw.under f hk bar ?_ hbar
  rcases Fragment.mem_chain.mp hb with rfl | hb
  · exact ho
  · exact Fragment.ancestors_trans ho hb

theorem Good.protocol (h : s.Good) : Protocol s.payloads := by
  have r := h.settled.core.recorded
  have hpending : (announced s.payloads).Sublist (announced s.log) := List.sublist_append_right _ _
  have hclosed : (closed s.payloads).Sublist (closed s.log) := List.sublist_append_right _ _
  exact {
    nodeOnce   := ((r.perm.map _).nodup_iff.mpr r.nodeOnce).sublist (hpending.map _)
    idOnce     := ((r.perm.map _).nodup_iff.mpr r.idOnce).sublist (hpending.map _)
    closedOnce := r.closedOnce.sublist (hclosed.map _)
    follows    := fun p older hs => {
      used    := (r.sound.2.fits hs).used
      closes  := (r.sound.2.fits hs).closes
      hasNext := (h.sent p older hs).hasNext
      before  := (h.sent p older hs).before }
    nested     := fun p older hs f id hf outer ho id' ha => r.sound.2.nested hs hf ho ha }

theorem Good.once (h : s.Good) (group : Group U K) (hc : ∀ f ∈ group.deferRecords, ¬s.Failed f) :
    s.delivered group ≤ 1 := by
  have a := h.settled.core.healthy.accounts
  obtain ⟨f, hf⟩ := List.exists_mem_of_ne_nil _ group.nonempty
  by_cases hm : .group group ∈ s.records
  case pos => have := (a.clean group hm hc).once f hf; omega
  case neg => rw [(a.unmade group hm).2.2.2]; exact Nat.zero_le 1

-- Once there is nothing left, a group that is not delivered is held back by what has failed.
theorem Good.complete (h : s.Good) (hp : s.phase = .finished) {group : Group U K} (hm : .group group ∈ s.records) :
    s.delivered group = 1 ∨ (∃ f ∈ group.deferRecords, s.Failed f) ∨
      ∀ f ∈ group.deferRecords, ∃ outer ∈ f.ancestors, s.Failed outer := by
  have hh := h.settled.core.healthy
  have hroot : ∀ f, s.graph.isRoot f ≠ true := by
    intro f hr
    rw [Graph.isRoot_iff, h.finished hp] at hr
    exact List.not_mem_nil hr
  by_cases hc : ∃ f ∈ group.deferRecords, s.Failed f
  case pos => exact .inr (.inl hc)
  case neg =>
    have hc : ∀ f ∈ group.deferRecords, ¬s.Failed f := fun f hf hx => hc ⟨f, hf, hx⟩
    have a := hh.accounts.clean group hm hc
    by_cases hpending : s.graph.isPending group = true
    case pos =>
      refine .inr (.inr fun f hf => ?_)
      obtain ⟨outer, ho, hb⟩ := hh.wired.blocked f group (hh.accounts.consistent.mem_of_isPending hpending hf)
      have hfail := hb.resolve_left (hroot outer)
      rcases Fragment.mem_chain.mp ho with rfl | ho
      · exact absurd hfail (hc _ hf)
      · exact ⟨outer, ho, hfail⟩
    case neg =>
      left
      obtain ⟨f, hf⟩ := List.exists_mem_of_ne_nil _ group.nonempty
      have hone := a.once f hf
      rw [Bool.of_not_eq_true hpending] at hone
      have hzero : s.graph.results group f = 0 := by
        by_contra hpos
        obtain ⟨x, -, hx⟩ := Graph.completesRootNode_iff.mp (a.waits f hf (Nat.pos_of_ne_zero hpos))
        exact hroot x hx
      simpa [hzero] using hone

-- One who waits is woken up by what is still under way.
theorem Good.woken (h : s.Good) (hp : s.phase = .waiting) : s.graph.running ≠ [] ∨ s.graph.draining ≠ [] := by
  have hh := h.settled.core.healthy
  have hq := h.waiting hp
  have hidle := h.idle (by rw [hp]; decide)
  obtain ⟨node, hm⟩ := List.exists_mem_of_ne_nil _ ((h.live (by rw [hp]; decide)).resolve_right fun hc => hc hidle.2.2)
  cases node with
  | stream stream =>
    rcases hh.drains.underWay stream hm with hd | ⟨errors, hd⟩
    · exact .inr (List.ne_nil_of_mem hd)
    · rw [hq] at hd
      exact absurd hd List.not_mem_nil
  | fragment f    =>
    have hr := Graph.isRoot_iff.mpr hm
    obtain ⟨group, hg⟩ := List.exists_mem_of_ne_nil _ (h.settled.busy f hr)
    have hpos := hh.accounts.flying f group hr (mem_valuesOf.mp hg)
    simp only [Graph.flights, h.settled.runs, hq, List.count_nil, List.filterMap_nil, Nat.zero_add, Nat.add_zero] at hpos
    exact .inl (List.ne_nil_of_mem (List.count_pos_iff.mp hpos))

theorem Good.delivers (h : s.Good) : s.Delivers where
  protocol := h.protocol
  nonEmpty := fun _ hf _ ho => h.nonEmpty hf ho
  drained  := ⟨h.settled.core.healthy.drains.tasksOnce, fun stream =>
    (h.settled.core.healthy.drains.tasks stream).trans
      (exists_congr fun _ => h.settled.core.recorded.mem_announced).symm⟩
  once     := h.once
  complete := fun hp _ hm => h.complete hp hm
  last     := h.last
  woken    := h.woken

-- Taking up a record raises nothing: what it attaches is below a root node, and a stream that ends is one.
theorem Good.handle_isSome {nulled : D → Path → Bool} (h : s.Good) {completed : Completed U K D E}
    {queue : List (Completed U K D E)} (hq : s.graph.completedQueue = completed :: queue)
    (hc : s.ClearCompleted nulled completed) :
    (({ s with graph := { s.graph with completedQueue := queue } } : State U K D E).handleCompleted nulled
      completed).isSome = true := by
  cases completed with
  | items stream items errors children =>
    rw [handleCompleted, handleStreamItems, Graph.getNewRootNodes_eq]
    rfl
  | done stream errors =>
    have hroot : .stream stream ∈ s.graph.rootNodes :=
      h.settled.core.healthy.drains.queued _ (hq ▸ List.mem_cons_self) stream rfl
    rw [handleCompleted, handleStreamDone, if_pos (List.contains_iff_mem.mpr hroot)]
    rfl
  | group result =>
    obtain ⟨group, data, errors, children⟩ := result
    rw [handleCompleted, handleExecutionGroup]
    cases data with
    | none      => rfl
    | some data =>
      dsimp only
      rw [Option.isSome_map, Option.isSome_iff_exists]
      exact ⟨_, addCompletedGroup_eq (hc data rfl).hangs⟩

theorem Good.step_isSome {nulled : D → Path → Bool} {event : Event U K D E} (h : s.Good)
    (enabled : s.Enabled event) (clear : s.Clear nulled event) : (s.step nulled event).isSome = true := by
  cases event with
  | handle =>
    obtain ⟨-, completed, hm, -⟩ := enabled
    cases hq : s.graph.completedQueue with
    | nil                => rw [hq] at hm; cases hm
    | cons first queue =>
      rw [State.step, hq]
      exact h.handle_isSome hq (clear first (by rw [hq]; rfl))
  | finish _ | items _ _ _ _ | done _ _ | flush | pull => rfl

-- Before the last payload there is a record to take up, or some event may happen.
theorem Good.goes_on (h : s.Good) (hp : s.phase ≠ .finished) :
    (s.phase = .active ∧ s.graph.completedQueue ≠ []) ∨ ∃ event : Event U K D E, s.Enabled event ∧ event ≠ .handle := by
  cases hphase : s.phase with
  | initial  => exact .inr ⟨.pull, .inl hphase, fun he => by cases he⟩
  | holding  => exact .inr ⟨.pull, .inr hphase, fun he => by cases he⟩
  | finished => exact absurd hphase hp
  | active   =>
    by_cases hq : s.graph.completedQueue = []
    case pos => exact .inr ⟨.flush, ⟨hphase, hq⟩, fun he => by cases he⟩
    case neg => exact .inl ⟨rfl, hq⟩
  | waiting  =>
    right
    rcases h.woken hphase with hr | hd
    · obtain ⟨group, hm⟩ := List.exists_mem_of_ne_nil _ hr
      exact ⟨.finish ⟨group, none, [], []⟩, hm, fun he => by cases he⟩
    · obtain ⟨stream, hm⟩ := List.exists_mem_of_ne_nil _ hd
      exact ⟨.done stream none, hm, fun he => by cases he⟩

end State

-- In every run whose successes are clear, the payloads keep to the protocol.
theorem Reaches.delivers_protocol {nulled : D → Path → Bool} {data : D} {records : List (Record U K)} {s : State U K D E}
    (h : Reaches nulled (State.Clear nulled) data records s) : s.Delivers :=
  h.good.delivers

-- No event raises, and a run does not get stuck before its last payload.
theorem Reaches.proceeds {nulled : D → Path → Bool} {data : D} {records : List (Record U K)} {s : State U K D E}
    (h : Reaches nulled (State.Clear nulled) data records s) :
    (∀ event, s.Enabled event → s.Clear nulled event → (s.step nulled event).isSome = true) ∧
      (s.phase ≠ .finished → (s.phase = .active ∧ s.graph.completedQueue ≠ []) ∨
        ∃ event : Event U K D E, s.Enabled event ∧ event ≠ .handle) :=
  ⟨fun _ enabled clear => h.good.step_isSome enabled clear, h.good.goes_on⟩

namespace Timeline

abbrev TimelineState := State String Nat String String

abbrev TimelineResult := GroupResult String Nat String String

-- Nothing is nulled.
def intact (_ : String) (_ : Path) : Bool :=
  false

def outer : Fragment String :=
  .top "profile" []

def inner : Fragment String :=
  .nested "friends" [.name "viewer"] outer

def viewer : Group String Nat :=
  ⟨0, [], [outer], by decide, by decide⟩

def friends : Group String Nat :=
  ⟨1, [.name "viewer"], [inner], by decide, by decide⟩

def posts : Stream Nat :=
  ⟨2, [.name "viewer", .name "posts"], none⟩

def viewerResult : TimelineResult :=
  ⟨viewer, some "viewer", [], [.group friends, .stream posts]⟩

def friendsResult : TimelineResult :=
  ⟨friends, none, ["friends"], []⟩

theorem viewerResult_clear (s : TimelineState) (hr : s.graph.isRoot outer = true)
    (hs : s.graph.successfulOf outer = []) : s.ClearCompleted intact (.group viewerResult) := by
  intro data hd
  have hchildren : filterGroupChildren intact viewerResult data = viewerResult.children := rfl
  refine ⟨fun child hm => ?_, fun f hf _ _ => ⟨fun other ho _ hn => ?_, fun result hm => ?_⟩⟩
  · rw [hchildren] at hm
    rcases List.mem_cons.mp hm with rfl | hm
    · intro f hf
      rw [List.mem_singleton.mp hf]
      exact ⟨outer, by decide, hr⟩
    · rw [List.mem_singleton.mp hm]
      exact ⟨outer, rfl, outer, outer.self_mem_chain, hr⟩
  · rw [List.mem_singleton.mp ho, hr] at hn
    cases hn
  · rw [List.mem_singleton.mp hf, hs] at hm
    cases hm

-- A fragment reveals another one, which fails, and a stream that is drained meanwhile. In the first state the
-- nested group is under way and an item is queued.
theorem timeline_reaches : ∃ s s' : TimelineState,
    (Reaches intact (State.Clear intact) "" [.group viewer] s ∧ s.phase = .active ∧ friends ∈ s.graph.running ∧
      s.graph.completedQueue = [.items posts "first" [] []] ∧ s.Enabled .handle) ∧
    Reaches intact (State.Clear intact) "" [.group viewer] s' ∧ s'.phase = .finished ∧ s'.payloads.length = 3 := by
  have h₀ : Reaches intact (State.Clear intact) "" [.group viewer] (_ : TimelineState) :=
    .init (by decide) (by decide) rfl
  have h₁ := h₀.step (.finish viewerResult) (List.mem_cons_self (a := viewer) (l := [])) trivial rfl
  have h₂ := h₁.step .pull (.inl rfl) (.inl rfl) rfl
  have h₃ := h₂.step .handle ⟨rfl, .group viewerResult, rfl, by decide, by decide⟩
    (fun completed hm => Option.some.inj hm ▸ viewerResult_clear _ rfl rfl) rfl
  have h₄ := h₃.step .flush ⟨rfl, rfl⟩ trivial rfl
  have h₅ := h₄.step .pull (.inr rfl) (.inr rfl) rfl
  have h₆ := h₅.step (.items posts "first" [] []) (List.mem_cons_self (a := posts) (l := [])) trivial rfl
  have h₇ := h₆.step .handle ⟨rfl, .items posts "first" [] [], rfl, by decide, by decide⟩
    (fun completed hm => Option.some.inj hm ▸ fun _ hc => absurd hc List.not_mem_nil) rfl
  have h₈ := h₇.step (.finish friendsResult) (List.mem_cons_self (a := friends) (l := [])) trivial rfl
  have h₉ := h₈.step .handle ⟨rfl, .group friendsResult, rfl, by decide, by decide⟩
    (fun completed hm => Option.some.inj hm ▸ fun _ hd => by cases hd) rfl
  have h₁₀ := h₉.step (.done posts none) (List.mem_cons_self (a := posts) (l := [])) trivial rfl
  have h₁₁ := h₁₀.step .handle ⟨rfl, .done posts none, rfl, by decide, by decide⟩
    (fun completed hm => Option.some.inj hm ▸ trivial) rfl
  have h₁₂ := h₁₁.step .flush ⟨rfl, rfl⟩ trivial rfl
  exact ⟨_, _, ⟨h₆, rfl, List.mem_cons_self (a := friends) (l := []), rfl, rfl, .items posts "first" [] [], rfl,
    by decide, by decide⟩, h₁₂, rfl, rfl⟩

theorem timeline_delivers : ∃ s : TimelineState, s.phase = .finished ∧ s.payloads.length = 3 ∧ s.Delivers := by
  obtain ⟨-, s, -, h, hp, hl⟩ := timeline_reaches
  exact ⟨s, hp, hl, Reaches.delivers_protocol h⟩

theorem timeline_proceeds : ∃ s : TimelineState,
    (s.Enabled (.finish friendsResult) ∧ (s.step intact (.finish friendsResult)).isSome = true) ∧
    (s.Enabled .handle ∧ (s.step intact .handle).isSome = true) ∧
    ((s.phase = .active ∧ s.graph.completedQueue ≠ []) ∨
      ∃ event : Event String Nat String String, s.Enabled event ∧ event ≠ .handle) := by
  obtain ⟨s, -, ⟨h, hp, hf, hq, he⟩, -⟩ := timeline_reaches
  obtain ⟨hstep, hgo⟩ := Reaches.proceeds h
  have hclear : s.Clear intact .handle := by
    intro completed hm
    rw [hq] at hm
    rw [← Option.some.inj hm]
    exact fun _ hc => absurd hc List.not_mem_nil
  exact ⟨s, ⟨hf, hstep (.finish friendsResult) hf trivial⟩, ⟨he, hstep .handle he hclear⟩,
    hgo fun hfin => by rw [hp] at hfin; cases hfin⟩

end Timeline

end Grafast.IncGraph
