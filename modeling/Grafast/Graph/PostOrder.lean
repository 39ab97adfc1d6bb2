import Mathlib.Data.Finset.Card
import Mathlib.Data.List.Nodup
import Mathlib.Logic.Relation

namespace Graph

variable {α : Type*}

-- An edge that the search follows: into a node at which it does not stop.
def Edge (succ : α → List α) (stop : α → Bool) (x y : α) : Prop :=
  y ∈ succ x ∧ stop y = false

-- The nodes that can be reached from the targets without passing through a stop.
def Region (succ : α → List α) (stop : α → Bool) (targets : List α) (y : α) : Prop :=
  ∃ t ∈ targets, stop t = false ∧ Relation.ReflTransGen (Edge succ stop) t y

def Acyclic (succ : α → List α) (stop : α → Bool) (targets : List α) : Prop :=
  ∀ x, Region succ stop targets x → ¬Relation.TransGen (Edge succ stop) x x

-- Every successor of an entry is a stop or stands earlier in the list.
def Closed (succ : α → List α) (stop : α → Bool) (l : List α) : Prop :=
  ∀ a x b, l = a ++ x :: b → ∀ y ∈ succ x, stop y = true ∨ y ∈ a

namespace Region

variable {succ : α → List α} {stop : α → Bool} {targets : List α} {x y : α}

theorem target (h : x ∈ targets) (hs : stop x = false) : Region succ stop targets x :=
  ⟨x, h, hs, .refl⟩

theorem not_stop (h : Region succ stop targets x) : stop x = false := by
  have ⟨t, _, hs, hr⟩ := h
  cases hr
  case refl => exact hs
  case tail e => exact e.right

theorem tail (h : Region succ stop targets x) (e : Edge succ stop x y) :
    Region succ stop targets y :=
  have ⟨t, ht, hs, hr⟩ := h
  ⟨t, ht, hs, hr.tail e⟩

theorem acyclic_mono {targets' : List α} (ha : Acyclic succ stop targets')
    (h : ∀ x, Region succ stop targets x → Region succ stop targets' x) :
    Acyclic succ stop targets :=
  fun x hx => ha x (h x hx)

theorem trans (h : Region succ stop targets x) (hr : Relation.ReflTransGen (Edge succ stop) x y) :
    Region succ stop targets y := by
  induction hr
  case refl        => exact h
  case tail e hi => exact hi.tail e

theorem mono {targets' : List α} (h : Region succ stop targets x) (hs : targets ⊆ targets') :
    Region succ stop targets' x :=
  have ⟨t, ht, h⟩ := h
  ⟨t, hs ht, h⟩

-- A set that contains the targets and is closed under edges contains the region.
theorem subset_of_closed {p : α → Prop} (h : Region succ stop targets x)
    (ht : ∀ t ∈ targets, stop t = false → p t) (hc : ∀ x y, p x → Edge succ stop x y → p y) :
    p x := by
  have ⟨t, htm, hs, hr⟩ := h
  induction hr
  case refl          => exact ht t htm hs
  case tail hr e hi => exact hc _ _ (hi ⟨t, htm, hs, hr⟩) e

theorem append_iff {ts : List α} :
    Region succ stop (targets ++ ts) x ↔ Region succ stop targets x ∨ Region succ stop ts x := by
  constructor
  case mp =>
    intro ⟨t, ht, h⟩
    cases List.mem_append.mp ht
    case inl ht => exact .inl ⟨t, ht, h⟩
    case inr ht => exact .inr ⟨t, ht, h⟩
  case mpr =>
    rintro (h | h)
    · exact h.mono <| List.subset_append_left ..
    · exact h.mono <| List.subset_append_right ..

end Region

structure Search (α : Type*) where
  visited : List α
  ordered : List α

-- One visit of a depth-first search that appends each node after its successors. `fuel` bounds the
-- depth of the recursion; `Visits.visit` below says how much of it is enough.
def visit [DecidableEq α] (succ : α → List α) (stop : α → Bool) : Nat → Search α → α → Search α
  | 0,        s, _ => s
  | fuel + 1, s, x =>
    if x ∈ s.visited then
      s
    else if stop x then
      { s with visited := x :: s.visited }
    else
      let s' := (succ x).foldl (visit succ stop fuel) { s with visited := x :: s.visited }
      { s' with ordered := s'.ordered ++ [x] }

def postOrder [DecidableEq α] (succ : α → List α) (stop : α → Bool) (fuel : Nat) (targets : List α) : List α :=
  targets.foldl (visit succ stop fuel) ⟨[], []⟩ |>.ordered

variable {succ : α → List α} {stop : α → Bool}

-- What the part of a search between `s` and `s'` has done: it has searched the `roots` and has
-- appended the nodes `new`.
structure Visits (succ : α → List α) (stop : α → Bool) (roots : List α) (s s' : Search α)
    (new : List α) : Prop where
  ordered_eq    : s'.ordered = s.ordered ++ new
  visited_mono  : s.visited ⊆ s'.visited
  roots_visited : roots ⊆ s'.visited
  nodup         : new.Nodup
  fresh         : ∀ y ∈ new, y ∉ s.visited
  visited       : ∀ y ∈ new, y ∈ s'.visited
  region        : ∀ y ∈ new, Region succ stop roots y
  cover         : ∀ y ∈ s'.visited, y ∈ s.visited ∨ stop y = true ∨ y ∈ new
  succ_visited  : ∀ y ∈ new, succ y ⊆ s'.visited
  closed        : Acyclic succ stop roots → ∀ a y b, new = a ++ y :: b → ∀ z ∈ succ y,
    z ∈ s.visited ∨ stop z = true ∨ z ∈ a

namespace Visits

variable {s s₁ s₂ : Search α} {x : α} {xs ys new new₁ new₂ : List α}

theorem nil : Visits succ stop [] s s [] := by
  constructor <;> simp
  exact fun _ h => .inl h

theorem visited_of_mem (h : x ∈ s.visited) : Visits succ stop [x] s s [] := by
  constructor <;> simp_all

theorem stopped (h : stop x = true) :
    Visits succ stop [x] s { s with visited := x :: s.visited } [] := by
  constructor <;> simp_all

theorem append (h₁ : Visits succ stop xs s s₁ new₁) (h₂ : Visits succ stop ys s₁ s₂ new₂) :
    Visits succ stop (xs ++ ys) s s₂ (new₁ ++ new₂) where
  ordered_eq := by simp [h₂.ordered_eq, h₁.ordered_eq]
  visited_mono := List.Subset.trans h₁.visited_mono h₂.visited_mono
  roots_visited := List.append_subset.mpr 
    ⟨List.Subset.trans h₁.roots_visited h₂.visited_mono, h₂.roots_visited⟩
  nodup := h₁.nodup.append h₂.nodup fun y hy₁ hy₂ => h₂.fresh y hy₂ (h₁.visited y hy₁)
  fresh y hy := by
    cases List.mem_append.mp hy
    case inl hy => exact h₁.fresh y hy
    case inr hy => exact fun hs => h₂.fresh y hy (h₁.visited_mono hs)
  visited y hy := by
    cases List.mem_append.mp hy
    case inl hy => exact h₂.visited_mono (h₁.visited y hy)
    case inr hy => exact h₂.visited y hy
  region y hy := by
    cases List.mem_append.mp hy
    case inl hy => exact Region.append_iff.mpr <| .inl <| h₁.region y hy
    case inr hy => exact Region.append_iff.mpr <| .inr <| h₂.region y hy
  cover y hy := by
    have := h₂.cover y hy
    have := h₁.cover y
    grind
  succ_visited y hy := by
    cases List.mem_append.mp hy
    case inl hy => exact List.Subset.trans (h₁.succ_visited y hy) h₂.visited_mono
    case inr hy => exact h₂.succ_visited y hy
  closed ha a y b he z hz := by
    have ha₁ := Region.acyclic_mono ha fun _ h => Region.append_iff.mpr (.inl h)
    have ha₂ := Region.acyclic_mono ha fun _ h => Region.append_iff.mpr (.inr h)
    -- `y` is in the first part, or it is in the second one and `a` covers the first.
    rcases List.append_eq_append_iff.mp he with ⟨c, rfl, hc⟩ | ⟨c, rfl, hc⟩
    · have := h₂.closed ha₂ c y b hc z hz
      have := h₁.cover z
      grind
    · cases c
      case nil =>
        have := h₂.closed ha₂ [] y b (by simpa using hc.symm) z hz
        have := h₁.cover z
        grind
      case cons w c =>
        have ⟨hw, hb⟩ := List.cons.inj hc
        exact h₁.closed ha₁ a y c (by simp [hw]) z hz

-- A node that is no stop is appended after everything that its successors have led to.
theorem node (hx : x ∉ s.visited) (hs : stop x = false)
    (h : Visits succ stop (succ x) { s with visited := x :: s.visited } s₁ new) :
    Visits succ stop [x] s { s₁ with ordered := s₁.ordered ++ [x] } (new ++ [x]) := by
  have hx₁ : x ∈ s₁.visited := h.visited_mono (by simp)
  have hn : x ∉ new := fun hm => h.fresh x hm (by simp)
  have hr {y} (hy : Region succ stop (succ x) y) : Relation.TransGen (Edge succ stop) x y :=
    have ⟨_, ht, hst, hr⟩ := hy
    .head' ⟨ht, hst⟩ hr
  have hr' {y} (hy : Region succ stop (succ x) y) : Region succ stop [x] y :=
    (Region.target (List.mem_singleton_self x) hs).trans (hr hy).to_reflTransGen
  constructor
  case ordered_eq => simp [h.ordered_eq]
  case visited_mono => exact fun y hy => h.visited_mono (List.mem_cons_of_mem _ hy)
  case roots_visited => simpa using hx₁
  case nodup => exact h.nodup.append (List.nodup_singleton x) (by simpa using hn)
  case fresh => 
    intro y hy
    have := h.fresh y
    grind
  case visited =>
    have := h.visited
    grind
  case region =>
    intro y hy
    cases List.mem_append.mp hy
    case inl hy => exact hr' (h.region y hy)
    case inr hy => 
      cases List.mem_singleton.mp hy
      exact Region.target (List.mem_singleton_self x) hs
  case cover =>
    intro y hy
    have := h.cover y hy
    grind
  case succ_visited =>
    intro y hy
    cases List.mem_append.mp hy
    case inl hy => exact h.succ_visited y hy
    case inr hy => exact List.mem_singleton.mp hy ▸ h.roots_visited
  case closed =>
    intro ha a y b he z hz
    have hac : ¬Relation.TransGen (Edge succ stop) x x :=
      ha x (Region.target (List.mem_singleton_self x) hs)
    rcases List.append_eq_append_iff.mp he with ⟨c, rfl, hc⟩ | ⟨c, rfl, hc⟩
    · cases c
      case nil =>
        -- `y` is `x`, and its successors have all been searched.
        have ⟨hy, _⟩ := List.cons.inj hc
        subst hy
        have hv := h.cover z (h.roots_visited hz)
        by_cases hst : stop z = true
        case pos => exact .inr (.inl hst)
        case neg =>
          have hne : z ≠ x := fun he => hac (.single ⟨he ▸ hz, hs⟩)
          grind
      case cons w c => simp at hc
    · cases c
      case nil =>
        have ⟨hy, _⟩ := List.cons.inj hc
        subst hy
        have hv := h.cover z (h.roots_visited hz)
        by_cases hst : stop z = true
        case pos => exact .inr (.inl hst)
        case neg =>
          have hne : z ≠ y := fun he => hac (.single ⟨he ▸ hz, hs⟩)
          grind
      case cons w c =>
        have ⟨hw, _⟩ := List.cons.inj hc
        subst hw
        have hv := h.closed (Region.acyclic_mono ha fun _ => hr') a y c (by simp) z hz
        have hy : Region succ stop (succ x) y := h.region y (by simp)
        -- An edge back to `x` would close a cycle.
        have hne : z ≠ x := fun he => hac ((hr hy).tail ⟨he ▸ hz, hs⟩)
        grind

end Visits

-- A set of nodes that has all edges.
def Universe (succ : α → List α) (u : Finset α) : Prop :=
  ∀ x, ∀ y ∈ succ x, x ∈ u ∧ y ∈ u

variable [DecidableEq α] {u : Finset α} {fuel : Nat}

omit [DecidableEq α] in
theorem Visits.foldl {s : Search α} {xs : List α} {f : Search α → α → Search α}
    {measure : Search α → Nat} (hm : ∀ s s', s.visited ⊆ s'.visited → measure s' ≤ measure s)
    (hf : ∀ s, ∀ x ∈ xs, measure s < fuel → ∃ new, Visits succ stop [x] s (f s x) new)
    (h : measure s < fuel) : ∃ new, Visits succ stop xs s (xs.foldl f s) new := by
  induction xs generalizing s
  case nil => exact ⟨[], .nil⟩
  case cons x xs hi =>
    have ⟨new₁, h₁⟩ := hf s x (by simp) h
    have ⟨new₂, h₂⟩ := hi (fun s y hy => hf s y (by simp [hy])) <|
      lt_of_le_of_lt (hm s (f s x) h₁.visited_mono) h
    exact ⟨new₁ ++ new₂, h₁.append h₂⟩

-- The nodes still to be visited: the measure that bounds the depth of the recursion.
def remaining (u : Finset α) (s : Search α) : Nat :=
  (u \ s.visited.toFinset).card

theorem remaining_anti {s s' : Search α} (h : s.visited ⊆ s'.visited) :
    remaining u s' ≤ remaining u s := by
  apply Finset.card_le_card
  intro y hy
  simp only [Finset.mem_sdiff, List.mem_toFinset] at hy ⊢
  exact ⟨hy.left, fun hm => hy.right (h hm)⟩

theorem remaining_cons_lt {s : Search α} {x : α} (hu : x ∈ u) (hx : x ∉ s.visited) :
    remaining u { s with visited := x :: s.visited } < remaining u s := by
  apply Finset.card_lt_card
  refine Finset.ssubset_iff_of_subset (fun y hy => ?_) |>.mpr ⟨x, ?_, ?_⟩
  · simp only [Finset.mem_sdiff, List.mem_toFinset, List.mem_cons] at hy ⊢
    exact ⟨hy.left, fun hm => hy.right (.inr hm)⟩
  · simp [hu, hx]
  · simp

-- `fuel` is enough once it exceeds the number of nodes that are left.
theorem visit_visits (hu : Universe succ u) {s : Search α} {x : α} (h : remaining u s < fuel) :
    ∃ new, Visits succ stop [x] s (visit succ stop fuel s x) new := by
  induction fuel generalizing s x
  case zero => contradiction
  case succ fuel hi =>
    unfold visit
    split
    case isTrue hm => exact ⟨[], .visited_of_mem hm⟩
    case isFalse hm =>
      split
      case isTrue hs => exact ⟨[], .stopped hs⟩
      case isFalse hs =>
        have ⟨new, hn⟩ : ∃ new, Visits succ stop (succ x) { s with visited := x :: s.visited }
            ((succ x).foldl (visit succ stop fuel) { s with visited := x :: s.visited }) new := by
          by_cases hx : x ∈ u
          case pos =>
            have hr := remaining_cons_lt hx hm
            exact Visits.foldl (fun _ _ => remaining_anti (u := u)) (fun s y _ hl => hi (s := s) hl)
              (lt_of_lt_of_le hr (Nat.lt_succ_iff.mp h))
          case neg =>
            have hn : succ x = [] := List.eq_nil_iff_forall_not_mem.mpr fun y hy => hx (hu x y hy).left
            exact ⟨[], by rw [hn]; exact .nil⟩
        exact ⟨new ++ [x], hn.node hm (by simpa using hs)⟩

variable {targets : List α} {x y : α}

theorem postOrder_visits (stop : α → Bool) (targets : List α) (hu : Universe succ u) (hf : u.card < fuel) :
    ∃ s, Visits succ stop targets ⟨[], []⟩ s (postOrder succ stop fuel targets) := by
  have hv (s : Search α) (x : α) (_ : x ∈ targets) (hl : remaining u s < fuel) :
      ∃ new, Visits succ stop [x] s (visit succ stop fuel s x) new :=
    visit_visits hu hl
  have ⟨new, h⟩ := Visits.foldl (s := ⟨[], []⟩) (fun _ _ => remaining_anti) hv
    (by simpa [remaining] using hf)
  have he := h.ordered_eq
  simp only [List.nil_append] at he
  exact ⟨_, he ▸ h⟩

section

variable (hu : Universe succ u) (hf : u.card < fuel)
include hu hf

theorem postOrder_nodup : (postOrder succ stop fuel targets).Nodup :=
  have ⟨_, h⟩ := postOrder_visits stop targets hu hf
  h.nodup

theorem mem_postOrder_iff : x ∈ postOrder succ stop fuel targets ↔ Region succ stop targets x := by
  have ⟨s, h⟩ := postOrder_visits stop targets hu hf
  have hc {y} (hv : y ∈ s.visited) (hs : stop y = false) : y ∈ postOrder succ stop fuel targets := by
    simpa [hs] using h.cover y hv
  constructor
  case mp  => exact h.region x
  case mpr =>
    intro hr
    apply hr.subset_of_closed
    · exact fun t ht hs => hc (h.roots_visited ht) hs
    · exact fun y z hy e => hc (h.succ_visited y hy e.left) e.right

end

theorem Closed.idxOf_lt {l : List α} (h : Closed succ stop l) (hx : x ∈ l) (e : Edge succ stop x y) :
    l.idxOf y < l.idxOf x := by
  have ⟨a, b, hl, ha⟩ := List.eq_append_cons_of_mem hx
  have hy : y ∈ a := by simpa [e.right] using h a x b hl y e.left
  calc l.idxOf y = a.idxOf y := by rw [hl, List.idxOf_append_of_mem hy]
    _ < a.length             := List.idxOf_lt_length_of_mem hy
    _ = l.idxOf x            := by rw [hl, List.idxOf_append_of_notMem ha, List.idxOf_cons_self]; rfl

theorem Closed.idxOf_lt_of_transGen {l : List α} (h : Closed succ stop l)
    (hl : ∀ x, x ∈ l ↔ Region succ stop targets x) (hx : x ∈ l)
    (hr : Relation.TransGen (Edge succ stop) x y) : l.idxOf y < l.idxOf x := by
  induction hr
  case single e => exact h.idxOf_lt hx e
  case tail z _ hr e hi =>
    have hz : z ∈ l := (hl z).mpr <| ((hl x).mp hx).trans hr.to_reflTransGen
    exact (h.idxOf_lt hz e).trans hi

-- The search returns a topological order exactly of those graphs that have one.
theorem postOrder_closed_iff (hu : Universe succ u) (hf : u.card < fuel) :
    Closed succ stop (postOrder succ stop fuel targets) ↔ Acyclic succ stop targets where
  mp h x hx hc := by
    have hl (x : α) : x ∈ postOrder succ stop fuel targets ↔ Region succ stop targets x :=
      mem_postOrder_iff hu hf
    exact absurd (h.idxOf_lt_of_transGen hl ((hl x).mpr hx) hc) (lt_irrefl _)
  mpr ha a x b he y hy := by
    have ⟨s, h⟩ := postOrder_visits stop targets hu hf
    simpa using h.closed ha a x b he y hy

end Graph
