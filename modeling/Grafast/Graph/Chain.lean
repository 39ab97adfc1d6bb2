import Mathlib.Data.Finset.Card
import Mathlib.Logic.Relation

namespace Graph

open Relation

variable {α : Type*} {next next' : α → Option α} {x y old new : α}

def Link (next : α → Option α) (x y : α) : Prop :=
  next x = some y

-- The links from an element lead to one that has none.
def Ends (next : α → Option α) (x : α) : Prop :=
  ∃ e, ReflTransGen (Link next) x e ∧ next e = none

-- Follows the links from an element, as far as the fuel goes.
def chase (next : α → Option α) : Nat → α → α
  | 0,        x => x
  | fuel + 1, x =>
    match next x with
    | some y => chase next fuel y
    | none   => x

theorem chase_of_none (h : next x = none) (fuel : Nat) : chase next fuel x = x := by
  cases fuel <;> simp [chase, h]

theorem Ends.head (e : Link next x y) (h : Ends next y) : Ends next x := by
  obtain ⟨z, hp, hz⟩ := h
  exact ⟨z, .head e hp, hz⟩

-- A chain that comes to an end does not come back.
theorem Ends.acyclic (h : Ends next x) : ¬TransGen (Link next) x x := by
  obtain ⟨z, hp, hz⟩ := h
  induction hp using ReflTransGen.head_induction_on
  case refl              =>
    intro hc
    obtain ⟨y, hy, _⟩ := TransGen.head'_iff.mp hc
    cases hz.symm.trans hy
  case head x y hxy _ hi =>
    intro hc
    obtain ⟨w, hw, hp⟩ := TransGen.head'_iff.mp hc
    obtain rfl := Option.some.inj (hxy.symm.trans hw)
    exact hi (.tail' hp hxy)

-- The elements of a chain are distinct, so that as much fuel as there are elements leads to its end.
theorem Ends.chase_eq {u : Finset α} (h : Ends next x) (hu : ∀ y, ReflTransGen (Link next) x y → y ∈ u) :
    ∃ e, ReflTransGen (Link next) x e ∧ next e = none ∧ ∀ fuel ≥ u.card, chase next fuel x = e := by
  classical
  obtain ⟨e, hp, he⟩ := h
  refine ⟨e, hp, he, ?_⟩
  induction hp using ReflTransGen.head_induction_on generalizing u
  case refl              => exact fun fuel _ => chase_of_none he fuel
  case head x y hxy hp hi =>
    intro fuel hf
    have hx : x ∈ u := hu x .refl
    have hy : ∀ z, ReflTransGen (Link next) y z → z ∈ u.erase x := fun z hz =>
      Finset.mem_erase.mpr ⟨fun hc => Ends.acyclic ⟨e, .head hxy hp, he⟩ (.head' hxy (hc ▸ hz)),
        hu z (.head hxy hz)⟩
    have hc := Finset.card_erase_add_one hx
    obtain ⟨n, rfl⟩ : ∃ n, fuel = n + 1 := ⟨fuel - 1, by omega⟩
    rw [chase, show next x = some y from hxy]
    exact hi hy n (by omega)

theorem Ends.congr (hs : ∀ y, ReflTransGen (Link next) x y → next' y = next y) (h : Ends next x) :
    Ends next' x := by
  obtain ⟨z, hz, hze⟩ := h
  induction hz using ReflTransGen.head_induction_on
  case refl              => exact ⟨z, .refl, (hs z .refl).trans hze⟩
  case head x y hxy _ hi => exact .head ((hs x .refl).trans hxy) (hi fun w hw => hs w (.head hxy hw))

theorem closed_of_link {p : α → Prop} (hc : ∀ x y, p x → Link next x y → p y) (hx : p x)
    (h : ReflTransGen (Link next) x y) : p y := by
  induction h
  case refl        => exact hx
  case tail _ e hi => exact hc _ _ hi e

-- One more link, from an element that the chain of its target does not pass.
theorem Ends.redirect {p : α → Prop} (hc : ∀ x y, p x → Link next x y → p y)
    (ho : next' old = some new) (hs : ∀ x, p x → x ≠ old → next' x = next x) (hp : p new)
    (hn : ¬ReflTransGen (Link next) new old) (he : Ends next new) (hx : p x) (h : Ends next x) :
    Ends next' x := by
  have hnew : Ends next' new := he.congr fun y hy =>
    hs y (closed_of_link hc hp hy) fun ho => hn (ho ▸ hy)
  obtain ⟨z, hz, hze⟩ := h
  induction hz using ReflTransGen.head_induction_on
  case refl              =>
    by_cases hne : z = old
    case pos => exact hne ▸ .head ho hnew
    case neg => exact ⟨z, .refl, (hs z hx hne).trans hze⟩
  case head x y hxy _ hi =>
    by_cases hne : x = old
    case pos => exact hne ▸ .head ho hnew
    case neg => exact .head ((hs x hx hne).trans hxy) (hi (hc x y hx hxy))

end Graph
