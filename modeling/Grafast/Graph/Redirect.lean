import Mathlib.Logic.Relation

namespace Graph

open Relation

variable {α : Type*} {r r' : α → α → Prop} {dead survivor a b : α}

-- `r'` arises from `r` by moving edges into `dead` onto `survivor`.
def Redirects (r r' : α → α → Prop) (dead survivor : α) : Prop :=
  ∀ a b, r' a b → r a b ∨ r a dead ∧ b = survivor

namespace Redirects

variable (h : Redirects r r' dead survivor) (hs : ¬ReflTransGen r survivor dead)
include h hs

-- A path that uses a moved edge comes from above `dead`, and goes on below `survivor`.
theorem path (hr : TransGen r' a b) :
    TransGen r a b ∨ TransGen r a dead ∧ ReflTransGen r survivor b := by
  induction hr
  case single e =>
    cases h _ _ e
    case inl e => exact .inl (.single e)
    case inr e => exact .inr ⟨.single e.left, e.right ▸ .refl⟩
  case tail e hi =>
    cases hi <;> cases h _ _ e
    case inl.inl hp e => exact .inl (hp.tail e)
    case inl.inr hp e => exact .inr ⟨hp.tail e.left, e.right ▸ .refl⟩
    case inr.inl hp e => exact .inr ⟨hp.left, hp.right.tail e⟩
    case inr.inr hp e => exact absurd (hp.right.tail e.left) hs

theorem acyclic (ha : ∀ a, ¬TransGen r a a) (a : α) : ¬TransGen r' a a := by
  intro hr
  cases h.path hs hr
  case inl hr => exact ha a hr
  case inr hr => exact hs (hr.right.trans hr.left.to_reflTransGen)

end Redirects

end Graph
