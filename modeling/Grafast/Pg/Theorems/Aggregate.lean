import Grafast.Pg.Aggregate
import Grafast.Pg.Theorems.Connection
import Mathlib.Data.List.Dedup
import Mathlib.Data.Multiset.Basic

namespace Grafast

open Sql

section Dict

variable {K α β : Type} [DecidableEq K] {l : List α} {k : α → K} {g : α → β} {name : K}

end Dict

-- The same connection, but for the order of its groups, which the statement leaves open.
structure AggregatedConnection.Same {C V N : Type} (c d : AggregatedConnection C V N) : Prop where
  connection      : c.toConnection = d.toConnection
  aggregates      : c.aggregates = d.aggregates
  aggregateGroups : Option.Rel List.Perm c.aggregateGroups d.aggregateGroups

section Rel

variable {α : Type} {r : α → α → Prop} {a b c : Option α}

theorem optionRel_refl (h : ∀ x, r x x) (a : Option α) : Option.Rel r a a := by
  cases a
  case some a => exact .some (h a)
  case none   => exact .none

theorem optionRel_symm (h : ∀ x y, r x y → r y x) (hab : Option.Rel r a b) : Option.Rel r b a := by
  cases hab
  case some hab => exact .some (h _ _ hab)
  case none     => exact .none

theorem optionRel_trans (h : ∀ x y z, r x y → r y z → r x z) (hab : Option.Rel r a b)
    (hbc : Option.Rel r b c) : Option.Rel r a c := by
  cases hab
  case some hab =>
    cases hbc
    case some hbc => exact .some (h _ _ _ hab hbc)
  case none     => exact hbc

variable {β : Type} {f : β → Option α} {values : List β} {entries : List (Option α)}

end Rel

namespace AggregatedConnection.Same

variable {C V N : Type} {c d x : AggregatedConnection C V N}

theorem refl (c : AggregatedConnection C V N) : c.Same c :=
  ⟨rfl, rfl, optionRel_refl .refl _⟩

theorem symm (h : c.Same d) : d.Same c :=
  ⟨h.connection.symm, h.aggregates.symm, optionRel_symm (fun _ _ => .symm) h.aggregateGroups⟩

theorem trans (h : c.Same d) (h' : d.Same x) : c.Same x :=
  ⟨h.connection.trans h'.connection, h.aggregates.trans h'.aggregates,
    optionRel_trans (fun _ _ _ => .trans) h.aggregateGroups h'.aggregateGroups⟩

end AggregatedConnection.Same

namespace PgAggregatingStep

variable {C A V : Type} [LinearOrder V] {step : PgAggregatingStep C A V} {e e' : Engine}
variable {arithmetic : Arithmetic V} {format : CursorFormat C V} {table rows : List (C → Option V)}
variable {sourceValues : SourceValues} {uniqueKeys : List (List (Option V))} {key : List (Option V)}
variable {value : Key V} {values : List (Key V)} {afterValues beforeValues : Option (List (Option V))}

variable [DecidableEq C]

end PgAggregatingStep

namespace Comments

def arithmetic : Arithmetic Nat where
  sum   := List.foldr (· + ·) 0
  avg _ := 0
  count := id

-- The comments of a post with their number, under some alias, and their highest rank.
def counted (aliasName : ResultName Column) (h : aliasName ≠ .inr "") : PgAggregatingStep Column Empty Nat where
  toPgKeyed        := byRank false
  first            := .literal (some 1)
  after            := .literal none
  last             := .literal none
  before           := .literal none
  needsTotal       := true
  aggregates       := [⟨.count, none, aliasName, fun _ => rfl, h⟩, ⟨.max, some .rank, .inr "top", nofun, by simp⟩]
  aggregateGroupBy := []

end Comments

end Grafast
