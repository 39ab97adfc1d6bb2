import Grafast.Request.Constraint

namespace Grafast

-- Plain Python objects. A dictionary has values for its names, and for all others as well where it is of a
-- class that makes them up.
inductive PyData
  | none
  | bool (b : Bool)
  | int (n : Int)
  | str (s : String)
  | type (name : String)
  | dict (names : List String) (value : String → PyData) (hasDefaults : Bool)

namespace PyData

def typeName : PyData → String
  | .none       => "NoneType"
  | .bool _     => "bool"
  | .int _      => "int"
  | .str _      => "str"
  | .type _     => "type"
  | .dict _ _ _ => "dict"

def number? : PyData → Option Int
  | .bool b => some (if b then 1 else 0)
  | .int n  => some n
  | _       => Option.none

def equals : PyData → PyData → Bool
  | .dict names value _, .dict names' value' _ =>
    names.isPerm names' && names.all fun name => equals (value name) (value' name)
  | .none, .none       => true
  | .str s, .str s'    => s == s'
  | .type s, .type s'  => s == s'
  | a, b               => (number? a).isSome && number? a == number? b

theorem equals_self (a : PyData) : a.equals a = true := by
  induction a
  case dict names value _ hi => simp [equals, hi, List.isPerm_iff]
  all_goals simp [equals, number?]

def item? : PyData → String → Option PyData
  | .dict names value hasDefaults, key => if names.contains key || hasDefaults then some (value key) else Option.none
  | _, _                               => Option.none

def names? : PyData → Option (List String)
  | .dict names _ _ => some names
  | _               => Option.none

def ofItems (items : List (String × PyData)) : PyData :=
  .dict (items.map Prod.fst) (fun key => (items.lookup key).getD .none) false

theorem item?_ofItems (items : List (String × PyData)) (key : String) :
    (ofItems items).item? key = items.lookup key := by
  have hc : (items.map Prod.fst).contains key = (items.lookup key).isSome := by
    induction items
    case nil               => rfl
    case cons item items hi =>
      rw [List.map_cons, List.contains_cons, hi, List.lookup_cons]
      cases key == item.fst <;> rfl
  rw [ofItems, item?, hc]
  cases items.lookup key <;> rfl

theorem item?_of_name (a : PyData) (names : List String) (key : String) (h : a.names? = some names)
    (hm : key ∈ names) : (a.item? key).isSome = true := by
  cases a
  case dict =>
    obtain rfl := Option.some.inj h
    simp [item?, hm]
  all_goals cases h

instance : PyObject PyData String where
  typeOf          := typeName
  eq              := equals
  pyNone          := .none
  isNone a        := a.typeName = "NoneType"
  keys            := names?
  getItem         := item?
  getAttr a key   := if key = "__class__" then some (.type a.typeName) else Option.none
  ofItems         := ofItems
  keys_ofItems _  := rfl
  getItem_ofItems := item?_ofItems
  getItem_of_key  := item?_of_name

end PyData

end Grafast
