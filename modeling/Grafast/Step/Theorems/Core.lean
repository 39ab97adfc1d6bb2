import Grafast.Step.Core
import Grafast.Batch.Traverse

namespace Grafast

open Batch

open Text (Str)

namespace Loaders

variable {F : Type}

theorem lookup_eq_some_iff {T : Type} [BEq T] [LawfulBEq T] {items : List (T × F)} (hn : (items.map Prod.fst).Nodup)
    {typename : T} {fn : F} :
    items.lookup typename = some fn ↔ (typename, fn) ∈ items := by
  induction items
  case nil => simp
  case cons item items hi =>
    have ⟨hm, hn⟩ := List.nodup_cons.mp hn
    rw [List.lookup_cons, List.mem_cons]
    cases he : typename == item.fst
    case true =>
      have he := beq_iff_eq.mp he
      have hm : (typename, fn) ∉ items := fun hc => hm (he ▸ List.mem_map_of_mem hc)
      simp only [Prod.ext_iff, he, true_and]
      simp [he ▸ hm, eq_comm]
    case false =>
      have he := beq_eq_false_iff_ne.mp he
      simp [hi hn, Prod.ext_iff, he]

-- The order of the loaders, which the key leaves out, makes no difference.
theorem lookup_congr {l₁ l₂ : Loaders F} (h : l₁.sorted = l₂.sorted) (typename : Str) :
    l₁.items.lookup typename = l₂.items.lookup typename := by
  have hp : l₁.items.Perm l₂.items := by
    have hp₂ : l₂.sorted.Perm l₂.items := List.mergeSort_perm ..
    exact (List.mergeSort_perm ..).symm.trans (h.symm ▸ hp₂)
  ext fn
  rw [lookup_eq_some_iff l₁.nodup, lookup_eq_some_iff l₂.nodup, hp.mem_iff]

end Loaders

namespace CoreStep

open PyValue

variable {V S F : Type} [PyValue V S] {path : List S} {col : List V} {f g : V}

-- On no entry of the column does it matter what the fallback is: another entry raises, or the path is
-- not missing anywhere.
def FallbackFree (path : List S) (col : List V) : Prop :=
  (∃ v ∈ col, isException v = false ∧ ∃ e, walk v path = .raised e) ∨
    ∀ v ∈ col, isException v = true ∨ walk v path ≠ .missing

theorem accessEntry_eq_none_iff {v : V} : accessEntry path f v = none ↔
    isException v = false ∧ ∃ e, walk v path = .raised e := by
  unfold accessEntry getIn
  cases isException v <;> cases walk v path <;> simp

theorem accessEntry_eq_iff {v : V} : accessEntry path f v = accessEntry path g v ↔
    f = g ∨ isException v = true ∨ walk v path ≠ .missing := by
  unfold accessEntry getIn
  cases isException v <;> cases walk v path <;> simp

theorem mapM_accessEntry_iff :
    col.mapM (accessEntry path f) = col.mapM (accessEntry path g) ↔ f = g ∨ FallbackFree path col := by
  rw [mapM_eq_mapM_iff fun v => accessEntry_eq_none_iff.trans accessEntry_eq_none_iff.symm]
  simp only [accessEntry_eq_none_iff, accessEntry_eq_iff, FallbackFree]
  by_cases h : f = g <;> simp [h]

section Keys

variable {loaders : Loaders F} {v : V} {key : Except V (Str × V)} {keys : List (Except V (Str × V))}

theorem nodeKeys_eq_ok_iff : nodeKeys loaders col = .ok keys ↔ col.map (nodeEntry loaders) = keys.map .ok := by
  induction col generalizing keys
  case nil         => cases keys <;> simp [nodeKeys]
  case cons v col hi =>
    rw [nodeKeys, List.map_cons]
    cases nodeEntry loaders v
    case error error => cases keys <;> simp
    case ok key      =>
      cases hk : nodeKeys loaders col
      case error error =>
        cases keys
        case nil            => simp
        case cons key' keys =>
          have hn : ¬col.map (nodeEntry loaders) = keys.map .ok := fun h => by cases hk.symm.trans (hi.mpr h)
          simp [hn]
      case ok keys'    =>
        cases keys
        case nil            => simp
        case cons key' keys => simp [← hi, hk]

theorem nodeKeys_getElem? (h : nodeKeys loaders col = .ok keys) {i : Nat} (hv : col[i]? = some v) :
    ∃ key, keys[i]? = some key ∧ nodeEntry loaders v = .ok key := by
  have h := congrArg (·[i]?) (nodeKeys_eq_ok_iff.mp h)
  simp only [List.getElem?_map, hv, Option.map_some] at h
  obtain ⟨key, hk, he⟩ := Option.map_eq_some_iff.mp h.symm
  exact ⟨key, hk, he.symm⟩

theorem nodeKeys_length (h : nodeKeys loaders col = .ok keys) : keys.length = col.length := by
  have h := congrArg List.length (nodeKeys_eq_ok_iff.mp h)
  rw [List.length_map, List.length_map] at h
  exact h.symm

theorem nodeEntry_of_exception (hx : isException v = true) : nodeEntry loaders v = .ok (.error v) := by
  rw [nodeEntry, if_pos hx]

theorem nodeEntry_isOk_iff : (∃ key, nodeEntry loaders v = .ok key) ↔
    (isException v = false → ∀ error, decodeGlobalId v ≠ .raised error) := by
  cases hx : isException v
  case true  => simp [nodeEntry_of_exception hx]
  case false =>
    rw [nodeEntry, hx]
    cases decodeGlobalId v
    case raised error             => simp
    case valueError error         => simp
    case decoded typename idParts =>
      simp only [Bool.false_eq_true, if_false, reduceCtorEq, ne_eq, not_false_iff, implies_true, iff_true]
      split
      · exact ⟨_, rfl⟩
      · split
        · exact ⟨_, rfl⟩
        · exact ⟨_, rfl⟩

-- The walk over the ids ends just where one of them raises what is not caught.
theorem nodeKeys_isOk_iff :
    (∃ keys, nodeKeys loaders col = .ok keys) ↔ ∀ v ∈ col, ∃ key, nodeEntry loaders v = .ok key := by
  induction col
  case nil           => simp [nodeKeys]
  case cons v col hi =>
    rw [List.forall_mem_cons, ← hi, nodeKeys]
    cases nodeEntry loaders v
    case error error => simp
    case ok key      => cases nodeKeys loaders col <;> simp

end Keys

theorem loadType_congr [Callables V F] {l₁ l₂ : Loaders F} (h : l₁.sorted = l₂.sorted)
    (keys : List (Except V (Str × V))) (typename : Str) :
    loadType l₁ keys typename = loadType l₂ keys typename := by
  simp only [loadType, Loaders.lookup_congr h]

theorem nodeEntries_congr [Callables V F] {l₁ l₂ : Loaders F} (h : l₁.sorted = l₂.sorted) (ids : List V) :
    nodeEntries l₁ ids = nodeEntries l₂ ids := by
  have he : nodeEntry (V := V) l₁ = nodeEntry l₂ := by
    funext raw
    simp only [nodeEntry, Loaders.lookup_congr h]
  have hk : nodeKeys (V := V) l₁ = nodeKeys l₂ := by
    funext ids
    induction ids
    case nil             => rfl
    case cons raw ids hi => rw [nodeKeys, nodeKeys, he, hi]
  have hs : scatterNode (V := V) l₁ = scatterNode l₂ := by
    funext keys i entry
    cases entry <;> simp only [scatterNode, loadType_congr h]
  simp only [nodeEntries, hk, hs]

variable [Callables V F] {bucket : List V} {values : List (List V)} {k k' : CoreStep V S F}

-- Steps with the same key compute the same, unless they are constants of different data, or accesses
-- whose different fallbacks show.
theorem column_congr (hk : k.key = k'.key)
    (hc : ∀ a b, k = constant a → k' = constant b → a = b)
    (hf : ∀ path f g col, k = access path f → k' = access path g → f ≠ g →
      entries bucket.length values = some col → FallbackFree path col) :
    k.column bucket values = k'.column bucket values := by
  cases k <;> cases k' <;> simp only [key, reduceCtorEq] at hk
  case constant.constant a b => rw [hc a b rfl rfl]
  case access.access path f path' g =>
    have ⟨_, hp, _⟩ := CoreKey.access.inj hk
    subst hp
    simp only [column, execute]
    cases he : entries bucket.length values
    case none     => rfl
    case some col =>
      refine mapM_accessEntry_iff.mpr ?_
      by_cases h : f = g
      case pos => exact .inl h
      case neg => exact .inr (hf path f g col rfl rfl h he)
  case node.node => simp only [column, execute, nodeEntries_congr (CoreKey.node.inj hk)]
  all_goals
    cases hk
    rfl

end CoreStep

end Grafast
