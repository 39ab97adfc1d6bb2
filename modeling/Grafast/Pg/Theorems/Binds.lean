import Grafast.Pg.Binds
import Grafast.Pg.Theorems.Connection
import Std.Data.String.ToNat

namespace Grafast

variable {C A V : Type}

-- No bind of a predicate has the name of a bind that a builder adds, or of a placeholder if it is none itself, and
-- all binds of the statement have the values that their authors intend.
structure NoCapture (statement : Statement V) (resolved : Nat → BindValue V) : Prop where
  engine_ne {bind host} (he : .engine bind ∈ statement) (hh : .host host ∈ statement) :
    ∀ name ∈ (BindPart.host host).names resolved, name ∉ (BindPart.engine bind).names resolved
  placeholder_ne {key value required number} (hl : .host (.literal key value required) ∈ statement)
    (hp : .host (.placeholder number) ∈ statement) : ∀ name ∈ (BindPart.host (.literal key value required)).names resolved,
      name ∉ (BindPart.host (.placeholder number)).names resolved
  value {part} (hp : part ∈ statement) : statement.valueOf resolved part.key = some (part.intended resolved)
  executed {part} (hp : part ∈ statement) : ∀ b ∈ part.bound resolved, statement.executed resolved b.fst = some b.snd

section Names

theorem keyset_key_inj {m n : Nat} (h : "__ks_" ++ toString m = "__ks_" ++ toString n) : m = n :=
  Nat.repr_injective <| (String.append_right_inj _).mp h

-- Names that differ in their first characters.
theorem append_ne {a b : String} (s t : String) (h : a.toList.head? ≠ b.toList.head?)
    (ha : a ≠ "") (hb : b ≠ "") : a ++ s ≠ b ++ t := by
  intro he
  have he := congrArg (·.toList.head?) he
  simp only [String.toList_append, List.head?_append] at he
  cases hl : a.toList.head? <;> cases hl' : b.toList.head? <;> simp_all

-- A number ends where a name goes on with an underscore, or not at all.
theorem number_append_inj {m n : Nat} {s t : String} (hs : s.toList.head?.all (· = '_'))
    (ht : t.toList.head?.all (· = '_')) (h : toString m ++ s = toString n ++ t) : m = n ∧ s = t := by
  have hd {n : Nat} {s : String} (hs : s.toList.head?.all (· = '_')) :
      ((toString n ++ s).toList.takeWhile Char.isDigit) = (toString n).toList := by
    have hn : ∀ c ∈ (toString n).toList, c.isDigit = true := by
      intro c hc
      exact Nat.isDigit_of_mem_toDigits (by decide) (by decide) (Nat.toList_repr ▸ hc)
    rw [String.toList_append, List.takeWhile_append_of_pos hn]
    cases hl : s.toList
    case nil         => simp
    case cons c rest =>
      rw [hl] at hs
      obtain rfl : c = '_' := by simpa using hs
      simp
  have hn := (hd hs).symm.trans ((congrArg (·.toList.takeWhile Char.isDigit) h).trans (hd ht))
  obtain rfl := Nat.repr_injective (String.toList_inj.mp hn)
  exact ⟨rfl, (String.append_right_inj _).mp h⟩

namespace BindValue

variable {key name : String} {value v w : BindValue V}

theorem bound_of_not_isExpanding (h : value.isExpanding = false) : value.bound key = [(key, value)] := by
  cases value <;> first | rfl | cases h

theorem name_of_isExpanding (h : value.isExpanding = true) (hb : (name, v) ∈ value.bound key) :
    ∃ s, name = key ++ ("_" ++ s) := by
  cases value
  case items values =>
    obtain ⟨item, _, hi⟩ := List.mem_map.mp hb
    exact ⟨_, (Prod.ext_iff.mp hi).left.symm.trans (String.append_assoc ..)⟩
  case tuples rows  =>
    obtain ⟨row, _, hb⟩ := List.mem_flatMap.mp hb
    obtain ⟨item, _, hi⟩ := List.mem_map.mp hb
    refine ⟨toString (row.snd + 1) ++ ("_" ++ toString (item.snd + 1)), (Prod.ext_iff.mp hi).left.symm.trans ?_⟩
    simp only [String.append_assoc]
  all_goals cases h

theorem name_of_bound (hb : (name, v) ∈ value.bound key) :
    ∃ s : String, s.toList.head?.all (· = '_') ∧ name = key ++ s := by
  cases h : value.isExpanding
  case false =>
    rw [bound_of_not_isExpanding h] at hb
    obtain ⟨rfl, _⟩ := Prod.ext_iff.mp (List.mem_singleton.mp hb)
    exact ⟨"", rfl, (String.append_empty).symm⟩
  case true  =>
    obtain ⟨s, rfl⟩ := name_of_isExpanding h hb
    exact ⟨"_" ++ s, by simp [String.toList_append], rfl⟩

-- The elements of a list have different names.
theorem bound_inj (hv : (name, v) ∈ value.bound key) (hw : (name, w) ∈ value.bound key) : v = w := by
  cases h : value.isExpanding
  case false =>
    rw [bound_of_not_isExpanding h, List.mem_singleton] at hv hw
    exact (Prod.ext_iff.mp (hv.trans hw.symm)).right
  case true  =>
    cases value
    case items values =>
      obtain ⟨i, hi, he⟩ := List.mem_map.mp hv
      obtain ⟨j, hj, he'⟩ := List.mem_map.mp hw
      obtain ⟨hn, rfl⟩ := Prod.ext_iff.mp he
      obtain ⟨hn', rfl⟩ := Prod.ext_iff.mp he'
      have hij := Nat.repr_injective <| (String.append_right_inj _).mp (hn.trans hn'.symm)
      have hs : i.snd = j.snd := Nat.succ.inj hij
      have hi := List.mem_zipIdx_iff_getElem?.mp hi
      have hj := List.mem_zipIdx_iff_getElem?.mp hj
      rw [hs, hj] at hi
      exact congrArg BindValue.value (Option.some.inj hi).symm
    case tuples rows  =>
      obtain ⟨r, hr, hv⟩ := List.mem_flatMap.mp hv
      obtain ⟨i, hi, he⟩ := List.mem_map.mp hv
      obtain ⟨q, hq, hw⟩ := List.mem_flatMap.mp hw
      obtain ⟨j, hj, he'⟩ := List.mem_map.mp hw
      obtain ⟨hn, rfl⟩ := Prod.ext_iff.mp he
      obtain ⟨hn', rfl⟩ := Prod.ext_iff.mp he'
      have hn := hn.trans hn'.symm
      simp only [String.append_assoc] at hn
      have hn := (String.append_right_inj _).mp <| (String.append_right_inj _).mp hn
      obtain ⟨hs, hn⟩ := number_append_inj (by simp [String.toList_append]) (by simp [String.toList_append]) hn
      have hs : r.snd = q.snd := Nat.succ.inj hs
      have hij : i.snd = j.snd := Nat.succ.inj <| Nat.repr_injective <| (String.append_right_inj _).mp hn
      have hr := List.mem_zipIdx_iff_getElem?.mp hr
      have hq := List.mem_zipIdx_iff_getElem?.mp hq
      rw [hs, hq] at hr
      have hrow := Option.some.inj hr
      have hi := List.mem_zipIdx_iff_getElem?.mp hi
      have hj := List.mem_zipIdx_iff_getElem?.mp hj
      rw [hij, ← hrow, hj] at hi
      exact congrArg BindValue.value (Option.some.inj hi).symm
    all_goals cases h

end BindValue

end Names

namespace Statement

variable {statement : Statement V} {resolved : Nat → BindValue V} {part : BindPart V}

theorem param_eq {v : BindValue V} (h : part.param resolved = some v) : v = part.intended resolved := by
  cases part with
  | engine bind =>
    cases hb : bind.baked <;> simp [BindPart.param, hb] at h
    exact h.symm
  | host bind   =>
    cases bind with
    | literal key value required => cases h
    | placeholder number         => exact (Option.some.inj h).symm

theorem compiled_eq (h : part.param resolved = none) : part.compiled = some (part.intended resolved) := by
  cases part with
  | engine bind =>
    cases hb : bind.baked <;> simp [BindPart.param, hb] at h
    simp [BindPart.compiled, BindPart.intended, hb]
  | host bind   =>
    cases bind with
    | literal key value required => rfl
    | placeholder number         => cases h

section Agree

-- Parts with one name have one value.
variable (hk : ∀ part ∈ statement, ∀ part' ∈ statement, part.key = part'.key →
    part.intended resolved = part'.intended resolved)
include hk

theorem valueOf_eq (h : part ∈ statement) : statement.valueOf resolved part.key = some (part.intended resolved) := by
  rw [valueOf]
  split
  case h_1 value hv =>
    obtain ⟨part', hp, hv⟩ := List.exists_of_findSome?_eq_some hv
    obtain ⟨hp, he⟩ := List.mem_filter.mp hp
    rw [param_eq hv, hk part' hp part h (of_decide_eq_true he)]
  case h_2 hn       =>
    have hf : (statement.reverse.find? (·.key = part.key)).isSome :=
      List.find?_isSome.mpr ⟨part, List.mem_reverse.mpr h, decide_eq_true rfl⟩
    obtain ⟨part', hf⟩ := Option.isSome_iff_exists.mp hf
    have hp := List.mem_reverse.mp (List.mem_of_find?_eq_some hf)
    have he : part'.key = part.key := by simpa using List.find?_some hf
    have hn := List.findSome?_eq_none_iff.mp hn part' (List.mem_filter.mpr ⟨hp, decide_eq_true he⟩)
    rw [compiledParam, hf, Option.bind_some, compiled_eq hn, hk part' hp part h he]

-- The binds that are run with one name have one value as well.
theorem executed_eq (hb : ∀ part ∈ statement, ∀ part' ∈ statement, ∀ {name v w}, (name, v) ∈ part.bound resolved →
    (name, w) ∈ part'.bound resolved → v = w) (h : part ∈ statement) :
    ∀ b ∈ part.bound resolved, statement.executed resolved b.fst = some b.snd := by
  have he {name : String} {w : BindValue V} (hm : (name, w) ∈ statement.elements resolved) :
      ∃ part' ∈ statement, (name, w) ∈ part'.bound resolved := by
    obtain ⟨part', hp, hm⟩ := List.mem_flatMap.mp hm
    rw [elementsOf, valueOf_eq hk hp] at hm
    dsimp only at hm
    split at hm
    case isTrue  => exact ⟨part', hp, hm⟩
    case isFalse => cases hm
  intro b hm
  rw [executed]
  split
  case h_1 w hl =>
    obtain ⟨before, after, hl, _⟩ := List.lookup_eq_some_iff.mp hl
    obtain ⟨part', hp, hw⟩ := he (List.mem_reverse.mp (hl ▸ List.mem_append_right _ (.head _)))
    rw [hb part' hp part h hw hm]
  case h_2 hl   =>
    cases hx : (part.intended resolved).isExpanding
    case true  =>
      have hin : b ∈ statement.elements resolved := by
        refine List.mem_flatMap.mpr ⟨part, h, ?_⟩
        rw [elementsOf, valueOf_eq hk h]
        simpa [hx, BindPart.bound] using hm
      exact absurd (List.lookup_eq_none_iff.mp hl b (List.mem_reverse.mpr hin)) (by simp)
    case false =>
      rw [BindPart.bound, BindValue.bound_of_not_isExpanding hx, List.mem_singleton] at hm
      rw [hm, valueOf_eq hk h]
      simp [hx]

end Agree

end Statement

-- A predicate whose binds are not captured holds of the rows of which its author intends it to hold.
theorem RowPredicate.within_eq {predicate : RowPredicate C V} {statement : Statement V}
    {resolved : Nat → BindValue V} (hn : NoCapture statement resolved)
    (h : ∀ bind ∈ predicate.binds, .host bind ∈ statement) :
    predicate.within resolved statement = predicate.intended resolved := by
  refine @RowPredicate.holds_congr _ _ predicate resolved _ _ fun bind hb b hm => ?_
  have hl (l : List (String × BindValue V)) (hl : b ∈ l) (hs : ∀ c ∈ l, statement.executed resolved c.fst = some c.snd) :
      l.lookup b.fst = some b.snd := by
    cases hv : l.lookup b.fst
    case none   => exact absurd (List.lookup_eq_none_iff.mp hv b hl) (by simp)
    case some v =>
      obtain ⟨before, after, he, _⟩ := List.lookup_eq_some_iff.mp hv
      rw [← hs _ hl, ← hs (b.fst, v) (he ▸ List.mem_append_right _ (.head _))]
  rw [hn.executed (h bind hb) b hm]
  refine (hl _ (List.mem_flatMap.mpr ⟨bind, hb, hm⟩) fun c hc => ?_).symm
  obtain ⟨bind', hb', hc⟩ := List.mem_flatMap.mp hc
  exact hn.executed (h bind' hb') c hc

namespace PgQuery

variable (sourceValues : SourceValues)

-- The names that the builders use besides the reserved ones.
def unreservedBinds : PgQuery C A V → List (EngineBind V)
  | select _ _ _                                  => []
  | selectAll step _                              => step.rootBinds sourceValues
  | page step _ _ afterValues beforeValues        =>
    step.cursorBinds step.orderBy afterValues beforeValues ++ step.pageLimitBinds sourceValues
  | count _ _ _                                   => []
  | aggregate _ _ _                               => []
  | unionPage step _ _ afterValues beforeValues   =>
    step.cursorBinds step.orderBy afterValues beforeValues ++ step.pageLimitBinds sourceValues
  | unionCount _ _ _                              => []

def reservedBinds : PgQuery C A V → List (EngineBind V)
  | select step _ uniqueKeys           =>
    keysBind uniqueKeys step.isComposite :: step.sliceBinds sourceValues
  | selectAll _ _                      => []
  | page step _ uniqueKeys _ _         => [keysBind uniqueKeys step.isComposite]
  | count step _ uniqueKeys            => [keysBind uniqueKeys step.isComposite]
  | aggregate step _ uniqueKeys        => [keysBind uniqueKeys step.isComposite]
  | unionPage step _ uniqueKeys _ _    => step.matchBinds uniqueKeys
  | unionCount step _ uniqueKeys       => step.matchBinds uniqueKeys

variable {sourceValues} {query : PgQuery C A V} {bind : EngineBind V} {host : HostBind V}

theorem engine_mem_hostParts {predicates : List (List (HostBind V))} :
    .engine bind ∉ hostParts predicates := by
  simp [hostParts]

theorem host_mem_hostParts {predicates : List (List (HostBind V))} :
    .host host ∈ hostParts predicates ↔ ∃ predicate ∈ predicates, host ∈ predicate := by
  simp [hostParts]

theorem engine_mem (h : .engine bind ∈ query.statement sourceValues) :
    bind ∈ query.reservedBinds sourceValues ∨ bind ∈ query.unreservedBinds sourceValues := by
  cases query with
  | select step predicates uniqueKeys =>
    simp [statement, PgSelectStep.buildQuery, engine_mem_hostParts, reservedBinds] at h ⊢
    grind
  | selectAll step predicates =>
    simp [statement, PgSelectAllStep.buildQuery, engine_mem_hostParts, unreservedBinds] at h ⊢
    grind
  | page step predicates uniqueKeys afterValues beforeValues =>
    simp [statement, PgConnectionStep.buildPageQuery, engine_mem_hostParts, reservedBinds,
      unreservedBinds] at h ⊢
    grind
  | count step predicates uniqueKeys =>
    simp [statement, PgConnectionStep.buildCountQuery, engine_mem_hostParts, reservedBinds] at h ⊢
    grind
  | aggregate step predicates uniqueKeys =>
    simp [statement, PgAggregatingStep.buildAggregateQuery, engine_mem_hostParts, reservedBinds] at h ⊢
    grind
  | unionPage step predicates uniqueKeys afterValues beforeValues =>
    simp [statement, PgUnionAllStep.buildPageQuery, PgUnionAllStep.branchSelect, engine_mem_hostParts,
      reservedBinds, unreservedBinds] at h ⊢
    grind
  | unionCount step predicates uniqueKeys =>
    simp [statement, PgUnionAllStep.buildCountQuery, PgUnionAllStep.countBranchSelect, engine_mem_hostParts,
      reservedBinds] at h ⊢
    grind

theorem host_mem : .host host ∈ query.statement sourceValues ↔
    ∃ predicate ∈ query.predicates, host ∈ predicate := by
  cases query with
  | select step predicates uniqueKeys =>
    simp [statement, PgSelectStep.buildQuery, host_mem_hostParts, PgQuery.predicates]
  | selectAll step predicates =>
    simp [statement, PgSelectAllStep.buildQuery, host_mem_hostParts, PgQuery.predicates]
  | page step predicates uniqueKeys afterValues beforeValues =>
    simp [statement, PgConnectionStep.buildPageQuery, host_mem_hostParts, PgQuery.predicates]
  | count step predicates uniqueKeys =>
    simp [statement, PgConnectionStep.buildCountQuery, host_mem_hostParts, PgQuery.predicates]
  | aggregate step predicates uniqueKeys =>
    simp [statement, PgAggregatingStep.buildAggregateQuery, host_mem_hostParts, PgQuery.predicates]
  | unionPage step predicates uniqueKeys afterValues beforeValues =>
    simp [statement, PgUnionAllStep.buildPageQuery, PgUnionAllStep.branchSelect, host_mem_hostParts,
      PgQuery.predicates]
    grind
  | unionCount step predicates uniqueKeys =>
    simp [statement, PgUnionAllStep.buildCountQuery, PgUnionAllStep.countBranchSelect, host_mem_hostParts,
      PgQuery.predicates]
    grind

-- In a statement that has a predicate, all of the names stand.
theorem unreserved_mem (h : bind ∈ query.unreservedBinds sourceValues)
    (hh : .host host ∈ query.statement sourceValues) : .engine bind ∈ query.statement sourceValues := by
  cases query with
  | select step predicates uniqueKeys    => cases h
  | selectAll step predicates            =>
    exact List.mem_append_right _ <| List.mem_map_of_mem h
  | page step predicates uniqueKeys afterValues beforeValues =>
    exact List.mem_cons_of_mem _ <| List.mem_append_right _ <| List.mem_map_of_mem h
  | count step predicates uniqueKeys     => cases h
  | aggregate step predicates uniqueKeys => cases h
  | unionPage step predicates uniqueKeys afterValues beforeValues =>
    obtain ⟨predicate, hp, _⟩ := host_mem.mp hh
    obtain ⟨leg, hl, _⟩ := List.mem_flatten.mp hp
    obtain h | h := List.mem_append.mp h
    · refine List.mem_append_left _ <| List.mem_flatMap.mpr ⟨leg, hl, List.mem_append_left _ ?_⟩
      exact List.mem_map_of_mem <| List.mem_append_right _ h
    · exact List.mem_append_right _ <| List.mem_map_of_mem h
  | unionCount step predicates uniqueKeys => cases h

theorem reserved_mem (h : bind ∈ query.reservedBinds sourceValues)
    (hh : .host host ∈ query.statement sourceValues) : .engine bind ∈ query.statement sourceValues := by
  have hu {step : PgUnionAllStep C A V} {uniqueKeys : List (List (Option V))}
      (h : bind ∈ step.matchBinds uniqueKeys) : .engine bind ∈ (step.matchBinds uniqueKeys).map BindPart.engine :=
    List.mem_map_of_mem h
  cases query with
  | select step predicates uniqueKeys    =>
    obtain rfl | h := List.mem_cons.mp h
    · exact .head _
    · exact .tail _ <| List.mem_append_right _ <| List.mem_map_of_mem h
  | selectAll step predicates            => cases h
  | page step predicates uniqueKeys afterValues beforeValues =>
    exact List.mem_singleton.mp h ▸ .head _
  | count step predicates uniqueKeys     => exact List.mem_singleton.mp h ▸ .head _
  | aggregate step predicates uniqueKeys => exact List.mem_singleton.mp h ▸ .head _
  | unionPage step predicates uniqueKeys afterValues beforeValues =>
    obtain ⟨predicate, hp, _⟩ := host_mem.mp hh
    obtain ⟨leg, hl, _⟩ := List.mem_flatten.mp hp
    refine List.mem_append_left _ <| List.mem_flatMap.mpr ⟨leg, hl, List.mem_append_left _ ?_⟩
    exact List.mem_map_of_mem <| List.mem_append_left _ h
  | unionCount step predicates uniqueKeys =>
    obtain ⟨predicate, hp, _⟩ := host_mem.mp hh
    obtain ⟨leg, hl, _⟩ := List.mem_flatten.mp hp
    exact List.mem_flatMap.mpr ⟨leg, hl, List.mem_append_left _ (hu h)⟩

theorem reserved_key (h : bind ∈ query.reservedBinds sourceValues) : bind.key ∈ reservedBindNames := by
  have hs {step : PgSelectStep C A V} (h : bind ∈ step.sliceBinds sourceValues) :
      bind.key ∈ reservedBindNames := by
    unfold PgSelectStep.sliceBinds at h
    cases hf : resolvePlaceholder step.first sourceValues.numbers <;>
      cases hl : step.isLimited <;> simp [hf, hl] at h <;> grind [reservedBindNames]
  have hm {step : PgUnionAllStep C A V} {uniqueKeys : List (List (Option V))}
      (h : bind ∈ step.matchBinds uniqueKeys) : bind.key ∈ reservedBindNames := by
    unfold PgUnionAllStep.matchBinds at h
    cases hp : step.isPerParent <;> simp [hp] at h
    simp [h, keysBind, reservedBindNames]
  have hk {uniqueKeys : List (List (Option V))} {composite : Bool}
      (h : bind = keysBind uniqueKeys composite) : bind.key ∈ reservedBindNames := by
    simp [h, keysBind, reservedBindNames]
  cases query with
  | select step filters uniqueKeys     => exact (List.mem_cons.mp h).elim hk hs
  | selectAll step filters             => cases h
  | page step filters uniqueKeys _ _   => exact hk (List.mem_singleton.mp h)
  | count step filters uniqueKeys      => exact hk (List.mem_singleton.mp h)
  | aggregate step filters uniqueKeys  => exact hk (List.mem_singleton.mp h)
  | unionPage step legs uniqueKeys _ _ => exact hm h
  | unionCount step legs uniqueKeys    => exact hm h

theorem mem_keysetBinds {order : List (OrderTerm C)} {values : List (Option V)}
    (h : bind ∈ keysetBinds order values) : ∃ (i : Nat) (v : Option V), ((order.zip values).map (·.snd))[i]? = some v ∧
      bind = ⟨"__ks_" ++ toString i, .value v, true⟩ := by
  obtain ⟨bound, hb, rfl⟩ := List.mem_map.mp h
  exact ⟨bound.snd, bound.fst, List.mem_zipIdx_iff_getElem?.mp (List.mem_filter.mp hb).left, rfl⟩

theorem cursorBinds_key {p : PgPaging} {order : List (OrderTerm C)}
    {afterValues beforeValues : Option (List (Option V))}
    (h : bind ∈ p.cursorBinds order afterValues beforeValues) : ∃ i : Nat, bind.key = "__ks_" ++ toString i := by
  unfold PgPaging.cursorBinds at h
  cases hv : if p.reverse then beforeValues else afterValues
  case none        => simp [hv] at h
  case some values =>
    rw [hv] at h
    obtain ⟨i, v, _, rfl⟩ := mem_keysetBinds h
    exact ⟨i, rfl⟩

-- The names of the paging of a root collection, of the size of a page, and of the values of a cursor.
theorem unreserved_key (h : bind ∈ query.unreservedBinds sourceValues) :
    bind.key ∈ ["root_offset", "root_first", "page_limit"] ∨ ∃ i : Nat, bind.key = "__ks_" ++ toString i := by
  have hl {p : PgPaging} (h : bind ∈ p.pageLimitBinds sourceValues) : bind.key = "page_limit" := by
    unfold PgPaging.pageLimitBinds at h
    cases hp : p.pageLimit sourceValues <;> simp [hp] at h
    simp [h]
  cases query with
  | select step filters uniqueKeys    => cases h
  | selectAll step filters            =>
    have h : bind ∈ step.rootBinds sourceValues := h
    unfold PgSelectAllStep.rootBinds at h
    cases ho : step.offset <;> cases hf : step.first <;> simp [ho, hf] at h <;> grind
  | page step filters uniqueKeys _ _  =>
    obtain h | h := List.mem_append.mp h
    · exact .inr (cursorBinds_key h)
    · simp [hl h]
  | count step filters uniqueKeys     => cases h
  | aggregate step filters uniqueKeys => cases h
  | unionPage step legs uniqueKeys _ _ =>
    obtain h | h := List.mem_append.mp h
    · exact .inr (cursorBinds_key h)
    · simp [hl h]
  | unionCount step legs uniqueKeys   => cases h

theorem engine_head (h : bind ∈ query.reservedBinds sourceValues ∨ bind ∈ query.unreservedBinds sourceValues) :
    bind.key.toList.head? ≠ "grafast_ph_".toList.head? ∧ bind.key ≠ "" := by
  have hl {names : List String} (hn : ∀ name ∈ names, name.toList.head? ≠ "grafast_ph_".toList.head? ∧ name ≠ "")
      (h : bind.key ∈ names) : bind.key.toList.head? ≠ "grafast_ph_".toList.head? ∧ bind.key ≠ "" := hn _ h
  obtain h | h := h
  case inl => exact hl (by decide) (reserved_key h)
  case inr =>
    obtain h | ⟨i, h⟩ := unreserved_key h
    case inl => exact hl (by decide) h
    case inr => simp [h, String.toList_append, String.ext_iff]

theorem pageBinds_scalar {p : PgPaging} {order : List (OrderTerm C)}
    {afterValues beforeValues : Option (List (Option V))}
    (h : bind ∈ p.cursorBinds order afterValues beforeValues ++ p.pageLimitBinds sourceValues) :
    bind.value.isExpanding = false := by
  obtain h | h := List.mem_append.mp h
  case inl =>
    unfold PgPaging.cursorBinds at h
    cases hv : if p.reverse then beforeValues else afterValues
    case none        => simp [hv] at h
    case some values =>
      rw [hv] at h
      obtain ⟨i, v, _, rfl⟩ := mem_keysetBinds h
      rfl
  case inr =>
    unfold PgPaging.pageLimitBinds at h
    cases hp : p.pageLimit sourceValues <;> simp [hp] at h
    simp [h, BindValue.isExpanding]

theorem unreserved_scalar (h : bind ∈ query.unreservedBinds sourceValues) : bind.value.isExpanding = false := by
  cases query with
  | select step filters uniqueKeys    => cases h
  | selectAll step filters            =>
    have h : bind ∈ step.rootBinds sourceValues := h
    unfold PgSelectAllStep.rootBinds at h
    cases ho : step.offset <;> cases hf : step.first <;> simp [ho, hf] at h
    · rw [h]
      rfl
    · rw [h]
      rfl
    · obtain rfl | rfl := h <;> rfl
  | page step filters uniqueKeys _ _  => exact pageBinds_scalar h
  | count step filters uniqueKeys     => cases h
  | aggregate step filters uniqueKeys => cases h
  | unionPage step legs uniqueKeys _ _ => exact pageBinds_scalar h
  | unionCount step legs uniqueKeys   => cases h

theorem keysetBinds_inj {order : List (OrderTerm C)} {values : List (Option V)} {bind' : EngineBind V}
    (h : bind ∈ keysetBinds order values) (h' : bind' ∈ keysetBinds order values)
    (hk : bind.key = bind'.key) : bind = bind' := by
  obtain ⟨i, v, hv, rfl⟩ := mem_keysetBinds h
  obtain ⟨j, w, hw, rfl⟩ := mem_keysetBinds h'
  obtain rfl := keyset_key_inj hk
  rw [Option.some.inj (hv.symm.trans hw)]

theorem pageBinds_inj {p : PgPaging} {order : List (OrderTerm C)} {bind' : EngineBind V}
    {afterValues beforeValues : Option (List (Option V))}
    (h : bind ∈ p.cursorBinds order afterValues beforeValues ++ p.pageLimitBinds sourceValues)
    (h' : bind' ∈ p.cursorBinds order afterValues beforeValues ++ p.pageLimitBinds sourceValues)
    (hk : bind.key = bind'.key) : bind = bind' := by
  have hl {bind : EngineBind V} (h : bind ∈ p.pageLimitBinds sourceValues) :
      bind.key = "page_limit" ∧ p.pageLimitBinds sourceValues = [bind] := by
    unfold PgPaging.pageLimitBinds at h ⊢
    cases hp : p.pageLimit sourceValues <;> simp [hp] at h
    simp [h]
  have hn (i : Nat) : "__ks_" ++ toString i ≠ "page_limit" := by
    simpa using append_ne (b := "page_limit") (toString i) "" (by decide) (by decide) (by decide)
  obtain h | h := List.mem_append.mp h <;> obtain h' | h' := List.mem_append.mp h'
  · unfold PgPaging.cursorBinds at h h'
    cases hv : if p.reverse then beforeValues else afterValues
    case none        => simp [hv] at h
    case some values =>
      rw [hv] at h h'
      exact keysetBinds_inj h h' hk
  · obtain ⟨i, hi⟩ := cursorBinds_key h
    exact absurd (hi.symm.trans (hk.trans (hl h').left)) (hn i)
  · obtain ⟨i, hi⟩ := cursorBinds_key h'
    exact absurd (hi.symm.trans (hk.symm.trans (hl h).left)) (hn i)
  · exact List.singleton_injective ((hl h).right.symm.trans (hl h').right)

theorem unreserved_inj {bind' : EngineBind V} (h : bind ∈ query.unreservedBinds sourceValues)
    (h' : bind' ∈ query.unreservedBinds sourceValues) (hk : bind.key = bind'.key) : bind = bind' := by
  cases query with
  | select step filters uniqueKeys    => cases h
  | selectAll step filters            =>
    have h : bind ∈ step.rootBinds sourceValues := h
    have h' : bind' ∈ step.rootBinds sourceValues := h'
    unfold PgSelectAllStep.rootBinds at h h'
    cases ho : step.offset <;> cases hf : step.first <;> simp [ho, hf] at h h' <;> grind
  | page step filters uniqueKeys _ _  => exact pageBinds_inj h h' hk
  | count step filters uniqueKeys     => cases h
  | aggregate step filters uniqueKeys => cases h
  | unionPage step legs uniqueKeys _ _ => exact pageBinds_inj h h' hk
  | unionCount step legs uniqueKeys   => cases h

theorem reserved_inj {bind' : EngineBind V} (h : bind ∈ query.reservedBinds sourceValues)
    (h' : bind' ∈ query.reservedBinds sourceValues) (hk : bind.key = bind'.key) : bind = bind' := by
  have hs {bind : EngineBind V} {a : EngineBind V} (h : bind ∈ [a]) (h' : bind' ∈ [a]) : bind = bind' :=
    (List.mem_singleton.mp h).trans (List.mem_singleton.mp h').symm
  have hm {step : PgUnionAllStep C A V} {uniqueKeys : List (List (Option V))}
      (h : bind ∈ step.matchBinds uniqueKeys) (h' : bind' ∈ step.matchBinds uniqueKeys) : bind = bind' := by
    unfold PgUnionAllStep.matchBinds at h h'
    cases hp : step.isPerParent <;> simp [hp] at h h'
    exact h.trans h'.symm
  cases query with
  | select step filters uniqueKeys     =>
    simp only [reservedBinds, PgSelectStep.sliceBinds] at h h'
    cases hl : step.isLimited <;> cases hf : resolvePlaceholder step.first sourceValues.numbers <;>
      simp [hl, hf] at h h' <;> grind [keysBind]
  | selectAll step filters             => cases h
  | page step filters uniqueKeys _ _   => exact hs h h'
  | count step filters uniqueKeys      => exact hs h h'
  | aggregate step filters uniqueKeys  => exact hs h h'
  | unionPage step legs uniqueKeys _ _ => exact hm h h'
  | unionCount step legs uniqueKeys    => exact hm h h'

theorem reserved_key_ne {bind' : EngineBind V} (h : bind ∈ query.reservedBinds sourceValues)
    (h' : bind' ∈ query.unreservedBinds sourceValues) (s : String) : bind.key ++ s ≠ bind'.key := by
  have hl {names : List String} (hn : ∀ name ∈ names, ∀ other ∈ reservedBindNames,
      other.toList.head? ≠ name.toList.head? ∧ name ≠ "" ∧ other ≠ "") (hm : bind'.key ∈ names) :
      bind.key ++ s ≠ bind'.key := by
    obtain ⟨hh, hn, hr⟩ := hn _ hm _ (reserved_key h)
    simpa using append_ne s "" hh hr hn
  obtain hu | ⟨i, hi⟩ := unreserved_key h'
  case inl => exact hl (by decide) hu
  case inr =>
    have hk : bind.key.toList.head? ≠ "__ks_".toList.head? ∧ bind.key ≠ "" := by
      have hr : ∀ name ∈ reservedBindNames, name.toList.head? ≠ "__ks_".toList.head? ∧ name ≠ "" := by decide
      exact hr _ (reserved_key h)
    exact hi ▸ append_ne s (toString i) hk.left hk.right (by decide)

-- Builders give the binds of one name one value.
theorem engine_consistent {bind' : EngineBind V} (h : .engine bind ∈ query.statement sourceValues)
    (h' : .engine bind' ∈ query.statement sourceValues) (hk : bind.key = bind'.key) : bind = bind' := by
  obtain h | h := engine_mem h <;> obtain h' | h' := engine_mem h'
  · exact reserved_inj h h' hk
  · exact absurd hk (by simpa using reserved_key_ne h h' "")
  · exact absurd hk.symm (by simpa using reserved_key_ne h' h "")
  · exact unreserved_inj h h' hk

-- A list is that of the keys, whose elements are named like nothing else.
theorem reserved_expanding (h : bind ∈ query.reservedBinds sourceValues) (hx : bind.value.isExpanding = true) :
    bind.key = "keys" := by
  have hk {uniqueKeys : List (List (Option V))} {composite : Bool}
      (h : bind = keysBind uniqueKeys composite) : bind.key = "keys" := by
    rw [h, keysBind]
  cases query with
  | select step filters uniqueKeys     =>
    simp only [reservedBinds, PgSelectStep.sliceBinds] at h
    cases hl : step.isLimited <;> cases hf : resolvePlaceholder step.first sourceValues.numbers <;>
      simp [hl, hf] at h <;> grind [keysBind, BindValue.isExpanding]
  | selectAll step filters             => cases h
  | page step filters uniqueKeys _ _   => exact hk (List.mem_singleton.mp h)
  | count step filters uniqueKeys      => exact hk (List.mem_singleton.mp h)
  | aggregate step filters uniqueKeys  => exact hk (List.mem_singleton.mp h)
  | unionPage step legs uniqueKeys _ _ =>
    have h : bind ∈ step.matchBinds uniqueKeys := h
    unfold PgUnionAllStep.matchBinds at h
    cases hp : step.isPerParent <;> simp [hp] at h
    exact hk h
  | unionCount step legs uniqueKeys    =>
    have h : bind ∈ step.matchBinds uniqueKeys := h
    unfold PgUnionAllStep.matchBinds at h
    cases hp : step.isPerParent <;> simp [hp] at h
    exact hk h

-- The reserved names have no underscore, which the names of elements have.
theorem append_not_reserved (key s : String) : key ++ ("_" ++ s) ∉ reservedBindNames := by
  intro h
  have hc : ∀ name ∈ reservedBindNames, '_' ∉ name.toList := by decide
  exact hc _ h (by simp [String.toList_append])

theorem engine_bound_agree {bind' : EngineBind V} {name : String} {v w : BindValue V}
    (h : .engine bind ∈ query.statement sourceValues) (h' : .engine bind' ∈ query.statement sourceValues)
    (hv : (name, v) ∈ bind.value.bound bind.key) (hw : (name, w) ∈ bind'.value.bound bind'.key) : v = w := by
  have hne {bind bind' : EngineBind V} (h : .engine bind ∈ query.statement sourceValues)
      (h' : .engine bind' ∈ query.statement sourceValues) (hx : bind.value.isExpanding = true) {v w : BindValue V}
      (hv : (name, v) ∈ bind.value.bound bind.key) (hw : (name, w) ∈ bind'.value.bound bind'.key) :
      bind'.value.isExpanding = true := by
    have hr := (engine_mem h).resolve_right fun hu => by simp [unreserved_scalar hu] at hx
    obtain ⟨s, rfl⟩ := BindValue.name_of_isExpanding hx hv
    by_contra hn
    rw [BindValue.bound_of_not_isExpanding (Bool.eq_false_iff.mpr hn), List.mem_singleton] at hw
    have hk : bind.key ++ ("_" ++ s) = bind'.key := (Prod.ext_iff.mp hw).left
    obtain hr' | hu := engine_mem h'
    case inl => exact append_not_reserved _ s (hk ▸ reserved_key hr')
    case inr => exact reserved_key_ne hr hu _ hk
  cases hx : bind.value.isExpanding
  case true  =>
    have hx' := hne h h' hx hv hw
    have hr := (engine_mem h).resolve_right fun hu => by simp [unreserved_scalar hu] at hx
    have hr' := (engine_mem h').resolve_right fun hu => by simp [unreserved_scalar hu] at hx'
    obtain rfl := reserved_inj hr hr' ((reserved_expanding hr hx).trans (reserved_expanding hr' hx').symm)
    exact BindValue.bound_inj hv hw
  case false =>
    have hx' : bind'.value.isExpanding = false := by
      by_contra hn
      exact absurd (hne h' h (Bool.eq_true_of_not_eq_false hn) hw hv) (by simp [hx])
    rw [BindValue.bound_of_not_isExpanding hx, List.mem_singleton] at hv
    rw [BindValue.bound_of_not_isExpanding hx', List.mem_singleton] at hw
    obtain ⟨rfl, rfl⟩ := Prod.ext_iff.mp hv
    obtain ⟨hk, rfl⟩ := Prod.ext_iff.mp hw
    rw [engine_consistent h h' hk]

theorem placeholder_name {number : Nat} {resolved : Nat → BindValue V} {name : String}
    (h : name ∈ (BindPart.host (.placeholder number)).names resolved) :
    ∃ s : String, s.toList.head?.all (· = '_') ∧ name = "grafast_ph_" ++ (toString number ++ s) := by
  obtain rfl | h := List.mem_cons.mp h
  case inl => exact ⟨"", rfl, by simp [BindPart.key, HostBind.key]⟩
  case inr =>
    obtain ⟨b, hb, rfl⟩ := List.mem_map.mp h
    obtain ⟨s, hs, hn⟩ := BindValue.name_of_bound hb
    exact ⟨s, hs, hn.trans (String.append_assoc ..)⟩

theorem placeholder_inj {m n : Nat} {resolved : Nat → BindValue V} {name : String}
    (hm : name ∈ (BindPart.host (.placeholder m)).names resolved)
    (hn : name ∈ (BindPart.host (.placeholder n)).names resolved) : m = n := by
  obtain ⟨s, hs, rfl⟩ := placeholder_name hm
  obtain ⟨t, ht, he⟩ := placeholder_name hn
  exact (number_append_inj hs ht ((String.append_right_inj _).mp he)).left

theorem engine_name {resolved : Nat → BindValue V} {name : String}
    (h : name ∈ (BindPart.engine bind).names resolved) : ∃ s, name = bind.key ++ s := by
  obtain rfl | h := List.mem_cons.mp h
  case inl => exact ⟨"", by simp [BindPart.key]⟩
  case inr =>
    obtain ⟨b, hb, rfl⟩ := List.mem_map.mp h
    obtain ⟨s, _, hn⟩ := BindValue.name_of_bound hb
    exact ⟨s, hn⟩

theorem key_of_checkPredicate {predicate : List (HostBind V)}
    (h : checkPredicate (.element predicate) = .ok predicate) : ∀ host ∈ predicate, host.key ∉ reservedBindNames := by
  have hf {binds : List (HostBind V)} (h : binds.forM checkBind = .ok ()) (host) (hh : host ∈ binds) :
      host.key ∉ reservedBindNames := by
    induction binds
    case nil             => cases hh
    case cons b binds hi =>
      cases hb : checkBind b
      case error e => simp [List.forM_cons, hb, bind, Except.bind] at h
      case ok      =>
        have h : binds.forM checkBind = .ok () := by simpa [List.forM_cons, hb, bind, Except.bind] using h
        obtain rfl | hh := List.mem_cons.mp hh
        case inr => exact hi h hh
        case inl =>
          intro hr
          simp [checkBind, hr] at hb
  cases hm : predicate.forM checkBind
  case ok      => exact hf hm
  case error e => simp [checkPredicate, hm, bind, Except.bind] at h

-- The names that the check lets a predicate have: those that it does not reserve, and the elements of the keys.
def uncheckedNames (sourceValues : SourceValues) (query : PgQuery C A V) : List String :=
  (query.unreservedBinds sourceValues).map (·.key) ++
    ((query.reservedBinds sourceValues).filter (·.value.isExpanding)).flatMap fun bind =>
      (bind.value.bound bind.key).map Prod.fst

-- The literals of the predicates keep free of these names and of those of the placeholders, and what two of them
-- have in common is bound to one value.
structure KeysFree (sourceValues : SourceValues) (resolved : Nat → BindValue V) (query : PgQuery C A V) : Prop where
  unchecked {predicate} (hp : predicate ∈ query.predicates) {key value required}
    (hl : HostBind.literal key value required ∈ predicate) :
    ∀ name ∈ (BindPart.host (.literal key value required)).names resolved, name ∉ query.uncheckedNames sourceValues
  placeholder {predicate} (hp : predicate ∈ query.predicates) {other} (ho : other ∈ query.predicates)
    {key value required} (hl : HostBind.literal key value required ∈ predicate) {number}
    (hn : HostBind.placeholder number ∈ other) : ∀ name ∈ (BindPart.host (.literal key value required)).names resolved,
      name ∉ (BindPart.host (.placeholder number)).names resolved
  key {predicate} (hp : predicate ∈ query.predicates) {other} (ho : other ∈ query.predicates)
    {key value required value' required'} (hl : HostBind.literal key value required ∈ predicate)
    (hl' : HostBind.literal key value' required' ∈ other) : value = value'
  bound {predicate} (hp : predicate ∈ query.predicates) {other} (ho : other ∈ query.predicates)
    {key value required key' value' required'} (hl : HostBind.literal key value required ∈ predicate)
    (hl' : HostBind.literal key' value' required' ∈ other) : ∀ {name v w}, (name, v) ∈ value.bound key →
      (name, w) ∈ value'.bound key' → v = w

section Free

variable {resolved : Nat → BindValue V} (hk : query.KeysFree sourceValues resolved)
  (hc : ∀ predicate ∈ query.predicates, checkPredicate (.element predicate) = .ok predicate)
include hk hc

theorem engine_free (he : .engine bind ∈ query.statement sourceValues) (hh : .host host ∈ query.statement sourceValues) :
    ∀ name ∈ (BindPart.host host).names resolved, name ∉ (BindPart.engine bind).names resolved := by
  obtain ⟨predicate, hp, hm⟩ := host_mem.mp hh
  intro name hn he'
  cases host with
  | placeholder number =>
    obtain ⟨s, _, rfl⟩ := placeholder_name hn
    obtain ⟨t, ht⟩ := engine_name he'
    obtain ⟨hd, hne⟩ := engine_head (engine_mem he)
    exact append_ne _ _ hd hne (by decide) ht.symm
  | literal key value required =>
    have hu := hk.unchecked hp hm name hn
    rw [uncheckedNames, List.mem_append, not_or] at hu
    -- A name of a builder that the check does not know is none of a literal, so that it is a reserved one.
    have hr : name ∈ reservedBindNames := by
      obtain hr | hr := engine_mem he
      case inr =>
        have hs := unreserved_scalar hr
        refine absurd (List.mem_map.mpr ⟨bind, hr, ?_⟩) hu.left
        obtain rfl | hb := List.mem_cons.mp he'
        case inl => rfl
        case inr =>
          rw [BindPart.bound, BindPart.intended, BindValue.bound_of_not_isExpanding hs] at hb
          exact (List.mem_singleton.mp hb).symm
      case inl =>
        obtain rfl | hb := List.mem_cons.mp he'
        case inl => exact reserved_key hr
        case inr =>
          cases hx : bind.value.isExpanding
          case true  => exact absurd (List.mem_flatMap.mpr ⟨bind, List.mem_filter.mpr ⟨hr, hx⟩, hb⟩) hu.right
          case false =>
            rw [BindPart.bound, BindPart.intended, BindValue.bound_of_not_isExpanding hx] at hb
            exact List.mem_singleton.mp hb ▸ reserved_key hr
    have hkey : key ∉ reservedBindNames := key_of_checkPredicate (hc predicate hp) _ hm
    obtain rfl | hin := List.mem_cons.mp hn
    case inl => exact hkey hr
    case inr =>
      obtain ⟨b, hb, rfl⟩ := List.mem_map.mp hin
      have hb : (b.fst, b.snd) ∈ value.bound key := hb
      cases hx : value.isExpanding
      case true  =>
        obtain ⟨s, hs⟩ := BindValue.name_of_isExpanding hx hb
        rw [hs] at hr
        exact append_not_reserved _ s hr
      case false =>
        rw [BindValue.bound_of_not_isExpanding hx, List.mem_singleton] at hb
        rw [(Prod.ext_iff.mp hb).left] at hr
        exact hkey hr

-- Two parts that have a name in common are of one kind.
theorem parts_agree {part part' : BindPart V} (hp : part ∈ query.statement sourceValues)
    (hp' : part' ∈ query.statement sourceValues) :
    (part.key = part'.key → part.intended resolved = part'.intended resolved) ∧
      ∀ {name v w}, (name, v) ∈ part.bound resolved → (name, w) ∈ part'.bound resolved → v = w := by
  have hname {part : BindPart V} {name : String} {v : BindValue V} (h : (name, v) ∈ part.bound resolved) :
      name ∈ part.names resolved := .tail _ <| List.mem_map.mpr ⟨_, h, rfl⟩
  have hkey {part : BindPart V} : part.key ∈ part.names resolved := .head _
  -- Parts of different kinds have no name in common.
  have hapart {part part' : BindPart V} (h : ∀ name ∈ part.names resolved, name ∉ part'.names resolved) :
      (part.key = part'.key → part.intended resolved = part'.intended resolved) ∧
        ∀ {name v w}, (name, v) ∈ part.bound resolved → (name, w) ∈ part'.bound resolved → v = w :=
    ⟨fun he => absurd (he ▸ hkey) (h _ hkey), fun hv hw => absurd (hname hw) (h _ (hname hv))⟩
  have hsymm {part part' : BindPart V} (h : ∀ name ∈ part.names resolved, name ∉ part'.names resolved) :
      ∀ name ∈ part'.names resolved, name ∉ part.names resolved := fun name hn hm => h name hm hn
  cases part with
  | engine bind =>
    cases part' with
    | engine bind' =>
      exact ⟨fun he => congrArg EngineBind.value (engine_consistent hp hp' he), engine_bound_agree hp hp'⟩
    | host host    => exact hapart (hsymm (engine_free hk hc hp hp'))
  | host host   =>
    cases part' with
    | engine bind' => exact hapart (engine_free hk hc hp' hp)
    | host host'   =>
      obtain ⟨predicate, hm, hl⟩ := host_mem.mp hp
      obtain ⟨other, ho, hl'⟩ := host_mem.mp hp'
      cases host with
      | literal key value required =>
        cases host' with
        | literal key' value' required' =>
          refine ⟨fun he => ?_, hk.bound hm ho hl hl'⟩
          obtain rfl : key = key' := he
          exact hk.key hm ho hl hl'
        | placeholder number'           => exact hapart (hk.placeholder hm ho hl hl')
      | placeholder number =>
        cases host' with
        | literal key' value' required' => exact hapart (hsymm (hk.placeholder ho hm hl' hl))
        | placeholder number'           =>
          refine ⟨fun he => ?_, fun hv hw => ?_⟩
          · have hn : (BindPart.host (.placeholder number) : BindPart V).key ∈
                (BindPart.host (.placeholder number')).names resolved := he ▸ hkey
            rw [placeholder_inj hkey hn]
          · obtain rfl := placeholder_inj (hname hv) (hname hw)
            exact BindValue.bound_inj hv hw

end Free

-- The check keeps predicates off the names that are reserved, and off no others.
theorem noCapture_iff (query : PgQuery C A V) (sourceValues : SourceValues) (resolved : Nat → BindValue V)
    (h : ∀ predicate ∈ query.predicates, checkPredicate (.element predicate) = .ok predicate) :
    NoCapture (query.statement sourceValues) resolved ↔ query.KeysFree sourceValues resolved := by
  constructor
  case mp  =>
    intro hn
    have hm {predicate : List (HostBind V)} (hp : predicate ∈ query.predicates) {host : HostBind V}
        (hl : host ∈ predicate) : .host host ∈ query.statement sourceValues := host_mem.mpr ⟨predicate, hp, hl⟩
    constructor
    case unchecked   =>
      intro predicate hp key value required hl name hname hu
      obtain hu | hu := List.mem_append.mp hu
      case inl =>
        obtain ⟨bind, hb, rfl⟩ := List.mem_map.mp hu
        exact hn.engine_ne (unreserved_mem hb (hm hp hl)) (hm hp hl) _ hname (.head _)
      case inr =>
        obtain ⟨bind, hb, hu⟩ := List.mem_flatMap.mp hu
        exact hn.engine_ne (reserved_mem (List.mem_of_mem_filter hb) (hm hp hl)) (hm hp hl) _ hname (.tail _ hu)
    case placeholder =>
      intro predicate hp other ho key value required hl number hq
      exact hn.placeholder_ne (hm hp hl) (hm ho hq)
    case key         =>
      intro predicate hp other ho key value required value' required' hl hl'
      exact Option.some.inj ((hn.value (hm hp hl)).symm.trans (hn.value (hm ho hl')))
    case bound       =>
      intro predicate hp other ho key value required key' value' required' hl hl' name v w hv hw
      exact Option.some.inj ((hn.executed (hm hp hl) _ hv).symm.trans (hn.executed (hm ho hl') _ hw))
  case mpr =>
    intro hk
    have hkey : ∀ part ∈ query.statement sourceValues, ∀ part' ∈ query.statement sourceValues, part.key = part'.key →
        part.intended resolved = part'.intended resolved := fun _ hp _ hp' => (parts_agree hk h hp hp').left
    constructor
    case engine_ne      => exact fun he hh => engine_free hk h he hh
    case placeholder_ne =>
      intro key value required number hl hp
      obtain ⟨predicate, hm, hl⟩ := host_mem.mp hl
      obtain ⟨other, ho, hp⟩ := host_mem.mp hp
      exact hk.placeholder hm ho hl hp
    case value          => exact fun hp => Statement.valueOf_eq hkey hp
    case executed       =>
      intro part hp
      exact Statement.executed_eq hkey (fun _ hp _ hp' _ _ _ hv hw => (parts_agree hk h hp hp').right hv hw) hp

end PgQuery

namespace Comments

-- The first two comments of a post, out of those that a bind of some name lets through.
def firstTwo (key : String) : PgQuery Column Empty Nat :=
  .page { toPgKeyed := byRank false, first := .literal (some 2), after := .literal none,
          last := .literal none, before := .literal none, needsTotal := false }
    [[.literal key (.value (some 1)) false]] [[some 7]] none none

def noSources : SourceValues := ⟨fun _ => none, fun _ => none⟩

def unresolved (_ : Nat) : BindValue Nat := .value none

theorem firstTwo_accepted {key : String} (h : key ∉ reservedBindNames) :
    ∀ predicate ∈ (firstTwo key).predicates, checkPredicate (.element predicate) = .ok predicate := by
  intro predicate hp
  obtain rfl := List.mem_singleton.mp hp
  simp [checkPredicate, checkBind, HostBind.key, HostBind.required, h]

-- The bind of a filter is given the size of the page.
theorem page_limit_captured :
    (∀ predicate ∈ (firstTwo "page_limit").predicates, checkPredicate (.element predicate) = .ok predicate) ∧
      ¬NoCapture ((firstTwo "page_limit").statement noSources) unresolved ∧
        Statement.executed ((firstTwo "page_limit").statement noSources) unresolved "page_limit" =
          some (.number (some 3)) := by
  refine ⟨firstTwo_accepted (by decide), fun h => ?_, rfl⟩
  have he : .engine ⟨"page_limit", .number (some 3), false⟩ ∈ (firstTwo "page_limit").statement noSources :=
    .tail _ <| .tail _ <| .head _
  exact h.engine_ne he (.tail _ <| .head _) "page_limit" (.head _) (.head _)

theorem rank_not_captured : NoCapture ((firstTwo "most_rank").statement noSources) unresolved := by
  refine (PgQuery.noCapture_iff (firstTwo "most_rank") noSources unresolved (firstTwo_accepted (by decide))).mpr ?_
  have hl {predicate : List (HostBind Nat)} (hp : predicate ∈ (firstTwo "most_rank").predicates) {host : HostBind Nat}
      (hh : host ∈ predicate) : host = .literal "most_rank" (.value (some 1)) false := by
    obtain rfl := List.mem_singleton.mp hp
    exact List.mem_singleton.mp hh
  constructor
  case unchecked   =>
    intro predicate hp key value required hm name hn
    obtain ⟨rfl, rfl, rfl⟩ := HostBind.literal.inj (hl hp hm)
    have hn : name ∈ ["most_rank", "most_rank"] := hn
    have hu : (firstTwo "most_rank").uncheckedNames noSources = ["page_limit"] := rfl
    rw [hu]
    intro he
    obtain rfl := List.mem_singleton.mp he
    exact absurd hn (by decide)
  case placeholder =>
    intro predicate hp other ho key value required hm number hn
    cases hl ho hn
  case key         =>
    intro predicate hp other ho key value required value' required' hm hm'
    rw [(HostBind.literal.inj (hl hp hm)).right.left, (HostBind.literal.inj (hl ho hm')).right.left]
  case bound       =>
    intro predicate hp other ho key value required key' value' required' hm hm' name v w hv hw
    obtain ⟨rfl, rfl, rfl⟩ := HostBind.literal.inj (hl hp hm)
    obtain ⟨rfl, rfl, rfl⟩ := HostBind.literal.inj (hl ho hm')
    exact BindValue.bound_inj hv hw

end Comments

end Grafast
