import Grafast.Pg.Inline

namespace Grafast.Inline

variable {V : Type} {plan : PlanView V} {parent : ParentSelect V} {select : RelationSelect V}
  {access child : PlanStep V} {consumer : Consumer V} {localPath usedAliases : List String}

-- An alias with a number tells both.
theorem numberedAlias_inj {ownAlias ownAlias' : String} {i j : Nat}
    (h : numberedAlias ownAlias i = numberedAlias ownAlias' j) : ownAlias = ownAlias' ∧ i = j := by
  have hlist := congrArg String.toList h
  have htext (s : String) (n : Nat) : (numberedAlias s n).toList = s.toList ++ '_' :: Nat.toDigits 10 n := by
    simp [numberedAlias]
  rw [htext, htext] at hlist
  -- digits have no underscore, so that the last underscore is where the number begins
  have hdigits {s t : List Char} {m n : Nat}
      (h : s ++ '_' :: Nat.toDigits 10 m = t ++ '_' :: Nat.toDigits 10 n) : ¬t.length < s.length := by
    intro hlt
    have hu := congrArg (·[s.length]?) h
    simp only [List.getElem?_append_right (Nat.le_refl _), Nat.sub_self, List.getElem?_cons_zero,
      List.getElem?_append_right (Nat.le_of_lt hlt)] at hu
    obtain ⟨k, hk⟩ : ∃ k, s.length - t.length = k + 1 := ⟨s.length - t.length - 1, by omega⟩
    rw [hk, List.getElem?_cons_succ] at hu
    exact Nat.underscore_not_in_toDigits (List.mem_of_getElem? hu.symm)
  have hlen : ownAlias.toList.length = ownAlias'.toList.length := by
    have := hdigits hlist
    have := hdigits hlist.symm
    omega
  obtain ⟨hs, hn⟩ := List.append_inj hlist hlen
  refine ⟨String.toList_injective hs, ?_⟩
  have := congrArg (Nat.ofDigitChars 10 · 0) (List.cons.inj hn).right
  simpa using this

theorem isComposite_of_foldedSelect (h : foldedSelect parent access child = some select) :
    select.isComposite = false := by
  unfold foldedSelect at h
  split at h
  case h_2 => cases h
  case h_1 s _ =>
    obtain ⟨hs, he⟩ := Option.ite_some_none_eq_some.mp h
    obtain rfl := he
    by_contra hc
    have hc : s.isComposite = true := by simpa using hc
    unfold skipReason at hs
    rw [if_pos hc] at hs
    split at hs <;> cases hs

theorem length_accessColumnPath (h : accessColumnPath access = some localPath) : localPath.length = 1 := by
  unfold accessColumnPath at h
  split at h
  case h_2 => cases h
  case h_1 path hasFallback _ =>
    by_cases hp : (path.length != 1 || hasFallback) = true
    case pos => rw [if_pos hp] at h; cases h
    case neg =>
      rw [if_neg hp] at h
      obtain rfl := Option.some.inj h
      grind

theorem length_localPath (h : consumer ∈ consumers plan parent) : consumer.localPath.length = 1 := by
  obtain ⟨access, _, h⟩ := List.mem_flatMap.mp h
  cases hp : accessColumnPath access
  case none      => rw [hp] at h; cases h
  case some path =>
    rw [hp] at h
    obtain ⟨child, _, rfl⟩ := List.mem_map.mp h
    exact length_accessColumnPath hp

theorem assertOrderTermsStored_of_select :
    assertOrderTermsStored select.resource select.orderBy = .ok () := by
  have hn : select.orderBy.find? (select.resource.computed.contains ·.column) = none := by
    rw [List.find?_eq_none]
    exact fun term ht hc => select.orderBy_stored term ht (List.contains_iff_mem.mp hc)
  rw [assertOrderTermsStored, hn]

-- A select that no condition skips is folded, under an alias that is not used if one can be had.
theorem inlineCandidateFor_folded (usedAliases : List String) (hp : localPath.length = 1)
    (h : foldedSelect parent access child = some select) :
    ∃ spec, inlineCandidateFor parent child access localPath usedAliases = .ok (some spec) ∧
      spec.nestedAlias = Naming.pick numberedAlias usedAliases
        (nestedAliasFor select.resource select.matchColumns) := by
  have hm : select.matchColumns.length = 1 := by
    have hc := isComposite_of_foldedSelect h
    have hn := List.length_pos_of_ne_nil select.matchColumns_ne
    rw [RelationSelect.isComposite, decide_eq_false_iff_not] at hc
    omega
  have he : localPath.isEmpty = false := by
    cases localPath
    case nil  => cases hp
    case cons => rfl
  have hs (nestedAlias : String) :
      (select.inlineSpec localPath nestedAlias).postInit = .ok (select.inlineSpec localPath nestedAlias) := by
    simp [InlineSpec.postInit, RelationSelect.inlineSpec, he, hp, hm]
  refine ⟨select.inlineSpec localPath (Naming.pick numberedAlias usedAliases
    (nestedAliasFor select.resource select.matchColumns)), ?_, rfl⟩
  rw [inlineCandidateFor, h]
  dsimp only
  rw [assertOrderTermsStored_of_select, hs]
  rfl

-- The aliases that folded consumers have on their own.
def ownAliasesOf (parent : ParentSelect V) (consumers : List (Consumer V)) : List String :=
  consumers.filterMap fun consumer =>
    (foldedSelect parent consumer.access consumer.child).map fun select =>
      nestedAliasFor select.resource select.matchColumns

-- Candidates get their aliases one after another.
theorem candidatesAmong_aliases {consumers : List (Consumer V)}
    (h : ∀ consumer ∈ consumers, consumer.localPath.length = 1) :
    ∃ candidates, candidatesAmong parent usedAliases consumers = .ok candidates ∧
      candidates.map (·.snd.nestedAlias) =
        Naming.pickAll numberedAlias usedAliases (ownAliasesOf parent consumers) := by
  induction consumers generalizing usedAliases
  case nil                         => exact ⟨[], rfl, rfl⟩
  case cons consumer consumers hi =>
    have hrest : ∀ consumer ∈ consumers, consumer.localPath.length = 1 := fun c hc => h c (.tail _ hc)
    rw [candidatesAmong]
    cases hf : foldedSelect parent consumer.access consumer.child
    case none        =>
      obtain ⟨candidates, hc, ha⟩ := @hi usedAliases hrest
      have hn : inlineCandidateFor parent consumer.child consumer.access consumer.localPath usedAliases =
          .ok none := by rw [inlineCandidateFor, hf]
      refine ⟨candidates, ?_, ?_⟩
      · rw [hn]; exact hc
      · rw [ha, ownAliasesOf, ownAliasesOf, List.filterMap_cons, hf]; rfl
    case some select =>
      obtain ⟨spec, hs, he⟩ :=
        inlineCandidateFor_folded usedAliases (h consumer (.head _)) hf
      obtain ⟨candidates, hc, ha⟩ := @hi (Naming.addUsed usedAliases spec.nestedAlias) hrest
      refine ⟨(consumer.child, spec) :: candidates, ?_, ?_⟩
      · rw [hs]
        change (do let rest ← candidatesAmong parent (Naming.addUsed usedAliases spec.nestedAlias) consumers
                   return (consumer.child, spec) :: rest) = _
        rw [hc]
        rfl
      · rw [List.map_cons, ha, ownAliasesOf, ownAliasesOf, List.filterMap_cons, hf]
        exact he ▸ rfl

-- The aliases of folded children are different from each other and from the names that the parent projects just
-- when none of their own aliases is projected, and none that is taken has a number with which it is projected or is
-- the own alias of a child before it.
theorem nestedAliases_distinct_iff (plan : PlanView V) (parent : ParentSelect V) (id : Nat) :
    ∃ candidates, findInlineCandidates plan parent = .ok candidates ∧
      (((foldInlineCandidates parent id candidates).snd.map (·.nestedAlias)).Nodup ∧
          (∀ extract ∈ (foldInlineCandidates parent id candidates).snd,
            extract.nestedAlias ∉ parent.projectedNames) ↔
        Naming.Free numberedAlias parent.projectedNames (ownAliases plan parent)) := by
  obtain ⟨candidates, hc, ha⟩ : ∃ candidates, findInlineCandidates plan parent = .ok candidates ∧
      candidates.map (·.snd.nestedAlias) =
        Naming.pickAll numberedAlias [] (ownAliases plan parent) := by
    rw [findInlineCandidates, ownAliases]
    split
    case isTrue  => exact candidatesAmong_aliases fun consumer hc => length_localPath hc
    case isFalse => exact ⟨[], rfl, rfl⟩
  refine ⟨candidates, hc, ?_⟩
  have he : (foldInlineCandidates parent id candidates).snd.map (·.nestedAlias) =
      Naming.pickAll numberedAlias [] (ownAliases plan parent) := by
    rw [foldInlineCandidates, List.map_map, ← ha]
    rfl
  rw [← Naming.pickAll_distinct_iff numberedAlias_inj, ← he, List.forall_mem_map]

namespace Messages

def declared (table : String) (columns : List String) : DeclaredResource Nat where
  schema        := "public"
  table         := table
  primaryKey    := "id"
  names         := columns.map .inl
  attributes _  := ⟨none, some .integer⟩
  expression _ _ := none
  columnTypes _ := none
  optOutInline  := false
  hasCustomizer := false
  columns       := columns
  computed      := []

def users (column : String) : RelationSelect Nat where
  resource        := declared "users" ["id", "id_2"]
  single          := true
  matchColumns    := [column]
  orderBy         := [.ascending "id"]
  first           := .literal none
  offset          := .literal (some 0)
  dedupable       := true
  wherePredicates := []
  matchColumns_ne := List.cons_ne_nil _ _
  orderBy_stored  := by simp [declared]

def messages : ParentSelect Nat where
  id          := 1
  resource    := declared "messages" ["id", "legacy_id", "sender_id", "receiver_id"]
  dedupable   := true
  inlineSpecs := []

-- Three columns of a message lead to a user: the first one by another key.
def view : PlanView Nat where
  inlineRelations := true
  dependentsOf
    | 1 => [⟨2, [1], .access ["legacy_id"] false⟩, ⟨3, [1], .access ["sender_id"] false⟩,
        ⟨4, [1], .access ["receiver_id"] false⟩]
    | 2 => [⟨5, [2], .select (users "id_2")⟩]
    | 3 => [⟨6, [3], .select (users "id")⟩]
    | 4 => [⟨7, [4], .select (users "id")⟩]
    | _ => []

-- The third child gets its own alias with the number 2, which is the own alias of the first one.
theorem messages_aliases :
    (findInlineCandidates view messages).toOption.map
        (fun candidates => (foldInlineCandidates messages 8 candidates).snd.map (·.nestedAlias)) =
      some ["__inline_users_id_2", "__inline_users_id", "__inline_users_id_2"] := by
  decide +kernel

theorem not_distinct :
    ¬∃ candidates, findInlineCandidates view messages = .ok candidates ∧
      ((foldInlineCandidates messages 8 candidates).snd.map (·.nestedAlias)).Nodup := by
  intro ⟨candidates, hc, hn⟩
  have ha := messages_aliases
  rw [hc] at ha
  have ha : (foldInlineCandidates messages 8 candidates).snd.map (·.nestedAlias) =
      ["__inline_users_id_2", "__inline_users_id", "__inline_users_id_2"] := Option.some.inj ha
  rw [ha] at hn
  exact absurd hn (by decide)

end Messages

end Grafast.Inline
