import Grafast.Incremental.Delivery

namespace Grafast

namespace Data

variable {V : Type}

@[simp]
theorem nullDepth_null (path : Path) : (null : Data V).nullDepth path = some 0 := by
  cases path <;> rfl

theorem nullDepth_nil {data : Data V} (h : data.isNull = false) : data.nullDepth [] = none := by
  cases data <;> first | rfl | cases h

theorem nullDepth_cons {data : Data V} (h : data.isNull = false) (key : PathKey) (path : Path) :
    data.nullDepth (key :: path) = (data.child key).bind fun node => (node.nullDepth path).map (· + 1) := by
  cases data <;> first | rfl | cases h

theorem eq_null {data : Data V} (h : data.isNull = true) : data = null := by
  cases data <;> first | rfl | cases h

-- A path meets the nulls of a longer path, up to its own end.
theorem nullDepth_isPrefix {short long : Path} (h : short <+: long) (data : Data V) (n : Nat) :
    data.nullDepth short = some n ↔ data.nullDepth long = some n ∧ n ≤ short.length := by
  induction short generalizing long data n with
  | nil =>
    cases hn : data.isNull with
    | true =>
      rw [eq_null hn]
      simp only [nullDepth_null, Option.some.injEq, List.length_nil]
      omega
    | false =>
      rw [nullDepth_nil hn]
      cases long with
      | nil           => simp [nullDepth_nil hn]
      | cons key path =>
        rw [nullDepth_cons hn]
        simp only [Option.bind_eq_some_iff, Option.map_eq_some_iff, List.length_nil, reduceCtorEq, false_iff]
        rintro ⟨⟨_, _, m, _, hm⟩, hle⟩
        omega
  | cons key path ih =>
    obtain ⟨rest, rfl⟩ := h
    cases hn : data.isNull with
    | true =>
      rw [eq_null hn]
      simp only [nullDepth_null, Option.some.injEq, List.length_cons]
      omega
    | false =>
      rw [List.cons_append, nullDepth_cons hn, nullDepth_cons hn]
      cases data.child key with
      | none      => simp
      | some node =>
        simp only [Option.bind_some, Option.map_eq_some_iff, List.length_cons,
          ih (List.prefix_append path rest)]
        constructor
        · rintro ⟨m, ⟨hm, hle⟩, rfl⟩
          exact ⟨⟨m, hm, rfl⟩, by omega⟩
        · rintro ⟨⟨m, hm, rfl⟩, hle⟩
          exact ⟨m, ⟨hm, by omega⟩, rfl⟩

theorem nulled_isPrefix {short long : Path} (h : short <+: long) {data : Data V}
    (hn : data.nulled short = true) : data.nulled long = true := by
  obtain ⟨n, hn⟩ := Option.isSome_iff_exists.mp hn
  exact Option.isSome_iff_exists.mpr ⟨n, ((nullDepth_isPrefix h data n).mp hn).1⟩

theorem get?_cons (data : Data V) (key : PathKey) (path : Path) :
    data.get? (key :: path) = (data.child key).bind (·.get? path) := by
  cases data <;> rfl

theorem get?_nil (data : Data V) : data.get? [] = some data := by
  cases data <;> rfl

theorem get?_append (data : Data V) (base path : Path) :
    data.get? (base ++ path) = (data.get? base).bind (·.get? path) := by
  induction base generalizing data with
  | nil           => simp [get?_nil]
  | cons key base ih =>
    rw [List.cons_append, get?_cons, get?_cons, Option.bind_assoc]
    congr
    funext node
    exact ih node

theorem isNull_of_child {data node : Data V} {key : PathKey} (h : data.child key = some node) :
    data.isNull = false := by
  cases data <;> first | rfl | cases h

-- Below something that is there only its own nulls are met.
theorem nulled_append {data node : Data V} {base : Path} (h : data.get? base = some node) (path : Path) :
    data.nulled (base ++ path) = node.nulled path := by
  induction base generalizing data with
  | nil =>
    obtain rfl : data = node := by simpa [get?_nil] using h
    rfl
  | cons key base ih =>
    rw [get?_cons] at h
    obtain ⟨below, hc, h⟩ := Option.bind_eq_some_iff.mp h
    rw [← ih h, nulled, nulled, List.cons_append, nullDepth_cons (isNull_of_child hc), hc]
    simp

theorem present_iff {data : Data V} {path : Path} :
    data.present path = true ↔ ∃ node, data.get? path = some node ∧ node.isNull = false := by
  simp [present, Option.any_eq_true]

theorem not_nulled_of_present {data : Data V} {path : Path} (h : data.present path = true) :
    data.nulled path = false := by
  obtain ⟨node, hg, hn⟩ := present_iff.mp h
  have := nulled_append hg []
  rw [List.append_nil] at this
  rw [this, nulled, nullDepth_nil hn]
  rfl

theorem present_of_not_nulled {data : Data V} {path : Path} (h : data.nulled path = false)
    (hg : (data.get? path).isSome) : data.present path = true := by
  obtain ⟨node, hg⟩ := Option.isSome_iff_exists.mp hg
  refine present_iff.mpr ⟨node, hg, ?_⟩
  have := nulled_append hg []
  rw [List.append_nil, h] at this
  cases node <;> first | rfl | cases this

theorem lookup_map_update (fields : List (String × Data V)) (k k' : String) (f : Data V → Data V) :
    (fields.map fun field => if field.1 = k then (field.1, f field.2) else field).lookup k' =
      if k' = k then (fields.lookup k').map f else fields.lookup k' := by
  induction fields with
  | nil => simp
  | cons field fields ih =>
    obtain ⟨name, node⟩ := field
    by_cases hk : name = k
    · by_cases hk' : k' = name
      · simp [hk', hk]
      · have hkk : ¬k' = k := hk ▸ hk'
        simpa [List.lookup_cons, hk, hkk, beq_false_of_ne hkk] using ih
    · by_cases hk' : k' = name
      · simp [hk', hk]
      · simpa [List.lookup_cons, hk, beq_false_of_ne hk'] using ih

theorem child_modify {data node : Data V} {key : PathKey} (h : data.child key = some node) (path : Path)
    (f : Data V → Data V) : (data.modify (key :: path) f).child key = some (node.modify path f) := by
  cases data with
  | null          => cases h
  | leaf _        => cases h
  | list items    =>
    cases key with
    | name _  => cases h
    | index i =>
      have hi : items[i]? = some node := h
      simp [modify, child, hi]
  | object fields =>
    cases key with
    | index _ => cases h
    | name k  =>
      have hk : fields.lookup k = some node := h
      rw [modify, child, lookup_map_update fields k k (·.modify path f), if_pos rfl, hk, Option.map_some]

theorem child_modify_ne {key other : PathKey} (h : other ≠ key) (data : Data V) (path : Path)
    (f : Data V → Data V) : (data.modify (key :: path) f).child other = data.child other := by
  cases data with
  | null          => cases key <;> rfl
  | leaf _        => cases key <;> rfl
  | list items    =>
    cases key with
    | name _  => rfl
    | index i =>
      cases other with
      | name _  => rfl
      | index j =>
        have hij : ¬ i = j := fun hij => h (by rw [hij])
        simp [modify, child, hij]
  | object fields =>
    cases key with
    | index _ => rfl
    | name k  =>
      cases other with
      | index _ => rfl
      | name k' =>
        have hkk : ¬ k' = k := fun hkk => h (by rw [hkk])
        rw [modify, child, lookup_map_update fields k k' (·.modify path f), if_neg hkk, child]

theorem isNull_modify (data : Data V) (key : PathKey) (path : Path) (f : Data V → Data V) :
    (data.modify (key :: path) f).isNull = data.isNull := by
  cases data <;> cases key <;> rfl

theorem get?_modify {data node : Data V} {base : Path} (h : data.get? base = some node)
    (f : Data V → Data V) : (data.modify base f).get? base = some (f node) := by
  induction base generalizing data with
  | nil =>
    obtain rfl : data = node := by simpa [get?_nil] using h
    rw [get?_nil]
    cases data <;> rfl
  | cons key base ih =>
    rw [get?_cons] at h
    obtain ⟨below, hc, h⟩ := Option.bind_eq_some_iff.mp h
    rw [get?_cons, child_modify hc]
    exact ih h

theorem present_cons (data : Data V) (key : PathKey) (path : Path) :
    data.present (key :: path) = (data.child key).any (·.present path) := by
  rw [present, get?_cons]
  cases data.child key <;> rfl

-- What was there before a change at a path is there after it, if the change itself takes nothing away.
theorem present_modify {f : Data V → Data V} (hf : ∀ data path, data.present path = true → (f data).present path = true)
    {data : Data V} {path : Path} (base : Path) (h : data.present path = true) :
    (data.modify base f).present path = true := by
  induction base generalizing data path with
  | nil           => cases data <;> exact hf _ _ h
  | cons key base ih =>
    cases path with
    | nil             =>
      rw [present, get?_nil] at h ⊢
      simpa [isNull_modify] using h
    | cons other path =>
      rw [present_cons] at h ⊢
      by_cases hk : other = key
      · subst hk
        obtain ⟨node, hc, hp⟩ := (Option.any_eq_true _ _).mp h
        rw [child_modify hc]
        exact ih hp
      · rwa [child_modify_ne hk]

theorem present_merge (output : List (String × Data V)) (data : Data V) (path : Path)
    (h : data.present path = true) : (merge output data).present path = true := by
  cases data with
  | null          => exact h
  | leaf _        => exact h
  | list _        => exact h
  | object fields =>
    cases path with
    | nil           => rfl
    | cons key path =>
      simp only [merge, present_cons] at h ⊢
      cases key with
      | index _ => exact h
      | name k  =>
        simp only [child, List.lookup_append] at h ⊢
        cases hk : fields.lookup k with
        | none      => rw [hk] at h; cases h
        | some node => rw [hk] at h; exact h

theorem present_append (item : Data V) (data : Data V) (path : Path)
    (h : data.present path = true) : (append item data).present path = true := by
  cases data with
  | null       => exact h
  | leaf _     => exact h
  | object _   => exact h
  | list items =>
    cases path with
    | nil           => rfl
    | cons key path =>
      simp only [append, present_cons] at h ⊢
      cases key with
      | name _  => exact h
      | index i =>
        simp only [child] at h ⊢
        cases hi : items[i]? with
        | none      => rw [hi] at h; cases h
        | some node =>
          rw [hi] at h
          rw [List.getElem?_append_left (List.getElem?_eq_some_iff.mp hi).1, hi]
          exact h

end Data

theorem pathNulledFrom_cons {V : Type} {data : Data V} (h : data.isNull = false) (key : PathKey) (path : Path) :
    pathNulledFrom data (key :: path) = (data.child key).any (pathNulledFrom · path) := by
  cases data with
  | null => cases h
  | leaf value =>
    simp only [pathNulledFrom]
    cases (Data.leaf value).child key <;> rfl
  | list items =>
    simp only [pathNulledFrom]
    cases (Data.list items).child key <;> rfl
  | object fields =>
    simp only [pathNulledFrom]
    cases (Data.object fields).child key <;> rfl

theorem pathNulledFrom_eq {V : Type} (data : Data V) (path : Path) : pathNulledFrom data path = data.nulled path := by
  induction path generalizing data with
  | nil           => cases data <;> rfl
  | cons key path ih =>
    cases hn : data.isNull with
    | true  => rw [Data.eq_null hn]; rfl
    | false =>
      rw [pathNulledFrom_cons hn, Data.nulled, Data.nullDepth_cons hn]
      cases data.child key with
      | none      => rfl
      | some node => simpa [Data.nulled] using ih node

-- The search goes as far as the object that a path ends in, but not to the end of the path itself.
theorem pathNulled_iff {V : Type} (data : Data V) (path : Path) :
    pathNulled data path = true ↔ ∃ n, data.nullDepth path = some n ∧ n < path.length := by
  rw [pathNulled, pathNulledFrom_eq, Bool.and_eq_true, Data.nulled, Option.isSome_iff_exists]
  simp only [Data.nullDepth_isPrefix (List.dropLast_prefix path), List.length_dropLast, Bool.not_eq_true',
    List.isEmpty_eq_false_iff]
  constructor
  · rintro ⟨⟨n, hn, hle⟩, hne⟩
    have := List.length_pos_iff.mpr hne
    exact ⟨n, hn, by omega⟩
  · rintro ⟨n, hn, hlt⟩
    exact ⟨⟨n, hn, by omega⟩, List.length_pos_iff.mp (by omega)⟩

end Grafast
