import Grafast.Step.Run
import Mathlib.Data.List.Nodup

namespace Grafast

variable {V E X : Type} {isAwaitable : V → Bool}

-- The column of a function of single entries and their places.
def entrywise (fn : Nat → List V → V) (count : Nat) (cols : List (List V)) : List V :=
  (List.range count).map fun i => fn i (row cols i)

section

variable {fn : Nat → List V → V} {count : Nat} {cols : List (List V)}

@[simp]
theorem entrywise_length : (entrywise fn count cols).length = count := by
  simp [entrywise]

theorem entrywise_getElem? {i : Nat} (h : i < count) : (entrywise fn count cols)[i]? = some (fn i (row cols i)) := by
  simp [entrywise, h]

theorem entrywise_one : entrywise fn 1 cols = [fn 0 (row cols 0)] := by
  simp [entrywise, List.range_succ]

end

-- What the extra of a bucket is for its entries, and which entries it covers.
structure EntryExtras (X Y : Type) where
  entry  : X → Nat → Y
  covers : X → Nat → Prop
  mono   : ∀ {x m n}, m ≤ n → covers x n → covers x m

-- An extra that is the same for all entries.
def EntryExtras.whole (X : Type) : EntryExtras X X where
  entry x _  := x
  covers _ _ := True
  mono _ _   := trivial

-- A step whose columns are computed entry by entry, be it synchronously or behind an awaitable. A unary step
-- does not depend on the place of an entry. The last field is the contract of `isSyncAndSafe`: the column holds
-- concrete values.
structure EntryStep (V E : Type) {X Y : Type} (extras : EntryExtras X Y) (isAwaitable : V → Bool)
    extends Step V E X where
  fn         : Option Y → List V → V
  execute_eq : ∀ count cols x, (∀ col ∈ cols, col.length = count) → (∀ e, x = some e → extras.covers e count) →
    execute count cols x = .column (entrywise (fun i => fn (x.map (extras.entry · i))) count cols) ∨
    execute count cols x = .awaitable (.ok (entrywise (fun i => fn (x.map (extras.entry · i))) count cols))
  placeless  : isUnary = true → ∀ (x : Option X) i vs,
    fn (x.map (extras.entry · i)) vs = fn (x.map (extras.entry · 0)) vs
  concrete   : isSyncAndSafe = true → ∀ y vs, isAwaitable (fn y vs) = false

-- A step that gives each entry what its function makes of the values of its dependencies there.
abbrev PointwiseStep (V E X : Type) (isAwaitable : V → Bool) :=
  EntryStep V E (.whole X) isAwaitable

variable {Y : Type} {extras : EntryExtras X Y}

-- The value of a step for one entry of a bucket, given those of its dependencies.
def EntryStep.value (s : EntryStep V E extras isAwaitable) (extra : Option Y) (env : Nat → Option V) : V :=
  s.fn (if s.wantsExtra then extra else none) (s.dependencies.filterMap env)

-- The naive evaluation of a list of steps for one entry of the bucket.
def evaluate (extra : Option Y) :
    List (EntryStep V E extras isAwaitable) → (Nat → Option V) → Nat → Option V
  | [], env      => env
  | s :: ss, env => evaluate extra ss <| Function.update env s.id <| some <| s.value extra env

theorem evaluate_append (extra : Option Y) (ss ss' : List (EntryStep V E extras isAwaitable))
    (env : Nat → Option V) :
    evaluate extra (ss ++ ss') env = evaluate extra ss' (evaluate extra ss env) := by
  induction ss generalizing env
  case nil          => rfl
  case cons s ss hi => exact hi _

-- What `runSteps` requires of its arguments.
structure Schedule (count : Nat) (seed : Store V) (steps : List (EntryStep V E extras isAwaitable)) :
    Prop where
  count_pos   : 0 < count
  seed_length : ∀ id col, seed id = some col → col.length = count
  ids_nodup   : (steps.map (·.id)).Nodup
  unseeded    : ∀ s ∈ steps, seed s.id = none
  ordered     : ∀ a s b, steps = a ++ s :: b → ∀ d ∈ s.dependencies,
    (seed d).isSome ∨ d ∈ a.map (·.id)

namespace bucketUnariness

variable {seeded u : Nat → Bool} {steps : List (Step V E X)} {s : Step V E X} {d : Nat}

theorem go_of_not_mem (h : d ∉ steps.map (·.id)) : go seeded u steps d = u d := by
  induction steps generalizing u
  case nil => rfl
  case cons s ss hi =>
    simp only [List.map_cons, List.mem_cons, not_or] at h
    simp [go, hi h.right, h.left]

structure Shared (seeded unaryHere : Nat → Bool) (s : Step V E X) : Prop where
  sync     : s.isSyncAndSafe = true
  unary    : ∀ d ∈ s.dependencies, unaryHere d = true
  unseeded : ∀ d ∈ s.dependencies, seeded d = false

theorem go_shared (hn : (steps.map (·.id)).Nodup) (hu : ∀ d, u d = true → d ∉ steps.map (·.id))
    (hs : s ∈ steps) (h : go seeded u steps s.id = true) :
    Shared seeded (go seeded u steps) s := by
  induction steps generalizing u
  case nil => contradiction
  case cons t ss hi =>
    have ⟨ht, hn'⟩ := List.nodup_cons.mp hn
    cases List.mem_cons.mp hs
    case inl he =>
      subst he
      simp only [go, go_of_not_mem ht, Function.update_self, Bool.and_eq_true, List.all_eq_true,
        Bool.not_eq_true'] at h
      refine ⟨h.left.right, fun d hd => ?_, fun d hd => (h.right d hd).left⟩
      have hd' := (h.right d hd).right
      have hm := hu d hd'
      simp only [List.map_cons, List.mem_cons, not_or] at hm
      simp [go, go_of_not_mem hm.right, hm.left, hd']
    case inr hs =>
      refine hi hn' (fun d hd => ?_) hs h
      by_cases he : d = t.id
      · exact he ▸ ht
      · have := hu d (by simpa [he] using hd)
        simp_all

end bucketUnariness

theorem bucketUnariness_shared {steps : List (Step V E X)} {seeded : Nat → Bool} {count : Nat}
    {s : Step V E X} (hn : (steps.map (·.id)).Nodup) (hs : s ∈ steps)
    (h : bucketUnariness steps seeded count s.id = true) :
    bucketUnariness.Shared seeded (bucketUnariness steps seeded count) s := by
  unfold bucketUnariness at h ⊢
  split at h <;> rename_i hc <;> simp only [hc, if_false, Bool.false_eq_true] at h ⊢
  exact bucketUnariness.go_shared hn (by simp) hs h

theorem bucketUnariness.go_isUnary {steps : List (Step V E X)} {seeded u : Nat → Bool} {s : Step V E X}
    (hn : (steps.map (·.id)).Nodup) (hs : s ∈ steps) (h : go seeded u steps s.id = true) : s.isUnary = true := by
  induction steps generalizing u
  case nil => cases hs
  case cons t ss hi =>
    have ⟨ht, hn⟩ := List.nodup_cons.mp hn
    cases hs with
    | tail _ hs => exact hi hn hs h
    | head      =>
      rw [go, go_of_not_mem ht, Function.update_self, Bool.and_eq_true, Bool.and_eq_true] at h
      exact h.left.left

-- Only unary steps are run once.
theorem bucketUnariness_isUnary {steps : List (Step V E X)} {seeded : Nat → Bool} {count : Nat} {s : Step V E X}
    (hn : (steps.map (·.id)).Nodup) (hs : s ∈ steps) (h : bucketUnariness steps seeded count s.id = true) :
    s.isUnary = true := by
  rw [bucketUnariness] at h
  split at h
  case isTrue  => exact absurd h Bool.false_ne_true
  case isFalse => exact bucketUnariness.go_isUnary hn hs h

theorem mapM_ok {A B C : Type} {f : A → Except C B} {g : A → B} {l : List A}
    (h : ∀ a ∈ l, f a = .ok (g a)) : l.mapM f = .ok (l.map g) := by
  induction l
  case nil => rfl
  case cons a l hi =>
    simp only [List.mem_cons, forall_eq_or_imp] at h
    simp only [List.mapM_cons, h.left, hi h.right, List.map_cons]
    rfl

section

variable {results : Store V} {s : Step V E X} {i count : Nat}

theorem gatherCols_batch (h : ∀ d ∈ s.dependencies, (results d).isSome) :
    gatherCols (E := E) results s false = .ok (s.dependencies.map fun d => (results d).getD []) := by
  apply mapM_ok
  intro d hd
  have ⟨col, hc⟩ := Option.isSome_iff_exists.mp (h d hd)
  simp [gatherCol, hc]

theorem gatherCols_unary (h : ∀ d ∈ s.dependencies, ∃ v vs, results d = some (v :: vs)) :
    gatherCols (E := E) results s true =
      .ok (s.dependencies.map fun d => ((results d).getD []).take 1) := by
  apply mapM_ok
  intro d hd
  have ⟨v, vs, hc⟩ := h d hd
  simp [gatherCol, hc]

theorem row_batch (ds : List Nat) :
    row (ds.map fun d => (results d).getD []) i = ds.filterMap (results.entry i) := by
  simp only [row, List.filterMap_map]
  congr 1
  funext d
  cases h : results d <;> simp [Store.entry, h]

theorem row_unary (ds : List Nat) :
    row (ds.map fun d => ((results d).getD []).take 1) 0 = ds.filterMap (results.entry 0) := by
  simp only [row, List.filterMap_map]
  congr 1
  funext d
  cases h : results d
  case none       => simp [Store.entry, h]
  case some col => cases col <;> simp [Store.entry, h]

end

-- The state of a run once the steps `done` have been executed.
structure RunInv (b : Bucket V E X) (seed : Store V)
    (done : List (EntryStep V E extras isAwaitable)) (s : RunState V X) : Prop where
  length : ∀ id col, s.results id = some col → col.length = b.count
  stored : ∀ id, (s.results id).isSome ↔ (seed id).isSome ∨ id ∈ done.map (·.id)
  value  : ∀ i < b.count, ∀ id,
    s.results.entry i id = evaluate (b.extra.map (extras.entry · i)) done (seed.entry i) id
  unary  : ∀ t ∈ done, b.unaryHere t.id = true → ∀ i < b.count,
    s.results.entry i t.id = s.results.entry 0 t.id
  log    : s.log.map (·.step) = done.map (·.id)

namespace Bucket

variable {b : Bucket V E X} {step : Step V E X} {s : RunState V X}

theorem stepCount_batch (h : b.unaryHere step.id = false) : b.stepCount step = b.count := by
  simp [stepCount, h]

theorem stepCount_unary (h : b.unaryHere step.id = true) : b.stepCount step = 1 := by
  simp [stepCount, h]

theorem call_of_gatherCols {cols : List (List V)}
    (h : gatherCols s.results step (b.unaryHere step.id) = .ok cols) :
    b.call step s = .ok
      (⟨s.results, s.log ++ [⟨step.id, b.stepCount step, cols, b.extraFor step⟩]⟩,
        step.execute (b.stepCount step) cols (b.extraFor step)) := by
  simp only [call, h]
  rfl

theorem record_batch {out : List V} (hu : b.unaryHere step.id = false) (h : out.length = b.count) :
    b.record step s out = .ok { s with results := s.results.insert step.id out } := by
  simp [record, storeColumn, hu, h]

theorem record_unary {v : V} (hu : b.unaryHere step.id = true) (h : b.isAwaitable v = false) :
    b.record step s [v] =
      .ok { s with results := s.results.insert step.id (List.replicate b.count v) } := by
  simp [record, storeColumn, hu, h]

variable {s₁ s₂ : RunState V X} {col : List V} {steps : List (Step V E X)}

theorem go_cons_async
    (hc : b.call step s = .ok (s₁, .column col) ∨ b.call step s = .ok (s₁, .awaitable (.ok col)))
    (hr : b.record step s₁ col = .ok s₂) :
    runStepsAsync.go b (step :: steps) s = runStepsAsync.go b steps s₂ := by
  cases hc
  all_goals simp [runStepsAsync.go, *, awaited, bind, Except.bind]

theorem go_cons_column (hc : b.call step s = .ok (s₁, .column col))
    (hr : b.record step s₁ col = .ok s₂) :
    runSteps.go b (step :: steps) s = runSteps.go b steps s₂ := by
  simp [runSteps.go, hc, hr, bind, Except.bind]

theorem go_cons_awaitable (hc : b.call step s = .ok (s₁, .awaitable (.ok col)))
    (hr : b.record step s₁ col = .ok s₂) :
    runSteps.go b (step :: steps) s = .ok (.coroutine (runStepsAsync.go b steps s₂)) := by
  simp [runSteps.go, runStepsAsync, hc, hr, awaited, bind, Except.bind]

end Bucket

namespace Schedule

variable {count : Nat} {seed : Store V} {steps done rest : List (EntryStep V E extras isAwaitable)}
  {step : EntryStep V E extras isAwaitable} {extra : Option X} {s : RunState V X}

-- The bucket that `runSteps` sets up for a list of steps.
def bucket (count : Nat) (seed : Store V) (steps : List (EntryStep V E extras isAwaitable))
    (extra : Option X) : Bucket V E X where
  count       := count
  unaryHere   := bucketUnariness (steps.map (·.toStep)) (fun id => (seed id).isSome) count
  isAwaitable := isAwaitable
  extra       := extra

theorem ids_map_toStep :
    (steps.map (·.toStep)).map (·.id) = steps.map (·.id) := by
  simp

theorem shared (S : Schedule count seed steps) (hs : step ∈ steps)
    (h : (bucket count seed steps extra).unaryHere step.id = true) :
    bucketUnariness.Shared (fun id => (seed id).isSome) (bucket count seed steps extra).unaryHere
      step.toStep :=
  bucketUnariness_shared (ids_map_toStep ▸ S.ids_nodup) (List.mem_map_of_mem hs) h

theorem dependency_stored (S : Schedule count seed steps) (he : steps = done ++ step :: rest)
    (hi : RunInv (bucket count seed steps extra) seed done s) :
    ∀ d ∈ step.dependencies, (s.results d).isSome :=
  fun d hd => (hi.stored d).mpr (S.ordered done step rest he d hd)

-- The dependencies of a step that is run once are run once themselves.
theorem dependency_unary (S : Schedule count seed steps) (he : steps = done ++ step :: rest)
    (hi : RunInv (bucket count seed steps extra) seed done s)
    (hu : (bucket count seed steps extra).unaryHere step.id = true) :
    ∀ d ∈ step.dependencies, ∀ i < count, s.results.entry i d = s.results.entry 0 d := by
  intro d hd
  have sh := S.shared (by simp [he]) hu
  have hs := sh.unseeded d hd
  cases S.ordered done step rest he d hd
  case inl h => simp [hs] at h
  case inr h =>
    have ⟨t, ht, htd⟩ := List.mem_map.mp h
    exact htd ▸ hi.unary t ht (htd ▸ sh.unary d hd)

theorem call_ok (S : Schedule count seed steps) (he : steps = done ++ step :: rest)
    (hi : RunInv (bucket count seed steps extra) seed done s) :
    ∃ log cols,
      (bucket count seed steps extra).call step.toStep s = .ok (⟨s.results, log⟩,
        step.execute ((bucket count seed steps extra).stepCount step.toStep) cols
          (if step.wantsExtra then extra else none)) ∧
      (∀ col ∈ cols, col.length = (bucket count seed steps extra).stepCount step.toStep) ∧
      (∀ i, i < (bucket count seed steps extra).stepCount step.toStep →
        row cols i = step.dependencies.filterMap (s.results.entry i)) ∧
      log.map (·.step) = (done ++ [step]).map (·.id) := by
  have hs := S.dependency_stored he hi
  have hl : ∀ d ∈ step.dependencies, ((s.results d).getD []).length = count := by
    intro d hd
    have ⟨col, hc⟩ := Option.isSome_iff_exists.mp (hs d hd)
    simpa [hc, bucket] using hi.length d col hc
  cases hu : (bucket count seed steps extra).unaryHere step.id
  case false =>
    refine ⟨_, _, Bucket.call_of_gatherCols (by rw [hu]; exact gatherCols_batch hs), ?_, ?_, ?_⟩
    · rw [Bucket.stepCount_batch hu]
      simp only [List.mem_map, forall_exists_index, and_imp, forall_apply_eq_imp_iff₂]
      exact hl
    · exact fun i _ => row_batch _
    · simp [hi.log]
  case true =>
    have hc : ∀ d ∈ step.dependencies, ∃ v vs, s.results d = some (v :: vs) := by
      intro d hd
      have ⟨col, hc⟩ := Option.isSome_iff_exists.mp (hs d hd)
      have := hl d hd
      have := S.count_pos
      cases col <;> simp_all
    refine ⟨_, _, Bucket.call_of_gatherCols (by rw [hu]; exact gatherCols_unary hc), ?_, ?_, ?_⟩
    · simp only [Bucket.stepCount_unary hu, List.mem_map, forall_exists_index, and_imp]
      rintro _ d hd rfl
      have ⟨v, vs, hc⟩ := hc d hd
      simp [hc]
    · intro i h
      simp only [Bucket.stepCount_unary hu, Nat.lt_one_iff] at h
      exact h ▸ row_unary _
    · simp [hi.log]

-- What a column that holds the values of `step` at every entry does to the invariant.
theorem runInv_insert
    (hi : RunInv (bucket count seed steps extra) seed done s) {col : List V}
    {log : List (Execution V X)} (hl : col.length = count)
    (hv : ∀ i < count, col[i]? = some (step.value (extra.map (extras.entry · i)) (s.results.entry i)))
    (hu : (bucket count seed steps extra).unaryHere step.id = true →
      ∀ i < count, col[i]? = col[0]?)
    (hlog : log.map (·.step) = (done ++ [step]).map (·.id)) :
    RunInv (bucket count seed steps extra) seed (done ++ [step])
      ⟨s.results.insert step.id col, log⟩ where
  length id c hc := by
    by_cases h : id = step.id
    case pos =>
      subst h
      simp only [Store.insert_self, Option.some.injEq] at hc
      exact hc ▸ hl
    case neg => exact hi.length id c (by simpa [Store.insert_of_ne h] using hc)
  stored id := by
    by_cases h : id = step.id
    case pos => simp [h]
    case neg => simp [Store.insert_of_ne h, hi.stored, h]
  value i hlt id := by
    have hd : evaluate (extra.map (extras.entry · i)) done (seed.entry i) = s.results.entry i :=
      funext fun d => (hi.value i hlt d).symm
    simp only [bucket, evaluate_append, evaluate, hd]
    by_cases h : id = step.id
    case pos => simp [h, hv i hlt]
    case neg => simp [Store.entry_insert_of_ne h, h]
  unary t ht h i hlt := by
    by_cases hid : t.id = step.id
    case pos => simpa [hid] using hu (hid ▸ h) i hlt
    case neg =>
      have ht : t ∈ done := by
        cases List.mem_append.mp ht
        case inl ht => exact ht
        case inr ht => exact absurd (congrArg (·.id) (List.mem_singleton.mp ht)) hid
      simpa [Store.entry_insert_of_ne hid] using hi.unary t ht h i hlt
  log := hlog

theorem record_ok (S : Schedule count seed steps) (he : steps = done ++ step :: rest)
    (hi : RunInv (bucket count seed steps extra) seed done s) {cols : List (List V)}
    {log : List (Execution V X)}
    (hr : ∀ i, i < (bucket count seed steps extra).stepCount step.toStep →
      row cols i = step.dependencies.filterMap (s.results.entry i))
    (hlog : log.map (·.step) = (done ++ [step]).map (·.id)) :
    ∃ s', (bucket count seed steps extra).record step.toStep ⟨s.results, log⟩
        (entrywise (fun i => step.fn ((if step.wantsExtra then extra else none).map (extras.entry · i)))
          ((bucket count seed steps extra).stepCount step.toStep) cols) = .ok s' ∧
      RunInv (bucket count seed steps extra) seed (done ++ [step]) s' := by
  have hx (i : Nat) : (if step.wantsExtra then extra else none).map (extras.entry · i) =
      if step.wantsExtra then extra.map (extras.entry · i) else none := by
    cases step.wantsExtra <;> rfl
  cases hu : (bucket count seed steps extra).unaryHere step.id
  case false =>
    simp only [Bucket.stepCount_batch hu] at hr ⊢
    refine ⟨_, Bucket.record_batch hu entrywise_length, ?_⟩
    refine runInv_insert hi entrywise_length (fun i hlt => ?_) (by simp [hu]) hlog
    rw [entrywise_getElem? (show i < (bucket count seed steps extra).count from hlt), hr i hlt, hx, EntryStep.value]
  case true =>
    simp only [Bucket.stepCount_unary hu, Nat.lt_one_iff, forall_eq] at hr
    have hm : step ∈ steps := by simp [he]
    have hc := step.concrete (S.shared hm hu).sync
    have hd : ∀ i < count, step.dependencies.filterMap (s.results.entry i) =
        step.dependencies.filterMap (s.results.entry 0) := fun i hlt =>
      List.filterMap_congr fun d hd => S.dependency_unary he hi hu d hd i hlt
    have hp := step.placeless (bucketUnariness_isUnary (ids_map_toStep ▸ S.ids_nodup) (List.mem_map_of_mem hm) hu)
      (if step.wantsExtra then extra else none)
    rw [Bucket.stepCount_unary hu, entrywise_one]
    refine ⟨_, Bucket.record_unary hu (hc _ _), ?_⟩
    refine runInv_insert hi (by simp [bucket]) (fun i hlt => ?_) (fun _ i hlt => ?_) hlog
    · rw [List.getElem?_replicate_of_lt (show i < (bucket count seed steps extra).count from hlt), hr, ← hd i hlt,
        ← hp i, hx, EntryStep.value]
    · simp [bucket, hlt, S.count_pos]

-- One step of either loop.
theorem step_ok (S : Schedule count seed steps) (hx : ∀ e, extra = some e → extras.covers e count)
    (he : steps = done ++ step :: rest) (hi : RunInv (bucket count seed steps extra) seed done s) :
    ∃ s₁ s₂ col,
      ((bucket count seed steps extra).call step.toStep s = .ok (s₁, .column col) ∨
        (bucket count seed steps extra).call step.toStep s = .ok (s₁, .awaitable (.ok col))) ∧
      (bucket count seed steps extra).record step.toStep s₁ col = .ok s₂ ∧
      RunInv (bucket count seed steps extra) seed (done ++ [step]) s₂ := by
  have ⟨log, cols, hc, hl, hr, hlog⟩ := S.call_ok he hi
  have ⟨s₂, hs₂, hi₂⟩ := S.record_ok he hi hr hlog
  have hcount : (bucket count seed steps extra).stepCount step.toStep ≤ count := by
    rw [Bucket.stepCount]
    split
    case isTrue  => exact S.count_pos
    case isFalse => exact Nat.le_refl _
  have hcovers : ∀ e, (if step.wantsExtra then extra else none) = some e →
      extras.covers e ((bucket count seed steps extra).stepCount step.toStep) := by
    intro e hs
    split at hs
    case isTrue  => exact extras.mono hcount (hx e hs)
    case isFalse => cases hs
  refine ⟨_, s₂, _, ?_, hs₂, hi₂⟩
  cases step.execute_eq _ cols _ hl hcovers
  case inl h => exact .inl (h ▸ hc)
  case inr h => exact .inr (h ▸ hc)

theorem runStepsAsync_ok (S : Schedule count seed steps) (hx : ∀ e, extra = some e → extras.covers e count)
    (he : steps = done ++ rest) (hi : RunInv (bucket count seed steps extra) seed done s) :
    ∃ s', Bucket.runStepsAsync.go (bucket count seed steps extra) (rest.map (·.toStep)) s = .ok s' ∧
      RunInv (bucket count seed steps extra) seed steps s' := by
  induction rest generalizing done s
  case nil => exact ⟨s, rfl, by simpa [he] using hi⟩
  case cons step rest ih =>
    have ⟨s₁, s₂, col, hc, hr, hi₂⟩ := S.step_ok hx he hi
    have ⟨s', hs', hi'⟩ := ih (by simp [he]) hi₂
    exact ⟨s', (Bucket.go_cons_async hc hr).trans hs', hi'⟩

theorem runSteps_go_ok (S : Schedule count seed steps) (hx : ∀ e, extra = some e → extras.covers e count)
    (he : steps = done ++ rest) (hi : RunInv (bucket count seed steps extra) seed done s) :
    ∃ r s', runSteps.go (bucket count seed steps extra) (rest.map (·.toStep)) s = .ok r ∧
      r.resolve = .ok s' ∧ RunInv (bucket count seed steps extra) seed steps s' := by
  induction rest generalizing done s
  case nil => exact ⟨.results s, s, rfl, rfl, by simpa [he] using hi⟩
  case cons step rest ih =>
    have ⟨s₁, s₂, col, hc, hr, hi₂⟩ := S.step_ok hx he hi
    cases hc
    case inl hc =>
      have ⟨r, s', hg, hs', hi'⟩ := ih (by simp [he]) hi₂
      exact ⟨r, s', (Bucket.go_cons_column hc hr).trans hg, hs', hi'⟩
    case inr hc =>
      -- The remaining steps are executed by the coroutine.
      have he' : steps = (done ++ [step]) ++ rest := by simp [he]
      have ⟨s', hs', hi'⟩ := S.runStepsAsync_ok hx he' hi₂
      exact ⟨_, s', Bucket.go_cons_awaitable hc hr, hs', hi'⟩

theorem runInv_init (S : Schedule count seed steps) :
    RunInv (bucket count seed steps extra) seed ([] : List (EntryStep V E extras isAwaitable))
      ⟨seed, []⟩ where
  length := S.seed_length
  stored := by simp
  value  := by simp [evaluate]
  unary  := by simp
  log    := rfl

-- A run computes every step for every entry as the naive evaluation does, whatever the other entries are.
theorem runSteps_ok (S : Schedule count seed steps) (extra : Option X)
    (hx : ∀ e, extra = some e → extras.covers e count) :
    ∃ r s, runSteps count (steps.map (·.toStep)) isAwaitable seed extra = .ok r ∧
      r.resolve = .ok s ∧ RunInv (bucket count seed steps extra) seed steps s :=
  S.runSteps_go_ok hx (List.nil_append _).symm S.runInv_init

end Schedule

namespace PointwiseStep

-- The step that computes the same values in one synchronous call.
def sync (s : PointwiseStep V E X isAwaitable) : PointwiseStep V E X isAwaitable where
  toStep     := { s.toStep with execute := fun n cols x => .column (pointwise (s.fn x) n cols) }
  fn         := s.fn
  execute_eq _ _ x _ _ := by
    cases x <;> exact .inl rfl
  placeless  := s.placeless
  concrete   := s.concrete

@[simp]
theorem sync_id (s : PointwiseStep V E X isAwaitable) : s.sync.id = s.id :=
  rfl

@[simp]
theorem sync_dependencies (s : PointwiseStep V E X isAwaitable) :
    s.sync.dependencies = s.dependencies :=
  rfl

end PointwiseStep

variable {count : Nat} {seed : Store V} {steps : List (PointwiseStep V E X isAwaitable)}

theorem evaluate_sync (extra : Option X) (env : Nat → Option V) :
    evaluate extra (steps.map PointwiseStep.sync) env = evaluate extra steps env := by
  induction steps generalizing env
  case nil          => rfl
  case cons s ss hi => exact hi _

theorem Schedule.sync (S : Schedule count seed steps) : Schedule count seed (steps.map PointwiseStep.sync) where
  count_pos   := S.count_pos
  seed_length := S.seed_length
  ids_nodup   := by simpa [Function.comp_def] using S.ids_nodup
  unseeded    := by simpa using S.unseeded
  ordered a s b h := by
    have ⟨a', l, hs, ha, hl⟩ := List.map_eq_append_iff.mp h
    have ⟨s', b', hl', hs', hb⟩ := List.map_eq_cons_iff.mp hl
    subst ha hs'
    simpa [Function.comp_def] using S.ordered a' s' b' (hl' ▸ hs)

theorem runSteps_go_results {b : Bucket V E X} {steps : List (Step V E X)} {s : RunState V X}
    {r : Running V E X} (hs : ∀ t ∈ steps, ∀ n cols x, ∃ col, t.execute n cols x = .column col)
    (hr : runSteps.go b steps s = .ok r) : ∃ s', r = .results s' := by
  induction steps generalizing s
  case nil => exact ⟨s, (Except.ok.inj hr).symm⟩
  case cons t ts hi =>
    simp only [List.mem_cons, forall_eq_or_imp] at hs
    cases hg : gatherCols (E := E) s.results t (b.unaryHere t.id)
    case error e => simp [runSteps.go, Bucket.call, hg, bind, Except.bind] at hr
    case ok cols =>
      have ⟨col, hc⟩ := hs.left (b.stepCount t) cols (b.extraFor t)
      simp only [runSteps.go, Bucket.call_of_gatherCols hg, hc, bind, Except.bind] at hr
      split at hr
      · contradiction
      · exact hi hs.right hr

theorem RunInv.whole_value {b : Bucket V E X} {done : List (PointwiseStep V E X isAwaitable)} {s : RunState V X}
    (hi : RunInv b seed done s) {i : Nat} (hlt : i < b.count) (id : Nat) :
    s.results.entry i id = evaluate b.extra done (seed.entry i) id := by
  have hx : b.extra.map ((EntryExtras.whole X).entry · i) = b.extra := Option.map_id'
  rw [hi.value i hlt, hx]

-- A store is determined by its entries, given which columns it holds.
theorem RunInv.results_eq {b b' : Bucket V E X} {done done' : List (PointwiseStep V E X isAwaitable)}
    {s s' : RunState V X} (hi : RunInv b seed done s) (hi' : RunInv b' seed done' s')
    (hb : b'.count = b.count) (hx : b'.extra = b.extra)
    (hid : done'.map (·.id) = done.map (·.id))
    (he : ∀ env, evaluate b.extra done' env = evaluate b.extra done env) :
    s'.results = s.results := by
  funext id
  have hs : (s'.results id).isSome ↔ (s.results id).isSome := by
    rw [hi.stored, hi'.stored, hid]
  cases h : s.results id <;> cases h' : s'.results id <;> simp only [h, h'] at hs <;>
    try simp at hs
  case none.none => rfl
  case some.some col col' =>
    congr 1
    have hl := hi.length id col h
    have hl' := (hi'.length id col' h').trans hb
    refine List.ext_getElem? fun i => ?_
    by_cases hlt : i < b.count
    case pos =>
      have hv := hi.whole_value hlt id
      have hv' := hi'.whole_value (hb ▸ hlt) id
      simp only [Store.entry, h, h', Option.bind_eq_bind, Option.bind_some] at hv hv'
      rw [hv, hv', hx, he]
    case neg => simp [hl, hl', hlt]

-- A run has computed the naive evaluation: every column covers the bucket, every entry is the value
-- of its step there, and each step is executed once, after all its dependencies.
structure Evaluated (count : Nat) (seed : Store V) (steps : List (PointwiseStep V E X isAwaitable))
    (extra : Option X) (s : RunState V X) : Prop where
  length  : ∀ id col, s.results id = some col → col.length = count
  value   : ∀ i < count, ∀ id, s.results.entry i id = evaluate extra steps (seed.entry i) id
  once    : ∀ t ∈ steps, (s.log.map (·.step)).count t.id = 1
  only    : ∀ e ∈ s.log, ∃ t ∈ steps, e.step = t.id
  ordered : ∀ a e b, s.log = a ++ e :: b → ∀ t ∈ steps, e.step = t.id → ∀ d ∈ t.dependencies,
    (seed d).isSome ∨ d ∈ a.map (·.step)

theorem Schedule.evaluated {extra : Option X} {s : RunState V X} (S : Schedule count seed steps)
    (hi : RunInv (bucket count seed steps extra) seed steps s) :
    Evaluated count seed steps extra s where
  length := hi.length
  value _ hlt id := hi.whole_value hlt id
  once t ht := by
    rw [hi.log]
    exact List.count_eq_one_of_mem S.ids_nodup (List.mem_map_of_mem ht)
  only e he := by
    have := List.mem_map_of_mem (f := (·.step)) he
    rw [hi.log] at this
    have ⟨t, ht, hte⟩ := List.mem_map.mp this
    exact ⟨t, ht, hte.symm⟩
  ordered a e b h t ht hte d hd := by
    have hm := hi.log
    simp only [h, List.map_append, List.map_cons] at hm
    have ⟨a', l, hs, ha, hl⟩ := List.map_eq_append_iff.mp hm.symm
    have ⟨t', b', hl', ht', hb⟩ := List.map_eq_cons_iff.mp hl
    have htt : t' = t :=
      List.inj_on_of_nodup_map S.ids_nodup (by simp [hs, hl']) ht (ht'.trans hte)
    exact ha ▸ S.ordered a' t b' (by rw [hs, hl', htt]) d hd

theorem runSteps_evaluated (S : Schedule count seed steps) (extra : Option X) :
    ∃ r s, runSteps count (steps.map (·.toStep)) isAwaitable seed extra = .ok r ∧
      r.resolve = .ok s ∧ Evaluated count seed steps extra s ∧
      ∃ s', runSteps count (steps.map (·.sync.toStep)) isAwaitable seed extra = .ok (.results s') ∧
        s'.results = s.results := by
  have ⟨r, s, hr, hs, hi⟩ := S.runSteps_ok extra fun _ _ => trivial
  have ⟨r', s', hr', hs', hi'⟩ := S.sync.runSteps_ok extra fun _ _ => trivial
  refine ⟨r, s, hr, hs, S.evaluated hi, s', ?_, ?_⟩
  · have ⟨s₂, he⟩ := runSteps_go_results (by simp [PointwiseStep.sync]) hr'
    subst he
    rw [← Except.ok.inj hs', ← hr', List.map_map]
    rfl
  · exact hi.results_eq hi' rfl rfl (by simp [Function.comp_def]) (evaluate_sync extra)

namespace Sum

-- A constant that is run once and broadcast, and a batched load that adds it to the seeded column.
def const : PointwiseStep Nat Empty Unit (fun _ => false) where
  id            := 1
  dependencies  := []
  isUnary       := true
  isSyncAndSafe := true
  wantsExtra    := false
  execute       := fun n cols _ => .column (pointwise (fun _ => 7) n cols)
  fn            := fun _ _ => 7
  execute_eq    := fun _ _ _ _ _ => .inl rfl
  placeless     := fun _ _ _ _ => rfl
  concrete      := fun _ _ _ => rfl

def load : PointwiseStep Nat Empty Unit (fun _ => false) where
  id            := 2
  dependencies  := [0, 1]
  isUnary       := false
  isSyncAndSafe := false
  wantsExtra    := false
  execute       := fun n cols _ => .awaitable (.ok (pointwise (List.foldl Nat.add 0) n cols))
  fn            := fun _ => List.foldl Nat.add 0
  execute_eq    := fun _ _ _ _ _ => .inr rfl
  placeless     := fun _ _ _ _ => rfl
  concrete      := fun _ _ _ => rfl

def parents : Store Nat :=
  Store.empty.insert 0 [10, 20]

theorem schedule : Schedule 2 parents [const, load] where
  count_pos := by decide
  seed_length id col h := by
    by_cases hid : id = 0
    case pos =>
      subst hid
      exact (Option.some.inj h) ▸ rfl
    case neg => simp [parents, Store.insert_of_ne hid, Store.empty] at h
  ids_nodup := by decide
  unseeded  := by simp [parents, const, load, Store.insert_of_ne, Store.empty]
  ordered a s b h := by
    match a with
    | [] =>
      obtain ⟨rfl, _⟩ := List.cons.inj h
      simp [const]
    | [_] =>
      obtain ⟨rfl, ht⟩ := List.cons.inj h
      obtain ⟨rfl, _⟩ := List.cons.inj ht
      simp [const, load, parents]
    | _ :: _ :: _ => simp at h

theorem runSteps_sum :
    ∃ r s, runSteps 2 [const.toStep, load.toStep] (fun _ => false) parents none = .ok r ∧
      r.resolve = .ok s ∧ s.results.entry 0 2 = some 17 ∧ s.results.entry 1 2 = some 27 := by
  have ⟨r, s, hr, hs, he, _⟩ := runSteps_evaluated schedule none
  exact ⟨r, s, hr, hs, he.value 0 (by decide) 2, he.value 1 (by decide) 2⟩

end Sum

end Grafast
