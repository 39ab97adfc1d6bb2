import Grafast.Step.Each
import Grafast.Step.Theorems.Run

namespace Grafast

section

variable {V E X : Type} {b : Bucket V E X} {step : Step V E X} {s s₁ s₂ t' : RunState V X} {out : Out V E}
  {col : List V}

namespace Bucket

-- Whether or not a run returns a coroutine, it computes what the loop of the coroutine computes.
theorem go_resolve (steps : List (Step V E X)) (s : RunState V X) :
    runSteps.go b steps s >>= Running.resolve = runStepsAsync.go b steps s := by
  induction steps generalizing s with
  | nil               => rfl
  | cons step steps ih =>
    rw [runSteps.go, runStepsAsync.go]
    cases b.call step s with
    | error e  => rfl
    | ok called =>
      obtain ⟨s, out⟩ := called
      cases out with
      | raised e     => rfl
      | awaitable _  => rfl
      | column out   =>
        show (b.record step s out >>= runSteps.go b steps) >>= Running.resolve = b.record step s out >>= _
        cases b.record step s out with
        | error e => rfl
        | ok s    => exact ih s

-- One step of a run that succeeds.
theorem go_cons_inv {steps : List (Step V E X)} (h : runStepsAsync.go b (step :: steps) s = .ok t') :
    ∃ s₁ s₂ col, (b.call step s = .ok (s₁, .column col) ∨ b.call step s = .ok (s₁, .awaitable (.ok col))) ∧
      b.record step s₁ col = .ok s₂ ∧ runStepsAsync.go b steps s₂ = .ok t' := by
  rw [runStepsAsync.go] at h
  cases hc : b.call step s with
  | error e   => rw [hc] at h; cases h
  | ok called =>
    obtain ⟨s₁, out⟩ := called
    rw [hc] at h
    cases out with
    | raised e         => cases h
    | column col       =>
      cases hr : b.record step s₁ col with
      | error e => simp [hr, bind, Except.bind] at h
      | ok s₂   => exact ⟨s₁, s₂, col, .inl rfl, hr, by simpa [hr, bind, Except.bind] using h⟩
    | awaitable result =>
      cases result with
      | error e => simp [awaited, bind, Except.bind] at h
      | ok col  =>
        cases hr : b.record step s₁ col with
        | error e => simp [awaited, hr, bind, Except.bind] at h
        | ok s₂   => exact ⟨s₁, s₂, col, .inr rfl, hr, by simpa [awaited, hr, bind, Except.bind] using h⟩

theorem gatherCols_congr {unary : Bool} {results results' : Store V}
    (h : ∀ d ∈ step.dependencies, results d = results' d) :
    gatherCols (E := E) results step unary = gatherCols results' step unary := by
  rw [gatherCols, gatherCols]
  generalize step.dependencies = ds at h
  induction ds with
  | nil          => rfl
  | cons d ds ih =>
    have hg : gatherCol (E := E) results unary d = gatherCol results' unary d := by
      rw [gatherCol, gatherCol, h d (.head _)]
    rw [List.mapM_cons, List.mapM_cons, hg, ih fun d hd => h d (.tail _ hd)]

-- A call only depends on the columns that the step reads.
theorem call_frame (h : b.call step s = .ok (s₁, out)) : s₁.results = s.results ∧
    ∀ t : RunState V X, (∀ d ∈ step.dependencies, t.results d = s.results d) →
      ∃ t₁, b.call step t = .ok (t₁, out) ∧ t₁.results = t.results := by
  cases hg : gatherCols (E := E) s.results step (b.unaryHere step.id) with
  | error e => simp [call, hg, bind, Except.bind] at h
  | ok cols =>
    rw [call_of_gatherCols hg, Except.ok.injEq, Prod.mk.injEq] at h
    obtain ⟨rfl, rfl⟩ := h
    refine ⟨rfl, fun t ht => ⟨_, call_of_gatherCols ?_, rfl⟩⟩
    rw [gatherCols_congr ht, hg]

-- What is stored for a column does not depend on the other columns.
theorem record_frame (h : b.record step s col = .ok s₂) :
    ∃ stored, s₂.results = s.results.insert step.id stored ∧
      ∀ t : RunState V X, ∃ t₂, b.record step t col = .ok t₂ ∧ t₂.results = t.results.insert step.id stored := by
  cases hu : b.unaryHere step.id with
  | false =>
    by_cases hl : col.length = b.count
    case pos =>
      rw [record_batch hu hl, Except.ok.injEq] at h
      exact ⟨col, h ▸ rfl, fun t => ⟨_, record_batch hu hl, rfl⟩⟩
    case neg => simp [record, storeColumn, hu, hl, bind, Except.bind] at h
  | true  =>
    cases col with
    | nil         => simp [record, storeColumn, hu, bind, Except.bind] at h
    | cons v rest =>
      cases rest with
      | cons w rest => simp [record, storeColumn, hu, bind, Except.bind] at h
      | nil         =>
        cases ha : b.isAwaitable v with
        | false =>
          rw [record_unary hu ha, Except.ok.injEq] at h
          exact ⟨_, h ▸ rfl, fun t => ⟨_, record_unary hu ha, rfl⟩⟩
        | true  => simp [record, storeColumn, hu, ha, bind, Except.bind] at h

-- A step of two runs whose stores agree where they differ from a column that the step does not read.
theorem step_frame {id : Nat} {t : RunState V X} (hid : step.id ≠ id) (hd : id ∉ step.dependencies)
    (h : ∀ d, d ≠ id → t.results d = s.results d)
    (hc : b.call step s = .ok (s₁, out)) (hr : b.record step s₁ col = .ok s₂) :
    ∃ t₁ t₂, b.call step t = .ok (t₁, out) ∧ b.record step t₁ col = .ok t₂ ∧
      (∀ d, d ≠ id → t₂.results d = s₂.results d) ∧ s₂.results id = s.results id := by
  obtain ⟨hs₁, hc⟩ := call_frame hc
  obtain ⟨t₁, hc, ht₁⟩ := hc t fun d hm => h d fun he => hd (he ▸ hm)
  obtain ⟨stored, hs₂, hr⟩ := record_frame hr
  obtain ⟨t₂, hr, ht₂⟩ := hr t₁
  refine ⟨t₁, t₂, hc, hr, fun d hne => ?_, ?_⟩
  · rw [ht₂, hs₂, ht₁, hs₁]
    by_cases he : d = step.id
    case pos => rw [he, Store.insert_self, Store.insert_self]
    case neg => rw [Store.insert_of_ne he, Store.insert_of_ne he, h d hne]
  · rw [hs₂, hs₁, Store.insert_of_ne hid.symm]

-- Runs with equal columns compute the same.
theorem go_frame {steps : List (Step V E X)} {t : RunState V X} (h : t.results = s.results)
    (hr : runStepsAsync.go b steps s = .ok t') :
    ∃ t₁, runStepsAsync.go b steps t = .ok t₁ ∧ t₁.results = t'.results := by
  induction steps generalizing s t with
  | nil               =>
    obtain rfl := Except.ok.inj hr
    exact ⟨t, rfl, h⟩
  | cons step steps ih =>
    obtain ⟨s₁, s₂, col, hc, hrec, hrest⟩ := go_cons_inv hr
    have hs₁ : s₁.results = s.results ∧ ∃ t₁, (b.call step t = .ok (t₁, .column col) ∨
        b.call step t = .ok (t₁, .awaitable (.ok col))) ∧ t₁.results = t.results := by
      rcases hc with hc | hc
      all_goals
        obtain ⟨hs₁, hf⟩ := call_frame hc
        obtain ⟨t₁, hc, ht₁⟩ := hf t fun d _ => congrFun h d
      · exact ⟨hs₁, t₁, .inl hc, ht₁⟩
      · exact ⟨hs₁, t₁, .inr hc, ht₁⟩
    obtain ⟨hs₁, t₁, hc, ht₁⟩ := hs₁
    obtain ⟨stored, hs₂, hf⟩ := record_frame hrec
    obtain ⟨t₂, hrec, ht₂⟩ := hf t₁
    obtain ⟨t', ht, he⟩ := ih (by rw [ht₂, hs₂, ht₁, hs₁, h]) hrest
    exact ⟨t', (go_cons_async hc hrec).trans ht, he⟩

variable {id : Nat} {items : List V}

-- A run in which the items come from a step of their own, wherever it stands, and one that is seeded with them.
theorem go_itemStep {before after : List (Step V E X)} {t : RunState V X}
    (hu : b.unaryHere id = false) (hl : items.length = b.count)
    (hb : ∀ step ∈ before, step.id ≠ id ∧ id ∉ step.dependencies)
    (h : ∀ d, d ≠ id → t.results d = s.results d) (hs : s.results id = some items)
    (hr : runStepsAsync.go b (before ++ after) s = .ok t') :
    ∃ t₁, runStepsAsync.go b (before ++ itemStep id items :: after) t = .ok t₁ ∧ t₁.results = t'.results := by
  induction before generalizing s t with
  | nil                =>
    have hg : gatherCols (E := E) t.results (itemStep id items : Step V E X) false = .ok [] := rfl
    have hc := call_of_gatherCols (b := b) (hu.symm ▸ hg)
    have he : t.results.insert id items = s.results := by
      funext d
      by_cases hd : d = id
      case pos => rw [hd, Store.insert_self, hs]
      case neg => rw [Store.insert_of_ne hd, h d hd]
    obtain ⟨t₁, hrest, ht₁⟩ := go_frame (t := ⟨t.results.insert id items, _⟩) he hr
    exact ⟨t₁, (go_cons_async (.inl hc) (record_batch hu hl)).trans hrest, ht₁⟩
  | cons step before ih =>
    obtain ⟨hid, hd⟩ := hb step (.head _)
    obtain ⟨s₁, s₂, col, hc, hrec, hrest⟩ := go_cons_inv hr
    have hstep : ∃ t₁ t₂, (b.call step t = .ok (t₁, .column col) ∨ b.call step t = .ok (t₁, .awaitable (.ok col))) ∧
        b.record step t₁ col = .ok t₂ ∧ (∀ d, d ≠ id → t₂.results d = s₂.results d) ∧
          s₂.results id = s.results id := by
      rcases hc with hc | hc
      all_goals obtain ⟨t₁, t₂, hc, hrec, hf⟩ := step_frame hid hd h hc hrec
      · exact ⟨t₁, t₂, .inl hc, hrec, hf⟩
      · exact ⟨t₁, t₂, .inr hc, hrec, hf⟩
    obtain ⟨t₁, t₂, hc, hrec, hf, hk⟩ := hstep
    obtain ⟨t', ht, he⟩ := ih (fun x hx => hb x (.tail _ hx)) hf (hk.trans hs) hrest
    exact ⟨t', (go_cons_async hc hrec).trans ht, he⟩

end Bucket

namespace bucketUnariness

variable {u : Nat → Bool} {id : Nat} {items : List V}

-- Where the items come from, no step that depends on them is run once and broadcast.
theorem go_itemStep {before after : List (Step V E X)} (hu : u id = false)
    (hid : ∀ step ∈ before ++ after, step.id ≠ id) :
    go (fun _ => false) u (before ++ itemStep id items :: after) = go (fun d => decide (d = id)) u (before ++ after) := by
  have heff : ∀ (step : Step V E X) (u : Nat → Bool), u id = false →
      (step.dependencies.all fun d => !decide (d = id) && u d) = step.dependencies.all fun d => !false && u d := by
    intro step u hu
    refine congrArg step.dependencies.all (funext fun d => ?_)
    by_cases hd : d = id <;> simp [hd, hu]
  have hafter : ∀ (steps : List (Step V E X)) (u : Nat → Bool), u id = false → (∀ step ∈ steps, step.id ≠ id) →
      go (fun _ => false) u steps = go (fun d => decide (d = id)) u steps := by
    intro steps
    induction steps with
    | nil                => exact fun _ _ _ => rfl
    | cons step steps ih =>
      intro u hu hid
      rw [go, go, heff step u hu]
      refine ih _ ?_ fun x hx => hid x (.tail _ hx)
      rw [Function.update_of_ne (hid step (.head _)).symm, hu]
  induction before generalizing u with
  | nil                 =>
    have hn : Function.update u id false = u := by rw [← hu, Function.update_eq_self]
    have hg : go (fun _ => false) u (itemStep id items :: after : List (Step V E X)) =
        go (fun _ => false) (Function.update u id false) after := rfl
    rw [List.nil_append, List.nil_append, hg, hn]
    exact hafter after u hu hid
  | cons step before ih =>
    rw [List.cons_append, List.cons_append, go, go, heff step u hu]
    refine ih ?_ fun x hx => hid x (.tail _ hx)
    rw [Function.update_of_ne (hid step (.head _)).symm, hu]

end bucketUnariness

end

variable {V S X : Type} [PyValue V S] [EachErrors V] {isCoroutine : V → Bool}

namespace CoreStep

omit [EachErrors V] in
theorem regroup_map (f : V → V) (lists : List (List V)) :
    regroup lists (lists.flatten.map f) = lists.map fun items => PyValue.ofList (items.map f) := by
  induction lists with
  | nil                => rfl
  | cons items lists ih =>
    have hl : items.length = (items.map f).length := (List.length_map f).symm
    rw [regroup, List.flatten_cons, List.map_append, hl, List.take_left, List.drop_left, ih, List.map_cons]

end CoreStep

-- A sub-DAG in the order in which it is run, whose only source besides constants is the step of the items. The
-- target may be that step itself.
structure Mapper (V X : Type) (isCoroutine : V → Bool) where
  item   : Nat
  before : List (PointwiseStep V V X isCoroutine)
  after  : List (PointwiseStep V V X isCoroutine)
  mapped : Nat
  ids_nodup : (item :: (before ++ after).map (·.id)).Nodup
  ordered_before : ∀ a s b, before = a ++ s :: b → ∀ d ∈ s.dependencies, d ∈ a.map (·.id)
  ordered_after : ∀ a s b, after = a ++ s :: b → ∀ d ∈ s.dependencies,
    d = item ∨ d ∈ before.map (·.id) ∨ d ∈ a.map (·.id)
  mapped_mem : mapped ∈ item :: (before ++ after).map (·.id)

namespace Mapper

variable (m : Mapper V X isCoroutine)

def steps (items : List V) : List (Step V V X) :=
  m.before.map (·.toStep) ++ itemStep m.item items :: m.after.map (·.toStep)

-- What the mapper makes of one item.
def value? (item : V) : Option V :=
  evaluate none (m.before ++ m.after) (Function.update (fun _ => none) m.item (some item)) m.mapped

-- The columns that the steps of the mapper are run with.
def seed (items : List V) : Store V :=
  Store.empty.insert m.item items

def apply (item : V) : V :=
  (m.value? item).getD PyValue.pyNone

variable {m} {items : List V}

section

omit [PyValue V S] [EachErrors V]

theorem seed_isSome (id : Nat) : (m.seed items id).isSome = decide (id = m.item) := by
  rw [seed]
  by_cases h : id = m.item
  case pos => simp [h]
  case neg => simp [Store.insert_of_ne h, Store.empty, h]

theorem ordered {a b : List (PointwiseStep V V X isCoroutine)} {s : PointwiseStep V V X isCoroutine}
    (he : m.before ++ m.after = a ++ s :: b) : ∀ d ∈ s.dependencies, d = m.item ∨ d ∈ a.map (·.id) := by
  intro d hd
  obtain ⟨c, ha, hb⟩ | ⟨c, ha, hb⟩ := List.append_eq_append_iff.mp he
  case inl =>
    refine (m.ordered_after c s b hb d hd).imp_right fun h => ?_
    rw [ha, List.map_append, List.mem_append]
    exact h
  case inr =>
    cases c with
    | nil      =>
      rw [List.nil_append] at hb
      refine (m.ordered_after [] s b hb.symm d hd).imp_right fun h => ?_
      rw [List.append_nil] at ha
      exact ha ▸ h.resolve_right List.not_mem_nil
    | cons x c =>
      obtain ⟨rfl, rfl⟩ := List.cons.inj hb
      exact .inr (m.ordered_before a s c ha d hd)

theorem schedule (h : 0 < items.length) : Schedule items.length (m.seed items) (m.before ++ m.after) where
  count_pos         := h
  seed_length id col hc := by
    by_cases hi : id = m.item
    case pos =>
      rw [hi, seed, Store.insert_self] at hc
      exact Option.some.inj hc ▸ rfl
    case neg =>
      rw [seed, Store.insert_of_ne hi] at hc
      cases hc
  ids_nodup         := (List.nodup_cons.mp m.ids_nodup).right
  unseeded s hs     := by
    have hi : s.id ≠ m.item := fun he =>
      (List.nodup_cons.mp m.ids_nodup).left (he ▸ List.mem_map_of_mem hs)
    rw [seed, Store.insert_of_ne hi, Store.empty]
  ordered a s b he  := by
    intro d hd
    rw [seed_isSome, decide_eq_true_eq]
    exact ordered he d hd

-- Without items, a step has an empty column.
theorem call_empty {b : Bucket V V X} (hc : b.count = 0) (hu : ∀ id, b.unaryHere id = false)
    (x : PointwiseStep V V X isCoroutine) {s : RunState V X} (hs : ∀ id col, s.results id = some col → col = [])
    (hd : ∀ d ∈ x.dependencies, (s.results d).isSome) :
    ∃ s₁ s₂, (b.call x.toStep s = .ok (s₁, .column []) ∨ b.call x.toStep s = .ok (s₁, .awaitable (.ok []))) ∧
      b.record x.toStep s₁ [] = .ok s₂ ∧ s₂.results = s.results.insert x.id [] := by
  have hg : gatherCols s.results x.toStep (b.unaryHere x.id) = .ok _ := (hu x.id).symm ▸ gatherCols_batch hd
  have hcall := Bucket.call_of_gatherCols hg
  have hl : ∀ col ∈ x.dependencies.map fun d => (s.results d).getD [], col.length = 0 := by
    intro col hm
    obtain ⟨d, hdm, rfl⟩ := List.mem_map.mp hm
    obtain ⟨col, hcol⟩ := Option.isSome_iff_exists.mp (hd d hdm)
    rw [hcol, Option.getD_some, hs d col hcol, List.length_nil]
  rw [Bucket.stepCount_batch (hu x.id), hc] at hcall
  have hout := x.execute_eq 0 _ (b.extraFor x.toStep) hl fun _ _ => trivial
  generalize s.log ++ _ = log at hcall
  refine ⟨⟨s.results, log⟩, _, ?_, Bucket.record_batch (hu x.id) hc.symm, rfl⟩
  exact hout.imp (fun h => by rw [hcall, h]; rfl) fun h => by rw [hcall, h]; rfl

theorem go_empty {b : Bucket V V X} (hc : b.count = 0) (hu : ∀ id, b.unaryHere id = false)
    (steps : List (PointwiseStep V V X isCoroutine)) {s : RunState V X}
    (hs : ∀ id col, s.results id = some col → col = [])
    (ho : ∀ a x c, steps = a ++ x :: c → ∀ d ∈ x.dependencies, (s.results d).isSome ∨ d ∈ a.map (·.id)) :
    ∃ t, Bucket.runStepsAsync.go b (steps.map (·.toStep)) s = .ok t ∧
      (∀ id col, t.results id = some col → col = []) ∧
        ∀ id, (t.results id).isSome ↔ (s.results id).isSome ∨ id ∈ steps.map (·.id) := by
  induction steps generalizing s with
  | nil             => exact ⟨s, rfl, hs, fun id => by simp⟩
  | cons x steps ih =>
    obtain ⟨s₁, s₂, hcall, hrec, hr⟩ := call_empty hc hu x hs fun d hm =>
      (ho [] x steps rfl d hm).resolve_right List.not_mem_nil
    have hs₂ : ∀ id col, s₂.results id = some col → col = [] := by
      intro id col h
      rw [hr] at h
      by_cases hi : id = x.id
      case pos => simpa [hi, eq_comm] using h
      case neg => exact hs id col (by simpa [Store.insert_of_ne hi] using h)
    have hstored : ∀ id, (s₂.results id).isSome ↔ (s.results id).isSome ∨ id = x.id := by
      intro id
      rw [hr]
      by_cases hi : id = x.id
      case pos => simp [hi]
      case neg => simp [Store.insert_of_ne hi, hi]
    obtain ⟨t, ht, hempty, hid⟩ := ih hs₂ fun a y c he d hm => by
      have h := ho (x :: a) y c (by rw [he, List.cons_append]) d hm
      rw [hstored]
      simpa [or_assoc] using h
    refine ⟨t, (Bucket.go_cons_async hcall hrec).trans ht, hempty, fun id => ?_⟩
    rw [hid, hstored, List.map_cons, List.mem_cons, or_assoc]

theorem id_ne_item {step : Step V V X} (h : step ∈ (m.before ++ m.after).map (·.toStep)) : step.id ≠ m.item := by
  obtain ⟨s, hs, rfl⟩ := List.mem_map.mp h
  intro he
  exact (List.nodup_cons.mp m.ids_nodup).left (he ▸ List.mem_map_of_mem hs)

theorem unaryHere_eq : bucketUnariness (m.steps items) (fun id => ((Store.empty : Store V) id).isSome) items.length =
    bucketUnariness ((m.before ++ m.after).map (·.toStep)) (fun id => (m.seed items id).isSome) items.length := by
  have hs : (fun id => (m.seed items id).isSome) = fun id => decide (id = m.item) := funext seed_isSome
  rw [bucketUnariness, bucketUnariness, hs, steps, List.map_append]
  refine if_congr .rfl rfl ?_
  exact bucketUnariness.go_itemStep rfl fun step hm => id_ne_item (List.map_append ▸ hm)

theorem item_not_unary : (Schedule.bucket (X := X) items.length (m.seed items) (m.before ++ m.after) none).unaryHere
    m.item = false := by
  have hi : m.item ∉ ((m.before ++ m.after).map (·.toStep)).map (·.id) := by
    intro hm
    obtain ⟨step, hs, he⟩ := List.mem_map.mp hm
    exact id_ne_item hs he
  rw [Schedule.bucket, bucketUnariness]
  split
  case isTrue  => rfl
  case isFalse => exact bucketUnariness.go_of_not_mem hi

-- The run with the items as a seeded column.
theorem go_seeded (items : List V) :
    ∃ t col, Bucket.runStepsAsync.go (Schedule.bucket items.length (m.seed items) (m.before ++ m.after) none)
        ((m.before ++ m.after).map (·.toStep)) ⟨m.seed items, []⟩ = .ok t ∧
      t.results m.mapped = some col ∧ col.length = items.length ∧
        ∀ (i : Nat) (item : V), items[i]? = some item → col[i]? = m.value? item := by
  by_cases h : 0 < items.length
  case pos =>
    have S : Schedule items.length (m.seed items) (m.before ++ m.after) := schedule h
    have h₀ : RunInv (Schedule.bucket items.length (m.seed items) (m.before ++ m.after) none) (m.seed items) []
        ⟨m.seed items, []⟩ := S.runInv_init
    obtain ⟨t, ht, hi⟩ := S.runStepsAsync_ok (fun _ _ => trivial) (List.nil_append _).symm h₀
    have hs : (t.results m.mapped).isSome := by
      rw [hi.stored, seed_isSome, decide_eq_true_eq]
      exact List.mem_cons.mp m.mapped_mem
    obtain ⟨col, hc⟩ := Option.isSome_iff_exists.mp hs
    refine ⟨t, col, ht, hc, hi.length _ col hc, fun i item hit => ?_⟩
    have hv := hi.whole_value (List.getElem?_eq_some_iff.mp hit).fst m.mapped
    have hseed : (m.seed items).entry i = Function.update (fun _ => none) m.item (some item) := by
      funext d
      by_cases hd : d = m.item
      case pos => rw [hd, seed, Store.entry_insert_self, hit, Function.update_self]
      case neg => rw [seed, Store.entry_insert_of_ne hd, Function.update_of_ne hd]; rfl
    rw [Store.entry, hc, hseed] at hv
    exact hv
  case neg =>
    have hn : items = [] := List.length_eq_zero_iff.mp (Nat.eq_zero_of_not_pos h)
    subst hn
    have hseed : ∀ id col, m.seed [] id = some col → col = [] := by
      intro id col hc
      by_cases hd : id = m.item
      case pos =>
        rw [hd, seed, Store.insert_self] at hc
        exact (Option.some.inj hc).symm
      case neg =>
        rw [seed, Store.insert_of_ne hd] at hc
        cases hc
    obtain ⟨t, ht, hempty, hstored⟩ := go_empty (b := Schedule.bucket 0 (m.seed []) (m.before ++ m.after) none) rfl
      (fun _ => rfl) (m.before ++ m.after) (s := ⟨m.seed [], []⟩) hseed fun a x c he d hd => by
        rw [seed_isSome, decide_eq_true_eq]
        exact ordered he d hd
    have hs : (t.results m.mapped).isSome := by
      rw [hstored, seed_isSome, decide_eq_true_eq]
      exact List.mem_cons.mp m.mapped_mem
    obtain ⟨col, hc⟩ := Option.isSome_iff_exists.mp hs
    exact ⟨t, col, ht, hc, hempty _ col hc ▸ rfl, fun i item hit => by cases hit⟩

-- The run as the step makes it, with the step of the items among the others.
theorem runSteps_items (items : List V) :
    ∃ r s col, runSteps items.length (m.steps items) isCoroutine .empty none = .ok r ∧ r.resolve = .ok s ∧
      s.results m.mapped = some col ∧ col.length = items.length ∧
        ∀ (i : Nat) (item : V), items[i]? = some item → col[i]? = m.value? item := by
  obtain ⟨t, col, ht, hc, hl, hv⟩ := go_seeded (m := m) items
  have hb : ∀ step ∈ m.before.map (·.toStep), step.id ≠ m.item ∧ m.item ∉ step.dependencies := by
    intro step hm
    obtain ⟨s, hs, rfl⟩ := List.mem_map.mp hm
    refine ⟨id_ne_item (List.mem_map_of_mem (List.mem_append_left _ hs)), fun hd => ?_⟩
    obtain ⟨a, b, he⟩ := List.append_of_mem hs
    obtain ⟨x, hx, hid⟩ := List.mem_map.mp (m.ordered_before a s b he _ hd)
    have hx : x ∈ m.before ++ m.after := List.mem_append_left _ (he ▸ List.mem_append_left _ hx)
    exact id_ne_item (List.mem_map_of_mem hx) hid
  rw [List.map_append] at ht
  obtain ⟨t₁, ht₁, he⟩ := Bucket.go_itemStep (t := ⟨.empty, []⟩) item_not_unary rfl hb
    (fun d hd => (Store.insert_of_ne hd).symm) (Store.insert_self ..) ht
  rw [← Bucket.go_resolve] at ht₁
  have hrun : runSteps items.length (m.steps items) isCoroutine .empty none =
      runSteps.go (Schedule.bucket items.length (m.seed items) (m.before ++ m.after) none) (m.steps items)
        (⟨.empty, []⟩ : RunState V X) := by
    rw [runSteps, unaryHere_eq, Schedule.bucket]
  rw [hrun, steps]
  cases hr : runSteps.go (Schedule.bucket items.length (m.seed items) (m.before ++ m.after) none)
      (m.before.map (·.toStep) ++ itemStep m.item items :: m.after.map (·.toStep)) (⟨.empty, []⟩ : RunState V X) with
  | error e => rw [hr] at ht₁; cases ht₁
  | ok r    =>
    rw [hr] at ht₁
    exact ⟨r, t₁, col, rfl, ht₁, by rw [he, hc], hl, hv⟩

-- Each item has a value.
theorem isSome_evaluate (extra : Option X) (steps : List (PointwiseStep V V X isCoroutine)) {env : Nat → Option V}
    {id : Nat} (h : (env id).isSome ∨ id ∈ steps.map (·.id)) : (evaluate extra steps env id).isSome := by
  induction steps generalizing env with
  | nil             => exact h.resolve_right List.not_mem_nil
  | cons s steps ih =>
    rw [evaluate]
    apply ih
    rw [List.map_cons, List.mem_cons] at h
    by_cases hs : id = s.id
    case pos => exact .inl (by rw [hs, Function.update_self]; rfl)
    case neg =>
      rw [Function.update_of_ne hs]
      exact h.imp_right fun h => h.resolve_left hs

theorem isSome_value? (item : V) : (m.value? item).isSome := by
  apply isSome_evaluate
  refine (List.mem_cons.mp m.mapped_mem).imp_left fun h => ?_
  rw [h, Function.update_self]
  rfl

end

-- An `EachStep` maps the list of each parent on its own, whatever the lists of other parents hold.
theorem executeEach_maps {count : Nat} {values lists : List (List V)} (h : eachItems count values = .ok lists) :
    executeEach isCoroutine m.steps (fun _ => m.mapped) count values =
        .column (lists.map fun items => PyValue.ofList (items.map m.apply)) ∨
      executeEach isCoroutine m.steps (fun _ => m.mapped) count values =
        .awaitable (.ok (lists.map fun items => PyValue.ofList (items.map m.apply))) := by
  obtain ⟨r, s, col, hr, hs, hc, hl, hv⟩ := m.runSteps_items lists.flatten
  have hcol : col = lists.flatten.map m.apply := by
    refine List.ext_getElem? fun i => ?_
    rw [List.getElem?_map]
    cases hi : lists.flatten[i]? with
    | none      =>
      rw [Option.map_none, List.getElem?_eq_none_iff, hl]
      exact List.getElem?_eq_none_iff.mp hi
    | some item =>
      obtain ⟨v, hsome⟩ := Option.isSome_iff_exists.mp (isSome_value? (m := m) item)
      rw [hv i item hi, Option.map_some, apply, hsome, Option.getD_some]
  have hreg : regroupEach lists m.mapped s = .ok (lists.map fun items => PyValue.ofList (items.map m.apply)) := by
    simp only [regroupEach, hc, hcol, CoreStep.regroup_map]
  unfold executeEach
  rw [h]
  cases r with
  | results s'        =>
    obtain rfl := Except.ok.inj hs
    refine .inl ?_
    simp only [hr, hreg]
  | coroutine outcome =>
    refine .inr ?_
    have hs : outcome = .ok s := hs
    simp only [hr, hs]
    exact congrArg Out.awaitable hreg

end Mapper

namespace Prices

inductive Val
  | none
  | number (n : Nat)
  | list (items : List Val)

def Val.amount : Val → Nat
  | .number n => n
  | _         => 0

def Val.items : Val → List Val
  | .list items => items
  | _           => []

instance : PyValue Val String where
  pyNone           := .none
  isNone _         := false
  isException _    := false
  truthy v         := !v.items.isEmpty
  hashable _       := true
  keyEq a b        := a.amount = b.amount
  typeName _       := "object"
  repr _           := "object"
  asDict _         := Option.none
  getItem _ _      := .missing
  getAttr _ _      := .missing
  iterate v        := .ok v.items
  ofList           := .list
  ofTuple          := .list
  ofDict _         := .none
  decodeGlobalId v := .valueError v
  noLoader _       := .none

instance : EachErrors Val where
  ofStepError _ := .none
  indexError    := .none

def sum (vs : List Val) : Val :=
  .number (vs.foldl (fun n v => n + v.amount) 0)

-- The costs of delivery, and a batched load that adds them to a price.
def delivery : PointwiseStep Val Val Unit (fun _ => false) where
  id              := 1
  dependencies    := []
  isUnary         := true
  isSyncAndSafe   := true
  wantsExtra      := false
  execute n cols _ := .column (pointwise (fun _ => .number 10) n cols)
  fn _ _          := .number 10
  execute_eq _ _ _ _ _ := .inl rfl
  placeless _ _ _ _ := rfl
  concrete _ _ _  := rfl

def total : PointwiseStep Val Val Unit (fun _ => false) where
  id              := 2
  dependencies    := [0, 1]
  isUnary         := false
  isSyncAndSafe   := false
  wantsExtra      := false
  execute n cols _ := .awaitable (.ok (pointwise sum n cols))
  fn _ vs         := sum vs
  execute_eq _ _ _ _ _ := .inr rfl
  placeless _ _ _ _ := rfl
  concrete _ _ _  := rfl

def mapper : Mapper Val Unit (fun _ => false) where
  item   := 0
  before := [delivery]
  after  := [total]
  mapped := 2
  ids_nodup := by decide
  ordered_before a s b he := by
    cases a with
    | nil      =>
      obtain ⟨rfl, -⟩ := List.cons.inj he
      exact fun d hd => absurd hd List.not_mem_nil
    | cons x a => simp at he
  ordered_after a s b he  := by
    cases a with
    | nil      =>
      obtain ⟨rfl, -⟩ := List.cons.inj he
      decide
    | cons x a => simp at he
  mapped_mem := by decide

def carts : List Val :=
  [.list [.number 1, .number 2], .none, .list [.number 5]]

theorem carts_items : eachItems 3 [carts] = .ok [[.number 1, .number 2], [], [.number 5]] :=
  rfl

theorem carts_mapped : executeEach (fun _ => false) mapper.steps (fun _ => mapper.mapped) 3 [carts] =
      .column [.list [.number 11, .number 12], .list [], .list [.number 15]] ∨
    executeEach (fun _ => false) mapper.steps (fun _ => mapper.mapped) 3 [carts] =
      .awaitable (.ok [.list [.number 11, .number 12], .list [], .list [.number 15]]) :=
  mapper.executeEach_maps carts_items

end Prices

end Grafast
