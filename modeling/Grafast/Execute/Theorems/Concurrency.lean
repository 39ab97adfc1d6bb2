import Mathlib.Data.List.Basic
import Grafast.Execute.Concurrency

namespace Grafast.Concurrency

section Closing

variable {w w' : World} {id driver : Nat}

namespace World

-- What is closed stays closed.
def Grows (w w' : World) : Prop :=
  ∀ id, w.coroutines id = .closed → w'.coroutines id = .closed

theorem Grows.refl : Grows w w :=
  fun _ h => h

theorem Grows.trans {w'' : World} (h : Grows w w') (h' : Grows w' w'') : Grows w w'' :=
  fun id hc => h' id (h id hc)

theorem close_closed : (w.close id).coroutines id = .closed := by
  simp [close]

theorem grows_close : Grows w (w.close id) := by
  intro other h
  by_cases he : other = id
  case pos => rw [he, close_closed]
  case neg => simp [close, he, h]

theorem grows_start : Grows w (w.start id) := by
  intro other h
  rw [start]
  split
  case isFalse   => exact h
  case isTrue hu =>
    have he : other ≠ id := by
      rintro rfl
      rw [h] at hu
      cases hu
    simp [he, h]

theorem grows_forget : Grows w (w.forget driver) :=
  fun _ h => h

theorem grows_callBack : Grows w (w.callBack driver) := by
  intro other h
  rw [callBack]
  split
  case isTrue  => exact h
  case isFalse => exact h

end World

open World

namespace Awaitable

mutual

theorem grows_closing (a : Awaitable) (w : World) : Grows w (a.close w).fst := by
  cases a
  case coroutine id              => exact grows_close
  case other                     => exact .refl
  case owned driver awaitable cs =>
    rw [close]
    dsimp only
    refine .trans ?_ grows_callBack
    have hdriver : Grows w (w.close driver) := grows_close
    have hinner := hdriver.trans (grows_closing awaitable (w.close driver))
    split
    case isTrue  => exact hinner
    case isFalse => exact hinner.trans (grows_closingOwned cs _)

theorem grows_closingOwned (cs : List Awaitable) (w : World) : Grows w (closeOwned cs w).fst := by
  cases cs
  case nil       => rw [closeOwned]; exact .refl
  case cons c cs =>
    have hfirst : Grows w (if c.isClosable = true then c.close w else (w, false)).fst := by
      split
      case isTrue  => exact grows_closing c w
      case isFalse => exact .refl
    rw [closeOwned]
    generalize (if c.isClosable = true then c.close w else (w, false)) = first at hfirst ⊢
    split
    case isTrue  => exact hfirst
    case isFalse => exact hfirst.trans (grows_closingOwned cs _)

end

theorem ids_of_not_closable {a : Awaitable} (h : a.isClosable = false) : a.ids = [] := by
  cases a
  case other => rfl
  all_goals cases h

mutual

-- A sound awaitable is closed with all that it owns, without an error.
theorem close_sound (a : Awaitable) (w : World) (hc : a.isClosable = true) (hs : a.Sound) :
    (a.close w).snd = false ∧ ∀ id ∈ a.ids, (a.close w).fst.coroutines id = .closed := by
  cases a
  case coroutine id              =>
    refine ⟨rfl, fun other ho => ?_⟩
    obtain rfl := List.mem_singleton.mp ho
    exact close_closed
  case other                     => cases hc
  case owned driver awaitable cs =>
    rw [Sound] at hs
    obtain ⟨hclosable, hsound, howned⟩ := hs
    obtain ⟨hinner, hids⟩ := close_sound awaitable (w.close driver) hclosable hsound
    obtain ⟨hall, hcs⟩ := closeOwned_sound cs (awaitable.close (w.close driver)).fst howned
    have hgrows := grows_closingOwned cs (awaitable.close (w.close driver)).fst
    rw [close, ids]
    simp only [hinner, Bool.false_eq_true, if_false, hall, true_and]
    intro id hid
    refine grows_callBack id ?_
    cases List.mem_cons.mp hid
    case inl h => subst h; exact hgrows _ (grows_closing awaitable _ _ close_closed)
    case inr h =>
      cases List.mem_append.mp h
      case inl h => exact hgrows id (hids id h)
      case inr h => exact hcs id h

theorem closeOwned_sound (cs : List Awaitable) (w : World) (hs : SoundOwned cs) :
    (closeOwned cs w).snd = false ∧ ∀ id ∈ idsOwned cs, (closeOwned cs w).fst.coroutines id = .closed := by
  cases cs
  case nil       => rw [closeOwned, idsOwned]; exact ⟨rfl, by simp⟩
  case cons c cs =>
    rw [SoundOwned] at hs
    have hfirst : (if c.isClosable = true then c.close w else (w, false)).snd = false ∧
        ∀ id ∈ c.ids, (if c.isClosable = true then c.close w else (w, false)).fst.coroutines id = .closed := by
      cases hc : c.isClosable
      case true  => exact close_sound c w hc hs.left
      case false => rw [ids_of_not_closable hc]; exact ⟨rfl, by simp⟩
    obtain ⟨hrest, hids⟩ := closeOwned_sound cs _ hs.right
    rw [closeOwned, idsOwned]
    simp only [hfirst.left, Bool.false_eq_true, if_false]
    refine ⟨hrest, fun id hid => ?_⟩
    cases List.mem_append.mp hid
    case inl h => exact grows_closingOwned cs _ id (hfirst.right id h)
    case inr h => exact hids id h

end

theorem grows_starting (a : Awaitable) (w : World) : Grows w (a.start w) := by
  cases a
  case coroutine id              => exact grows_start
  case other                     => exact .refl
  case owned driver awaitable cs =>
    rw [start]
    exact (grows_forget.trans grows_start).trans (grows_starting awaitable _)

theorem grows_settle (a : Awaitable) (w : World) : Grows w (a.settle w) := by
  cases a
  case coroutine id              => exact grows_close
  case other                     => exact .refl
  case owned driver awaitable cs =>
    rw [settle]
    exact ((grows_settle awaitable w).trans (grows_closingOwned cs _)).trans grows_close

-- The end of a sound awaitable leaves nothing open of it.
theorem settle_sound (a : Awaitable) (w : World) (hs : a.Sound) :
    ∀ id ∈ a.ids, (a.settle w).coroutines id = .closed := by
  cases a
  case coroutine id              =>
    intro other ho
    obtain rfl := List.mem_singleton.mp ho
    exact close_closed
  case other                     => intro id hid; cases hid
  case owned driver awaitable cs =>
    rw [Sound] at hs
    have hids := settle_sound awaitable w hs.right.left
    have hcs := (closeOwned_sound cs (awaitable.settle w) hs.right.right).right
    rw [settle, ids]
    intro id hid
    cases List.mem_cons.mp hid
    case inl h => subst h; exact close_closed
    case inr h =>
      cases List.mem_append.mp h
      case inl h => exact grows_close id (grows_closingOwned cs _ id (hids id h))
      case inr h => exact grows_close id (hcs id h)

end Awaitable

end Closing

section Runs

variable {s s' : State} {e : Event} {events : List Event} {i permits : Nat} {t : Task} {world : World}

-- A task has acquired a permit while it runs and from then on, and released it when it is done.
def Task.Balanced (t : Task) : Prop :=
  match t.phase with
  | .created   => t.acquired = false ∧ t.acquires = 0 ∧ t.releases = 0
  | .waiting _ => t.acquired = false ∧ t.acquires = 0 ∧ t.releases = 0
  | .running   => t.acquired = true ∧ t.acquires = 1 ∧ t.releases = 0
  | .done      => t.acquires = t.acquired.toNat ∧ t.releases = t.acquires

theorem countP_put {p : Task → Bool} (h : s.tasks[i]? = some t) (t' : Task) :
    (s.put i t').tasks.countP p + (p t).toNat = s.tasks.countP p + (p t').toNat := by
  obtain ⟨hi, rfl⟩ := List.getElem?_eq_some_iff.mp h
  have hle : (p s.tasks[i]).toNat ≤ s.tasks.countP p := by
    cases hp : p s.tasks[i]
    case false => exact Nat.zero_le _
    case true  => exact List.countP_pos_iff.mpr ⟨_, List.getElem_mem hi, hp⟩
  have hset : (s.tasks.set i t').countP p = s.tasks.countP p - (p s.tasks[i]).toNat + (p t').toNat := by
    rw [List.countP_set hi]
    cases p s.tasks[i] <;> cases p t' <;> rfl
  rw [State.put]
  dsimp only
  omega

-- What a step does where a task is: it keeps the awaitable and what is closed, hands permits over, and closes all of an
-- awaitable at its end, unless the task was cancelled before its first step.
structure Moves (e : Event) (s s' : State) (t t' : Task) : Prop where
  awaitable : t'.awaitable = t.awaitable
  grows     : World.Grows s.world s'.world
  permits   : s'.value + t'.holds.toNat = s.value + t.holds.toNat
  balanced  : t'.Balanced
  closes    : t.awaitable.Sound → t'.phase = .done →
    t.phase = .done ∨ (t.phase = .created ∧ t.cancelling = true) ∨
      ∀ id ∈ t.awaitable.ids, s'.world.coroutines id = .closed
  created   : t'.phase = .created → t.phase = .created ∧ ∃ i, e = .cancel i

theorem tasks_set_self (h : s.tasks[i]? = some t) : s.tasks.set i t = s.tasks := by
  obtain ⟨hi, rfl⟩ := List.getElem?_eq_some_iff.mp h
  exact List.set_getElem_self hi

-- A task that has not acquired a permit closes its awaitable.
theorem leave_unacquired (h : t.acquired = false) :
    ∃ w, World.Grows s.world w ∧
      (t.awaitable.Sound → ∀ id ∈ t.awaitable.ids, w.coroutines id = .closed) ∧
      s.leave i t = { s with world := w }.put i { t with phase := .done } := by
  rw [State.leave, h, if_neg Bool.false_ne_true]
  cases hc : t.awaitable.isClosable
  case true  =>
    exact ⟨(t.awaitable.close s.world).fst, Awaitable.grows_closing _ _,
      fun hs => (Awaitable.close_sound _ _ hc hs).right, rfl⟩
  case false =>
    refine ⟨s.world, .refl, fun _ => ?_, rfl⟩
    rw [Awaitable.ids_of_not_closable hc]
    simp

-- A task that has acquired one releases it.
theorem leave_acquired (h : t.acquired = true) :
    s.leave i t =
      { s with value := s.value + 1 }.put i { t with phase := .done, releases := t.releases + 1 } := by
  rw [State.leave, if_pos h]

theorem moves_acquired {granted : Bool} (hb : t.Balanced)
    (hp : t.phase = .created ∧ granted = false ∧ 0 < s.value ∨ t.phase = .waiting true ∧ granted = true) :
    Moves e s ({ s with value := s.value - (!granted).toNat }.acquired i t) t
      { t with phase := .running, acquired := true, acquires := t.acquires + 1 } := by
  rw [Task.Balanced] at hb
  obtain ⟨hp, rfl, hv⟩ | ⟨hp, rfl⟩ := hp
  all_goals
    rw [hp] at hb
    refine ⟨rfl, Awaitable.grows_starting _ _, ?_, ?_, by simp, by simp⟩
  · simp only [State.acquired, State.put, Task.holds, hp]
    simp
    omega
  · simp [Task.Balanced, hb]
  · simp [State.acquired, State.put, Task.holds, hp]
  · simp [Task.Balanced, hb]

-- A task that waits closes its awaitable, and gives back the permit that was granted.
theorem moves_interrupted {granted : Bool} (hb : t.Balanced) (hp : t.phase = .waiting granted) :
    ∃ t', ({ s with value := s.value + granted.toNat }.leave i t).tasks = s.tasks.set i t' ∧
      Moves e s ({ s with value := s.value + granted.toNat }.leave i t) t t' := by
  rw [Task.Balanced, hp] at hb
  obtain ⟨w, hg, hc, hl⟩ := leave_unacquired (s := { s with value := s.value + granted.toNat }) (i := i) hb.left
  rw [hl]
  refine ⟨_, rfl, rfl, hg, ?_, ?_, fun hs _ => .inr (.inr (hc hs)), by simp⟩
  · cases granted <;> simp [State.put, Task.holds, hp]
  · simp [Task.Balanced, hb]

-- A task that runs has come to the end of its awaitable, and releases its permit.
theorem moves_finished (hb : t.Balanced) (hp : t.phase = .running) :
    ∃ t', ({ s with world := t.awaitable.settle s.world }.leave i t).tasks = s.tasks.set i t' ∧
      Moves e s ({ s with world := t.awaitable.settle s.world }.leave i t) t t' := by
  rw [Task.Balanced, hp] at hb
  rw [leave_acquired hb.left]
  refine ⟨_, rfl, rfl, Awaitable.grows_settle _ _, ?_, ?_,
    fun hs _ => .inr (.inr (Awaitable.settle_sound _ _ hs)), by simp⟩
  · simp [State.put, Task.holds, hp]
  · simp [Task.Balanced, hb]

theorem stepTask_moves (ht : s.tasks[i]? = some t) (hb : t.Balanced) (h : s.stepTask i t e = some s') :
    ∃ t', s'.tasks = s.tasks.set i t' ∧ Moves e s s' t t' := by
  cases e
  case spawn awaitable => cases h
  case enter j         =>
    obtain ⟨⟨hp, _, hv⟩, h⟩ := Option.ite_none_right_eq_some.mp h
    cases h
    exact ⟨_, rfl, moves_acquired hb (.inl ⟨hp, rfl, hv⟩)⟩
  case queue j         =>
    obtain ⟨⟨hp, _⟩, h⟩ := Option.ite_none_right_eq_some.mp h
    cases h
    refine ⟨_, rfl, rfl, .refl, ?_, ?_, by simp, by simp⟩
    · simp [State.put, Task.holds, hp]
    · simpa [Task.Balanced, hp] using hb
  case grant j         =>
    obtain ⟨⟨hp, _, hv⟩, h⟩ := Option.ite_none_right_eq_some.mp h
    cases h
    refine ⟨_, rfl, rfl, .refl, ?_, ?_, by simp, by simp⟩
    · simp [State.put, Task.holds, hp]
      omega
    · simpa [Task.Balanced, hp] using hb
  case resume j        =>
    obtain ⟨⟨hp, _⟩, h⟩ := Option.ite_none_right_eq_some.mp h
    cases h
    exact ⟨_, rfl, moves_acquired hb (.inr ⟨hp, rfl⟩)⟩
  case cancel j        =>
    rw [State.stepTask] at h
    split at h
    case isTrue hp  =>
      cases h
      exact ⟨t, (tasks_set_self ht).symm, rfl, .refl, rfl, hb, fun _ h => .inl h, fun hc => ⟨hc, j, rfl⟩⟩
    case isFalse hp =>
      cases h
      exact ⟨_, rfl, rfl, .refl, rfl, hb, fun _ h => .inl h, fun hc => ⟨hc, j, rfl⟩⟩
  case abort j         =>
    obtain ⟨⟨hp, hc⟩, h⟩ := Option.ite_none_right_eq_some.mp h
    cases h
    refine ⟨_, rfl, rfl, .refl, ?_, ?_, fun _ _ => .inr (.inl ⟨hp, hc⟩), by simp⟩
    · simp [State.put, Task.holds, hp]
    · rw [Task.Balanced, hp] at hb
      simp [Task.Balanced, hb]
  case interrupt j     =>
    rw [State.stepTask] at h
    split at h
    case isTrue hp  => cases h; exact moves_interrupted hb hp.left
    case isFalse    =>
      obtain ⟨⟨hp, _⟩, h⟩ := Option.ite_none_right_eq_some.mp h
      cases h
      exact moves_interrupted hb hp
  case start j id      =>
    obtain ⟨⟨hp, _⟩, h⟩ := Option.ite_none_right_eq_some.mp h
    cases h
    exact ⟨t, (tasks_set_self ht).symm, rfl, World.grows_start, rfl, hb, fun _ h => .inl h, by simp [hp]⟩
  case suppress j      =>
    obtain ⟨⟨hp, _⟩, h⟩ := Option.ite_none_right_eq_some.mp h
    cases h
    exact ⟨_, rfl, rfl, .refl, rfl, hb, fun _ h => .inl h, by simp [hp]⟩
  case finish j        =>
    obtain ⟨hp, h⟩ := Option.ite_none_right_eq_some.mp h
    cases h
    exact moves_finished hb hp

-- What a step does: it makes a task, or moves one.
theorem step_cases (hb : ∀ t ∈ s.tasks, t.Balanced) (h : s.step e = some s') :
    (∃ awaitable, e = .spawn awaitable ∧ s' = { s with tasks := s.tasks ++ [.create awaitable] }) ∨
      ∃ i t t', e.task = some i ∧ s.tasks[i]? = some t ∧ s'.tasks = s.tasks.set i t' ∧ Moves e s s' t t' ∧
        s.stepTask i t e = some s' := by
  have htask {i : Nat} (hi : e.task = some i) (h : (s.tasks[i]?.bind fun t => s.stepTask i t e) = some s') :
      ∃ i t t', e.task = some i ∧ s.tasks[i]? = some t ∧ s'.tasks = s.tasks.set i t' ∧ Moves e s s' t t' ∧
        s.stepTask i t e = some s' := by
    obtain ⟨t, ht, h⟩ := Option.bind_eq_some_iff.mp h
    obtain ⟨t', hs, hm⟩ := stepTask_moves ht (hb t (List.mem_of_getElem? ht)) h
    exact ⟨i, t, t', hi, ht, hs, hm, h⟩
  cases e
  case spawn awaitable => exact .inl ⟨awaitable, rfl, (Option.some.inj h).symm⟩
  all_goals exact .inr (htask rfl h)

-- The invariant of every run.
structure State.Ok (permits : Nat) (s : State) : Prop where
  conserved : s.value + s.tasks.countP Task.holds = permits
  balanced  : ∀ t ∈ s.tasks, t.Balanced

theorem step_ok (hs : s.Ok permits) (h : s.step e = some s') : s'.Ok permits := by
  obtain ⟨awaitable, rfl, rfl⟩ | ⟨i, t, t', _, ht, hset, hm, _⟩ := step_cases hs.balanced h
  · constructor
    case conserved =>
      rw [List.countP_append]
      simpa [Task.create, Task.holds] using hs.conserved
    case balanced  =>
      intro t ht
      cases List.mem_append.mp ht
      case inl ht => exact hs.balanced t ht
      case inr ht =>
        obtain rfl := List.mem_singleton.mp ht
        exact ⟨rfl, rfl, rfl⟩
  · constructor
    case conserved =>
      have hc : (s.put i t').tasks.countP Task.holds + t.holds.toNat =
          s.tasks.countP Task.holds + t'.holds.toNat := countP_put ht t'
      have hp := hm.permits
      have ho := hs.conserved
      rw [State.put] at hc
      rw [hset]
      dsimp only at hc
      omega
    case balanced  =>
      intro u hu
      rw [hset] at hu
      cases List.mem_or_eq_of_mem_set hu
      case inl hu => exact hs.balanced u hu
      case inr hu => exact hu ▸ hm.balanced

theorem run_ok (hs : s.Ok permits) (h : s.run events = some s') : s'.Ok permits := by
  induction events generalizing s
  case nil              => cases h; exact hs
  case cons e events hi =>
    obtain ⟨s₁, h₁, h⟩ := Option.bind_eq_some_iff.mp h
    exact hi (step_ok hs h₁) h

theorem init_ok : (State.init permits world).Ok permits :=
  ⟨rfl, by simp [State.init]⟩

-- What every step of a run is: awaitables are sound, and a task that has not made its first step is not cancelled.
def Timely (s : State) : Event → Prop
  | .spawn awaitable => awaitable.Sound
  | .cancel i        => ∀ t, s.tasks[i]? = some t → t.phase ≠ .created
  | _                => True

def State.Timely : State → List Event → Prop
  | _, []          => True
  | s, e :: events => Concurrency.Timely s e ∧ ∀ s', s.step e = some s' → s'.Timely events

-- The invariant of these runs.
structure State.Clean (s : State) : Prop where
  sound   : ∀ t ∈ s.tasks, t.awaitable.Sound
  created : ∀ t ∈ s.tasks, t.phase = .created → t.cancelling = false
  closed  : ∀ t ∈ s.tasks, t.phase = .done → ∀ id ∈ t.awaitable.ids, s.world.coroutines id = .closed

theorem step_clean (ho : s.Ok permits) (hs : s.Clean) (he : Timely s e) (h : s.step e = some s') : s'.Clean := by
  obtain ⟨awaitable, rfl, rfl⟩ | ⟨i, t, t', hi, ht, hset, hm, _⟩ := step_cases ho.balanced h
  · constructor
    case sound   => exact List.forall_mem_append.mpr ⟨hs.sound, List.forall_mem_singleton.mpr he⟩
    case created =>
      exact List.forall_mem_append.mpr ⟨hs.created, List.forall_mem_singleton.mpr fun _ => rfl⟩
    case closed  =>
      refine List.forall_mem_append.mpr ⟨hs.closed, List.forall_mem_singleton.mpr fun hd => ?_⟩
      cases hd
  · have hmem := List.mem_of_getElem? ht
    constructor
    case sound   =>
      intro u hu
      rw [hset] at hu
      cases List.mem_or_eq_of_mem_set hu
      case inl hu => exact hs.sound u hu
      case inr hu => rw [hu, hm.awaitable]; exact hs.sound t hmem
    case created =>
      intro u hu hc
      rw [hset] at hu
      cases List.mem_or_eq_of_mem_set hu
      case inl hu => exact hs.created u hu hc
      case inr hu =>
        subst hu
        obtain ⟨hc, j, rfl⟩ := hm.created hc
        cases hi
        exact absurd hc (he t ht)
    case closed  =>
      intro u hu hd id hid
      rw [hset] at hu
      cases List.mem_or_eq_of_mem_set hu
      case inl hu => exact hm.grows id (hs.closed u hu hd id hid)
      case inr hu =>
        subst hu
        rw [hm.awaitable] at hid
        obtain hd | ⟨hc, hcancel⟩ | hall := hm.closes (hs.sound t hmem) hd
        · exact hm.grows id (hs.closed t hmem hd id hid)
        · rw [hs.created t hmem hc] at hcancel
          cases hcancel
        · exact hall id hid

theorem run_clean (ho : s.Ok permits) (hs : s.Clean) (he : s.Timely events) (h : s.run events = some s') :
    s'.Clean := by
  induction events generalizing s
  case nil              => cases h; exact hs
  case cons e events hi =>
    obtain ⟨s₁, h₁, h⟩ := Option.bind_eq_some_iff.mp h
    exact hi (step_ok ho h₁) (step_clean ho hs he.left h₁) (he.right s₁ h₁) h

theorem init_clean : (State.init permits world).Clean := by
  constructor <;> intro t ht <;> cases ht

-- Permits are conserved in every run: no more tasks run than there are permits, and a task has released what it has
-- acquired just when it is done. In a run in which no task is cancelled before its first step, a task that is done
-- leaves nothing open of its awaitable.
theorem awaitLimited_conserves (h : (State.init permits world).run events = some s) :
    s.tasks.countP Task.isRunning ≤ permits ∧
    s.value + s.tasks.countP Task.holds = permits ∧
    (∀ t ∈ s.tasks, t.acquires ≤ 1 ∧ t.releases = if t.phase = .done then t.acquires else 0) ∧
    ((State.init permits world).Timely events → ∀ t ∈ s.tasks, t.phase = .done →
      ∀ id ∈ t.awaitable.ids, s.world.coroutines id = .closed) := by
  have ho := run_ok init_ok h
  refine ⟨?_, ho.conserved, ?_, fun he => (run_clean init_ok init_clean he h).closed⟩
  · have hle : s.tasks.countP Task.isRunning ≤ s.tasks.countP Task.holds :=
      List.countP_mono_left fun t _ hr => by simp_all [Task.isRunning, Task.holds]
    have hc := ho.conserved
    omega
  · intro t ht
    have hb := ho.balanced t ht
    rw [Task.Balanced] at hb
    cases hp : t.phase
    case created         => rw [hp] at hb; simp [hb]
    case waiting granted => rw [hp] at hb; simp [hb]
    case running         => rw [hp] at hb; simp [hb]
    case done            => rw [hp] at hb; cases ha : t.acquired <;> simp [hb, ha]

end Runs

namespace World

def unstarted : World where
  coroutines       := fun _ => .unstarted
  onUnstartedClose := fun _ => false
  calls            := []

end World

-- A task runs on the only permit while another one waits, is cancelled, and closes its batch.
namespace Queued

def events : List Event :=
  [.spawn (.coroutine 0), .spawn (.owned 1 (.coroutine 2) [.coroutine 3]), .enter 0, .queue 1, .cancel 1,
    .interrupt 1, .finish 0]

theorem timely : (State.init 1 .unstarted).Timely events := by
  refine ⟨trivial, fun s h => ?_⟩
  obtain rfl := Option.some.inj h
  refine ⟨⟨rfl, trivial, trivial, trivial⟩, fun s h => ?_⟩
  obtain rfl := Option.some.inj h
  refine ⟨trivial, fun s h => ?_⟩
  obtain rfl := Option.some.inj h
  refine ⟨trivial, fun s h => ?_⟩
  obtain rfl := Option.some.inj h
  refine ⟨fun t ht => ?_, fun s h => ?_⟩
  · obtain rfl := Option.some.inj ht
    decide
  obtain rfl := Option.some.inj h
  refine ⟨trivial, fun s h => ?_⟩
  obtain rfl := Option.some.inj h
  exact ⟨trivial, fun _ _ => trivial⟩

theorem run_closed : ∃ s, (State.init 1 .unstarted).run events = some s ∧ s.value = 1 ∧
    (s.tasks.map (·.awaitable.ids)).flatten = [0, 1, 2, 3] ∧
      ∀ t ∈ s.tasks, t.phase = .done → ∀ id ∈ t.awaitable.ids, s.world.coroutines id = .closed :=
  ⟨_, rfl, rfl, rfl, (awaitLimited_conserves rfl).right.right.right timely⟩

end Queued

-- A task is cancelled before its first step.
namespace Aborted

def events : List Event :=
  [.spawn (.coroutine 0), .cancel 0, .abort 0]

theorem not_closed : ¬∀ events s, (State.init 1 .unstarted).run events = some s →
    ∀ t ∈ s.tasks, t.phase = .done → ∀ id ∈ t.awaitable.ids, s.world.coroutines id = .closed := by
  intro h
  have hrun := h events _ rfl _ (.head _) rfl 0 (.head _)
  cases hrun

end Aborted

end Grafast.Concurrency
