import Grafast.Pg.SharedTxn
import Mathlib.Logic.Relation
import Mathlib.Tactic.Common

namespace Grafast

namespace SharedTxn

namespace AsyncConnection

-- A connection with an open transaction.
def active : AsyncConnection :=
  { unopened with opened := true, begun := true }

theorem issue_active : active.issue = active :=
  rfl

-- A connection whose transaction has been ended once, and that is closed as often as given.
structure Ended (conn : AsyncConnection) (closes : Nat) : Prop where
  opened : conn.opened = true
  ended  : conn.commits + conn.rollbacks = 1
  closes : conn.closes = closes
  late   : conn.late = false

end AsyncConnection

-- A statement that is at rest does nothing to the held state.
def Progress.Resting : Progress → Prop
  | idle | waiting | executing _ | done => True
  | _                                   => False

namespace State

section Updates

variable {s : State} {task u : Nat} {conn c : Nat} {progress : Progress}
variable {f : AsyncConnection → AsyncConnection}

@[simp] theorem goto_txnConn : (s.goto task progress).txnConn = s.txnConn := rfl
@[simp] theorem goto_txn : (s.goto task progress).txn = s.txn := rfl
@[simp] theorem goto_openLock : (s.goto task progress).openLock = s.openLock := rfl
@[simp] theorem goto_closer : (s.goto task progress).closer = s.closer := rfl
@[simp] theorem goto_opened : (s.goto task progress).opened = s.opened := rfl
@[simp] theorem goto_conns : (s.goto task progress).conns = s.conns := rfl

@[simp]
theorem goto_tasks_self : (s.goto task progress).tasks task = progress :=
  Function.update_self ..

@[simp]
theorem goto_tasks_ne (h : u ≠ task) : (s.goto task progress).tasks u = s.tasks u :=
  Function.update_of_ne h ..

@[simp] theorem onConn_txnConn : (s.onConn conn f).txnConn = s.txnConn := rfl
@[simp] theorem onConn_txn : (s.onConn conn f).txn = s.txn := rfl
@[simp] theorem onConn_openLock : (s.onConn conn f).openLock = s.openLock := rfl
@[simp] theorem onConn_tasks : (s.onConn conn f).tasks = s.tasks := rfl
@[simp] theorem onConn_closer : (s.onConn conn f).closer = s.closer := rfl
@[simp] theorem onConn_opened : (s.onConn conn f).opened = s.opened := rfl

@[simp]
theorem onConn_conns_self : (s.onConn conn f).conns conn = f (s.conns conn) :=
  Function.update_self ..

@[simp]
theorem onConn_conns_ne (h : c ≠ conn) : (s.onConn conn f).conns c = s.conns c :=
  Function.update_of_ne h ..

theorem onConn_eq_self (h : f (s.conns conn) = s.conns conn) : s.onConn conn f = s := by
  rw [onConn, h, Function.update_eq_self]

end Updates

-- A connection that the request has, and has not closed.
def Holds (s : State) (conn : Nat) : Prop :=
  (s.conns conn).opened = true ∧ (s.conns conn).closes = 0

-- Never more than one connection is held, no statement is late, no transaction is ended twice, and after
-- aclose, all transactions have been ended and all connections closed.
structure Bracketed (s : State) : Prop where
  single : ∀ c d, s.Holds c → s.Holds d → c = d
  issued : ∀ c, (s.conns c).late = false
  ended  : ∀ c, (s.conns c).commits + (s.conns c).rollbacks ≤ 1
  closed : s.closer = .done → ∀ c, (s.conns c).opened = true →
    (s.conns c).closes = 1 ∧ ((s.conns c).begun = true → (s.conns c).commits + (s.conns c).rollbacks = 1)

-- A commit or the rollback of the transaction is awaited.
def Ending (s : State) : Prop :=
  (∃ task txn, s.tasks task = .committing txn) ∨ ∃ txn, s.closer = .rollingBack txn

-- What is asked of a step: that no await of the setup or of aclose raises, that no statement takes a connection
-- whose transaction is over, that no transaction is committed while it is being ended, and that aclose comes
-- after the setup, the commits, and the start of all statements.
def Orderly (request : Request) (s : State) : Action → Prop
  | .start _        => s.closer ≠ .done ∧ (s.txn = none → s.txnConn = none)
  | .resume task ok =>
    match s.tasks task with
    | .waiting                                        => ok = true → s.txn = none → s.txnConn = none
    | .beginning _ | .isolating _ | .configuring _    => ok = true
    | .executing _                                    => ok = true → request.commits task = true → ¬s.Ending
    | _                                               => True
  | .aclose         => ∀ task, s.tasks task ≠ .waiting ∧ (s.tasks task).Resting
  | .resumeClose ok => ok = true

-- What holds of the tasks and connections, other than the one that acts and the one in use.
structure Settled (s : State) (actor current : Option Nat) : Prop where
  resting : ∀ task, some task ≠ actor → (s.tasks task).Resting
  waiting : s.closer ≠ .idle → ∀ task, s.tasks task ≠ .waiting
  gone    : ∀ conn, some conn ≠ current → s.conns conn = .unopened ∨ (s.conns conn).Ended 1
  fresh   : ∀ conn ≥ s.opened, s.conns conn = .unopened ∧ some conn ≠ current

-- The phases of the held state.
inductive Phase (s : State) : Prop
  | idle (txnConn : s.txnConn = none) (txn : s.txn = none) (openLock : s.openLock = none)
    (closer : s.closer = .idle ∨ s.closer = .done) (settled : s.Settled none none)
  | connecting (task : Nat) (txnConn : s.txnConn = none) (txn : s.txn = none) (openLock : s.openLock = some task)
    (progress : s.tasks task = .connecting) (closer : s.closer = .idle) (settled : s.Settled (some task) none)
  | beginning (task conn : Nat) (txnConn : s.txnConn = none) (txn : s.txn = none) (openLock : s.openLock = some task)
    (progress : s.tasks task = .beginning conn) (closer : s.closer = .idle)
    (current : s.conns conn = { AsyncConnection.unopened with opened := true })
    (settled : s.Settled (some task) (some conn))
  | opening (task conn : Nat) (txnConn : s.txnConn = none) (txn : s.txn = none) (openLock : s.openLock = some task)
    (progress : s.tasks task = .isolating conn ∨ s.tasks task = .configuring conn) (closer : s.closer = .idle)
    (current : s.conns conn = .active) (settled : s.Settled (some task) (some conn))
  | held (conn : Nat) (txnConn : s.txnConn = some conn) (txn : s.txn = some conn) (openLock : s.openLock = none)
    (closer : s.closer = .idle ∨ s.closer = .rollingBack conn)
    (current : s.conns conn = .active) (settled : s.Settled none (some conn))
  | committing (task conn : Nat) (txnConn : s.txnConn = some conn) (txn : s.txn = some conn)
    (openLock : s.openLock = none) (progress : s.tasks task = .committing conn) (closer : s.closer = .idle)
    (current : s.conns conn = .active) (settled : s.Settled (some task) (some conn))
  | closing (task conn : Nat) (txnConn : s.txnConn = some conn) (txn : s.txn = none)
    (openLock : s.openLock = none) (progress : s.tasks task = .closing conn) (closer : s.closer = .idle)
    (current : (s.conns conn).Ended 0) (settled : s.Settled (some task) (some conn))
  | ended (conn : Nat) (txnConn : s.txnConn = some conn) (txn : s.txn = none) (openLock : s.openLock = none)
    (closer : s.closer = .idle ∨ s.closer = .closing conn)
    (current : (s.conns conn).Ended 0) (settled : s.Settled none (some conn))

variable {s s' : State} {request : Request} {action : Action} {task actor : Nat} {conn : Nat}
variable {who current : Option Nat} {progress : Progress}

namespace Settled

-- The actor goes on, or a task at rest does.
theorem goto {who' : Option Nat} (h : s.Settled who current)
    (hw : ∀ u, u ≠ task → some u ≠ who' → some u ≠ who) (hp : some task ≠ who' → progress.Resting)
    (hc : progress = .waiting → s.closer = .idle) : (s.goto task progress).Settled who' current where
  resting u hu := by
    by_cases ht : u = task
    case pos => simpa [ht] using hp (ht ▸ hu)
    case neg => simpa [ht] using h.resting u (hw u ht hu)
  waiting hn u := by
    by_cases ht : u = task
    case pos => simpa [ht] using fun he => hn (hc he)
    case neg => simpa [ht] using h.waiting hn u
  gone         := h.gone
  fresh        := h.fresh

theorem congr (h : s.Settled who current) (ht : s'.tasks = s.tasks) (hc : s'.closer = s.closer)
    (ho : s'.opened = s.opened) (hn : s'.conns = s.conns) : s'.Settled who current where
  resting := ht ▸ h.resting
  waiting := ht ▸ hc ▸ h.waiting
  gone    := hn ▸ h.gone
  fresh   := hn ▸ ho ▸ h.fresh

-- A connection is opened under a number that none has had.
theorem connect (h : s.Settled who none) : ({ s with opened := s.opened + 1 }.onConn s.opened
    ({ · with opened := true })).Settled who (some s.opened) where
  resting      := h.resting
  waiting      := h.waiting
  gone c hc    := by
    have hne : c ≠ s.opened := fun he => hc (congrArg some he)
    rw [onConn_conns_ne hne]
    exact h.gone c (by simp)
  fresh c hc   := by
    have hlt : s.opened < c := hc
    rw [onConn_conns_ne (Nat.ne_of_gt hlt)]
    exact ⟨(h.fresh c (Nat.le_of_lt hlt)).left, by simpa using Nat.ne_of_gt hlt⟩

theorem onConn {f : AsyncConnection → AsyncConnection} (h : s.Settled who (some conn)) :
    (s.onConn conn f).Settled who (some conn) where
  resting    := h.resting
  waiting    := h.waiting
  gone c hc  := by
    have hne : c ≠ conn := fun he => hc (congrArg some he)
    rw [onConn_conns_ne hne]
    exact h.gone c hc
  fresh c hc := by
    have hne : c ≠ conn := fun he => (h.fresh c hc).right (congrArg some he)
    rw [onConn_conns_ne hne]
    exact h.fresh c hc

theorem release (h : s.Settled who (some conn)) (he : (s.conns conn).Ended 1) : s.Settled who none where
  resting    := h.resting
  waiting    := h.waiting
  gone c _   := by
    by_cases hc : c = conn
    case pos => exact .inr (hc ▸ he)
    case neg => exact h.gone c (by simpa using hc)
  fresh c hc := ⟨(h.fresh c hc).left, by simp⟩

theorem close (h : s.Settled who current) (hw : ∀ task, s.tasks task ≠ .waiting) (closer : Closer) :
    ({ s with closer := closer } : State).Settled who current :=
  ⟨h.resting, fun _ => hw, h.gone, h.fresh⟩

theorem eq_actor (h : s.Settled (some actor) current) (hr : ¬(s.tasks task).Resting) : task = actor := by
  by_contra hne
  exact hr (h.resting task (by simpa using hne))

end Settled

namespace Phase

-- A task that is at rest goes on at rest.
theorem goto (h : s.Phase) (ht : (s.tasks task).Resting) (hp : progress.Resting)
    (hc : progress = .waiting → s.closer = .idle) : (s.goto task progress).Phase := by
  have hne (actor : Nat) (ha : ¬(s.tasks actor).Resting) : actor ≠ task := fun he => ha (he ▸ ht)
  cases h
  case idle hx hy hl hcl hs                    =>
    exact .idle hx hy hl hcl (hs.goto (fun _ _ hu => hu) (fun _ => hp) hc)
  case connecting actor hx hy hl hpr hcl hs    =>
    have hn := hne actor (by simp [hpr, Progress.Resting])
    exact .connecting actor hx hy hl (by simpa [hn]) hcl (hs.goto (fun _ _ hu => hu) (fun _ => hp) hc)
  case beginning actor conn hx hy hl hpr hcl hcu hs =>
    have hn := hne actor (by simp [hpr, Progress.Resting])
    exact .beginning actor conn hx hy hl (by simpa [hn]) hcl hcu (hs.goto (fun _ _ hu => hu) (fun _ => hp) hc)
  case opening actor conn hx hy hl hpr hcl hcu hs =>
    have hn := hne actor (by obtain hpr | hpr := hpr <;> simp [hpr, Progress.Resting])
    exact .opening actor conn hx hy hl (by simpa [hn]) hcl hcu (hs.goto (fun _ _ hu => hu) (fun _ => hp) hc)
  case held conn hx hy hl hcl hcu hs =>
    exact .held conn hx hy hl hcl hcu (hs.goto (fun _ _ hu => hu) (fun _ => hp) hc)
  case committing actor conn hx hy hl hpr hcl hcu hs =>
    have hn := hne actor (by simp [hpr, Progress.Resting])
    exact .committing actor conn hx hy hl (by simpa [hn]) hcl hcu (hs.goto (fun _ _ hu => hu) (fun _ => hp) hc)
  case closing actor conn hx hy hl hpr hcl hcu hs =>
    have hn := hne actor (by simp [hpr, Progress.Resting])
    exact .closing actor conn hx hy hl (by simpa [hn]) hcl hcu (hs.goto (fun _ _ hu => hu) (fun _ => hp) hc)
  case ended conn hx hy hl hcl hcu hs =>
    exact .ended conn hx hy hl hcl hcu (hs.goto (fun _ _ hu => hu) (fun _ => hp) hc)

-- A statement is issued on a connection whose transaction is open.
theorem execute (h : s.Phase) (ht : (s.tasks task).Resting) (hx : s.txnConn = some conn) (hy : s.txn ≠ none) :
    (s.execute task conn).Phase := by
  have hc : s.conns conn = .active := by
    cases h <;> simp_all
  rw [State.execute, onConn_eq_self (by rw [hc, AsyncConnection.issue_active])]
  exact h.goto ht trivial (by simp)

theorem of_unlocked (h : s.Phase) (hx : s.txnConn = none) (hl : s.openLock = none) :
    s.txn = none ∧ s.Settled none none := by
  cases h <;> simp_all

theorem openConnection (h : s.Phase) (ht : (s.tasks task).Resting) (hcl : s.closer = .idle)
    (hl : s.openLock = none) (hy : s.txn = none → s.txnConn = none) : (s.openConnection task).Phase := by
  rw [State.openConnection.eq_def]
  split
  case h_1 conn hx =>
    have hs : { s with openLock := none } = s := by rw [← hl]
    rw [hs]
    exact h.execute ht hx fun hn => by simp [hy hn] at hx
  case h_2 hx =>
    obtain ⟨hy, hs⟩ := h.of_unlocked hx hl
    have hg : (s.goto task .connecting).Settled (some task) none :=
      hs.goto (fun _ _ _ => by simp) (fun h => absurd rfl h) (by simp)
    exact .connecting task hx hy rfl goto_tasks_self hcl (hg.congr rfl rfl rfl rfl)

theorem start (h : s.Phase) (ht : (s.tasks task).Resting) (ho : s.Orderly request (.start task)) :
    (s.start task).Phase := by
  rw [State.start.eq_def]
  split
  case h_1 conn hx => exact h.execute ht hx fun hn => by simp [ho.right hn] at hx
  case h_2 hx      =>
    have hcl : s.closer = .idle := by
      have := ho.left
      cases h <;> simp_all
    split
    case isTrue hl  => exact h.openConnection ht hcl hl fun _ => hx
    case isFalse hl => exact h.goto ht trivial fun _ => hcl

-- A task at rest starts to commit only what is held, and nobody else ends it.
theorem commit {txn : Nat} (h : s.Phase) (hy : s.txn = some txn) (he : ¬s.Ending) :
    (s.goto task (.committing txn)).Phase := by
  cases h
  case held conn hx hy' hl hcl hcu hs =>
    obtain rfl : conn = txn := by simpa [hy'] using hy
    have hcl : s.closer = .idle := hcl.resolve_right fun hr => he (.inr ⟨_, hr⟩)
    exact .committing task conn hx hy' hl goto_tasks_self hcl hcu
      (hs.goto (fun _ _ _ => by simp) (fun h => absurd rfl h) (by simp))
  case committing actor conn hx hy' hl hpr hcl hcu hs => exact absurd (.inl ⟨actor, conn, hpr⟩) he
  all_goals simp_all

theorem closer_of_waiting (h : s.Phase) (hp : s.tasks task = .waiting) : s.closer = .idle := by
  obtain ⟨_, _, hs⟩ : ∃ who current, s.Settled who current := by
    cases h <;> exact ⟨_, _, ‹s.Settled _ _›⟩
  by_contra hn
  exact hs.waiting hn task hp

-- A task at rest goes on to take or open the connection, to commit, or to its end.
theorem resume_resting {ok : Bool} (h : s.Phase) (ht : (s.tasks task).Resting)
    (ho : s.Orderly request (.resume task ok)) (hs : s.resume request task ok = some s') : s'.Phase := by
  have hd : (s.goto task .done).Phase := h.goto ht trivial (by simp)
  rw [Orderly] at ho
  cases hp : s.tasks task
  case waiting =>
    cases ok
    case false =>
      simp only [State.resume, hp, Option.some.injEq] at hs
      exact hs ▸ hd
    case true  =>
      simp only [State.resume, hp] at hs ho
      split at hs
      case isTrue hl =>
        cases hs
        exact h.openConnection ht (h.closer_of_waiting hp) hl (ho trivial)
      case isFalse   => cases hs
  case executing conn =>
    cases ok
    case false =>
      simp only [State.resume, hp, Option.some.injEq] at hs
      exact hs ▸ hd
    case true  =>
      simp only [State.resume, hp] at hs ho
      split at hs
      case isTrue hc =>
        split at hs
        case h_1 txn hy =>
          cases hs
          exact h.commit hy (ho trivial hc)
        case h_2 =>
          cases hs
          exact hd
      case isFalse =>
        cases hs
        exact hd
  case idle => simp [State.resume, hp] at hs
  case done => simp [State.resume, hp] at hs
  all_goals simp [hp, Progress.Resting] at ht

-- The await of a task that acts raises.
theorem release {p : Progress} (h : s.Settled (some task) current) (hp : p.Resting) (hw : p ≠ .waiting) :
    (s.goto task p).Settled none current :=
  h.goto (fun u hu _ => by simpa using hu) (fun _ => hp) (fun he => absurd he hw)

theorem act {p : Progress} (h : s.Settled (some task) current) (hw : p ≠ .waiting) :
    (s.goto task p).Settled (some task) current :=
  h.goto (fun _ _ hu => hu) (fun hu => absurd rfl hu) (fun he => absurd he hw)

theorem resume {ok : Bool} (h : s.Phase) (ho : s.Orderly request (.resume task ok))
    (hs : s.resume request task ok = some s') : s'.Phase := by
  by_cases ht : (s.tasks task).Resting
  case pos => exact h.resume_resting ht ho hs
  case neg =>
    rw [Orderly] at ho
    cases h
    case idle hset  => exact absurd (hset.resting task (by simp)) ht
    case held hset  => exact absurd (hset.resting task (by simp)) ht
    case ended hset => exact absurd (hset.resting task (by simp)) ht
    case connecting hx hy hl hpr hcl hset =>
      obtain rfl := hset.eq_actor ht
      cases ok
      case false =>
        simp only [State.resume, hpr, Option.some.injEq] at hs
        subst hs
        exact .idle hx hy rfl (.inl hcl) ((release hset (p := .done) trivial (by simp)).congr rfl rfl rfl rfl)
      case true  =>
        simp only [State.resume, hpr, Option.some.injEq] at hs
        subst hs
        refine .beginning task s.opened hx hy hl goto_tasks_self hcl ?_ (act hset.connect (by simp))
        rw [goto_conns, onConn_conns_self]
        exact congrArg (fun c : AsyncConnection => { c with opened := true }) (hset.fresh s.opened (Nat.le_refl _)).left
    case beginning conn hx hy hl hpr hcl hcu hset =>
      obtain rfl := hset.eq_actor ht
      simp only [hpr] at ho
      subst ho
      simp only [State.resume, hpr, Option.some.injEq] at hs
      subst hs
      refine .opening task conn hx hy hl (.inl goto_tasks_self) hcl ?_ (act hset.onConn (by simp))
      rw [goto_conns, onConn_conns_self, hcu]
      rfl
    case opening conn hx hy hl hpr hcl hcu hset =>
      obtain rfl := hset.eq_actor ht
      have hh : (s.hold task conn).Phase := by
        rw [hold, State.execute, onConn_eq_self (by rw [hcu, AsyncConnection.issue_active])]
        exact .held conn rfl rfl rfl (.inl hcl) hcu
          ((release hset (p := .executing conn) trivial (by simp)).congr rfl rfl rfl rfl)
      obtain hpr | hpr := hpr
      · simp only [hpr] at ho
        subst ho
        simp only [State.resume, hpr] at hs
        split at hs
        case isTrue  =>
          cases hs
          refine .opening task conn hx hy hl (.inr goto_tasks_self) hcl ?_ (act hset.onConn (by simp))
          rw [goto_conns, onConn_conns_self, hcu, AsyncConnection.issue_active]
        case isFalse =>
          cases hs
          exact hh
      · simp only [hpr] at ho
        subst ho
        simp only [State.resume, hpr, Option.some.injEq] at hs
        exact hs ▸ hh
    case committing conn hx hy hl hpr hcl hcu hset =>
      obtain rfl := hset.eq_actor ht
      cases ok
      case false =>
        simp only [State.resume, hpr, Option.some.injEq] at hs
        subst hs
        exact .held conn hx hy hl (.inl hcl) hcu (release hset trivial (by simp))
      case true  =>
        simp only [State.resume, hpr, onConn_txnConn, hx, Option.some.injEq] at hs
        subst hs
        have hc := act (hset.onConn (f := fun c => { c with commits := c.commits + 1 })) (p := .closing conn)
          (by simp)
        refine .closing task conn rfl rfl hl goto_tasks_self hcl ?_ (hc.congr rfl rfl rfl rfl)
        rw [goto_conns, onConn_conns_self, hcu]
        exact ⟨rfl, rfl, rfl, rfl⟩
    case closing conn hx hy hl hpr hcl hcu hset =>
      obtain rfl := hset.eq_actor ht
      cases ok
      case false =>
        simp only [State.resume, hpr, Option.some.injEq] at hs
        subst hs
        exact .ended conn hx hy hl (.inl hcl) hcu (release hset trivial (by simp))
      case true  =>
        simp only [State.resume, hpr, Option.some.injEq] at hs
        subst hs
        have hc : (s.onConn conn fun c => { c with closes := c.closes + 1 }).Settled (some task) none := by
          refine hset.onConn.release ?_
          rw [onConn_conns_self]
          exact { hcu with closes := congrArg (· + 1) hcu.closes }
        exact .idle rfl hy hl (.inl hcl) ((release hc (p := .done) trivial (by simp)).congr rfl rfl rfl rfl)

theorem aclose (h : s.Phase) (ho : s.Orderly request .aclose) : s.aclose.Phase := by
  have hw (task : Nat) : s.tasks task ≠ .waiting := (ho task).left
  have hr {task : Nat} {p : Progress} (hp : s.tasks task = p) : p.Resting := hp ▸ (ho task).right
  cases h
  case idle hx hy hl _ hset            =>
    simp only [State.aclose, hx]
    exact .idle rfl hy hl (.inr rfl) ((hset.close hw .done).congr rfl rfl rfl rfl)
  case held conn hx hy hl _ hcu hset   =>
    simp only [State.aclose, hx, hy]
    exact .held conn rfl rfl hl (.inr rfl) hcu ((hset.close hw (.rollingBack conn)).congr rfl rfl rfl rfl)
  case ended conn hx hy hl _ hcu hset  =>
    simp only [State.aclose, hx, hy]
    exact .ended conn rfl rfl hl (.inr rfl) hcu ((hset.close hw (.closing conn)).congr rfl rfl rfl rfl)
  case connecting hp _ _               => exact (hr hp).elim
  case beginning hp _ _ _              => exact (hr hp).elim
  case opening hp _ _ _                => exact hp.elim (fun hp => (hr hp).elim) fun hp => (hr hp).elim
  case committing hp _ _ _             => exact (hr hp).elim
  case closing hp _ _ _                => exact (hr hp).elim

theorem resumeClose {ok : Bool} (h : s.Phase) (ho : s.Orderly request (.resumeClose ok))
    (hs : s.resumeClose ok = some s') : s'.Phase := by
  obtain rfl : ok = true := ho
  cases hcl : s.closer
  case idle => simp [State.resumeClose, hcl] at hs
  case done => simp [State.resumeClose, hcl] at hs
  case rollingBack txn =>
    have hn : s.closer ≠ .idle := by simp [hcl]
    cases h
    case held conn hx hy hl hc hcu hset =>
      obtain rfl : txn = conn := by simpa [hcl] using hc
      simp only [State.resumeClose, hcl, onConn_txnConn, hx, Option.some.injEq] at hs
      subst hs
      have hc := hset.onConn (f := fun c => { c with rollbacks := c.rollbacks + 1 })
      have he : ((s.onConn txn fun c => { c with rollbacks := c.rollbacks + 1 }).conns txn).Ended 0 := by
        rw [onConn_conns_self, hcu]
        exact ⟨rfl, rfl, rfl, rfl⟩
      exact .ended txn rfl rfl hl (.inr rfl) he
        ((hc.close (hset.waiting hn) (.closing txn)).congr rfl rfl rfl rfl)
    case idle hc _    => exact absurd hc (by simp [hcl])
    case ended hc _ _ => exact absurd hc (by simp [hcl])
    all_goals exact absurd ‹s.closer = .idle› hn
  case closing conn =>
    have hn : s.closer ≠ .idle := by simp [hcl]
    cases h
    case ended conn' hx hy hl hc hcu hset =>
      obtain rfl : conn = conn' := by simpa [hcl] using hc
      simp only [State.resumeClose, hcl, Option.some.injEq] at hs
      subst hs
      have hr : (s.onConn conn fun c => { c with closes := c.closes + 1 }).Settled none none := by
        refine hset.onConn.release ?_
        rw [onConn_conns_self]
        exact { hcu with closes := congrArg (· + 1) hcu.closes }
      exact .idle rfl hy hl (.inr rfl) ((hr.close (hset.waiting hn) .done).congr rfl rfl rfl rfl)
    case idle hc _   => exact absurd hc (by simp [hcl])
    case held hc _ _ => exact absurd hc (by simp [hcl])
    all_goals exact absurd ‹s.closer = .idle› hn

-- An orderly step leads from phase to phase.
theorem step (h : s.Phase) (ho : s.Orderly request action) (hs : s.step request action = some s') :
    s'.Phase := by
  cases action
  case start task         =>
    simp only [State.step] at hs
    split at hs
    case isTrue hp =>
      cases hs
      exact h.start (by rw [hp]; trivial) ho
    case isFalse   => cases hs
  case resume task ok     => exact h.resume ho hs
  case aclose             =>
    simp only [State.step] at hs
    split at hs
    case isTrue  =>
      cases hs
      exact h.aclose ho
    case isFalse => cases hs
  case resumeClose ok     => exact h.resumeClose ho hs

theorem init : State.init.Phase :=
  .idle rfl rfl rfl (.inl rfl) ⟨fun _ _ => trivial, fun _ _ => by simp [State.init], fun _ _ => .inl rfl,
    fun _ _ => ⟨rfl, by simp⟩⟩

-- The connection in use is neither closed nor late, and there is none after aclose.
theorem exists_current (h : s.Phase) : ∃ current,
    (∀ c, some c ≠ current → s.conns c = .unopened ∨ (s.conns c).Ended 1) ∧
    (∀ c, some c = current → (s.conns c).closes = 0 ∧ (s.conns c).late = false ∧
      (s.conns c).commits + (s.conns c).rollbacks ≤ 1) ∧
    (s.closer = .done → current = none) := by
  have ha {conn : Nat} (hcu : s.conns conn = .active) (c : Nat) (hc : some c = some conn) :
      (s.conns c).closes = 0 ∧ (s.conns c).late = false ∧ (s.conns c).commits + (s.conns c).rollbacks ≤ 1 := by
    obtain rfl := Option.some.inj hc
    rw [hcu]
    exact ⟨rfl, rfl, Nat.zero_le 1⟩
  have he {conn : Nat} (hcu : (s.conns conn).Ended 0) (c : Nat) (hc : some c = some conn) :
      (s.conns c).closes = 0 ∧ (s.conns c).late = false ∧ (s.conns c).commits + (s.conns c).rollbacks ≤ 1 := by
    obtain rfl := Option.some.inj hc
    exact ⟨hcu.closes, hcu.late, Nat.le_of_eq hcu.ended⟩
  cases h
  case idle hset                       => exact ⟨none, hset.gone, by simp, fun _ => rfl⟩
  case connecting hset                 => exact ⟨none, hset.gone, by simp, fun _ => rfl⟩
  case beginning conn _ _ _ _ hcl hcu hset =>
    refine ⟨some conn, hset.gone, fun c hc => ?_, fun hd => by simp [hcl] at hd⟩
    obtain rfl := Option.some.inj hc
    rw [hcu]
    exact ⟨rfl, rfl, Nat.zero_le 1⟩
  case opening hcl hcu hset            => exact ⟨_, hset.gone, ha hcu, fun hd => by simp [hcl] at hd⟩
  case held hcl hcu hset               => exact ⟨_, hset.gone, ha hcu, fun hd => by simp [hd] at hcl⟩
  case committing hcl hcu hset         => exact ⟨_, hset.gone, ha hcu, fun hd => by simp [hcl] at hd⟩
  case closing hcl hcu hset            => exact ⟨_, hset.gone, he hcu, fun hd => by simp [hcl] at hd⟩
  case ended hcl hcu hset              => exact ⟨_, hset.gone, he hcu, fun hd => by simp [hd] at hcl⟩

theorem bracketed (h : s.Phase) : s.Bracketed := by
  obtain ⟨current, hgone, hcurrent, hdone⟩ := h.exists_current
  have holds {c : Nat} (hc : s.Holds c) : some c = current := by
    by_contra hn
    rcases hgone c hn with hu | hu
    · exact absurd hc.left (by rw [hu]; decide)
    · exact absurd (hu.closes.symm.trans hc.right) (by decide)
  constructor
  case single => exact fun c d hc hd => Option.some.inj ((holds hc).trans (holds hd).symm)
  case issued =>
    intro c
    by_cases hc : some c = current
    case pos => exact (hcurrent c hc).right.left
    case neg => exact (hgone c hc).elim (fun hu => by rw [hu]; rfl) (·.late)
  case ended  =>
    intro c
    by_cases hc : some c = current
    case pos => exact (hcurrent c hc).right.right
    case neg => exact (hgone c hc).elim (fun hu => by rw [hu]; decide) (Nat.le_of_eq ·.ended)
  case closed =>
    intro hd c ho
    have hc : some c ≠ current := by simp [hdone hd]
    rcases hgone c hc with hu | hu
    · exact absurd ho (by rw [hu]; decide)
    · exact ⟨hu.closes, fun _ => hu.ended⟩

end Phase

-- A run of orderly steps.
def OrderlyStep (request : Request) (s s' : State) : Prop :=
  ∃ action, s.Orderly request action ∧ s.step request action = some s'

-- Every state of a run of orderly steps is bracketed.
theorem run_bracketed (request : Request) (h : Relation.ReflTransGen (OrderlyStep request) .init s) :
    s.Bracketed := by
  have hp : s.Phase := by
    induction h
    case refl         => exact .init
    case tail hs hi   =>
      obtain ⟨action, ho, hs⟩ := hs
      exact hi.step ho hs
  exact hp.bracketed

-- The isolation level of a read cannot be set, and its connection is never closed.
theorem not_bracketed : ∃ s,
    run ⟨fun _ => false, false⟩ .init [.start 0, .resume 0 true, .resume 0 true, .resume 0 false, .aclose] =
      some s ∧ s.closer = .done ∧ ¬s.Bracketed := by
  refine ⟨_, rfl, rfl, fun h => ?_⟩
  exact absurd (h.closed rfl 0 rfl).left (by decide)

-- A read opens the connection while a write waits for the lock. The write goes on while the read is executing,
-- and commits and closes, before the request ends.
def readBesideWrite : Request where
  commits task := task = 1
  settings     := true

def readActions : List Action :=
  [.start 0, .start 1, .resume 0 true, .resume 0 true, .resume 0 true, .resume 0 true, .resume 1 true,
    .resume 1 true, .resume 0 true, .resume 1 true, .resume 1 true, .aclose]

theorem run_bracketed_read : ∃ s, run readBesideWrite .init readActions = some s ∧
    s.closer = .done ∧ s.conns 0 = ⟨true, true, 1, 0, 1, false⟩ ∧ s.Bracketed := by
  refine ⟨_, rfl, rfl, rfl, run_bracketed readBesideWrite ?_⟩
  have started : Relation.ReflTransGen (OrderlyStep readBesideWrite) .init _ :=
    .tail (.tail .refl ⟨.start 0, ⟨by decide, fun _ => rfl⟩, rfl⟩) ⟨.start 1, ⟨by decide, fun _ => rfl⟩, rfl⟩
  have held := started.tail ⟨.resume 0 true, trivial, rfl⟩ |>.tail ⟨.resume 0 true, rfl, rfl⟩
    |>.tail ⟨.resume 0 true, rfl, rfl⟩ |>.tail ⟨.resume 0 true, rfl, rfl⟩
  have written := held.tail ⟨.resume 1 true, fun _ h => absurd h (by decide), rfl⟩
  have committing := written.tail ⟨.resume 1 true, fun _ _ he => ?_, rfl⟩
  case refine_1 =>
    cases he
    case inl hc =>
      obtain ⟨task, txn, ht⟩ := hc
      obtain _ | _ | _ := task <;> exact Progress.noConfusion ht
    case inr hr => exact hr.elim fun _ ht => Closer.noConfusion ht
  have closed := committing.tail ⟨.resume 0 true, fun _ h => absurd h (by decide), rfl⟩
    |>.tail ⟨.resume 1 true, trivial, rfl⟩ |>.tail ⟨.resume 1 true, trivial, rfl⟩
  refine closed.tail ⟨.aclose, ?_, rfl⟩
  intro task
  cases task
  case zero   => exact ⟨by decide, trivial⟩
  case succ n =>
    cases n
    case zero   => exact ⟨by decide, trivial⟩
    case succ n => exact ⟨Progress.noConfusion, trivial⟩

end State

end SharedTxn

end Grafast
