import Mathlib.Logic.Function.Basic

namespace Grafast.Concurrency

-- How far a coroutine is. One that has returned or raised is closed.
inductive CoState
  | unstarted
  | started
  | closed
  deriving DecidableEq

-- A coroutine, a wrapper with its driver, the awaitable that it wraps and those that it owns, or another awaitable,
-- such as a future, which has nothing to close.
inductive Awaitable
  | coroutine (id : Nat)
  | owned (driver : Nat) (awaitable : Awaitable) (owned : List Awaitable)
  | other

-- The coroutines, the wrappers that have an on_unstarted_close by their drivers, and the calls of these so far.
structure World where
  coroutines       : Nat → CoState
  onUnstartedClose : Nat → Bool
  calls            : List Nat

namespace World

def close (w : World) (id : Nat) : World :=
  { w with coroutines := Function.update w.coroutines id .closed }

-- A coroutine is started once.
def start (w : World) (id : Nat) : World :=
  if w.coroutines id = .unstarted then { w with coroutines := Function.update w.coroutines id .started } else w

def forget (w : World) (driver : Nat) : World :=
  { w with onUnstartedClose := Function.update w.onUnstartedClose driver false }

def callBack (w : World) (driver : Nat) : World :=
  if w.onUnstartedClose driver then { w.forget driver with calls := w.calls ++ [driver] } else w

end World

namespace Awaitable

-- iscoroutine(awaitable) or isinstance(awaitable, OwnedAwaitable)
def isClosable : Awaitable → Bool
  | coroutine _ => true
  | owned _ _ _ => true
  | other       => false

mutual

-- Closes an awaitable, and tells whether that raises. A wrapper closes its driver and what it wraps, which may have
-- no close, then those that it owns, and calls back in any case.
def close : Awaitable → World → World × Bool
  | coroutine id,             w => (w.close id, false)
  | other,                    w => (w, true)
  | owned driver awaitable cs, w =>
    let inner := awaitable.close (w.close driver)
    let all := if inner.snd then inner else closeOwned cs inner.fst
    (all.fst.callBack driver, all.snd)

def closeOwned : List Awaitable → World → World × Bool
  | [],      w => (w, false)
  | c :: cs, w =>
    let first := if c.isClosable then c.close w else (w, false)
    if first.snd then first else closeOwned cs first.fst

end

-- An await of an awaitable starts it, with what it wraps.
def start : Awaitable → World → World
  | coroutine id,             w => w.start id
  | other,                    w => w
  | owned driver awaitable _, w => awaitable.start ((w.forget driver).start driver)

-- The end of an awaitable that was started. A wrapper closes those that it owns.
def settle : Awaitable → World → World
  | coroutine id,             w => w.close id
  | other,                    w => w
  | owned driver awaitable cs, w => (closeOwned cs (awaitable.settle w)).fst.close driver

mutual

-- The coroutines of an awaitable.
def ids : Awaitable → List Nat
  | coroutine id              => [id]
  | other                     => []
  | owned driver awaitable cs => driver :: (awaitable.ids ++ idsOwned cs)

def idsOwned : List Awaitable → List Nat
  | []      => []
  | c :: cs => c.ids ++ idsOwned cs

end

mutual

-- Each wrapper is around a coroutine or around another wrapper.
def Sound : Awaitable → Prop
  | coroutine _          => True
  | other                => True
  | owned _ awaitable cs => awaitable.isClosable = true ∧ awaitable.Sound ∧ SoundOwned cs

def SoundOwned : List Awaitable → Prop
  | []      => True
  | c :: cs => c.Sound ∧ SoundOwned cs

end

end Awaitable

-- Where a task is that runs await_limited: its first step is still to come, it waits for a permit, which may have been
-- granted to it already, it awaits its awaitable, or it has returned or raised.
inductive Phase
  | created
  | waiting (granted : Bool)
  | running
  | done
  deriving DecidableEq

structure Task where
  awaitable  : Awaitable
  phase      : Phase
  acquired   : Bool
  cancelling : Bool
  acquires   : Nat
  releases   : Nat

namespace Task

def create (awaitable : Awaitable) : Task where
  awaitable  := awaitable
  phase      := .created
  acquired   := false
  cancelling := false
  acquires   := 0
  releases   := 0

def isRunning (t : Task) : Bool :=
  t.phase = .running

-- A permit is taken from the semaphore for the task.
def holds (t : Task) : Bool :=
  t.phase = .running || t.phase = .waiting true

end Task

structure State where
  value : Nat
  tasks : List Task
  world : World

-- The semaphore grants permits to tasks that wait in any order. A task that is cancelled raises when it goes on.
inductive Event
  | spawn (awaitable : Awaitable)
  | enter (task : Nat)
  | queue (task : Nat)
  | grant (task : Nat)
  | resume (task : Nat)
  | cancel (task : Nat)
  | abort (task : Nat)
  | interrupt (task : Nat)
  | start (task coroutine : Nat)
  | suppress (task : Nat)
  | finish (task : Nat)

namespace State

def init (permits : Nat) (world : World) : State where
  value := permits
  tasks := []
  world := world

def put (s : State) (i : Nat) (t : Task) : State :=
  { s with tasks := s.tasks.set i t }

-- After the acquire, the awaitable is awaited.
def acquired (s : State) (i : Nat) (t : Task) : State :=
  { s with world := t.awaitable.start s.world }.put i
    { t with phase := .running, acquired := true, acquires := t.acquires + 1 }

-- The finally of the task.
def leave (s : State) (i : Nat) (t : Task) : State :=
  if t.acquired then
    { s with value := s.value + 1 }.put i { t with phase := .done, releases := t.releases + 1 }
  else if t.awaitable.isClosable then
    { s with world := (t.awaitable.close s.world).fst }.put i { t with phase := .done }
  else
    s.put i { t with phase := .done }

-- What an event does to a task, if the task is where the event happens.
def stepTask (s : State) (i : Nat) (t : Task) : Event → Option State
  | .spawn _     => none
  | .enter _     =>
    if t.phase = .created ∧ !t.cancelling ∧ 0 < s.value then some ({ s with value := s.value - 1 }.acquired i t)
    else none
  | .queue _     =>
    if t.phase = .created ∧ !t.cancelling then some (s.put i { t with phase := .waiting false }) else none
  | .grant _     =>
    if t.phase = .waiting false ∧ !t.cancelling ∧ 0 < s.value then
      some ({ s with value := s.value - 1 }.put i { t with phase := .waiting true })
    else none
  | .resume _    => if t.phase = .waiting true ∧ !t.cancelling then some (s.acquired i t) else none
  | .cancel _    => if t.phase = .done then some s else some (s.put i { t with cancelling := true })
  -- The body of a coroutine that is cancelled before its first step does not run, nor does its finally.
  | .abort _     => if t.phase = .created ∧ t.cancelling then some (s.put i { t with phase := .done }) else none
  -- A permit that was granted is given back before the acquire raises.
  | .interrupt _ =>
    if t.phase = .waiting true ∧ t.cancelling then some ({ s with value := s.value + 1 }.leave i t)
    else if t.phase = .waiting false ∧ t.cancelling then some (s.leave i t)
    else none
  | .start _ id  =>
    if t.phase = .running ∧ t.awaitable.ids.contains id then some { s with world := s.world.start id } else none
  | .suppress _  =>
    if t.phase = .running ∧ t.cancelling then some (s.put i { t with cancelling := false }) else none
  | .finish _    =>
    if t.phase = .running then some ({ s with world := t.awaitable.settle s.world }.leave i t) else none

end State

namespace Event

def task : Event → Option Nat
  | spawn _     => none
  | enter i     => some i
  | queue i     => some i
  | grant i     => some i
  | resume i    => some i
  | cancel i    => some i
  | abort i     => some i
  | interrupt i => some i
  | start i _   => some i
  | suppress i  => some i
  | finish i    => some i

end Event

namespace State

def step (s : State) (e : Event) : Option State :=
  match e with
  | .spawn awaitable => some { s with tasks := s.tasks ++ [.create awaitable] }
  | e                => e.task.bind fun i => s.tasks[i]?.bind fun t => s.stepTask i t e

def run : State → List Event → Option State
  | s, []          => some s
  | s, e :: events => (s.step e).bind (run · events)

end State

end Grafast.Concurrency
