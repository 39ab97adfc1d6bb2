import Mathlib.Logic.Function.Basic

namespace Grafast

namespace SharedTxn

-- What has happened to a connection of a request. A statement is late if the connection had been closed,
-- or its transaction committed, when it was issued.
structure AsyncConnection where
  opened    : Bool
  begun     : Bool
  commits   : Nat
  rollbacks : Nat
  closes    : Nat
  late      : Bool
  deriving DecidableEq

namespace AsyncConnection

def unopened : AsyncConnection where
  opened    := false
  begun     := false
  commits   := 0
  rollbacks := 0
  closes    := 0
  late      := false

def issue (conn : AsyncConnection) : AsyncConnection :=
  { conn with late := conn.late || 0 < conn.commits || 0 < conn.closes }

end AsyncConnection

-- The awaits of a statement. The connection, or the transaction of one, that is awaited is given by its number.
inductive Progress
  | idle
  | waiting
  | connecting
  | beginning (conn : Nat)
  | isolating (conn : Nat)
  | configuring (conn : Nat)
  | executing (conn : Nat)
  | committing (txn : Nat)
  | closing (conn : Nat)
  | done
  deriving DecidableEq

-- The awaits of aclose.
inductive Closer
  | idle
  | rollingBack (txn : Nat)
  | closing (conn : Nat)
  | done
  deriving DecidableEq

-- What the statements of a request ask for.
structure Request where
  commits  : Nat → Bool
  settings : Bool

-- The held state of the request, how far its statements are, and its connections so far.
structure State where
  txnConn  : Option Nat
  txn      : Option Nat
  openLock : Option Nat
  tasks    : Nat → Progress
  closer   : Closer
  opened   : Nat
  conns    : Nat → AsyncConnection

-- A statement is started, or goes on after the await that it is at, which has come to its end or raised.
inductive Action
  | start (task : Nat)
  | resume (task : Nat) (ok : Bool)
  | aclose
  | resumeClose (ok : Bool)
  deriving DecidableEq

namespace State

def init : State where
  txnConn  := none
  txn      := none
  openLock := none
  tasks _  := .idle
  closer   := .idle
  opened   := 0
  conns _  := .unopened

variable (s : State)

def goto (task : Nat) (progress : Progress) : State :=
  { s with tasks := Function.update s.tasks task progress }

def onConn (conn : Nat) (f : AsyncConnection → AsyncConnection) : State :=
  { s with conns := Function.update s.conns conn (f (s.conns conn)) }

-- The statement of a task is issued on the connection.
def execute (task conn : Nat) : State :=
  (s.onConn conn .issue).goto task (.executing conn)

-- With the lock held, a connection that is held by now is taken, or else one is opened.
def openConnection (task : Nat) : State :=
  match s.txnConn with
  | some conn => { s with openLock := none }.execute task conn
  | none      => { s with openLock := some task }.goto task .connecting

-- The connection is set up, and is held from now on.
def hold (task conn : Nat) : State :=
  { s with txnConn := some conn, txn := some conn, openLock := none }.execute task conn

def start (task : Nat) : State :=
  match s.txnConn with
  | some conn => s.execute task conn
  | none      => if s.openLock = none then s.openConnection task else s.goto task .waiting

-- An await of the setup that raises gives back the lock, and nothing else.
def failOpening (task : Nat) : State :=
  { s with openLock := none }.goto task .done

def resume (request : Request) (task : Nat) (ok : Bool) : Option State :=
  match s.tasks task, ok with
  | .idle, _                => none
  | .done, _                => none
  | .waiting, true          => if s.openLock = none then some (s.openConnection task) else none
  | .waiting, false         => some (s.goto task .done)
  | .connecting, true       =>
    some ({ s with opened := s.opened + 1 }.onConn s.opened ({ · with opened := true })
      |>.goto task (.beginning s.opened))
  | .connecting, false      => some (s.failOpening task)
  | .beginning conn, true   =>
    some ((s.onConn conn fun c => { c with begun := true }.issue).goto task (.isolating conn))
  | .beginning _, false     => some (s.failOpening task)
  | .isolating conn, true   =>
    if request.settings then
      some ((s.onConn conn .issue).goto task (.configuring conn))
    else
      some (s.hold task conn)
  | .isolating _, false     => some (s.failOpening task)
  | .configuring conn, true => some (s.hold task conn)
  | .configuring _, false   => some (s.failOpening task)
  | .executing _, true      =>
    if request.commits task then
      -- Without a transaction to commit, the task raises.
      match s.txn with
      | some txn => some (s.goto task (.committing txn))
      | none     => some (s.goto task .done)
    else
      some (s.goto task .done)
  | .executing _, false     => some (s.goto task .done)
  | .committing txn, true   =>
    let s := { s with txn := none }.onConn txn fun c => { c with commits := c.commits + 1 }
    match s.txnConn with
    | some conn => some (s.goto task (.closing conn))
    | none      => some (s.goto task .done)
  | .committing _, false    => some (s.goto task .done)
  | .closing conn, true     =>
    some (({ s with txnConn := none }.onConn conn fun c => { c with closes := c.closes + 1 }).goto task .done)
  | .closing _, false       => some (s.goto task .done)

def aclose : State :=
  match s.txnConn, s.txn with
  | none, _           => { s with closer := .done }
  | some _, some txn  => { s with closer := .rollingBack txn }
  | some conn, none   => { s with closer := .closing conn }

def resumeClose (ok : Bool) : Option State :=
  match s.closer, ok with
  | .idle, _               => none
  | .done, _               => none
  | .rollingBack txn, true =>
    let s := { s with txn := none }.onConn txn fun c => { c with rollbacks := c.rollbacks + 1 }
    match s.txnConn with
    | some conn => some { s with closer := .closing conn }
    | none      => some { s with closer := .done }
  | .rollingBack _, false  => some { s with closer := .done }
  | .closing conn, true    =>
    some { { s with txnConn := none }.onConn conn fun c => { c with closes := c.closes + 1 } with closer := .done }
  | .closing _, false      => some { s with closer := .done }

def step (request : Request) : Action → Option State
  | .start task     => if s.tasks task = .idle then some (s.start task) else none
  | .resume task ok => s.resume request task ok
  | .aclose         => if s.closer = .idle then some s.aclose else none
  | .resumeClose ok => s.resumeClose ok

def run (request : Request) : State → List Action → Option State
  | s, []           => some s
  | s, a :: actions => (s.step request a).bind (run request · actions)

end State

end SharedTxn

end Grafast
