import Mathlib.Logic.Function.Basic
import NetProg.Lib.Loop
import NetProg.Reactor.Messages
import NetProg.Reactor.Socket

/-!
# The Reactor server (`TcpServer.hpp`, `Server.cc`)

One process serves every connection: `HandlerEvents` walks a batch of ready descriptors and calls
the callbacks of their `Connection` objects. A `Connection` lives in a heap, from which `Excepter`
deletes it; reading a null or deleted one ends the program with `Stop.dead`. What the kernel decides
(the results of `accept`, `recv` and `send`) is given to each handler as a list of answers, one for
each call it makes; a handler whose list ends inside its loop has not returned (`Stop.pending`).

The state also keeps the calls made so far, newest last. Log lines (but for the one that ends the
program), timeouts, peer addresses and the non-blocking flag (an answer `EAGAIN` is always possible
here) are left out. So is `_server_ptr`, which `AddConnection` sets to the only server.
-/

namespace NetProg.Reactor

open NetProg.Lib Function

/-! ### Data -/

/-- A descriptor. -/
abbrev Fd := ℕ

/-- The address of a `Connection`. -/
abbrev Ptr := ℕ

/-- A set of epoll event bits. -/
structure Events where
  epollin : Bool := false
  epollout : Bool := false
  epollerr : Bool := false
  epollhup : Bool := false
  epollet : Bool := false
  deriving DecidableEq, Repr

/-- The methods that are bound as `_recv_cb`, `_send_cb` and `_except_cb`. -/
inductive RecvCb where
  | accepter
  | recver
  deriving DecidableEq, Repr

inductive SendCb where
  | sender
  deriving DecidableEq, Repr

inductive ExceptCb where
  | excepter
  deriving DecidableEq, Repr

structure Connection where
  sock : Fd
  recvCb : Option RecvCb := none
  sendCb : Option SendCb := none
  exceptCb : Option ExceptCb := none
  inBuffer : Bytes := []
  outBuffer : Bytes := []
  deriving DecidableEq, Repr

/-- What `accept` gives: a connected descriptor, with the result that `epoll_ctl` will give on
adding it, or -1 and `errno`. -/
inductive AcceptAns where
  | conn (fd : Fd) (added : Bool)
  | fail (e : Errno)
  deriving DecidableEq, Repr

/-- A call with its result, as it is recorded. -/
inductive Call where
  | accept (a : AcceptAns)
  | insert (fd : Fd) (inserted : Bool)
  | recv (conn : Ptr) (a : RecvAns)
  | handler (conn : Ptr) (request : Bytes)
  | send (conn : Ptr) (buf : Bytes) (a : SendAns)
  | close (fd : Fd)
  | delete (conn : Ptr)
  deriving DecidableEq, Repr

/-- The `errno` that a call leaves behind, if it sets one. -/
def Call.errno : Call → Option Errno
  | .accept (.fail e) => some e
  | .recv _ (.fail e) => some e
  | .send _ _ (.fail e) => some e
  | _ => none

structure TcpServer where
  listensock : Fd
  /-- `_connections` -/
  connections : Fd → Option Ptr
  /-- the live `Connection` objects, and the address of the next one -/
  heap : Ptr → Option Connection
  next : Ptr
  /-- the interest registered in epoll -/
  epoll : Fd → Option Events
  isOpen : Fd → Bool
  errno : Errno
  trace : List Call

/-- Why the program ends or does not go on. -/
inductive Stop where
  /-- the answers end inside a loop: the call has not returned -/
  | pending
  /-- a log line takes `errno` for the address of a string -/
  | badLog
  /-- the signal that `send` raises when the peer has closed the connection -/
  | sigpipe
  /-- a field of a null or deleted `Connection` is read -/
  | dead
  /-- an empty `std::function` is called -/
  | nullCallback
  /-- the assertion of `EnableRW` fails -/
  | assertion
  | arith (fault : ArithFault)
  deriving DecidableEq, Repr

abbrev Run := Except Stop

namespace TcpServer

variable (s : TcpServer)

/-! ### The kernel and the heap -/

def log (c : Call) : TcpServer :=
  { s with trace := s.trace ++ [c], errno := c.errno.getD s.errno }

/-- `EPOLL_CTL_ADD`: fails on a registered descriptor, and when the kernel says so. -/
def addEvent (sock : Fd) (events : Events) (added : Bool) : TcpServer :=
  if added ∧ s.epoll sock = none then { s with epoll := update s.epoll sock (some events) } else s

/-- `EPOLL_CTL_MOD`: fails on a descriptor that is not registered. -/
def modEvent (sock : Fd) (events : Events) : Bool × TcpServer :=
  if s.epoll sock = none then (false, s)
  else (true, { s with epoll := update s.epoll sock (some events) })

def delEvent (sock : Fd) : TcpServer := { s with epoll := update s.epoll sock none }

/-- Closing a descriptor also takes it out of epoll. -/
def close (sock : Fd) : TcpServer :=
  ({ s with isOpen := update s.isOpen sock false, epoll := update s.epoll sock none }).log
    (.close sock)

def deref (conn : Ptr) : Run Connection :=
  match s.heap conn with
  | some c => .ok c
  | none => .error .dead

def store (conn : Ptr) (c : Connection) : TcpServer :=
  { s with heap := update s.heap conn (some c) }

def delete (conn : Ptr) : TcpServer :=
  ({ s with heap := update s.heap conn none }).log (.delete conn)

/-- `insert`, which leaves an entry that is there as it is. -/
def insert (sock : Fd) (conn : Ptr) : TcpServer :=
  let absent := (s.connections sock).isNone
  ({ s with connections :=
      if absent then update s.connections sock (some conn) else s.connections }).log
    (.insert sock absent)

/-! ### Connections -/

def addConnection (sock : Fd) (added : Bool) (recvCb : Option RecvCb) (sendCb : Option SendCb)
    (exceptCb : Option ExceptCb) : TcpServer :=
  let conn := s.next
  let s := { s with next := conn + 1 }
  let s := s.store conn { sock, recvCb, sendCb, exceptCb }
  let s := s.insert sock conn
  s.addEvent sock { epollin := true, epollet := true } added

def connIsExists (sock : Fd) : Bool := (s.connections sock).isSome

/-- The constructor: the listening descriptor is the only connection. -/
def init (listensock : Fd) : TcpServer :=
  ({ listensock, connections := fun _ => none, heap := fun _ => none, next := 0,
     epoll := fun _ => none, isOpen := update (fun _ => false) listensock true,
     errno := .other 0, trace := [] } : TcpServer).addConnection listensock true
    (some .accepter) none none

def enableRW (conn : Ptr) (read write : Bool) : Run TcpServer := do
  let c ← s.deref conn
  let (ok, s) := s.modEvent c.sock { epollin := read, epollout := write, epollet := true }
  if ok then return s else .error .assertion

def excepter (conn : Ptr) : Run TcpServer := do
  let c ← s.deref conn
  if s.connIsExists c.sock then
    let s := { s with connections := update s.connections c.sock none }
    let s := s.delEvent c.sock
    let s := s.close c.sock
    return s.delete conn
  else return s

/-- `conn->_except_cb(conn)` -/
def exceptCb (conn : Ptr) : Run TcpServer := do
  let c ← s.deref conn
  match c.exceptCb with
  | some .excepter => s.excepter conn
  | none => .error .nullCallback

/-! ### Accepting -/

def accepter.turn (s : TcpServer) (a : AcceptAns) : Run (Turn TcpServer TcpServer) :=
  let s := s.log (.accept a)
  match a with
  | .fail e =>
    if e.again then .ok (.leave s)
    else if e = .EINTR then .ok (.again s)
    else .ok (.leave s)
  | .conn fd added =>
    let s := { s with isOpen := update s.isOpen fd true }
    .ok (.again (s.addConnection fd added (some .recver) (some .sender) (some .excepter)))

def accepter (answers : List AcceptAns) : Run TcpServer :=
  loop (fun _ => .error .pending) accepter.turn s answers

/-! ### Reading -/

/-- `NetCal`; `left` is what the memory of the local `req` holds before. -/
def netCal (left : Request) (conn : Ptr) (request : Bytes) : Run TcpServer := do
  let req := (left.deserialize request).2
  let resp ← (calculatorHelp req).mapError .arith
  let backStr := enCode resp.serialize
  let c ← s.deref conn
  let s := s.store conn { c with outBuffer := c.outBuffer ++ backStr }
  s.enableRW conn true true

/-- One turn of the read loop; a result says whether the buffer is to be looked at (`handle`). -/
def recver.turn (conn : Ptr) (s : TcpServer) (a : RecvAns) :
    Run (Turn TcpServer (TcpServer × Bool)) := do
  let c ← s.deref conn
  let s := s.log (.recv conn a)
  match a with
  | .fail e =>
    if e.again then return .leave (s, true)
    else if e = .EINTR then return .again s
    -- `"recv error %d : %s"` is given `_sock`, `errno` and `strerror(errno)`
    else .error .badLog
  | .bytes buff =>
    if buff.length = 0 then return .leave (← s.exceptCb conn, false)
    -- `_in_buffer += buff` appends a C string
    else return .again (s.store conn { c with inBuffer := c.inBuffer ++ cStr buff })

/-- The handler on one message after another; `mem` is the stack memory that each call finds. -/
def handleMessages (mem : ℕ → Request) (conn : Ptr) : List Bytes → TcpServer → Run TcpServer
  | [], s => .ok s
  | m :: messages, s => do
    let s ← (s.log (.handler conn m)).netCal (mem messages.length) conn m
    handleMessages mem conn messages s

/-- What `Recver` does behind its read loop. -/
def recver.handle (mem : ℕ → Request) (conn : Ptr) (s : TcpServer) (handle : Bool) :
    Run TcpServer := do
  if !handle then return s
  let c ← s.deref conn
  let (inBuffer, messages) := splitMessage c.inBuffer []
  handleMessages mem conn messages (s.store conn { c with inBuffer })

def recver (mem : ℕ → Request) (conn : Ptr) (answers : List RecvAns) : Run TcpServer := do
  let (s, handle) ← loop (fun _ => .error .pending) (recver.turn conn) s answers
  recver.handle mem conn s handle

/-! ### Writing -/

/-- One turn of the write loop; a result says whether sending failed (`sendError`). -/
def sender.turn (conn : Ptr) (s : TcpServer) (a : SendAns) :
    Run (Turn TcpServer (TcpServer × Bool)) := do
  let c ← s.deref conn
  if a = .fail .EPIPE then .error .sigpipe
  else
  let s := s.log (.send conn c.outBuffer a)
  if a.taken > 0 then
    let outBuffer := c.outBuffer.drop a.taken
    let s := s.store conn { c with outBuffer }
    if outBuffer.isEmpty then return .leave (s, false) else return .again s
  -- also reached with a result of 0, when `errno` is that of an earlier call
  else if s.errno.again then return .leave (s, false)
  else if s.errno = .EINTR then return .again s
  else return .leave (← s.exceptCb conn, true)

/-- What `Sender` does behind its write loop. -/
def sender.finish (conn : Ptr) (s : TcpServer) (sendError : Bool) : Run TcpServer := do
  if sendError then return s
  let c ← s.deref conn
  if c.outBuffer.isEmpty then s.enableRW conn true false else s.enableRW conn true true

def sender (conn : Ptr) (answers : List SendAns) : Run TcpServer := do
  let (s, sendError) ← loop (fun _ => .error .pending) (sender.turn conn) s answers
  sender.finish conn s sendError

end TcpServer

/-! ### Events -/

/-- An element of the array `_revs`. -/
structure Event where
  fd : Fd
  revents : Events
  deriving DecidableEq, Repr

/-- The three `if`s that an event goes through, in the order of the code. -/
inductive Handler where
  | error
  | read
  | write
  deriving DecidableEq, Repr

/-- The kernel's part in one event: the answers to the calls that its handlers make, and the stack
memory they find. -/
structure Answers where
  accepts : List AcceptAns := []
  recvs : List RecvAns := []
  sends : List SendAns := []
  mem : ℕ → Request := fun _ => ⟨0, 0, 0⟩

namespace TcpServer

variable (s : TcpServer)

/-- `if(ConnIsExists(conn->_sock) && conn->_cb != nullptr) conn->_cb(conn);` -/
def callback {γ : Type} (conn : Option Ptr) (cb : Connection → Option γ)
    (run : γ → Ptr → Run TcpServer) : Run TcpServer :=
  match conn with
  | none => .error .dead
  | some p => do
    let c ← s.deref p
    if s.connIsExists c.sock then
      match cb c with
      | none => return s
      | some k => run k p
    else return s

def onError (conn : Option Ptr) (ev : Event) : Run TcpServer :=
  if ev.revents.epollerr || ev.revents.epollhup then
    s.callback conn Connection.exceptCb fun
      | .excepter, p => s.excepter p
  else .ok s

def onRead (conn : Option Ptr) (ev : Event) (ans : Answers) : Run TcpServer :=
  if ev.revents.epollin then
    s.callback conn Connection.recvCb fun
      | .accepter, _ => s.accepter ans.accepts
      | .recver, p => s.recver ans.mem p ans.recvs
  else .ok s

def onWrite (conn : Option Ptr) (ev : Event) (ans : Answers) : Run TcpServer :=
  if ev.revents.epollout then
    s.callback conn Connection.sendCb fun
      | .sender, p => s.sender p ans.sends
  else .ok s

def handler (h : Handler) (conn : Option Ptr) (ev : Event) (ans : Answers) : Run TcpServer :=
  match h with
  | .error => s.onError conn ev
  | .read => s.onRead conn ev ans
  | .write => s.onWrite conn ev ans

/-- The pointer that `HandlerEvents` finds for an event. -/
def lookup (sock : Fd) : Option Ptr := if s.connIsExists sock then s.connections sock else none

/-- One turn of the loop of `HandlerEvents`: the three handlers get the pointer found first. -/
def handlerEvent (ev : Event) (ans : Answers) : Run TcpServer := do
  let conn := s.lookup ev.fd
  let s ← s.handler .error conn ev ans
  let s ← s.handler .read conn ev ans
  s.handler .write conn ev ans

def handlerEvents (s : TcpServer) : List (Event × Answers) → Run TcpServer
  | [] => .ok s
  | (ev, ans) :: batch => do
    let s ← s.handlerEvent ev ans
    handlerEvents s batch

end TcpServer

end NetProg.Reactor
