import NetProg.Lib.Slots
import NetProg.Multiplex.Sock

/-!
# The poll server (`pollServer.hpp`)

`_fds` is an array of `pollfd`s that is passed to `poll` as it is. A call with a positive result
writes `revents` of every entry, 0 where `fd` is -1; nothing else ever clears a `revents`, also not
`Accepter` when it fills a slot.
-/

namespace NetProg.Multiplex

open NetProg.Lib NetProg.Reactor Function

/-- The number of slots, a static member of the class. -/
def nfds : ℕ := 100

def POLLIN : UInt16 := 1

structure PollFd where
  fd : Option Fd
  events : UInt16
  revents : UInt16
  deriving DecidableEq, Repr

structure PollServer where
  listenSock : Fd
  /-- `_fds`, of which the first `nfds` are used -/
  fds : ℕ → PollFd
  trace : List Call

namespace PollServer

/-- What `poll` does in one turn: its result, the `revents` it has for each entry, and the answers
to the calls made then. -/
structure Round where
  n : ℤ
  revents : ℕ → UInt16
  ans : Answers

variable (s : PollServer)

def log (c : Call) : PollServer := { s with trace := s.trace ++ [c] }

def setFd (i : ℕ) (fd : Option Fd) (events : UInt16) : PollServer :=
  { s with fds := update s.fds i { s.fds i with fd, events } }

/-- The constructor; `garbage` is what `new struct pollfd[_nfds]` finds in the fields `revents`. -/
def init (listenSock : Fd) (garbage : ℕ → UInt16) : PollServer :=
  ({ listenSock
     fds := fun i => { fd := FD_NONE, events := 0, revents := garbage i }
     trace := [] } : PollServer).setFd 0 (some listenSock) POLLIN

def accepter (r : Option Fd) : PollServer :=
  let s := s.log (.accept s.listenSock r)
  match r with
  | none => s
  | some sock =>
    match firstFree nfds fun pos => (s.fds pos).fd with
    | none => s.log (.close sock)
    | some pos => s.setFd pos (some sock) POLLIN

/-- `Recver(i)`, where `sock` is `_fds[i].fd`. The array of 1024 bytes is read into with a size of
1023. -/
def recver (i : ℕ) (sock : Fd) (a : RecvAns) : PollServer :=
  let s := s.log (.recv sock a)
  match a with
  | .bytes buff =>
    if buff.length > 0 then s.log (.message sock (cStr buff))
    else (s.log (.close sock)).setFd i FD_NONE 0
  | .fail _ => (s.log (.close sock)).setFd i FD_NONE 0

/-- One turn of the loop of `HandlerEvent`. -/
def visit (ans : Answers) (s : PollServer) (i : ℕ) : PollServer :=
  match (s.fds i).fd with
  | none => s
  | some sock =>
    if (s.fds i).revents &&& POLLIN ≠ 0 then
      if sock = s.listenSock then s.accepter (ans.accept i)
      else s.recver i sock (ans.recv i)
    else s

/-- `HandlerEvent` when it has visited the first `k` slots. -/
def handleTo (k : ℕ) (ans : Answers) : PollServer := (List.range k).foldl (visit ans) s

def handlerEvent (ans : Answers) : PollServer := s.handleTo nfds ans

/-- The array as `poll` leaves it; what it writes when its result is not positive is unknown. -/
def polled (r : Round) : PollServer :=
  { s with fds := fun i => { s.fds i with
      revents := if r.n > 0 ∧ (s.fds i).fd = FD_NONE then 0 else r.revents i } }

/-- A turn of the loop of `Start` of which the scan has visited the first `k` slots. -/
def startTo (k : ℕ) (r : Round) : PollServer :=
  if r.n > 0 then (s.polled r).handleTo k r.ans else s.polled r

/-- One turn of the loop of `Start`. -/
def start (r : Round) : PollServer := s.startTo nfds r

end PollServer

end NetProg.Multiplex
