import NetProg.Lib.Slots
import NetProg.Multiplex.Sock

/-!
# The select server (`selectServer.hpp`)

`_sock_array` holds the descriptors to watch. Each turn of `Start` puts them into an `fd_set`, which
`select` cuts down to the readable ones, and `HandleEvents` goes through the array while `Accepter`
and `Recver` change it. `FD_SET` and `FD_ISSET` write and read outside the set for a descriptor from
`FD_SETSIZE` on: then the program has no meaning any more, and the functions return `none`.
-/

namespace NetProg.Multiplex

open NetProg.Lib NetProg.Reactor Function

/-- The size of an `fd_set` in descriptors. -/
def FD_SETSIZE : ℕ := 1024

/-- `sizeof(fd_set) * BITS` -/
def NUM : ℕ := 128 * 8

structure SelectServer where
  listenSock : Fd
  /-- `_sock_array`, of which the first `NUM` are used -/
  sockArray : ℕ → Option Fd
  trace : List Call

namespace SelectServer

/-- What `select` does in one turn: its result, the descriptors that are readable, and the answers
to the calls made then. -/
structure Round where
  ret : ℤ
  fs : Fd → Bool
  ans : Answers

variable (s : SelectServer)

def log (c : Call) : SelectServer := { s with trace := s.trace ++ [c] }

def init (listenSock : Fd) : SelectServer where
  listenSock := listenSock
  sockArray := update (fun _ => FD_NONE) 0 (some listenSock)
  trace := []

def accepter (r : Option Fd) : SelectServer :=
  let s := s.log (.accept s.listenSock r)
  match r with
  | none => s
  | some sock =>
    match firstFree NUM s.sockArray with
    | none => s.log (.close sock)
    | some i => { s with sockArray := update s.sockArray i (some sock) }

/-- `Recver(pos)`, where `sock` is `_sock_array[pos]`. The array of 1024 bytes is read into with a
size of 1023. -/
def recver (pos : ℕ) (sock : Fd) (a : RecvAns) : SelectServer :=
  let s := s.log (.recv sock a)
  match a with
  | .bytes buff =>
    if buff.length > 0 then s.log (.message sock (cStr buff))
    else { s.log (.close sock) with sockArray := update s.sockArray pos FD_NONE }
  | .fail _ => { s.log (.close sock) with sockArray := update s.sockArray pos FD_NONE }

/-- One turn of the loop of `HandleEvents`. -/
def visit (fs : Fd → Bool) (ans : Answers) (s : SelectServer) (i : ℕ) : Option SelectServer :=
  match s.sockArray i with
  | none => some s
  | some sock =>
    if sock < FD_SETSIZE then
      if fs sock then
        if sock = s.listenSock then some (s.accepter (ans.accept i))
        else some (s.recver i sock (ans.recv i))
      else some s
    else none

/-- `HandleEvents` when it has visited the first `k` slots. -/
def handleTo (k : ℕ) (fs : Fd → Bool) (ans : Answers) : Option SelectServer :=
  (List.range k).foldlM (visit fs ans) s

def handleEvents (fs : Fd → Bool) (ans : Answers) : Option SelectServer := s.handleTo NUM fs ans

/-- The descriptors of the array, in its order. -/
def socks : List Fd := (List.range NUM).filterMap s.sockArray

/-- `max_fd` -/
def maxFd : ℤ := s.socks.foldl (fun m (fd : Fd) => max m fd) (-1)

/-- `fs` as `select(max_fd + 1, &fs, ...)` leaves it: of the descriptors passed and looked at, the
readable ones. -/
def selected (r : Round) (fd : Fd) : Bool :=
  decide (fd ∈ s.socks) && decide ((fd : ℤ) < s.maxFd + 1) && r.fs fd

/-- A turn of the loop of `Start` of which the scan has visited the first `k` slots. -/
def startTo (k : ℕ) (r : Round) : Option SelectServer :=
  if s.socks.all fun fd => fd < FD_SETSIZE then
    if r.ret > 0 then s.handleTo k (s.selected r) r.ans
    else some s
  else none

/-- One turn of the loop of `Start`. -/
def start (r : Round) : Option SelectServer := s.startTo NUM r

end SelectServer

end NetProg.Multiplex
