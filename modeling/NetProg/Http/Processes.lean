import NetProg.Http.HttpServer
import NetProg.Lib.Program
import NetProg.Lib.Runs
import NetProg.Reactor.Socket

/-!
# A process for each connection (`http_server.hpp`)

The parent accepts a connection, forks, and closes its descriptor of the connection; the child
closes its descriptor of the listening socket, calls `func_`, closes the connection and exits. Each
process has a descriptor table of its own, which a child gets as a copy of its parent's. What
`Accept` and `fork` return is not looked at: after an `Accept` that failed a child is forked that
works on the descriptor -1, and after a `fork` that failed the connection is closed.

`func_` is a program, which may differ from child to child by what is on the stack and in the files.
An error of it is a fault that ends the child.
-/

namespace NetProg.Http

open NetProg.Lib NetProg.Reactor Function

/-- What `Accept` has returned, with the number of the connection; none is -1. -/
abbrev Accepted := Option (ℕ × ℕ)

/-- Where the parent is in the loop of `start`. -/
inductive Turn where
  | accepting
  | forking (got : Accepted)
  | closing (got : Accepted)
  deriving DecidableEq, Repr

/-- Where a child is. -/
inductive ChildPhase (σ : Type*) where
  | start
  | func (s : σ)
  | closed
  /-- exited, or ended by a fault -/
  | gone

structure Child (σ : Type*) where
  table : ℕ → Option File
  got : Accepted
  phase : ChildPhase σ

structure HttpServer (σ : Type*) where
  table : ℕ → Option File
  turn : Turn
  /-- the connections accepted so far -/
  accepted : ℕ
  /-- the children so far -/
  forked : ℕ
  child : ℕ → Option (Child σ)
  talk : File → List SockCall

/-- `close(sock)` -/
def closeSock (table : ℕ → Option File) : Accepted → ℕ → Option File
  | none => table
  | some (sock, _) => update table sock none

/-- A call on `sock`, which nobody hears when it is -1. -/
def hearSock (table : ℕ → Option File) (got : Accepted) (c : SockCall)
    (talk : File → List SockCall) : File → List SockCall :=
  match got with
  | none => talk
  | some (sock, _) => hear table sock c talk

/-- What a call on -1 gives. -/
def Refused : SockCall → Prop
  | .recv (.fail _) | .send _ (.fail _) => True
  | .recv (.bytes _) | .send _ (.count _) => False

namespace HttpServer

variable {σ ε : Type*} (listenSock : ℕ) (P : ℕ → Program σ SockCall ε) (x : HttpServer σ)

def init : HttpServer σ where
  table := update (fun _ => none) listenSock (some .listening)
  turn := .accepting
  accepted := 0
  forked := 0
  child _ := none
  talk _ := []

def setChild (j : ℕ) (c : Child σ) : HttpServer σ := { x with child := update x.child j (some c) }

inductive Step : HttpServer σ → Prop
  | accept {sock : ℕ} (ht : x.turn = .accepting) (hsock : x.table sock = none) :
      Step { x with
        table := update x.table sock (some (.connection x.accepted))
        turn := .forking (some (sock, x.accepted))
        accepted := x.accepted + 1 }
  | acceptFailed (ht : x.turn = .accepting) : Step { x with turn := .forking none }
  | fork {got : Accepted} (ht : x.turn = .forking got) :
      Step { x.setChild x.forked ⟨x.table, got, .start⟩ with
        turn := .closing got, forked := x.forked + 1 }
  | forkFailed {got : Accepted} (ht : x.turn = .forking got) :
      Step { x with turn := .closing got }
  | close {got : Accepted} (ht : x.turn = .closing got) :
      Step { x with table := closeSock x.table got, turn := .accepting }
  /-- `close(listensock_)` of a child -/
  | start {j : ℕ} {c : Child σ} (hc : x.child j = some c) (hp : c.phase = .start) :
      Step (x.setChild j
        { c with table := update c.table listenSock none, phase := .func (P j).start })
  | call {j : ℕ} {c : Child σ} {s s' : σ} {k : SockCall} (hc : x.child j = some c)
      (hp : c.phase = .func s) (hret : (P j).returned s = false)
      (hk : (P j).step s k = some (.ok s')) (hbad : c.got = none → Refused k) :
      Step { x.setChild j { c with phase := .func s' } with
        talk := hearSock c.table c.got k x.talk }
  | fault {j : ℕ} {c : Child σ} {s : σ} {k : SockCall} {e : ε} (hc : x.child j = some c)
      (hp : c.phase = .func s) (hret : (P j).returned s = false)
      (hk : (P j).step s k = some (.error e)) (hbad : c.got = none → Refused k) :
      Step { x.setChild j { c with table := fun _ => none, phase := .gone } with
        talk := hearSock c.table c.got k x.talk }
  | childClose {j : ℕ} {c : Child σ} {s : σ} (hc : x.child j = some c) (hp : c.phase = .func s)
      (hret : (P j).returned s = true) :
      Step (x.setChild j { c with table := closeSock c.table c.got, phase := .closed })
  | exit {j : ℕ} {c : Child σ} (hc : x.child j = some c) (hp : c.phase = .closed) :
      Step (x.setChild j { c with table := fun _ => none, phase := .gone })

def Reach (x : HttpServer σ) : Prop :=
  Reachable (fun x => x = init listenSock) (Step listenSock P) x

end HttpServer

/-! ### The handler by its calls -/

inductive Pos where
  | recv
  | send (response : Bytes)
  | returned
  deriving DecidableEq

/-- What `recv` has put into the buffer; it gives no more than was asked for. -/
def Recv.of : RecvAns → Option Recv
  | .fail _ => some .fail
  | .bytes b => if h : b.length ≤ bufferSize then some (.bytes b h) else none

/-- `HttpServerHandler` by its calls. -/
def handlerProgram (fs : Bytes → Option Bytes) (buf : Buffer) : Program Pos SockCall Fault where
  start := .recv
  returned
    | .returned => true
    | _ => false
  step
    | .recv, .recv a => (Recv.of a).map fun a => (HttpServerHandler fs buf a).map (.send ·.response)
    | .send response, .send b _ => if b = response then some (.ok .returned) else none
    | _, _ => none

end NetProg.Http
