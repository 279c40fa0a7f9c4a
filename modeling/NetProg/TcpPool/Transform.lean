import NetProg.Lib.Inet
import NetProg.Lib.Program
import NetProg.Reactor.Socket
import NetProg.TcpPool.Tasks

/-!
# The server that uses the pool (`tcp_server.hpp`, `task.hpp`)

A worker that runs a `Task` calls `transform`: one `recv`, one `send` of the text in capital
letters, and `close`. `Process` is the server with its descriptors: the main thread creates the
threads of the pool one after the other, then accepts connections and pushes a task for each. Each
task carries the descriptor that `accept` has given, and the worker that runs the task makes its
calls on this descriptor. The task also has the number of its connection here, which nothing in the
program looks at.
-/

namespace NetProg.TcpPool

open NetProg.Lib NetProg.Reactor Function

/-! ### The function of a task -/

/-- `islower`, in the C locale -/
def islower (ch : UInt8) : Bool := 97 ≤ ch ∧ ch ≤ 122

/-- `toupper` of a small letter -/
def toupper (ch : UInt8) : UInt8 := ch - 32

/-- The `result` of the loop over `message`. -/
def result (message : Bytes) : Bytes :=
  (cStr message).map fun ch => if islower ch then toupper ch else ch

/-- Where `transform` is. -/
inductive Pos where
  | recv
  | send (result : Bytes)
  | close
  | returned
  deriving DecidableEq, Repr

/-- `transform` by its calls on the connection. -/
def transform : Program Pos SockCall Empty where
  start := .recv
  returned
    | .close | .returned => true
    | _ => false
  step
    | .recv, .recv (.bytes b) => some (.ok (if b.length = 0 then .close else .send (result b)))
    | .recv, .recv (.fail _) => some (.ok .close)
    | .send result, .send b _ => if b = result then some (.ok .close) else none
    | _, _ => none

/-! ### The process -/

/-- `Task`; its function is always `transform`. -/
structure Task where
  sock : ℕ
  ip : Bytes
  port : UInt16
  deriving DecidableEq, Repr

structure Process (n : ℕ) where
  /-- the threads that `run` has created -/
  created : ℕ
  pool : ThreadPool n (Task × ℕ)
  /-- how far the workers are that run a task -/
  pos : Fin n → Pos
  table : ℕ → Option File
  /-- the connections accepted so far -/
  accepted : ℕ
  talk : File → List SockCall
  /-- how often a descriptor of the connection was closed -/
  closes : File → ℕ

namespace Process

variable {n : ℕ} (x : Process n)

def init (listenSock : ℕ) : Process n where
  created := 0
  pool := .init
  pos _ := .recv
  table := update (fun _ => none) listenSock (some .listening)
  accepted := 0
  talk _ := []
  closes _ := 0

/-- A turn of the loop of `start` in which `accept` succeeds; the signal of `pushTask` wakes `w`. -/
def accept (serviceSock : ℕ) (client : SockaddrIn) (w : Option (Fin n)) : Process n :=
  { x with
    table := update x.table serviceSock (some (.connection x.accepted))
    accepted := x.accepted + 1
    pool := x.pool.pushTask
      (⟨serviceSock, inetNtoa client.sinAddr, client.sinPort⟩, x.accepted) w }

/-- The worker begins with its task. -/
def run (w : Fin n) (task : Task × ℕ) : Process n :=
  { x with
    pool := { x.pool.goto w (.working task) with ran := x.pool.ran ++ [(w, task)] }
    pos := update x.pos w transform.start }

def call (w : Fin n) (sock : ℕ) (c : SockCall) (pos : Pos) : Process n :=
  { x with talk := hear x.table sock c x.talk, pos := update x.pos w pos }

def close (w : Fin n) (sock : ℕ) : Process n :=
  { x with
    table := update x.table sock none
    closes := match x.table sock with
      | some f => update x.closes f (x.closes f + 1)
      | none => x.closes
    pos := update x.pos w .returned }

inductive Step : Process n → Prop
  | create (h : x.created < n) :
      Step { x with created := x.created + 1, pool := x.pool.goto ⟨x.created, h⟩ .locking }
  | accept {serviceSock : ℕ} {w : Option (Fin n)} (client : SockaddrIn) (hn : x.created = n)
      (hsock : x.table serviceSock = none) (hw : x.pool.Wakes w) :
      Step (x.accept serviceSock client w)
  /-- a spurious wake-up -/
  | wake {w : Fin n} (h : x.pool.phase w = .waiting) :
      Step { x with pool := x.pool.goto w .woken }
  | enter {w : Fin n} {pool : ThreadPool n (Task × ℕ)}
      (h : x.pool.phase w = .locking ∨ x.pool.phase w = .woken)
      (hc : x.pool.critical w = some pool) : Step { x with pool }
  | run {w : Fin n} {task : Task × ℕ} (h : x.pool.phase w = .holding task) : Step (x.run w task)
  | call {w : Fin n} {task : Task × ℕ} {c : SockCall} {pos : Pos}
      (h : x.pool.phase w = .working task) (hret : transform.returned (x.pos w) = false)
      (hc : transform.step (x.pos w) c = some (.ok pos)) :
      Step (x.call w task.1.sock c pos)
  | close {w : Fin n} {task : Task × ℕ} (h : x.pool.phase w = .working task)
      (hpos : x.pos w = .close) : Step (x.close w task.1.sock)
  | finish {w : Fin n} {task : Task × ℕ} (h : x.pool.phase w = .working task)
      (hpos : x.pos w = .returned) : Step { x with pool := x.pool.goto w .locking }

def Reach (listenSock : ℕ) (x : Process n) : Prop := Reachable (fun x => x = init listenSock) Step x

end Process

end NetProg.TcpPool
