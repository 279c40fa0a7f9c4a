import NetProg.Calculator.CalServer
import NetProg.Lib.Program
import NetProg.Lib.Runs

/-!
# A thread for each connection (`TcpServer.hpp` of the calculator)

The main thread accepts connections and creates a thread for each, which runs the services that are
bound (`excute`), closes the descriptor and ends. All threads share the descriptor table, and the
kernel gives a new connection any number that is not in use. What a thread does between two system
calls is one step, and so is a system call. That `pthread_create` failed is not looked at: the
descriptor stays open, and nobody serves it. A service that ends with an error takes the process
with it.

The services are one program here (`excute`), of which only the calls are looked at.
-/

namespace NetProg.Calculator

open NetProg.Lib NetProg.Reactor Function

/-- Where `threadRoutine` is. -/
inductive Phase (σ : Type*) where
  /-- the thread was not created -/
  | missing
  | excute (s : σ)
  /-- the descriptor is closed -/
  | ended

/-- What `ThreadData` holds, and how far its thread is. -/
structure Thread (σ : Type*) where
  sock : ℕ
  phase : Phase σ

structure TcpServer (σ ε : Type*) where
  table : ℕ → Option File
  /-- the connections accepted so far -/
  accepted : ℕ
  /-- the thread of each connection -/
  thread : ℕ → Option (Thread σ)
  talk : File → List SockCall
  /-- how often a descriptor of the connection was closed -/
  closes : File → ℕ
  died : Option ε

namespace TcpServer

variable {σ ε : Type*} (P : Program σ SockCall ε) (x : TcpServer σ ε)

def init (listenSock : ℕ) : TcpServer σ ε where
  table := update (fun _ => none) listenSock (some .listening)
  accepted := 0
  thread _ := none
  talk _ := []
  closes _ := 0
  died := none

/-- `start` after `Accept` has given `sock`, which is not -1. -/
def accept (sock : ℕ) (created : Bool) : TcpServer σ ε :=
  { x with
    table := update x.table sock (some (.connection x.accepted))
    accepted := x.accepted + 1
    thread := update x.thread x.accepted
      (some ⟨sock, if created then .excute P.start else .missing⟩) }

def goto (k : ℕ) (th : Thread σ) : TcpServer σ ε := { x with thread := update x.thread k (some th) }

def call (sock : ℕ) (c : SockCall) : TcpServer σ ε := { x with talk := hear x.table sock c x.talk }

def close (sock : ℕ) : TcpServer σ ε :=
  { x with
    table := update x.table sock none
    closes := match x.table sock with
      | some f => update x.closes f (x.closes f + 1)
      | none => x.closes }

variable {x} in
theorem accept_table {sock : ℕ} {created : Bool} : (x.accept P sock created).table =
    update x.table sock (some (.connection x.accepted)) := rfl

variable {x} in
theorem accept_thread {sock : ℕ} {created : Bool} : (x.accept P sock created).thread =
    update x.thread x.accepted (some ⟨sock, if created then .excute P.start else .missing⟩) := rfl

variable {x} in
theorem goto_thread {k : ℕ} {th : Thread σ} : (x.goto k th).thread = update x.thread k (some th) :=
  rfl

inductive Step : TcpServer σ ε → Prop
  | accept {sock : ℕ} (created : Bool) (hlive : x.died = none) (hsock : x.table sock = none) :
      Step (x.accept P sock created)
  | call {k sock : ℕ} {s s' : σ} {c : SockCall} (hlive : x.died = none)
      (hth : x.thread k = some ⟨sock, .excute s⟩) (hret : P.returned s = false)
      (hc : P.step s c = some (.ok s')) : Step ((x.call sock c).goto k ⟨sock, .excute s'⟩)
  | die {k sock : ℕ} {s : σ} {c : SockCall} {e : ε} (hlive : x.died = none)
      (hth : x.thread k = some ⟨sock, .excute s⟩) (hret : P.returned s = false)
      (hc : P.step s c = some (.error e)) :
      Step { x.call sock c with table := fun _ => none, died := some e }
  | close {k sock : ℕ} {s : σ} (hlive : x.died = none)
      (hth : x.thread k = some ⟨sock, .excute s⟩) (hret : P.returned s = true) :
      Step ((x.close sock).goto k ⟨sock, .ended⟩)

def Reach (listenSock : ℕ) (x : TcpServer σ ε) : Prop :=
  Reachable (fun x => x = init listenSock) (Step P) x

end TcpServer

/-! ### The service of the calculator -/

/-- Where `calculator` is: in `recv`, in `send`, or at its end. -/
inductive At where
  | recv (c : Service)
  | send (c : Service) (backStr : Bytes)
  | returned (c : Service)
  deriving DecidableEq, Repr

/-- `calculator` by its calls. -/
def calculatorStep (J : Json) : At → SockCall → Option (Except Stop At)
  | .recv c, .recv a =>
    match recv a c.s with
    | none => some (.error .overrun)
    | some (false, s) => some (.ok (.returned { c with s }))
    | some (true, s) =>
      let (package, s) := deCode s
      if package.isEmpty then some (.ok (.recv { c with s }))
      else some ((reply J package).map (.send { c with s }))
  | .send c backStr, .send b a =>
    if b = backStr then
      let c := { c with sends := c.sends ++ [(backStr, a)] }
      match Reactor.send a with
      | some true => some (.ok (.recv c))
      | some false => some (.ok (.returned c))
      | none => some (.error .sigpipe)
    else none
  | _, _ => none

def calculatorProgram (J : Json) : Program At SockCall Stop where
  start := .recv {}
  returned
    | .returned _ => true
    | _ => false
  step := calculatorStep J

/-- `excute` with the services that `main` binds. -/
def excute (J : Json) : Program (List (Program At SockCall Stop × At)) SockCall Stop :=
  Program.seq [calculatorProgram J]

end NetProg.Calculator
