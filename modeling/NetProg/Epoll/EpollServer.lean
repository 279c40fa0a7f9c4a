import Mathlib.Logic.Function.Basic
import NetProg.Lib.Runs
import NetProg.Reactor.Socket

/-!
# The epoll server (`EpollServer.hpp`, `Epoll.hpp`)

One thread serves every client: `LoopOnce` waits for events and `HandlerEvents` goes through them.
There is no table; what is watched is the set that the kernel keeps for the epoll descriptor, which
`EpollCtl` changes. The calls made so far are kept, newest last; the kernel's part in one event is
given to its handler. `events` is left out, which is `EPOLLIN` for every descriptor added.
-/

namespace NetProg.Epoll

open NetProg.Lib NetProg.Reactor Function

/-- A descriptor. -/
abbrev Fd := ℕ

inductive Oper where
  | EPOLL_CTL_ADD
  | EPOLL_CTL_DEL
  deriving DecidableEq, Repr

inductive Call where
  /-- `Sock::Accept`: a descriptor, or -1 -/
  | accept (r : Option Fd)
  /-- `EpollCtl` with what it returned -/
  | ctl (oper : Oper) (sock : Fd) (ok : Bool)
  | recv (sock : Fd) (a : RecvAns)
  /-- `_handler_request(sock, text)` -/
  | request (sock : Fd) (text : Bytes)
  | close (sock : Fd)
  deriving DecidableEq, Repr

structure EpollServer where
  listenSock : Fd
  /-- the descriptors in the epoll set -/
  registered : Fd → Bool
  isOpen : Fd → Bool
  trace : List Call

/-- An element of `_revs`; of its bits only `EPOLLIN` is acted upon. -/
structure Event where
  fd : Fd
  epollin : Bool
  deriving DecidableEq, Repr

/-- What `accept` gives, with the kernel's willingness to register the descriptor, and what `recv`
gives; whichever the handler of an event calls. -/
structure Answers where
  accept : Option (Fd × Bool) := none
  recv : RecvAns := .bytes []

namespace EpollServer

variable (s : EpollServer)

def log (c : Call) : EpollServer := { s with trace := s.trace ++ [c] }

/-- A descriptor that is registered is not added again, and only a registered one is deleted. -/
def epollCtl (oper : Oper) (sock : Fd) (granted : Bool) : Bool × EpollServer :=
  match oper with
  | .EPOLL_CTL_ADD =>
    if granted && !s.registered sock then
      (true, { s with registered := update s.registered sock true }.log (.ctl oper sock true))
    else (false, s.log (.ctl oper sock false))
  | .EPOLL_CTL_DEL =>
    if s.registered sock then
      (true, { s with registered := update s.registered sock false }.log (.ctl oper sock true))
    else (false, s.log (.ctl oper sock false))

/-- Closing a descriptor also takes it out of the epoll set. -/
def close (sock : Fd) : EpollServer :=
  { s with isOpen := update s.isOpen sock false,
           registered := update s.registered sock false }.log (.close sock)

/-- The constructor, which exits when the listening descriptor cannot be registered. -/
def init (listenSock : Fd) : EpollServer where
  listenSock := listenSock
  registered := update (fun _ => false) listenSock true
  isOpen := update (fun _ => false) listenSock true
  trace := []

def accepter (a : Option (Fd × Bool)) : EpollServer :=
  let s := s.log (.accept (a.map Prod.fst))
  match a with
  | none => s
  | some (sock, granted) =>
    let s := { s with isOpen := update s.isOpen sock true }
    -- what `EpollCtl` returns is not looked at
    (s.epollCtl .EPOLL_CTL_ADD sock granted).2

/-- The array of 1024 bytes is read into with a size of 1023. -/
def recver (sock : Fd) (a : RecvAns) : EpollServer :=
  let s := s.log (.recv sock a)
  match a with
  | .bytes buff =>
    if buff.length > 0 then s.log (.request sock (cStr buff))
    else (s.epollCtl .EPOLL_CTL_DEL sock true).2.close sock
  | .fail _ => (s.epollCtl .EPOLL_CTL_DEL sock true).2.close sock

/-- One turn of the loop of `HandlerEvents`. -/
def handlerEvent (ev : Event) (ans : Answers) : EpollServer :=
  if ev.epollin then
    if ev.fd = s.listenSock then s.accepter ans.accept else s.recver ev.fd ans.recv
  else s

def handlerEvents (s : EpollServer) (revs : List (Event × Answers)) : EpollServer :=
  revs.foldl (fun s x => s.handlerEvent x.1 x.2) s

end EpollServer

/-! ### Runs -/

/-- The server, and the events of the batch that are still to be handled. -/
structure Config where
  server : EpollServer
  todo : List Event

/-- The run alternates between `epoll_wait`, which reports distinct registered descriptors, and the
events of the batch it gave; `accept` gives descriptors that are not open. -/
inductive Step : Config → Config → Prop
  | wait {s : EpollServer} {revs : List Event} (hnodup : (revs.map Event.fd).Nodup)
      (hreg : ∀ ev ∈ revs, s.registered ev.fd = true) : Step ⟨s, []⟩ ⟨s, revs⟩
  | event {s : EpollServer} {ev : Event} {ans : Answers} {todo : List Event}
      (hfresh : ∀ fd granted, ans.accept = some (fd, granted) → s.isOpen fd = false) :
      Step ⟨s, ev :: todo⟩ ⟨s.handlerEvent ev ans, todo⟩

/-- The configurations that a server which listens on `L` can reach. -/
def Reach (L : Fd) : Config → Prop := Reachable (fun c => c = ⟨.init L, []⟩) Step

/-- The descriptors that `accept` gives are not open, at each event of the batch. -/
def FreshBatch (s : EpollServer) (revs : List (Event × Answers)) : Prop :=
  ∀ before ev ans rest, revs = before ++ (ev, ans) :: rest →
    ∀ fd granted, ans.accept = some (fd, granted) → (s.handlerEvents before).isOpen fd = false

theorem reach_handlerEvents {L : Fd} {s : EpollServer} {revs : List (Event × Answers)}
    {todo : List Event} (h : Reach L ⟨s, revs.map Prod.fst ++ todo⟩) (hfresh : FreshBatch s revs) :
    Reach L ⟨s.handlerEvents revs, todo⟩ := by
  induction revs generalizing s with
  | nil => exact h
  | cons x revs ih =>
    obtain ⟨ev, ans⟩ := x
    refine ih (h.next (.event (hfresh [] ev ans revs rfl))) fun before ev' ans' rest hrevs => ?_
    exact hfresh ((ev, ans) :: before) ev' ans' rest (by rw [hrevs]; rfl)

end NetProg.Epoll
