import NetProg.Lib.Runs
import NetProg.Reactor.Dispatch

/-!
# The kernel under the Reactor

The runs of `Dispatch` take whatever the kernel answers. Here the kernel has a state: what has come
for each descriptor and was not read, the room in its send buffer, the connections that wait to be
accepted, and the list of descriptors that `epoll_wait` will look at. Every descriptor is registered
with `EPOLLET`: something that comes puts its descriptor on the list, and `epoll_wait` takes it off,
whatever the server then makes of the event. The network moves at any time, also between two system
calls of a handler.

What is promised of epoll is a lower bound. A descriptor gets on the list when something comes that
its interest asks for, or when it is registered, or its interest changed, while one of the events is
the case; it may get there without a reason too.
-/

namespace NetProg.Reactor

open NetProg.Lib Function Relation

/-! ### The state -/

/-- The kernel's side of a connected descriptor. -/
structure Socket where
  /-- what has come and was not read -/
  inbox : Bytes
  /-- the peer has closed its sending side -/
  ended : Bool
  /-- the room in the send buffer -/
  space : ℕ
  /-- all that has come -/
  arrived : Bytes

/-- What the network does for a descriptor. -/
inductive Arrival where
  | data (b : Bytes)
  | fin
  /-- the peer has taken some bytes -/
  | room (n : ℕ)

/-- The arrival is one that the interest asks for. -/
def Arrival.wakes (a : Arrival) (e : Events) : Bool :=
  match a with
  | .data _ | .fin => e.epollin
  | .room _ => e.epollout

def Socket.take (k : Socket) : Arrival → Socket
  | .data b => { k with inbox := k.inbox ++ b, arrived := k.arrived ++ b }
  | .fin => { k with ended := true }
  | .room n => { k with space := k.space + n }

structure Kernel where
  sock : Fd → Socket
  /-- the number of connections that wait to be accepted -/
  backlog : ℕ
  /-- the descriptors that `epoll_wait` will look at -/
  ready : Fd → Bool

namespace Kernel

variable (L : Fd) (k : Kernel)

/-- `accept` on the listening descriptor, `recv` on another one, has something to give. -/
def Readable (fd : Fd) : Prop :=
  if fd = L then 0 < k.backlog else (k.sock fd).inbox ≠ [] ∨ (k.sock fd).ended = true

def Writable (fd : Fd) : Prop := fd ≠ L ∧ 0 < (k.sock fd).space

/-- One of the events asked for is the case. -/
def Polls (fd : Fd) (e : Events) : Prop :=
  e.epollin = true ∧ k.Readable L fd ∨ e.epollout = true ∧ k.Writable L fd

/-! ### The network and the calls -/

/-- A move of the network, while the registrations are `epoll`. -/
inductive Move (epoll : Fd → Option Events) : Kernel → Kernel → Prop
  | arrive {k : Kernel} (fd : Fd) (a : Arrival) : Move epoll k
      { k with sock := update k.sock fd ((k.sock fd).take a),
               ready := update k.ready fd (k.ready fd || (epoll fd).any a.wakes) }
  | connect {k : Kernel} : Move epoll k
      { k with backlog := k.backlog + 1,
               ready := update k.ready L (k.ready L || (epoll L).any Events.epollin) }
  /-- a descriptor gets on the list for no reason -/
  | wake {k : Kernel} (fd : Fd) : Move epoll k { k with ready := update k.ready fd true }

/-- The result of a call that a handler of the descriptor `fd` makes. -/
inductive Answer (fd : Fd) : Kernel → Call → Kernel → Prop
  /-- bytes may have come before the connection is accepted -/
  | accept {k : Kernel} {g : Fd} {added : Bool} {σ : Socket} {n : ℕ} (hn : k.backlog = n + 1)
      (hσ : σ.arrived = σ.inbox) :
      Answer fd k (.accept (.conn g added)) { k with backlog := n, sock := update k.sock g σ }
  | noConnection {k : Kernel} {e : Errno} (h : e.again = true → k.backlog = 0) :
      Answer fd k (.accept (.fail e)) k
  | insert {k : Kernel} {g : Fd} {b : Bool} : Answer fd k (.insert g b) k
  | recv {k : Kernel} {p : Ptr} {b rest : Bytes} (hb : b ≠ []) (hlen : b.length < 10240)
      (h : (k.sock fd).inbox = b ++ rest) : Answer fd k (.recv p (.bytes b))
        { k with sock := update k.sock fd { k.sock fd with inbox := rest } }
  | endOfStream {k : Kernel} {p : Ptr} (h : (k.sock fd).inbox = [])
      (hend : (k.sock fd).ended = true) : Answer fd k (.recv p (.bytes [])) k
  | noBytes {k : Kernel} {p : Ptr} {e : Errno}
      (h : e.again = true → (k.sock fd).inbox = [] ∧ (k.sock fd).ended = false) :
      Answer fd k (.recv p (.fail e)) k
  | handler {k : Kernel} {p : Ptr} {m : Bytes} : Answer fd k (.handler p m) k
  | send {k : Kernel} {p : Ptr} {buf : Bytes} {n : ℕ} (hn : 0 < n) (hle : n ≤ buf.length)
      (hroom : n ≤ (k.sock fd).space) : Answer fd k (.send p buf (.count n))
        { k with sock := update k.sock fd { k.sock fd with space := (k.sock fd).space - n } }
  | noRoom {k : Kernel} {p : Ptr} {buf : Bytes} {e : Errno}
      (h : e.again = true → (k.sock fd).space = 0) : Answer fd k (.send p buf (.fail e)) k
  | close {k : Kernel} {g : Fd} : Answer fd k (.close g) k
  | delete {k : Kernel} {p : Ptr} : Answer fd k (.delete p) k

/-- What `epoll_wait` leaves when it reports the batch: the events asked for that are the case are
reported, and who is not reported stays on the list. -/
structure Waits (epoll : Fd → Option Events) (k : Kernel) (batch : List Event) (k' : Kernel) :
    Prop where
  sock : k'.sock = k.sock
  backlog : k'.backlog = k.backlog
  input : ∀ ev ∈ batch, ∀ e, epoll ev.fd = some e → e.epollin = true → k.Readable L ev.fd →
    ev.revents.epollin = true
  output : ∀ ev ∈ batch, ∀ e, epoll ev.fd = some e → e.epollout = true → k.Writable L ev.fd →
    ev.revents.epollout = true
  ready : ∀ fd e, epoll fd = some e → k.ready fd = true → k.Polls L fd e →
    fd ∉ batch.map Event.fd → k'.ready fd = true

/-- What the calls of `epoll_ctl` leave that changed the registrations. -/
structure Rearmed (epoll epoll' : Fd → Option Events) (k k' : Kernel) : Prop where
  sock : k'.sock = k.sock
  backlog : k'.backlog = k.backlog
  kept : ∀ fd, k.ready fd = true → k'.ready fd = true
  changed : ∀ fd e, epoll' fd = some e → epoll fd ≠ some e → k.Polls L fd e → k'.ready fd = true

end Kernel

/-! ### Server and kernel -/

structure Machine where
  config : Config
  kernel : Kernel

inductive Machine.Step (L : Fd) : Machine → Machine → Prop
  | move {c : Config} {k k' : Kernel} (h : k.Move L c.server.epoll k') : Step L ⟨c, k⟩ ⟨c, k'⟩
  | wait {s : TcpServer} {batch : List Event} {k k' : Kernel} (hb : s.Batch batch)
      (hk : k.Waits L s.epoll batch k') : Step L ⟨⟨s, []⟩, k⟩ ⟨⟨s, batch.map .event⟩, k'⟩
  | lookup {s : TcpServer} {ev : Event} {todo : List Task} {k : Kernel} :
      Step L ⟨⟨s, .event ev :: todo⟩, k⟩ ⟨⟨s, handlers (s.lookup ev.fd) ev ++ todo⟩, k⟩
  /-- the calls that the handler records were answered by the kernel -/
  | handler {s s' : TcpServer} {h : Handler} {conn : Option Ptr} {ev : Event} {ans : Answers}
      {todo : List Task} {calls : List Call} {k k₁ k' : Kernel}
      (hfresh : h = .read → Fresh s.isOpen ans.accepts) (hrun : s.handler h conn ev ans = .ok s')
      (htrace : s'.trace = s.trace ++ calls)
      (hcalls : During (Kernel.Move L s.epoll) (Kernel.Answer ev.fd) k calls k₁)
      (hctl : Kernel.Rearmed L s.epoll s'.epoll k₁ k') :
      Step L ⟨⟨s, .handler h conn ev :: todo⟩, k⟩ ⟨⟨s', todo⟩, k'⟩

/-- The server has just been constructed, and a connection may wait for it already. -/
def Machine.Start (L : Fd) (y : Machine) : Prop :=
  y.config = ⟨TcpServer.init L, []⟩ ∧ (0 < y.kernel.backlog → y.kernel.ready L = true)

def Machine.Reach (L : Fd) : Machine → Prop := Reachable (Machine.Start L) (Machine.Step L)

section

variable {L : Fd} {y y' : Machine}

theorem Machine.Step.config (h : Machine.Step L y y') :
    y.config = y'.config ∨ Reactor.Step y.config y'.config := by
  cases h with
  | move => exact Or.inl rfl
  | wait hb hk => exact Or.inr (.wait hb)
  | lookup => exact Or.inr .lookup
  | handler hfresh hrun htrace hcalls hctl => exact Or.inr (.handler hfresh hrun)

/-- **A run with the kernel is a run** of the dispatch loop. -/
theorem Machine.Reach.config (h : Machine.Reach L y) : Reactor.Reach L y.config := by
  refine Invariant.reachable (I := fun y : Machine => Reactor.Reach L y.config)
    ⟨fun y hy => ?_, fun y y' hy hstep => ?_⟩ h
  · rw [hy.1]
    exact .refl
  · rcases hstep.config with heq | hs
    · rwa [← heq]
    · exact hy.tail hs

end

end NetProg.Reactor
