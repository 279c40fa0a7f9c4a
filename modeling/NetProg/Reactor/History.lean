import NetProg.Reactor.Dispatch

/-!
# The history of one connection

The calls made on each connection, read off the record of all calls. Addresses are not used twice,
so what the record says of one address is about one connection.

* `Effect.change`: the ways in which an effect can leave a live connection, with its history;
* `Session`: a connection on its own, with its history;
* `Reach.session`: whatever the interleaving, each live connection has had a session.
-/

namespace NetProg.Reactor

open NetProg.Lib Function

/-- The answers to `accept`. -/
def accepts (trace : List Call) : List AcceptAns :=
  trace.filterMap fun
    | .accept a => some a
    | _ => none

/-- The answers to `recv` on a connection. -/
def recvs (q : Ptr) (trace : List Call) : List RecvAns :=
  trace.filterMap fun
    | .recv p a => if p = q then some a else none
    | _ => none

/-- The buffers passed to `send` on a connection, with the answers. -/
def sends (q : Ptr) (trace : List Call) : List (Bytes × SendAns) :=
  trace.filterMap fun
    | .send p buf a => if p = q then some (buf, a) else none
    | _ => none

/-- The messages of a connection that were passed to the handler. -/
def requests (q : Ptr) (trace : List Call) : List Bytes :=
  trace.filterMap fun
    | .handler p m => if p = q then some m else none
    | _ => none

section Lists

variable (p q : Ptr) (t u : List Call)

@[simp] theorem accepts_append : accepts (t ++ u) = accepts t ++ accepts u := List.filterMap_append

@[simp] theorem recvs_append : recvs q (t ++ u) = recvs q t ++ recvs q u := List.filterMap_append

@[simp] theorem sends_append : sends q (t ++ u) = sends q t ++ sends q u := List.filterMap_append

@[simp] theorem requests_append : requests q (t ++ u) = requests q t ++ requests q u :=
  List.filterMap_append

variable (used : List RecvAns) (ms : List Bytes) (sent : List (Bytes × SendAns))

@[simp] theorem accepts_map_recv : accepts (used.map (.recv p)) = [] := by
  simp [accepts]

@[simp] theorem accepts_map_handler : accepts (ms.map (.handler p)) = [] := by
  simp [accepts]

@[simp] theorem accepts_sendCalls : accepts (TcpServer.sendCalls p sent) = [] := by
  simp [accepts, TcpServer.sendCalls]

@[simp] theorem recvs_map_recv : recvs p (used.map (.recv p)) = used := by
  simp [recvs, List.filterMap_map]

@[simp] theorem recvs_map_handler : recvs q (ms.map (.handler p)) = [] := by
  simp [recvs]

@[simp] theorem recvs_sendCalls : recvs q (TcpServer.sendCalls p sent) = [] := by
  simp [recvs, TcpServer.sendCalls]

@[simp] theorem sends_map_recv : sends q (used.map (.recv p)) = [] := by
  simp [sends]

@[simp] theorem sends_map_handler : sends q (ms.map (.handler p)) = [] := by
  simp [sends]

@[simp] theorem sends_sendCalls : sends p (TcpServer.sendCalls p sent) = sent := by
  simp [sends, TcpServer.sendCalls, List.filterMap_map]

@[simp] theorem requests_map_recv : requests q (used.map (.recv p)) = [] := by
  simp [requests]

@[simp] theorem requests_map_handler : requests p (ms.map (.handler p)) = ms := by
  simp [requests, List.filterMap_map]

@[simp] theorem requests_sendCalls : requests q (TcpServer.sendCalls p sent) = [] := by
  simp [requests, TcpServer.sendCalls]

end Lists

/-- The connection that a call is made on. -/
def Call.conn : Call → Option Ptr
  | .recv p _ | .handler p _ | .send p _ _ => some p
  | _ => none

/-- The two records say the same of a connection. -/
structure SameHistory (q : Ptr) (t u : List Call) : Prop where
  recvs : recvs q u = recvs q t
  sends : sends q u = sends q t
  requests : requests q u = requests q t

theorem SameHistory.trans {q : Ptr} {t u v : List Call} (h : SameHistory q t u)
    (h' : SameHistory q u v) : SameHistory q t v :=
  ⟨h'.recvs.trans h.recvs, h'.sends.trans h.sends, h'.requests.trans h.requests⟩

/-- What is read off the calls of a connection is not changed by calls on others. -/
theorem filterMap_append_of_conn {β : Type} {q : Ptr} {calls : List Call} {f : Call → Option β}
    (hf : ∀ k, k.conn ≠ some q → f k = none) (h : ∀ k ∈ calls, k.conn ≠ some q) (t : List Call) :
    (t ++ calls).filterMap f = t.filterMap f := by
  rw [List.filterMap_append, List.append_right_eq_self, List.filterMap_eq_nil_iff]
  exact fun k hk => hf k (h k hk)

theorem SameHistory.append {q : Ptr} {calls : List Call} (t : List Call)
    (h : ∀ k ∈ calls, k.conn ≠ some q) : SameHistory q t (t ++ calls) := by
  refine ⟨?_, ?_, ?_⟩ <;> refine filterMap_append_of_conn (fun k hk => ?_) h t
  · cases k <;> simp_all [Call.conn]
  · cases k <;> simp_all [Call.conn]
  · cases k <;> simp_all [Call.conn]

namespace TcpServer

variable {L fd : Fd} {s s' : TcpServer} {p q : Ptr} {c d : Connection} {k : Handler}

theorem OwnIO.conn {c : Call} (h : OwnIO p c) : c.conn = some p := by
  cases c with
  | recv q a => exact congrArg some h
  | send q buf a => exact congrArg some h.1
  | accept | insert | handler | close | delete => exact h.elim

/-! ### The connections of an effect's calls -/

/-- The calls are made on the connection `p` or on none. -/
def OnConn (p : Ptr) (calls : List Call) : Prop := ∀ k ∈ calls, ∀ q, k.conn = some q → q = p

theorem OnConn.sameHistory {calls : List Call} (h : OnConn p calls) (hq : q ≠ p) (t : List Call) :
    SameHistory q t (t ++ calls) :=
  .append t fun k hk hconn => hq (h k hk q hconn)

theorem conn_acceptStep (s : TcpServer) (a : AcceptAns) :
    ∃ calls, (s.acceptStep a).trace = s.trace ++ calls ∧ ∀ k ∈ calls, k.conn = none := by
  refine ⟨_, acceptStep_trace s a, fun k hk => ?_⟩
  cases a with
  | fail e =>
    obtain rfl := List.mem_singleton.1 hk
    rfl
  | conn g added => rcases List.mem_pair.1 hk with rfl | rfl <;> rfl

theorem onConn_handled (used : List RecvAns) (messages : List Bytes) :
    OnConn p (used.map (.recv p) ++ messages.map (.handler p)) := by
  intro k hk q hq
  rcases List.mem_append.1 hk with hk | hk
  · obtain ⟨u, -, rfl⟩ := List.mem_map.1 hk
    exact (Option.some.inj hq).symm
  · obtain ⟨u, -, rfl⟩ := List.mem_map.1 hk
    exact (Option.some.inj hq).symm

theorem onConn_sendCalls (used : List (Bytes × SendAns)) : OnConn p (sendCalls p used) := by
  intro k hk q hq
  obtain ⟨u, -, rfl⟩ := List.mem_map.1 hk
  exact (Option.some.inj hq).symm

theorem onConn_closed {calls : List Call} (hio : ∀ k ∈ calls, OwnIO p k) :
    OnConn p (calls ++ [.close fd, .delete p]) := by
  intro k hk q hq
  rcases List.mem_append.1 hk with hk | hk
  · exact Option.some.inj (hq.symm.trans (hio k hk).conn)
  · rcases List.mem_pair.1 hk with rfl | rfl <;> cases hq

/-- The calls of an effect are made on connections that are live before it. -/
theorem Effect.calls (he : Effect L fd s k s') : ∃ calls, s'.trace = s.trace ++ calls ∧
    ∀ c ∈ calls, ∀ p, c.conn = some p → s.heap p ≠ none := by
  have hlive : ∀ {p : Ptr} {c : Connection} {calls : List Call}, s.heap p = some c →
      OnConn p calls → ∀ k ∈ calls, ∀ q, k.conn = some q → s.heap q ≠ none := by
    intro p c calls hc h k hk q hq
    rw [h k hk q hq, hc]
    exact Option.some_ne_none c
  cases he with
  | @accepted a hfd hfresh =>
    obtain ⟨calls, htrace, hnone⟩ := conn_acceptStep s a
    refine ⟨calls, htrace, fun k hk q hq => ?_⟩
    rw [hnone k hk] at hq
    cases hq
  | read hc => exact ⟨_, trace_handled .., hlive hc (onConn_handled _ _)⟩
  | wrote hc => exact ⟨_, trace_flushed .., hlive hc (onConn_sendCalls _)⟩
  | @closed _ p _ calls hc _ _ hio =>
    exact ⟨calls ++ [.close fd, .delete p], by simp, hlive hc (onConn_closed hio)⟩

theorem Effect.next_le (he : Effect L fd s k s') : s.next ≤ s'.next := by
  cases he with
  | @accepted a hfd hfresh =>
    cases a with
    | fail e => exact le_rfl
    | conn g added => rw [acceptStep_next]; exact Nat.le_succ _
  | read => simp
  | wrote => simp
  | closed => simp

/-- **What an effect can do to a connection** that is live afterwards: it is as it was, or new, or
something was read, or written. -/
inductive Change (s s' : TcpServer) (q : Ptr) : Connection → Prop
  | same {d : Connection} (hd : s.heap q = some d) (hist : SameHistory q s.trace s'.trace) :
      Change s s' q d
  | born (g : Fd) (hq : q = s.next) (hist : SameHistory q s.trace s'.trace) :
      Change s s' q (newClient g)
  | read {c : Connection} {as used : List RecvAns} {rest out : Bytes} {messages : List Bytes}
      {mem : ℕ → Request} (hc : s.heap q = some c) (hscan : recvScan as = some (used, true))
      (hsplit : splitMessage (c.inBuffer ++ recvData used) [] = (rest, messages))
      (hout : replies mem messages = .ok out) (hrecvs : recvs q s'.trace = recvs q s.trace ++ used)
      (hsends : sends q s'.trace = sends q s.trace)
      (hrequests : requests q s'.trace = requests q s.trace ++ messages) :
      Change s s' q { c with inBuffer := rest, outBuffer := c.outBuffer ++ out }
  | wrote {c : Connection} {e : Errno} {as : List SendAns} {used : List (Bytes × SendAns)}
      {rest : Bytes} (hc : s.heap q = some c)
      (hscan : sendScan e c.outBuffer as = some (used, rest, false))
      (hrecvs : recvs q s'.trace = recvs q s.trace)
      (hsends : sends q s'.trace = sends q s.trace ++ used)
      (hrequests : requests q s'.trace = requests q s.trace) :
      Change s s' q { c with outBuffer := rest }

theorem Effect.change (he : Effect L fd s k s') (hd : s'.heap q = some d) :
    Change s s' q d := by
  cases he with
  | @accepted a hfd hfresh =>
    have hist : SameHistory q s.trace (s.acceptStep a).trace := by
      obtain ⟨calls, htrace, hnone⟩ := conn_acceptStep s a
      rw [htrace]
      refine SameHistory.append _ fun k hk => ?_
      rw [hnone k hk]
      exact (Option.some_ne_none q).symm
    cases a with
    | fail e => exact .same hd hist
    | conn g added =>
      rw [acceptStep_heap] at hd
      by_cases hq : q = s.next
      · obtain rfl : newClient g = d := by simpa [hq] using hd
        exact .born g hq hist
      · exact .same (by simpa [hq] using hd) hist
  | @read p c as used rest out messages mem hc hs hL hscan hsplit hout =>
    rw [heap_handled] at hd
    by_cases hq : q = p
    · subst hq
      obtain rfl : _ = d := by simpa using hd
      exact .read hc hscan hsplit hout (by simp) (by simp) (by simp)
    · refine .same (by simpa [hq] using hd) ?_
      rw [trace_handled]
      exact (onConn_handled used messages).sameHistory hq s.trace
  | @wrote p c as used rest hc hs hL hne hscan =>
    rw [heap_flushed] at hd
    by_cases hq : q = p
    · subst hq
      obtain rfl : _ = d := by simpa using hd
      exact .wrote hc hscan (by simp) (by simp) (by simp)
    · refine .same (by simpa [hq] using hd) ?_
      rw [trace_flushed]
      exact (onConn_sendCalls used).sameHistory hq s.trace
  | @closed k p c calls hc hs hL hio =>
    rw [heap_drop] at hd
    have hq : q ≠ p := by
      rintro rfl
      simp at hd
    refine .same (by simpa [hq] using hd) ?_
    rw [trace_drop, trace_logs, List.append_assoc]
    exact (onConn_closed hio).sameHistory hq s.trace

end TcpServer

/-! ### One connection on its own -/

open TcpServer

/-- **A session**: what reading rounds and writing rounds alone do to a new connection, with the
answers of its `recv` and `send` calls and the messages passed to the handler. -/
inductive Session : Connection → List RecvAns → List (Bytes × SendAns) → List Bytes → Prop
  | start {c : Connection} (hin : c.inBuffer = []) (hout : c.outBuffer = []) : Session c [] [] []
  | read {c : Connection} {R : List RecvAns} {S : List (Bytes × SendAns)} {M : List Bytes}
      {as used : List RecvAns} {rest out : Bytes} {messages : List Bytes} {mem : ℕ → Request}
      (h : Session c R S M) (hscan : recvScan as = some (used, true))
      (hsplit : splitMessage (c.inBuffer ++ recvData used) [] = (rest, messages))
      (hout : replies mem messages = .ok out) :
      Session { c with inBuffer := rest, outBuffer := c.outBuffer ++ out } (R ++ used) S
        (M ++ messages)
  | wrote {c : Connection} {R : List RecvAns} {S : List (Bytes × SendAns)} {M : List Bytes}
      {e : Errno} {as : List SendAns} {used : List (Bytes × SendAns)} {rest : Bytes}
      (h : Session c R S M) (hscan : sendScan e c.outBuffer as = some (used, rest, false)) :
      Session { c with outBuffer := rest } R (S ++ used) M

/-- **Connections do not interfere**: in every reachable configuration each live connection, with
its history, is that of a session. -/
theorem Reach.session {L : Fd} {c : Config} (h : Reach L c) {q : Ptr} {d : Connection}
    (hd : c.server.heap q = some d) :
    Session d (recvs q c.server.trace) (sends q c.server.trace) (requests q c.server.trace) := by
  -- with it: a connection that was not made yet has no history
  refine (h.invariant (P := fun s => (∀ q, s.next ≤ q → SameHistory q [] s.trace) ∧
    ∀ q d, s.heap q = some d → Session d (recvs q s.trace) (sends q s.trace) (requests q s.trace))
    ⟨fun q _ => ⟨rfl, rfl, rfl⟩, ?_⟩ ?_).2 q d hd
  · intro q d hd
    obtain ⟨rfl, rfl⟩ := heap_init hd
    exact .start rfl rfl
  · rintro s s' k fd hg he ⟨hunborn, ih⟩
    constructor
    · intro q hq
      have hle := hq.trans' he.next_le
      obtain ⟨calls, htrace, hcalls⟩ := he.calls
      rw [htrace]
      exact (hunborn q hle).trans
        (.append s.trace fun k hk hkq => hcalls k hk q hkq (hg.fresh q hle))
    · intro q d hd
      cases he.change hd with
      | same hd' hist =>
        rw [hist.recvs, hist.sends, hist.requests]
        exact ih q d hd'
      | born g hq hist =>
        have h0 := (hunborn q hq.ge).trans hist
        rw [h0.recvs, h0.sends, h0.requests]
        exact .start rfl rfl
      | read hc hscan hsplit hout hrecvs hsends hrequests =>
        rw [hrecvs, hsends, hrequests]
        exact (ih q _ hc).read hscan hsplit hout
      | wrote hc hscan hrecvs hsends hrequests =>
        rw [hrecvs, hsends, hrequests]
        exact (ih q _ hc).wrote hscan

end NetProg.Reactor
