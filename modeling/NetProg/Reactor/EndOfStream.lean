import NetProg.Reactor.EndToEnd
import NetProg.Reactor.Lifetime

/-!
# The end of the stream

`Recver` does not look at `_in_buffer` after a read loop that ended with the end of the stream: what
arrived in the same loop is dropped with the connection. So what a client gets handled before it
closes depends on how its bytes and the close were distributed over the rounds.
-/

namespace NetProg.Reactor

open NetProg.Lib TcpServer

variable {L : Fd} {ps : List Bytes} {p : Ptr} {c : Config} {ans : Answers} {used : List RecvAns}
  {s' : TcpServer}

/-- **A client's stream ends**: in a run, the read handler of its connection comes next, gets the
answers `used` and then the end of the stream, and leaves the server `s'`. All that was received on
the connection are the frames of `ps`. -/
structure Ends (L : Fd) (ps : List Bytes) (p : Ptr) (c : Config) (ans : Answers)
    (used : List RecvAns) (s' : TcpServer) : Prop where
  reach : Reach L c
  client : ∃ conn, c.server.heap p = some conn ∧ conn.sock ≠ L
  next : ∃ ev todo, c.todo = .handler .read (some p) ev :: todo ∧ asks ev .read = true ∧
    c.server.handler .read (some p) ev ans = .ok s'
  scan : recvScan ans.recvs = some (used ++ [.bytes []], false)
  stream : received (recvs p c.server.trace ++ used) = frames ps

theorem Ends.requests_eq (h : Ends L ps p c ans used s') :
    requests p s'.trace = requests p c.server.trace := by
  obtain ⟨conn, hc, hL⟩ := h.client
  obtain ⟨ev, todo, htodo, hask, hrun⟩ := h.next
  obtain ⟨q, hq, hp⟩ := (htodo ▸ h.reach.ready : c.server.Ready _).pending
  obtain rfl := Option.some.inj hq
  rcases hp with hdead | ⟨d, hd, hs, hr⟩
  · exact absurd hdead (not_gone hc)
  obtain rfl : conn = d := Option.some.inj (hc.symm.trans hd)
  rw [handler_recv h.reach.good hc hL hask (hs ▸ hr.registered), h.scan] at hrun
  obtain rfl := Except.ok.inj hrun
  rw [trace_drop, trace_logs, requests_append, requests_append, requests_map_recv]
  simp [requests]

/-- **What a client gets handled before it closes**: the frames that were complete in the bytes
received in the rounds before the one that sees the end of the stream. -/
theorem requests_at_end (hps : ∀ m ∈ ps, Payload m) (hfree : ∀ m ∈ ps, 0 ∉ m)
    (h : Ends L ps p c ans used s') : ∃ k rest,
      Cutter.AtFrame enCode ps (received (recvs p c.server.trace)) k rest ∧
      requests p s'.trace = ps.take k := by
  obtain ⟨conn, hc, -⟩ := h.client
  have hR : received (recvs p c.server.trace) <+: frames ps := by
    rw [← h.stream, received_append]
    exact List.prefix_append _ _
  obtain ⟨k, hk, hM⟩ := (h.reach.session hc).segmented hps hfree hR
  exact ⟨k, conn.inBuffer, hk, h.requests_eq.trans hM⟩

/-! ### Two schedules -/

theorem reach_read {s : TcpServer} {ev : Event} (hr : Reach L ⟨s, []⟩) (hrep : s.Reported ev)
    (hl : s.lookup ev.fd = some p) (hask : ¬ asks ev .error = true) :
    Reach L ⟨s, [.handler .read (some p) ev, .handler .write (some p) ev]⟩ := by
  have h1 : Reach L ⟨s, [.event ev]⟩ := hr.tail (.wait (.single hrep))
  have h2 : Reach L ⟨s, handlers (some p) ev⟩ := hl ▸ h1.tail .lookup
  exact h2.tail (@Step.handler s s .error _ ev {} _ (by simp) (handler_of_not_asks hask))

/-- The request `1 + 1` in one round, and the end of the stream in the next. -/
theorem ends_later : Ends 3 [[49, 32, 43, 32, 49]] 1
    ⟨oneReply, [.handler .read (some 1) ⟨5, { epollin := true }⟩,
      .handler .write (some 1) ⟨5, { epollin := true }⟩]⟩
    { recvs := [.bytes []] } [] ((oneReply.logs [.recv 1 (.bytes [])]).drop 1 5) := by
  have hc : oneReply.heap 1 =
      some { newClient 5 with outBuffer := [51, 13, 10, 48, 32, 50, 13, 10] } := rfl
  refine ⟨reach_read reach_oneReply ⟨_, rfl, by decide, by decide⟩ rfl (by decide),
    ⟨_, hc, by decide⟩, ⟨_, _, rfl, rfl, ?_⟩, rfl, ?_⟩
  · exact handler_recv reach_oneReply.good hc (by decide) rfl (Option.some_ne_none _)
  · rw [oneReply_trace]; rfl

/-- The same request and the end of the stream in one round. -/
theorem ends_at_once : Ends 3 [[49, 32, 43, 32, 49]] 1
    ⟨oneClient, [.handler .read (some 1) ⟨5, { epollin := true }⟩,
      .handler .write (some 1) ⟨5, { epollin := true }⟩]⟩
    { recvs := [.bytes [53, 13, 10, 49, 32, 43, 32, 49, 13, 10], .bytes []] }
    [.bytes [53, 13, 10, 49, 32, 43, 32, 49, 13, 10]]
    ((oneClient.logs [.recv 1 (.bytes [53, 13, 10, 49, 32, 43, 32, 49, 13, 10]),
      .recv 1 (.bytes [])]).drop 1 5) := by
  have hc : oneClient.heap 1 = some (newClient 5) := rfl
  refine ⟨reach_read reach_oneClient ⟨_, rfl, by decide, by decide⟩ rfl (by decide),
    ⟨_, hc, by decide⟩, ⟨_, _, rfl, rfl, ?_⟩, rfl, rfl⟩
  exact handler_recv reach_oneClient.good hc (by decide) rfl (Option.some_ne_none _)

/-- The schedule with two rounds: the request was handled before the last one. -/
theorem requests_at_end_example : ∃ k rest,
    Cutter.AtFrame enCode [[49, 32, 43, 32, 49]] (received (recvs 1 oneReply.trace)) k rest ∧
      requests 1 ((oneReply.logs [.recv 1 (.bytes [])]).drop 1 5).trace =
        [[49, 32, 43, 32, 49]].take k :=
  requests_at_end (payloads_serialize [⟨1, 1, 43⟩]) (by decide) ends_later

/-- The two schedules of one stream differ in what is handled. -/
theorem requests_not_same :
    ¬ ∀ (L : Fd) (ps : List Bytes) (p : Ptr) (c c' : Config) (ans ans' : Answers)
      (used used' : List RecvAns) (s s' : TcpServer), (∀ m ∈ ps, Payload m) → (∀ m ∈ ps, 0 ∉ m) →
      Ends L ps p c ans used s → Ends L ps p c' ans' used' s' →
      requests p s.trace = requests p s'.trace := by
  intro h
  have heq := h 3 _ 1 _ _ _ _ _ _ _ _ (payloads_serialize [⟨1, 1, 43⟩]) (by decide) ends_later
    ends_at_once
  rw [ends_later.requests_eq, ends_at_once.requests_eq, oneReply_trace] at heq
  exact absurd heq (by decide)

end NetProg.Reactor
