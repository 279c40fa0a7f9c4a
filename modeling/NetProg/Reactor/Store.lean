import Mathlib.Data.List.Count
import NetProg.Reactor.Lifetime

/-!
# The connection store and the write interest

What the record of the calls adds to the invariant: descriptors are closed and connections deleted
as often as they should be, `insert` never meets its key, and nothing empty is sent.

* `store_invariant`: the three structures of descriptors agree in every reachable configuration;
* `write_interest`: `EPOLLOUT` is registered exactly when something is to be written.
-/

namespace NetProg.Reactor

open NetProg.Lib Function

/-- The call gives the descriptor `fd`. -/
def Call.accepts (fd : Fd) : Call → Bool
  | .accept (.conn g _) => g = fd
  | _ => false

/-- The calls that leave descriptors and connections as they are. -/
def Call.io : Call → Bool
  | .recv .. | .handler .. | .send .. | .accept (.fail _) => true
  | _ => false

namespace TcpServer

variable {L fd : Fd} {s s' : TcpServer} {p : Ptr} {calls : List Call} {k : Handler}

theorem OwnIO.io {c : Call} (h : OwnIO p c) : c.io = true := by
  cases c <;> first | rfl | exact h.elim

theorem sendCalls_io (p : Ptr) (used : List (Bytes × SendAns)) : ∀ c ∈ sendCalls p used, c.io := by
  intro c hc
  obtain ⟨u, -, rfl⟩ := List.mem_map.1 hc
  rfl

theorem recvCalls_io (p : Ptr) (used : List RecvAns) (messages : List Bytes) :
    ∀ c ∈ used.map (Call.recv p) ++ messages.map (Call.handler p), c.io := by
  intro c hc
  rcases List.mem_append.1 hc with hc | hc
  · obtain ⟨u, -, rfl⟩ := List.mem_map.1 hc
    rfl
  · obtain ⟨u, -, rfl⟩ := List.mem_map.1 hc
    rfl

/-! ### The ledger of descriptors and connections -/

/-- **What the record of the calls says** of a server that listens on `L`. -/
structure Ledger (L : Fd) (s : TcpServer) : Prop where
  /-- A descriptor is closed once for each time it was given, unless it is open. -/
  closes : ∀ fd, s.trace.count (.close fd) + (if s.isOpen fd then 1 else 0) =
    s.trace.countP (Call.accepts fd) + if fd = L then 1 else 0
  /-- A connection that was made is live, or was deleted once. -/
  deletes : ∀ p, s.trace.count (.delete p) + (if (s.heap p).isSome then 1 else 0) =
    if p < s.next then 1 else 0
  inserts : ∀ fd b, .insert fd b ∈ s.trace → b = true
  listening : .close L ∉ s.trace
  /-- While every registration has succeeded, every open descriptor is registered. -/
  added : (∀ g ok, .accept (.conn g ok) ∈ s.trace → ok = true) →
    ∀ fd, s.isOpen fd = true → s.epoll fd ≠ none

theorem Ledger.init (L : Fd) : Ledger L (TcpServer.init L) := by
  have htrace : (TcpServer.init L).trace = [.insert L true] := rfl
  refine ⟨?_, ?_, ?_, ?_, ?_⟩
  · intro fd
    have hopen : (TcpServer.init L).isOpen fd = decide (fd = L) := by
      by_cases h : fd = L
      · subst h; simp [TcpServer.init, addConnection, insert, addEvent, store, log]
      · simp [TcpServer.init, addConnection, insert, addEvent, store, log, h]
    simp [htrace, hopen, Call.accepts]
  · intro p
    have hheap : ((TcpServer.init L).heap p).isSome = decide (p = 0) := by
      by_cases h : p = 0
      · subst h; rfl
      · simp [TcpServer.init, addConnection, insert, addEvent, store, log, h]
    have hnext : (TcpServer.init L).next = 1 := rfl
    simp [htrace, hheap, hnext]
  · simp [htrace]
  · simp [htrace]
  · intro _ fd
    by_cases h : fd = L
    · subst h; simp [TcpServer.init, addConnection, insert, addEvent, store, log]
    · simp [TcpServer.init, addConnection, insert, addEvent, store, log, h]

theorem Ledger.io (h : Ledger L s) (hio : ∀ c ∈ calls, c.io = true)
    (htrace : s'.trace = s.trace ++ calls) (hopen : s'.isOpen = s.isOpen) (hnext : s'.next = s.next)
    (hheap : ∀ p, (s'.heap p).isSome = (s.heap p).isSome)
    (hepoll : ∀ fd, s.epoll fd ≠ none → s'.epoll fd ≠ none) : Ledger L s' := by
  have hnot : ∀ c : Call, c.io = false → c ∉ calls := fun c hc hmem => by
    rw [hio c hmem] at hc; cases hc
  have hmem : ∀ c : Call, c.io = false → (c ∈ s'.trace ↔ c ∈ s.trace) := fun c hc => by
    rw [htrace, List.mem_append, or_iff_left (hnot c hc)]
  refine ⟨?_, ?_, ?_, ?_, ?_⟩
  · intro fd
    have hcount : calls.countP (Call.accepts fd) = 0 := List.countP_eq_zero.2 fun c hc => by
      have := hio c hc
      cases c with
      | accept a =>
        cases a with
        | conn g added => cases this
        | fail e => simp [Call.accepts]
      | _ => simp [Call.accepts]
    rw [htrace, List.count_append, List.countP_append, hcount, hopen,
      List.count_eq_zero.2 (hnot (.close fd) rfl)]
    exact h.closes fd
  · intro p
    rw [htrace, List.count_append, hheap, hnext, List.count_eq_zero.2 (hnot (.delete p) rfl)]
    exact h.deletes p
  · intro fd b hm
    exact h.inserts fd b ((hmem _ rfl).1 hm)
  · exact fun hm => h.listening ((hmem _ rfl).1 hm)
  · intro hok fd ho
    rw [hopen] at ho
    exact hepoll fd (h.added (fun g ok hm => hok g ok ((hmem _ rfl).2 hm)) fd ho)

theorem Ledger.accept (h : Ledger L s) (hg : Good L s) {g : Fd} {added : Bool}
    (hfresh : s.isOpen g = false) : Ledger L (s.acceptStep (.conn g added)) := by
  obtain ⟨hmap, hepoll⟩ := hg.absent hfresh
  have htrace : (s.acceptStep (.conn g added)).trace =
      s.trace ++ [.accept (.conn g added), .insert g true] := by
    simp [acceptStep_trace, hmap]
  refine ⟨?_, ?_, ?_, ?_, ?_⟩
  · intro fd
    have := h.closes fd
    rw [htrace, acceptStep_isOpen]
    by_cases hfd : fd = g
    · subst hfd
      rw [hfresh] at this
      simp [Call.accepts] at this ⊢
      omega
    · simpa [Call.accepts, List.countP_cons, hfd, Ne.symm hfd] using this
  · intro p
    have := h.deletes p
    rw [htrace, acceptStep_heap, acceptStep_next]
    by_cases hp : p = s.next
    · subst hp
      rw [hg.fresh _ le_rfl] at this
      simpa using this
    · have hlt : p < s.next + 1 ↔ p < s.next :=
        ⟨fun h => lt_of_le_of_ne (Nat.le_of_lt_succ h) hp, fun h => Nat.lt_succ_of_lt h⟩
      simpa [hp, hlt] using this
  · intro fd b hm
    rw [htrace, List.mem_append] at hm
    rcases hm with hm | hm
    · exact h.inserts fd b hm
    · simp only [List.mem_cons, reduceCtorEq, Call.insert.injEq, List.not_mem_nil, or_false,
        false_or] at hm
      exact hm.2
  · rw [htrace]
    simpa using h.listening
  · intro hok fd ho
    have hadd : added = true := hok g added (by rw [htrace]; simp)
    rw [acceptStep_epoll, if_pos ⟨hadd, hepoll⟩]
    by_cases hfd : fd = g
    · simp [hfd]
    · rw [acceptStep_isOpen, update_of_ne hfd] at ho
      rw [update_of_ne hfd]
      have hok' : ∀ g' ok, .accept (.conn g' ok) ∈ s.trace → ok = true := fun g' ok hm =>
        hok g' ok (by rw [htrace]; exact List.mem_append_left _ hm)
      exact h.added hok' fd ho

theorem Ledger.drop (h : Ledger L s) {c : Connection} (hg : Good L s) (hc : s.heap p = some c)
    (hL : c.sock ≠ L) : Ledger L (s.drop p c.sock) := by
  refine ⟨?_, ?_, ?_, ?_, ?_⟩
  · intro fd
    have := h.closes fd
    rw [trace_drop, isOpen_drop]
    by_cases hfd : fd = c.sock
    · subst hfd
      rw [hg.isOpen hc] at this
      simpa [Call.accepts] using this
    · simpa [Call.accepts, hfd, Ne.symm hfd] using this
  · intro q
    have := h.deletes q
    rw [trace_drop, heap_drop, next_drop]
    by_cases hq : q = p
    · subst hq
      rw [hc] at this
      simpa using this
    · simpa [hq, Ne.symm hq] using this
  · intro fd b hm
    exact h.inserts fd b (by simpa using hm)
  · simpa [hL.symm] using h.listening
  · intro hok fd ho
    by_cases hfd : fd = c.sock
    · subst hfd; simp at ho
    · have hok' : ∀ g ok, .accept (.conn g ok) ∈ s.trace → ok = true := fun g ok hm =>
        hok g ok (by simp [hm])
      simpa [hfd] using h.added hok' fd (by simpa [hfd] using ho)

theorem isSome_update {c : Connection} (hc : s.heap p = some c) (c' : Connection) (q : Ptr) :
    (update s.heap p (some c') q).isSome = (s.heap q).isSome := by
  by_cases hq : q = p
  · subst hq; simp [hc]
  · simp [hq]

theorem registered_update {g : Fd} (h : s.epoll g ≠ none) (e : Events) :
    update s.epoll fd (some e) g ≠ none := by
  by_cases hg : g = fd
  · simp [hg]
  · simpa [hg] using h

/-- **Every effect keeps the ledger.** -/
theorem Ledger.effect (h : Ledger L s) (hg : Good L s) (he : Effect L fd s k s') : Ledger L s' := by
  cases he with
  | @read p c as used rest out messages mem hc hs hL hscan hsplit hout =>
    refine h.io (recvCalls_io p used messages) (by simp) (by simp) (by simp) ?_ ?_
    · intro q
      rw [heap_handled]
      exact isSome_update hc _ q
    · intro g hreg
      rw [epoll_handled]
      split
      · exact hreg
      · exact registered_update hreg _
  | @wrote p c as used rest hc hs hL hne hscan =>
    refine h.io (sendCalls_io p used) (by simp) (by simp) (by simp) ?_ ?_
    · intro q
      rw [heap_flushed]
      exact isSome_update hc _ q
    · intro g hreg
      rw [epoll_flushed]
      exact registered_update hreg _
  | @accepted a hfd hfresh =>
    cases a with
    | fail e =>
      have hio : ∀ c ∈ [Call.accept (.fail e)], c.io = true := List.forall_mem_singleton.2 rfl
      exact h.io hio (acceptStep_trace s (.fail e)) rfl rfl (fun _ => rfl) fun _ hne => hne
    | conn g added => exact h.accept hg (hfresh g added rfl)
  | @closed k p c calls hc hs hL hio =>
    subst hs
    exact (h.io (fun c hc => (hio c hc).io) (trace_logs ..) (isOpen_logs ..) (next_logs ..)
      (fun _ => by rw [heap_logs]) fun _ hne => by rwa [epoll_logs]).drop (hg.logs calls)
      (by simpa using hc) hL

theorem Reach.ledger {c : Config} (h : Reach L c) : Ledger L c.server :=
  h.invariant (.init L) fun hg he hl => hl.effect hg he

/-! ### The store -/

/-- **What holds of the connection store**, for a server that listens on `L`. -/
structure StoreOk (L : Fd) (c : Config) : Prop where
  /-- The keys of the map are the open descriptors, and the registered ones. -/
  keys_open : ∀ fd, c.server.connIsExists fd = true ↔ c.server.isOpen fd = true
  keys_epoll : ∀ fd, c.server.connIsExists fd = true ↔ c.server.epoll fd ≠ none
  /-- The open descriptors are the listening one and those accepted and not yet closed. -/
  opened : ∀ fd, c.server.isOpen fd = true ↔ c.server.trace.count (.close fd) <
    c.server.trace.countP (Call.accepts fd) + if fd = L then 1 else 0
  /-- Every key has a live connection of its own. -/
  live : ∀ fd p, c.server.connections fd = some p →
    ∃ conn, c.server.heap p = some conn ∧ conn.sock = fd
  distinct : ∀ fd fd' p, c.server.connections fd = some p → c.server.connections fd' = some p →
    fd = fd'
  listening : c.server.connIsExists L = true ∧ .close L ∉ c.server.trace
  /-- Nothing is closed or deleted twice. -/
  closes : ∀ fd, c.server.trace.count (.close fd) ≤ c.server.trace.countP (Call.accepts fd)
  deletes : ∀ p, c.server.trace.count (.delete p) ≤ 1
  /-- The events of the batch that are still to come find the connection of their descriptor. -/
  found : ∀ ev, .event ev ∈ c.todo →
    ∃ p conn, c.server.lookup ev.fd = some p ∧ c.server.heap p = some conn ∧ conn.sock = ev.fd
  inserts : ∀ fd b, .insert fd b ∈ c.server.trace → b = true
  asserts : ∀ k conn ev todo ans, c.todo = .handler k conn ev :: todo →
    c.server.handler k conn ev ans ≠ .error .assertion

/-- **The store invariant** holds in every configuration that is reached while every registration of
an accepted descriptor succeeds. -/
theorem store_invariant {c : Config} (h : Reach L c)
    (hadd : ∀ fd ok, .accept (.conn fd ok) ∈ c.server.trace → ok = true) : StoreOk L c := by
  have hg := h.good
  have hl := Reach.ledger h
  refine ⟨?_, ?_, ?_, hg.live, ?_, ?_, ?_, ?_, ?_, hl.inserts, ?_⟩
  · intro fd
    rw [hg.keys]
  · intro fd
    rw [hg.keys]
    refine ⟨hl.added hadd fd, fun hne => ?_⟩
    obtain ⟨e, he⟩ := Option.ne_none_iff_exists'.1 hne
    exact hg.registered fd e he
  · intro fd
    have := hl.closes fd
    cases hopen : c.server.isOpen fd with
    | true => simp only [hopen, if_true] at this; simp; omega
    | false => simp only [hopen] at this; simp at this ⊢; omega
  · intro fd fd' p hp hp'
    obtain ⟨d, hd, rfl⟩ := hg.live fd p hp
    obtain ⟨d', hd', rfl⟩ := hg.live fd' p hp'
    rw [Option.some.inj (hd.symm.trans hd')]
  · exact ⟨by rw [hg.keys]; exact hg.listening, hl.listening⟩
  · intro fd
    have := hl.closes fd
    by_cases hL : fd = L
    · subst hL
      rw [List.count_eq_zero.2 hl.listening]
      exact Nat.zero_le _
    · rw [if_neg hL] at this
      omega
  · intro p
    have := hl.deletes p
    split at this <;> split at this <;> omega
  · intro ev hev
    exact hg.lookup (h.ready.reported hev)
  · intro k conn ev todo ans htodo hassert
    obtain ⟨p, rfl, hp⟩ := (htodo ▸ h.ready : c.server.Ready _).pending
    rcases handler_error hg hp hassert with ⟨h1, -⟩ | h1 | h1 | h1 | ⟨f, h1⟩ <;> cases h1

/-- A server with one client, whose request has been read and not been answered yet. -/
theorem store_invariant_example : StoreOk 3 ⟨oneReply, []⟩ := by
  refine store_invariant reach_oneReply fun fd ok hm => ?_
  have hm' : fd = 5 ∧ ok = true := by simpa [oneReply_trace] using hm
  exact hm'.2

/-! ### The write interest -/

theorem sends_ne_nil {c : Config} (h : Reach L c) :
    ∀ p buf a, .send p buf a ∈ c.server.trace → buf ≠ [] := by
  refine h.invariant (P := fun s => ∀ p buf a, .send p buf a ∈ s.trace → buf ≠ []) ?_ ?_
  · intro p buf a hm
    cases hm with
    | tail _ hm => cases hm
  · intro s s' k fd hg he ih q buf a hm
    cases he with
    | @accepted a' hfd hfresh =>
      apply ih q buf a
      rw [acceptStep_trace] at hm
      cases a' <;> simpa using hm
    | @read p c as used rest out messages mem hc hs hL hscan hsplit hout =>
      exact ih q buf a (by simpa using hm)
    | @wrote p c as used rest hc hs hL hne hscan =>
      rw [trace_flushed, List.mem_append] at hm
      rcases hm with hm | hm
      · exact ih q buf a hm
      · exact (sendCalls_own hscan hne _ hm).2
    | @closed k p c calls hc hs hL hio =>
      rw [trace_drop, trace_logs] at hm
      have hm' : .send q buf a ∈ s.trace ∨ .send q buf a ∈ calls := by simpa using hm
      rcases hm' with hm | hm
      · exact ih q buf a hm
      · exact (hio _ hm).2

/-- A `send` that was given something either took some of it or failed. -/
def SendsTake (c : Config) : Prop :=
  ∀ p buf n, .send p buf (.count n) ∈ c.server.trace → buf ≠ [] → 0 < n

/-- **The write-interest invariant.** In every reachable configuration a connection's interest has
`EPOLLOUT` exactly when its `_out_buffer` is not empty. So `Sender` has never called `send` with
nothing, and when `send` takes something of a non-empty buffer or fails, it has never looked at
`errno` after a call that did not set it. -/
theorem write_interest {c : Config} (h : Reach L c) (hsend : SendsTake c) :
    (∀ p conn, c.server.heap p = some conn → conn.sock ≠ L →
      (c.server.WantsWrite conn.sock ↔ conn.outBuffer ≠ [])) ∧
    (∀ p buf a, .send p buf a ∈ c.server.trace → buf ≠ []) ∧
    ∀ p buf n, .send p buf (.count n) ∈ c.server.trace → 0 < n :=
  ⟨fun p conn hc _ => h.good.interest p conn hc, sends_ne_nil h,
    fun p buf n hm => hsend p buf n hm (sends_ne_nil h p buf _ hm)⟩

/-- The answer that waits in `_out_buffer` is waited for. -/
theorem write_interest_example : oneReply.WantsWrite 5 := by
  refine ((write_interest reach_oneReply fun p buf n hm => ?_).1 1 _ rfl (by decide)).2 (by decide)
  simp [oneReply_trace] at hm

end TcpServer

end NetProg.Reactor
