import NetProg.Reactor.Dispatch

/-!
# When `HandlerEvents` gets to the end of its batch

The three handlers of an event get one pointer, and an earlier one may delete the object: `Excepter`
for an error or a hang-up, `Recver` at the end of the stream. The guard `ConnIsExists(conn->_sock)`
of a later handler then reads the deleted object itself. A call may also end the process in other
ways: the log line for an error of `recv`, the signal of `send`, a calculation without a result.

* `handler_error`: the ways in which a handler can fail to return;
* `Completes`: what an event needs, from the answers to its calls;
* `handlerEvents_returns_iff`: `HandlerEvents` gets to the end of the batch exactly when every event
  that it comes to has what it needs.
-/

namespace NetProg.Reactor

open NetProg.Lib Function

namespace TcpServer

variable {L : Fd} {s s' : TcpServer} {p : Ptr} {c : Connection} {ev : Event} {ans : Answers}
  {k : Handler} {e : Stop}

/-- **A handler that does not return** was called for a deleted connection, or its loop is not left,
or the calculation has no result. No assertion fails and no empty callback is called. -/
theorem handler_error (hg : Good L s) (hp : s.Pending p ev)
    (h : s.handler k (some p) ev ans = .error e) :
    e = .dead ∧ s.Gone p ∧ asks ev k = true ∨ e = .pending ∨ e = .badLog ∨ e = .sigpipe ∨
      ∃ f, e = .arith f := by
  have ho : Outcome L s p ev ans k _ := handler_outcome hg hp
  generalize hx : s.handler k (some p) ev ans = x at h ho
  cases ho with
  | dead hgone hask =>
    cases h
    exact Or.inl ⟨rfl, hgone, hask⟩
  | waiting =>
    cases h
    exact Or.inr (Or.inl rfl)
  | reading =>
    obtain rfl := Except.error.inj h
    unfold recvStop
    split <;> simp
  | writing =>
    obtain rfl := Except.error.inj h
    unfold sendStop
    split <;> simp
  | fault f =>
    cases h
    simp
  | idle | accepted | hangup | ended | read | wrote | failed => cases h

theorem not_gone (hc : s.heap p = some c) : ¬ s.Gone p := fun h => by
  rw [h.1] at hc; cases hc

/-! ### What an event needs -/

/-- The accept loop is left: a call fails, and not because it was interrupted. -/
def Accepts (as : List AcceptAns) : Prop := ∃ e : Errno, .fail e ∈ as ∧ e ≠ .EINTR

/-- The read loop comes to the end of the stream. -/
def StreamEnds (as : List RecvAns) : Prop := ∃ used, recvScan as = some (used, false)

/-- The read loop comes to the end of what there is, and the requests that are complete then have
results, which are put behind `_out_buffer`. -/
def Reads (c : Connection) (ans : Answers) (out : Bytes) : Prop :=
  ∃ used, recvScan ans.recvs = some (used, true) ∧
    replies ans.mem (splitMessage (c.inBuffer ++ recvData used) []).2 = .ok out

/-- The write loop is left, from this value of `errno` and this buffer: everything is taken, or a
call fails, and not with `EINTR` or `EPIPE`. -/
def Writes (e : Errno) (out : Bytes) (as : List SendAns) : Prop := sendScan e out as ≠ none

/-- What the event of a client needs. -/
structure Returns (e : Errno) (c : Connection) (ev : Event) (ans : Answers) : Prop where
  /-- An error or a hang-up comes alone. -/
  error : asks ev .error = true → asks ev .read = false ∧ asks ev .write = false
  /-- The connection is not written to behind the end of its stream. -/
  read : asks ev .read = true → StreamEnds ans.recvs ∧ asks ev .write = false ∨
    ∃ out, Reads c ans out ∧
      (asks ev .write = true → Writes .EAGAIN (c.outBuffer ++ out) ans.sends)
  write : asks ev .read = false → asks ev .write = true → Writes e c.outBuffer ans.sends

/-- What an event needs when `HandlerEvents` comes to it. -/
def Completes (L : Fd) (s : TcpServer) (ev : Event) (ans : Answers) : Prop :=
  if ev.fd = L then asks ev .read = true → Accepts ans.accepts
  else ∃ p c, s.lookup ev.fd = some p ∧ s.heap p = some c ∧ Returns s.errno c ev ans

/-! ### The handlers -/

theorem acceptScan_ne_none {as : List AcceptAns} : acceptScan as ≠ none ↔ Accepts as := by
  induction as with
  | nil => simp [acceptScan, Accepts]
  | cons a as ih =>
    have htail : Accepts as → Accepts (a :: as) := by
      rintro ⟨e, he, hne⟩
      exact ⟨e, List.mem_cons_of_mem a he, hne⟩
    cases a with
    | conn fd added =>
      rw [acceptScan, ne_eq, Option.map_eq_none_iff, ← ne_eq, ih]
      refine ⟨htail, ?_⟩
      rintro ⟨e, he, hne⟩
      exact ⟨e, by simpa using he, hne⟩
    | fail e =>
      have hhere : e ≠ .EINTR → Accepts (.fail e :: as) := fun hne => ⟨e, List.mem_cons_self, hne⟩
      rw [acceptScan]
      split_ifs with h1 h2
      · refine iff_of_true (Option.some_ne_none _) (hhere ?_)
        rintro rfl
        cases h1
      · rw [ne_eq, Option.map_eq_none_iff, ← ne_eq, ih]
        refine ⟨htail, ?_⟩
        rintro ⟨e', he', hne⟩
        refine ⟨e', (List.mem_cons.1 he').resolve_left fun he => ?_, hne⟩
        cases he
        exact hne h2
      · exact iff_of_true (Option.some_ne_none _) (hhere h2)

/-- After a read loop that found nothing more, `errno` says so, and the write loop goes by that. -/
theorem sendScan_again {e e' : Errno} (he : e.again = true) (he' : e'.again = true) (out : Bytes)
    (as : List SendAns) : sendScan e out as = sendScan e' out as := by
  induction as generalizing out with
  | nil => rfl
  | cons a as ih =>
    cases a with
    | count n => simp [sendScan, sendErrno, he, he', ih]
    | fail e => rfl

theorem errno_logs_handler (s : TcpServer) (p : Ptr) (messages : List Bytes) :
    (s.logs (messages.map (.handler p))).errno = s.errno := by
  induction messages generalizing s with
  | nil => rfl
  | cons m ms ih => exact (ih (s.log (.handler p m))).trans rfl

theorem errno_handled (used : List RecvAns) (rest : Bytes) (messages : List Bytes) (out : Bytes) :
    (s.handled p c used rest messages out).errno = (s.logs (used.map (.recv p))).errno := by
  have hlogs : (s.logs (used.map (.recv p) ++ messages.map (.handler p))).errno = _ :=
    (congrArg errno (logs_append ..)).trans (errno_logs_handler _ p messages)
  unfold handled
  split <;> exact hlogs

/-- `errno` after a read loop that found nothing more. -/
theorem errno_of_recvScan {as used : List RecvAns} (h : recvScan as = some (used, true)) :
    (s.logs (used.map (.recv p))).errno.again = true := by
  induction as generalizing s used with
  | nil => cases h
  | cons a as ih =>
    cases a with
    | bytes b =>
      rw [recvScan] at h
      split_ifs at h
      · cases h
      · obtain ⟨⟨u, d⟩, hu, heq⟩ := Option.map_eq_some_iff.1 h
        cases heq
        exact ih (s := s.log (.recv p (.bytes b))) hu
    | fail e =>
      rw [recvScan] at h
      split_ifs at h with h1
      · cases h
        exact h1
      · obtain ⟨⟨u, d⟩, hu, heq⟩ := Option.map_eq_some_iff.1 h
        cases heq
        exact ih (s := s.log (.recv p (.fail e))) hu

theorem dead_returns_iff (hp : s.heap p = none) :
    (∃ s', s.handler k (some p) ev ans = .ok s') ↔ asks ev k = false := by
  rw [handler_dead hp]
  cases asks ev k <;> simp

section Client

variable (hg : Good L s) (hc : s.heap p = some c) (hL : c.sock ≠ L)

include hg hc hL

theorem write_returns_iff (hreg : s.epoll c.sock ≠ none) :
    (∃ s', s.handler .write (some p) ev ans = .ok s') ↔
      (asks ev .write = true → Writes s.errno c.outBuffer ans.sends) := by
  by_cases hask : asks ev .write = true
  · rw [handler_send hg hc hL hask hreg, Writes]
    cases sendScan s.errno c.outBuffer ans.sends with
    | none => simp [hask]
    | some r =>
      obtain ⟨used, rest, failed⟩ := r
      cases failed <;> simp [hask]
  · rw [handler_of_not_asks hask]
    exact iff_of_true ⟨s, rfl⟩ fun h => absurd h hask

/-- The write handler behind a read handler that has handled what it read. -/
theorem write_behind_read_iff (hs : c.sock = ev.fd) (hreg : s.epoll c.sock ≠ none)
    {used : List RecvAns} {rest out : Bytes} {messages : List Bytes}
    (hscan : recvScan ans.recvs = some (used, true))
    (hsplit : splitMessage (c.inBuffer ++ recvData used) [] = (rest, messages))
    (hout : replies ans.mem messages = .ok out) :
    (∃ s', (s.handled p c used rest messages out).handler .write (some p) ev ans = .ok s') ↔
      (asks ev .write = true → Writes .EAGAIN (c.outBuffer ++ out) ans.sends) := by
  -- the connection is still there, with what is left and what is to be sent
  have hg' := hg.effect (.read hc hs (hs ▸ hL) hscan hsplit hout)
  have hc' : (s.handled p c used rest messages out).heap p =
      some { c with inBuffer := rest, outBuffer := c.outBuffer ++ out } := by
    rw [heap_handled, update_self]
  have hreg' : (s.handled p c used rest messages out).epoll c.sock ≠ none := by
    rw [epoll_handled]
    split
    · exact hreg
    · simp
  have hagain : (s.handled p c used rest messages out).errno.again = true := by
    rw [errno_handled]
    exact errno_of_recvScan hscan
  refine (write_returns_iff hg' hc' hL hreg').trans ?_
  rw [Writes, sendScan_again hagain (rfl : Errno.EAGAIN.again = true)]
  rfl

theorem read_returns_iff (hs : c.sock = ev.fd) (hr : s.Reported ev) :
    (∃ s', (do let s ← s.handler .read (some p) ev ans
               s.handler .write (some p) ev ans : Run TcpServer) = .ok s') ↔
      (asks ev .read = true → StreamEnds ans.recvs ∧ asks ev .write = false ∨
        ∃ out, Reads c ans out ∧
          (asks ev .write = true → Writes .EAGAIN (c.outBuffer ++ out) ans.sends)) ∧
      (asks ev .read = false → asks ev .write = true → Writes s.errno c.outBuffer ans.sends) := by
  have hreg : s.epoll c.sock ≠ none := hs ▸ hr.registered
  by_cases hask : asks ev .read = true
  swap
  · have hno : asks ev .read = false := by simpa using hask
    rw [handler_of_not_asks hask]
    refine (write_returns_iff hg hc hL hreg).trans ?_
    simp [hno]
  have hread := @handler_recv L s p c ev ans hg hc hL hask hreg
  cases hscan : recvScan ans.recvs with
  | none =>
    rw [hscan] at hread
    rw [hread]
    simp [hask, StreamEnds, Reads, hscan, bind, Except.bind]
  | some r =>
    obtain ⟨used, d⟩ := r
    rw [hscan] at hread
    cases d with
    | false =>
      have hdead : ((s.logs (used.map (.recv p))).drop p c.sock).heap p = none := by simp
      rw [hread]
      change (∃ s', ((s.logs (used.map (.recv p))).drop p c.sock).handler .write (some p) ev ans =
        .ok s') ↔ _
      rw [dead_returns_iff hdead]
      simp [hask, StreamEnds, Reads, hscan]
    | true =>
      dsimp only at hread
      generalize hsplit : splitMessage (c.inBuffer ++ recvData used) [] = r at hread
      obtain ⟨rest, messages⟩ := r
      dsimp only at hread
      cases hout : replies ans.mem messages with
      | error f =>
        rw [hout] at hread
        rw [hread]
        simp [hask, StreamEnds, Reads, hscan, hsplit, hout, bind, Except.bind]
      | ok out =>
        rw [hout] at hread
        rw [hread]
        refine (write_behind_read_iff hg hc hL hs hreg hscan hsplit hout).trans ?_
        simp [hask, StreamEnds, Reads, hscan, hsplit, hout]

end Client

/-! ### Events -/

theorem client_returns_iff (hg : Good L s) (hc : s.heap p = some c) (hL : c.sock ≠ L)
    (hs : c.sock = ev.fd) (hr : s.Reported ev) (hl : s.lookup ev.fd = some p) :
    (∃ s', s.handlerEvent ev ans = .ok s') ↔ Returns s.errno c ev ans := by
  rw [handlerEvent_eq s ev ans hl]
  by_cases herr : asks ev .error = true
  · have hdead : (s.drop p c.sock).heap p = none := by simp
    rw [handler_except hg hc hL herr]
    change (∃ s', (do let s ← (s.drop p c.sock).handler .read (some p) ev ans
                      s.handler .write (some p) ev ans : Run TcpServer) = .ok s') ↔ _
    rw [handler_dead hdead]
    by_cases hread : asks ev .read = true
    · rw [if_pos hread]
      refine iff_of_false (fun ⟨s', h⟩ => nomatch h) fun h => ?_
      have hno := (h.error herr).1
      rw [hread] at hno
      cases hno
    · have hno : asks ev .read = false := by simpa using hread
      rw [if_neg hread]
      change (∃ s', (s.drop p c.sock).handler .write (some p) ev ans = .ok s') ↔ _
      rw [dead_returns_iff hdead]
      refine ⟨fun hwrite => ⟨fun _ => ⟨hno, hwrite⟩, fun h => absurd h hread, fun _ h => ?_⟩,
        fun h => (h.error herr).2⟩
      rw [hwrite] at h
      cases h
  · rw [handler_of_not_asks herr]
    refine (read_returns_iff hg hc hL hs hr).trans ?_
    exact ⟨fun h => ⟨fun he => absurd he herr, h.1, h.2⟩, fun h => ⟨h.read, h.write⟩⟩

theorem listen_returns_iff (hg : Good L s) (hc : s.heap p = some c) (hL : c.sock = L)
    (hs : c.sock = ev.fd) (hr : s.Reported ev) (hl : s.lookup ev.fd = some p)
    (hfresh : Fresh s.isOpen ans.accepts) :
    (∃ s', s.handlerEvent ev ans = .ok s') ↔ (asks ev .read = true → Accepts ans.accepts) := by
  have hp : s.Pending p ev := Or.inr ⟨c, hc, hs, hr⟩
  -- the handlers around the one that reads do nothing
  have hread : (∃ s', s.handlerEvent ev ans = .ok s') ↔
      ∃ s', s.handler .read (some p) ev ans = .ok s' := by
    rw [handlerEvent_eq s ev ans hl, handler_listen hg hc hL (by decide : Handler.error ≠ .read)]
    constructor
    · rintro ⟨s', h⟩
      obtain ⟨s₀, h0, h⟩ := bind_eq_ok.1 h
      obtain rfl := Except.ok.inj h0
      obtain ⟨s₁, h1, -⟩ := bind_eq_ok.1 h
      exact ⟨s₁, h1⟩
    · rintro ⟨s₁, h1⟩
      have he := handler_effects hg hp (fun _ => hfresh) h1
      have hkeep := (Effects.frame he hg hc (Or.inr hL)).1
      have hlast := @handler_listen _ _ _ _ ev ans (hg.effects he) hkeep hL .write (by decide)
      exact ⟨s₁, bind_eq_ok.2 ⟨s, rfl, bind_eq_ok.2 ⟨s₁, h1, hlast⟩⟩⟩
  rw [hread]
  by_cases hask : asks ev .read = true
  · rw [handler_accept hg hc hL hask, accepter_eq, ← acceptScan_ne_none]
    cases acceptScan ans.accepts <;> simp [hask]
  · rw [handler_of_not_asks hask]
    exact iff_of_true ⟨s, rfl⟩ fun h => absurd h hask

theorem handlerEvent_returns_iff (hg : Good L s) (hr : s.Reported ev)
    (hfresh : Fresh s.isOpen ans.accepts) :
    (∃ s', s.handlerEvent ev ans = .ok s') ↔ Completes L s ev ans := by
  obtain ⟨p, c, hl, hc, hs⟩ := hg.lookup hr
  unfold Completes
  by_cases hL : ev.fd = L
  · rw [if_pos hL]
    exact listen_returns_iff hg hc (hs.trans hL) hs hr hl hfresh
  · rw [if_neg hL, client_returns_iff hg hc (hs ▸ hL) hs hr hl]
    refine ⟨fun h => ⟨p, c, hl, hc, h⟩, fun ⟨p', c', hl', hc', h⟩ => ?_⟩
    obtain rfl : p = p' := Option.some.inj (hl.symm.trans hl')
    obtain rfl : c = c' := Option.some.inj (hc.symm.trans hc')
    exact h

/-! ### Batches -/

/-- **When `HandlerEvents` returns.** In every reachable state, for every batch and all outcomes of
the calls, it gets to the end of the batch exactly when every event that it comes to has what it
needs; in particular no deleted connection is used then. -/
theorem handlerEvents_returns_iff {batch : List (Event × Answers)} (hr : Reach L ⟨s, []⟩)
    (hb : s.Batch (batch.map Prod.fst)) (hfresh : s.FreshBatch batch) :
    (∃ s', s.handlerEvents batch = .ok s') ↔
      ∀ done ev ans rest s', batch = done ++ (ev, ans) :: rest → s.handlerEvents done = .ok s' →
        Completes L s' ev ans := by
  have hrun : Reach L ⟨s, batch.map fun b => .event b.1⟩ := by
    have := hr.tail (.wait hb)
    rwa [List.map_map] at this
  clear hr hb
  induction batch generalizing s with
  | nil => simp [handlerEvents]
  | cons b batch ih =>
    obtain ⟨ev, ans⟩ := b
    have hfresh1 : Fresh s.isOpen ans.accepts := hfresh [] ev ans batch s rfl rfl
    have hev := handlerEvent_returns_iff hrun.good (hrun.ready.reported List.mem_cons_self) hfresh1
    constructor
    · rintro ⟨s₂, h⟩ done ev' ans' rest s' hsplit hdone
      obtain ⟨s₁, h1, h2⟩ := bind_eq_ok.1 h
      cases done with
      | nil =>
        cases hsplit
        cases hdone
        exact hev.1 ⟨s₁, h1⟩
      | cons b done =>
        cases hsplit
        obtain ⟨s₁', h1', h2'⟩ := bind_eq_ok.1 hdone
        obtain rfl : s₁ = s₁' := Except.ok.inj (h1.symm.trans h1')
        exact (ih (hfresh.tail h1) (handlerEvent_steps hrun hfresh1 h1)).1 ⟨s₂, h2⟩ done ev' ans'
          rest s' rfl h2'
    · intro h
      obtain ⟨s₁, h1⟩ := hev.2 (h [] ev ans batch s rfl rfl)
      obtain ⟨s₂, h2⟩ := (ih (hfresh.tail h1) (handlerEvent_steps hrun hfresh1 h1)).2
        fun done ev' ans' rest s' hsplit hdone =>
          h ((ev, ans) :: done) ev' ans' rest s' (by rw [hsplit]; rfl)
            (bind_eq_ok.2 ⟨s₁, h1, hdone⟩)
      exact ⟨s₂, bind_eq_ok.2 ⟨s₁, h1, h2⟩⟩

/-- A client that writes one byte and closes: `Recver` deletes the connection, and no later handler
is asked for. -/
theorem handlerEvents_returns_example : ∃ s', oneClient.handlerEvents
    [(⟨5, { epollin := true }⟩, { recvs := [.bytes [49], .bytes []] })] = .ok s' := by
  have hfresh := @FreshBatch.single oneClient ⟨5, { epollin := true }⟩
    { recvs := [.bytes [49], .bytes []] } trivial
  refine (handlerEvents_returns_iff reach_oneClient (.single ⟨_, rfl, by decide, by decide⟩)
    hfresh).2 ?_
  intro done ev ans rest s' hb hd
  cases done with
  | nil =>
    cases hb
    cases hd
    exact ⟨1, newClient 5, rfl, rfl, by decide, fun _ => Or.inl ⟨⟨_, rfl⟩, rfl⟩,
      fun h => absurd h (by decide)⟩
  | cons b done => cases done <;> cases hb

/-- A client that has hung up while something is left to read: `Excepter` deletes the connection,
and the guard in front of `_recv_cb` reads it. -/
theorem handlerEvents_not_alive :
    ¬ ∀ (L : Fd) (s : TcpServer) (batch : List (Event × Answers)), Reach L ⟨s, []⟩ →
      s.Batch (batch.map Prod.fst) → s.FreshBatch batch → s.handlerEvents batch ≠ .error .dead := by
  intro h
  exact h 3 oneClient [(⟨5, { epollin := true, epollhup := true }⟩, {})] reach_oneClient
    (.single ⟨_, rfl, by decide, by decide⟩) (.single trivial) rfl

end TcpServer

end NetProg.Reactor
