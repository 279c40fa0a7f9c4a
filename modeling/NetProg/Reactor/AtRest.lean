import NetProg.Reactor.EndToEnd
import NetProg.Reactor.Readiness

/-!
# The server at rest

When no event is left of the batch and `epoll_wait` has nothing to look at, the server waits for the
network. `nothing_left` says that then nothing is left to do. With `Conserved`, which follows the
bytes from the network through the kernel into the server, `answered_at_rest` says what this means
for a client: every complete request of its that has come to the machine is answered.
-/

namespace NetProg.Reactor

open NetProg.Lib Function Relation TcpServer

variable {L fd g : Fd} {epoll : Fd → Option Events} {k k₁ : Kernel} {calls : List Call}
  {s s' : TcpServer} {y : Machine} {p q : Ptr} {c : Connection}

theorem Reach.listening {cfg : Config} (hr : Reach L cfg) : cfg.server.epoll L ≠ none ∧
    cfg.server.heap 0 = some { sock := L, recvCb := some .accepter } := by
  refine hr.invariant (P := fun s => s.epoll L ≠ none ∧
    s.heap 0 = some { sock := L, recvCb := some .accepter }) ⟨?_, rfl⟩ ?_
  · have hepoll : (init L).epoll =
        update (fun _ => none) L (some { epollin := true, epollet := true }) := rfl
    simp [hepoll]
  · rintro s s' k fd hg he ⟨hreg, hheap⟩
    obtain ⟨hheap', hreg'⟩ := he.frame hg hheap (Or.inr rfl)
    exact ⟨hreg'.symm ▸ hreg, hheap'⟩

/-- **At rest nothing is left to do.** When no event is left of the batch and `epoll_wait` has
nothing to look at, every registered connection has been read to the last byte, its peer has not
ended, and what is still to be written has no room; and no connection waits to be accepted, if no
`accept` failed for a reason of its own. -/
theorem nothing_left (hy : Machine.Reach L y) (htodo : y.config.todo = [])
    (hidle : ∀ fd, y.config.server.epoll fd ≠ none → y.kernel.ready fd = false) :
    (∀ p c, y.config.server.heap p = some c → c.sock ≠ L → y.config.server.epoll c.sock ≠ none →
      (y.kernel.sock c.sock).inbox = [] ∧ (y.kernel.sock c.sock).ended = false ∧
        (c.outBuffer = [] ∨ (y.kernel.sock c.sock).space = 0)) ∧
    (NoAcceptError y.config.server.trace → y.kernel.backlog = 0) := by
  have hno : ∀ p c h, y.config.server.heap p = some c → y.config.server.epoll c.sock ≠ none →
      (c.sock = L → NoAcceptError y.config.server.trace) → ¬ y.kernel.Work L c h := by
    intro p c h hc hreg haccept hw
    rcases hy.attended p c h hc hreg haccept hw with hready | ⟨ev, -, -, hmem⟩
    · rw [hidle _ hreg] at hready
      cases hready
    · rw [htodo] at hmem
      simp at hmem
  constructor
  · intro p c hc hL hreg
    have hread := hno p c .read hc hreg fun h => absurd h hL
    have hwrite := hno p c .write hc hreg fun h => absurd h hL
    simp only [Kernel.Work, Kernel.Readable, if_neg hL, not_or, not_not, Bool.not_eq_true] at hread
    refine ⟨hread.1, hread.2, or_iff_not_imp_left.2 fun hout => ?_⟩
    exact Nat.eq_zero_of_not_pos fun hpos => hwrite ⟨hout, hL, hpos⟩
  · intro haccept
    obtain ⟨hreg, hheap⟩ := hy.config.listening
    have hread := hno 0 _ .read hheap hreg fun _ => haccept
    simpa [Kernel.Work, Kernel.Readable] using hread

/-! ### Where the bytes are -/

/-- **Conservation**: what has come for a connection was read, or is still in the kernel. -/
def Conserved (L : Fd) (y : Machine) : Prop :=
  ∀ p c, y.config.server.heap p = some c → c.sock ≠ L → (y.kernel.sock c.sock).arrived =
    received (recvs p y.config.server.trace) ++ (y.kernel.sock c.sock).inbox

theorem Reach.unborn {cfg : Config} (hr : Reach L cfg) (hq : cfg.server.next ≤ q) :
    SameHistory q [] cfg.server.trace := by
  refine hr.invariant (P := fun s => ∀ q, s.next ≤ q → SameHistory q [] s.trace)
    (fun q _ => ⟨rfl, rfl, rfl⟩) ?_ q hq
  intro s s' k fd hg he ih q hq
  have hle := hq.trans' he.next_le
  obtain ⟨calls, htrace, hcalls⟩ := he.calls
  rw [htrace]
  exact (ih q hle).trans
    (.append s.trace fun k hk hkq => hcalls k hk q hkq (hg.fresh q hle))

theorem handler_onConn (hg : Good L s) {ev : Event} {ans : Answers} (hp : s.Pending p ev)
    {k : Handler} (hrun : s.handler k (some p) ev ans = .ok s')
    (htrace : s'.trace = s.trace ++ calls) : OnConn p calls := by
  have ho : Outcome L s p ev ans k _ := handler_outcome hg hp
  rw [hrun] at ho
  cases ho with
  | idle =>
    obtain rfl : calls = [] := List.append_right_eq_self.1 htrace.symm
    exact fun k hk => absurd hk List.not_mem_nil
  | @accepted used hL hscan =>
    obtain ⟨cs, hcs, hnone⟩ := conn_accepts s used
    obtain rfl := List.append_cancel_left (hcs.symm.trans htrace)
    intro k hk q hq
    rw [hnone k hk] at hq
    cases hq
  | hangup hc hs hL =>
    obtain rfl := List.append_cancel_left ((trace_drop ..).symm.trans htrace)
    have hnone : ∀ k ∈ ([] : List Call), OwnIO p k := List.forall_mem_nil _
    exact onConn_closed hnone
  | ended hc hs hL hscan =>
    rw [trace_drop, trace_logs, List.append_assoc] at htrace
    obtain rfl := List.append_cancel_left htrace
    refine onConn_closed fun k hk => ?_
    obtain ⟨a, -, rfl⟩ := List.mem_map.1 hk
    rfl
  | failed hc hs hL hne hscan =>
    rw [trace_drop, trace_logs, List.append_assoc] at htrace
    obtain rfl := List.append_cancel_left htrace
    exact onConn_closed (sendCalls_own hscan hne)
  | read hc hs hL hscan hout =>
    rw [trace_handled] at htrace
    obtain rfl := List.append_cancel_left htrace
    exact onConn_handled _ _
  | wrote hc hs hL hne hscan =>
    rw [trace_flushed] at htrace
    obtain rfl := List.append_cancel_left htrace
    exact onConn_sendCalls _

theorem calls_of_gone {ev : Event} {ans : Answers} (hgone : s.Gone p) {k : Handler}
    (hrun : s.handler k (some p) ev ans = .ok s') (htrace : s'.trace = s.trace ++ calls) :
    calls = [] := by
  rw [handler_dead hgone.1] at hrun
  split at hrun
  · cases hrun
  · cases hrun
    exact List.append_right_eq_self.1 htrace.symm

theorem handler_heap (hg : Good L s) {ev : Event} {ans : Answers} (hp : s.Pending p ev)
    {k : Handler} (hrun : s.handler k (some p) ev ans = .ok s')
    (htrace : s'.trace = s.trace ++ calls) {d : Connection} (hd : s'.heap q = some d) :
    (∃ d₀, s.heap q = some d₀ ∧ d₀.sock = d.sock) ∨
      s.next ≤ q ∧ ev.fd = L ∧ ∃ added, .accept (.conn d.sock added) ∈ calls := by
  have hdrop : ∀ cs, ((s.logs cs).drop p ev.fd).heap q = some d → ∃ d₀, s.heap q = some d₀ ∧
      d₀.sock = d.sock := by
    intro cs hd
    rw [heap_drop, heap_logs, update_apply] at hd
    split at hd
    · cases hd
    · exact ⟨d, hd, rfl⟩
  have hupdate : ∀ {c c' : Connection}, s.heap p = some c → c'.sock = c.sock →
      update s.heap p (some c') q = some d → ∃ d₀, s.heap q = some d₀ ∧ d₀.sock = d.sock := by
    intro c c' hc hs hd
    rw [update_apply] at hd
    split at hd
    · rename_i hq
      obtain rfl := Option.some.inj hd
      exact ⟨c, hq ▸ hc, hs.symm⟩
    · exact ⟨d, hd, rfl⟩
  have ho : Outcome L s p ev ans k _ := handler_outcome hg hp
  rw [hrun] at ho
  cases ho with
  | idle => exact Or.inl ⟨d, hd, rfl⟩
  | @accepted used hL hscan =>
    refine (heap_accepts hd).imp (fun h => ⟨d, h, rfl⟩) ?_
    rintro ⟨hq, -, added, hmem⟩
    refine ⟨hq, hL, added, mem_accepts.1 ?_⟩
    have hsplit := accepts_foldl s used
    rw [htrace, accepts_append] at hsplit
    rwa [List.append_cancel_left hsplit]
  | hangup => exact Or.inl (hdrop [] hd)
  | ended | failed => exact Or.inl (hdrop _ hd)
  | read hc =>
    rw [heap_handled] at hd
    refine Or.inl (hupdate hc ?_ hd)
    rfl
  | wrote hc =>
    rw [heap_flushed] at hd
    refine Or.inl (hupdate hc ?_ hd)
    rfl

theorem recvs_of_onConn (h : OnConn p calls) (hq : q ≠ p) : recvs q calls = [] :=
  (h.sameHistory hq []).recvs

/-- The network brings the same bytes into `arrived` and `inbox`. -/
theorem Kernel.Move.conserved {k' : Kernel} (hm : k.Move L epoll k') {R : Bytes}
    (h : (k.sock g).arrived = R ++ (k.sock g).inbox) :
    (k'.sock g).arrived = R ++ (k'.sock g).inbox := by
  cases hm with
  | arrive fd a =>
    by_cases hg : g = fd
    · subst hg
      cases a with
      | data b => simp [Socket.take, h]
      | fin | room => simpa [Socket.take] using h
    · simpa [hg] using h
  | connect | wake => exact h

theorem conserved_recvs (hcalls : During (Kernel.Move L epoll) (Kernel.Answer fd) k calls k₁)
    (hp : OnConn p calls) (hnew : ∀ added, .accept (.conn fd added) ∉ calls) {R : Bytes}
    (h : (k.sock fd).arrived = R ++ (k.sock fd).inbox) :
    (k₁.sock fd).arrived = R ++ received (recvs p calls) ++ (k₁.sock fd).inbox := by
  induction hcalls generalizing R with
  | nil => simpa [recvs, received] using h
  | move hm _ ih => exact ih hp hnew (hm.conserved h)
  | @call k k' k'' call calls ha _ ih =>
    have hp' : OnConn p calls := fun k hk => hp k (List.mem_cons_of_mem _ hk)
    have hnew' : ∀ added, .accept (.conn fd added) ∉ calls := fun added hm =>
      hnew added (List.mem_cons_of_mem _ hm)
    have hrest : ∀ {R'}, (k'.sock fd).arrived = R' ++ (k'.sock fd).inbox →
        R' = R ++ received (recvs p [call]) → (k''.sock fd).arrived =
          R ++ received (recvs p (call :: calls)) ++ (k''.sock fd).inbox := by
      rintro _ h' rfl
      have happ : recvs p (call :: calls) = recvs p [call] ++ recvs p calls :=
        recvs_append p [call] calls
      rw [ih hp' hnew' h', happ, received_append]
      simp
    cases ha with
    | @accept g added σ n hn hσ =>
      have hg : fd ≠ g := by
        rintro rfl
        exact hnew added List.mem_cons_self
      exact hrest (by simpa [hg] using h) (by simp [recvs, received])
    | @recv q b rest hb hlen hin =>
      obtain rfl : q = p := hp _ List.mem_cons_self q rfl
      refine @hrest (R ++ b) ?_ (by simp [recvs, received])
      simpa [hin] using h
    | @endOfStream q hin hend =>
      obtain rfl : q = p := hp _ List.mem_cons_self q rfl
      exact hrest h (by simp [recvs, received])
    | @noBytes q e hnone =>
      obtain rfl : q = p := hp _ List.mem_cons_self q rfl
      exact hrest h (by simp [recvs, received])
    | send hn hle hroom => exact hrest (by simpa using h) (by simp [recvs, received])
    | noConnection | insert | handler | noRoom | close | delete =>
      exact hrest h (by simp [recvs, received])

theorem conserved_during (hcalls : During (Kernel.Move L epoll) (Kernel.Answer fd) k calls k₁)
    (hg : g ≠ fd) (hnew : ∀ added, .accept (.conn g added) ∉ calls) {R : Bytes}
    (h : (k.sock g).arrived = R ++ (k.sock g).inbox) :
    (k₁.sock g).arrived = R ++ (k₁.sock g).inbox := by
  refine hcalls.keeps (I := fun k => (k.sock g).arrived = R ++ (k.sock g).inbox)
    (fun _ _ hm => hm.conserved) (fun a hmem k k' ha h => ?_) h
  rwa [ha.sock_of_ne hg fun added heq => hnew added (heq ▸ hmem)]

theorem conserved_accept (hcalls : During (Kernel.Move L epoll) (Kernel.Answer fd) k calls k₁)
    (hg : g ≠ fd) {added : Bool} (hmem : .accept (.conn g added) ∈ calls) :
    (k₁.sock g).arrived = (k₁.sock g).inbox := by
  have hcall : ∀ call k k', Kernel.Answer fd k call k' → (k.sock g).arrived = (k.sock g).inbox →
      (k'.sock g).arrived = (k'.sock g).inbox := by
    intro call k k' ha h
    by_cases hnew : ∃ added, call = .accept (.conn g added)
    · obtain ⟨added, rfl⟩ := hnew
      cases ha with
      | accept hn hσ => simpa using hσ
    · rwa [ha.sock_of_ne hg fun added heq => hnew ⟨added, heq⟩]
  obtain ⟨pre, post, rfl⟩ := List.append_of_mem hmem
  refine hcalls.settles (I := fun k => (k.sock g).arrived = (k.sock g).inbox) ?_
    (fun call _ k k' => hcall call k k') ?_
  · exact fun k k' hm h => hm.conserved (R := []) h
  · intro k k' ha
    cases ha with
    | accept hn hσ => simpa using hσ

/-- **Bytes are conserved** in every run. -/
theorem Machine.Reach.conserved (hy : Machine.Reach L y) : Conserved L y := by
  refine (Invariant.reachable (I := fun y : Machine => Reactor.Reach L y.config ∧ Conserved L y)
    ⟨?_, ?_⟩ hy).2
  · rintro ⟨⟨s, todo⟩, k⟩ ⟨hs, -⟩
    obtain ⟨rfl, rfl⟩ : s = init L ∧ todo = [] := by simpa using hs
    refine ⟨.refl, fun p c hc hL => ?_⟩
    obtain ⟨-, rfl⟩ := heap_init hc
    exact absurd rfl hL
  · rintro y y' ⟨hr, hcons⟩ hstep
    refine ⟨?_, ?_⟩
    · rcases hstep.config with heq | hs
      · rwa [← heq]
      · exact hr.tail hs
    · cases hstep with
      | move hm => exact fun p c hc hL => hm.conserved (hcons p c hc hL)
      | @wait s batch k k' hb hk =>
        intro p c hc hL
        show (k'.sock c.sock).arrived = _ ++ (k'.sock c.sock).inbox
        rw [hk.sock]
        exact hcons p c hc hL
      | lookup => exact hcons
      | @handler s s' h conn ev ans todo calls k k₁ k' hfresh hrun htrace hcalls hctl =>
        obtain ⟨p, rfl, hp⟩ := hr.ready.pending
        have hg := hr.good
        have hon := handler_onConn hg hp hrun htrace
        intro q d hd hL
        show (k'.sock d.sock).arrived = received (recvs q s'.trace) ++ (k'.sock d.sock).inbox
        rw [hctl.sock, htrace, recvs_append, received_append]
        rcases handler_heap hg hp hrun htrace hd with ⟨d₀, hd₀, hs⟩ | ⟨hq, hfd, added, hmem⟩
        · have hnew : ∀ added, .accept (.conn d.sock added) ∉ calls := fun added hmem => by
            have hopen := accepts_fresh hg hp hfresh hrun htrace hmem
            rw [← hs, hg.isOpen hd₀] at hopen
            cases hopen
          have hbefore := hcons q d₀ hd₀ (hs ▸ hL)
          rw [hs] at hbefore
          by_cases hfd : d.sock = ev.fd
          · rw [hfd] at hnew hbefore ⊢
            refine conserved_recvs hcalls ?_ hnew hbefore
            rcases hp with hgone | ⟨c, hc, hsc, -⟩
            · rw [calls_of_gone hgone hrun htrace]
              exact fun k hk => absurd hk List.not_mem_nil
            · exact hg.inj hd₀ hc (hs.trans (hfd.trans hsc.symm)) ▸ hon
          · have hqp : q ≠ p := by
              rintro rfl
              rcases hp with hgone | ⟨c, hc, hsc, -⟩
              · rw [hgone.1] at hd₀
                cases hd₀
              · obtain rfl : c = d₀ := Option.some.inj (hc.symm.trans hd₀)
                exact hfd (hs.symm.trans hsc)
            rw [recvs_of_onConn hon hqp]
            simpa [received] using conserved_during hcalls hfd hnew hbefore
        · have hqp : q ≠ p := by
            rintro rfl
            rcases hp with hgone | ⟨c, hc, -⟩
            · exact absurd hq (not_le.2 hgone.2)
            · exact absurd hq (not_le.2 (hg.lt_next hc))
          rw [recvs_of_onConn hon hqp, (hr.unborn hq).recvs]
          exact conserved_accept hcalls (fun h => hL (h.trans hfd)) hmem

/-- **At rest every complete request is answered.** For a registered connection whose client sends
nothing but requests, with an operator that is not NUL and a calculation that has a result: of what
has come to the machine, `n` requests are complete, `_in_buffer` is the beginning of the next one,
the frames of the `n` answers have been sent, and what was not sent has no room. -/
theorem answered_at_rest {rs : List Request} {resp : Request → Response}
    (hy : Machine.Reach L y) (htodo : y.config.todo = [])
    (hidle : ∀ fd, y.config.server.epoll fd ≠ none → y.kernel.ready fd = false)
    (hc : y.config.server.heap p = some c) (hL : c.sock ≠ L)
    (hreg : y.config.server.epoll c.sock ≠ none) (hop : ∀ r ∈ rs, r.op ≠ 0)
    (hcalc : ∀ r ∈ rs, calculatorHelp r = .ok (resp r))
    (harrived : (y.kernel.sock c.sock).arrived <+: frames (rs.map Request.serialize)) :
    ∃ n, Cutter.AtFrame enCode (rs.map Request.serialize) (y.kernel.sock c.sock).arrived n
        c.inBuffer ∧
      sentOf (sends p y.config.server.trace) ++ c.outBuffer = answers resp (rs.take n) ∧
      (c.outBuffer = [] ∨ (y.kernel.sock c.sock).space = 0) := by
  obtain ⟨hinbox, -, hout⟩ := (nothing_left hy htodo hidle).1 p c hc hL hreg
  have hR := hy.conserved p c hc hL
  rw [hinbox, List.append_nil] at hR
  rw [hR] at harrived ⊢
  have hfree : ∀ m ∈ rs.map Request.serialize, 0 ∉ m := by
    intro m hm
    obtain ⟨r, hr, rfl⟩ := List.mem_map.1 hm
    exact zero_not_mem_serialize (hop r hr)
  have hsession := hy.config.session hc
  obtain ⟨n, hn, hM⟩ := hsession.segmented (payloads_serialize rs) hfree harrived
  rw [← List.map_take] at hM
  exact ⟨n, hn, hsession.answered hM fun r hr => hcalc r (List.mem_of_mem_take hr), hout⟩

/-! ### A run with one client -/

/-- The text of `1 + 1` in its frame. -/
def oneRequest : Bytes := [53, 13, 10, 49, 32, 43, 32, 49, 13, 10]

/-- The kernel when `backlog` connections wait, `inbox` is not read of the only client's request,
for whose answer there is no room, and `fd` is on the list. -/
def oneKernel (backlog : ℕ) (inbox : Bytes) (fd : Option Fd) : Kernel :=
  ⟨update (fun _ => ⟨[], false, 0, []⟩) 5 ⟨inbox, false, 0, oneRequest⟩, backlog,
    fun g => some g = fd⟩

/-- `oneReply`, which cannot send its answer. -/
def oneMachine : Machine := ⟨⟨oneReply, []⟩, oneKernel 0 [] none⟩

theorem Machine.Reach.skip {s : TcpServer} {h : Handler} {conn : Option Ptr} {ev : Event}
    {todo : List Task} {k : Kernel} (hy : Machine.Reach L ⟨⟨s, .handler h conn ev :: todo⟩, k⟩)
    (hrun : s.handler h conn ev {} = .ok s) : Machine.Reach L ⟨⟨s, todo⟩, k⟩ := by
  refine hy.next (@Machine.Step.handler L s s h conn ev {} todo [] k k k (fun _ => trivial) hrun
    (by simp) .nil ?_)
  exact ⟨rfl, rfl, fun _ h => h, fun _ _ h h' => absurd h h'⟩

theorem oneKernel_waits {s : TcpServer} {n : ℕ} {inbox : Bytes} {fd : Fd}
    (hout : ∀ e, s.epoll fd = some e → e.epollout = false) :
    Kernel.Waits 3 s.epoll (oneKernel n inbox (some fd)) [⟨fd, { epollin := true }⟩]
      (oneKernel n inbox none) := by
  refine ⟨rfl, rfl, by simp, ?_, ?_⟩
  · intro ev hev e he hw
    obtain rfl := List.mem_singleton.1 hev
    rw [hout e he] at hw
    cases hw
  · intro g e _ hready _ hg
    obtain rfl : g = fd := by simpa [oneKernel] using hready
    exact absurd (by simp) hg

theorem reach_oneMachine : Machine.Reach 3 oneMachine := by
  -- the listening descriptor, with a connection that has brought its request
  have h₀ : Machine.Reach 3 ⟨⟨init 3, []⟩, oneKernel 1 oneRequest (some 3)⟩ :=
    .start ⟨rfl, fun _ => rfl⟩
  have hbatch₀ : (init 3).Batch [⟨3, { epollin := true }⟩] :=
    .single ⟨_, rfl, by decide, by decide⟩
  have h₁ := Machine.Reach.skip ((h₀.next (.wait hbatch₀
    (oneKernel_waits fun e he => by cases he; rfl))).next .lookup) rfl
  have haccept : During (Kernel.Move 3 (init 3).epoll) (Kernel.Answer 3)
      (oneKernel 1 oneRequest none)
      [.accept (.conn 5 true), .insert 5 true, .accept (.fail .EAGAIN)]
      (oneKernel 0 oneRequest none) := by
    have hconn := @Kernel.Answer.accept 3 (oneKernel 1 oneRequest none) 5 true
      ⟨oneRequest, false, 0, oneRequest⟩ 0 rfl rfl
    simp only [oneKernel, update_idem] at hconn ⊢
    exact .call hconn (.call .insert (.call (.noConnection fun _ => rfl) .nil))
  have hctl₁ : Kernel.Rearmed 3 (init 3).epoll oneClient.epoll (oneKernel 0 oneRequest none)
      (oneKernel 0 oneRequest (some 5)) := by
    refine ⟨rfl, rfl, by simp [oneKernel], fun fd e he hne _ => ?_⟩
    by_cases hfd : fd = 5
    · simp [oneKernel, hfd]
    · have hsame : oneClient.epoll fd = (init 3).epoll fd := update_of_ne hfd ..
      exact absurd (hsame ▸ he) hne
  have hrun₁ : (init 3).handler .read (some 0) ⟨3, { epollin := true }⟩
      { accepts := [.conn 5 true, .fail .EAGAIN] } = .ok oneClient := rfl
  have hfresh : Handler.read = .read → Fresh (init 3).isOpen [.conn 5 true, .fail .EAGAIN] :=
    fun _ => ⟨rfl, trivial⟩
  have h₂ := Machine.Reach.skip
    (h₁.next (.handler hfresh hrun₁ rfl haccept hctl₁)) rfl
  -- the client, whose request is read
  have hbatch₁ : oneClient.Batch [⟨5, { epollin := true }⟩] :=
    .single ⟨_, rfl, by decide, by decide⟩
  have h₃ := Machine.Reach.skip ((h₂.next (.wait hbatch₁
    (oneKernel_waits fun e he => by cases he; rfl))).next .lookup) rfl
  have hrecv : During (Kernel.Move 3 oneClient.epoll) (Kernel.Answer 5)
      (oneKernel 0 oneRequest none)
      [.recv 1 (.bytes oneRequest), .recv 1 (.fail .EAGAIN), .handler 1 [49, 32, 43, 32, 49]]
      (oneKernel 0 [] none) := by
    have hbytes := @Kernel.Answer.recv 5 (oneKernel 0 oneRequest none) 1 oneRequest []
      (by simp [oneRequest]) (by simp [oneRequest]) rfl
    simp only [oneKernel, update_idem] at hbytes ⊢
    exact .call hbytes (.call (.noBytes fun _ => ⟨rfl, rfl⟩) (.call .handler .nil))
  have hctl₂ : Kernel.Rearmed 3 oneClient.epoll oneReply.epoll (oneKernel 0 [] none)
      (oneKernel 0 [] none) := by
    refine ⟨rfl, rfl, by simp [oneKernel], fun fd e he hne hpolls => ?_⟩
    by_cases hfd : fd = 5
    · subst hfd
      rcases hpolls with ⟨-, hread⟩ | ⟨-, -, hroom⟩
      · exact absurd hread (by simp [Kernel.Readable, oneKernel])
      · exact absurd hroom (by simp [oneKernel])
    · have hsame : oneReply.epoll fd = oneClient.epoll fd := update_of_ne hfd ..
      exact absurd (hsame ▸ he) hne
  have hrun₂ : oneClient.handler .read (some 1) ⟨5, { epollin := true }⟩
      { recvs := [.bytes oneRequest, .fail .EAGAIN] } = .ok oneReply :=
    handler_recv reach_oneClient.good (c := newClient 5) rfl (by decide) rfl
      (Option.some_ne_none _)
  have hnone : Handler.read = .read → Fresh oneClient.isOpen [] := fun _ => trivial
  exact Machine.Reach.skip
    (h₃.next (.handler hnone hrun₂ (trace_handled ..) hrecv hctl₂)) rfl

/-- The request was read, and its answer finds no room. -/
theorem nothing_left_example :
    (∀ p c, oneReply.heap p = some c → c.sock ≠ 3 → oneReply.epoll c.sock ≠ none →
      (oneMachine.kernel.sock c.sock).inbox = [] ∧ (oneMachine.kernel.sock c.sock).ended = false ∧
        (c.outBuffer = [] ∨ (oneMachine.kernel.sock c.sock).space = 0)) ∧
    (NoAcceptError oneReply.trace → oneMachine.kernel.backlog = 0) :=
  nothing_left reach_oneMachine rfl fun _ _ => rfl

theorem answered_at_rest_example :
    ∃ n, Cutter.AtFrame enCode ([⟨1, 1, 43⟩].map Request.serialize) oneRequest n [] ∧
      sentOf (sends 1 oneReply.trace) ++ [51, 13, 10, 48, 32, 50, 13, 10] =
        answers (fun _ => ⟨2, 0⟩) ([⟨1, 1, 43⟩].take n) ∧
      ([51, 13, 10, 48, 32, 50, 13, 10] = ([] : Bytes) ∨ (0 : ℕ) = 0) := by
  have hc : oneMachine.config.server.heap 1 = some
      { newClient 5 with outBuffer := [51, 13, 10, 48, 32, 50, 13, 10] } := rfl
  refine answered_at_rest reach_oneMachine rfl (fun _ _ => rfl) hc (by decide)
    (Option.some_ne_none _) (by decide) (fun r hr => ?_) ?_
  · obtain rfl := List.mem_singleton.1 hr
    rfl
  · have harrived : oneRequest <+: frames ([⟨1, 1, 43⟩].map Request.serialize) := by decide
    exact harrived

end NetProg.Reactor
