import NetProg.Reactor.Draining
import NetProg.Reactor.Kernel

/-!
# Nothing is forgotten

With edge-triggered events a notification comes once, so the server must not forget what it was told
and the kernel must tell again what the server could not do yet. Here both sides are taken together:

* `Kernel.Move.noted` and the lemmas behind it: who knows of the work after a move of the network,
  after a call, and after each of the three loops;
* `Attended`: for whatever can be done for a connection, its descriptor is on the kernel's list, or
  a handler that does it is still to be called;
* `Machine.Reach.attended`: this holds in every state of every run, for the listening descriptor as
  long as no `accept` fails for a reason of its own.
-/

namespace NetProg.Reactor

open NetProg.Lib Function Relation TcpServer

/-! ### Work, and who knows of it -/

/-- What the handler could do for a connection. -/
def Kernel.Work (L : Fd) (k : Kernel) (c : Connection) : Handler → Prop
  | .error => False
  | .read => k.Readable L c.sock
  | .write => c.outBuffer ≠ [] ∧ k.Writable L c.sock

/-- If there is work then the descriptor is on the list, or else `W`. -/
def Kernel.Noted (L : Fd) (k : Kernel) (c : Connection) (h : Handler) (W : Prop) : Prop :=
  k.Work L c h → k.ready c.sock = true ∨ W

/-- The registration asks for the events that bring the work of a connection. -/
def Interested (epoll : Fd → Option Events) (c : Connection) : Prop :=
  ∃ e, epoll c.sock = some e ∧ e.epollin = true ∧ (c.outBuffer ≠ [] → e.epollout = true)

/-- The handler is still to be called for the descriptor. -/
def Will (h : Handler) (fd : Fd) (todo : List Task) : Prop :=
  ∃ ev, ev.fd = fd ∧ asks ev h = true ∧ (.event ev ∈ todo ∨ ∃ conn, .handler h conn ev ∈ todo)

variable {L fd g : Fd} {epoll epoll' : Fd → Option Events} {k k' : Kernel} {c : Connection}
  {h : Handler} {W W' : Prop} {call : Call} {calls : List Call}

theorem Kernel.Noted.mono (hk : k.Noted L c h W) (hW : W → W') : k.Noted L c h W' := fun hw =>
  (hk hw).imp_right hW

/-- What comes for a registered descriptor puts it on the list. -/
theorem Kernel.Move.noted (hm : k.Move L epoll k') (hi : Interested epoll c)
    (hk : k.Noted L c h W) : k'.Noted L c h W := by
  obtain ⟨e, he, hin, hout⟩ := hi
  intro hw
  cases hm with
  | arrive fd a =>
    by_cases hfd : c.sock = fd
    · subst hfd
      cases h with
      | error => exact hw.elim
      | read =>
        cases a with
        | data b => exact Or.inl (by simp [he, Arrival.wakes, hin])
        | fin => exact Or.inl (by simp [he, Arrival.wakes, hin])
        | room n =>
          have hw' : k.Readable L c.sock := by simpa [Work, Readable, Socket.take] using hw
          exact (hk hw').imp_left fun hr => by simp [hr]
      | write =>
        cases a with
        | data b =>
          have hw' : k.Work L c .write := by simpa [Work, Writable, Socket.take] using hw
          exact (hk hw').imp_left fun hr => by simp [hr]
        | fin =>
          have hw' : k.Work L c .write := by simpa [Work, Writable, Socket.take] using hw
          exact (hk hw').imp_left fun hr => by simp [hr]
        | room n => exact Or.inl (by simp [he, Arrival.wakes, hout hw.1])
    · have hw' : k.Work L c h := by
        cases h with
        | error => exact hw
        | read => simpa [Work, Readable, hfd] using hw
        | write => simpa [Work, Writable, hfd] using hw
      exact (hk hw').imp_left fun hr => by simpa [hfd] using hr
  | connect =>
    by_cases hL : c.sock = L
    · cases h with
      | error => exact hw.elim
      | read => exact Or.inl (by simp [← hL, he, hin])
      | write => exact absurd hL hw.2.1
    · have hw' : k.Work L c h := by
        cases h with
        | error => exact hw
        | read => simpa [Work, Readable, hL] using hw
        | write => exact hw
      exact (hk hw').imp_left fun hr => by simpa [hL] using hr
  | wake fd =>
    have hw' : k.Work L c h := by
      cases h <;> exact hw
    refine (hk hw').imp_left fun hr => ?_
    by_cases hfd : c.sock = fd
    · simp [hfd]
    · simpa [hfd] using hr

theorem Kernel.Answer.ready (ha : k.Answer fd call k') : k'.ready = k.ready := by
  cases ha <;> rfl

theorem Kernel.Answer.backlog_le (ha : k.Answer fd call k') : k'.backlog ≤ k.backlog := by
  cases ha with
  | accept hn => exact hn ▸ Nat.le_succ _
  | _ => exact le_rfl

theorem Kernel.Answer.sock_of_ne (ha : k.Answer fd call k') (hg : g ≠ fd)
    (hnew : ∀ added, call ≠ .accept (.conn g added)) : k'.sock g = k.sock g := by
  cases ha with
  | @accept g' added σ n hn hσ =>
    have hne : g ≠ g' := by
      rintro rfl
      exact hnew added rfl
    exact update_of_ne hne ..
  | recv | send => exact update_of_ne hg ..
  | _ => rfl

theorem Kernel.Answer.noted (ha : k.Answer fd call k') (hfd : c.sock ≠ fd)
    (hnew : ∀ added, call ≠ .accept (.conn c.sock added)) (hk : k.Noted L c h W) :
    k'.Noted L c h W := by
  intro hw
  have hsock := ha.sock_of_ne hfd hnew
  rw [ha.ready]
  apply hk
  cases h with
  | error => exact hw
  | read =>
    by_cases hL : c.sock = L
    · have hpos : 0 < k'.backlog := by simpa [Work, Readable, hL] using hw
      have := hpos.trans_le ha.backlog_le
      simpa [Work, Readable, hL] using this
    · simpa [Work, Readable, hL, hsock] using hw
  | write => simpa [Work, Writable, hsock] using hw

theorem Kernel.Rearmed.noted (hr : k.Rearmed L epoll epoll' k') (hk : k.Noted L c h W) :
    k'.Noted L c h W := by
  intro hw
  have hw' : k.Work L c h := by
    cases h with
    | error => exact hw
    | read => simpa [Work, Readable, hr.sock, hr.backlog] using hw
    | write => simpa [Work, Writable, hr.sock] using hw
  exact (hk hw').imp_left (hr.kept c.sock)

theorem noted_during {k₁ : Kernel}
    (hcalls : During (Kernel.Move L epoll) (Kernel.Answer fd) k calls k₁) (hi : Interested epoll c)
    (hfd : c.sock ≠ fd) (hnew : ∀ added, .accept (.conn c.sock added) ∉ calls)
    (hk : k.Noted L c h W) : k₁.Noted L c h W :=
  hcalls.keeps (I := fun k => k.Noted L c h W) (fun _ _ hm => hm.noted hi)
    (fun _ hmem _ _ ha => ha.noted hfd fun added heq => hnew added (heq ▸ hmem)) hk

theorem Will.tail {conn : Option Ptr} {ev : Event} {k : Handler} {todo : List Task}
    (hw : Will h fd (.handler k conn ev :: todo)) :
    k = h ∧ ev.fd = fd ∧ asks ev h = true ∨ Will h fd todo := by
  obtain ⟨ev', hfd, hask, hmem⟩ := hw
  rcases hmem with hmem | ⟨conn', hmem⟩
  · exact Or.inr ⟨ev', hfd, hask, Or.inl (by simpa using hmem)⟩
  · rcases List.mem_cons.1 hmem with heq | hmem
    · cases heq
      exact Or.inl ⟨rfl, hfd, hask⟩
    · exact Or.inr ⟨ev', hfd, hask, Or.inr ⟨conn', hmem⟩⟩

theorem Will.lookup {conn : Option Ptr} {ev : Event} {todo : List Task}
    (hw : Will h fd (.event ev :: todo)) : Will h fd (handlers conn ev ++ todo) := by
  obtain ⟨ev', hfd, hask, hmem⟩ := hw
  rcases hmem with hmem | ⟨conn', hmem⟩
  · rcases List.mem_cons.1 hmem with heq | hmem
    · cases heq
      refine ⟨ev, hfd, hask, Or.inr ⟨conn, List.mem_append_left _ ?_⟩⟩
      cases h <;> simp [handlers]
    · exact ⟨ev', hfd, hask, Or.inl (List.mem_append_right _ hmem)⟩
  · exact ⟨ev', hfd, hask, Or.inr ⟨conn', List.mem_append_right _ (by simpa using hmem)⟩⟩

/-! ### The loops and the kernel -/

theorem acceptScan_starts {as used : List AcceptAns} (h : acceptScan as = some used) :
    used <+: as := by
  induction as generalizing used with
  | nil => cases h
  | cons a as ih =>
    have hcons : ∀ {us : List AcceptAns}, acceptScan as = some us → a :: us <+: a :: as :=
      fun hus => List.cons_prefix_cons.2 ⟨rfl, ih hus⟩
    have hone : [a] <+: a :: as := List.prefix_append [a] as
    cases a with
    | conn g added =>
      obtain ⟨us, hus, rfl⟩ := Option.map_eq_some_iff.1 h
      exact hcons hus
    | fail e =>
      rw [acceptScan] at h
      split_ifs at h
      · exact Option.some.inj h ▸ hone
      · obtain ⟨us, hus, rfl⟩ := Option.map_eq_some_iff.1 h
        exact hcons hus
      · exact Option.some.inj h ▸ hone

theorem Fresh.not_open {f : Fd → Bool} {as used : List AcceptAns} (hf : Fresh f as)
    (h : acceptScan as = some used) {added : Bool} (hmem : .conn g added ∈ used) :
    f g = false := by
  have hmem' := (acceptScan_starts h).subset hmem
  clear h hmem
  induction as generalizing f with
  | nil => cases hmem'
  | cons a as ih =>
    cases a with
    | conn g' added' =>
      by_cases hg : g = g'
      · exact hg ▸ hf.1
      · have := ih hf.2 (by simpa [hg] using hmem')
        simpa [hg] using this
    | fail e => exact ih hf (by simpa using hmem')

section Handlers

variable {s s' : TcpServer} {p : Ptr} {ev : Event} {ans : Answers} {k₁ : Kernel}

theorem Reach.interested {cfg : Config} (hr : Reach L cfg) (hc : cfg.server.heap p = some c)
    (hreg : cfg.server.epoll c.sock ≠ none) : Interested cfg.server.epoll c := by
  have hin : ∀ fd e, cfg.server.epoll fd = some e → e.epollin = true := by
    refine hr.invariant (P := fun s => ∀ fd e, s.epoll fd = some e → e.epollin = true) ?_ ?_
    · intro fd e he
      have hepoll : (init L).epoll =
          update (fun _ => none) L (some { epollin := true, epollet := true }) := rfl
      rw [hepoll, update_apply] at he
      split at he
      · cases he; rfl
      · cases he
    · intro s s' k fd hg he ih g e hge
      cases he with
      | @accepted a hfd hfresh =>
        cases a with
        | fail e' => exact ih g e hge
        | conn g' added =>
          rw [acceptStep_epoll] at hge
          split at hge
          · rw [update_apply] at hge
            split at hge
            · cases hge; rfl
            · exact ih g e hge
          · exact ih g e hge
      | read =>
        rw [epoll_handled] at hge
        split at hge
        · exact ih g e hge
        · rw [update_apply] at hge
          split at hge
          · cases hge; rfl
          · exact ih g e hge
      | wrote =>
        rw [epoll_flushed, update_apply] at hge
        split at hge
        · cases hge; rfl
        · exact ih g e hge
      | closed =>
        rw [epoll_drop, update_apply] at hge
        split at hge
        · cases hge
        · exact ih g e (by simpa using hge)
  obtain ⟨e, he⟩ := Option.ne_none_iff_exists'.1 hreg
  refine ⟨e, he, hin _ e he, fun hout => ?_⟩
  obtain ⟨e', he', hwrite⟩ := (hr.good.interest p c hc).2 hout
  rw [he] at he'
  exact Option.some.inj he' ▸ hwrite

/-- A handler that is asked for makes a call. -/
theorem asked_calls (hg : Good L s) (hp : s.Pending p ev) {k : Handler} (hask : asks ev k = true)
    (hL : ev.fd = L → k = .read) (hrun : s.handler k (some p) ev ans = .ok s') :
    s'.trace ≠ s.trace := by
  rcases hp with hgone | ⟨c, hc, hs, hr⟩
  · rw [handler_dead hgone.1, if_pos hask] at hrun
    cases hrun
  have hreg : s.epoll c.sock ≠ none := hs ▸ hr.registered
  have hdrop : ∀ calls : List Call, ((s.logs calls).drop p c.sock).trace ≠ s.trace := by
    intro calls htrace
    rw [trace_drop, trace_logs, List.append_assoc] at htrace
    simpa using List.append_right_eq_self.1 htrace
  by_cases hcL : c.sock = L
  · obtain rfl := hL (hs ▸ hcL)
    rw [handler_accept hg hc hcL hask, accepter_eq] at hrun
    split at hrun
    · cases hrun
    · rename_i used hscan
      cases hrun
      intro htrace
      obtain ⟨pre, e, rfl, -⟩ := acceptScan_last hscan
      have hused := accepts_foldl s (pre ++ [.fail e])
      rw [htrace] at hused
      simpa using List.append_right_eq_self.1 hused.symm
  · cases k with
    | error =>
      rw [handler_except hg hc hcL hask] at hrun
      cases hrun
      exact hdrop []
    | read =>
      rw [handler_recv hg hc hcL hask hreg] at hrun
      split at hrun
      · cases hrun
      · cases hrun
        exact hdrop _
      · rename_i used hscan
        split at hrun
        · cases hrun
        · cases hrun
          obtain ⟨pre, a, rfl, -⟩ := recvScan_last hscan
          rw [trace_handled]
          intro htrace
          simpa using List.append_right_eq_self.1 htrace
    | write =>
      rw [handler_send hg hc hcL hask hreg] at hrun
      split at hrun
      · cases hrun
      · rename_i used rest hscan
        cases hrun
        obtain ⟨pre, buf, a, rfl, -⟩ := (SendLoop.of_scan hscan).last rfl
        rw [trace_flushed]
        intro htrace
        simpa [sendCalls] using List.append_right_eq_self.1 htrace
      · cases hrun
        exact hdrop _

theorem accepts_fresh (hg : Good L s) (hp : s.Pending p ev) {k : Handler}
    (hfresh : k = .read → Fresh s.isOpen ans.accepts) (hrun : s.handler k (some p) ev ans = .ok s')
    (htrace : s'.trace = s.trace ++ calls) {added : Bool}
    (hmem : .accept (.conn g added) ∈ calls) : s.isOpen g = false := by
  have hsplit : accepts s'.trace = accepts s.trace ++ accepts calls := by
    rw [htrace, accepts_append]
  have hnone : accepts s'.trace ≠ accepts s.trace := fun heq => by
    rw [heq] at hsplit
    have hmem' := mem_accepts.2 hmem
    rw [List.append_right_eq_self.1 hsplit.symm] at hmem'
    cases hmem'
  have ho : Outcome L s p ev ans k _ := handler_outcome hg hp
  rw [hrun] at ho
  cases ho with
  | idle => exact absurd rfl hnone
  | @accepted used hL hscan =>
    rw [accepts_foldl] at hsplit
    have hmem' := mem_accepts.2 hmem
    rw [← List.append_cancel_left hsplit] at hmem'
    exact (hfresh rfl).not_open hscan hmem'
  | hangup => exact absurd (accepts_drop ..) hnone
  | ended | failed =>
    rw [accepts_drop, trace_logs] at hnone
    simp at hnone
  | read | wrote => simp at hnone

/-! ### What a handler leaves for its own connection -/

/-- The read loop is left when nothing is there to be read. -/
theorem noted_recv {pre : List RecvAns} {a : RecvAns} {messages : List Bytes}
    (hcalls : During (Kernel.Move L epoll) (Kernel.Answer fd) k
      ((pre ++ [a]).map (.recv p) ++ messages.map (.handler p)) k₁) (hi : Interested epoll c)
    (hfd : c.sock = fd) (hL : fd ≠ L) (ha : a.exhausted) : k₁.Noted L c .read False := by
  obtain ⟨e, rfl, he⟩ := ha
  rw [List.map_append, List.append_assoc] at hcalls
  refine hcalls.settles (I := fun k => k.Noted L c .read False) (fun _ _ hm => hm.noted hi) ?_ ?_
  · intro b hb k k' hb' hk
    obtain ⟨m, -, rfl⟩ := List.mem_map.1 hb
    cases hb'
    exact hk
  · intro k k' ha hw
    cases ha with
    | noBytes h =>
      obtain ⟨hin, hend⟩ := h he
      simp [Kernel.Work, Kernel.Readable, hfd, hL, hin, hend] at hw

/-- The write loop is left when there is no room, unless nothing is to be written any more. -/
theorem noted_send {pre : List (Bytes × SendAns)} {buf : Bytes} {a : SendAns}
    (hcalls : During (Kernel.Move L epoll) (Kernel.Answer fd) k
      (sendCalls p (pre ++ [(buf, a)])) k₁)
    (hi : Interested epoll c) (hfd : c.sock = fd) (ha : a.exhausted) :
    k₁.Noted L c .write False := by
  obtain ⟨e, rfl, he⟩ := ha
  rw [sendCalls, List.map_append] at hcalls
  refine hcalls.settles (I := fun k => k.Noted L c .write False) (fun _ _ hm => hm.noted hi)
    (by simp) ?_
  intro k k' ha hw
  cases ha with
  | noRoom h =>
    have hpos := hw.2.2
    rw [hfd, h he] at hpos
    exact absurd hpos (lt_irrefl 0)

/-- The accept loop is left when no connection waits. -/
theorem noted_accept {e : Errno}
    (hcalls : During (Kernel.Move L epoll) (Kernel.Answer fd) k (calls ++ [.accept (.fail e)]) k₁)
    (hi : Interested epoll c) (hL : c.sock = L) (he : e.again = true) :
    k₁.Noted L c .read False := by
  refine hcalls.settles (I := fun k => k.Noted L c .read False) (fun _ _ hm => hm.noted hi)
    (by simp) ?_
  intro k k' ha hw
  cases ha with
  | noConnection h => simp [Kernel.Work, Kernel.Readable, hL, h he] at hw

theorem noted_write_of_recvs {used : List RecvAns} {messages : List Bytes}
    (hcalls : During (Kernel.Move L epoll) (Kernel.Answer fd) k
      (used.map (.recv p) ++ messages.map (.handler p)) k₁) (hi : Interested epoll c)
    (hk : k.Noted L c .write W) : k₁.Noted L c .write W := by
  refine hcalls.keeps (I := fun k => k.Noted L c .write W) (fun _ _ hm => hm.noted hi) ?_ hk
  intro call hmem k k' ha hk hw
  rw [ha.ready]
  apply hk
  rcases List.mem_append.1 hmem with hmem | hmem
  · obtain ⟨a, -, rfl⟩ := List.mem_map.1 hmem
    cases ha with
    | recv hb hlen hin =>
      by_cases hfd : c.sock = fd
      · simpa [Kernel.Work, Kernel.Writable, hfd] using hw
      · simpa [Kernel.Work, Kernel.Writable, hfd] using hw
    | endOfStream | noBytes => exact hw
  · obtain ⟨m, -, rfl⟩ := List.mem_map.1 hmem
    cases ha
    exact hw

theorem noted_read_of_sends {used : List (Bytes × SendAns)}
    (hcalls : During (Kernel.Move L epoll) (Kernel.Answer fd) k (sendCalls p used) k₁)
    (hi : Interested epoll c) (hk : k.Noted L c .read W) : k₁.Noted L c .read W := by
  refine hcalls.keeps (I := fun k => k.Noted L c .read W) (fun _ _ hm => hm.noted hi) ?_ hk
  intro call hmem k k' ha hk hw
  rw [ha.ready]
  apply hk
  obtain ⟨⟨buf, a⟩, -, rfl⟩ := List.mem_map.1 hmem
  cases ha with
  | send hn hle hroom =>
    by_cases hfd : c.sock = fd
    · simpa [Kernel.Work, Kernel.Readable, hfd] using hw
    · simpa [Kernel.Work, Kernel.Readable, hfd] using hw
  | noRoom => exact hw

/-- The write loop that has left something was stopped by its last call. -/
theorem TcpServer.SendLoop.stopped {e : Errno} {out rest : Bytes} {used : List (Bytes × SendAns)}
    {d : Bool} (h : SendLoop e out used rest d) (hd : d = false) (hrest : rest ≠ []) :
    ∃ pre buf a, used = pre ++ [(buf, a)] ∧ (a.exhausted ∨ a = .count 0) := by
  induction h with
  | done => exact absurd rfl hrest
  | took hn hmore h ih =>
    obtain ⟨pre, buf, a, rfl, ha⟩ := ih hd hrest
    exact ⟨_ :: pre, buf, a, rfl, ha⟩
  | @full e out a h0 h1 =>
    refine ⟨[], out, a, rfl, ?_⟩
    cases a with
    | count n => exact Or.inr (congrArg _ h0)
    | fail e' => exact Or.inl ⟨e', rfl, h1⟩
  | interrupted h0 h ih =>
    obtain ⟨pre, buf, a, rfl, ha⟩ := ih hd hrest
    exact ⟨_ :: pre, buf, a, rfl, ha⟩
  | failed => cases hd

/-- What is left by the write loop waits for room. -/
theorem noted_write_of_sends {e : Errno} {out rest : Bytes} {used : List (Bytes × SendAns)}
    (hloop : SendLoop e out used rest false) (hrest : rest ≠ [])
    (hcalls : During (Kernel.Move L epoll) (Kernel.Answer fd) k (sendCalls p used) k₁)
    (hi : Interested epoll c) (hfd : c.sock = fd) : k₁.Noted L c .write False := by
  obtain ⟨pre, buf, a, rfl, ha | rfl⟩ := hloop.stopped rfl hrest
  · exact noted_send hcalls hi hfd ha
  · rw [sendCalls, List.map_append] at hcalls
    refine (hcalls.settles (I := fun _ => False) (fun _ _ _ => id) (by simp) ?_).elim
    intro k k' ha
    cases ha with
    | send hn => exact lt_irrefl 0 hn

theorem conn_accepts (s : TcpServer) (used : List AcceptAns) :
    ∃ cs, (used.foldl acceptStep s).trace = s.trace ++ cs ∧ ∀ k ∈ cs, k.conn = none := by
  induction used using List.reverseRecOn with
  | nil => exact ⟨[], by simp⟩
  | append_singleton used a ih =>
    obtain ⟨cs, hcs, hnone⟩ := ih
    obtain ⟨cs', hcs', hnone'⟩ := conn_acceptStep (used.foldl acceptStep s) a
    refine ⟨cs ++ cs', ?_, fun k hk => ?_⟩
    · rw [List.foldl_append, List.foldl_cons, List.foldl_nil, hcs', hcs, List.append_assoc]
    · exact (List.mem_append.1 hk).elim (hnone k) (hnone' k)

theorem TcpServer.Pending.registered (hp : s.Pending p ev) (hc : s.heap p = some c) :
    s.epoll ev.fd ≠ none := by
  rcases hp with hgone | ⟨-, -, -, hr⟩
  · rw [hgone.1] at hc
    cases hc
  · exact hr.registered

theorem next_accepts (s : TcpServer) (used : List AcceptAns) :
    s.next ≤ (used.foldl acceptStep s).next := by
  induction used using List.reverseRecOn with
  | nil => exact le_rfl
  | append_singleton used a ih =>
    rw [List.foldl_append, List.foldl_cons, List.foldl_nil]
    cases a with
    | fail e => exact ih
    | conn g added =>
      rw [acceptStep_next]
      exact ih.trans (Nat.le_succ _)

theorem heap_accepts {used : List AcceptAns} {q : Ptr} {d : Connection}
    (hd : (used.foldl acceptStep s).heap q = some d) : s.heap q = some d ∨
      s.next ≤ q ∧ d.outBuffer = [] ∧ ∃ added, .conn d.sock added ∈ used := by
  induction used using List.reverseRecOn generalizing q d with
  | nil => exact Or.inl hd
  | append_singleton used a ih =>
    rw [List.foldl_append] at hd
    have hbefore : (used.foldl acceptStep s).heap q = some d → s.heap q = some d ∨
        s.next ≤ q ∧ d.outBuffer = [] ∧ ∃ added, .conn d.sock added ∈ used ++ [a] := fun hd' =>
      (ih hd').imp_right fun ⟨hq, hout, added, hm⟩ =>
        ⟨hq, hout, added, List.mem_append_left [a] hm⟩
    cases a with
    | fail e => exact hbefore hd
    | conn g added =>
      rw [List.foldl_cons, List.foldl_nil, acceptStep_heap, update_apply] at hd
      split at hd
      · rename_i hq
        obtain rfl := Option.some.inj hd
        exact Or.inr ⟨hq ▸ next_accepts s used, rfl, added, by simp [newClient]⟩
      · exact hbefore hd

end Handlers

/-! ### Nothing is forgotten -/

/-- No `accept` failed for a reason of its own. -/
def NoAcceptError (trace : List Call) : Prop :=
  ∀ e, .accept (.fail e) ∈ trace → e.again = true ∨ e = .EINTR

/-- **What can be done is known**: for the work of a registered connection the descriptor is on the
kernel's list, or a handler is still to be called. -/
def Attended (L : Fd) (y : Machine) : Prop :=
  ∀ p c h, y.config.server.heap p = some c → y.config.server.epoll c.sock ≠ none →
    (c.sock = L → NoAcceptError y.config.server.trace) →
    y.kernel.Noted L c h (Will h c.sock y.config.todo)

section Attended

variable {s s' : TcpServer} {conn : Option Ptr} {ev : Event} {ans : Answers} {todo : List Task}
  {k₁ : Kernel}

theorem Attended.wait {batch : List Event} (hr : Reach L ⟨s, []⟩) (ha : Attended L ⟨⟨s, []⟩, k⟩)
    (hk : k.Waits L s.epoll batch k') : Attended L ⟨⟨s, batch.map .event⟩, k'⟩ := by
  intro p c h hc hreg haccept hw
  obtain ⟨e, he, hin, hout⟩ := Reach.interested hr hc hreg
  have hw' : k.Work L c h := by
    cases h with
    | error => exact hw
    | read => simpa [Kernel.Work, Kernel.Readable, hk.sock, hk.backlog] using hw
    | write => simpa [Kernel.Work, Kernel.Writable, hk.sock] using hw
  have hready : k.ready c.sock = true := by
    refine (ha p c h hc hreg haccept hw').resolve_right ?_
    rintro ⟨ev, -, -, hmem⟩
    simp at hmem
  by_cases hmem : c.sock ∈ batch.map Event.fd
  · obtain ⟨ev, hev, hfd⟩ := List.mem_map.1 hmem
    refine Or.inr ⟨ev, hfd, ?_, Or.inl (List.mem_map_of_mem hev)⟩
    rw [← hfd] at he
    cases h with
    | error => exact hw.elim
    | read => exact hk.input ev hev e he hin (hfd ▸ hw')
    | write => exact hk.output ev hev e he (hout hw'.1) (hfd ▸ hw'.2)
  · refine Or.inl (hk.ready _ e he hready ?_ hmem)
    cases h with
    | error => exact hw.elim
    | read => exact Or.inl ⟨hin, hw'⟩
    | write => exact Or.inr ⟨hout hw'.1, hw'.2⟩

theorem Attended.frame {h : Handler} (ha : Attended L ⟨⟨s, .handler h conn ev :: todo⟩, k⟩)
    (hr : Reach L ⟨s, .handler h conn ev :: todo⟩) {p : Ptr} (hp : s.Pending p ev)
    (hfresh : h = .read → Fresh s.isOpen ans.accepts) (hrun : s.handler h (some p) ev ans = .ok s')
    (htrace : s'.trace = s.trace ++ calls)
    (hcalls : During (Kernel.Move L s.epoll) (Kernel.Answer ev.fd) k calls k₁) {q : Ptr}
    {d : Connection} (hd : s.heap q = some d) (hfd : d.sock ≠ ev.fd) (hreg : s.epoll d.sock ≠ none)
    (haccept : d.sock = L → NoAcceptError s.trace) {h' : Handler} :
    k₁.Noted L d h' (Will h' d.sock todo) := by
  refine noted_during hcalls (Reach.interested hr hd hreg) hfd (fun added hmem => ?_) ?_
  · have hopen := accepts_fresh hr.good hp hfresh hrun htrace hmem
    rw [hr.good.isOpen hd] at hopen
    cases hopen
  · exact (ha q d h' hd hreg haccept).mono fun hw =>
      hw.tail.resolve_left fun heq => hfd heq.2.1.symm

/-- A handler that was not asked for, or has found nothing to do. -/
theorem Attended.idle {h : Handler} {p : Ptr}
    (ha : Attended L ⟨⟨s, .handler h (some p) ev :: todo⟩, k⟩)
    (hr : Reach L ⟨s, .handler h (some p) ev :: todo⟩) (hp : s.Pending p ev)
    (hrun : s.handler h (some p) ev ans = .ok s)
    (hcalls : During (Kernel.Move L s.epoll) (Kernel.Answer ev.fd) k [] k₁) {q : Ptr}
    {d : Connection} (hd : s.heap q = some d) (hfd : d.sock = ev.fd) (hreg : s.epoll d.sock ≠ none)
    (haccept : d.sock = L → NoAcceptError s.trace) {h' : Handler} :
    k₁.Noted L d h' (Will h' d.sock todo) := by
  have hi := Reach.interested hr hd hreg
  have hk := hcalls.keeps (I := fun k => k.Noted L d h' (Will h' d.sock
    (.handler h (some p) ev :: todo))) (fun _ _ hm => hm.noted hi) (by simp)
    (ha q d h' hd hreg haccept)
  refine fun hw => (hk hw).imp_right fun hwill => ?_
  refine hwill.tail.resolve_left ?_
  rintro ⟨rfl, -, hask⟩
  refine asked_calls hr.good hp hask (fun hL => ?_) hrun rfl
  cases h with
  | error => exact hw.elim
  | read => rfl
  | write => exact absurd (hfd.trans hL) hw.2.1

/-- The listening descriptor behind the accept loop. -/
theorem noted_accepted {used : List AcceptAns} {d : Connection} (hi : Interested s.epoll d)
    (hfd : d.sock = ev.fd) (hL : ev.fd = L) (hscan : acceptScan ans.accepts = some used)
    (htrace : (used.foldl acceptStep s).trace = s.trace ++ calls)
    (hcalls : During (Kernel.Move L s.epoll) (Kernel.Answer ev.fd) k calls k₁)
    (haccept : NoAcceptError (used.foldl acceptStep s).trace) (h' : Handler) :
    k₁.Noted L d h' W := by
  cases h' with
  | error => exact fun hw => hw.elim
  | write => exact fun hw => absurd (hfd.trans hL) hw.2.1
  | read =>
    obtain ⟨pre, e, rfl, he, -⟩ := acceptScan_last hscan
    have hagain : e.again = true := by
      refine (haccept e ?_).resolve_right he
      rw [← mem_accepts, accepts_foldl]
      simp
    obtain ⟨cs, hcs, -⟩ := conn_accepts s pre
    obtain rfl : cs ++ [.accept (.fail e)] = calls := by
      rw [List.foldl_append, List.foldl_cons, List.foldl_nil, acceptStep_trace, hcs,
        List.append_assoc] at htrace
      exact List.append_cancel_left htrace
    exact (noted_accept hcalls hi (hfd.trans hL) hagain).mono False.elim

/-- A connection that was accepted and registered: its descriptor was not. -/
theorem noted_newcomer {d : Connection} (hg : Good L s) (hnew : s.isOpen d.sock = false)
    (hi : Interested epoll' d) (hout : d.outBuffer = [])
    (hctl : Kernel.Rearmed L s.epoll epoll' k₁ k') (h' : Handler) : k'.Noted L d h' W := by
  intro hw
  obtain ⟨e, he, hin, -⟩ := hi
  cases h' with
  | error => exact hw.elim
  | write => exact absurd hout hw.1
  | read =>
    refine Or.inl (hctl.changed _ e he ?_ (Or.inl ⟨hin, ?_⟩))
    · rw [(hg.absent hnew).2]
      simp
    · simpa [Kernel.Work, Kernel.Readable, hctl.sock, hctl.backlog] using hw

/-- The connection that was read, with what is left and what is to be sent. -/
theorem Attended.read {p : Ptr} (ha : Attended L ⟨⟨s, .handler .read (some p) ev :: todo⟩, k⟩)
    (hr : Reach L ⟨s, .handler .read (some p) ev :: todo⟩) (hp : s.Pending p ev) {c : Connection}
    {used : List RecvAns} {rest out : Bytes} {messages : List Bytes} (hc : s.heap p = some c)
    (hs : c.sock = ev.fd) (hL : ev.fd ≠ L) (hscan : recvScan ans.recvs = some (used, true))
    (hout : replies ans.mem messages = .ok out)
    (htrace : (s.handled p c used rest messages out).trace = s.trace ++ calls)
    (hcalls : During (Kernel.Move L s.epoll) (Kernel.Answer ev.fd) k calls k₁)
    (hctl : Kernel.Rearmed L s.epoll (s.handled p c used rest messages out).epoll k₁ k')
    (haccept : c.sock = L → NoAcceptError s.trace) (h' : Handler) :
    k'.Noted L { c with inBuffer := rest, outBuffer := c.outBuffer ++ out } h'
      (Will h' c.sock todo) := by
  rw [trace_handled] at htrace
  obtain rfl := List.append_cancel_left htrace
  have hreg : s.epoll c.sock ≠ none := hs ▸ hp.registered hc
  have hi := Reach.interested hr hc hreg
  cases h' with
  | error => exact fun hw => hw.elim
  | read =>
    obtain ⟨pre, a, rfl, hlast⟩ := recvScan_last hscan
    exact hctl.noted ((noted_recv hcalls hi hs hL hlast).mono False.elim)
  | write =>
    intro hw
    by_cases hempty : c.outBuffer = []
    · -- the first reply turns the write interest on
      have hmessages : messages ≠ [] := by
        rintro rfl
        exact hw.1 (by simp [hempty, replies_nil hout])
      have hon := congrFun (epoll_handled s p c used rest messages out) c.sock
      rw [if_neg hmessages, update_self] at hon
      refine Or.inl (hctl.changed c.sock _ hon (fun heq => ?_) (Or.inr ⟨rfl, ?_⟩))
      · exact (hr.good.interest p c hc).1 ⟨_, heq, rfl⟩ hempty
      · simpa [Kernel.Work, Kernel.Writable, hctl.sock] using hw.2
    · have hk : k₁.Noted L c .write (Will .write c.sock todo) := by
        refine noted_write_of_recvs hcalls hi ((ha p c .write hc hreg haccept).mono ?_)
        exact fun hwill => hwill.tail.resolve_left fun heq => by cases heq.1
      have hk' := hctl.noted hk
      exact hk' ⟨hempty, hw.2⟩

/-- The connection that was written to, with what was not sent. -/
theorem Attended.wrote {p : Ptr} (ha : Attended L ⟨⟨s, .handler .write (some p) ev :: todo⟩, k⟩)
    (hr : Reach L ⟨s, .handler .write (some p) ev :: todo⟩) (hp : s.Pending p ev) {c : Connection}
    {used : List (Bytes × SendAns)} {rest : Bytes} (hc : s.heap p = some c) (hs : c.sock = ev.fd)
    (hne : c.outBuffer ≠ [])
    (hscan : sendScan s.errno c.outBuffer ans.sends = some (used, rest, false))
    (htrace : (s.flushed p c used rest).trace = s.trace ++ calls)
    (hcalls : During (Kernel.Move L s.epoll) (Kernel.Answer ev.fd) k calls k₁)
    (hctl : Kernel.Rearmed L s.epoll (s.flushed p c used rest).epoll k₁ k')
    (haccept : c.sock = L → NoAcceptError s.trace) (h' : Handler) :
    k'.Noted L { c with outBuffer := rest } h' (Will h' c.sock todo) := by
  rw [trace_flushed] at htrace
  obtain rfl := List.append_cancel_left htrace
  have hreg : s.epoll c.sock ≠ none := hs ▸ hp.registered hc
  have hi := Reach.interested hr hc hreg
  cases h' with
  | error => exact fun hw => hw.elim
  | read =>
    have hk : k₁.Noted L c .read (Will .read c.sock todo) := by
      refine noted_read_of_sends hcalls hi ((ha p c .read hc hreg haccept).mono ?_)
      exact fun hwill => hwill.tail.resolve_left fun heq => by cases heq.1
    exact hctl.noted hk
  | write =>
    intro hw
    have hk : k₁.Noted L c .write False :=
      noted_write_of_sends (SendLoop.of_scan hscan) hw.1 hcalls hi hs
    have hk' := hctl.noted hk
    exact (hk' ⟨hne, hw.2⟩).imp_right False.elim

/-- **A handler forgets nothing.** -/
theorem Attended.handler {h : Handler} (ha : Attended L ⟨⟨s, .handler h conn ev :: todo⟩, k⟩)
    (hr : Reach L ⟨s, .handler h conn ev :: todo⟩)
    (hfresh : h = .read → Fresh s.isOpen ans.accepts) (hrun : s.handler h conn ev ans = .ok s')
    (htrace : s'.trace = s.trace ++ calls)
    (hcalls : During (Kernel.Move L s.epoll) (Kernel.Answer ev.fd) k calls k₁)
    (hctl : Kernel.Rearmed L s.epoll s'.epoll k₁ k') : Attended L ⟨⟨s', todo⟩, k'⟩ := by
  obtain ⟨p, rfl, hp⟩ := hr.ready.pending
  have hg := hr.good
  have hr' : Reach L ⟨s', todo⟩ := hr.tail (.handler hfresh hrun)
  have heff := handler_effects hg hp hfresh hrun
  intro q d h' hd hreg haccept
  have haccept' : d.sock = L → NoAcceptError s.trace := fun hL e he =>
    haccept hL e ((Effects.trace_mono heff).subset he)
  -- a connection that was there before, on another descriptor
  have hother : s.heap q = some d → d.sock ≠ ev.fd → k'.Noted L d h' (Will h' d.sock todo) := by
    intro hd₀ hfd
    have hepoll := (Effects.frame heff hg hd₀ (Or.inl hfd)).2
    exact hctl.noted (ha.frame hr hp hfresh hrun htrace hcalls hd₀ hfd (hepoll ▸ hreg) haccept')
  -- the connection of the event is dropped
  have hdropped : ∀ {c : Connection} {cs : List Call}, s.heap p = some c → c.sock = ev.fd →
      s' = (s.logs cs).drop p ev.fd → k'.Noted L d h' (Will h' d.sock todo) := by
    rintro c cs hc hs rfl
    rw [heap_drop, heap_logs, update_apply] at hd
    split at hd
    · cases hd
    · rename_i hq
      exact hother hd fun hfd => hq (hg.inj hd hc (hfd.trans hs.symm))
  have ho : Outcome L s p ev ans h _ := handler_outcome hg hp
  rw [hrun] at ho
  cases ho with
  | idle =>
    by_cases hfd : d.sock = ev.fd
    swap
    · exact hother hd hfd
    obtain rfl : calls = [] := List.append_right_eq_self.1 htrace.symm
    exact hctl.noted (ha.idle hr hp hrun hcalls hd hfd hreg haccept')
  | hangup hc hs hL =>
    have hnone : s.logs [] = s := logs_nil s
    exact hdropped hc hs (congrArg (fun t => t.drop p ev.fd) hnone.symm)
  | ended hc hs hL hscan => exact hdropped hc hs rfl
  | failed hc hs hL hne hscan => exact hdropped hc hs rfl
  | @accepted used hL hscan =>
    rcases heap_accepts hd with hd₀ | ⟨-, hout, added, hmem⟩
    · by_cases hfd : d.sock = ev.fd
      swap
      · exact hother hd₀ hfd
      have hepoll := (Effects.frame heff hg hd₀ (Or.inr (hfd.trans hL))).2
      have hi := Reach.interested hr hd₀ (hepoll ▸ hreg)
      exact hctl.noted
        (noted_accepted hi hfd hL hscan htrace hcalls (haccept (hfd.trans hL)) h')
    · exact noted_newcomer hg ((hfresh rfl).not_open hscan hmem) (Reach.interested hr' hd hreg)
        hout hctl h'
  | @read c used out hc hs hL hscan hout =>
    rw [heap_handled, update_apply] at hd
    split at hd
    swap
    · rename_i hq
      exact hother hd fun hfd => hq (hg.inj hd hc (hfd.trans hs.symm))
    obtain rfl := Option.some.inj hd
    exact ha.read hr hp hc hs hL hscan hout htrace hcalls hctl haccept' h'
  | @wrote c used rest hc hs hL hne hscan =>
    rw [heap_flushed, update_apply] at hd
    split at hd
    swap
    · rename_i hq
      exact hother hd fun hfd => hq (hg.inj hd hc (hfd.trans hs.symm))
    obtain rfl := Option.some.inj hd
    exact ha.wrote hr hp hc hs hne hscan htrace hcalls hctl haccept' h'

end Attended

variable {y : Machine}

/-- **Nothing is forgotten** in any run, whatever the network does and whenever it does it. -/
theorem Machine.Reach.attended (hy : Machine.Reach L y) : Attended L y := by
  refine (Invariant.reachable (I := fun y : Machine => Reactor.Reach L y.config ∧ Attended L y)
    ⟨?_, ?_⟩ hy).2
  · rintro ⟨⟨s, todo⟩, k⟩ ⟨hs, hk⟩
    obtain ⟨rfl, rfl⟩ : s = init L ∧ todo = [] := by simpa using hs
    refine ⟨.refl, fun p c h hc _ _ hw => ?_⟩
    obtain ⟨-, rfl⟩ := heap_init hc
    cases h with
    | error => exact hw.elim
    | read => exact Or.inl (hk (by simpa [Kernel.Work, Kernel.Readable] using hw))
    | write => exact absurd rfl hw.1
  · rintro y y' ⟨hr, ha⟩ hstep
    refine ⟨?_, ?_⟩
    · rcases hstep.config with heq | hs
      · rwa [← heq]
      · exact hr.tail hs
    · cases hstep with
      | move hm =>
        intro p c h hc hreg haccept
        exact hm.noted (Reactor.Reach.interested hr hc hreg) (ha p c h hc hreg haccept)
      | wait hb hk => exact ha.wait hr hk
      | lookup =>
        intro p c h hc hreg haccept
        exact (ha p c h hc hreg haccept).mono Will.lookup
      | handler hfresh hrun htrace hcalls hctl =>
        exact ha.handler hr hfresh hrun htrace hcalls hctl

end NetProg.Reactor
