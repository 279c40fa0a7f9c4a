import Mathlib.Logic.Relation
import NetProg.Reactor.Invariant

/-!
# Runs of the dispatch loop

A run alternates between `epoll_wait` and the handlers of the batch it gave, one handler at a time,
so a property of every reachable configuration also holds between the handlers of one event. The
kernel may report any events that the registrations allow, and `accept` gives descriptors that are
not open.

* `handler_outcome`: what a handler can give; `handler_effects`: one that returns has had effects of
  its own descriptor only;
* `Reach.good`, `Reach.ready`: the invariant holds in every reachable configuration, and what is
  left of the batch is still about registered connections;
* `Reach.invariant`: the rule for further invariants, one effect at a time.
-/

namespace NetProg.Reactor

open NetProg.Lib Function Relation

namespace TcpServer

/-- The registration of the descriptor allows the report. -/
def Reported (s : TcpServer) (ev : Event) : Prop :=
  ∃ e, s.epoll ev.fd = some e ∧ (ev.revents.epollin = true → e.epollin = true) ∧
    (ev.revents.epollout = true → e.epollout = true)

/-- What `epoll_wait` can give: reports on distinct registered descriptors. -/
structure Batch (s : TcpServer) (batch : List Event) : Prop where
  nodup : (batch.map Event.fd).Nodup
  reported : ∀ ev ∈ batch, s.Reported ev

end TcpServer

/-- `accept` gives descriptors that are not open. -/
def Fresh : (Fd → Bool) → List AcceptAns → Prop
  | _, [] => True
  | isOpen, .conn fd _ :: as => isOpen fd = false ∧ Fresh (update isOpen fd true) as
  | isOpen, .fail _ :: as => Fresh isOpen as

theorem Fresh.mono {f g : Fd → Bool} {as : List AcceptAns} (h : Fresh f as)
    (hfg : ∀ fd, g fd = true → f fd = true) : Fresh g as := by
  induction as generalizing f g with
  | nil => trivial
  | cons a as ih =>
    cases a with
    | fail e => exact ih h hfg
    | conn fd added =>
      refine ⟨?_, ih h.2 ?_⟩
      · by_contra hc
        have := hfg fd (by simpa using hc)
        rw [h.1] at this; cases this
      · intro x hx
        by_cases hxf : x = fd
        · simp [hxf]
        · simpa [hxf] using hfg x (by simpa [hxf] using hx)

/-- What is left to do of a batch: to look up the pointer of an event, or to call a handler. -/
inductive Task where
  | event (ev : Event)
  | handler (h : Handler) (conn : Option Ptr) (ev : Event)

structure Config where
  server : TcpServer
  todo : List Task

/-- The handlers of one event. -/
def handlers (conn : Option Ptr) (ev : Event) : List Task :=
  [.handler .error conn ev, .handler .read conn ev, .handler .write conn ev]

inductive Step : Config → Config → Prop
  | wait {s : TcpServer} {batch : List Event} (hb : s.Batch batch) :
      Step ⟨s, []⟩ ⟨s, batch.map .event⟩
  | lookup {s : TcpServer} {ev : Event} {todo : List Task} :
      Step ⟨s, .event ev :: todo⟩ ⟨s, handlers (s.lookup ev.fd) ev ++ todo⟩
  | handler {s s' : TcpServer} {h : Handler} {conn : Option Ptr} {ev : Event} {ans : Answers}
      {todo : List Task} (hfresh : h = .read → Fresh s.isOpen ans.accepts)
      (hrun : s.handler h conn ev ans = .ok s') : Step ⟨s, .handler h conn ev :: todo⟩ ⟨s', todo⟩

/-- The configurations that a server which listens on `L` can reach. -/
def Reach (L : Fd) (c : Config) : Prop := ReflTransGen Step ⟨TcpServer.init L, []⟩ c

namespace TcpServer

variable {L fd : Fd} {s s' : TcpServer} {p : Ptr} {c : Connection} {ev : Event} {ans : Answers}

/-! ### The handlers on a live connection -/

theorem Reported.registered (h : s.Reported ev) : s.epoll ev.fd ≠ none := by
  obtain ⟨e, he, -⟩ := h
  rw [he]; exact Option.some_ne_none e

theorem Reported.wantsWrite (h : s.Reported ev) (hw : ev.revents.epollout = true) :
    s.WantsWrite ev.fd := by
  obtain ⟨e, he, -, ho⟩ := h
  exact ⟨e, he, ho hw⟩

theorem Good.lookup (hg : Good L s) (hr : s.Reported ev) :
    ∃ p c, s.lookup ev.fd = some p ∧ s.heap p = some c ∧ c.sock = ev.fd := by
  obtain ⟨e, he, -⟩ := hr
  have hkey := hg.keys ev.fd
  rw [hg.registered _ e he] at hkey
  obtain ⟨p, hp⟩ := Option.isSome_iff_exists.1 hkey
  obtain ⟨c, hc, hs⟩ := hg.live _ p hp
  exact ⟨p, c, by simp [TcpServer.lookup, hkey, hp], hc, hs⟩

theorem Good.callback_eq {γ : Type} (hg : Good L s) (hc : s.heap p = some c)
    (cb : Connection → Option γ) (run : γ → Ptr → Run TcpServer) :
    s.callback (some p) cb run = match cb c with
      | none => .ok s
      | some k => run k p := by
  unfold callback
  simp only [deref_of hc, bind, Except.bind, hg.key hc, if_true]
  rfl

/-- The bits of an event that the handler looks at. -/
def asks (ev : Event) : Handler → Bool
  | .error => ev.revents.epollerr || ev.revents.epollhup
  | .read => ev.revents.epollin
  | .write => ev.revents.epollout

theorem handler_of_not_asks {conn : Option Ptr} {k : Handler} (h : ¬ asks ev k = true) :
    s.handler k conn ev ans = .ok s := by
  cases k <;> exact if_neg h

theorem handler_dead (hp : s.heap p = none) {k : Handler} : s.handler k (some p) ev ans =
    if asks ev k then .error .dead else .ok s := by
  have hcb {γ : Type} (cb : Connection → Option γ) (run : γ → Ptr → Run TcpServer) :
      s.callback (some p) cb run = .error .dead := by
    simp only [callback, deref_of_none hp, bind, Except.bind]
  by_cases h : asks ev k = true
  · rw [if_pos h]
    cases k <;> exact (if_pos h).trans (hcb _ _)
  · rw [if_neg h, handler_of_not_asks h]

section Live

variable (hg : Good L s) (hc : s.heap p = some c)

include hg hc

theorem Good.listener (hL : c.sock = L) :
    c.recvCb = some .accepter ∧ c.sendCb = none ∧ c.exceptCb = none := by
  have hw := (hg.owned p c hc).2
  rwa [Wired, if_pos hL] at hw

theorem Good.client (hL : c.sock ≠ L) :
    c.recvCb = some .recver ∧ c.sendCb = some .sender ∧ c.exceptCb = some .excepter := by
  have hw := (hg.owned p c hc).2
  rwa [Wired, if_neg hL] at hw

/-- On the listening descriptor only `EPOLLIN` matters. -/
theorem handler_listen (hL : c.sock = L) {k : Handler} (hk : k ≠ .read) :
    s.handler k (some p) ev ans = .ok s := by
  obtain ⟨-, h2, h3⟩ := hg.listener hc hL
  by_cases hask : asks ev k = true
  · cases k with
    | error => exact (if_pos hask).trans (by rw [hg.callback_eq hc, h3])
    | read => exact absurd rfl hk
    | write => exact (if_pos hask).trans (by rw [hg.callback_eq hc, h2])
  · exact handler_of_not_asks hask

theorem handler_accept (hL : c.sock = L) (hask : asks ev .read = true) :
    s.handler .read (some p) ev ans = s.accepter ans.accepts :=
  (if_pos hask).trans (by rw [hg.callback_eq hc, (hg.listener hc hL).1])

theorem handler_except (hL : c.sock ≠ L) (hask : asks ev .error = true) :
    s.handler .error (some p) ev ans = .ok (s.drop p c.sock) :=
  (if_pos hask).trans (by
    rw [hg.callback_eq hc, (hg.client hc hL).2.2]
    exact excepter_eq hc (hg.key hc))

theorem handler_recv (hL : c.sock ≠ L) (hask : asks ev .read = true)
    (hreg : s.epoll c.sock ≠ none) :
    s.handler .read (some p) ev ans = match recvScan ans.recvs with
      | none => .error (recvStop ans.recvs)
      | some (used, false) => .ok ((s.logs (used.map (.recv p))).drop p c.sock)
      | some (used, true) =>
        match replies ans.mem (splitMessage (c.inBuffer ++ recvData used) []).2 with
        | .error f => .error (.arith f)
        | .ok out => .ok (s.handled p c used (splitMessage (c.inBuffer ++ recvData used) []).1
            (splitMessage (c.inBuffer ++ recvData used) []).2 out) :=
  (if_pos hask).trans (by
    rw [hg.callback_eq hc, (hg.client hc hL).1]
    exact recver_eq hc (hg.client hc hL).2.2 (hg.key hc) hreg _ _)

theorem handler_send (hL : c.sock ≠ L) (hask : asks ev .write = true)
    (hreg : s.epoll c.sock ≠ none) :
    s.handler .write (some p) ev ans = match sendScan s.errno c.outBuffer ans.sends with
      | none => .error (sendStop ans.sends)
      | some (used, out, false) => .ok (s.flushed p c used out)
      | some (used, _, true) => .ok ((s.logs (sendCalls p used)).drop p c.sock) :=
  (if_pos hask).trans (by
    rw [hg.callback_eq hc, (hg.client hc hL).2.1]
    exact sender_eq hc (hg.client hc hL).2.2 (hg.key hc) hreg _)

end Live

/-! ### A handler has effects -/

/-- Any number of effects of one handler. -/
abbrev Effects (L fd : Fd) (k : Handler) : TcpServer → TcpServer → Prop :=
  ReflTransGen fun s s' => Effect L fd s k s'

/-- The object at this address was deleted. -/
def Gone (s : TcpServer) (p : Ptr) : Prop := s.heap p = none ∧ p < s.next

/-- A connection that a later handler of the event will be called with: gone, or still there. -/
def Pending (s : TcpServer) (p : Ptr) (ev : Event) : Prop :=
  s.Gone p ∨ ∃ c, s.heap p = some c ∧ c.sock = ev.fd ∧ s.Reported ev

variable {k : Handler}

theorem Good.effects (hg : Good L s) (he : Effects L fd k s s') : Good L s' := by
  induction he with
  | refl => exact hg
  | tail _ h ih => exact ih.effect h

theorem accepts_effects (hg : Good L s) {as : List AcceptAns} (hfresh : Fresh s.isOpen as)
    {used : List AcceptAns} (hu : acceptScan as = some used) :
    Effects L L .read s (used.foldl acceptStep s) := by
  induction as generalizing s used with
  | nil => cases hu
  | cons a as ih =>
    cases a with
    | conn g added =>
      obtain ⟨us, hus, rfl⟩ := Option.map_eq_some_iff.1 hu
      have heff : Effect L L s .read (s.acceptStep (.conn g added)) := by
        refine .accepted rfl ?_
        rintro g' added' h
        obtain ⟨rfl, -⟩ : g = g' ∧ _ := by simpa using h
        exact hfresh.1
      refine .head heff (ih (hg.effect heff) ?_ hus)
      rw [acceptStep_isOpen]
      exact hfresh.2
    | fail e =>
      have heff : Effect L L s .read (s.acceptStep (.fail e)) := .accepted rfl (by simp)
      rw [acceptScan] at hu
      split_ifs at hu
      · obtain rfl : _ = used := Option.some.inj hu
        exact .single heff
      · obtain ⟨us, hus, rfl⟩ := Option.map_eq_some_iff.1 hu
        exact .head heff (ih (hg.effect heff) hfresh hus)
      · obtain rfl : _ = used := Option.some.inj hu
        exact .single heff

/-- The write loop never passes an empty buffer when it starts with a non-empty one. -/
theorem sendCalls_own {e : Errno} {out rest : Bytes} {as : List SendAns}
    {used : List (Bytes × SendAns)} {d : Bool} (h : sendScan e out as = some (used, rest, d))
    (hout : out ≠ []) : ∀ k ∈ sendCalls p used, OwnIO p k := by
  intro k hk
  obtain ⟨u, hu, rfl⟩ := List.mem_map.1 hk
  exact ⟨rfl, (SendLoop.of_scan h).bufs hout u hu⟩

/-- **What a handler can give**, when it is called with the connection that was found for its event:
nothing is to be done, the connection is gone, the loop is not left, the calculation has no result,
or one of the things that the callbacks do. -/
inductive Outcome (L : Fd) (s : TcpServer) (p : Ptr) (ev : Event) (ans : Answers) :
    Handler → Run TcpServer → Prop
  | idle {k : Handler} : Outcome L s p ev ans k (.ok s)
  | dead {k : Handler} (hgone : s.Gone p) (hask : asks ev k = true) :
      Outcome L s p ev ans k (.error .dead)
  | waiting : Outcome L s p ev ans .read (.error .pending)
  | reading : Outcome L s p ev ans .read (.error (recvStop ans.recvs))
  | writing : Outcome L s p ev ans .write (.error (sendStop ans.sends))
  | fault (f : ArithFault) : Outcome L s p ev ans .read (.error (.arith f))
  | accepted {used : List AcceptAns} (hL : ev.fd = L) (hscan : acceptScan ans.accepts = some used) :
      Outcome L s p ev ans .read (.ok (used.foldl acceptStep s))
  | hangup {c : Connection} (hc : s.heap p = some c) (hs : c.sock = ev.fd) (hL : ev.fd ≠ L) :
      Outcome L s p ev ans .error (.ok (s.drop p ev.fd))
  | ended {c : Connection} {used : List RecvAns} (hc : s.heap p = some c) (hs : c.sock = ev.fd)
      (hL : ev.fd ≠ L) (hscan : recvScan ans.recvs = some (used, false)) :
      Outcome L s p ev ans .read (.ok ((s.logs (used.map (.recv p))).drop p ev.fd))
  | read {c : Connection} {used : List RecvAns} {out : Bytes} (hc : s.heap p = some c)
      (hs : c.sock = ev.fd) (hL : ev.fd ≠ L) (hscan : recvScan ans.recvs = some (used, true))
      (hout : replies ans.mem (splitMessage (c.inBuffer ++ recvData used) []).2 = .ok out) :
      Outcome L s p ev ans .read
        (.ok (s.handled p c used (splitMessage (c.inBuffer ++ recvData used) []).1
          (splitMessage (c.inBuffer ++ recvData used) []).2 out))
  | wrote {c : Connection} {used : List (Bytes × SendAns)} {rest : Bytes}
      (hc : s.heap p = some c) (hs : c.sock = ev.fd) (hL : ev.fd ≠ L) (hne : c.outBuffer ≠ [])
      (hscan : sendScan s.errno c.outBuffer ans.sends = some (used, rest, false)) :
      Outcome L s p ev ans .write (.ok (s.flushed p c used rest))
  | failed {c : Connection} {used : List (Bytes × SendAns)} {rest : Bytes}
      (hc : s.heap p = some c) (hs : c.sock = ev.fd) (hL : ev.fd ≠ L) (hne : c.outBuffer ≠ [])
      (hscan : sendScan s.errno c.outBuffer ans.sends = some (used, rest, true)) :
      Outcome L s p ev ans .write (.ok ((s.logs (sendCalls p used)).drop p ev.fd))

theorem handler_outcome (hg : Good L s) (hp : s.Pending p ev) :
    Outcome L s p ev ans k (s.handler k (some p) ev ans) := by
  by_cases hask : asks ev k = true
  swap
  · rw [handler_of_not_asks hask]
    exact .idle
  rcases hp with hgone | ⟨c, hc, hs, hr⟩
  · rw [handler_dead hgone.1, if_pos hask]
    exact .dead hgone hask
  have hreg : s.epoll c.sock ≠ none := hs ▸ hr.registered
  by_cases hL : c.sock = L
  · by_cases hk : k = .read
    · subst hk
      rw [handler_accept hg hc hL hask, accepter_eq]
      split
      · exact .waiting
      · rename_i used hscan
        exact .accepted (hs ▸ hL) hscan
    · rw [handler_listen hg hc hL hk]
      exact .idle
  · have hL' : ev.fd ≠ L := hs ▸ hL
    cases k with
    | error =>
      rw [handler_except hg hc hL hask, hs]
      exact .hangup hc hs hL'
    | read =>
      rw [handler_recv hg hc hL hask hreg]
      split
      · exact .reading
      · rename_i used hscan
        rw [hs]
        exact .ended hc hs hL' hscan
      · rename_i used hscan
        split
        · exact .fault _
        · rename_i out hout
          exact .read hc hs hL' hscan hout
    | write =>
      have hne : c.outBuffer ≠ [] := (hg.interest p c hc).1 (hs ▸ hr.wantsWrite hask)
      rw [handler_send hg hc hL hask hreg]
      split
      · exact .writing
      · rename_i used rest hscan
        exact .wrote hc hs hL' hne hscan
      · rename_i used rest hscan
        rw [hs]
        exact .failed hc hs hL' hne hscan

/-- **A handler that returns** has had effects of its own descriptor only. -/
theorem handler_effects (hg : Good L s) (hp : s.Pending p ev)
    (hfresh : k = .read → Fresh s.isOpen ans.accepts) (h : s.handler k (some p) ev ans = .ok s') :
    Effects L ev.fd k s s' := by
  have ho : Outcome L s p ev ans k _ := handler_outcome hg hp
  rw [h] at ho
  cases ho with
  | idle => exact .refl
  | accepted hL hscan =>
    rw [hL]
    exact accepts_effects hg (hfresh rfl) hscan
  | hangup hc hs hL =>
    exact .single (@Effect.closed _ _ _ _ _ _ [] hc hs hL (List.forall_mem_nil _))
  | ended hc hs hL hscan =>
    refine .single (.closed hc hs hL fun call hcall => ?_)
    obtain ⟨a, -, rfl⟩ := List.mem_map.1 hcall
    rfl
  | read hc hs hL hscan hout => exact .single (.read hc hs hL hscan rfl hout)
  | wrote hc hs hL hne hscan => exact .single (.wrote hc hs hL hne hscan)
  | failed hc hs hL hne hscan => exact .single (.closed hc hs hL (sendCalls_own hscan hne))

/-! ### What is left of a batch stays valid -/

/-- **Frame**: the effects of a handler leave the connections of other descriptors as they are. -/
theorem Effects.frame (he : Effects L fd k s s') (hg : Good L s) {q : Ptr} {d : Connection}
    (hd : s.heap q = some d) (hfd : d.sock ≠ fd ∨ d.sock = L) :
    s'.heap q = some d ∧ s'.epoll d.sock = s.epoll d.sock := by
  induction he with
  | refl => exact ⟨hd, rfl⟩
  | tail h1 h2 ih =>
    obtain ⟨h3, h4⟩ := h2.frame (hg.effects h1) ih.1 hfd
    exact ⟨h3, h4.trans ih.2⟩

theorem Reported.effects (hr : s.Reported ev) (he : Effects L fd k s s') (hg : Good L s)
    (hfd : ev.fd ≠ fd) : s'.Reported ev := by
  obtain ⟨q, d, -, hd, hs⟩ := hg.lookup hr
  have h := (Effects.frame he hg hd (Or.inl (hs ▸ hfd))).2
  rw [hs] at h
  rwa [Reported, h]

theorem Batch.effects {batch : List Event} (hb : s.Batch batch) (he : Effects L fd k s s')
    (hg : Good L s) (hfd : fd ∉ batch.map Event.fd) : s'.Batch batch where
  nodup := hb.nodup
  reported ev hev := (hb.reported ev hev).effects he hg fun h =>
    hfd (h ▸ List.mem_map_of_mem hev)

theorem Gone.effect {q : Ptr} (hq : s.Gone q) (he : Effect L fd s k s') : s'.Gone q := by
  obtain ⟨hnone, hlt⟩ := hq
  have hlive : ∀ {p : Ptr} {c : Connection}, s.heap p = some c → q ≠ p := by
    rintro p c hc rfl
    rw [hnone] at hc; cases hc
  cases he with
  | @accepted a hfd hfresh =>
    cases a with
    | fail e => exact ⟨hnone, hlt⟩
    | conn g added =>
      rw [Gone, acceptStep_heap, acceptStep_next, update_of_ne hlt.ne]
      exact ⟨hnone, hlt.trans (Nat.lt_succ_self _)⟩
  | read hc => simpa [Gone, hlive hc] using ⟨hnone, hlt⟩
  | wrote hc => simpa [Gone, hlive hc] using ⟨hnone, hlt⟩
  | closed hc => simpa [Gone, hlive hc] using ⟨hnone, hlt⟩

theorem Good.lt_next (hg : Good L s) (hc : s.heap p = some c) : p < s.next := by
  by_contra hle
  rw [hg.fresh p (Nat.le_of_not_lt hle)] at hc
  cases hc

/-- An effect of a handler other than the last leaves its connection gone or still reported. -/
theorem Pending.effect (hp : s.Pending p ev) (he : Effect L ev.fd s k s') (hg : Good L s)
    (hk : k ≠ .write) : s'.Pending p ev := by
  rcases hp with hdead | ⟨c, hc, hs, hr⟩
  · exact Or.inl (hdead.effect he)
  by_cases hL : c.sock = L
  · obtain ⟨h1, h2⟩ := he.frame hg hc (Or.inr hL)
    refine Or.inr ⟨c, h1, hs, ?_⟩
    rw [hs] at h2
    rwa [Reported, h2]
  cases he with
  | accepted hfd hfresh => exact absurd (hs.trans hfd) hL
  | @read p' c' as used rest out messages mem hc' hs' hL' hscan hsplit hout =>
    obtain rfl := hg.inj hc hc' (hs.trans hs'.symm)
    obtain rfl : c = c' := Option.some.inj (hc.symm.trans hc')
    refine Or.inr ⟨{ c with inBuffer := rest, outBuffer := c.outBuffer ++ out }, by simp, hs, ?_⟩
    rw [Reported, epoll_handled]
    split
    · exact hr
    · simp [hs]
  | wrote => exact absurd rfl hk
  | @closed k p' c' calls hc' hs' hL' hio =>
    obtain rfl := hg.inj hc hc' (hs.trans hs'.symm)
    left
    refine ⟨?_, ?_⟩
    · simp
    · simpa using hg.lt_next hc

theorem Pending.effects (hp : s.Pending p ev) (he : Effects L ev.fd k s s') (hg : Good L s)
    (hk : k ≠ .write) : s'.Pending p ev := by
  induction he with
  | refl => exact hp
  | tail h1 h2 ih => exact ih.effect h2 (hg.effects h1) hk

/-- The tasks that can be left of a batch. -/
inductive Ready (s : TcpServer) : List Task → Prop
  | events {evs : List Event} (hb : s.Batch evs) : Ready s (evs.map .event)
  | error {p : Ptr} {ev : Event} {evs : List Event} (hp : s.Pending p ev) (hb : s.Batch evs)
      (hfd : ev.fd ∉ evs.map Event.fd) : Ready s (handlers (some p) ev ++ evs.map .event)
  | read {p : Ptr} {ev : Event} {evs : List Event} (hp : s.Pending p ev) (hb : s.Batch evs)
      (hfd : ev.fd ∉ evs.map Event.fd) :
      Ready s (.handler .read (some p) ev :: .handler .write (some p) ev :: evs.map .event)
  | write {p : Ptr} {ev : Event} {evs : List Event} (hp : s.Pending p ev) (hb : s.Batch evs)
      (hfd : ev.fd ∉ evs.map Event.fd) :
      Ready s (.handler .write (some p) ev :: evs.map .event)

theorem Ready.reported {todo : List Task} (h : s.Ready todo) (hev : .event ev ∈ todo) :
    s.Reported ev := by
  cases h with
  | events hb => exact hb.reported ev (by simpa using hev)
  | error hp hb hfd => exact hb.reported ev (by simpa [handlers] using hev)
  | read hp hb hfd => exact hb.reported ev (by simpa using hev)
  | write hp hb hfd => exact hb.reported ev (by simpa using hev)

theorem Ready.pending {conn : Option Ptr} {todo : List Task}
    (h : s.Ready (.handler k conn ev :: todo)) : ∃ p, conn = some p ∧ s.Pending p ev := by
  generalize htodo : Task.handler k conn ev :: todo = ts at h
  cases h with
  | @events evs hb => cases evs <;> cases htodo
  | @error p ev' evs hp hb hfd => cases htodo; exact ⟨p, rfl, hp⟩
  | @read p ev' evs hp hb hfd => cases htodo; exact ⟨p, rfl, hp⟩
  | @write p ev' evs hp hb hfd => cases htodo; exact ⟨p, rfl, hp⟩

/-- **One step** of the loop: what is left of the batch stays valid, and the server changes by
effects. -/
theorem Ready.step {c c' : Config} (hr : c.server.Ready c.todo) (hg : Good L c.server)
    (hstep : Step c c') : c'.server.Ready c'.todo ∧ ∃ k fd, Effects L fd k c.server c'.server := by
  cases hstep with
  | wait hb => exact ⟨.events hb, .error, 0, .refl⟩
  | @lookup s ev todo =>
    refine ⟨?_, .error, 0, .refl⟩
    generalize htodo : Task.event ev :: todo = ts at hr
    cases hr with
    | @events evs hb =>
      cases evs with
      | nil => cases htodo
      | cons ev' evs =>
        obtain ⟨rfl, rfl⟩ : ev = ev' ∧ todo = evs.map .event := by simpa using htodo
        obtain ⟨hfd, hnd⟩ := List.nodup_cons.1 hb.nodup
        have hev := hb.reported ev (by simp)
        obtain ⟨p, d, hl, hd, hs⟩ := hg.lookup hev
        rw [hl]
        exact .error (Or.inr ⟨d, hd, hs, hev⟩)
          ⟨hnd, fun e he => hb.reported e (List.mem_cons_of_mem _ he)⟩ hfd
    | error => cases htodo
    | read => cases htodo
    | write => cases htodo
  | @handler s s' k conn ev ans todo hfresh hrun =>
    generalize htodo : Task.handler k conn ev :: todo = ts at hr
    cases hr with
    | @events evs hb => cases evs <;> cases htodo
    | @error p ev' evs hp hb hfd =>
      cases htodo
      have he := handler_effects hg hp hfresh hrun
      exact ⟨.read (hp.effects he hg (by decide)) (hb.effects he hg hfd) hfd, _, _, he⟩
    | @read p ev' evs hp hb hfd =>
      cases htodo
      have he := handler_effects hg hp hfresh hrun
      exact ⟨.write (hp.effects he hg (by decide)) (hb.effects he hg hfd) hfd, _, _, he⟩
    | @write p ev' evs hp hb hfd =>
      cases htodo
      have he := handler_effects hg hp hfresh hrun
      exact ⟨.events (hb.effects he hg hfd), _, _, he⟩

theorem Effects.invariant {P : TcpServer → Prop} (he : Effects L fd k s s') (hg : Good L s)
    (heffect : ∀ {s s' k fd}, Good L s → Effect L fd s k s' → P s → P s') (hP : P s) : P s' := by
  induction he with
  | refl => exact hP
  | tail h1 h2 ih => exact heffect (hg.effects h1) h2 ih

end TcpServer

section Reach

variable {L : Fd} {c : Config}

open TcpServer

theorem Reach.inv (h : Reach L c) : Good L c.server ∧ c.server.Ready c.todo := by
  induction h with
  | refl => exact ⟨.init L, @Ready.events _ [] ⟨List.nodup_nil, List.forall_mem_nil _⟩⟩
  | tail _ hstep ih =>
    obtain ⟨hr, k, fd, he⟩ := ih.2.step ih.1 hstep
    exact ⟨ih.1.effects he, hr⟩

theorem Reach.good (h : Reach L c) : Good L c.server := h.inv.1

theorem Reach.ready (h : Reach L c) : c.server.Ready c.todo := h.inv.2

/-- **The rule for invariants**: what every effect on a good state keeps holds in every reachable
configuration. -/
theorem Reach.invariant {P : TcpServer → Prop} (h0 : P (TcpServer.init L))
    (heffect : ∀ {s s' k fd}, Good L s → Effect L fd s k s' → P s → P s') (h : Reach L c) :
    P c.server := by
  induction h with
  | refl => exact h0
  | tail hr hstep ih =>
    have hinv := Reach.inv hr
    obtain ⟨-, k, fd, he⟩ := hinv.2.step hinv.1 hstep
    exact Effects.invariant he hinv.1 heffect ih

end Reach

/-! ### `HandlerEvents` is a run -/

namespace TcpServer

variable {L : Fd} {s s' : TcpServer} {p : Ptr} {ev : Event} {ans : Answers}

theorem handlerEvent_eq (s : TcpServer) (ev : Event) (ans : Answers) {conn : Option Ptr}
    (hl : s.lookup ev.fd = conn) : s.handlerEvent ev ans = (do
      let s ← s.handler .error conn ev ans
      let s ← s.handler .read conn ev ans
      s.handler .write conn ev ans) := by
  subst hl; rfl

theorem Effects.isOpen_error {fd : Fd} (he : Effects L fd .error s s') (g : Fd)
    (hg : s'.isOpen g = true) : s.isOpen g = true := by
  induction he with
  | refl => exact hg
  | tail h1 h2 ih =>
    apply ih
    cases h2 with
    | @closed k p c calls hc hs hL hio =>
      by_cases hgf : g = fd
      · simp [hgf] at hg
      · simpa [hgf] using hg

theorem handlerEvent_steps {todo : List Task} (hr : Reach L ⟨s, .event ev :: todo⟩)
    (hfresh : Fresh s.isOpen ans.accepts) (h : s.handlerEvent ev ans = .ok s') :
    Reach L ⟨s', todo⟩ := by
  have h0 : Reach L ⟨s, handlers (s.lookup ev.fd) ev ++ todo⟩ := hr.tail .lookup
  rw [handlerEvent_eq s ev ans rfl] at h
  obtain ⟨s1, h1, h⟩ := bind_eq_ok.1 h
  obtain ⟨s2, h2, h3⟩ := bind_eq_ok.1 h
  have hr1 := h0.tail (.handler (by simp) h1)
  refine (hr1.tail (.handler (fun _ => ?_) h2)).tail (.handler (by simp) h3)
  have hrep : s.Reported ev := hr.ready.reported List.mem_cons_self
  obtain ⟨p, c, hl, hc, hs⟩ := hr.good.lookup hrep
  rw [hl] at h1
  have he := handler_effects hr.good (Or.inr ⟨c, hc, hs, hrep⟩) (by simp) h1
  exact hfresh.mono (Effects.isOpen_error he)

/-- The descriptors that `accept` gives are fresh at each event of the batch. -/
def FreshBatch (s : TcpServer) (batch : List (Event × Answers)) : Prop :=
  ∀ done ev ans rest s', batch = done ++ (ev, ans) :: rest → s.handlerEvents done = .ok s' →
    Fresh s'.isOpen ans.accepts

theorem FreshBatch.tail {batch : List (Event × Answers)} (h : s.FreshBatch ((ev, ans) :: batch))
    (h1 : s.handlerEvent ev ans = .ok s') : s'.FreshBatch batch := by
  intro done ev' ans' rest s'' hb hd
  apply h ((ev, ans) :: done) ev' ans' rest s'' (by rw [hb]; rfl)
  rw [handlerEvents, h1]
  exact hd

/-- **A batch that `HandlerEvents` completes is a run.** -/
theorem handlerEvents_steps {batch : List (Event × Answers)} {todo : List Task}
    (hr : Reach L ⟨s, batch.map (fun b => .event b.1) ++ todo⟩) (hfresh : s.FreshBatch batch)
    (h : s.handlerEvents batch = .ok s') : Reach L ⟨s', todo⟩ := by
  induction batch generalizing s with
  | nil => cases h; exact hr
  | cons b batch ih =>
    obtain ⟨ev, ans⟩ := b
    obtain ⟨s1, h1, h2⟩ := bind_eq_ok.1 h
    exact ih (handlerEvent_steps hr (hfresh [] ev ans batch s rfl rfl) h1) (hfresh.tail h1) h2

/-- One round of the dispatch loop. -/
theorem reach_round {batch : List (Event × Answers)} (hr : Reach L ⟨s, []⟩)
    (hb : s.Batch (batch.map Prod.fst)) (hfresh : s.FreshBatch batch)
    (h : s.handlerEvents batch = .ok s') : Reach L ⟨s', []⟩ := by
  refine handlerEvents_steps ?_ hfresh h
  have := hr.tail (.wait hb)
  rwa [List.map_map, ← List.append_nil (List.map _ _)] at this

theorem Batch.single (h : s.Reported ev) : s.Batch [ev] where
  nodup := List.nodup_singleton _
  reported e he := by rwa [List.mem_singleton.1 he]

theorem FreshBatch.single (h : Fresh s.isOpen ans.accepts) : s.FreshBatch [(ev, ans)] := by
  intro done ev' ans' rest s' hb hd
  cases done with
  | nil => cases hb; cases hd; exact h
  | cons b done => cases done <;> cases hb

/-- The server that listens on 3 after it has accepted one client, on 5. -/
def oneClient : TcpServer := ((init 3).acceptStep (.conn 5 true)).acceptStep (.fail .EAGAIN)

theorem reach_oneClient : Reach 3 ⟨oneClient, []⟩ :=
  reach_round .refl (.single ⟨_, rfl, by decide, by decide⟩)
    (@FreshBatch.single (init 3) ⟨3, { epollin := true }⟩
      { accepts := [.conn 5 true, .fail .EAGAIN] } ⟨rfl, trivial⟩) rfl

/-- `oneClient` after it has read the request `1 + 1`, whose answer `2` is to be written. -/
def oneReply : TcpServer :=
  oneClient.handled 1 (newClient 5)
    [.bytes [53, 13, 10, 49, 32, 43, 32, 49, 13, 10], .fail .EAGAIN] [] [[49, 32, 43, 32, 49]]
    [51, 13, 10, 48, 32, 50, 13, 10]

theorem oneReply_trace : oneReply.trace =
    [.insert 3 true, .accept (.conn 5 true), .insert 5 true, .accept (.fail .EAGAIN),
      .recv 1 (.bytes [53, 13, 10, 49, 32, 43, 32, 49, 13, 10]), .recv 1 (.fail .EAGAIN),
      .handler 1 [49, 32, 43, 32, 49]] := trace_handled ..

theorem reach_oneReply : Reach 3 ⟨oneReply, []⟩ := by
  have hfresh := @FreshBatch.single oneClient ⟨5, { epollin := true }⟩
    { recvs := [.bytes [53, 13, 10, 49, 32, 43, 32, 49, 13, 10], .fail .EAGAIN] } trivial
  refine reach_round reach_oneClient (.single ⟨_, rfl, by decide, by decide⟩) hfresh ?_
  have hc : oneClient.heap 1 = some (newClient 5) := rfl
  have hread : oneClient.handler .read (some 1) ⟨5, { epollin := true }⟩
      { recvs := [.bytes [53, 13, 10, 49, 32, 43, 32, 49, 13, 10], .fail .EAGAIN] } =
        .ok oneReply :=
    handler_recv reach_oneClient.good hc (by decide) rfl (Option.some_ne_none _)
  refine bind_eq_ok.2 ⟨oneReply, ?_, rfl⟩
  exact bind_eq_ok.2 ⟨oneClient, rfl, bind_eq_ok.2 ⟨oneReply, hread, rfl⟩⟩

end TcpServer

end NetProg.Reactor
