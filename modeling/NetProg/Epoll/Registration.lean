import NetProg.Epoll.EpollServer
import NetProg.Reactor.Store

/-!
# Accepted descriptors that could not be registered

Both epoll servers ignore the result of `EPOLL_CTL_ADD` on a descriptor that they have accepted.
When it fails, the descriptor stays open and no event will be reported on it, so nothing closes it
any more; when it succeeds, the descriptor is registered as long as it is open.

* `Good`, `Reach.good`: what holds of the epoll server between events;
* `Reactor.Lost`: what a failed registration leaves behind in the Reactor;
* `registered_or_closed_iff`: no descriptor is left open and unregistered exactly when no
  registration has failed.
-/

namespace NetProg.Epoll

open NetProg.Lib NetProg.Reactor Function

variable {L fd g : Fd} {s : EpollServer} {c c' : Config} {ev : Event} {ans : Answers}

/-! ### The epoll server -/

/-- What holds between two events of a server that listens on `L`. -/
structure Good (L : Fd) (s : EpollServer) : Prop where
  listenSock : s.listenSock = L
  listening : s.registered L = true
  isOpen : ∀ fd, s.registered fd = true → s.isOpen fd = true
  /-- While every registration has succeeded, every open descriptor is registered. -/
  added : (∀ fd ok, .ctl .EPOLL_CTL_ADD fd ok ∈ s.trace → ok = true) →
    ∀ fd, s.isOpen fd = true → s.registered fd = true
  /-- A descriptor whose registration failed was accepted, and is open and unregistered. -/
  lost : ∀ fd, .ctl .EPOLL_CTL_ADD fd false ∈ s.trace →
    .accept (some fd) ∈ s.trace ∧ s.isOpen fd = true ∧ s.registered fd = false

theorem Good.init (L : Fd) : Good L (.init L) where
  listenSock := rfl
  listening := by simp [EpollServer.init]
  isOpen := fun _ h => h
  added := fun _ _ h => h
  lost := fun _ h => absurd h List.not_mem_nil

theorem Good.of_trace (h : Good L s) {calls : List Call}
    (hno : ∀ fd ok, .ctl .EPOLL_CTL_ADD fd ok ∉ calls) :
    Good L { s with trace := s.trace ++ calls } where
  listenSock := h.listenSock
  listening := h.listening
  isOpen := h.isOpen
  added hok := h.added fun fd ok hm => hok fd ok (List.mem_append_left _ hm)
  lost fd hm := by
    obtain ⟨h1, h2⟩ := h.lost fd ((List.mem_append.1 hm).resolve_right (hno fd false))
    exact ⟨List.mem_append_left _ h1, h2⟩

theorem accepter_eq (hreg : s.registered g = false) (granted : Bool) :
    s.accepter (some (g, granted)) =
      { s with registered := if granted then update s.registered g true else s.registered,
               isOpen := update s.isOpen g true,
               trace := s.trace ++ [.accept (some g), .ctl .EPOLL_CTL_ADD g granted] } := by
  cases granted <;> simp [EpollServer.accepter, EpollServer.epollCtl, EpollServer.log, hreg]

theorem recver_eq (hreg : s.registered fd = true) (a : RecvAns) :
    (∃ text, s.recver fd a = { s with trace := s.trace ++ [.recv fd a, .request fd text] }) ∨
      s.recver fd a = { s with
        registered := update s.registered fd false, isOpen := update s.isOpen fd false,
        trace := s.trace ++ [.recv fd a, .ctl .EPOLL_CTL_DEL fd true, .close fd] } := by
  cases a with
  | fail e =>
    exact Or.inr (by simp [EpollServer.recver, EpollServer.epollCtl, EpollServer.close,
      EpollServer.log, hreg])
  | bytes buff =>
    by_cases hlen : buff.length > 0
    · refine Or.inl ⟨cStr buff, ?_⟩
      simp only [EpollServer.recver, EpollServer.log, if_pos hlen, List.append_assoc]
      rfl
    · refine Or.inr ?_
      simp only [EpollServer.recver, if_neg hlen]
      simp [EpollServer.epollCtl, EpollServer.close, EpollServer.log, hreg]

theorem Good.accept (h : Good L s) (hfresh : s.isOpen g = false) (granted : Bool) :
    Good L (s.accepter (some (g, granted))) ∧
      ∀ fd, s.registered fd = true → (s.accepter (some (g, granted))).registered fd = true := by
  have hreg : s.registered g = false := by
    by_contra hc
    rw [h.isOpen g (by simpa using hc)] at hfresh
    cases hfresh
  have hkeep : ∀ fd, s.registered fd = true →
      (if granted then update s.registered g true else s.registered) fd = true := by
    intro fd hfd
    split
    · rw [update_apply]
      split <;> simp [hfd]
    · exact hfd
  rw [accepter_eq hreg]
  refine ⟨⟨h.listenSock, hkeep L h.listening, fun fd hfd => ?_, fun hok fd hfd => ?_,
    fun fd hm => ?_⟩, hkeep⟩
  · dsimp only at hfd ⊢
    rw [update_apply]
    split
    · rfl
    · rename_i hne
      apply h.isOpen
      split at hfd
      · rwa [update_of_ne hne] at hfd
      · exact hfd
  · obtain rfl : granted = true := hok g granted (by simp)
    dsimp only at hfd ⊢
    rw [if_pos rfl, update_apply]
    split
    · rfl
    · rename_i hne
      rw [update_of_ne hne] at hfd
      exact h.added (fun fd ok hm => hok fd ok (by simp [hm])) fd hfd
  · dsimp only at hm ⊢
    by_cases hfg : fd = g
    · subst hfg
      refine ⟨by simp, update_self .., ?_⟩
      rcases List.mem_append.1 hm with hm | hm
      · -- it was open then, and is not a descriptor that `accept` gives
        rw [(h.lost fd hm).2.1] at hfresh
        cases hfresh
      · obtain rfl : granted = false := by simpa using hm
        exact hreg
    · have hm : .ctl .EPOLL_CTL_ADD fd false ∈ s.trace := by simpa [hfg] using hm
      obtain ⟨h1, h2, h3⟩ := h.lost fd hm
      refine ⟨by simp [h1], by rwa [update_of_ne hfg], ?_⟩
      split
      · rwa [update_of_ne hfg]
      · exact h3

/-- **A registered client is read**; when its connection ends only its own descriptor changes. -/
theorem Good.recver (h : Good L s) (hreg : s.registered fd = true) (hL : fd ≠ L) (a : RecvAns) :
    Good L (s.recver fd a) ∧
      ∀ g, g ≠ fd → s.registered g = true → (s.recver fd a).registered g = true := by
  rcases recver_eq hreg a with ⟨text, he⟩ | he
  · rw [he]
    exact ⟨h.of_trace (by simp), fun _ _ hg => hg⟩
  · rw [he]
    refine ⟨⟨h.listenSock, ?_, fun g hg => ?_, fun hok g hg => ?_, fun g hm => ?_⟩,
      fun g hgf hg => ?_⟩
    · dsimp only
      rw [update_of_ne hL.symm]
      exact h.listening
    · dsimp only at hg ⊢
      rw [update_apply] at hg ⊢
      split at hg
      · cases hg
      · rename_i hne
        rw [if_neg hne]
        exact h.isOpen g hg
    · dsimp only at hg ⊢
      rw [update_apply] at hg ⊢
      split at hg
      · cases hg
      · rename_i hne
        rw [if_neg hne]
        exact h.added (fun fd ok hm => hok fd ok (by simp [hm])) g hg
    · have hm : .ctl .EPOLL_CTL_ADD g false ∈ s.trace := by simpa using hm
      obtain ⟨h1, h2, h3⟩ := h.lost g hm
      have hne : g ≠ fd := by
        rintro rfl
        rw [hreg] at h3
        cases h3
      dsimp only
      rw [update_of_ne hne, update_of_ne hne]
      exact ⟨by simp [h1], h2, h3⟩
    · dsimp only
      rwa [update_of_ne hgf]

theorem Good.handlerEvent (h : Good L s) (hreg : s.registered ev.fd = true)
    (hfresh : ∀ fd granted, ans.accept = some (fd, granted) → s.isOpen fd = false) :
    Good L (s.handlerEvent ev ans) ∧
      ∀ g, g ≠ ev.fd → s.registered g = true → (s.handlerEvent ev ans).registered g = true := by
  unfold EpollServer.handlerEvent
  split
  · split
    · cases ha : ans.accept with
      | none => exact ⟨h.of_trace (by simp), fun _ _ hg => hg⟩
      | some r =>
        obtain ⟨hgood, hkeep⟩ := h.accept (hfresh r.1 r.2 ha) r.2
        exact ⟨hgood, fun g _ hg => hkeep g hg⟩
    · rename_i hL
      rw [h.listenSock] at hL
      exact h.recver hreg hL ans.recv
  · exact ⟨h, fun _ _ hg => hg⟩

/-- Between two events: the rest of the batch is about other registered descriptors. -/
structure Held (L : Fd) (c : Config) : Prop where
  good : Good L c.server
  nodup : (c.todo.map Event.fd).Nodup
  ready : ∀ ev ∈ c.todo, c.server.registered ev.fd = true

theorem held_invariant (L : Fd) : Invariant (fun c => c = ⟨.init L, []⟩) Step (Held L) where
  init := by
    rintro _ rfl
    exact ⟨.init L, List.nodup_nil, fun _ h => absurd h List.not_mem_nil⟩
  step := by
    intro c c' h hstep
    cases hstep with
    | wait hnodup hreg => exact ⟨h.good, hnodup, hreg⟩
    | @event s ev ans todo hfresh =>
      obtain ⟨hnot, hnodup⟩ := List.nodup_cons.1 h.nodup
      obtain ⟨hgood, hkeep⟩ := h.good.handlerEvent (h.ready ev List.mem_cons_self) hfresh
      refine ⟨hgood, hnodup, fun ev' hev' => hkeep _ ?_ (h.ready ev' (List.mem_cons_of_mem _ hev'))⟩
      exact fun he => hnot (he ▸ List.mem_map_of_mem hev')

theorem Reach.good (h : Reach L c) : Good L c.server := ((held_invariant L).reachable h).good

/-- **The epoll server**: every accepted descriptor is closed or registered exactly when every
registration has succeeded so far. -/
theorem Reach.closed_or_registered_iff (h : Reach L c) :
    (∀ fd, .accept (some fd) ∈ c.server.trace →
      c.server.isOpen fd = false ∨ c.server.registered fd = true) ↔
    ∀ fd ok, .ctl .EPOLL_CTL_ADD fd ok ∈ c.server.trace → ok = true := by
  have hg := h.good
  constructor
  · intro hall fd ok hm
    cases ok with
    | true => rfl
    | false =>
      obtain ⟨h1, h2, h3⟩ := hg.lost fd hm
      rcases hall fd h1 with hc | hc
      · rw [h2] at hc; cases hc
      · rw [h3] at hc; cases hc
  · intro hok fd _
    cases ho : c.server.isOpen fd with
    | false => exact Or.inl rfl
    | true => exact Or.inr (hg.added hok fd ho)

end NetProg.Epoll

namespace NetProg.Reactor

open NetProg.Lib Function Relation TcpServer

variable {L fd g : Fd} {s s' : TcpServer} {k : Handler} {c c' : Config}

/-! ### The Reactor -/

theorem TcpServer.Ready.step_registered (hr : c.server.Ready c.todo) (hg : Good L c.server)
    (hstep : Step c c') : c'.server = c.server ∨
      ∃ k fd, c.server.epoll fd ≠ none ∧ Effects L fd k c.server c'.server := by
  cases hstep with
  | wait hb => exact Or.inl rfl
  | lookup => exact Or.inl rfl
  | @handler s s' k conn ev ans todo hfresh hrun =>
    obtain ⟨p, rfl, hp⟩ := hr.pending
    rcases hp with hgone | ⟨d, hd, hs, hrep⟩
    · rw [handler_dead hgone.1] at hrun
      split at hrun
      · cases hrun
      · exact Or.inl (Except.ok.inj hrun).symm
    · exact Or.inr ⟨k, ev.fd, hrep.registered,
        handler_effects hg (Or.inr ⟨d, hd, hs, hrep⟩) hfresh hrun⟩

/-- The descriptors whose registration failed are open and unregistered, and not `fd`. -/
def Lost (L fd : Fd) (s : TcpServer) : Prop :=
  ∀ g, .accept (.conn g false) ∈ s.trace →
    g ≠ fd ∧ g ≠ L ∧ s.isOpen g = true ∧ s.epoll g = none

/-- A descriptor that `accept` gives joins the lost ones when its registration fails, and keeps the
others as they are. -/
theorem Lost.acceptStep {a : AcceptAns} (h : Lost L L s) (hg : TcpServer.Good L s)
    (hfresh : ∀ g added, a = .conn g added → s.isOpen g = false) : Lost L L (s.acceptStep a) := by
  cases a with
  | fail e =>
    intro g hm
    exact h g (by simpa [acceptStep_trace] using hm)
  | conn g' added =>
    have hnew := hfresh g' added rfl
    have hgL : g' ≠ L := by
      rintro rfl
      rw [hg.listening] at hnew
      cases hnew
    intro g hm
    rw [acceptStep_isOpen, acceptStep_epoll]
    by_cases hgg : g = g'
    · subst hgg
      refine ⟨hgL, hgL, update_self .., ?_⟩
      rw [acceptStep_trace] at hm
      rcases List.mem_append.1 hm with hm | hm
      · -- it was open then, and is not a descriptor that `accept` gives
        rw [(h g hm).2.2.1] at hnew
        cases hnew
      · obtain rfl : added = false := by simpa using hm
        rw [if_neg (by simp)]
        exact (hg.absent hnew).2
    · obtain ⟨h1, h2, h3, h4⟩ := h g (by simpa [acceptStep_trace, hgg] using hm)
      refine ⟨h1, h2, by rwa [update_of_ne hgg], ?_⟩
      split
      · rwa [update_of_ne hgg]
      · exact h4

/-- An effect on one descriptor adds no `accept` to the trace, except on the listening one. -/
theorem Lost.effect (h : Lost L fd s) (hg : TcpServer.Good L s) (he : Effect L fd s k s') :
    Lost L fd s' := by
  cases he with
  | accepted hfd hfresh =>
    subst hfd
    exact h.acceptStep hg hfresh
  | @read p c as used rest out messages mem hc hs hL hscan hsplit hout =>
    intro g hm
    obtain ⟨h1, h2, h3, h4⟩ := h g (by simpa using hm)
    refine ⟨h1, h2, by simpa using h3, ?_⟩
    rw [epoll_handled]
    split
    · exact h4
    · rw [hs, update_of_ne h1]
      exact h4
  | @wrote p c as used rest hc hs hL hne hscan =>
    intro g hm
    have hmem : .accept (.conn g false) ∈ s.trace := by
      rw [trace_flushed] at hm
      refine (List.mem_append.1 hm).resolve_right fun hsend => ?_
      have hio := sendCalls_io p used _ hsend
      cases hio
    obtain ⟨h1, h2, h3, h4⟩ := h g hmem
    refine ⟨h1, h2, by simpa using h3, ?_⟩
    rw [epoll_flushed, hs, update_of_ne h1]
    exact h4
  | @closed k p c calls hc hs hL hio =>
    intro g hm
    have hmem : .accept (.conn g false) ∈ s.trace := by
      rw [trace_drop, trace_logs] at hm
      have hm : .accept (.conn g false) ∈ s.trace ∨ .accept (.conn g false) ∈ calls := by
        simpa using hm
      exact hm.resolve_right fun hcall => (hio _ hcall).elim
    obtain ⟨h1, h2, h3, h4⟩ := h g hmem
    refine ⟨h1, h2, ?_, ?_⟩
    · simpa [h1] using h3
    · simpa [h1] using h4

theorem Lost.effects (h : Lost L fd s) (hg : TcpServer.Good L s) (he : Effects L fd k s s') :
    Lost L fd s' := by
  induction he with
  | refl => exact h
  | tail h1 h2 ih => exact ih.effect (hg.effects h1) h2

/-- **What a failed registration leaves behind**, in every reachable configuration: the accepted
descriptor is open, and no event will be reported on it. -/
theorem Reach.lost (h : Reach L c) :
    ∀ g, .accept (.conn g false) ∈ c.server.trace →
      g ≠ L ∧ c.server.isOpen g = true ∧ c.server.epoll g = none := by
  induction h with
  | refl =>
    intro g hm
    have htrace : (TcpServer.init L).trace = [.insert L true] := rfl
    rw [htrace] at hm
    simp at hm
  | @tail c c' hr hstep ih =>
    have hr : Reach L c := hr
    rcases hr.ready.step_registered hr.good hstep with he | ⟨k, fd, hreg, he⟩
    · rwa [he]
    · have hlost : Lost L fd c.server := fun g hm => by
        obtain ⟨h1, h2, h3⟩ := ih g hm
        exact ⟨fun hgf => hreg (hgf ▸ h3), h1, h2, h3⟩
      exact fun g hm => (hlost.effects hr.good he g hm).2

/-- **The Reactor**: every accepted descriptor is closed or registered, and in `_connections` just
when it is registered, exactly when every registration has succeeded so far. -/
theorem Reach.closed_or_registered_iff (h : Reach L c) :
    ((∀ fd ok, .accept (.conn fd ok) ∈ c.server.trace →
        c.server.isOpen fd = false ∨ c.server.epoll fd ≠ none) ∧
      ∀ fd, c.server.connIsExists fd = true ↔ c.server.epoll fd ≠ none) ↔
    ∀ fd ok, .accept (.conn fd ok) ∈ c.server.trace → ok = true := by
  have hg := h.good
  constructor
  · rintro ⟨hall, -⟩ fd ok hm
    cases ok with
    | true => rfl
    | false =>
      obtain ⟨-, h2, h3⟩ := h.lost fd hm
      rcases hall fd false hm with hc | hc
      · rw [h2] at hc; cases hc
      · exact absurd h3 hc
  · intro hok
    have hadded := (Reach.ledger h).added hok
    refine ⟨fun fd ok _ => ?_, fun fd => ?_⟩
    · cases ho : c.server.isOpen fd with
      | false => exact Or.inl rfl
      | true => exact Or.inr (hadded fd ho)
    · rw [hg.keys]
      refine ⟨hadded fd, fun hne => ?_⟩
      obtain ⟨e, he⟩ := Option.ne_none_iff_exists'.1 hne
      exact hg.registered fd e he

end NetProg.Reactor

namespace NetProg.Epoll

open NetProg.Lib

/-! ### Both servers -/

/-- **When accepting leaks no descriptor.** In every state of every run of the two servers the
accepted descriptors are closed or registered, and those of the Reactor in `_connections` exactly
when they are registered, exactly when no registration has failed so far. -/
theorem registered_or_closed_iff (L : Fd) :
    (∀ c : Config, Reach L c →
      ((∀ fd, .accept (some fd) ∈ c.server.trace →
          c.server.isOpen fd = false ∨ c.server.registered fd = true) ↔
        ∀ fd ok, .ctl .EPOLL_CTL_ADD fd ok ∈ c.server.trace → ok = true)) ∧
    (∀ c : Reactor.Config, Reactor.Reach L c →
      (((∀ fd ok, .accept (.conn fd ok) ∈ c.server.trace →
          c.server.isOpen fd = false ∨ c.server.epoll fd ≠ none) ∧
        ∀ fd, c.server.connIsExists fd = true ↔ c.server.epoll fd ≠ none) ↔
        ∀ fd ok, .accept (.conn fd ok) ∈ c.server.trace → ok = true)) :=
  ⟨fun _ h => h.closed_or_registered_iff, fun _ h => h.closed_or_registered_iff⟩

/-- A client is accepted on 5. -/
def oneClient (granted : Bool) : EpollServer :=
  (EpollServer.init 3).handlerEvents [(⟨3, true⟩, { accept := some (5, granted) })]

theorem reach_oneClient (granted : Bool) : Reach 3 ⟨oneClient granted, []⟩ := by
  have hinit : Reach 3 ⟨.init 3, []⟩ := .start rfl
  have hwait : Step ⟨.init 3, []⟩ ⟨.init 3, [⟨3, true⟩]⟩ :=
    .wait (List.nodup_singleton _) (List.forall_mem_singleton.2 rfl)
  apply reach_handlerEvents (hinit.next hwait)
  intro before ev ans rest hrevs fd g hg
  cases before with
  | nil => cases hrevs; cases hg; rfl
  | cons x before => cases before <;> cases hrevs

theorem reach_oneClient_reactor (added : Bool) :
    Reactor.Reach 3 ⟨((Reactor.TcpServer.init 3).acceptStep (.conn 5 added)).acceptStep
      (.fail .EAGAIN), []⟩ := by
  refine Reactor.TcpServer.reach_round .refl
    (.single ⟨_, rfl, fun _ => rfl, fun h => by cases h⟩)
    (@Reactor.TcpServer.FreshBatch.single (.init 3) ⟨3, { epollin := true }⟩
      { accepts := [.conn 5 added, .fail .EAGAIN] } ⟨rfl, trivial⟩) ?_
  cases added <;> rfl

/-- One client, registered. -/
theorem registered_or_closed_iff_client :
    ((∀ fd, .accept (some fd) ∈ (oneClient true).trace →
        (oneClient true).isOpen fd = false ∨ (oneClient true).registered fd = true) ↔
      ∀ fd ok, .ctl .EPOLL_CTL_ADD fd ok ∈ (oneClient true).trace → ok = true) ∧
    (((∀ fd ok, .accept (.conn fd ok) ∈ Reactor.TcpServer.oneClient.trace →
        Reactor.TcpServer.oneClient.isOpen fd = false ∨
          Reactor.TcpServer.oneClient.epoll fd ≠ none) ∧
      ∀ fd, Reactor.TcpServer.oneClient.connIsExists fd = true ↔
        Reactor.TcpServer.oneClient.epoll fd ≠ none) ↔
      ∀ fd ok, .accept (.conn fd ok) ∈ Reactor.TcpServer.oneClient.trace → ok = true) :=
  ⟨(registered_or_closed_iff 3).1 _ (reach_oneClient true),
    (registered_or_closed_iff 3).2 _ Reactor.TcpServer.reach_oneClient⟩

/-- The client on 5 could not be registered: it is open, and no event can come. -/
theorem not_registered_or_closed :
    (¬ ∀ c : Config, Reach 3 c → ∀ fd, .accept (some fd) ∈ c.server.trace →
      c.server.isOpen fd = false ∨ c.server.registered fd = true) ∧
    ¬ ∀ c : Reactor.Config, Reactor.Reach 3 c → ∀ fd ok,
      .accept (.conn fd ok) ∈ c.server.trace →
        c.server.isOpen fd = false ∨ c.server.epoll fd ≠ none := by
  constructor
  · intro h
    have := h _ (reach_oneClient false) 5 (by decide)
    exact absurd this (by decide)
  · intro h
    have := h _ (reach_oneClient_reactor false) 5 false (by decide)
    exact absurd this (by decide)

end NetProg.Epoll
