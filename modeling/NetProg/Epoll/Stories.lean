import NetProg.Epoll.Registration
import NetProg.Multiplex.Stories

/-!
# The stories of the epoll server

The epoll server has no table, and its events come in batches: while one is handled, descriptors of
the same batch may be closed and their numbers given out again. Still every descriptor has the same
kind of story as in the other two servers, and an event is handled for the connection that it was
reported for.

* `Did`: what handling an event does to the descriptors;
* `Batch`: a batch, with the server as it was when the batch was reported;
* `epoll_stories`: every descriptor has a story, and no event is stale.
-/

namespace NetProg.Epoll

open NetProg.Lib NetProg.Reactor Function
open NetProg.Multiplex (Act Story turn turn_of_quits turn_of_ne_nil pieces texts)

/-! ### What an event does -/

def Call.act (fd : Fd) : Call → Option Act
  | .accept r => if r = some fd then some .accepted else none
  | .ctl _ _ _ => none
  | .recv sock a => if sock = fd then some (.read a) else none
  | .request sock text => if sock = fd then some (.told text) else none
  | .close sock => if sock = fd then some .closed else none

/-- The acts on `fd` in a trace. -/
def acts (trace : List Call) (fd : Fd) : List Act := trace.filterMap (Call.act fd)

/-- The connection is closed on this result of `recv`. -/
abbrev quits : RecvAns → Bool := Multiplex.Table.quits

/-- What handling an event has done to the descriptors. -/
inductive Did (L : Fd) (s s' : EpollServer) (ev : Event) (ans : Answers) : Prop
  | idle (hidle : ev.epollin = true → ev.fd = L ∧ ans.accept = none) (ho : s'.isOpen = s.isOpen)
      (hr : s'.registered = s.registered) (ha : acts s'.trace = acts s.trace)
  | took {g : Fd} {granted : Bool} (hin : ev.epollin = true) (hL : ev.fd = L)
      (hans : ans.accept = some (g, granted)) (hg : s.isOpen g = false)
      (ho : s'.isOpen = update s.isOpen g true)
      (hr : s'.registered = update s.registered g granted)
      (ha : acts s'.trace = update (acts s.trace) g (acts s.trace g ++ [.accepted]))
  | served (hin : ev.epollin = true) (hL : ev.fd ≠ L)
      (ho : s'.isOpen = update s.isOpen ev.fd (!quits ans.recv))
      (hr : s'.registered = update s.registered ev.fd (!quits ans.recv))
      (ha : acts s'.trace =
        update (acts s.trace) ev.fd (acts s.trace ev.fd ++ turn ans.recv))

variable {L fd g : Fd} {s s' : EpollServer} {c c' : Config} {ev : Event} {ans : Answers}

theorem acts_append_of (trace : List Call) {calls : List Call} {l : List Act}
    (hfd : calls.filterMap (Call.act fd) = l)
    (hother : ∀ g, g ≠ fd → calls.filterMap (Call.act g) = []) :
    acts (trace ++ calls) = update (acts trace) fd (acts trace fd ++ l) := by
  funext g
  unfold acts
  rw [List.filterMap_append, update_apply]
  split
  · rename_i hg
    rw [hg, hfd]
  · rename_i hg
    rw [hother g hg, List.append_nil]

theorem recver_did (hreg : s.registered fd = true) (hopen : s.isOpen fd = true) (a : RecvAns) :
    (s.recver fd a).isOpen = update s.isOpen fd (!quits a) ∧
      (s.recver fd a).registered = update s.registered fd (!quits a) ∧
      acts (s.recver fd a).trace = update (acts s.trace) fd (acts s.trace fd ++ turn a) := by
  have hleft : quits a = true →
      acts (s.trace ++ [.recv fd a, .ctl .EPOLL_CTL_DEL fd true, .close fd]) =
        update (acts s.trace) fd (acts s.trace fd ++ turn a) := by
    intro hq
    rw [turn_of_quits hq]
    exact acts_append_of s.trace (by simp [Call.act, List.filterMap_cons]) fun g hg => by
      simp [Call.act, Ne.symm hg]
  cases a with
  | fail e =>
    rcases recver_eq hreg (.fail e) with ⟨text, he⟩ | he
    · simp [EpollServer.recver, EpollServer.epollCtl, EpollServer.close, EpollServer.log,
        hreg] at he
    · rw [he]
      exact ⟨rfl, rfl, hleft rfl⟩
  | bytes buff =>
    by_cases hb : buff = []
    · subst hb
      have he : s.recver fd (.bytes []) = { s with
          registered := update s.registered fd false, isOpen := update s.isOpen fd false,
          trace := s.trace ++ [.recv fd (.bytes []), .ctl .EPOLL_CTL_DEL fd true, .close fd] } := by
        simp [EpollServer.recver, EpollServer.epollCtl, EpollServer.close, EpollServer.log, hreg]
      rw [he]
      exact ⟨rfl, rfl, hleft rfl⟩
    · have hq : quits (.bytes buff) = false := by simpa [quits, Multiplex.Table.quits] using hb
      have he : s.recver fd (.bytes buff) =
          { s with trace := s.trace ++ [.recv fd (.bytes buff), .request fd (cStr buff)] } := by
        simp [EpollServer.recver, EpollServer.log, List.length_pos_iff.2 hb]
      rw [he, hq, turn_of_ne_nil hb]
      refine ⟨?_, ?_, ?_⟩
      · rw [Bool.not_false, ← hopen, update_eq_self]
      · rw [Bool.not_false, ← hreg, update_eq_self]
      · exact acts_append_of s.trace (by simp [Call.act]) fun g hg => by
          simp [Call.act, Ne.symm hg]

/-- **What an event does**, when its descriptor is registered. -/
theorem handlerEvent_did (h : Good L s) (hreg : s.registered ev.fd = true)
    (hfresh : ∀ fd granted, ans.accept = some (fd, granted) → s.isOpen fd = false) :
    Did L s (s.handlerEvent ev ans) ev ans := by
  unfold EpollServer.handlerEvent
  split
  · rename_i hin
    split
    · rename_i hL
      rw [h.listenSock] at hL
      cases ha : ans.accept with
      | none =>
        refine .idle (fun _ => ⟨hL, ha⟩) rfl rfl ?_
        funext fd
        simp [EpollServer.accepter, EpollServer.log, acts, Call.act]
      | some r =>
        obtain ⟨g, granted⟩ := r
        have hg := hfresh g granted ha
        have hgreg : s.registered g = false := by
          by_contra hc
          rw [h.isOpen g (by simpa using hc)] at hg
          cases hg
        rw [accepter_eq hgreg]
        refine .took hin hL ha hg rfl ?_ ?_
        · cases granted with
          | true => rfl
          | false =>
            dsimp only
            rw [if_neg Bool.false_ne_true, ← hgreg, update_eq_self]
        · exact acts_append_of s.trace (by simp [Call.act]) fun g hg => by
            simp [Call.act, Ne.symm hg]
    · rename_i hL
      rw [h.listenSock] at hL
      obtain ⟨ho, hr, hacts⟩ := recver_did hreg (h.isOpen _ hreg) ans.recv
      exact .served hin hL ho hr hacts
  · rename_i hin
    exact .idle (fun h => absurd h hin) rfl rfl rfl

/-- An open connection other than that of the event is left alone. -/
theorem Did.other (h : Did L s s' ev ans) (hfd : fd ≠ ev.fd) (hopen : s.isOpen fd = true) :
    acts s'.trace fd = acts s.trace fd := by
  cases h with
  | idle _ _ _ ha => rw [ha]
  | took _ _ _ hg _ _ ha =>
    rw [ha, update_of_ne]
    rintro rfl
    rw [hg] at hopen
    cases hopen
  | served _ _ _ _ ha => rw [ha, update_of_ne hfd]

/-! ### Stories -/

/-- The acts on `fd` are a story, which tells what was handed on of a connection that is open. A
connection that the kernel did not register was never read. -/
structure Told (s : EpollServer) (fd : Fd) : Prop where
  story : Story (s.isOpen fd) (acts s.trace fd)
  unread : s.isOpen fd = true → s.registered fd = false → pieces (acts s.trace fd) = []

theorem Told.did (h : Told s fd) (hgood : Good L s) (hreg : s.registered ev.fd = true)
    (hd : Did L s s' ev ans) : Told s' fd := by
  cases hd with
  | idle _ ho hr ha =>
    refine ⟨?_, ?_⟩
    · rw [ho, ha]; exact h.story
    · rw [ho, hr, ha]; exact h.unread
  | @took g granted _ _ _ hg ho hr ha =>
    by_cases hfd : fd = g
    · subst hfd
      have hclosed : Story false (acts s.trace fd) := hg ▸ h.story
      refine ⟨?_, fun _ _ => ?_⟩
      · rw [ho, ha, update_self, update_self]
        exact hclosed.accepted
      · rw [ha, update_self]
        simp [pieces]
    · refine ⟨?_, ?_⟩
      · rw [ho, ha, update_of_ne hfd, update_of_ne hfd]; exact h.story
      · rw [ho, hr, ha, update_of_ne hfd, update_of_ne hfd, update_of_ne hfd]; exact h.unread
  | served _ hL ho hr ha =>
    by_cases hfd : fd = ev.fd
    · subst hfd
      have hopen : Story true (acts s.trace ev.fd) := hgood.isOpen _ hreg ▸ h.story
      refine ⟨?_, fun hop hno => ?_⟩
      · rw [ho, ha, update_self, update_self]
        exact hopen.turn ans.recv
      · rw [ho, update_self] at hop
        rw [hr, update_self, hop] at hno
        cases hno
    · refine ⟨?_, ?_⟩
      · rw [ho, ha, update_of_ne hfd, update_of_ne hfd]; exact h.story
      · rw [ho, hr, ha, update_of_ne hfd, update_of_ne hfd, update_of_ne hfd]; exact h.unread

theorem Held.did {todo : List Event} (h : Held L ⟨s, ev :: todo⟩)
    (hstep : Step ⟨s, ev :: todo⟩ c') : (∃ ans, Did L s c'.server ev ans) ∧ c'.todo = todo := by
  cases hstep with
  | event hfresh =>
    exact ⟨⟨_, handlerEvent_did h.good (h.ready ev List.mem_cons_self) hfresh⟩, rfl⟩

theorem told_invariant (L : Fd) : Invariant (fun c => c = ⟨.init L, []⟩) Step
    fun c => Held L c ∧ ∀ fd, fd ≠ L → Told c.server fd where
  init := by
    rintro _ rfl
    refine ⟨(held_invariant L).init _ rfl, fun fd hfd => ?_⟩
    have hclosed : (EpollServer.init L).isOpen fd = false := by
      simp [EpollServer.init, update_of_ne hfd]
    exact ⟨by rw [hclosed]; exact .nil, fun hop => by rw [hclosed] at hop; cases hop⟩
  step := by
    rintro ⟨s, todo⟩ c' ⟨hheld, htold⟩ hstep
    refine ⟨(held_invariant L).step _ _ hheld hstep, fun fd hfd => ?_⟩
    cases todo with
    | nil =>
      cases hstep with
      | wait hnodup hreg => exact htold fd hfd
    | cons ev todo =>
      obtain ⟨⟨ans, hdid⟩, -⟩ := hheld.did hstep
      exact (htold fd hfd).did hheld.good (hheld.ready ev List.mem_cons_self) hdid

/-! ### Batches -/

/-- What is left of a batch that was reported when the server was `s`. -/
inductive Batch (L : Fd) (s : EpollServer) : Config → Prop
  | wait {revs : List Event} (h : Reach L ⟨s, []⟩) (hstep : Step ⟨s, []⟩ ⟨s, revs⟩) :
      Batch L s ⟨s, revs⟩
  | event {c c' : Config} {ev : Event} {todo : List Event} (h : Batch L s c)
      (htodo : c.todo = ev :: todo) (hstep : Step c c') : Batch L s c'

theorem Batch.reach (h : Batch L s c) : Reach L c := by
  induction h with
  | wait h hstep => exact h.next hstep
  | event _ _ hstep ih => exact ih.next hstep

/-- **No event is stale**: since the batch was reported nothing has been done with the descriptors
whose events are still to be handled. -/
theorem Batch.acts_eq (h : Batch L s c) (hev : ev ∈ c.todo) :
    acts c.server.trace ev.fd = acts s.trace ev.fd := by
  induction h with
  | wait => rfl
  | @event c c' ev' todo h htodo hstep ih =>
    obtain ⟨s', todo'⟩ := c
    obtain rfl : todo' = ev' :: todo := htodo
    have hheld : Held L ⟨s', ev' :: todo⟩ := (held_invariant L).reachable h.reach
    obtain ⟨⟨ans, hdid⟩, htodo⟩ := hheld.did hstep
    rw [htodo] at hev
    have hin := List.mem_cons_of_mem ev' hev
    have hne : ev.fd ≠ ev'.fd := fun he =>
      (List.nodup_cons.1 hheld.nodup).1 (he ▸ List.mem_map_of_mem hev)
    rw [← ih hin]
    exact hdid.other hne (hheld.good.isOpen _ (hheld.ready ev hin))

/-- **Every descriptor of the epoll server has a story**, in every state of every run: a connection
is accepted, each text is handed on right behind the read that it comes from, and the connection is
closed right behind the read that ends it; one that was not registered is never read. And every
event is handled for the connection that it was reported for. -/
theorem epoll_stories (L : Fd) :
    (∀ c, Reach L c → ∀ fd, fd ≠ L → Told c.server fd ∧ (c.server.isOpen fd = true →
      ((texts (acts c.server.trace fd)).flatten = (pieces (acts c.server.trace fd)).flatten ↔
        0 ∉ (pieces (acts c.server.trace fd)).flatten))) ∧
    (∀ s c, Batch L s c → ∀ ev ∈ c.todo, acts c.server.trace ev.fd = acts s.trace ev.fd) := by
  refine ⟨fun c h fd hfd => ?_, fun s c h ev hev => h.acts_eq hev⟩
  have htold := ((told_invariant L).reachable h).2 fd hfd
  exact ⟨htold, fun hopen => Story.texts_flatten_iff (hopen ▸ htold.story)⟩

/-- A second client is accepted on 6, and the one on 5 says "hi". -/
def twoClients : EpollServer := (oneClient true).handlerEvents
  [(⟨3, true⟩, { accept := some (6, true) }), (⟨5, true⟩, { recv := .bytes [104, 105] })]

theorem reach_twoClients : Reach 3 ⟨twoClients, []⟩ := by
  have hwait : Step ⟨oneClient true, []⟩ ⟨oneClient true, [⟨3, true⟩, ⟨5, true⟩]⟩ :=
    .wait (by decide) (by decide)
  apply reach_handlerEvents ((reach_oneClient true).next hwait)
  intro before ev ans rest hrevs fd g hg
  rcases before with - | ⟨x, - | ⟨y, before⟩⟩
  · cases hrevs
    cases hg
    rfl
  · cases hrevs
    cases hg
  · cases before <;> cases hrevs

/-- In the next batch the client on 5 quits, and the one accepted behind it has its number; the
event of the client on 6 is still to be handled. -/
theorem exists_batch : ∃ c, Batch 3 twoClients c ∧ c.todo = [⟨6, true⟩] ∧
    acts c.server.trace 5 = [.accepted, .read (.bytes [104, 105]), .told [104, 105],
      .read (.bytes []), .closed, .accepted] := by
  have hwait : Step ⟨twoClients, []⟩ ⟨twoClients, [⟨5, true⟩, ⟨3, true⟩, ⟨6, true⟩]⟩ :=
    .wait (by decide) (by decide)
  have h := (Batch.wait reach_twoClients hwait).event rfl
    (@Step.event _ _ { recv := .bytes [] } _ nofun)
  refine ⟨_, h.event rfl (@Step.event _ _ { accept := some (5, true) } _ fun fd g hg => ?_), rfl,
    by decide⟩
  cases hg
  rfl

theorem epoll_stories_example : ∃ c : Config, acts c.server.trace 5 =
      [.accepted, .read (.bytes [104, 105]), .told [104, 105], .read (.bytes []), .closed,
        .accepted] ∧
    Told c.server 5 ∧ acts c.server.trace 6 = acts twoClients.trace 6 := by
  obtain ⟨c, hbatch, htodo, hacts⟩ := exists_batch
  exact ⟨c, hacts, ((epoll_stories 3).1 c hbatch.reach 5 (by decide)).1,
    (epoll_stories 3).2 _ c hbatch ⟨6, true⟩ (by simp [htodo])⟩

end NetProg.Epoll
