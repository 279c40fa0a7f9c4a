import NetProg.Epoll.Stories
import NetProg.Multiplex.Fairness

/-!
# The epoll server agrees with the poll server

The two servers serve the ready descriptors of a turn in different orders: the poll server in the
order of its slots, after `accept`, the epoll server in the order in which the kernel reports them,
with no table to search. For each descriptor alone there is no difference (`epoll_agrees`): in the
same turns both do the same with it.

* `given`, `acts_handlerEvents`: what a batch does with a descriptor, in any order;
* `Agree`: what holds between the two servers after every turn.
-/

namespace NetProg.Epoll

open NetProg.Lib NetProg.Reactor Function
open NetProg.Multiplex (Act Story turn turn_of_ne_nil PollServer Always Fresh Roomy live isLive
  nfds POLLIN flatMap_eq_of_unique always_nil always_concat always_concat₂ fresh_accept)

/-! ### A batch -/

/-- What an event adds to the acts on `fd`. -/
def given (L fd : Fd) (x : Event × Answers) : List Act :=
  if x.1.epollin then
    if x.1.fd = L then (if x.2.accept.map Prod.fst = some fd then [.accepted] else [])
    else if x.1.fd = fd then turn x.2.recv else []
  else []

variable {L fd : Fd} {s : EpollServer} {revs : List (Event × Answers)}

theorem epollCtl_acts (s : EpollServer) (oper : Oper) (sock : Fd) (granted : Bool) :
    acts (s.epollCtl oper sock granted).2.trace = acts s.trace ∧
      (s.epollCtl oper sock granted).2.listenSock = s.listenSock := by
  cases oper with
  | EPOLL_CTL_ADD =>
    unfold EpollServer.epollCtl
    dsimp only
    split <;> exact ⟨by funext fd; simp [EpollServer.log, acts, Call.act], rfl⟩
  | EPOLL_CTL_DEL =>
    unfold EpollServer.epollCtl
    dsimp only
    split <;> exact ⟨by funext fd; simp [EpollServer.log, acts, Call.act], rfl⟩

theorem acts_log (s : EpollServer) (c : Call) (fd : Fd) :
    acts (s.log c).trace fd = acts s.trace fd ++ (c.act fd).toList := by
  unfold EpollServer.log acts
  cases h : c.act fd <;> simp [h]

theorem acts_accepter (s : EpollServer) (a : Option (Fd × Bool)) (fd : Fd) :
    acts (s.accepter a).trace fd = acts s.trace fd ++
        (if a.map Prod.fst = some fd then [.accepted] else []) ∧
      (s.accepter a).listenSock = s.listenSock := by
  cases a with
  | none => exact ⟨acts_log s (.accept none) fd, rfl⟩
  | some r =>
    obtain ⟨g, granted⟩ := r
    obtain ⟨hacts, hlisten⟩ := epollCtl_acts { s.log (.accept (some g)) with
      isOpen := update s.isOpen g true } .EPOLL_CTL_ADD g granted
    refine ⟨(congrFun hacts fd).trans ((acts_log s _ fd).trans ?_), hlisten⟩
    by_cases hg : g = fd <;> simp [Call.act, hg]

theorem acts_left (s : EpollServer) (sock : Fd) (a : RecvAns) (fd : Fd) :
    acts ((((s.log (.recv sock a)).epollCtl .EPOLL_CTL_DEL sock true).2.close sock)).trace fd =
        acts s.trace fd ++ (if sock = fd then [.read a, .closed] else []) ∧
      ((((s.log (.recv sock a)).epollCtl .EPOLL_CTL_DEL sock true).2.close sock)).listenSock =
        s.listenSock := by
  obtain ⟨hacts, hlisten⟩ := epollCtl_acts (s.log (.recv sock a)) .EPOLL_CTL_DEL sock true
  refine ⟨?_, hlisten⟩
  unfold EpollServer.close
  rw [acts_log]
  dsimp only
  rw [hacts, acts_log]
  by_cases hsock : sock = fd <;> simp [Call.act, hsock]

theorem acts_recver (s : EpollServer) (sock : Fd) (a : RecvAns) (fd : Fd) :
    acts (s.recver sock a).trace fd =
        acts s.trace fd ++ (if sock = fd then turn a else []) ∧
      (s.recver sock a).listenSock = s.listenSock := by
  cases a with
  | fail e => exact acts_left s sock (.fail e) fd
  | bytes buff =>
    by_cases hb : buff.length > 0
    · have hne : buff ≠ [] := List.length_pos_iff.1 hb
      unfold EpollServer.recver
      dsimp only
      rw [if_pos hb]
      refine ⟨?_, rfl⟩
      rw [acts_log, acts_log, turn_of_ne_nil hne]
      by_cases hsock : sock = fd <;> simp [Call.act, hsock]
    · obtain rfl : buff = [] := by simpa using hb
      exact acts_left s sock (.bytes []) fd

theorem acts_handlerEvent (s : EpollServer) (ev : Event) (ans : Answers) (fd : Fd) :
    acts (s.handlerEvent ev ans).trace fd = acts s.trace fd ++ given s.listenSock fd (ev, ans) ∧
      (s.handlerEvent ev ans).listenSock = s.listenSock := by
  unfold EpollServer.handlerEvent given
  dsimp only
  split
  · split
    · exact acts_accepter s ans.accept fd
    · exact acts_recver s ev.fd ans.recv fd
  · exact ⟨(List.append_nil _).symm, rfl⟩

theorem acts_handlerEvents (s : EpollServer) (revs : List (Event × Answers)) (fd : Fd) :
    acts (s.handlerEvents revs).trace fd =
      acts s.trace fd ++ revs.flatMap (given s.listenSock fd) := by
  induction revs generalizing s with
  | nil => exact (List.append_nil _).symm
  | cons x revs ih =>
    obtain ⟨hacts, hlisten⟩ := acts_handlerEvent s x.1 x.2 fd
    have hnext : s.handlerEvents (x :: revs) = (s.handlerEvent x.1 x.2).handlerEvents revs := rfl
    rw [hnext, ih, hacts, hlisten, List.flatMap_cons, List.append_assoc]

/-! ### The same turns -/

/-- What happens in a turn: which descriptors can be read, what `accept` gives, and what `recv`
gives for a descriptor. -/
structure Turn where
  ready : Fd → Bool
  accept : Option Fd
  recv : Fd → RecvAns

/-- A turn of the poll server, of which `poll` reports what is ready. -/
structure PollTurn (q : PollServer) (r : PollServer.Round) (T : Turn) : Prop where
  ready : ∀ i < nfds, ∀ fd, (q.fds i).fd = some fd →
    (r.n > 0 ∧ r.revents i &&& POLLIN ≠ 0 ↔ T.ready fd = true)
  accept : r.ans.accept 0 = T.accept
  recv : ∀ i < nfds, ∀ fd, (q.fds i).fd = some fd → r.ans.recv i = T.recv fd

/-- A batch of the epoll server, in which the kernel reports what is ready of what is registered,
in any order; it registers what is accepted. Only the event that accepts has an answer to it. -/
structure EpollTurn (s : EpollServer) (revs : List (Event × Answers)) (T : Turn) : Prop where
  nodup : (revs.map fun x => x.1.fd).Nodup
  registered : ∀ x ∈ revs, s.registered x.1.fd = true
  ready : ∀ fd, s.registered fd = true →
    (T.ready fd = true ↔ ∃ x ∈ revs, x.1.fd = fd ∧ x.1.epollin = true)
  accept : ∀ x ∈ revs, x.2.accept =
    if x.1.epollin = true ∧ x.1.fd = s.listenSock then T.accept.map fun fd => (fd, true) else none
  recv : ∀ x ∈ revs, x.2.recv = T.recv x.1.fd

section EpollTurn

variable {T : Turn} {x y : Event × Answers} (h : EpollTurn s revs T)

include h

theorem EpollTurn.eq_of_fd (hx : x ∈ revs) (hy : y ∈ revs) (hfd : x.1.fd = y.1.fd) : x = y :=
  List.inj_on_of_nodup_map h.nodup hx hy hfd

theorem EpollTurn.given_listen (hsL : s.listenSock = L) (hx : x ∈ revs) (hL : x.1.fd = L)
    (hin : x.1.epollin = true) (fd : Fd) :
    given L fd x = if T.accept = some fd then [.accepted] else [] := by
  have hacc : x.2.accept = T.accept.map fun fd => (fd, true) :=
    (h.accept x hx).trans (if_pos ⟨hin, hL.trans hsL.symm⟩)
  rw [given, if_pos hin, if_pos hL, hacc, Option.map_map]
  cases T.accept <;> simp

theorem EpollTurn.given_client (hsL : s.listenSock = L) (hL : fd ≠ L)
    (hreg : s.registered fd = true) (hlisten : s.registered L = true)
    (hacc : T.ready L = true → T.accept ≠ some fd) :
    revs.flatMap (given L fd) = if T.ready fd = true then turn (T.recv fd) else [] := by
  -- the other events leave it alone
  have hother : ∀ y ∈ revs, y.1.fd ≠ fd → given L fd y = [] := by
    intro y hy hne
    by_cases hyin : y.1.epollin = true
    · by_cases hyL : y.1.fd = L
      · have hready := (h.ready L hlisten).2 ⟨y, hy, hyL, hyin⟩
        rw [h.given_listen hsL hy hyL hyin, if_neg (hacc hready)]
      · rw [given, if_pos hyin, if_neg hyL, if_neg hne]
    · rw [given, if_neg hyin]
  by_cases hready : T.ready fd = true
  · obtain ⟨x, hx, hxfd, hin⟩ := (h.ready fd hreg).1 hready
    have hnodup : revs.Nodup := h.nodup.of_map _
    rw [if_pos hready, flatMap_eq_of_unique hnodup hx fun y hy hne =>
      hother y hy fun hyfd => hne (h.eq_of_fd hy hx (hyfd.trans hxfd.symm))]
    rw [given, if_pos hin, if_neg (hxfd ▸ hL), if_pos hxfd, h.recv x hx, hxfd]
  · rw [if_neg hready]
    refine List.flatMap_eq_nil_iff.2 fun y hy => ?_
    by_cases hyfd : y.1.fd = fd
    · rw [given, if_neg fun hin => hready ((h.ready fd hreg).2 ⟨y, hy, hyfd, hin⟩)]
    · exact hother y hy hyfd

theorem EpollTurn.given_other (hsL : s.listenSock = L) (hfd : fd = L ∨ s.registered fd = false)
    (hlisten : s.registered L = true) : revs.flatMap (given L fd) =
      if T.ready L = true ∧ T.accept = some fd then [.accepted] else [] := by
  have hother : ∀ y ∈ revs, y.1.fd ≠ L → given L fd y = [] := by
    intro y hy hyL
    have hne : y.1.fd ≠ fd := by
      rintro rfl
      rcases hfd with he | he
      · exact hyL he
      · rw [h.registered y hy] at he
        cases he
    rw [given, if_neg hyL, if_neg hne]
    exact ite_self _
  by_cases hready : T.ready L = true
  · obtain ⟨x, hx, hxL, hin⟩ := (h.ready L hlisten).1 hready
    have hnodup : revs.Nodup := h.nodup.of_map _
    rw [flatMap_eq_of_unique hnodup hx fun y hy hne =>
      hother y hy fun hyL => hne (h.eq_of_fd hy hx (hyL.trans hxL.symm)),
      h.given_listen hsL hx hxL hin]
    simp only [hready, true_and]
  · rw [if_neg fun hc => hready hc.1]
    refine List.flatMap_eq_nil_iff.2 fun y hy => ?_
    by_cases hyL : y.1.fd = L
    · rw [given, if_neg fun hin => hready ((h.ready L hlisten).2 ⟨y, hy, hyL, hin⟩)]
    · exact hother y hy hyL

end EpollTurn

/-! ### The poll server in a turn -/

section PollTurn

variable {q : PollServer} {r : PollServer.Round} {T : Turn}

theorem always_of_start {P : List Fd → Multiplex.Call → Prop} (h : Always P (q.start r).trace) :
    Always P q.trace := by
  obtain ⟨u, hu⟩ := PollServer.startTo_mono q le_rfl r
  have hstart : (q.start r).trace = q.trace ++ u := hu
  exact (hstart ▸ h).of_append

theorem PollTurn.ready_eq (h : PollTurn q r T) {i : ℕ} (hi : i < nfds)
    (hfd : (q.fds i).fd = some fd) : q.ready r i fd = T.ready fd := by
  rw [Bool.eq_iff_iff, ← h.ready i hi fd hfd]
  simp [PollServer.ready, hfd, Multiplex.FD_NONE]

variable (h : PollTurn q r T) (hq : PollServer.Reach L q) (hfresh : Fresh L (q.start r).trace)
  (hroom : Roomy nfds (q.start r).trace)

include h hq hfresh hroom

theorem PollTurn.accepts (hready : T.ready L = true) (hacc : T.accept = some fd) :
    (fd ≠ L ∧ fd ∉ live q.trace) ∧ (live q.trace).length + 1 < nfds := by
  obtain ⟨hlisten, ht⟩ := hq.table
  have hok := ht.ok (always_of_start hfresh)
  have htrace : (q.start r).trace = _ :=
    congrArg Multiplex.Table.trace (PollServer.startTo_table q nfds r).2
  obtain ⟨v, hv⟩ : ∃ v, (Multiplex.Table.scanTo nfds L (q.ready r) r.ans nfds q.table).trace =
      (Multiplex.Table.scanTo nfds L (q.ready r) r.ans 1 q.table).trace ++ v :=
    Multiplex.Table.scanTo_mono (by decide) le_rfl
  obtain ⟨w, hw, -⟩ := Multiplex.Table.accepter_trace nfds L q.table (r.ans.accept 0)
  have hcalls : (q.start r).trace = q.trace ++ .accept L (some fd) :: (w ++ v) := by
    rw [htrace, hlisten, hv, Multiplex.Table.scanTo_one hok.listening,
      if_pos ((h.ready_eq (by decide) hok.listening).trans hready), hw, h.accept, hacc,
      List.append_assoc, List.cons_append]
    rfl
  exact ⟨hfresh q.trace _ _ hcalls L fd rfl, hroom q.trace _ _ hcalls L fd rfl⟩

theorem PollTurn.acts_start (fd : Fd) :
    Multiplex.acts (q.start r).trace fd = Multiplex.acts q.trace fd ++
      if fd ∈ live q.trace then (if T.ready fd = true then turn (T.recv fd) else [])
      else if T.ready L = true ∧ T.accept = some fd then [.accepted] else [] := by
  obtain ⟨hlisten, ht⟩ := hq.table
  have hok := ht.ok (always_of_start hfresh)
  have htrace : (q.start r).trace = _ :=
    congrArg Multiplex.Table.trace (PollServer.startTo_table q nfds r).2
  rw [hlisten] at htrace
  have hown := PollServer.own_ready q r
  have hfirst := h.ready_eq (by decide) hok.listening
  rw [htrace]
  split
  · rename_i hlive
    obtain ⟨i, hpos, hi, hfd⟩ := (hok.tracked fd).2 hlive
    rw [Multiplex.Table.acts_scan hok hown (htrace ▸ hfresh) hpos hi hfd, h.ready_eq hi hfd,
      h.recv i hi fd hfd]
    rfl
  · rename_i hlive
    rw [Multiplex.Table.acts_scan_other hok hown (htrace ▸ hfresh) (by decide)
      (fun i hpos hi hfd => hlive ((hok.tracked fd).1 ⟨i, hpos, hi, hfd⟩)) fun hr hacc => ?_,
      hfirst, h.accept]
    · rfl
    · obtain ⟨g, hg⟩ := Option.ne_none_iff_exists'.1 hacc
      exact hok.firstFree_ne_none
        (h.accepts hq hfresh hroom (hfirst ▸ hr) (h.accept.symm.trans hg)).2

end PollTurn

/-! ### The epoll server in a turn -/

/-- Only the listening descriptor's event opens anything. -/
theorem handlerEvent_closed {ev : Event} (hev : ev.fd ≠ s.listenSock) (ans : Answers)
    (hfd : s.isOpen fd = false) : (s.handlerEvent ev ans).isOpen fd = false := by
  have hleft : ∀ a, (((s.log (.recv ev.fd a)).epollCtl .EPOLL_CTL_DEL ev.fd true).2.close
      ev.fd).isOpen fd = false := by
    intro a
    unfold EpollServer.close EpollServer.epollCtl EpollServer.log
    dsimp only
    split <;> simp [update_apply, hfd]
  unfold EpollServer.handlerEvent
  rw [if_neg hev]
  split
  · cases ans.recv with
    | fail e => exact hleft (.fail e)
    | bytes buff =>
      unfold EpollServer.recver
      dsimp only
      split
      · exact hfd
      · exact hleft (.bytes buff)
  · exact hfd

theorem handlerEvents_closed (hrevs : ∀ x ∈ revs, x.1.fd ≠ s.listenSock)
    (hfd : s.isOpen fd = false) : (s.handlerEvents revs).isOpen fd = false := by
  induction revs generalizing s with
  | nil => exact hfd
  | cons x revs ih =>
    have hlisten : (s.handlerEvent x.1 x.2).listenSock = s.listenSock :=
      (acts_handlerEvent s x.1 x.2 fd).2
    refine ih (s := s.handlerEvent x.1 x.2) (fun y hy => ?_)
      (handlerEvent_closed (hrevs x List.mem_cons_self) x.2 hfd)
    rw [hlisten]
    exact hrevs y (List.mem_cons_of_mem x hy)

/-- **Every open descriptor stays registered** when what is accepted is registered. -/
theorem Did.added {s' : EpollServer} {ev : Event} {ans : Answers} (h : Did L s s' ev ans)
    (hans : ∀ g granted, ans.accept = some (g, granted) → granted = true)
    (hs : ∀ fd, s.isOpen fd = true → s.registered fd = true) :
    ∀ fd, s'.isOpen fd = true → s'.registered fd = true := by
  intro fd hfd
  cases h with
  | idle _ ho hr _ =>
    rw [ho] at hfd
    rw [hr]
    exact hs fd hfd
  | @took g granted _ _ hacc _ ho hr _ =>
    rw [ho, update_apply] at hfd
    rw [hr, update_apply, hans g granted hacc]
    split
    · rfl
    · rename_i hne
      rw [if_neg hne] at hfd
      exact hs fd hfd
  | served _ _ ho hr _ =>
    rw [ho, update_apply] at hfd
    rw [hr, update_apply]
    split
    · rename_i he
      rwa [if_pos he] at hfd
    · rename_i hne
      rw [if_neg hne] at hfd
      exact hs fd hfd

theorem handlerEvents_added (h : Held L ⟨s, revs.map Prod.fst⟩) (hfresh : FreshBatch s revs)
    (hans : ∀ x ∈ revs, ∀ g granted, x.2.accept = some (g, granted) → granted = true)
    (hs : ∀ fd, s.isOpen fd = true → s.registered fd = true) :
    ∀ fd, (s.handlerEvents revs).isOpen fd = true →
      (s.handlerEvents revs).registered fd = true := by
  induction revs generalizing s with
  | nil => exact hs
  | cons x revs ih =>
    have hnew := hfresh [] x.1 x.2 revs rfl
    have hdid := handlerEvent_did h.good (h.ready x.1 List.mem_cons_self) hnew
    refine ih (s := s.handlerEvent x.1 x.2) ((held_invariant L).step _ _ h (.event hnew))
      (fun before ev ans rest hrevs => ?_) (fun y hy => hans y (List.mem_cons_of_mem x hy))
      (hdid.added (hans x List.mem_cons_self) hs)
    exact hfresh (x :: before) ev ans rest (by rw [hrevs]; rfl)

variable {T : Turn}

theorem EpollTurn.freshBatch (h : EpollTurn s revs T)
    (hnew : T.ready s.listenSock = true → ∀ fd, T.accept = some fd → s.isOpen fd = false)
    (hlisten : s.registered s.listenSock = true) : FreshBatch s revs := by
  intro before ev ans rest hrevs fd granted hans
  have hx : (ev, ans) ∈ revs := by
    rw [hrevs]
    exact List.mem_append_right _ List.mem_cons_self
  rw [h.accept _ hx] at hans
  split at hans
  · rename_i hlis
    obtain ⟨hin, hL⟩ := hlis
    obtain ⟨g, hg, he⟩ := Option.map_eq_some_iff.1 hans
    obtain rfl : g = fd := congrArg Prod.fst he
    refine handlerEvents_closed (fun y hy hyL => ?_)
      (hnew ((h.ready _ hlisten).2 ⟨_, hx, hL, hin⟩) g hg)
    -- the events before it are about other descriptors
    have hnodup := h.nodup
    rw [hrevs, List.map_append, List.map_cons] at hnodup
    refine (List.nodup_append.1 hnodup).2.2 _ (List.mem_map_of_mem hy) _ List.mem_cons_self ?_
    exact hyL.trans hL.symm
  · cases hans

/-! ### Both servers -/

/-- Both servers have been given the same turns. -/
inductive InStep (L : Fd) : EpollServer → PollServer → Prop
  | init (garbage : ℕ → UInt16) : InStep L (.init L) (.init L garbage)
  | turn {s : EpollServer} {q : PollServer} {revs : List (Event × Answers)} {r : PollServer.Round}
      {T : Turn} (h : InStep L s q) (hs : EpollTurn s revs T) (hq : PollTurn q r T) :
      InStep L (s.handlerEvents revs) (q.start r)

/-- What holds after every turn. -/
structure Agree (L : Fd) (s : EpollServer) (q : PollServer) : Prop where
  reach : Reach L ⟨s, []⟩
  poll : PollServer.Reach L q
  added : ∀ fd, s.isOpen fd = true → s.registered fd = true
  acts : ∀ fd, acts s.trace fd = Multiplex.acts q.trace fd

theorem Agree.init (L : Fd) (garbage : ℕ → UInt16) : Agree L (.init L) (.init L garbage) where
  reach := .start rfl
  poll := .init garbage
  added _ h := h
  acts _ := rfl

section Agree

variable {q : PollServer} {r : PollServer.Round} {T : Turn}

/-- The same connections are open, since the acts on a descriptor tell whether it is. -/
theorem Agree.isOpen (h : Agree L s q) (hfresh : Fresh L q.trace) (hL : fd ≠ L) :
    s.isOpen fd = isLive q.trace fd := by
  have hstory := (((told_invariant L).reachable h.reach).2 fd hL).story
  have hpoll := PollServer.Seen.storied (.between h.poll) hfresh fd
  rw [← h.acts] at hpoll
  exact hstory.unique hpoll

theorem Agree.registered_iff (h : Agree L s q) (hfresh : Fresh L q.trace) (hL : fd ≠ L) :
    s.registered fd = true ↔ fd ∈ live q.trace := by
  have hopen : s.isOpen fd = true ↔ fd ∈ live q.trace := by
    rw [h.isOpen hfresh hL]
    exact decide_eq_true_iff
  exact ⟨fun hreg => hopen.1 (h.reach.good.isOpen fd hreg), fun hlive => h.added fd (hopen.2 hlive)⟩

theorem Agree.turn (h : Agree L s q) (hs : EpollTurn s revs T) (hq : PollTurn q r T)
    (hfresh : Fresh L (q.start r).trace) (hroom : Roomy nfds (q.start r).trace) :
    Agree L (s.handlerEvents revs) (q.start r) := by
  have hgood := h.reach.good
  have hsL : s.listenSock = L := hgood.listenSock
  have hbefore := always_of_start hfresh
  have hok := h.poll.table.2.ok hbefore
  have hunlisted : L ∉ live q.trace := hok.unlisted
  have hnew : ∀ fd, T.ready L = true → T.accept = some fd → fd ≠ L ∧ fd ∉ live q.trace :=
    fun fd hready hacc => (hq.accepts h.poll hfresh hroom hready hacc).1
  have hwait : Reach L ⟨s, revs.map Prod.fst⟩ := by
    have hnodup : ((revs.map Prod.fst).map Event.fd).Nodup := by
      rw [List.map_map]
      exact hs.nodup
    refine h.reach.next (.wait hnodup fun ev hev => ?_)
    obtain ⟨x, hx, rfl⟩ := List.mem_map.1 hev
    exact hs.registered x hx
  have hbatch : FreshBatch s revs := by
    refine hs.freshBatch (fun hready fd hacc => ?_) (hsL ▸ hgood.listening)
    obtain ⟨hne, hnot⟩ := hnew fd (hsL ▸ hready) hacc
    rw [h.isOpen hbefore hne]
    exact decide_eq_false hnot
  refine ⟨reach_handlerEvents (by rwa [List.append_nil]) hbatch, h.poll.start r, ?_, fun fd => ?_⟩
  · refine handlerEvents_added ((held_invariant L).reachable hwait) hbatch
      (fun x hx g granted hacc => ?_) h.added
    rw [hs.accept x hx] at hacc
    split at hacc
    · obtain ⟨_, -, he⟩ := Option.map_eq_some_iff.1 hacc
      exact (congrArg Prod.snd he).symm
    · cases hacc
  · rw [acts_handlerEvents, hsL, h.acts, hq.acts_start h.poll hfresh hroom]
    congr 1
    by_cases hlive : fd ∈ live q.trace
    · have hL : fd ≠ L := fun he => hunlisted (he ▸ hlive)
      rw [if_pos hlive]
      exact hs.given_client hsL hL ((h.registered_iff hbefore hL).2 hlive) hgood.listening
        fun hready hacc => (hnew fd hready hacc).2 hlive
    · rw [if_neg hlive]
      refine hs.given_other hsL ?_ hgood.listening
      by_cases hL : fd = L
      · exact Or.inl hL
      · refine Or.inr ?_
        rw [← Bool.not_eq_true, h.registered_iff hbefore hL]
        exact hlive

theorem InStep.agree (h : InStep L s q) (hfresh : Fresh L q.trace) (hroom : Roomy nfds q.trace) :
    Agree L s q := by
  induction h with
  | init garbage => exact .init L garbage
  | turn _ hs hq ih =>
    exact (ih (always_of_start hfresh) (always_of_start hroom)).turn hs hq hfresh hroom

end Agree

/-- **The epoll server does what the poll server does.** In the same turns, in whatever order the
kernel reports the events, each descriptor is accepted, read, handed on and closed in the same way
by both servers, and both watch the same descriptors: the epoll set holds what the slots hold. -/
theorem epoll_agrees {q : PollServer} (h : InStep L s q) (hfresh : Fresh L q.trace)
    (hroom : Roomy nfds q.trace) (fd : Fd) :
    acts s.trace fd = Multiplex.acts q.trace fd ∧
      (s.registered fd = true ↔ ∃ i < nfds, (q.fds i).fd = some fd) := by
  have hagree := h.agree hfresh hroom
  have hok := hagree.poll.table.2.ok hfresh
  refine ⟨hagree.acts fd, ?_⟩
  by_cases hL : fd = L
  · subst hL
    exact iff_of_true hagree.reach.good.listening ⟨0, by decide, hok.listening⟩
  · refine (hagree.registered_iff hfresh hL).trans ((hok.tracked fd).symm.trans ?_)
    constructor
    · rintro ⟨i, -, hi, hfd⟩
      exact ⟨i, hi, hfd⟩
    · rintro ⟨i, hi, hfd⟩
      exact ⟨i, hok.pos_of_ne hfd hL, hi, hfd⟩

/-! ### A turn in another order -/

/-- A client is accepted on 5. -/
def firstTurn : Turn := ⟨fun fd => fd = 3, some 5, fun _ => .bytes []⟩
def firstBatch : List (Event × Answers) := [(⟨3, true⟩, { accept := some (5, true) })]
def firstRound : PollServer.Round :=
  ⟨1, fun i => if i = 0 then 1 else 0, ⟨fun _ => some 5, fun _ => .bytes []⟩⟩

/-- It says "hi", and another one is accepted. The epoll server reads first. -/
def secondTurn : Turn := ⟨fun fd => fd = 3 || fd = 5, some 6, fun _ => .bytes [104, 105]⟩
def secondBatch : List (Event × Answers) := [(⟨5, true⟩, { recv := .bytes [104, 105] }),
  (⟨3, true⟩, { accept := some (6, true), recv := .bytes [104, 105] })]
def secondRound : PollServer.Round :=
  ⟨2, fun i => if i ≤ 1 then 1 else 0, ⟨fun _ => some 6, fun _ => .bytes [104, 105]⟩⟩

theorem firstTurn_epoll : EpollTurn (.init 3) firstBatch firstTurn :=
  ⟨by decide, by decide, fun fd _ => by simp [firstTurn, firstBatch, @eq_comm _ fd], by decide,
    by simp [firstTurn, firstBatch]⟩

theorem firstTurn_poll : PollTurn (.init 3 fun _ => 0) firstRound firstTurn := by
  have hslots : ∀ i < nfds, ((PollServer.init 3 fun _ => 0).fds i).fd =
      if i = 0 then some 3 else none := by decide +kernel
  refine ⟨fun i hi fd hfd => ?_, rfl, fun _ _ _ _ => rfl⟩
  rw [hslots i hi] at hfd
  split at hfd
  · rename_i hi
    obtain rfl := Option.some.inj hfd
    simp [hi, firstTurn, firstRound, POLLIN]
  · cases hfd

theorem secondTurn_epoll :
    EpollTurn ((EpollServer.init 3).handlerEvents firstBatch) secondBatch secondTurn :=
  ⟨by decide, by decide,
    fun fd _ => by simp [secondTurn, secondBatch, @eq_comm _ fd, or_comm], by decide,
    by simp [secondTurn, secondBatch]⟩

theorem secondTurn_poll :
    PollTurn ((PollServer.init 3 fun _ => 0).start firstRound) secondRound secondTurn := by
  have hslots : ∀ i < nfds, (((PollServer.init 3 fun _ => 0).start firstRound).fds i).fd =
      if i = 0 then some 3 else if i = 1 then some 5 else none := by decide +kernel
  refine ⟨fun i hi fd hfd => ?_, rfl, fun _ _ _ _ => rfl⟩
  rw [hslots i hi] at hfd
  split at hfd
  · rename_i hi
    obtain rfl := Option.some.inj hfd
    simp [hi, secondTurn, secondRound, POLLIN]
  · split at hfd
    · rename_i hi
      obtain rfl := Option.some.inj hfd
      simp [hi, secondTurn, secondRound, POLLIN]
    · cases hfd

theorem epoll_agrees_example : ∃ (s : EpollServer) (q : PollServer),
    acts s.trace 5 = [.accepted, .read (.bytes [104, 105]), .told [104, 105]] ∧
      ∀ fd, acts s.trace fd = Multiplex.acts q.trace fd ∧
        (s.registered fd = true ↔ ∃ i < nfds, (q.fds i).fd = some fd) := by
  have h := ((InStep.init fun _ => 0).turn firstTurn_epoll firstTurn_poll).turn secondTurn_epoll
    secondTurn_poll
  have htrace : (((PollServer.init 3 fun _ => 0).start firstRound).start secondRound).trace =
      [.accept 3 (some 5), .accept 3 (some 6), .recv 5 (.bytes [104, 105]),
        .message 5 [104, 105]] := by decide +kernel
  refine ⟨_, _, by decide, epoll_agrees h ?_ ?_⟩
  · rw [htrace]
    refine always_concat₂ (t := [.accept 3 (some 5), .accept 3 (some 6)]).2
      ⟨always_concat.2 ⟨fresh_accept (by decide), fun sock fd hc => ?_⟩,
        fun _ _ hc => (by cases hc), fun _ _ hc => by cases hc⟩
    obtain ⟨-, hfd⟩ := Multiplex.Call.accept.inj hc
    obtain rfl : 6 = fd := Option.some.inj hfd
    exact ⟨by decide, by decide⟩
  · rw [htrace]
    exact always_concat₂ (t := [.accept 3 (some 5), .accept 3 (some 6)]).2
      ⟨always_concat₂ (t := []).2 ⟨always_nil, fun _ _ _ => by decide, fun _ _ _ => by decide⟩,
        fun _ _ hc => (by cases hc), fun _ _ hc => by cases hc⟩

end NetProg.Epoll
