import NetProg.Multiplex.PollServer
import NetProg.Multiplex.Scan
import NetProg.Multiplex.SelectServer

/-!
# The descriptors that the select and the poll server watch

Both servers are scans of a table (`handleTo_table`, `startTo_table`) and their runs are runs of the
table (`Reach.table`), so what holds of the table holds of their arrays, in every state of every run
and also in the middle of a scan.

* `descriptor_table`: the slots hold the listening descriptor and the open connections;
* `never_blocks`: no `recv` or `accept` on a descriptor that is not ready.
-/

namespace NetProg.Multiplex

open NetProg.Lib NetProg.Reactor Function

/-! ### The select server as a table -/

namespace SelectServer

variable {s s' : SelectServer} {fs : Fd → Bool} {ans : Answers} {r : Round} {i k : ℕ} {fd : Fd}

def table (s : SelectServer) : Table := ⟨s.sockArray, s.trace⟩

theorem accepter_table (s : SelectServer) (a : Option Fd) :
    (s.accepter a).listenSock = s.listenSock ∧
      (s.accepter a).table = Table.accepter NUM s.listenSock s.table a := by
  cases a with
  | none => exact ⟨rfl, rfl⟩
  | some sock =>
    unfold accepter Table.accepter
    simp only [table, log]
    cases firstFree NUM s.sockArray <;> simp

theorem recver_table (s : SelectServer) (pos : ℕ) (sock : Fd) (a : RecvAns) :
    (s.recver pos sock a).listenSock = s.listenSock ∧
      (s.recver pos sock a).table = s.table.recver pos sock a := by
  cases a with
  | fail e => exact ⟨rfl, by simp [recver, table, log, Table.recver, Table.recvCalls, Table.quits,
      FD_NONE]⟩
  | bytes buff =>
    by_cases h : buff.length = 0
    · simp [recver, table, log, Table.recver, Table.recvCalls, Table.quits, FD_NONE, h]
    · simp [recver, table, log, Table.recver, Table.recvCalls, Table.quits, h,
        Nat.pos_of_ne_zero h]

theorem visit_table (h : s.visit fs ans i = some s') : s'.listenSock = s.listenSock ∧
    s'.table = Table.visit NUM s.listenSock (fun _ fd => fs fd) ans s.table i := by
  unfold visit at h
  cases hs : s.sockArray i with
  | none =>
    rw [hs] at h
    obtain rfl : s = s' := Option.some.inj h
    exact ⟨rfl, (Table.visit_none hs).symm⟩
  | some sock =>
    rw [hs] at h
    simp only at h
    split at h
    · rw [Table.visit_some (show s.table.slots i = some sock from hs)]
      split at h
      · rename_i hready
        rw [if_pos hready]
        split at h
        · rename_i hl
          obtain rfl := Option.some.inj h
          rw [if_pos hl]
          exact accepter_table s _
        · rename_i hl
          obtain rfl := Option.some.inj h
          rw [if_neg hl]
          exact recver_table s _ _ _
      · rename_i hready
        obtain rfl : s = s' := Option.some.inj h
        exact ⟨rfl, (if_neg hready).symm⟩
    · cases h

theorem visit_isSome (h : ∀ sock, s.sockArray i = some sock → sock < FD_SETSIZE) :
    ∃ s', s.visit fs ans i = some s' := by
  unfold visit
  split
  · exact ⟨s, rfl⟩
  · rename_i sock hs
    rw [if_pos (h sock hs)]
    split
    · split
      · exact ⟨_, rfl⟩
      · exact ⟨_, rfl⟩
    · exact ⟨s, rfl⟩

theorem handleTo_succ : s.handleTo (k + 1) fs ans = (s.handleTo k fs ans).bind fun t =>
    t.visit fs ans k := by
  simp [handleTo, List.range_succ, List.foldlM_append]

theorem handleTo_table (h : s.handleTo k fs ans = some s') : s'.listenSock = s.listenSock ∧
    s'.table = Table.scanTo NUM s.listenSock (fun _ fd => fs fd) ans k s.table := by
  induction k generalizing s' with
  | zero =>
    obtain rfl : s = s' := Option.some.inj h
    exact ⟨rfl, rfl⟩
  | succ k ih =>
    rw [handleTo_succ] at h
    obtain ⟨t, ht, hv⟩ := Option.bind_eq_some_iff.1 h
    obtain ⟨hl, htable⟩ := ih ht
    obtain ⟨hl', htable'⟩ := visit_table hv
    rw [hl, htable] at htable'
    exact ⟨hl'.trans hl, by rw [htable', Table.scanTo_succ]⟩

/-! ### One turn -/

theorem mem_socks : fd ∈ s.socks ↔ ∃ i < NUM, s.sockArray i = some fd := by
  simp [socks]

theorem le_maxFd (h : fd ∈ s.socks) : (fd : ℤ) ≤ s.maxFd := by
  have key : ∀ (l : List Fd) (m : ℤ), m ≤ l.foldl (fun (m : ℤ) (fd : Fd) => max m fd) m ∧
      ∀ fd ∈ l, (fd : ℤ) ≤ l.foldl (fun (m : ℤ) (fd : Fd) => max m fd) m := by
    intro l
    induction l with
    | nil => simp
    | cons x l ih =>
      intro m
      obtain ⟨h1, h2⟩ := ih (max m x)
      refine ⟨(le_max_left ..).trans h1, fun fd hfd => ?_⟩
      rcases List.mem_cons.1 hfd with rfl | hfd
      · exact (le_max_right ..).trans h1
      · exact h2 fd hfd
  exact (key s.socks (-1)).2 fd h

theorem selected_iff : s.selected r fd = true ↔ fd ∈ s.socks ∧ r.fs fd = true := by
  unfold selected
  simp only [Bool.and_eq_true, decide_eq_true_eq]
  constructor
  · exact fun h => ⟨h.1.1, h.2⟩
  · exact fun h => ⟨⟨h.1, Int.lt_add_one_of_le (le_maxFd h.1)⟩, h.2⟩

/-- What is ready in a turn. -/
def ready (s : SelectServer) (r : Round) (_ : ℕ) (fd : Fd) : Bool :=
  decide (r.ret > 0) && s.selected r fd

theorem own_ready (s : SelectServer) (r : Round) : Table.Own NUM s.sockArray (s.ready r) := by
  intro i fd _ hnew
  have hns : ¬ s.selected r fd = true := fun h => by
    obtain ⟨j, hj, hfd⟩ := mem_socks.1 (selected_iff.1 h).1
    exact hnew j hj hfd
  simp [ready, hns]

theorem ready_of_pos (hret : r.ret > 0) : s.ready r = fun _ fd => s.selected r fd := by
  funext i fd
  simp [ready, hret]

/-- **A turn is a scan of the table.** -/
theorem startTo_table (h : s.startTo k r = some s') : s'.listenSock = s.listenSock ∧
    s'.table = Table.scanTo NUM s.listenSock (s.ready r) r.ans k s.table := by
  unfold startTo at h
  split at h
  · split at h
    · rename_i hret
      rw [ready_of_pos hret]
      exact handleTo_table h
    · rename_i hret
      obtain rfl : s = s' := Option.some.inj h
      refine ⟨rfl, (Table.scanTo_idle fun i fd => ?_).symm⟩
      simp [ready, hret]
  · cases h

/-! ### Runs -/

/-- The states between two turns of `Start`. -/
inductive Reach (listen : Fd) : SelectServer → Prop
  | init : Reach listen (init listen)
  | start {s s' : SelectServer} {r : Round} (h : Reach listen s) (hs : s.start r = some s') :
      Reach listen s'

/-- All the states of a run, those in the middle of a scan too. -/
inductive Seen (listen : Fd) : SelectServer → Prop
  | between {s : SelectServer} (h : Reach listen s) : Seen listen s
  | within {s s' : SelectServer} {k : ℕ} {r : Round} (h : Reach listen s) (hk : k ≤ NUM)
      (hs : s.startTo k r = some s') : Seen listen s'

/-- **The runs of the server are runs of the table.** -/
theorem Reach.table {listen : Fd} (h : Reach listen s) :
    s.listenSock = listen ∧ Table.Reach NUM listen s.table := by
  induction h with
  | init =>
    refine ⟨rfl, .init (fun i => ?_) rfl⟩
    simp [SelectServer.init, SelectServer.table, update_apply, FD_NONE]
  | @start s s' r _ hs ih =>
    obtain ⟨rfl, ih⟩ := ih
    obtain ⟨hl, htable⟩ := startTo_table hs
    exact ⟨hl, htable ▸ ih.scan r.ans (own_ready s r)⟩

theorem Seen.ok {listen : Fd} (h : Seen listen s) (hfresh : Fresh listen s.trace) :
    Table.Ok NUM listen s.sockArray s.trace := by
  cases h with
  | between h => exact h.table.2.ok hfresh
  | within h hk hs =>
    obtain ⟨rfl, ht⟩ := h.table
    obtain ⟨-, htable⟩ := startTo_table hs
    have hslots : s.sockArray = _ := congrArg Table.slots htable
    have htrace : s.trace = _ := congrArg Table.trace htable
    rw [hslots, htrace]
    rw [htrace] at hfresh
    exact ht.ok_scanTo hk hfresh

theorem accepter_of_firstFree_none (h : firstFree NUM s.sockArray = none) (sock : Fd) :
    s.accepter (some sock) = (s.log (.accept s.listenSock (some sock))).log (.close sock) := by
  unfold accepter
  simp only [log, h]

theorem accepter_full (h : ∀ i < NUM, s.sockArray i ≠ FD_NONE) (sock : Fd) :
    (s.accepter (some sock)).sockArray = s.sockArray ∧ (s.accepter (some sock)).trace =
      s.trace ++ [.accept s.listenSock (some sock), .close sock] := by
  have hfull : firstFree NUM s.sockArray = none := by
    rw [firstFree_eq_none]
    exact h
  rw [accepter_of_firstFree_none hfull]
  simp [log]

/-- **No turn makes a call that blocks.** -/
theorem startTo_unblocked {listen : Fd} (h : Reach listen s) (hk : k ≤ NUM)
    (hs : s.startTo k r = some s') (hfresh : Fresh listen s'.trace) :
    ∃ calls, s'.trace = s.trace ++ calls ∧ Table.Unblocked
      (fun fd => r.ret > 0 ∧ r.fs fd = true ∧ ∃ i < NUM, s.sockArray i = some fd) calls := by
  obtain ⟨rfl, ht⟩ := h.table
  obtain ⟨-, htable⟩ := startTo_table hs
  have htrace : s'.trace = _ := congrArg Table.trace htable
  rw [htrace] at hfresh ⊢
  refine Table.scanTo_unblocked (ht.ok_before hk hfresh) (own_ready s r) hk hfresh
    fun i hi fd hfd hr => ?_
  simp only [ready, Bool.and_eq_true, decide_eq_true_eq, selected_iff] at hr
  exact ⟨hr.1, hr.2.2, i, hi, hfd⟩

end SelectServer

/-! ### The poll server as a table -/

namespace PollServer

variable {s s' : PollServer} {ans : Answers} {r : Round} {i k : ℕ} {fd : Fd}

def table (s : PollServer) : Table := ⟨fun i => (s.fds i).fd, s.trace⟩

/-- What a visit leaves as it is: the listening descriptor and all the fields `revents`. -/
def SameEvents (s s' : PollServer) : Prop :=
  s'.listenSock = s.listenSock ∧ ∀ j, (s'.fds j).revents = (s.fds j).revents

theorem setFd_sameEvents (s : PollServer) (i : ℕ) (fd : Option Fd) (events : UInt16) :
    SameEvents s (s.setFd i fd events) := by
  refine ⟨rfl, fun j => ?_⟩
  simp only [setFd, update_apply]
  split
  · rename_i hj
    rw [hj]
  · rfl

theorem setFd_slots (s : PollServer) (i : ℕ) (fd : Option Fd) (events : UInt16) :
    (fun j => ((s.setFd i fd events).fds j).fd) = update (fun j => (s.fds j).fd) i fd := by
  funext j
  simp only [setFd, update_apply]
  split <;> rfl

theorem accepter_sameEvents (s : PollServer) (a : Option Fd) : SameEvents s (s.accepter a) := by
  cases a with
  | none => exact ⟨rfl, fun _ => rfl⟩
  | some sock =>
    unfold accepter
    simp only
    split
    · exact ⟨rfl, fun _ => rfl⟩
    · exact setFd_sameEvents (s.log _) _ _ _

theorem accepter_table (s : PollServer) (a : Option Fd) :
    (s.accepter a).table = Table.accepter nfds s.listenSock s.table a := by
  cases a with
  | none => rfl
  | some sock =>
    unfold accepter Table.accepter
    simp only [table, log]
    cases firstFree nfds fun pos => (s.fds pos).fd with
    | none => simp
    | some pos => simp only [setFd_slots]; rfl

theorem recver_sameEvents (s : PollServer) (i : ℕ) (sock : Fd) (a : RecvAns) :
    SameEvents s (s.recver i sock a) := by
  unfold recver
  simp only
  split
  · split
    · exact ⟨rfl, fun _ => rfl⟩
    · exact setFd_sameEvents ((s.log _).log _) _ _ _
  · exact setFd_sameEvents ((s.log _).log _) _ _ _

theorem recver_table (s : PollServer) (i : ℕ) (sock : Fd) (a : RecvAns) :
    (s.recver i sock a).table = s.table.recver i sock a := by
  have hleft : (((s.log (.recv sock a)).log (.close sock)).setFd i FD_NONE 0).table =
      ⟨update s.table.slots i none, s.trace ++ [.recv sock a, .close sock]⟩ := by
    simp only [table, setFd_slots]
    simp [log, setFd, FD_NONE]
  cases a with
  | fail e => exact hleft
  | bytes buff =>
    by_cases h : buff.length = 0
    · rw [Table.recver_of_quits _ _ _ (by simpa [Table.quits] using h)]
      simp only [recver, h, Nat.lt_irrefl, gt_iff_lt, if_false]
      exact hleft
    · simp [recver, table, log, Table.recver, Table.recvCalls, Table.quits, h,
        Nat.pos_of_ne_zero h]

/-- What is ready while the array is scanned. -/
def signalled (s : PollServer) (i : ℕ) (_ : Fd) : Bool := (s.fds i).revents &&& POLLIN ≠ 0

theorem visit_table (ans : Answers) (s : PollServer) (i : ℕ) :
    SameEvents s (s.visit ans i) ∧
      (s.visit ans i).table = Table.visit nfds s.listenSock s.signalled ans s.table i := by
  unfold visit
  cases hs : (s.fds i).fd with
  | none => exact ⟨⟨rfl, fun _ => rfl⟩, (Table.visit_none hs).symm⟩
  | some sock =>
    rw [Table.visit_some (show s.table.slots i = some sock from hs)]
    simp only [signalled, decide_eq_true_eq]
    split
    · split
      · exact ⟨accepter_sameEvents s _, accepter_table s _⟩
      · exact ⟨recver_sameEvents s _ _ _, recver_table s _ _ _⟩
    · exact ⟨⟨rfl, fun _ => rfl⟩, rfl⟩

theorem SameEvents.signalled (h : SameEvents s s') : s'.signalled = s.signalled := by
  funext i fd
  simp only [PollServer.signalled, h.2 i]

theorem SameEvents.trans {s'' : PollServer} (h : SameEvents s s') (h' : SameEvents s' s'') :
    SameEvents s s'' :=
  ⟨h'.1.trans h.1, fun j => (h'.2 j).trans (h.2 j)⟩

theorem handleTo_table (s : PollServer) (k : ℕ) (ans : Answers) :
    SameEvents s (s.handleTo k ans) ∧
      (s.handleTo k ans).table = Table.scanTo nfds s.listenSock s.signalled ans k s.table := by
  induction k with
  | zero => exact ⟨⟨rfl, fun _ => rfl⟩, rfl⟩
  | succ k ih =>
    obtain ⟨hsame, htable⟩ := ih
    have hsucc : s.handleTo (k + 1) ans = (s.handleTo k ans).visit ans k := by
      simp [handleTo, List.range_succ]
    obtain ⟨hvisit, htable'⟩ := visit_table ans (s.handleTo k ans) k
    rw [hsucc]
    refine ⟨hsame.trans hvisit, ?_⟩
    rw [htable', Table.scanTo_succ, hsame.1, hsame.signalled, htable]

/-! ### One turn -/

/-- What is ready in a turn. -/
def ready (s : PollServer) (r : Round) (i : ℕ) (_ : Fd) : Bool :=
  decide (r.n > 0 ∧ (s.fds i).fd ≠ FD_NONE ∧ r.revents i &&& POLLIN ≠ 0)

theorem own_ready (s : PollServer) (r : Round) : Table.Own nfds s.table.slots (s.ready r) := by
  intro i fd hfree _
  have hnone : (s.fds i).fd = FD_NONE := hfree
  simp [ready, hnone]

/-- `revents` of a free slot is 0 after a call of `poll` that found something. -/
theorem signalled_polled (h : r.n > 0) : (s.polled r).signalled = s.ready r := by
  funext i fd
  by_cases hfd : (s.fds i).fd = FD_NONE
  · simp [signalled, polled, ready, h, hfd]
  · simp [signalled, polled, ready, h, hfd]

theorem startTo_table (s : PollServer) (k : ℕ) (r : Round) :
    (s.startTo k r).listenSock = s.listenSock ∧
      (s.startTo k r).table = Table.scanTo nfds s.listenSock (s.ready r) r.ans k s.table := by
  unfold startTo
  split
  · rename_i hn
    obtain ⟨hsame, htable⟩ := handleTo_table (s.polled r) k r.ans
    rw [signalled_polled hn] at htable
    exact ⟨hsame.1, htable⟩
  · rename_i hn
    refine ⟨rfl, (Table.scanTo_idle fun i fd => ?_).symm⟩
    simp [ready, hn]

theorem startTo_mono (s : PollServer) (hk : k ≤ nfds) (r : Round) :
    ∃ u, (s.startTo k r).trace = s.trace ++ u := by
  have htrace : (s.startTo k r).trace = _ := congrArg Table.trace (startTo_table s k r).2
  rw [htrace]
  exact Table.scanTo_mono (Nat.zero_le k) hk

/-! ### Runs -/

/-- The states between two turns of `Start`. -/
inductive Reach (listen : Fd) : PollServer → Prop
  | init (garbage : ℕ → UInt16) : Reach listen (init listen garbage)
  | start {s : PollServer} (h : Reach listen s) (r : Round) : Reach listen (s.start r)

/-- All the states of a run, those in the middle of a scan too. -/
inductive Seen (listen : Fd) : PollServer → Prop
  | between {s : PollServer} (h : Reach listen s) : Seen listen s
  | within {s : PollServer} {k : ℕ} (h : Reach listen s) (hk : k ≤ nfds) (r : Round) :
      Seen listen (s.startTo k r)

theorem Reach.table {listen : Fd} (h : Reach listen s) :
    s.listenSock = listen ∧ Table.Reach nfds listen s.table := by
  induction h with
  | init garbage =>
    refine ⟨rfl, .init (fun i => ?_) rfl⟩
    simp only [PollServer.init, PollServer.table, setFd_slots, update_apply, FD_NONE]
  | @start s _ r ih =>
    obtain ⟨rfl, ih⟩ := ih
    obtain ⟨hl, htable⟩ := startTo_table s nfds r
    exact ⟨hl, htable ▸ ih.scan r.ans (own_ready s r)⟩

theorem Seen.ok {listen : Fd} (h : Seen listen s) (hfresh : Fresh listen s.trace) :
    Table.Ok nfds listen s.table.slots s.trace := by
  cases h with
  | between h => exact h.table.2.ok hfresh
  | @within s k h hk r =>
    obtain ⟨rfl, ht⟩ := h.table
    obtain ⟨-, htable⟩ := startTo_table s k r
    have htrace : (s.startTo k r).trace = _ := congrArg Table.trace htable
    rw [htable, htrace]
    rw [htrace] at hfresh
    exact ht.ok_scanTo hk hfresh

theorem accepter_full (h : ∀ i < nfds, (s.fds i).fd ≠ FD_NONE) (sock : Fd) :
    (s.accepter (some sock)).fds = s.fds ∧ (s.accepter (some sock)).trace =
      s.trace ++ [.accept s.listenSock (some sock), .close sock] := by
  have hfull : firstFree nfds (fun pos => (s.fds pos).fd) = none := by
    rw [firstFree_eq_none]
    exact h
  have hclose : s.accepter (some sock) =
      (s.log (.accept s.listenSock (some sock))).log (.close sock) := by
    unfold accepter
    simp only [log, hfull]
  rw [hclose]
  simp [log]

theorem startTo_unblocked {listen : Fd} (h : Reach listen s) (hk : k ≤ nfds) (r : Round)
    (hfresh : Fresh listen (s.startTo k r).trace) :
    ∃ calls, (s.startTo k r).trace = s.trace ++ calls ∧ Table.Unblocked
      (fun fd => r.n > 0 ∧ ∃ i < nfds, (s.fds i).fd = some fd ∧ r.revents i &&& POLLIN ≠ 0)
      calls := by
  obtain ⟨rfl, ht⟩ := h.table
  obtain ⟨-, htable⟩ := startTo_table s k r
  have htrace : (s.startTo k r).trace = _ := congrArg Table.trace htable
  rw [htrace] at hfresh ⊢
  refine Table.scanTo_unblocked (ht.ok_before hk hfresh) (own_ready s r) hk hfresh
    fun i hi fd hfd hr => ?_
  simp only [ready, decide_eq_true_eq] at hr
  exact ⟨hr.1, i, hi, hfd, hr.2.2⟩

end PollServer

/-! ### What the servers watch -/

/-- **The arrays hold the listening descriptor and the open connections.** Here `accept` never
gives a descriptor that is open. -/
theorem descriptor_table (listen : Fd) :
    (∀ s : SelectServer, SelectServer.Seen listen s → Fresh listen s.trace →
      Table.Ok NUM listen s.sockArray s.trace ∧
      ((∀ i < NUM, s.sockArray i ≠ FD_NONE) → ∀ sock,
        (s.accepter (some sock)).sockArray = s.sockArray ∧ (s.accepter (some sock)).trace =
          s.trace ++ [.accept s.listenSock (some sock), .close sock])) ∧
    (∀ s : PollServer, PollServer.Seen listen s → Fresh listen s.trace →
      Table.Ok nfds listen (fun i => (s.fds i).fd) s.trace ∧
      ((∀ i < nfds, (s.fds i).fd ≠ FD_NONE) → ∀ sock,
        (s.accepter (some sock)).fds = s.fds ∧ (s.accepter (some sock)).trace =
          s.trace ++ [.accept s.listenSock (some sock), .close sock])) :=
  ⟨fun _ h hfresh => ⟨h.ok hfresh, SelectServer.accepter_full⟩,
    fun _ h hfresh => ⟨h.ok hfresh, PollServer.accepter_full⟩⟩

theorem fresh_accept {listen fd : Fd} (h : fd ≠ listen) :
    Fresh listen [.accept listen (some fd)] := by
  refine always_concat (t := []).2 ⟨always_nil, fun sock fd' hc => ?_⟩
  obtain ⟨-, hfd⟩ := Call.accept.inj hc
  obtain rfl : fd = fd' := Option.some.inj hfd
  exact ⟨h, List.not_mem_nil⟩

theorem SelectServer.start_accept : ∃ s, (SelectServer.init 3).start
    ⟨1, fun _ => true, ⟨fun _ => some 5, fun _ => .bytes []⟩⟩ = some s ∧
      s.trace = [.accept 3 (some 5)] := by
  have h : ((SelectServer.init 3).start ⟨1, fun _ => true,
      ⟨fun _ => some 5, fun _ => .bytes []⟩⟩).map SelectServer.trace =
        some [.accept 3 (some 5)] := by
    decide +kernel
  simpa only [Option.map_eq_some_iff] using h

theorem PollServer.start_accept : ((PollServer.init 3 fun _ => 1).start
    ⟨1, fun _ => 1, ⟨fun _ => some 5, fun _ => .bytes []⟩⟩).trace = [.accept 3 (some 5)] := by
  decide +kernel

/-- A client on descriptor 5 has been accepted, said "hi" and quit. -/
def heardOut : List Call :=
  [.accept 3 (some 5), .recv 5 (.bytes [104, 105]), .message 5 [104, 105], .recv 5 (.bytes []),
    .close 5]

theorem fresh_reused : Fresh 3 (heardOut ++ [.accept 3 (some 5)]) := by
  have h₁ : Fresh 3 [.accept 3 (some 5), .recv 5 (.bytes [104, 105]), .message 5 [104, 105]] :=
    always_concat₂ (t := [.accept 3 (some 5)]).2
      ⟨fresh_accept (by decide), fun _ _ hc => (by cases hc), fun _ _ hc => by cases hc⟩
  have h₂ : Fresh 3 heardOut :=
    always_concat₂.2 ⟨h₁, fun _ _ hc => (by cases hc), fun _ _ hc => by cases hc⟩
  refine always_concat.2 ⟨h₂, fun sock fd hc => ?_⟩
  obtain ⟨-, hfd⟩ := Call.accept.inj hc
  obtain rfl : 5 = fd := Option.some.inj hfd
  exact ⟨by decide, by decide⟩

theorem SelectServer.Reach.foldlM {listen : Fd} {s s' : SelectServer} {rounds : List Round}
    (h : Reach listen s) (hs : rounds.foldlM SelectServer.start s = some s') : Reach listen s' := by
  induction rounds generalizing s with
  | nil =>
    obtain rfl := Option.some.inj hs
    exact h
  | cons r rounds ih =>
    rw [List.foldlM_cons, Option.bind_eq_bind, Option.bind_eq_some_iff] at hs
    obtain ⟨t, ht, hs⟩ := hs
    exact ih (h.start ht) hs

/-- The next client has the number again, which the turn reports as readable. -/
theorem SelectServer.exists_reused : ∃ s s', Reach 3 s ∧
    s.start ⟨1, fun _ => true, ⟨fun _ => some 5, fun _ => .bytes []⟩⟩ = some s' ∧
    s.trace = heardOut ∧ s'.trace = heardOut ++ [.accept 3 (some 5)] := by
  have h : ((([⟨1, fun _ => true, ⟨fun _ => some 5, fun _ => .bytes []⟩⟩,
      ⟨1, fun fd => fd = 5, ⟨fun _ => none, fun _ => .bytes [104, 105]⟩⟩,
      ⟨1, fun fd => fd = 5, ⟨fun _ => none, fun _ => .bytes []⟩⟩] : List Round).foldlM start
        (init 3)).bind fun s =>
          (s.start ⟨1, fun _ => true, ⟨fun _ => some 5, fun _ => .bytes []⟩⟩).map fun s' =>
            (s.trace, s'.trace)) = some (heardOut, heardOut ++ [.accept 3 (some 5)]) := by
    decide +kernel
  obtain ⟨s, hrun, h⟩ := Option.bind_eq_some_iff.1 h
  obtain ⟨s', hs', h⟩ := Option.map_eq_some_iff.1 h
  obtain ⟨htrace, htrace'⟩ := Prod.mk.inj h
  exact ⟨s, s', Reach.init.foldlM hrun, hs', htrace, htrace'⟩

/-- So does its slot, which `poll` had not cleared when it was free. -/
theorem PollServer.exists_reused : ∃ s : PollServer, Reach 3 s ∧ s.trace = heardOut ∧
    (s.start ⟨1, fun _ => 1, ⟨fun _ => some 5, fun _ => .bytes []⟩⟩).trace =
      heardOut ++ [.accept 3 (some 5)] :=
  ⟨_, ((Reach.start (.init fun _ => 1)
      ⟨1, fun _ => 1, ⟨fun _ => some 5, fun _ => .bytes []⟩⟩).start
      ⟨1, fun i => if i = 1 then 1 else 0, ⟨fun _ => none, fun _ => .bytes [104, 105]⟩⟩).start
      ⟨1, fun i => if i = 1 then 1 else 0, ⟨fun _ => none, fun _ => .bytes []⟩⟩,
    by decide +kernel, by decide +kernel⟩

theorem descriptor_table_example :
    (∃ s : SelectServer, s.trace = heardOut ++ [.accept 3 (some 5)] ∧
      Table.Ok NUM 3 s.sockArray s.trace) ∧
    (∃ s : PollServer, s.trace = heardOut ++ [.accept 3 (some 5)] ∧
      Table.Ok nfds 3 (fun i => (s.fds i).fd) s.trace) := by
  constructor
  · obtain ⟨s, s', hs, hs', -, htrace⟩ := SelectServer.exists_reused
    exact ⟨s', htrace, ((descriptor_table 3).1 s' (.between (hs.start hs'))
      (htrace ▸ fresh_reused)).1⟩
  · obtain ⟨s, hs, -, htrace⟩ := PollServer.exists_reused
    exact ⟨_, htrace, ((descriptor_table 3).2 _ (.between (hs.start _))
      (htrace ▸ fresh_reused)).1⟩

/-- **No call of the servers blocks.** The first `k` slots of a turn may have been visited or all of
them. -/
theorem never_blocks (listen : Fd) :
    (∀ (s s' : SelectServer) (k : ℕ) (r : SelectServer.Round), SelectServer.Reach listen s →
      k ≤ NUM → s.startTo k r = some s' → Fresh listen s'.trace →
      ∃ calls, s'.trace = s.trace ++ calls ∧ Table.Unblocked
        (fun fd => r.ret > 0 ∧ r.fs fd = true ∧ ∃ i < NUM, s.sockArray i = some fd) calls) ∧
    (∀ (s : PollServer) (k : ℕ) (r : PollServer.Round), PollServer.Reach listen s →
      k ≤ nfds → Fresh listen (s.startTo k r).trace →
      ∃ calls, (s.startTo k r).trace = s.trace ++ calls ∧ Table.Unblocked
        (fun fd => r.n > 0 ∧ ∃ i < nfds, (s.fds i).fd = some fd ∧ r.revents i &&& POLLIN ≠ 0)
        calls) :=
  ⟨fun _ _ _ _ h hk hs hfresh => SelectServer.startTo_unblocked h hk hs hfresh,
    fun _ _ r h hk hfresh => PollServer.startTo_unblocked h hk r hfresh⟩

/-- A turn that accepts a client, on a number and in a slot that were used before. -/
theorem never_blocks_example :
    (∃ s s' : SelectServer, s.trace = heardOut ∧ s'.trace = heardOut ++ [.accept 3 (some 5)] ∧
      ∃ calls, s'.trace = s.trace ++ calls ∧ Table.Unblocked
        (fun fd => (1 : ℤ) > 0 ∧ true = true ∧ ∃ i < NUM, s.sockArray i = some fd) calls) ∧
    (∃ s s' : PollServer, s.trace = heardOut ∧ s'.trace = heardOut ++ [.accept 3 (some 5)] ∧
      ∃ calls, s'.trace = s.trace ++ calls ∧ Table.Unblocked
        (fun fd => (1 : ℤ) > 0 ∧ ∃ i < nfds, (s.fds i).fd = some fd ∧ 1 &&& POLLIN ≠ 0)
        calls) := by
  constructor
  · obtain ⟨s, s', hs, hs', hbefore, htrace⟩ := SelectServer.exists_reused
    exact ⟨s, s', hbefore, htrace, (never_blocks 3).1 s s' NUM _ hs le_rfl hs'
      (htrace ▸ fresh_reused)⟩
  · obtain ⟨s, hs, hbefore, htrace⟩ := PollServer.exists_reused
    exact ⟨s, _, hbefore, htrace, (never_blocks 3).2 s nfds _ hs le_rfl (htrace ▸ fresh_reused)⟩

end NetProg.Multiplex
