import NetProg.Multiplex.Monitoring

/-!
# The story of a descriptor

The trace of a server interleaves the calls for all its clients. Read for one descriptor alone it
is a row of connections: each is accepted, then read, and every read is followed at once by what it
leads to, the log line with its text or the end of the connection. A connection that finds the
table full is closed at once.

* `Story`: what the acts on one descriptor may be, and whether it is open after them;
* `visit_storied`: a visit of a slot goes on with the stories;
* `connections_served`: in every state of both servers every descriptor has a story.
-/

namespace NetProg.Multiplex

open NetProg.Lib NetProg.Reactor Function

/-- What is done with a descriptor. -/
inductive Act where
  | accepted
  | read (a : RecvAns)
  /-- what was read is handed on as a text -/
  | told (text : Bytes)
  | closed
  deriving DecidableEq, Repr

/-! ### Stories -/

/-- The acts on one descriptor; the flag tells whether a connection is open on it after them. -/
inductive Story : Bool → List Act → Prop
  | nil : Story false []
  | accepted {l : List Act} (h : Story false l) : Story true (l ++ [.accepted])
  | turnedAway {l : List Act} (h : Story false l) : Story false (l ++ [.accepted, .closed])
  | said {l : List Act} (h : Story true l) {buff : Bytes} (hb : buff ≠ []) :
      Story true (l ++ [.read (.bytes buff), .told (cStr buff)])
  | quit {l : List Act} (h : Story true l) {a : RecvAns} (ha : Table.quits a = true) :
      Story false (l ++ [.read a, .closed])

/-- What is done with a client that is readable. -/
def turn (a : RecvAns) : List Act :=
  match a with
  | .bytes buff => if buff.length = 0 then [.read a, .closed] else [.read a, .told (cStr buff)]
  | .fail _ => [.read a, .closed]

theorem turn_of_quits {a : RecvAns} (h : Table.quits a = true) : turn a = [.read a, .closed] := by
  cases a with
  | bytes buff => simpa [turn, Table.quits] using h
  | fail e => rfl

theorem turn_of_ne_nil {buff : Bytes} (h : buff ≠ []) :
    turn (.bytes buff) = [.read (.bytes buff), .told (cStr buff)] := by
  simp [turn, h]

/-- **A turn goes on with the story** of a connection. -/
theorem Story.turn {l : List Act} (h : Story true l) (a : RecvAns) :
    Story (!Table.quits a) (l ++ turn a) := by
  cases hq : Table.quits a with
  | true =>
    rw [turn_of_quits hq]
    exact h.quit hq
  | false =>
    cases a with
    | fail e => cases hq
    | bytes buff =>
      have hb : buff ≠ [] := by simpa [Table.quits] using hq
      rw [turn_of_ne_nil hb]
      exact h.said hb

/-- The pieces read from the connection that was accepted last. -/
def pieces (l : List Act) : List Bytes := l.foldl (fun ps a => match a with
  | .accepted => []
  | .read (.bytes buff) => ps ++ [buff]
  | _ => ps) []

/-- The texts logged for the connection that was accepted last. -/
def texts (l : List Act) : List Bytes := l.foldl (fun ts a => match a with
  | .accepted => []
  | .told text => ts ++ [text]
  | _ => ts) []

/-- **Each piece was logged up to its first NUL**, while the connection is open. -/
theorem Story.texts_eq {l : List Act} (h : Story true l) : texts l = (pieces l).map cStr := by
  generalize hop : true = op at h
  induction h with
  | nil | turnedAway | quit => cases hop
  | accepted => simp [texts, pieces]
  | said _ _ ih =>
    have ih := ih rfl
    unfold texts pieces at ih ⊢
    simp [ih]

/-- The log of an open connection is what was read from it, unless that has a NUL. -/
theorem Story.texts_flatten_iff {l : List Act} (h : Story true l) :
    (texts l).flatten = (pieces l).flatten ↔ 0 ∉ (pieces l).flatten := by
  rw [h.texts_eq, ← List.flatMap_def]
  exact flatMap_cStr_eq_iff _

/-- The lines printed for an open connection show what was read from it, unless a piece has a NUL or
no room behind the prefix. -/
theorem Story.lines_iff {l : List Act} (h : Story true l) (fd : Fd) :
    (texts l).map (logLine fd) = (pieces l).map (clientLine fd) ↔
      ∀ p ∈ pieces l, 0 ∉ p ∧ (clientLine fd p).length < 1024 := by
  rw [h.texts_eq, List.map_map, List.map_inj_left]
  exact forall₂_congr fun p _ => snprintf_cStr_eq_iff (by decide) _ p

/-- Every descriptor has a story; `op` tells which are open. -/
def Storied (op : Fd → Bool) (acts : Fd → List Act) : Prop := ∀ fd, Story (op fd) (acts fd)

theorem Storied.change {op op' : Fd → Bool} {acts acts' : Fd → List Act} (h : Storied op acts)
    (sock : Fd) (hop : ∀ fd, fd ≠ sock → op' fd = op fd) (hacts : ∀ fd, fd ≠ sock →
      acts' fd = acts fd) (hsock : Story (op' sock) (acts' sock)) : Storied op' acts' := by
  intro fd
  by_cases hfd : fd = sock
  · exact hfd ▸ hsock
  · rw [hop fd hfd, hacts fd hfd]
    exact h fd

/-! ### What a trace holds of one descriptor -/

def Call.act (fd : Fd) : Call → Option Act
  | .accept _ r => if r = some fd then some .accepted else none
  | .recv sock a => if sock = fd then some (.read a) else none
  | .message sock text => if sock = fd then some (.told text) else none
  | .close sock => if sock = fd then some .closed else none

/-- The acts on `fd` in a trace. -/
def acts (trace : List Call) (fd : Fd) : List Act := trace.filterMap (Call.act fd)

@[simp] theorem acts_nil (fd : Fd) : acts [] fd = [] := rfl

@[simp] theorem acts_append (t u : List Call) (fd : Fd) :
    acts (t ++ u) fd = acts t fd ++ acts u fd := List.filterMap_append

theorem acts_recvCalls (sock fd : Fd) (a : RecvAns) :
    acts (Table.recvCalls sock a) fd = if sock = fd then turn a else [] := by
  cases a with
  | fail e => by_cases h : sock = fd <;> simp [Table.recvCalls, turn, acts, Call.act, h]
  | bytes buff =>
    by_cases hb : buff.length = 0
    · by_cases h : sock = fd <;> simp [Table.recvCalls, turn, acts, Call.act, h, hb]
    · by_cases h : sock = fd <;> simp [Table.recvCalls, turn, acts, Call.act, h, hb]

/-- Which descriptors are open after a trace. -/
def isLive (trace : List Call) (fd : Fd) : Bool := decide (fd ∈ live trace)

namespace Table

variable {n i k : ℕ} {listen sock : Fd} {ready : ℕ → Fd → Bool} {ans : Answers} {t : Table}

/-! ### A visit goes on with the stories -/

/-- **A connection is accepted**, or refused, or turned away. -/
theorem accepter_storied (hs : Storied (isLive t.trace) (acts t.trace)) (r : Option Fd)
    (hfresh : ∀ fd, r = some fd → fd ∉ live t.trace) :
    Storied (isLive (accepter n listen t r).trace) (acts (accepter n listen t r).trace) := by
  cases r with
  | none =>
    intro fd
    have hnone : (accepter n listen t none).trace = t.trace ++ [.accept listen none] := rfl
    have hlive : isLive (t.trace ++ [.accept listen none]) fd = isLive t.trace fd := by
      simp [isLive, liveStep]
    have hacts : acts (t.trace ++ [.accept listen none]) fd = acts t.trace fd := by
      simp [acts, Call.act]
    rw [hnone, hlive, hacts]
    exact hs fd
  | some sock =>
    have hnew := hfresh sock rfl
    have hclosed : Story false (acts t.trace sock) := by simpa [isLive, hnew] using hs sock
    unfold accepter
    dsimp only
    split
    · refine hs.change sock (fun fd hfd => ?_) (fun fd hfd => ?_) ?_
      · simp [isLive, liveStep]
      · simp [acts, Call.act, Ne.symm hfd]
      · simpa [isLive, liveStep, acts, Call.act, hnew] using hclosed.turnedAway
    · refine hs.change sock (fun fd hfd => ?_) (fun fd hfd => ?_) ?_
      · simp [isLive, liveStep, hfd]
      · simp [acts, Call.act, Ne.symm hfd]
      · simpa [isLive, liveStep, acts, Call.act] using hclosed.accepted

/-- **A client is served.** -/
theorem recver_storied (h : Ok n listen t.slots t.trace)
    (hs : Storied (isLive t.trace) (acts t.trace)) (hsock : sock ∈ live t.trace) (i : ℕ)
    (a : RecvAns) :
    Storied (isLive (t.recver i sock a).trace) (acts (t.recver i sock a).trace) := by
  have hopen : Story true (acts t.trace sock) := by simpa [isLive, hsock] using hs sock
  have hlive : live (t.recver i sock a).trace =
      if quits a then (live t.trace).erase sock else live t.trace := by
    cases hq : quits a with
    | true =>
      rw [recver_of_quits t i sock hq]
      simp [liveStep]
    | false =>
      obtain ⟨buff, rfl, he⟩ := recver_of_not_quits t i sock hq
      rw [he]
      simp [liveStep]
  refine hs.change sock (fun fd hfd => ?_) (fun fd hfd => ?_) ?_
  · unfold isLive
    rw [hlive]
    split
    · simp [h.nodup.mem_erase_iff, hfd]
    · rfl
  · simp [recver, acts_recvCalls, Ne.symm hfd]
  · have hflag : isLive (t.recver i sock a).trace sock = !quits a := by
      unfold isLive
      rw [hlive]
      cases quits a with
      | true => simp [h.nodup.mem_erase_iff]
      | false => simp [hsock]
    have hacts : acts (t.recver i sock a).trace sock = acts t.trace sock ++ turn a := by
      simp [recver, acts_recvCalls]
    rw [hflag, hacts]
    exact hopen.turn a

theorem visit_storied (h : Ok n listen t.slots t.trace)
    (hs : Storied (isLive t.trace) (acts t.trace)) (hi : i < n)
    (hfresh : Fresh listen (visit n listen ready ans t i).trace) :
    Storied (isLive (visit n listen ready ans t i).trace)
      (acts (visit n listen ready ans t i).trace) := by
  cases hsock : t.slots i with
  | none => rwa [visit_none hsock]
  | some sock =>
    rw [visit_some hsock] at hfresh ⊢
    split at hfresh
    · split at hfresh
      · rename_i hready hl
        rw [if_pos hready, if_pos hl]
        refine accepter_storied hs _ fun fd hr => ?_
        obtain ⟨u, hu, -⟩ := accepter_trace n listen t (ans.accept i)
        exact (hfresh t.trace _ u hu listen fd (by rw [hr])).2
      · rename_i hready hl
        rw [if_pos hready, if_neg hl]
        exact recver_storied h hs ((h.tracked sock).1 ⟨i, h.pos_of_ne hsock hl, hi, hsock⟩) i _
    · rename_i hready
      rwa [if_neg hready]

theorem scanTo_storied (h : Ok n listen t.slots t.trace)
    (hs : Storied (isLive t.trace) (acts t.trace)) (hk : k ≤ n)
    (hfresh : Fresh listen (scanTo n listen ready ans k t).trace) :
    Storied (isLive (scanTo n listen ready ans k t).trace)
      (acts (scanTo n listen ready ans k t).trace) := by
  induction k with
  | zero => exact hs
  | succ k ih =>
    have hbefore := scanTo_fresh (Nat.le_succ k) hk hfresh
    rw [scanTo_succ] at hfresh ⊢
    exact visit_storied (h.scanTo (by omega) hbefore) (ih (by omega) hbefore) (by omega) hfresh

theorem Reach.storied (h : Reach n listen t) (hfresh : Fresh listen t.trace) :
    Storied (isLive t.trace) (acts t.trace) := by
  induction h with
  | init _ htrace =>
    rw [htrace]
    exact fun fd => .nil
  | scan h ans _ ih =>
    have hbefore := scanTo_fresh (Nat.zero_le n) le_rfl hfresh
    exact scanTo_storied (h.ok hbefore) (ih hbefore) le_rfl hfresh

theorem Reach.storied_scanTo (h : Reach n listen t) (hk : k ≤ n)
    (hfresh : Fresh listen (scanTo n listen ready ans k t).trace) :
    Storied (isLive (scanTo n listen ready ans k t).trace)
      (acts (scanTo n listen ready ans k t).trace) :=
  scanTo_storied (h.ok_before hk hfresh)
    (h.storied (scanTo_fresh (Nat.zero_le k) hk hfresh)) hk hfresh

end Table

/-! ### Both servers -/

theorem SelectServer.Seen.storied {listen : Fd} {s : SelectServer} (h : Seen listen s)
    (hfresh : Fresh listen s.trace) : Storied (isLive s.trace) (acts s.trace) := by
  cases h with
  | between h => exact h.table.2.storied hfresh
  | within h hk hs =>
    obtain ⟨rfl, ht⟩ := h.table
    have htrace : s.trace = _ := congrArg Table.trace (startTo_table hs).2
    rw [htrace] at hfresh ⊢
    exact ht.storied_scanTo hk hfresh

theorem PollServer.Seen.storied {listen : Fd} {s : PollServer} (h : Seen listen s)
    (hfresh : Fresh listen s.trace) : Storied (isLive s.trace) (acts s.trace) := by
  cases h with
  | between h => exact h.table.2.storied hfresh
  | @within s k h hk r =>
    obtain ⟨rfl, ht⟩ := h.table
    have htrace : (s.startTo k r).trace = _ := congrArg Table.trace (startTo_table s k r).2
    rw [htrace] at hfresh ⊢
    exact ht.storied_scanTo hk hfresh

/-- The acts on `fd` are a story, and tell what was logged for a connection that is open: what
`logMessage` was given, and what it has printed. -/
structure Told (trace : List Call) (fd : Fd) : Prop where
  story : Story (isLive trace fd) (acts trace fd)
  logged : fd ∈ live trace → ((texts (acts trace fd)).flatten = (pieces (acts trace fd)).flatten ↔
    0 ∉ (pieces (acts trace fd)).flatten)
  printed : fd ∈ live trace →
    ((texts (acts trace fd)).map (logLine fd) = (pieces (acts trace fd)).map (clientLine fd) ↔
      ∀ p ∈ pieces (acts trace fd), 0 ∉ p ∧ (clientLine fd p).length < 1024)

theorem Storied.told {trace : List Call} (h : Storied (isLive trace) (acts trace)) (fd : Fd) :
    Told trace fd := by
  have hopen : fd ∈ live trace → Story true (acts trace fd) := fun hfd => by
    simpa [isLive, hfd] using h fd
  exact ⟨h fd, fun hfd => (hopen hfd).texts_flatten_iff, fun hfd => (hopen hfd).lines_iff fd⟩

/-- **Every descriptor has a story**, in every state of both servers, also in the middle of a scan.
Here `accept` never gives a descriptor that is open. -/
theorem connections_served (listen : Fd) :
    (∀ s : SelectServer, SelectServer.Seen listen s → Fresh listen s.trace →
      ∀ fd, Told s.trace fd) ∧
    (∀ s : PollServer, PollServer.Seen listen s → Fresh listen s.trace →
      ∀ fd, Told s.trace fd) :=
  ⟨fun _ h hfresh => (h.storied hfresh).told, fun _ h hfresh => (h.storied hfresh).told⟩

theorem connections_served_example :
    (∃ s : SelectServer, s.trace = heardOut ++ [.accept 3 (some 5)] ∧ Told s.trace 5) ∧
    (∃ s : PollServer, s.trace = heardOut ++ [.accept 3 (some 5)] ∧ Told s.trace 5) := by
  constructor
  · obtain ⟨s, s', hs, hs', -, htrace⟩ := SelectServer.exists_reused
    exact ⟨s', htrace, (connections_served 3).1 s' (.between (hs.start hs'))
      (htrace ▸ fresh_reused) 5⟩
  · obtain ⟨s, hs, -, htrace⟩ := PollServer.exists_reused
    exact ⟨_, htrace, (connections_served 3).2 _ (.between (hs.start _))
      (htrace ▸ fresh_reused) 5⟩

end NetProg.Multiplex
