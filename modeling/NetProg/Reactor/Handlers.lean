import NetProg.Reactor.TcpServer

/-!
# What the handlers do

Each callback on a live connection is computed: which answers its loop takes, and the state it
leaves. The states are written in one normal form, the calls logged, then the connection stored,
then the interest set (`logs`, `store`, `setOut`), or the connection dropped (`drop`).

* `excepter_eq`, `recver_eq`, `sender_eq`, `accepter_eq`: the callbacks as equations;
* `SendLoop.sent`, `SendLoop.bufs`: what the write loop has done when it is left.
-/

namespace NetProg.Reactor

open NetProg.Lib Function

namespace TcpServer

/-! ### The normal form -/

def logs (s : TcpServer) (calls : List Call) : TcpServer := calls.foldl log s

/-- What `EnableRW` leaves for a registered descriptor. -/
def setOut (s : TcpServer) (sock : Fd) (write : Bool) : TcpServer :=
  { s with epoll :=
      update s.epoll sock (some { epollin := true, epollout := write, epollet := true }) }

/-- What `Excepter` leaves. -/
def drop (s : TcpServer) (conn : Ptr) (sock : Fd) : TcpServer :=
  let s := { s with connections := update s.connections sock none }
  ((s.delEvent sock).close sock).delete conn

section NormalForm

variable (s : TcpServer) (calls calls' : List Call) (k : Call) (p : Ptr) (c c' : Connection)
  (fd : Fd) (b : Bool)

@[simp] theorem logs_nil : s.logs [] = s := rfl

@[simp] theorem logs_cons : s.logs (k :: calls) = (s.log k).logs calls := rfl

@[simp] theorem logs_append : s.logs (calls ++ calls') = (s.logs calls).logs calls' :=
  List.foldl_append

@[simp] theorem heap_logs : (s.logs calls).heap = s.heap := by
  induction calls generalizing s with
  | nil => rfl
  | cons k calls ih => exact ih (s.log k)

@[simp] theorem connections_logs : (s.logs calls).connections = s.connections := by
  induction calls generalizing s with
  | nil => rfl
  | cons k calls ih => exact ih (s.log k)

@[simp] theorem epoll_logs : (s.logs calls).epoll = s.epoll := by
  induction calls generalizing s with
  | nil => rfl
  | cons k calls ih => exact ih (s.log k)

@[simp] theorem isOpen_logs : (s.logs calls).isOpen = s.isOpen := by
  induction calls generalizing s with
  | nil => rfl
  | cons k calls ih => exact ih (s.log k)

@[simp] theorem next_logs : (s.logs calls).next = s.next := by
  induction calls generalizing s with
  | nil => rfl
  | cons k calls ih => exact ih (s.log k)

@[simp] theorem trace_logs : (s.logs calls).trace = s.trace ++ calls := by
  induction calls generalizing s with
  | nil => simp
  | cons k calls ih => rw [logs_cons, ih, log, List.append_assoc]; rfl

@[simp] theorem logs_store : (s.store p c).logs calls = (s.logs calls).store p c := by
  induction calls generalizing s with
  | nil => rfl
  | cons k calls ih => exact ih (s.log k)

@[simp] theorem logs_setOut : (s.setOut fd b).logs calls = (s.logs calls).setOut fd b := by
  induction calls generalizing s with
  | nil => rfl
  | cons k calls ih => exact ih (s.log k)

@[simp] theorem log_store : (s.store p c).log k = (s.log k).store p c := rfl

@[simp] theorem log_setOut : (s.setOut fd b).log k = (s.log k).setOut fd b := rfl

@[simp] theorem store_setOut : (s.setOut fd b).store p c = (s.store p c).setOut fd b := rfl

@[simp] theorem store_store : (s.store p c).store p c' = s.store p c' := by simp [store]

@[simp] theorem setOut_setOut (b' : Bool) : (s.setOut fd b).setOut fd b' = s.setOut fd b' := by
  simp [setOut]

@[simp] theorem drop_store : (s.store p c).drop p fd = s.drop p fd := by
  simp [drop, store, delEvent, close, delete, log]

@[simp] theorem heap_drop : (s.drop p fd).heap = update s.heap p none := rfl

@[simp] theorem connections_drop : (s.drop p fd).connections = update s.connections fd none := rfl

@[simp] theorem epoll_drop : (s.drop p fd).epoll = update s.epoll fd none := by
  simp [drop, delEvent, close, delete, log]

@[simp] theorem isOpen_drop : (s.drop p fd).isOpen = update s.isOpen fd false := rfl

@[simp] theorem next_drop : (s.drop p fd).next = s.next := rfl

@[simp] theorem trace_drop : (s.drop p fd).trace = s.trace ++ [.close fd, .delete p] := by
  simp [drop, delEvent, close, delete, log]

variable {s p c}

theorem store_self (h : s.heap p = some c) : s.store p c = s := by
  unfold store; rw [← h, update_eq_self]

end NormalForm

@[simp] theorem heap_store (s : TcpServer) (p : Ptr) (c : Connection) :
    (s.store p c).heap p = some c := update_self ..

/-! ### `EnableRW` and `Excepter` -/

section Callbacks

variable {s : TcpServer} {p : Ptr} {c : Connection}

theorem deref_of (h : s.heap p = some c) : s.deref p = .ok c := by simp [deref, h]

theorem deref_of_none (h : s.heap p = none) : s.deref p = .error .dead := by simp [deref, h]

theorem enableRW_eq (h : s.heap p = some c) (hreg : s.epoll c.sock ≠ none) (write : Bool) :
    s.enableRW p true write = .ok (s.setOut c.sock write) := by
  unfold enableRW modEvent
  rw [deref_of h]
  simp [bind, Except.bind, hreg, setOut, pure, Except.pure]

theorem excepter_eq (h : s.heap p = some c) (hkey : s.connIsExists c.sock = true) :
    s.excepter p = .ok (s.drop p c.sock) := by
  unfold excepter
  rw [deref_of h]
  simp [bind, Except.bind, hkey, drop, pure, Except.pure]

theorem exceptCb_eq (h : s.heap p = some c) (hcb : c.exceptCb = some .excepter)
    (hkey : s.connIsExists c.sock = true) : s.exceptCb p = .ok (s.drop p c.sock) := by
  unfold exceptCb
  rw [deref_of h]
  simp [bind, Except.bind, hcb, excepter_eq h hkey]

/-! ### `Accepter` -/

/-- The answers that the accept loop takes. -/
def acceptScan : List AcceptAns → Option (List AcceptAns)
  | [] => none
  | .conn fd added :: as => (acceptScan as).map (.conn fd added :: ·)
  | .fail e :: as =>
    if e.again then some [.fail e]
    else if e = .EINTR then (acceptScan as).map (.fail e :: ·)
    else some [.fail e]

/-- What one answer to `accept` leaves. -/
def acceptStep (s : TcpServer) (a : AcceptAns) : TcpServer :=
  let s := s.log (.accept a)
  match a with
  | .fail _ => s
  | .conn fd added =>
    let s := { s with isOpen := update s.isOpen fd true }
    s.addConnection fd added (some .recver) (some .sender) (some .excepter)

theorem accepter_eq (s : TcpServer) (as : List AcceptAns) :
    s.accepter as = match acceptScan as with
      | none => .error .pending
      | some used => .ok (used.foldl acceptStep s) := by
  induction as generalizing s with
  | nil => rfl
  | cons a as ih =>
    unfold accepter at ih ⊢
    rw [loop]
    cases a with
    | conn fd added =>
      simp only [accepter.turn, acceptScan]
      rw [ih]
      cases acceptScan as <;> rfl
    | fail e =>
      simp only [accepter.turn, acceptScan]
      by_cases h1 : e.again
      · simp [h1, acceptStep]
      · by_cases h2 : e = .EINTR
        · subst h2
          simp only [h1, Bool.false_eq_true, if_false, if_true]
          rw [ih]
          cases acceptScan as <;> rfl
        · simp [h1, h2, acceptStep]

/-! ### `Recver` -/

/-- The answers that the read loop takes, and whether it ends because nothing is left to read; none
when the loop is not left. -/
def recvScan : List RecvAns → Option (List RecvAns × Bool)
  | [] => none
  | .bytes b :: as =>
    if b.length = 0 then some ([.bytes b], false)
    else (recvScan as).map fun r => (.bytes b :: r.1, r.2)
  | .fail e :: as =>
    if e.again then some ([.fail e], true)
    else if e = .EINTR then (recvScan as).map fun r => (.fail e :: r.1, r.2)
    else none

/-- `recv` failed, and not for want of data. -/
def broken : RecvAns → Bool
  | .bytes _ => false
  | .fail e => !e.again && e ≠ .EINTR

/-- What keeps the read loop from being left. -/
def recvStop (as : List RecvAns) : Stop := if as.any broken then .badLog else .pending

/-- What is appended to `_in_buffer`. -/
def recvData (as : List RecvAns) : Bytes :=
  as.flatMap fun
    | .bytes b => cStr b
    | .fail _ => []

/-- The state when the read loop is left without an error. -/
def readIn (s : TcpServer) (p : Ptr) (c : Connection) (used : List RecvAns) : TcpServer :=
  (s.logs (used.map (.recv p))).store p { c with inBuffer := c.inBuffer ++ recvData used }

theorem recver_turn_bytes (hc : s.heap p = some c) {b : Bytes} (hb : b.length ≠ 0) :
    recver.turn p s (.bytes b) = .ok (.again ((s.log (.recv p (.bytes b))).store p
      { c with inBuffer := c.inBuffer ++ cStr b })) := by
  unfold recver.turn
  rw [deref_of hc]
  simp only [bind, Except.bind, if_neg hb]
  rfl

theorem recver_turn_again (hc : s.heap p = some c) {e : Errno} (he : e.again = true) :
    recver.turn p s (.fail e) = .ok (.leave (s.log (.recv p (.fail e)), true)) := by
  unfold recver.turn
  rw [deref_of hc]
  simp only [bind, Except.bind, if_pos he]
  rfl

theorem recver_turn_broken (hc : s.heap p = some c) {e : Errno} (h1 : ¬ e.again = true)
    (h2 : e ≠ .EINTR) : recver.turn p s (.fail e) = .error .badLog := by
  unfold recver.turn
  rw [deref_of hc]
  simp only [bind, Except.bind, if_neg h1, if_neg h2]

theorem recver_turn_eintr (hc : s.heap p = some c) :
    recver.turn p s (.fail .EINTR) = .ok (.again (s.log (.recv p (.fail .EINTR)))) := by
  unfold recver.turn
  rw [deref_of hc]
  rfl

section Live

variable (hc : s.heap p = some c) (hcb : c.exceptCb = some .excepter)
  (hkey : s.connIsExists c.sock = true)

include hc hcb hkey

theorem recver_turn_eof {b : Bytes} (hb : b.length = 0) :
    recver.turn p s (.bytes b) =
      .ok (.leave ((s.log (.recv p (.bytes b))).drop p c.sock, false)) := by
  have hx : (s.log (.recv p (.bytes b))).exceptCb p =
      .ok ((s.log (.recv p (.bytes b))).drop p c.sock) :=
    exceptCb_eq (show (s.log _).heap p = some c from hc) hcb hkey
  unfold recver.turn
  rw [deref_of hc]
  simp only [bind, Except.bind, if_pos hb, hx]
  rfl

theorem recver_loop (as : List RecvAns) :
    loop (fun _ => .error .pending) (recver.turn p) s as = match recvScan as with
      | none => .error (recvStop as)
      | some (used, true) => .ok (s.readIn p c used, true)
      | some (used, false) => .ok ((s.readIn p c used).drop p c.sock, false) := by
  induction as generalizing s c with
  | nil => rfl
  | cons a as ih =>
    rw [loop]
    cases a with
    | bytes b =>
      by_cases hb : b.length = 0
      · rw [recver_turn_eof hc hcb hkey hb]
        simp [recvScan, hb, readIn]
      · rw [recver_turn_bytes hc hb]
        simp only [recvScan, if_neg hb]
        have hnext := heap_store (s.log (.recv p (.bytes b))) p
          { c with inBuffer := c.inBuffer ++ cStr b }
        rw [ih hnext hcb hkey]
        cases recvScan as with
        | none => simp [recvStop, broken]
        | some r =>
          obtain ⟨used, d⟩ := r
          cases d <;> simp [readIn, recvData]
    | fail e =>
      by_cases h1 : e.again = true
      · rw [recver_turn_again hc h1]
        have hself : (s.log (.recv p (.fail e))).store p c = s.log (.recv p (.fail e)) :=
          store_self (show (s.log _).heap p = some c from hc)
        simp [recvScan, h1, readIn, recvData, hself]
      · by_cases h2 : e = .EINTR
        · subst h2
          rw [recver_turn_eintr hc]
          simp only [recvScan, if_neg h1, if_true]
          rw [ih (show (s.log _).heap p = some c from hc) hcb hkey]
          cases recvScan as with
          | none => simp [recvStop, broken]
          | some r =>
            obtain ⟨used, d⟩ := r
            cases d <;> simp [readIn, recvData]
        · rw [recver_turn_broken hc h1 h2]
          simp [recvScan, h1, h2, recvStop, broken]

end Live

/-- The frame that `NetCal` appends for one message. -/
def reply (left : Request) (request : Bytes) : Except ArithFault Bytes :=
  match calculatorHelp (left.deserialize request).2 with
  | .ok resp => .ok (enCode resp.serialize)
  | .error f => .error f

/-- The frames for the messages of one call of `Recver`. -/
def replies (mem : ℕ → Request) : List Bytes → Except ArithFault Bytes
  | [] => .ok []
  | m :: messages =>
    match reply (mem messages.length) m with
    | .ok r =>
      match replies mem messages with
      | .ok rs => .ok (r ++ rs)
      | .error f => .error f
    | .error f => .error f

theorem replies_nil {mem : ℕ → Request} {out : Bytes} (h : replies mem [] = .ok out) :
    out = [] := by
  cases h; rfl

theorem reply_ne_nil {left : Request} {m r : Bytes} (h : reply left m = .ok r) : r ≠ [] := by
  unfold reply at h
  split at h
  · obtain rfl : _ = r := Except.ok.inj h
    simp [enCode, SEP]
  · cases h

theorem replies_ne_nil {mem : ℕ → Request} {messages : List Bytes} {out : Bytes}
    (h : replies mem messages = .ok out) (hm : messages ≠ []) : out ≠ [] := by
  cases messages with
  | nil => exact absurd rfl hm
  | cons m ms =>
    rw [replies] at h
    split at h
    · rename_i r hr
      split at h
      · obtain rfl : _ = out := Except.ok.inj h
        simp [reply_ne_nil hr]
      · cases h
    · cases h

theorem netCal_eq (hc : s.heap p = some c) (hreg : s.epoll c.sock ≠ none) (left : Request)
    (m : Bytes) :
    s.netCal left p m = match reply left m with
      | .ok r => .ok ((s.store p { c with outBuffer := c.outBuffer ++ r }).setOut c.sock true)
      | .error f => .error (.arith f) := by
  unfold netCal reply
  cases hr : calculatorHelp (left.deserialize m).2 with
  | error f => simp [hr, Except.mapError, bind, Except.bind]
  | ok resp =>
    have henable := enableRW_eq
      (heap_store s p { c with outBuffer := c.outBuffer ++ enCode resp.serialize }) hreg true
    simp only [hr, Except.mapError, bind, Except.bind, deref_of hc]
    exact henable

theorem handleMessages_eq (hc : s.heap p = some c) (hreg : s.epoll c.sock ≠ none)
    (mem : ℕ → Request) (messages : List Bytes) :
    handleMessages mem p messages s = match replies mem messages with
      | .ok rs => .ok (if messages = [] then s else
          ((s.logs (messages.map (.handler p))).store p
            { c with outBuffer := c.outBuffer ++ rs }).setOut c.sock true)
      | .error f => .error (.arith f) := by
  induction messages generalizing s c with
  | nil => rfl
  | cons m ms ih =>
    rw [handleMessages, replies, netCal_eq (show (s.log _).heap p = some c from hc) hreg]
    cases reply (mem ms.length) m with
    | error f => rfl
    | ok r =>
      have hnext : (((s.log (.handler p m)).store p { c with outBuffer := c.outBuffer ++ r }).setOut
          c.sock true).heap p = some { c with outBuffer := c.outBuffer ++ r } := heap_store ..
      simp only [bind, Except.bind]
      rw [ih hnext (by simp [setOut])]
      cases hrs : replies mem ms with
      | error f => rfl
      | ok rs =>
        by_cases hms : ms = []
        · subst hms; simp [replies_nil hrs]
        · simp [hms]

/-- The state when `Recver` has read `used` and handled `messages`. -/
def handled (s : TcpServer) (p : Ptr) (c : Connection) (used : List RecvAns) (rest : Bytes)
    (messages : List Bytes) (out : Bytes) : TcpServer :=
  let s := (s.logs (used.map (.recv p) ++ messages.map (.handler p))).store p
    { c with inBuffer := rest, outBuffer := c.outBuffer ++ out }
  if messages = [] then s else s.setOut c.sock true

section Handled

variable (s p c) (used : List RecvAns) (rest : Bytes) (messages : List Bytes) (out : Bytes)

@[simp] theorem heap_handled : (s.handled p c used rest messages out).heap =
    update s.heap p (some { c with inBuffer := rest, outBuffer := c.outBuffer ++ out }) := by
  unfold handled; split <;> simp [store, setOut]

@[simp] theorem connections_handled :
    (s.handled p c used rest messages out).connections = s.connections := by
  unfold handled; split <;> simp [store, setOut]

@[simp] theorem isOpen_handled : (s.handled p c used rest messages out).isOpen = s.isOpen := by
  unfold handled; split <;> simp [store, setOut]

@[simp] theorem next_handled : (s.handled p c used rest messages out).next = s.next := by
  unfold handled; split <;> simp [store, setOut]

theorem epoll_handled : (s.handled p c used rest messages out).epoll =
    if messages = [] then s.epoll else
      update s.epoll c.sock (some { epollin := true, epollout := true, epollet := true }) := by
  unfold handled; split <;> simp [store, setOut]

@[simp] theorem trace_handled : (s.handled p c used rest messages out).trace =
    s.trace ++ (used.map (.recv p) ++ messages.map (.handler p)) := by
  unfold handled; split <;> simp [store, setOut]

end Handled

theorem recver_handle_eq (hc : s.heap p = some c) (hreg : s.epoll c.sock ≠ none)
    (mem : ℕ → Request) : recver.handle mem p s true =
      match replies mem (splitMessage c.inBuffer []).2 with
      | .error f => .error (.arith f)
      | .ok out => .ok (s.handled p c [] (splitMessage c.inBuffer []).1
          (splitMessage c.inBuffer []).2 out) := by
  unfold recver.handle
  simp only [bind, Except.bind, Bool.not_true, Bool.false_eq_true, if_false, deref_of hc]
  rw [handleMessages_eq (heap_store s p _) (by simpa [store] using hreg)]
  cases hr : replies mem (splitMessage c.inBuffer []).2 with
  | error f => rfl
  | ok out =>
    by_cases hm : (splitMessage c.inBuffer []).2 = []
    · rw [hm] at hr
      simp [handled, hm, replies_nil hr]
    · simp [handled, hm]

theorem recver_eq (hc : s.heap p = some c) (hcb : c.exceptCb = some .excepter)
    (hkey : s.connIsExists c.sock = true) (hreg : s.epoll c.sock ≠ none) (mem : ℕ → Request)
    (as : List RecvAns) :
    s.recver mem p as = match recvScan as with
      | none => .error (recvStop as)
      | some (used, false) => .ok ((s.logs (used.map (.recv p))).drop p c.sock)
      | some (used, true) =>
        match replies mem (splitMessage (c.inBuffer ++ recvData used) []).2 with
        | .error f => .error (.arith f)
        | .ok out => .ok (s.handled p c used (splitMessage (c.inBuffer ++ recvData used) []).1
            (splitMessage (c.inBuffer ++ recvData used) []).2 out) := by
  unfold recver
  rw [recver_loop hc hcb hkey as]
  cases recvScan as with
  | none => rfl
  | some r =>
    obtain ⟨used, d⟩ := r
    cases d with
    | false => simp [bind, Except.bind, readIn, recver.handle, pure, Except.pure]
    | true =>
      have hread := heap_store (s.logs (used.map (.recv p))) p
        { c with inBuffer := c.inBuffer ++ recvData used }
      have hreg' : (s.readIn p c used).epoll c.sock ≠ none := by simpa [readIn, store] using hreg
      refine (recver_handle_eq hread hreg' mem).trans ?_
      simp only
      cases replies mem (splitMessage (c.inBuffer ++ recvData used) []).2 with
      | error f => rfl
      | ok out =>
        by_cases hm : (splitMessage (c.inBuffer ++ recvData used) []).2 = []
        · simp [handled, hm]
        · simp [handled, hm]

/-! ### `Sender` -/

/-- `errno` after an answer to `send`. -/
def sendErrno (e : Errno) : SendAns → Errno
  | .count _ => e
  | .fail e' => e'

/-- The calls of the write loop, from the value of `errno` and the buffer before: each buffer passed
with its answer, the buffer left, and whether sending failed; none when the loop is not left. -/
def sendScan : Errno → Bytes → List SendAns → Option (List (Bytes × SendAns) × Bytes × Bool)
  | _, _, [] => none
  | e, out, a :: as =>
    if a = .fail .EPIPE then none
    else if a.taken > 0 then
      if (out.drop a.taken).isEmpty then some ([(out, a)], out.drop a.taken, false)
      else (sendScan e (out.drop a.taken) as).map fun r => ((out, a) :: r.1, r.2)
    else if (sendErrno e a).again then some ([(out, a)], out, false)
    else if sendErrno e a = .EINTR then
      (sendScan (sendErrno e a) out as).map fun r => ((out, a) :: r.1, r.2)
    else some ([(out, a)], out, true)

/-- What keeps the write loop from being left. -/
def sendStop (as : List SendAns) : Stop := if .fail .EPIPE ∈ as then .sigpipe else .pending

def sendCalls (p : Ptr) (used : List (Bytes × SendAns)) : List Call :=
  used.map fun u => .send p u.1 u.2

theorem errno_log_send (out : Bytes) (a : SendAns) :
    (s.log (.send p out a)).errno = sendErrno s.errno a := by
  cases a <;> rfl

theorem sendErrno_of_taken {e : Errno} {a : SendAns} (h : a.taken > 0) : sendErrno e a = e := by
  cases a with
  | count n => rfl
  | fail e' => exact absurd h (lt_irrefl 0)

theorem sender_turn_epipe (hc : s.heap p = some c) :
    sender.turn p s (.fail .EPIPE) = .error .sigpipe := by
  unfold sender.turn
  rw [deref_of hc]
  rfl

theorem ne_epipe_of_taken {a : SendAns} (h : a.taken > 0) : a ≠ .fail .EPIPE := by
  rintro rfl
  exact absurd h (lt_irrefl 0)

theorem sender_turn_took (hc : s.heap p = some c) {a : SendAns} (hn : a.taken > 0) :
    sender.turn p s a = .ok (
      if (c.outBuffer.drop a.taken).isEmpty then
        .leave ((s.log (.send p c.outBuffer a)).store p
          { c with outBuffer := c.outBuffer.drop a.taken }, false)
      else .again ((s.log (.send p c.outBuffer a)).store p
          { c with outBuffer := c.outBuffer.drop a.taken })) := by
  unfold sender.turn
  rw [deref_of hc]
  simp only [bind, Except.bind]
  rw [if_neg (ne_epipe_of_taken hn), if_pos hn]
  split <;> rfl

theorem sender_turn_again (hc : s.heap p = some c) {a : SendAns} (hn : ¬ a.taken > 0)
    (h1 : (sendErrno s.errno a).again = true) :
    sender.turn p s a = .ok (.leave (s.log (.send p c.outBuffer a), false)) := by
  have hpipe : a ≠ .fail .EPIPE := by
    rintro rfl
    cases h1
  unfold sender.turn
  rw [deref_of hc]
  simp only [bind, Except.bind]
  rw [if_neg hpipe, if_neg hn, errno_log_send, if_pos h1]
  rfl

theorem sender_turn_eintr (hc : s.heap p = some c) {a : SendAns} (hn : ¬ a.taken > 0)
    (h2 : sendErrno s.errno a = .EINTR) :
    sender.turn p s a = .ok (.again (s.log (.send p c.outBuffer a))) := by
  have hpipe : a ≠ .fail .EPIPE := by
    rintro rfl
    cases h2
  have h1 : ¬ (Errno.EINTR).again = true := by decide
  unfold sender.turn
  rw [deref_of hc]
  simp only [bind, Except.bind]
  rw [if_neg hpipe, if_neg hn, errno_log_send, h2, if_neg h1, if_pos rfl]
  rfl

theorem sender_turn_other (hc : s.heap p = some c) (hcb : c.exceptCb = some .excepter)
    (hkey : s.connIsExists c.sock = true) {a : SendAns} (hpipe : a ≠ .fail .EPIPE)
    (hn : ¬ a.taken > 0) (h1 : ¬ (sendErrno s.errno a).again = true)
    (h2 : sendErrno s.errno a ≠ .EINTR) :
    sender.turn p s a = .ok (.leave ((s.log (.send p c.outBuffer a)).drop p c.sock, true)) := by
  have hx : (s.log (.send p c.outBuffer a)).exceptCb p =
      .ok ((s.log (.send p c.outBuffer a)).drop p c.sock) :=
    exceptCb_eq (show (s.log _).heap p = some c from hc) hcb hkey
  unfold sender.turn
  rw [deref_of hc]
  simp only [bind, Except.bind]
  rw [if_neg hpipe, if_neg hn, errno_log_send, if_neg h1, if_neg h2, hx]
  rfl

theorem sender_loop (hc : s.heap p = some c) (hcb : c.exceptCb = some .excepter)
    (hkey : s.connIsExists c.sock = true) (as : List SendAns) :
    loop (fun _ => .error .pending) (sender.turn p) s as =
      match sendScan s.errno c.outBuffer as with
      | none => .error (sendStop as)
      | some (used, out, false) =>
        .ok ((s.logs (sendCalls p used)).store p { c with outBuffer := out }, false)
      | some (used, _, true) => .ok ((s.logs (sendCalls p used)).drop p c.sock, true) := by
  induction as generalizing s c with
  | nil => rfl
  | cons a as ih =>
    rw [loop, sendScan]
    have hlog : (s.log (.send p c.outBuffer a)).heap p = some c := hc
    by_cases hpipe : a = .fail .EPIPE
    · subst hpipe
      rw [sender_turn_epipe hc, if_pos rfl]
      simp [sendStop]
    rw [if_neg hpipe]
    have hstop : sendStop (a :: as) = sendStop as := by
      simp [sendStop, Ne.symm hpipe]
    by_cases hn : a.taken > 0
    · have herr : (s.log (.send p c.outBuffer a)).errno = s.errno := by
        rw [errno_log_send, sendErrno_of_taken hn]
      rw [sender_turn_took hc hn, if_pos hn]
      by_cases he : (c.outBuffer.drop a.taken).isEmpty = true
      · simp [he, sendCalls]
      · have hnext := ih (heap_store (s.log (.send p c.outBuffer a)) p
          { c with outBuffer := c.outBuffer.drop a.taken }) hcb hkey
        simp only [if_neg he]
        rw [hnext, show ((s.log (.send p c.outBuffer a)).store p
          { c with outBuffer := c.outBuffer.drop a.taken }).errno = s.errno from herr]
        cases sendScan s.errno (c.outBuffer.drop a.taken) as with
        | none => simp [hstop]
        | some r =>
          obtain ⟨used, out, d⟩ := r
          cases d <;> simp [sendCalls]
    · rw [if_neg hn]
      by_cases h1 : (sendErrno s.errno a).again = true
      · rw [sender_turn_again hc hn h1, if_pos h1]
        have hself : (s.log (.send p c.outBuffer a)).store p c = s.log (.send p c.outBuffer a) :=
          store_self hlog
        simp [sendCalls, hself]
      · rw [if_neg h1]
        by_cases h2 : sendErrno s.errno a = .EINTR
        · rw [sender_turn_eintr hc hn h2, if_pos h2]
          simp only
          rw [ih hlog hcb hkey, errno_log_send]
          cases sendScan (sendErrno s.errno a) c.outBuffer as with
          | none => simp [hstop]
          | some r =>
            obtain ⟨used, out, d⟩ := r
            cases d <;> simp [sendCalls]
        · rw [sender_turn_other hc hcb hkey hpipe hn h1 h2, if_neg h2]
          simp [sendCalls]

/-- The state when `Sender` has made the calls `used` and left `out`. -/
def flushed (s : TcpServer) (p : Ptr) (c : Connection) (used : List (Bytes × SendAns))
    (out : Bytes) : TcpServer :=
  ((s.logs (sendCalls p used)).store p { c with outBuffer := out }).setOut c.sock (!out.isEmpty)

section Flushed

variable (s p c) (used : List (Bytes × SendAns)) (out : Bytes)

@[simp] theorem heap_flushed : (s.flushed p c used out).heap =
    update s.heap p (some { c with outBuffer := out }) := by
  simp [flushed, store, setOut]

@[simp] theorem connections_flushed : (s.flushed p c used out).connections = s.connections := by
  simp [flushed, store, setOut]

@[simp] theorem isOpen_flushed : (s.flushed p c used out).isOpen = s.isOpen := by
  simp [flushed, store, setOut]

@[simp] theorem next_flushed : (s.flushed p c used out).next = s.next := by
  simp [flushed, store, setOut]

theorem epoll_flushed : (s.flushed p c used out).epoll =
    update s.epoll c.sock
      (some { epollin := true, epollout := !out.isEmpty, epollet := true }) := by
  simp [flushed, store, setOut]

@[simp] theorem trace_flushed : (s.flushed p c used out).trace = s.trace ++ sendCalls p used := by
  simp [flushed, store, setOut]

end Flushed

theorem sender_finish_eq (hc : s.heap p = some c) (hreg : s.epoll c.sock ≠ none) :
    sender.finish p s false = .ok (s.setOut c.sock (!c.outBuffer.isEmpty)) := by
  unfold sender.finish
  simp only [bind, Except.bind, Bool.false_eq_true, if_false, deref_of hc]
  cases c.outBuffer.isEmpty with
  | true => exact enableRW_eq hc hreg false
  | false => exact enableRW_eq hc hreg true

theorem sender_eq (hc : s.heap p = some c) (hcb : c.exceptCb = some .excepter)
    (hkey : s.connIsExists c.sock = true) (hreg : s.epoll c.sock ≠ none) (as : List SendAns) :
    s.sender p as = match sendScan s.errno c.outBuffer as with
      | none => .error (sendStop as)
      | some (used, out, false) => .ok (s.flushed p c used out)
      | some (used, _, true) => .ok ((s.logs (sendCalls p used)).drop p c.sock) := by
  unfold sender
  rw [sender_loop hc hcb hkey as]
  cases sendScan s.errno c.outBuffer as with
  | none => rfl
  | some r =>
    obtain ⟨used, out, d⟩ := r
    cases d with
    | true => rfl
    | false =>
      have hst := heap_store (s.logs (sendCalls p used)) p { c with outBuffer := out }
      exact sender_finish_eq hst (by simpa [store] using hreg)

end Callbacks

/-! ### What the write loop has done -/

/-- The bytes that the kernel took. -/
def sentOf (used : List (Bytes × SendAns)) : Bytes := used.flatMap fun u => u.1.take u.2.taken

/-- **The write loop call by call**: from the value of `errno` and the buffer before, the calls
made, the buffer left, and whether sending failed. -/
inductive SendLoop : Errno → Bytes → List (Bytes × SendAns) → Bytes → Bool → Prop
  | done {e : Errno} {out : Bytes} {a : SendAns} (hn : 0 < a.taken)
      (hall : out.drop a.taken = []) : SendLoop e out [(out, a)] [] false
  | took {e : Errno} {out rest : Bytes} {a : SendAns} {used : List (Bytes × SendAns)} {d : Bool}
      (hn : 0 < a.taken) (hmore : out.drop a.taken ≠ [])
      (h : SendLoop e (out.drop a.taken) used rest d) : SendLoop e out ((out, a) :: used) rest d
  | full {e : Errno} {out : Bytes} {a : SendAns} (h0 : a.taken = 0)
      (h1 : (sendErrno e a).again = true) : SendLoop e out [(out, a)] out false
  | interrupted {e : Errno} {out rest : Bytes} {a : SendAns} {used : List (Bytes × SendAns)}
      {d : Bool} (h0 : a.taken = 0) (h : SendLoop (sendErrno e a) out used rest d) :
      SendLoop e out ((out, a) :: used) rest d
  | failed {e : Errno} {out : Bytes} {a : SendAns} (h0 : a.taken = 0) :
      SendLoop e out [(out, a)] out true

variable {e : Errno} {out rest : Bytes} {as : List SendAns} {used : List (Bytes × SendAns)}
  {d : Bool}

theorem SendLoop.of_scan (h : sendScan e out as = some (used, rest, d)) :
    SendLoop e out used rest d := by
  induction as generalizing e out used with
  | nil => cases h
  | cons a as ih =>
    rw [sendScan] at h
    split_ifs at h with hpipe hn hall h1 h2
    · obtain ⟨rfl, rfl, rfl⟩ : _ ∧ _ ∧ _ := by simpa using h
      rw [List.isEmpty_iff] at hall
      rw [hall]
      exact .done hn hall
    · obtain ⟨⟨u, r, d'⟩, hr, heq⟩ := Option.map_eq_some_iff.1 h
      obtain ⟨rfl, rfl, rfl⟩ : _ ∧ _ ∧ _ := by simpa using heq
      exact .took hn (by simpa using hall) (ih hr)
    all_goals have h0 : a.taken = 0 := by omega
    · obtain ⟨rfl, rfl, rfl⟩ : _ ∧ _ ∧ _ := by simpa using h
      exact .full h0 h1
    · obtain ⟨⟨u, r, d'⟩, hr, heq⟩ := Option.map_eq_some_iff.1 h
      obtain ⟨rfl, rfl, rfl⟩ : _ ∧ _ ∧ _ := by simpa using heq
      exact .interrupted h0 (ih hr)
    · obtain ⟨rfl, rfl, rfl⟩ : _ ∧ _ ∧ _ := by simpa using h
      exact .failed h0

theorem SendLoop.sent (h : SendLoop e out used rest d) : sentOf used ++ rest = out := by
  induction h with
  | @done e out a hn hall =>
    have hout := List.take_append_drop a.taken out
    rw [hall] at hout
    simpa [sentOf] using hout
  | @took e out rest a used d hn hmore h ih =>
    simp only [sentOf, List.flatMap_cons, List.append_assoc] at ih ⊢
    rw [ih, List.take_append_drop]
  | full h0 => simp [sentOf, h0]
  | interrupted h0 h ih => simpa [sentOf, h0] using ih
  | failed h0 => simp [sentOf, h0]

theorem SendLoop.bufs (h : SendLoop e out used rest d) (hout : out ≠ []) :
    ∀ u ∈ used, u.1 ≠ [] := by
  induction h with
  | done | full | failed => simpa using hout
  | took hn hmore h ih => simpa [hout] using ih hmore
  | interrupted h0 h ih => simpa [hout] using ih hout

end TcpServer

end NetProg.Reactor
