import NetProg.Reactor.Client
import NetProg.Reactor.EndToEnd

/-!
# Client and server in lock step

The client's loop and the server's handling of its connection, joined by two byte channels. The
parties take their steps in any order, one system call at a time: `recv` takes any non-empty part
from the front of its channel, the server's `send` takes any positive part of what it is given, and
a call of the server may also be interrupted or find the kernel exhausted.

`Exchange` says what the two channels and the three buffers hold together: nothing, one request, or
one answer. Every step keeps it (`Joint.step`), and `lock_step` draws the conclusions.
-/

namespace NetProg.Reactor

open NetProg.Lib Function Relation TcpServer

/-! ### The two parties -/

/-- The loop of the server that the connection is in. -/
inductive Phase where
  | idle
  | reading
  | writing
  deriving DecidableEq, Repr

/-- One turn of the read loop, with what `Recver` does behind it when it is left. -/
def readTurn (mem : ℕ → Request) (p : Ptr) (s : TcpServer) (a : RecvAns) :
    Run (TcpServer × Phase) := do
  match ← recver.turn p s a with
  | .again s => return (s, .reading)
  | .leave (s, handle) => return (← recver.handle mem p s handle, .idle)

/-- One turn of the write loop, with what `Sender` does behind it when it is left. -/
def writeTurn (p : Ptr) (s : TcpServer) (a : SendAns) : Run (TcpServer × Phase) := do
  match ← sender.turn p s a with
  | .again s => return (s, .writing)
  | .leave (s, sendError) => return (← sender.finish p s sendError, .idle)

structure System where
  client : Client
  /-- the bytes on their way to the server, and to the client -/
  c2s : Bytes
  s2c : Bytes
  server : TcpServer
  phase : Phase

/-- What `recv` can do on a channel: take some bytes from its front, or fail for the moment. -/
inductive Receives : Bytes → RecvAns → Bytes → Prop
  | bytes {b rest : Bytes} (hb : b ≠ []) : Receives (b ++ rest) (.bytes b) rest
  | again {s : Bytes} {e : Errno} (he : e.again = true) : Receives s (.fail e) s
  | interrupted {s : Bytes} : Receives s (.fail .EINTR) s

/-- What `send` can do with a buffer: take a positive part of it, or fail for the moment. -/
inductive Sends (buf : Bytes) : SendAns → Prop
  | count {n : ℕ} (hn : 0 < n) (hle : n ≤ buf.length) : Sends buf (.count n)
  | again {e : Errno} (he : e.again = true) : Sends buf (.fail e)
  | interrupted : Sends buf (.fail .EINTR)

/-- A step of a party; `p` is the connection on the server's side. -/
inductive System.Step (p : Ptr) : System → System → Prop
  | ask {y : System} {client : Client} {reqStr : Bytes}
      (h : y.client.ask (.count reqStr.length) = some (reqStr, client)) :
      Step p y { y with client, c2s := y.c2s ++ reqStr }
  | answer {y : System} {client : Client} {b s2c : Bytes} (hb : Receives y.s2c (.bytes b) s2c)
      (h : y.client.turn (.bytes b) = some client) : Step p y { y with client, s2c }
  | startRead {y : System} (h : y.phase = .idle) : Step p y { y with phase := .reading }
  | read {y : System} {a : RecvAns} {c2s : Bytes} {mem : ℕ → Request} {server : TcpServer}
      {phase : Phase} (hp : y.phase = .reading) (ha : Receives y.c2s a c2s)
      (h : readTurn mem p y.server a = .ok (server, phase)) : Step p y { y with server, phase, c2s }
  | startWrite {y : System} (h : y.phase = .idle) : Step p y { y with phase := .writing }
  | write {y : System} {conn : Connection} {a : SendAns} {server : TcpServer} {phase : Phase}
      (hp : y.phase = .writing) (hc : y.server.heap p = some conn) (ha : Sends conn.outBuffer a)
      (h : writeTurn p y.server a = .ok (server, phase)) :
      Step p y { y with server, phase, s2c := y.s2c ++ conn.outBuffer.take a.taken }

/-! ### What the server's turns do to the connection -/

section Server

variable {s s' : TcpServer} {p : Ptr} {c : Connection} {phase : Phase} {mem : ℕ → Request}

theorem readTurn_bytes (hc : s.heap p = some c) {b : Bytes} (hb : b ≠ [])
    (h : readTurn mem p s (.bytes b) = .ok (s', phase)) :
    s'.heap p = some { c with inBuffer := c.inBuffer ++ cStr b } ∧ s'.epoll = s.epoll := by
  rw [readTurn, recver_turn_bytes hc (by simpa using hb)] at h
  cases h
  exact ⟨heap_store .., rfl⟩

theorem readTurn_interrupted (hc : s.heap p = some c)
    (h : readTurn mem p s (.fail .EINTR) = .ok (s', phase)) :
    s'.heap p = some c ∧ s'.epoll = s.epoll := by
  rw [readTurn, recver_turn_eintr hc] at h
  cases h
  exact ⟨hc, rfl⟩

theorem readTurn_again (hc : s.heap p = some c) (hreg : s.epoll c.sock ≠ none) {e : Errno}
    (he : e.again = true) (h : readTurn mem p s (.fail e) = .ok (s', phase)) :
    ∃ out, replies mem (splitMessage c.inBuffer []).2 = .ok out ∧
      s'.heap p = some { c with inBuffer := (splitMessage c.inBuffer []).1,
                                outBuffer := c.outBuffer ++ out } ∧ s'.epoll c.sock ≠ none := by
  rw [readTurn, recver_turn_again hc he] at h
  have hc' : (s.log (.recv p (.fail e))).heap p = some c := hc
  simp only [bind, Except.bind, recver_handle_eq hc' hreg] at h
  cases hr : replies mem (splitMessage c.inBuffer []).2 with
  | error f => rw [hr] at h; cases h
  | ok out =>
    rw [hr] at h
    cases h
    refine ⟨out, rfl, by simp, ?_⟩
    rw [epoll_handled]
    split
    · exact hreg
    · simp

theorem writeTurn_spec (hc : s.heap p = some c) (hreg : s.epoll c.sock ≠ none) {a : SendAns}
    (ha : Sends c.outBuffer a) (h : writeTurn p s a = .ok (s', phase)) :
    s'.heap p = some { c with outBuffer := c.outBuffer.drop a.taken } ∧ s'.epoll c.sock ≠ none := by
  have hc' : (s.log (.send p c.outBuffer a)).heap p = some c := hc
  rw [writeTurn] at h
  cases ha with
  | @count n hn hle =>
    rw [sender_turn_took hc (a := .count n) hn] at h
    by_cases hout : (c.outBuffer.drop (SendAns.count n).taken).isEmpty = true
    · have hst := heap_store (s.log (.send p c.outBuffer (.count n))) p
        { c with outBuffer := c.outBuffer.drop (SendAns.count n).taken }
      rw [if_pos hout] at h
      simp only [bind, Except.bind, sender_finish_eq hst hreg] at h
      cases h
      exact ⟨hst, by simp [setOut]⟩
    · rw [if_neg hout] at h
      cases h
      exact ⟨heap_store .., hreg⟩
  | @again e he =>
    rw [sender_turn_again hc (a := .fail e) (lt_irrefl 0) he] at h
    simp only [bind, Except.bind, sender_finish_eq hc' hreg] at h
    cases h
    exact ⟨hc, by simp [setOut]⟩
  | interrupted =>
    rw [sender_turn_eintr hc (lt_irrefl 0) rfl] at h
    cases h
    exact ⟨hc, hreg⟩

end Server

/-! ### One exchange at a time -/

section Exchange

variable {rs : List Request} {resp : Request → Response} {p : Ptr} {y y' : System}

/-- **What the client's place, `backStr`, the channels to and from the server, `_in_buffer` and
`_out_buffer` can be together**: everything is empty, or one request is on its way, or one answer
that the client has not got completely. -/
inductive Exchange (resp : Request → Response) :
    Place → Bytes → Bytes → Bytes → Bytes → Bytes → Prop
  | rest : Exchange resp .asking [] [] [] [] []
  | request {r : Request} {c2s inBuffer : Bytes} (h : inBuffer ++ c2s = enCode r.serialize) :
      Exchange resp (.waiting r) [] c2s [] inBuffer []
  | answer {r : Request} {backStr s2c outBuffer : Bytes}
      (h : backStr ++ s2c ++ outBuffer = enCode (resp r).serialize)
      (hpart : backStr ≠ enCode (resp r).serialize) :
      Exchange resp (.waiting r) backStr [] s2c [] outBuffer

theorem length_answer_lt (r : Response) : (enCode r.serialize).length < buffSize := by
  have h1 := length_response_serialize_le r
  have h2 : (decimal r.serialize.length).length ≤ 10 := length_decimal_le (by decide) (by omega)
  rw [length_enCode]
  unfold buffSize
  omega

section

variable {place : Place} {backStr c2s s2c i o b w out : Bytes}

theorem Exchange.ask (h : Exchange resp .asking backStr c2s s2c i o) (r : Request) :
    Exchange resp (.waiting r) backStr (c2s ++ enCode r.serialize) s2c i o := by
  cases h
  rw [List.nil_append]
  exact .request (List.nil_append _)

theorem Exchange.read (h : Exchange resp place backStr w s2c i o) (hw : w = b ++ c2s)
    (hb : b ≠ []) : ∃ r, place = .waiting r ∧ i ++ b ++ c2s = enCode r.serialize ∧
      Exchange resp place backStr c2s s2c (i ++ b) o := by
  cases h with
  | rest => exact absurd hw.symm (by simp [hb])
  | @request r _ _ h =>
    subst hw
    rw [← List.append_assoc] at h
    exact ⟨r, rfl, h, .request h⟩
  | answer => exact absurd hw.symm (by simp [hb])

theorem Exchange.handle (h : Exchange resp place backStr c2s s2c i o)
    (hcalc : ∀ r, place = .waiting r → calculatorHelp r = .ok (resp r)) {mem : ℕ → Request}
    (hout : replies mem (splitMessage i []).2 = .ok out) :
    Exchange resp place backStr c2s s2c (splitMessage i []).1 (o ++ out) := by
  cases h with
  | rest =>
    obtain rfl := replies_nil hout
    exact .rest
  | @request r _ _ h =>
    have hps := payloads_serialize [r]
    have hi : i <+: frames ([r].map Request.serialize) := ⟨c2s, by simpa [frames] using h⟩
    obtain ⟨n, rest, hs, hat⟩ := splitMessage_atFrame hps (atFrame_nil hps) i hi
    rw [List.nil_append, List.drop_zero] at hs
    rw [hs, ← List.map_take] at hout
    rw [hs]
    rw [replies_serialize fun x hx => hcalc x (by
      rw [List.mem_singleton.1 (List.mem_of_mem_take hx)])] at hout
    obtain rfl := Except.ok.inj hout
    rcases Nat.eq_zero_or_pos n with rfl | hn
    · obtain rfl : i = rest := by simpa using hat.eq
      exact .request h
    · obtain rfl : n = 1 := by
        have := hat.le
        simp at this; omega
      obtain rfl : rest = [] := hat.last rfl
      have heq : i = enCode r.serialize := by simpa using hat.eq
      obtain rfl : c2s = [] := by simpa [heq] using h
      exact .answer (by simp [answers, frames]) (enCode_ne_nil _).symm
  | answer h hpart =>
    obtain rfl := replies_nil hout
    rw [List.append_nil]
    exact .answer h hpart

theorem Exchange.write (h : Exchange resp place backStr c2s s2c i o) (n : ℕ) :
    Exchange resp place backStr c2s (s2c ++ o.take n) i (o.drop n) := by
  cases h with
  | rest => simpa using Exchange.rest
  | request h => simpa using Exchange.request h
  | answer h hpart => exact .answer (by simpa using h) hpart

theorem Exchange.take (h : Exchange resp place backStr c2s w i o) (hw : w = b ++ s2c)
    (hb : b ≠ []) : ∃ r, place = .waiting r ∧
      backStr ++ (b ++ (s2c ++ o)) = enCode (resp r).serialize ∧
      (s2c ++ o = [] → Exchange resp .asking [] c2s s2c i o) ∧
      (s2c ++ o ≠ [] → Exchange resp place (backStr ++ b) c2s s2c i o) := by
  cases h with
  | rest => exact absurd hw.symm (by simp [hb])
  | request => exact absurd hw.symm (by simp [hb])
  | @answer r _ _ _ h hpart =>
    subst hw
    refine ⟨r, rfl, by simpa using h, fun hnil => ?_, fun hne => .answer (by simpa using h) ?_⟩
    · obtain ⟨rfl, rfl⟩ := List.append_eq_nil_iff.1 hnil
      exact .rest
    · intro heq
      rw [List.append_assoc, ← heq] at h
      exact hne (by simpa using h)

theorem Exchange.inFlight (h : Exchange resp place backStr c2s s2c i o) :
    i ++ c2s = [] ∧ backStr ++ s2c ++ o = [] ∨ ∃ r, place = .waiting r ∧
      (i ++ c2s = enCode r.serialize ∧ backStr ++ s2c ++ o = [] ∨
        i ++ c2s = [] ∧ backStr ++ s2c ++ o = enCode (resp r).serialize) := by
  cases h with
  | rest => exact Or.inl ⟨rfl, rfl⟩
  | @request r _ _ h => exact Or.inr ⟨r, rfl, Or.inl ⟨h, rfl⟩⟩
  | @answer r _ _ _ h hpart => exact Or.inr ⟨r, rfl, Or.inr ⟨rfl, h⟩⟩

theorem Exchange.asking (h : Exchange resp .asking backStr c2s s2c i o) :
    backStr = [] ∧ i = [] ∧ o = [] := by
  cases h
  exact ⟨rfl, rfl, rfl⟩

theorem Exchange.waiting {r : Request} (h : Exchange resp (.waiting r) backStr c2s s2c i o) :
    deCode backStr = ([], backStr) ∧ s2c.length < buffSize := by
  cases h with
  | request h => exact ⟨rfl, by decide⟩
  | answer h hpart =>
    have hlt := length_answer_lt (resp r)
    rw [← h, List.length_append, List.length_append] at hlt
    have hp := payload_response_serialize (resp r)
    exact ⟨deCode_part hp ⟨s2c ++ o, by simpa using h⟩ hpart, by omega⟩

end

/-! ### Every step keeps the invariant -/

/-- The request that the client waits for the answer of. -/
def Place.current : Place → List Request
  | .waiting r => [r]
  | _ => []

/-- **The joint invariant** of the two parties, for the inputs `rs`. -/
structure Joint (rs : List Request) (resp : Request → Response) (p : Ptr) (y : System) : Prop where
  exchange : ∃ conn, y.server.heap p = some conn ∧ y.server.epoll conn.sock ≠ none ∧
    Exchange resp y.client.place y.client.backStr y.c2s y.s2c conn.inBuffer conn.outBuffer
  printed : ∃ done, rs = done ++ y.client.place.current ++ y.client.inputs ∧
    y.client.printed = done.map fun r => printLine r (resp r)

theorem turn_answer {c : Client} {r : Request} {b rest : Bytes} (hplace : c.place = .waiting r)
    (hb : b ≠ []) (h : c.backStr ++ (b ++ rest) = enCode (resp r).serialize) :
    c.turn (.bytes b) = some (if rest = [] then
      { c with backStr := [], place := .asking, printed := c.printed ++ [printLine r (resp r)] }
      else { c with backStr := c.backStr ++ b }) := by
  have hlt := length_answer_lt (resp r)
  have hlen : b.length < buffSize := by
    rw [← h, List.length_append, List.length_append] at hlt
    omega
  have hfree : 0 ∉ b := fun h0 => by
    apply zero_not_mem_enCode (zero_not_mem_response_serialize (resp r))
    rw [← h]
    simp [h0]
  have hp := payload_response_serialize (resp r)
  unfold Client.turn
  rw [hplace, recv_bytes hb hlen hfree]
  by_cases hrest : rest = []
  · have hdec : deCode (c.backStr ++ b) = ((resp r).serialize, []) := by
      subst hrest
      rw [List.append_nil] at h
      have := deCode_enCode hp []
      rwa [List.append_nil, ← h] at this
    have hne : (resp r).serialize.isEmpty = false := by simpa using hp.ne
    simp [hdec, hrest, hne, response_deserialize_serialize]
  · have hdec : deCode (c.backStr ++ b) = ([], c.backStr ++ b) := by
      refine deCode_part hp ⟨rest, by rw [← h, List.append_assoc]⟩ fun heq => hrest ?_
      rw [← List.append_assoc, heq] at h
      simpa using h
    simp [hdec, hrest]

variable (hop : ∀ r ∈ rs, r.op ≠ 0) (hcalc : ∀ r ∈ rs, calculatorHelp r = .ok (resp r))

theorem Joint.ask (h : Joint rs resp p y) {client : Client} {reqStr : Bytes}
    (hs : y.client.ask (.count reqStr.length) = some (reqStr, client)) :
    Joint rs resp p { y with client, c2s := y.c2s ++ reqStr } := by
  obtain ⟨⟨conn, hc, hreg, hx⟩, done, hrs, hprinted⟩ := h
  unfold Client.ask at hs
  split at hs
  · rename_i req inputs hplace hinputs
    obtain ⟨rfl, rfl⟩ : _ ∧ _ := by simpa using hs
    have hlen : 0 < (enCode req.serialize).length := List.length_pos_of_ne_nil (enCode_ne_nil _)
    have hsent : Client.sent req (.count (enCode req.serialize).length) = .waiting req :=
      Client.sent_of_taken req hlen
    rw [hplace] at hx hrs
    rw [hinputs] at hrs
    simp only [hsent]
    exact ⟨⟨conn, hc, hreg, hx.ask req⟩, done, by simpa [Place.current] using hrs, hprinted⟩
  · cases hs

theorem Joint.answer (h : Joint rs resp p y) {client : Client} {b s2c : Bytes}
    (hb : Receives y.s2c (.bytes b) s2c) (hs : y.client.turn (.bytes b) = some client) :
    Joint rs resp p { y with client, s2c } := by
  obtain ⟨⟨conn, hc, hreg, hx⟩, done, hrs, hprinted⟩ := h
  obtain ⟨hb, hw⟩ : b ≠ [] ∧ y.s2c = b ++ s2c := by
    generalize hw : y.s2c = w at hb
    cases hb with
    | bytes hb => exact ⟨hb, rfl⟩
  obtain ⟨r, hplace, hframe, hlast, hmore⟩ := hx.take hw hb
  rw [turn_answer hplace hb hframe, Option.some.injEq] at hs
  subst hs
  by_cases hrest : s2c ++ conn.outBuffer = []
  · rw [if_pos hrest]
    refine ⟨⟨conn, hc, hreg, hlast hrest⟩, done ++ [r], ?_, ?_⟩
    · rw [hrs, hplace]; simp [Place.current]
    · rw [hprinted]; simp
  · rw [if_neg hrest]
    exact ⟨⟨conn, hc, hreg, hmore hrest⟩, done, hrs, hprinted⟩

include hop hcalc in
theorem Joint.read (h : Joint rs resp p y) {a : RecvAns} {c2s : Bytes} {mem : ℕ → Request}
    {server : TcpServer} {phase : Phase} (ha : Receives y.c2s a c2s)
    (hs : readTurn mem p y.server a = .ok (server, phase)) :
    Joint rs resp p { y with server, phase, c2s } := by
  obtain ⟨⟨conn, hc, hreg, hx⟩, done, hrs, hprinted⟩ := h
  have hmem : ∀ r, y.client.place = .waiting r → r ∈ rs := by
    rintro r hr
    rw [hrs, hr]; simp [Place.current]
  refine ⟨?_, done, hrs, hprinted⟩
  generalize hw : y.c2s = w at ha hx
  cases ha with
  | @bytes b rest hb =>
    obtain ⟨h1, h2⟩ := readTurn_bytes hc hb hs
    obtain ⟨r, hr, hframe, hx'⟩ := hx.read rfl hb
    have hfree : 0 ∉ b := fun h0 => by
      apply zero_not_mem_enCode (zero_not_mem_serialize (hop r (hmem r hr)))
      rw [← hframe]
      simp [h0]
    rw [cStr_of_free hfree] at h1
    exact ⟨_, h1, by rwa [h2], hx'⟩
  | again he =>
    obtain ⟨out, hout, h1, h2⟩ := readTurn_again hc hreg he hs
    exact ⟨_, h1, h2, hx.handle (fun r hr => hcalc r (hmem r hr)) hout⟩
  | interrupted =>
    obtain ⟨h1, h2⟩ := readTurn_interrupted hc hs
    exact ⟨conn, h1, by rwa [h2], hx⟩

theorem Joint.write (h : Joint rs resp p y) {conn : Connection} {a : SendAns} {server : TcpServer}
    {phase : Phase} (hc : y.server.heap p = some conn) (ha : Sends conn.outBuffer a)
    (hs : writeTurn p y.server a = .ok (server, phase)) :
    Joint rs resp p { y with server, phase, s2c := y.s2c ++ conn.outBuffer.take a.taken } := by
  obtain ⟨⟨conn', hc', hreg, hx⟩, hdone⟩ := h
  obtain rfl : conn' = conn := Option.some.inj (hc'.symm.trans hc)
  obtain ⟨h1, h2⟩ := writeTurn_spec hc hreg ha hs
  exact ⟨⟨_, h1, h2, hx.write a.taken⟩, hdone⟩

include hop hcalc in
/-- **Every step of a party keeps the joint invariant.** -/
theorem Joint.step (h : Joint rs resp p y) (hs : System.Step p y y') : Joint rs resp p y' := by
  cases hs with
  | ask h1 => exact h.ask h1
  | answer hb h1 => exact h.answer hb h1
  | startRead => exact ⟨h.exchange, h.printed⟩
  | read hp ha h1 => exact h.read hop hcalc ha h1
  | startWrite => exact ⟨h.exchange, h.printed⟩
  | write hp hc ha h1 => exact h.write hc ha h1

/-! ### Lock step -/

/-- A client with the inputs `rs` at its first prompt, and a server that has accepted it. -/
def System.start (rs : List Request) (s : TcpServer) : System :=
  { client := { inputs := rs }, c2s := [], s2c := [], server := s, phase := .idle }

/-- **The parties are in step**, for the inputs `rs` and the answers `resp`. -/
structure InStep (rs : List Request) (resp : Request → Response) (y : System)
    (conn : Connection) : Prop where
  /-- The lines printed are those for the first requests, in order. -/
  printed : y.client.printed =
    (rs.take y.client.printed.length).map fun r => printLine r (resp r)
  /-- Nothing is in flight, or the next request, or its answer. -/
  inFlight : conn.inBuffer ++ y.c2s = [] ∧ y.client.backStr ++ y.s2c ++ conn.outBuffer = [] ∨
    ∃ r, rs[y.client.printed.length]? = some r ∧
      (conn.inBuffer ++ y.c2s = enCode r.serialize ∧
          y.client.backStr ++ y.s2c ++ conn.outBuffer = [] ∨
        conn.inBuffer ++ y.c2s = [] ∧
          y.client.backStr ++ y.s2c ++ conn.outBuffer = enCode (resp r).serialize)
  /-- At the prompt all buffers are empty. -/
  asking : y.client.place = .asking →
    y.client.backStr = [] ∧ conn.inBuffer = [] ∧ conn.outBuffer = []
  /-- When `Recv` is called, `backStr` holds no complete answer, and the array is large enough. -/
  waiting : ∀ r, y.client.place = .waiting r →
    deCode y.client.backStr = ([], y.client.backStr) ∧ y.s2c.length < buffSize
  /-- The client does not give up. -/
  goes : y.client.place ≠ .quit ∧ y.client.place ≠ .killed

theorem Joint.inStep (h : Joint rs resp p y) :
    ∃ conn, y.server.heap p = some conn ∧ InStep rs resp y conn := by
  obtain ⟨⟨conn, hc, -, hx⟩, done, hrs, hprinted⟩ := h
  have hlen : y.client.printed.length = done.length := by rw [hprinted, List.length_map]
  have hnext : ∀ r, y.client.place = .waiting r → rs[y.client.printed.length]? = some r := by
    intro r hr
    rw [hlen, hrs, hr]; simp [Place.current]
  refine ⟨conn, hc, ?_, ?_, ?_, ?_, ?_⟩
  · rw [hlen, hrs, List.append_assoc, List.take_left, hprinted]
  · rcases hx.inFlight with h | ⟨r, hr, h⟩
    · exact Or.inl h
    · exact Or.inr ⟨r, hnext r hr, h⟩
  · intro hp
    rw [hp] at hx
    exact hx.asking
  · intro r hp
    rw [hp] at hx
    exact hx.waiting
  · constructor
    all_goals
      intro hp
      rw [hp] at hx
      cases hx

include hop hcalc in
/-- **Lock step.** From a connection that was just accepted, in every order of the parties' steps:
the lines printed are the answers to the first requests in order, at most one request or answer is
in flight, all buffers are empty at the prompt, and `Recv` is never called with a complete answer in
`backStr`. -/
theorem lock_step {s : TcpServer} {conn : Connection} (hc : s.heap p = some conn)
    (hreg : s.epoll conn.sock ≠ none) (hin : conn.inBuffer = []) (hout : conn.outBuffer = [])
    (h : ReflTransGen (System.Step p) (System.start rs s) y) :
    ∃ conn, y.server.heap p = some conn ∧ InStep rs resp y conn := by
  apply Joint.inStep
  induction h with
  | refl =>
    refine ⟨⟨conn, hc, hreg, ?_⟩, [], rfl, rfl⟩
    rw [hin, hout]
    exact .rest
  | tail _ hstep ih => exact ih.step hop hcalc hstep

end Exchange

/-- The client asks for `1 + 1` and for `2 + 3`; the first request and its answer come in parts. -/
theorem exists_exchanges : ∃ y : System,
    ReflTransGen (System.Step 1) (System.start [⟨1, 1, 43⟩, ⟨2, 3, 43⟩] oneClient) y ∧
      y.client.printed = [.result 1 43 1 2, .result 2 43 3 5] := by
  have h : ReflTransGen (System.Step 1) (System.start [⟨1, 1, 43⟩, ⟨2, 3, 43⟩] oneClient) _ := .refl
  have h := h.tail (@System.Step.ask 1 _ _ [53, 13, 10, 49, 32, 43, 32, 49, 13, 10] rfl)
  have h := h.tail (.startRead rfl)
  have h := h.tail (@System.Step.read 1 _ _ _ (fun _ => ⟨0, 0, 0⟩) _ _ rfl
    (@Receives.bytes [53, 13] [10, 49, 32, 43, 32, 49, 13, 10] (by decide)) rfl)
  have h := h.tail (@System.Step.read 1 _ _ _ (fun _ => ⟨0, 0, 0⟩) _ _ rfl
    (@Receives.bytes [10, 49, 32, 43, 32, 49, 13, 10] [] (by decide)) rfl)
  have h := h.tail (@System.Step.read 1 _ _ _ (fun _ => ⟨0, 0, 0⟩) _ _ rfl
    (@Receives.again _ .EAGAIN rfl) rfl)
  have h := h.tail (.startWrite rfl)
  have h := h.tail (.write rfl rfl (@Sends.count _ 3 (by decide) (by decide)) rfl)
  have h := h.tail (.write rfl rfl (@Sends.count _ 5 (by decide) (by decide)) rfl)
  have h := h.tail (.answer (@Receives.bytes [51] [13, 10, 48, 32, 50, 13, 10] (by decide)) rfl)
  have h := h.tail (.answer (@Receives.bytes [13, 10, 48, 32, 50, 13, 10] [] (by decide)) rfl)
  have h := h.tail (@System.Step.ask 1 _ _ [53, 13, 10, 50, 32, 43, 32, 51, 13, 10] rfl)
  have h := h.tail (.startRead rfl)
  have h := h.tail (@System.Step.read 1 _ _ _ (fun _ => ⟨0, 0, 0⟩) _ _ rfl
    (@Receives.bytes [53, 13, 10, 50, 32, 43, 32, 51, 13, 10] [] (by decide)) rfl)
  have h := h.tail (@System.Step.read 1 _ _ _ (fun _ => ⟨0, 0, 0⟩) _ _ rfl
    (@Receives.again _ .EAGAIN rfl) rfl)
  have h := h.tail (.startWrite rfl)
  have h := h.tail (.write rfl rfl (@Sends.count _ 8 (by decide) (by decide)) rfl)
  have h := h.tail (.answer (@Receives.bytes [51, 13, 10, 48, 32, 53, 13, 10] [] (by decide)) rfl)
  exact ⟨_, h, rfl⟩

theorem lock_step_example : ∃ y conn,
    y.client.printed = [.result 1 43 1 2, .result 2 43 3 5] ∧ y.server.heap 1 = some conn ∧
      InStep [⟨1, 1, 43⟩, ⟨2, 3, 43⟩] (fun r => ⟨r.x + r.y, 0⟩) y conn := by
  obtain ⟨y, hrun, hprinted⟩ := exists_exchanges
  have hc : oneClient.heap 1 = some (newClient 5) := rfl
  have hcalc : ∀ r ∈ [(⟨1, 1, 43⟩ : Request), ⟨2, 3, 43⟩],
      calculatorHelp r = .ok ⟨r.x + r.y, 0⟩ := by
    intro r hr
    simp only [List.mem_cons, List.not_mem_nil, or_false] at hr
    rcases hr with rfl | rfl <;> rfl
  obtain ⟨conn, hconn, hstep⟩ :=
    lock_step (by decide) hcalc hc (Option.some_ne_none _) rfl rfl hrun
  exact ⟨y, conn, hprinted, hconn, hstep⟩

end NetProg.Reactor
