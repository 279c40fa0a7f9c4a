import NetProg.Reactor.EndToEnd

/-!
# Whatever the peers send

Nothing is assumed here of the bytes received. What a connection dispatches and sends is determined
by the bytes received on it, their division into read rounds, and what the stack held; and what is
sent on it is well formed even when what was received is not: whole answers, one for each message
dispatched, that the peer's `SplitMessage` takes apart again.
-/

namespace NetProg.Reactor

open NetProg.Lib TcpServer

/-- The response can be the one to a message; what the message does not tell of its request is what
the memory of the local `req` held. -/
def AnswerOf (message : Bytes) (resp : Response) : Prop :=
  ∃ left : Request, calculatorHelp (left.deserialize message).2 = .ok resp

variable {mem : ℕ → Request} {ms : List Bytes} {out b : Bytes}

theorem reply_eq_ok {left : Request} {m : Bytes} (h : reply left m = .ok out) :
    ∃ resp, AnswerOf m resp ∧ out = enCode resp.serialize := by
  unfold reply at h
  split at h
  · rename_i resp hresp
    exact ⟨resp, ⟨left, hresp⟩, (Except.ok.inj h).symm⟩
  · cases h

theorem replies_eq_ok (h : replies mem ms = .ok out) : ∃ resps : List Response,
    List.Forall₂ AnswerOf ms resps ∧ out = frames (resps.map Response.serialize) := by
  induction ms generalizing out with
  | nil => exact ⟨[], .nil, replies_nil h⟩
  | cons m ms ih =>
    rw [replies] at h
    split at h
    · rename_i r hr
      split at h
      · rename_i rs hrs
        obtain ⟨resp, hresp, rfl⟩ := reply_eq_ok hr
        obtain ⟨resps, hresps, rfl⟩ := ih hrs
        refine ⟨resp :: resps, .cons hresp hresps, ?_⟩
        rw [← Except.ok.inj h]
        rfl
      · cases h
    · cases h

theorem receive_concat {chunks : List Bytes} {rest rest' chunk : Bytes} {ms' : List Bytes}
    (h : receive b chunks = (rest, ms)) (h' : splitMessage (rest ++ chunk) [] = (rest', ms')) :
    receive b (chunks ++ [chunk]) = (rest', ms ++ ms') := by
  induction chunks generalizing b ms with
  | nil =>
    obtain ⟨rfl, rfl⟩ : b = rest ∧ [] = ms := by simpa [receive] using h
    simp [receive, h']
  | cons c cs ih =>
    simp only [receive, Prod.mk.injEq] at h
    obtain ⟨rfl, rfl⟩ := h
    have hrest := @ih (receive (splitMessage (b ++ c) []).1 cs).2 (splitMessage (b ++ c) []).1 rfl
    simp [receive, hrest]

theorem recvData_append (as as' : List RecvAns) :
    recvData (as ++ as') = recvData as ++ recvData as' := List.flatMap_append

/-- What the rounds of reading have put into `_in_buffer`, one after another: a round ends with the
answer that nothing is left to read, and the one under way has got the bytes `got`. -/
def readRounds (got : Bytes) : List RecvAns → List Bytes
  | [] => []
  | .bytes buff :: as => readRounds (got ++ cStr buff) as
  | .fail e :: as => if e.again then got :: readRounds [] as else readRounds got as

theorem readRounds_of_scan {as used : List RecvAns} (h : recvScan as = some (used, true))
    (got : Bytes) (as' : List RecvAns) :
    readRounds got (used ++ as') = (got ++ recvData used) :: readRounds [] as' := by
  induction as generalizing used got with
  | nil => cases h
  | cons a as ih =>
    cases a with
    | bytes buff =>
      simp only [recvScan] at h
      split at h
      · cases h
      · obtain ⟨⟨used', _⟩, h', heq⟩ := Option.map_eq_some_iff.1 h
        cases heq
        rw [List.cons_append, readRounds, ih h']
        simp [recvData]
    | fail e =>
      simp only [recvScan] at h
      split at h
      · rename_i hagain
        cases h
        simp [readRounds, hagain, recvData]
      · rename_i hagain
        split at h
        · obtain ⟨⟨used', _⟩, h', heq⟩ := Option.map_eq_some_iff.1 h
          cases heq
          rw [List.cons_append, readRounds, if_neg hagain, ih h']
          simp [recvData]
        · cases h

section Session

variable {c : Connection} {R : List RecvAns} {S : List (Bytes × SendAns)} {M : List Bytes}

theorem Session.readRounds_append (h : Session c R S M) (as : List RecvAns) :
    readRounds [] (R ++ as) = readRounds [] R ++ readRounds [] as := by
  induction h generalizing as with
  | start => rfl
  | read _ hscan _ _ ih =>
    have hlast := readRounds_of_scan hscan [] []
    rw [List.append_nil] at hlast
    rw [List.append_assoc, ih, readRounds_of_scan hscan, ih, hlast]
    simp [readRounds]
  | wrote _ _ ih => exact ih as

/-- **A session on its own**: the messages are those of `SplitMessage` on what the rounds of reading
have brought, and each has got its answer. -/
theorem Session.apart (h : Session c R S M) : (readRounds [] R).flatten = recvData R ∧
    receive [] (readRounds [] R) = (c.inBuffer, M) ∧ ∃ resps, List.Forall₂ AnswerOf M resps ∧
      sentOf S ++ c.outBuffer = frames (resps.map Response.serialize) := by
  induction h with
  | start hin hout => exact ⟨rfl, by rw [hin]; rfl, [], .nil, by rw [hout]; rfl⟩
  | @read c R S M as used rest out messages mem h hscan hsplit hout ih =>
    obtain ⟨hflat, hreceive, resps, hresps, hsent⟩ := ih
    obtain ⟨resps', hresps', rfl⟩ := replies_eq_ok hout
    have hlast := readRounds_of_scan hscan [] []
    rw [List.append_nil, List.nil_append] at hlast
    rw [h.readRounds_append, hlast]
    refine ⟨?_, receive_concat hreceive hsplit, resps ++ resps', List.rel_append hresps hresps', ?_⟩
    · rw [List.flatten_append, hflat, recvData_append]
      simp [readRounds]
    · rw [List.map_append, frames_append, ← hsent, List.append_assoc]
  | wrote h hscan ih =>
    obtain ⟨hflat, hreceive, resps, hresps, hsent⟩ := ih
    refine ⟨hflat, hreceive, resps, hresps, ?_⟩
    rw [← hsent, ← (SendLoop.of_scan hscan).sent, sentOf, List.flatMap_append, List.append_assoc]
    rfl

end Session

/-- **Isolation on any input.** For every live connection of every run: the messages dispatched and
the rest in `_in_buffer` are what `SplitMessage` makes of what was read on this connection (each
result up to its NUL), round by round; what was sent and what waits are the frames of one answer for
each message; and the peer that takes apart what was sent gets whole answers, in order. -/
theorem isolated {L : Fd} {c : Config} (h : Reach L c) {p : Ptr} {conn : Connection}
    (hc : c.server.heap p = some conn) :
    (readRounds [] (recvs p c.server.trace)).flatten = recvData (recvs p c.server.trace) ∧
      receive [] (readRounds [] (recvs p c.server.trace)) =
        (conn.inBuffer, requests p c.server.trace) ∧
      ∃ resps, List.Forall₂ AnswerOf (requests p c.server.trace) resps ∧
        sentOf (sends p c.server.trace) ++ conn.outBuffer =
          frames (resps.map Response.serialize) ∧
        ∃ k rest, splitMessage (sentOf (sends p c.server.trace)) [] =
            (rest, (resps.take k).map Response.serialize) ∧
          Cutter.AtFrame enCode (resps.map Response.serialize) (sentOf (sends p c.server.trace)) k
            rest := by
  obtain ⟨hflat, hreceive, resps, hresps, hsent⟩ := (h.session hc).apart
  refine ⟨hflat, hreceive, resps, hresps, hsent, ?_⟩
  have hpayload : ∀ m ∈ resps.map Response.serialize, Payload m := by
    intro m hm
    obtain ⟨r, -, rfl⟩ := List.mem_map.1 hm
    exact payload_response_serialize r
  obtain ⟨k, rest, hsplit, hk⟩ := splitMessage_atFrame hpayload (atFrame_nil hpayload)
    (sentOf (sends p c.server.trace)) ⟨conn.outBuffer, hsent⟩
  rw [List.drop_zero, ← List.map_take, List.nil_append] at hsplit
  rw [List.nil_append, Nat.zero_add] at hk
  exact ⟨k, rest, hsplit, hk⟩

/-- One request was read on the connection, and its answer waits. -/
theorem isolated_example :
    (readRounds [] (recvs 1 oneReply.trace)).flatten = recvData (recvs 1 oneReply.trace) ∧
      receive [] (readRounds [] (recvs 1 oneReply.trace)) = ([], requests 1 oneReply.trace) ∧
      ∃ resps, List.Forall₂ AnswerOf (requests 1 oneReply.trace) resps ∧
        sentOf (sends 1 oneReply.trace) ++ [51, 13, 10, 48, 32, 50, 13, 10] =
          frames (resps.map Response.serialize) ∧
        ∃ k rest, splitMessage (sentOf (sends 1 oneReply.trace)) [] =
            (rest, (resps.take k).map Response.serialize) ∧
          Cutter.AtFrame enCode (resps.map Response.serialize) (sentOf (sends 1 oneReply.trace)) k
            rest :=
  @isolated 3 _ reach_oneReply 1
    { newClient 5 with outBuffer := [51, 13, 10, 48, 32, 50, 13, 10] } rfl

end NetProg.Reactor
