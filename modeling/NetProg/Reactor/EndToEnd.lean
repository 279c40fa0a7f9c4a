import NetProg.Reactor.History
import NetProg.Reactor.Segmentation

/-!
# Every request is answered, in order

When a client sends nothing but frames of requests, what the server has sent to it and what waits in
`_out_buffer` are together the frames of the answers to the requests that were received completely,
and `_in_buffer` is the received part of the next request. A session keeps this for the bytes in
(`Session.segmented`) and for the bytes out (`Session.answered`), and every live connection of every
run has had a session (`answers_in_order`).
-/

namespace NetProg.Reactor

open NetProg.Lib TcpServer

/-- Without a NUL nothing is lost on the way into `_in_buffer`. -/
theorem recvData_eq {as : List RecvAns} (h : 0 ∉ received as) : recvData as = received as := by
  unfold recvData received at *
  refine List.flatMap_congr fun a ha => ?_
  cases a with
  | fail e => rfl
  | bytes b => exact cStr_of_free fun hb => h (List.mem_flatMap.2 ⟨_, ha, hb⟩)

/-! ### Requests as payloads -/

theorem payload_serialize (r : Request) : Payload r.serialize :=
  ⟨serialize_ne_nil r, (length_serialize_le r).trans (by decide)⟩

theorem payload_response_serialize (r : Response) : Payload r.serialize :=
  ⟨response_serialize_ne_nil r, (length_response_serialize_le r).trans (by decide)⟩

theorem payloads_serialize (rs : List Request) : ∀ p ∈ rs.map Request.serialize, Payload p := by
  intro p hp
  obtain ⟨r, -, rfl⟩ := List.mem_map.1 hp
  exact payload_serialize r

/-! ### Sessions on a stream of frames -/

/-- **A session on a stream of frames** has passed the complete ones to the handler, and keeps the
received part of the next one. -/
theorem Session.segmented {ps : List Bytes} (hps : ∀ p ∈ ps, Payload p) (hfree : ∀ p ∈ ps, 0 ∉ p)
    {c : Connection} {R : List RecvAns} {S : List (Bytes × SendAns)} {M : List Bytes}
    (h : Session c R S M) (hR : received R <+: frames ps) :
    ∃ k, Cutter.AtFrame enCode ps (received R) k c.inBuffer ∧ M = ps.take k := by
  induction h with
  | start hin hout => exact ⟨0, hin ▸ atFrame_nil hps, rfl⟩
  | @read c R S M as used rest out messages mem h hscan hsplit hout ih =>
    rw [received_append] at hR ⊢
    obtain ⟨k, hk, rfl⟩ := ih ((List.prefix_append _ _).trans hR)
    have hused : 0 ∉ received used := fun h0 =>
      zero_not_mem_frames hfree (hR.subset (List.mem_append_right _ h0))
    obtain ⟨n, rest', hs, hn⟩ := splitMessage_atFrame hps hk _ hR
    rw [recvData_eq hused, hs, Prod.mk.injEq] at hsplit
    obtain ⟨rfl, rfl⟩ := hsplit
    exact ⟨k + n, hn, List.take_add.symm⟩
  | wrote h hscan ih => exact ih hR

section Served

variable {rs : List Request} {resp : Request → Response}

/-- The frames of the answers. -/
def answers (resp : Request → Response) (rs : List Request) : Bytes :=
  frames (rs.map fun r => (resp r).serialize)

theorem answers_append (rs rs' : List Request) :
    answers resp (rs ++ rs') = answers resp rs ++ answers resp rs' := by
  simp [answers, frames_append]

/-- **The handler on serialized requests** appends the frames of the answers. -/
theorem replies_serialize (hcalc : ∀ r ∈ rs, calculatorHelp r = .ok (resp r)) (mem : ℕ → Request) :
    replies mem (rs.map Request.serialize) = .ok (answers resp rs) := by
  induction rs with
  | nil => rfl
  | cons r rs ih =>
    have hr : reply (mem (rs.map Request.serialize).length) r.serialize =
        .ok (enCode (resp r).serialize) := by
      rw [reply, deserialize_serialize, hcalc r List.mem_cons_self]
    rw [List.map_cons, replies, hr, ih fun x hx => hcalc x (List.mem_cons_of_mem _ hx)]
    rfl

/-- **A session whose handler got requests**: what was sent and what waits are their answers. -/
theorem Session.answered {c : Connection} {R : List RecvAns} {S : List (Bytes × SendAns)}
    {M : List Bytes} (h : Session c R S M) (hM : M = rs.map Request.serialize)
    (hcalc : ∀ r ∈ rs, calculatorHelp r = .ok (resp r)) :
    sentOf S ++ c.outBuffer = answers resp rs := by
  induction h generalizing rs with
  | start hin hout =>
    obtain rfl : rs = [] := by simpa using hM.symm
    rw [hout]; rfl
  | @read c R S M as used rest out messages mem h hscan hsplit hout ih =>
    obtain ⟨rs₁, rs₂, rfl, rfl, rfl⟩ := List.map_eq_append_iff.1 hM.symm
    rw [replies_serialize fun r hr => hcalc r (List.mem_append_right _ hr)] at hout
    obtain rfl := Except.ok.inj hout
    rw [answers_append, ← ih rfl fun r hr => hcalc r (List.mem_append_left _ hr), List.append_assoc]
  | wrote h hscan ih =>
    rw [← ih hM hcalc, ← (SendLoop.of_scan hscan).sent, sentOf, List.flatMap_append,
      List.append_assoc]
    rfl

/-- **End to end.** In every reachable configuration and for every live connection whose client has
sent nothing but requests, with an operator that is not NUL and a calculation that has a result:
for some `k`, the first `k` requests were handled, what was sent and what is to be sent are the
frames of their answers in order, and `_in_buffer` is the received part of the next request. -/
theorem answers_in_order (hop : ∀ r ∈ rs, r.op ≠ 0)
    (hcalc : ∀ r ∈ rs, calculatorHelp r = .ok (resp r)) {L : Fd} {c : Config} (h : Reach L c)
    {p : Ptr} {conn : Connection} (hc : c.server.heap p = some conn)
    (hR : received (recvs p c.server.trace) <+: frames (rs.map Request.serialize)) :
    ∃ k, Cutter.AtFrame enCode (rs.map Request.serialize) (received (recvs p c.server.trace)) k
        conn.inBuffer ∧
      requests p c.server.trace = (rs.take k).map Request.serialize ∧
      sentOf (sends p c.server.trace) ++ conn.outBuffer = answers resp (rs.take k) := by
  have hfree : ∀ m ∈ rs.map Request.serialize, 0 ∉ m := by
    intro m hm
    obtain ⟨r, hr, rfl⟩ := List.mem_map.1 hm
    exact zero_not_mem_serialize (hop r hr)
  obtain ⟨k, hk, hM⟩ := (h.session hc).segmented (payloads_serialize rs) hfree hR
  rw [← List.map_take] at hM
  exact ⟨k, hk, hM, (h.session hc).answered hM fun r hr => hcalc r (List.mem_of_mem_take hr)⟩

end Served

/-- The client asked `1 + 1`, and the answer `2` has not been sent yet. -/
theorem answers_in_order_example :
    ∃ k, Cutter.AtFrame enCode [[49, 32, 43, 32, 49]] (received (recvs 1 oneReply.trace)) k [] ∧
      requests 1 oneReply.trace = ([⟨1, 1, 43⟩].take k).map Request.serialize ∧
      sentOf (sends 1 oneReply.trace) ++ [51, 13, 10, 48, 32, 50, 13, 10] =
        answers (fun _ => ⟨2, 0⟩) ([⟨1, 1, 43⟩].take k) := by
  have hR : received (recvs 1 oneReply.trace) <+: frames ([⟨1, 1, 43⟩].map Request.serialize) := by
    rw [oneReply_trace]; decide
  refine answers_in_order ?_ ?_ reach_oneReply rfl hR
  · decide
  · intro r hr
    obtain rfl := List.mem_singleton.1 hr
    rfl

end NetProg.Reactor
