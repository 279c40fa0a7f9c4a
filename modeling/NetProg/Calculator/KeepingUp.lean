import NetProg.Calculator.CalServer

/-!
# Whether the calculator keeps up with its client

`calculator` takes at most one frame out of `s` for each `recv`, where the Reactor's `SplitMessage`
takes all. So it keeps up, and answers what the Reactor answers, exactly as long as no result of
`recv` completes two frames (`answered_iff`). A session in which `d` requests have been answered is
`Served … d`: what was received is their frames and `s`. One round answers one more request if it
can (`Served.round`).
-/

namespace NetProg.Calculator

open NetProg.Lib NetProg.Reactor

/-- What `recv` gives in a round of the loop, and what `send` gives if it is called. -/
abbrev Round := Bytes × SendAns

variable {J : Json} {rs : List Request} {resp : Request → Response} {rounds : List Round}
  {c : Service} {d : ℕ}

/-- The bytes received. -/
def stream (rounds : List Round) : Bytes := (rounds.map Prod.fst).flatten

theorem stream_append (rounds rounds' : List Round) :
    stream (rounds ++ rounds') = stream rounds ++ stream rounds' := by
  simp [stream]

def calculatorAnswers (rounds : List Round) : List (RecvAns × SendAns) :=
  rounds.map fun x => (.bytes x.1, x.2)

/-- After these rounds `calculator` is about to block in `recv`. -/
def Blocks (J : Json) (rounds : List Round) (c : Service) : Prop :=
  calculator J (calculatorAnswers rounds) = .ok (.blocked c)

/-- The frame of a response. -/
def answer (J : Json) (resp : Request → Response) (r : Request) : Bytes :=
  enCode (J.serializeResponse (resp r))

theorem reply_serialize {r : Request} (hJ : J.Carries r) (hcalc : calculatorHelp r = .ok (resp r)) :
    reply J (J.serialize r) = .ok (answer J resp r) := by
  rw [reply, hJ.deserialize]
  simp only [bind, Except.bind, hcalc, Except.mapError]
  rfl

/-! ### One round -/

theorem turn_incomplete {a : RecvAns × SendAns} {s : Bytes} (hrecv : recv a.1 c.s = some (true, s))
    (hdec : deCode s = ([], s)) : calculator.turn J c a = .ok (.again { c with s }) := by
  simp [calculator.turn, hrecv, hdec]

theorem turn_complete {a : RecvAns × SendAns} {s s' p b : Bytes}
    (hrecv : recv a.1 c.s = some (true, s)) (hdec : deCode s = (p, s')) (hp : p ≠ [])
    (hreply : reply J p = .ok b) (hsend : send a.2 = some true) :
    calculator.turn J c a = .ok (.again { s := s', sends := c.sends ++ [(b, a.2)] }) := by
  have hp : p.isEmpty = false := List.isEmpty_eq_false_iff.2 hp
  simp [calculator.turn, hrecv, hdec, hp, hreply, hsend, bind, Except.bind, pure, Except.pure]

/-- The frames of the first `d` requests have been taken out of `s`, and these are answered. -/
structure Served (J : Json) (rs : List Request) (resp : Request → Response) (rounds : List Round)
    (c : Service) (d : ℕ) : Prop where
  goes : Goes (calculator.turn J) {} (calculatorAnswers rounds) c
  le : d ≤ rs.length
  received : stream rounds = frames ((rs.take d).map J.serialize) ++ c.s
  sends : c.sends.map Prod.fst = (rs.take d).map (answer J resp)

theorem Served.start : Served J rs resp [] {} 0 where
  goes := .nil
  le := Nat.zero_le _
  received := rfl
  sends := rfl

theorem Served.blocks (h : Served J rs resp rounds c d) : Blocks J rounds c := h.goes.loop_eq_wait

theorem Served.count (h : Served J rs resp rounds c d) {c' : Service} (hb : Blocks J rounds c')
    {k : ℕ} (hc : c'.sends.map Prod.fst = (rs.take k).map (answer J resp)) (hk : k ≤ rs.length) :
    d = k := by
  obtain rfl : c = c' := by
    have heq := h.blocks.symm.trans hb
    simpa using heq
  have hlen := congrArg List.length (h.sends.symm.trans hc)
  have hle := h.le
  simp only [List.length_map, List.length_take] at hlen
  omega

theorem payloads (hJ : ∀ r ∈ rs, J.Carries r) : ∀ p ∈ rs.map J.serialize, Payload p := by
  intro p hp
  obtain ⟨r, hr, rfl⟩ := List.mem_map.1 hp
  exact (hJ r hr).payload

theorem zero_not_mem_stream (hJ : ∀ r ∈ rs, J.Carries r)
    (h : stream rounds <+: frames (rs.map J.serialize)) : 0 ∉ stream rounds := fun h0 => by
  refine zero_not_mem_frames (fun p hp => ?_) (h.subset h0)
  obtain ⟨r, hr, rfl⟩ := List.mem_map.1 hp
  exact (hJ r hr).free

/-- Rounds on the stream of a client that sends the requests `rs`: `recv` gives its next bytes,
fewer than fill the array, and `send` takes something. -/
structure Delivers (J : Json) (rs : List Request) (rounds : List Round) : Prop where
  ne : ∀ x ∈ rounds, x.1 ≠ []
  length : ∀ x ∈ rounds, x.1.length < buffSize
  taken : ∀ x ∈ rounds, 0 < x.2.taken
  pre : stream rounds <+: frames (rs.map J.serialize)

theorem Delivers.take (h : Delivers J rs rounds) (j : ℕ) : Delivers J rs (rounds.take j) where
  ne x hx := h.ne x (List.mem_of_mem_take hx)
  length x hx := h.length x (List.mem_of_mem_take hx)
  taken x hx := h.taken x (List.mem_of_mem_take hx)
  pre := by
    refine List.IsPrefix.trans ?_ h.pre
    conv_rhs => rw [← List.take_append_drop j rounds, stream_append]
    exact List.prefix_append _ _

/-- **One round** answers the next request, if its frame is complete, and not more. -/
theorem Served.round (hJ : ∀ r ∈ rs, J.Carries r)
    (hcalc : ∀ r ∈ rs, calculatorHelp r = .ok (resp r)) (h : Served J rs resp rounds c d)
    {x : Round} (hx : Delivers J rs (rounds ++ [x])) {k : ℕ} {rest : Bytes}
    (hk : Cutter.AtFrame enCode (rs.map J.serialize) (stream (rounds ++ [x])) k rest) :
    ∃ c', Served J rs resp (rounds ++ [x]) c' (min k (d + 1)) := by
  have hmem : x ∈ rounds ++ [x] := by simp
  have hfree : 0 ∉ x.1 := fun h0 => zero_not_mem_stream hJ hx.pre (by simp [stream, h0])
  have hstream : stream (rounds ++ [x]) =
      frames ((rs.take d).map J.serialize) ++ (c.s ++ x.1) := by
    rw [stream_append, h.received, List.append_assoc]
    simp [stream]
  have hd :
      Cutter.AtFrame enCode (rs.map J.serialize) (frames ((rs.take d).map J.serialize)) d [] := by
    rw [List.map_take]
    exact atFrame_take (by simpa using h.le)
  -- the buffer with the new bytes holds `n` complete frames
  obtain ⟨n, rest', hn⟩ := Cutter.exists_atFrame (hd.drop (c.s ++ x.1) (hstream ▸ hx.pre))
  obtain ⟨rfl, rfl⟩ := atFrame_unique (payloads hJ) hk (hstream ▸ hd.trans hn)
  rw [List.nil_append, ← List.map_drop] at hn
  have hrecv := recv_bytes (hx.ne x hmem) (hx.length x hmem) hfree c.s
  cases n with
  | zero =>
    have hdec := deCode_incomplete (payloads fun r hr => hJ r (List.mem_of_mem_drop hr)) hn
    have hturn := turn_incomplete (J := J) (a := (.bytes x.1, x.2)) hrecv hdec
    refine ⟨_, by simpa [calculatorAnswers] using h.goes.snoc hturn, ?_, ?_, ?_⟩
    · simpa using h.le
    · simpa using hstream
    · simpa using h.sends
  | succ n =>
    have hlt : d < rs.length := by
      have hle := hn.le
      rw [List.length_map, List.length_drop] at hle
      omega
    have hr := rs.getElem_mem hlt
    rw [List.drop_eq_getElem_cons hlt, List.map_cons] at hn
    obtain ⟨s', hs', hdec, -⟩ := deCode_complete (hJ _ hr).payload hn
    have hreply := reply_serialize (hJ _ hr) (hcalc _ hr)
    have hturn := turn_complete (J := J) (a := (.bytes x.1, x.2)) hrecv hdec (hJ _ hr).payload.ne
      hreply (send_of_taken (hx.taken x hmem))
    have hmin : min (d + (n + 1)) (d + 1) = d + 1 := by omega
    rw [hmin]
    refine ⟨_, by simpa [calculatorAnswers] using h.goes.snoc hturn, hlt, ?_, ?_⟩
    · rw [hstream, hs', ← List.take_append_getElem hlt, List.map_append, frames_append,
        List.append_assoc]
      simp [frames]
    · rw [List.map_append, h.sends, ← List.take_append_getElem hlt, List.map_append]
      rfl

/-! ### Keeping up -/

/-- Whenever `calculator` is about to block, the responses sent are those of the requests received
completely. A response is sent when `Send` has succeeded with its frame. -/
def Answered (J : Json) (rs : List Request) (resp : Request → Response) (rounds : List Round) :
    Prop :=
  ∀ j, ∃ c, Blocks J (rounds.take j) c ∧ ∀ k rest,
    Cutter.AtFrame enCode (rs.map J.serialize) (stream (rounds.take j)) k rest →
      c.sends.map Prod.fst = (rs.take k).map (answer J resp)

/-- Whenever `calculator` is about to block, the responses sent are those to the messages that the
Reactor's `SplitMessage` finds in the same results of `recv`. -/
def AsReactor (J : Json) (rounds : List Round) : Prop :=
  ∀ j, ∃ c, Blocks J (rounds.take j) c ∧
    (receive [] ((rounds.take j).map Prod.fst)).2.mapM (reply J) = .ok (c.sends.map Prod.fst)

/-- No result of `recv` completes two frames. -/
def OneByOne (J : Json) (rs : List Request) (rounds : List Round) : Prop :=
  ∀ j k k' rest rest',
    Cutter.AtFrame enCode (rs.map J.serialize) (stream (rounds.take j)) k rest →
    Cutter.AtFrame enCode (rs.map J.serialize) (stream (rounds.take (j + 1))) k' rest' → k' ≤ k + 1

section

variable (hJ : ∀ r ∈ rs, J.Carries r) (hcalc : ∀ r ∈ rs, calculatorHelp r = .ok (resp r))
  (h : Delivers J rs rounds)

include hJ hcalc h

theorem Delivers.served : ∃ c d, Served J rs resp rounds c d := by
  induction rounds using List.reverseRecOn with
  | nil => exact ⟨_, _, .start⟩
  | append_singleton rounds x ih =>
    have hinit : Delivers J rs rounds := by simpa using h.take rounds.length
    obtain ⟨c, d, hs⟩ := ih hinit
    obtain ⟨k, rest, hk⟩ := Cutter.exists_atFrame h.pre
    obtain ⟨c', hc'⟩ := hs.round hJ hcalc h hk
    exact ⟨c', _, hc'⟩

theorem Delivers.served_succ {j k : ℕ} {rest : Bytes} (hj : j < rounds.length)
    (hs : Served J rs resp (rounds.take j) c d)
    (hk : Cutter.AtFrame enCode (rs.map J.serialize) (stream (rounds.take (j + 1))) k rest) :
    ∃ c', Served J rs resp (rounds.take (j + 1)) c' (min k (d + 1)) := by
  have htake := h.take (j + 1)
  rw [← List.take_append_getElem hj] at htake hk ⊢
  exact hs.round hJ hcalc htake hk

omit hJ hcalc in
theorem Delivers.atFrame (j : ℕ) :
    ∃ k rest, Cutter.AtFrame enCode (rs.map J.serialize) (stream (rounds.take j)) k rest :=
  Cutter.exists_atFrame (h.take j).pre

theorem Delivers.reactor {j k : ℕ} {rest : Bytes}
    (hk : Cutter.AtFrame enCode (rs.map J.serialize) (stream (rounds.take j)) k rest) :
    (receive [] ((rounds.take j).map Prod.fst)).2.mapM (reply J) =
      .ok ((rs.take k).map (answer J resp)) := by
  obtain ⟨k', rest', hr, hk'⟩ := receive_atFrame (payloads hJ) _ (h.take j).pre
  obtain ⟨rfl, rfl⟩ := atFrame_unique (payloads hJ) hk hk'
  have hall : ∀ qs : List Request, (∀ r ∈ qs, r ∈ rs) →
      (qs.map J.serialize).mapM (reply J) = .ok (qs.map (answer J resp)) := by
    intro qs hqs
    induction qs with
    | nil => rfl
    | cons r qs ih =>
      have hr := hqs r List.mem_cons_self
      rw [List.map_cons, List.mapM_cons, reply_serialize (hJ r hr) (hcalc r hr),
        ih fun x hx => hqs x (List.mem_cons_of_mem _ hx)]
      rfl
  rw [hr, ← List.map_take]
  exact hall _ fun r hr => List.mem_of_mem_take hr

theorem Delivers.asReactor_iff : AsReactor J rounds ↔ Answered J rs resp rounds := by
  constructor
  · intro ha j
    obtain ⟨c, hc, hr⟩ := ha j
    refine ⟨c, hc, fun k rest hk => ?_⟩
    rw [h.reactor hJ hcalc hk] at hr
    exact (Except.ok.inj hr).symm
  · intro ha j
    obtain ⟨c, hc, hr⟩ := ha j
    obtain ⟨k, rest, hk⟩ := h.atFrame j
    exact ⟨c, hc, by rw [h.reactor hJ hcalc hk, hr k rest hk]⟩

/-- Without two frames in one result the buffer never keeps a complete frame. -/
theorem Delivers.served_all (hone : OneByOne J rs rounds) (j : ℕ) :
    ∃ c k rest, Served J rs resp (rounds.take j) c k ∧
      Cutter.AtFrame enCode (rs.map J.serialize) (stream (rounds.take j)) k rest := by
  induction j with
  | zero => exact ⟨_, 0, [], .start, atFrame_nil (payloads hJ)⟩
  | succ j ih =>
    obtain ⟨c, k, rest, hs, hk⟩ := ih
    by_cases hj : j < rounds.length
    · obtain ⟨k', rest', hk'⟩ := h.atFrame (j + 1)
      obtain ⟨c', hs'⟩ := h.served_succ hJ hcalc hj hs hk'
      rw [min_eq_left (hone j k k' rest rest' hk hk')] at hs'
      exact ⟨c', k', rest', hs', hk'⟩
    · rw [List.take_of_length_le (by omega)] at hs hk ⊢
      exact ⟨c, k, rest, hs, hk⟩

theorem Delivers.answered_iff : Answered J rs resp rounds ↔ OneByOne J rs rounds := by
  constructor
  · intro ha j k k' rest rest' hk hk'
    by_cases hj : j < rounds.length
    · obtain ⟨c, hc, hr⟩ := ha j
      obtain ⟨c₁, hc₁, hr₁⟩ := ha (j + 1)
      obtain ⟨c₀, d, hs⟩ := (h.take j).served hJ hcalc
      obtain rfl := hs.count hc (hr k rest hk) (by simpa using hk.le)
      obtain ⟨c₂, hs₂⟩ := h.served_succ hJ hcalc hj hs hk'
      have := hs₂.count hc₁ (hr₁ k' rest' hk') (by simpa using hk'.le)
      omega
    · rw [List.take_of_length_le (by omega)] at hk hk'
      have := (atFrame_unique (payloads hJ) hk hk').1
      omega
  · intro hone j
    obtain ⟨c, k, rest, hs, hk⟩ := h.served_all hJ hcalc hone j
    refine ⟨c, hs.blocks, fun k' rest' hk' => ?_⟩
    obtain ⟨rfl, -⟩ := atFrame_unique (payloads hJ) hk hk'
    exact hs.sends

/-- **When the calculator keeps up.** On the stream of a client that sends requests, whenever
`calculator` is about to block it has answered the requests received completely, and what the
Reactor answers, if and only if no result of `recv` completes two frames. -/
theorem calculator_answers_iff :
    (Answered J rs resp rounds ↔ OneByOne J rs rounds) ∧
      (AsReactor J rounds ↔ OneByOne J rs rounds) :=
  ⟨h.answered_iff hJ hcalc, (h.asReactor_iff hJ hcalc).trans (h.answered_iff hJ hcalc)⟩

end

/-! ### One request and two -/

/-- The bytes of a text of ASCII characters. -/
def ascii (s : String) : Bytes := s.toList.map fun c => c.toNat.toUInt8

/-- What the library does on the objects of the protocol, whose members are integers. -/
def flatJson : Json where
  write
    | .object ms =>
      let members := ms.map fun
        | (key, .int z) => ascii s!"\"{key}\":" ++ toStringInt (Int32.ofInt z)
        | _ => []
      ascii "\x7b" ++ [44].intercalate members ++ ascii "\x7d\n"
    | _ => []
  parse s :=
    some (.object (["code", "op", "result", "x", "y"].filterMap fun key =>
      let name := ascii s!"\"{key}\":"
      (find name s).map fun i => (key, .int (atoi (s.drop (i + name.length))).toInt)))

theorem flatJson_carries : ∀ r ∈ [(⟨1, 1, 43⟩ : Request), ⟨2, 3, 42⟩], flatJson.Carries r := by
  intro r hr
  simp only [List.mem_cons, List.not_mem_nil, or_false] at hr
  rcases hr with rfl | rfl
  · exact ⟨rfl, ⟨by decide, by decide⟩, by decide⟩
  · exact ⟨rfl, ⟨by decide, by decide⟩, by decide⟩

/-- The frame of the request `1 + 1`, cut inside its header and inside its payload. -/
def onePlusOne : List Round :=
  [(ascii "2", .count 1), (ascii "2\r\n\x7b\"op\":43,\"x\"", .count 1),
    (ascii ":1,\"y\":1\x7d\n\r\n", .count 27)]

/-- One request in three results of `recv`: no result completes two frames. -/
theorem calculator_answers_example :
    Answered flatJson [⟨1, 1, 43⟩] (fun _ => ⟨2, 0⟩) onePlusOne ∧
      AsReactor flatJson onePlusOne := by
  have hJ : ∀ r ∈ [(⟨1, 1, 43⟩ : Request)], flatJson.Carries r := fun r hr =>
    flatJson_carries r (List.mem_cons.2 (Or.inl (List.mem_singleton.1 hr)))
  have hcalc : ∀ r ∈ [(⟨1, 1, 43⟩ : Request)], calculatorHelp r = .ok ⟨2, 0⟩ := fun r hr => by
    obtain rfl := List.mem_singleton.1 hr
    rfl
  have hd : Delivers flatJson [⟨1, 1, 43⟩] onePlusOne :=
    ⟨by decide, by decide, by decide, by decide⟩
  have hone : OneByOne flatJson [⟨1, 1, 43⟩] onePlusOne := by
    intro j k k' rest rest' _ hk'
    have := hk'.le
    simp only [List.map_cons, List.map_nil, List.length_singleton] at this
    omega
  have h := @calculator_answers_iff flatJson _ (fun _ => ⟨2, 0⟩) _ hJ hcalc hd
  exact ⟨h.1.2 hone, h.2.2 hone⟩

/-- The frames of `1 + 1` and `2 * 3` in one result of `recv`. -/
def twoAtOnce : List Round :=
  [(frames ([⟨1, 1, 43⟩, ⟨2, 3, 42⟩].map flatJson.serialize), .count 29)]

/-- After two requests in one result `calculator` blocks with one answer sent: the frame of the
second request stays in `s`. -/
theorem calculator_not_answers :
    ¬ ∀ (J : Json) (rs : List Request) (resp : Request → Response) (rounds : List Round),
      (∀ r ∈ rs, J.Carries r) → (∀ r ∈ rs, calculatorHelp r = .ok (resp r)) →
      Delivers J rs rounds → Answered J rs resp rounds := by
  intro h
  have hcalc : ∀ r ∈ [(⟨1, 1, 43⟩ : Request), ⟨2, 3, 42⟩],
      calculatorHelp r = .ok (if r.op = 43 then ⟨2, 0⟩ else ⟨6, 0⟩) := by
    intro r hr
    simp only [List.mem_cons, List.not_mem_nil, or_false] at hr
    rcases hr with rfl | rfl
    · rfl
    · rfl
  have hd : Delivers flatJson [⟨1, 1, 43⟩, ⟨2, 3, 42⟩] twoAtOnce :=
    ⟨by decide, by decide, by decide, by decide⟩
  obtain ⟨c, hc, hsends⟩ := h flatJson _ _ twoAtOnce flatJson_carries hcalc hd 1
  have hone : Blocks flatJson twoAtOnce
      { s := enCode (flatJson.serialize ⟨2, 3, 42⟩)
        sends := [(answer flatJson (fun _ => ⟨2, 0⟩) ⟨1, 1, 43⟩, .count 29)] } := by
    rfl
  obtain rfl : _ = c := by simpa using hone.symm.trans hc
  have h2 := congrArg List.length (hsends 2 [] (atFrame_frames _))
  simp at h2

end NetProg.Calculator
