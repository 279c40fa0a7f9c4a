import NetProg.Calculator.CalClient
import NetProg.Calculator.KeepingUp
import NetProg.Lib.Runs

/-!
# Client and calculator in lock step

A client that waits for each answer never has two requests under way, so `calculator`, which takes
one frame for each `recv`, misses none of them. `Exchange` says what the two channels and the two
buffers hold together: nothing, one request that has not arrived completely, or one answer. Every
step keeps it (`Joint.step`), and in each of these cases one of the parties can go on.
-/

namespace NetProg.Calculator

open NetProg.Lib NetProg.Reactor

variable {J : Json} {rs : List Request} {resp : Request → Response}

/-- The library on a request and its response: the texts are read back, are not empty, have no NUL,
and their frames fit into the array of `Recv`. -/
structure Talks (J : Json) (r : Request) (resp : Response) : Prop where
  carries : J.Carries r
  request : (enCode (J.serialize r)).length < buffSize
  parse : J.parse (J.serializeResponse resp) = some (Json.responseRoot resp)
  payload : Payload (J.serializeResponse resp)
  free : 0 ∉ J.serializeResponse resp
  response : (enCode (J.serializeResponse resp)).length < buffSize
  help : calculatorHelp r = .ok resp

theorem responseRoot_eq (x : Response) : Json.responseRoot x =
    .object [("code", .int x.code.toInt), ("result", .int x.result.toInt)] := rfl

theorem Talks.deserialize {r : Request} {x : Response} (h : Talks J r x) :
    J.deserializeResponse (J.serializeResponse x) = .ok x := by
  simp only [Json.deserializeResponse, h.parse, Option.getD_some, responseRoot_eq, Value.get]
  simp [List.lookup_cons, bind, Except.bind, pure, Except.pure]

/-! ### What the channels and the buffers hold -/

/-- The client's place, `backStr`, the channels to and from the server, and the server's `s`. -/
inductive Exchange (J : Json) (resp : Request → Response) :
    Place → Bytes → Bytes → Bytes → Bytes → Prop
  | rest : Exchange J resp .asking [] [] [] []
  | request {r : Request} {c2s s : Bytes} (h : s ++ c2s = enCode (J.serialize r))
      (hmore : c2s ≠ []) : Exchange J resp (.waiting r) [] c2s [] s
  | answering {r : Request} {backStr s2c : Bytes} (h : backStr ++ s2c = answer J resp r)
      (hmore : s2c ≠ []) : Exchange J resp (.waiting r) backStr [] s2c []

section Exchange

variable {place : Place} {backStr c2s s2c s b rest : Bytes} {r : Request}

theorem Exchange.ask (h : Exchange J resp .asking backStr c2s s2c s) (r : Request) :
    Exchange J resp (.waiting r) backStr (c2s ++ enCode (J.serialize r)) s2c s := by
  cases h
  exact .request rfl (enCode_ne_nil _)

theorem deCode_proper {p u v : Bytes} (hp : Payload p) (h : u ++ v = enCode p) (hv : v ≠ []) :
    deCode u = ([], u) := by
  refine deCode_part hp ⟨v, h⟩ fun heq => hv ?_
  rw [heq] at h
  simpa using h

/-- What is left of a frame fits into the array, and has no NUL. -/
theorem recv_part {p u v : Bytes} (hfree : 0 ∉ p) (hlen : (enCode p).length < buffSize)
    (h : u ++ (b ++ v) = enCode p) (hb : b ≠ []) : recv (.bytes b) u = some (true, u ++ b) := by
  apply recv_bytes hb
  · rw [← h, List.length_append, List.length_append] at hlen
    omega
  · intro h0
    apply zero_not_mem_enCode hfree
    rw [← h]
    simp [h0]

/-- **The calculator reads from its channel.** It keeps a part of the request, or answers it. -/
theorem Exchange.serve (h : Exchange J resp place backStr (b ++ rest) s2c s) (hb : b ≠ [])
    (htalks : ∀ r, place = .waiting r → Talks J r (resp r)) {sends : List (Bytes × SendAns)} :
    ∃ r, place = .waiting r ∧ ∃ (new : List Bytes) (s' : Bytes), (∀ a : SendAns, 0 < a.taken →
        calculator.turn J ⟨s, sends⟩ (.bytes b, a) =
          .ok (.again ⟨s', sends ++ new.map fun x => (x, a)⟩)) ∧
      (∀ x ∈ new, x = answer J resp r) ∧
      Exchange J resp place backStr rest (s2c ++ new.flatten) s' := by
  generalize hw : b ++ rest = w at h
  cases h with
  | rest => exact absurd (List.append_eq_nil_iff.1 hw).1 hb
  | answering => exact absurd (List.append_eq_nil_iff.1 hw).1 hb
  | @request r _ _ h hmore =>
    subst hw
    have ht := htalks r rfl
    have hrecv := recv_part ht.carries.free ht.request h hb
    by_cases hrest : rest = []
    · subst hrest
      rw [List.append_nil] at h
      have hdec : deCode (s ++ b) = (J.serialize r, []) := by
        have hcode := deCode_enCode ht.carries.payload []
        rwa [List.append_nil, ← h] at hcode
      have hreply := reply_serialize ht.carries ht.help
      refine ⟨r, rfl, [answer J resp r], [], fun a ha => ?_, fun x => List.mem_singleton.1, ?_⟩
      · exact turn_complete hrecv hdec ht.carries.payload.ne hreply (send_of_taken ha)
      · exact .answering (by simp) (by simp [answer, enCode_ne_nil])
    · have hdec : deCode (s ++ b) = ([], s ++ b) :=
        deCode_proper ht.carries.payload (by rw [List.append_assoc]; exact h) hrest
      refine ⟨r, rfl, [], s ++ b, fun a _ => ?_, fun x hx => absurd hx List.not_mem_nil, ?_⟩
      · rw [turn_incomplete hrecv hdec]
        simp
      · simp only [List.flatten_nil, List.append_nil]
        exact .request (by rw [List.append_assoc]; exact h) hrest

/-- **The client reads from its channel.** It keeps a part of the answer, or prints it. -/
theorem Exchange.take {c : Client} (h : Exchange J resp c.place c.backStr c2s (b ++ rest) s)
    (hb : b ≠ []) (htalks : ∀ r, c.place = .waiting r → Talks J r (resp r)) :
    ∃ r, c.place = .waiting r ∧ ∃ c', CalClient.turn J c (.bytes b) = some (.ok c') ∧
      c' = (if rest = [] then { c with backStr := [], place := .asking,
                                       printed := c.printed ++ [printLine r (resp r)] }
        else { c with backStr := c.backStr ++ b }) ∧
      Exchange J resp c'.place c'.backStr c2s rest s := by
  obtain ⟨inputs, backStr, place, printed⟩ := c
  simp only at h htalks
  generalize hw : b ++ rest = w at h
  cases h with
  | rest => exact absurd (List.append_eq_nil_iff.1 hw).1 hb
  | request => exact absurd (List.append_eq_nil_iff.1 hw).1 hb
  | @answering r _ _ h hmore =>
    subst hw
    have ht := htalks r rfl
    have hrecv := recv_part ht.free ht.response h hb
    refine ⟨r, rfl, _, ?_, rfl, ?_⟩
    · by_cases hrest : rest = []
      · subst hrest
        rw [List.append_nil] at h
        have hdec : deCode (backStr ++ b) = (J.serializeResponse (resp r), []) := by
          have hcode := deCode_enCode ht.payload []
          rwa [List.append_nil, ← answer, ← h] at hcode
        have hne : (J.serializeResponse (resp r)).isEmpty = false := by
          simpa using ht.payload.ne
        simp [CalClient.turn, hrecv, hdec, hne, ht.deserialize, bind, Except.bind, pure,
          Except.pure]
      · have hdec : deCode (backStr ++ b) = ([], backStr ++ b) :=
          deCode_proper ht.payload (by rw [List.append_assoc]; exact h) hrest
        simp [CalClient.turn, hrecv, hdec, hrest]
    · by_cases hrest : rest = []
      · subst hrest
        exact .rest
      · simp only [if_neg hrest]
        exact .answering (by rw [List.append_assoc]; exact h) hrest

theorem Exchange.inFlight (h : Exchange J resp place backStr c2s s2c s) :
    s ++ c2s = [] ∧ backStr ++ s2c = [] ∨ ∃ r, place = .waiting r ∧
      (s ++ c2s = enCode (J.serialize r) ∧ backStr ++ s2c = [] ∨
        s ++ c2s = [] ∧ backStr ++ s2c = answer J resp r) := by
  cases h with
  | rest => exact Or.inl ⟨rfl, rfl⟩
  | @request r _ _ h => exact Or.inr ⟨r, rfl, Or.inl ⟨h, rfl⟩⟩
  | @answering r _ _ h => exact Or.inr ⟨r, rfl, Or.inr ⟨rfl, h⟩⟩

theorem Exchange.asking (h : Exchange J resp .asking backStr c2s s2c s) :
    backStr = [] ∧ s = [] := by
  cases h
  exact ⟨rfl, rfl⟩

theorem Exchange.goes (h : Exchange J resp place backStr c2s s2c s) :
    place ≠ .quit ∧ place ≠ .killed := by
  cases h <;> simp

theorem Exchange.incomplete (h : Exchange J resp place backStr c2s s2c s)
    (htalks : ∀ r, place = .waiting r → Talks J r (resp r)) :
    deCode backStr = ([], backStr) ∧ deCode s = ([], s) := by
  cases h with
  | rest => exact ⟨rfl, rfl⟩
  | request h hmore => exact ⟨rfl, deCode_proper (htalks _ rfl).carries.payload h hmore⟩
  | answering h hmore => exact ⟨deCode_proper (htalks _ rfl).payload h hmore, rfl⟩

end Exchange

/-! ### Every step keeps the invariant -/

/-- **The joint invariant** of the two parties, for the inputs `rs`. -/
structure Joint (J : Json) (rs : List Request) (resp : Request → Response) (y : System) : Prop where
  exchange : Exchange J resp y.client.place y.client.backStr y.c2s y.s2c y.server.s
  printed : ∃ done, rs = done ++ y.client.place.current ++ y.client.inputs ∧
    y.client.printed = done.map fun r => printLine r (resp r)

section Joint

variable {y y' : System} (htalks : ∀ r ∈ rs, Talks J r (resp r))

include htalks

theorem Joint.talks (h : Joint J rs resp y) :
    ∀ r, y.client.place = .waiting r → Talks J r (resp r) := by
  intro r hr
  obtain ⟨done, hrs, -⟩ := h.printed
  apply htalks
  rw [hrs, hr]
  simp [Place.current]

/-- **Every step of a party keeps the joint invariant.** -/
theorem Joint.step (h : Joint J rs resp y) (hs : System.Step J y y') : Joint J rs resp y' := by
  obtain ⟨done, hrs, hprinted⟩ := h.printed
  cases hs with
  | @ask client reqStr hask =>
    unfold CalClient.ask at hask
    split at hask
    · rename_i req inputs hplace hinputs
      obtain ⟨rfl, rfl⟩ : _ ∧ _ := by simpa using hask
      have hlen : 0 < (enCode (J.serialize req)).length :=
        List.length_pos_of_ne_nil (enCode_ne_nil _)
      have hsent := Client.sent_of_taken req
        (show 0 < (SendAns.count (enCode (J.serialize req)).length).taken from hlen)
      have hx := h.exchange
      rw [hplace] at hx hrs
      rw [hinputs] at hrs
      simp only [hsent]
      exact ⟨hx.ask req, done, by simpa [Place.current] using hrs, hprinted⟩
    · cases hask
  | @answer client b s2c hb hturn =>
    have hx := h.exchange
    generalize y.s2c = w at hb hx
    cases hb with
    | bytes hne =>
      obtain ⟨r, hplace, c', hc', heq, hx'⟩ := hx.take hne (h.talks htalks)
      obtain rfl : c' = client := Except.ok.inj (Option.some.inj (hc'.symm.trans hturn))
      refine ⟨hx', ?_⟩
      rw [hplace] at hrs
      by_cases hrest : s2c = []
      · rw [if_pos hrest] at heq
        subst heq
        exact ⟨done ++ [r], by rw [hrs]; simp [Place.current], by rw [hprinted]; simp⟩
      · rw [if_neg hrest] at heq
        subst heq
        exact ⟨done, by rw [hrs, ← hplace], hprinted⟩
  | @serve server b c2s a sends hb ha hturn hsends =>
    have hx := h.exchange
    generalize y.c2s = w at hb hx
    cases hb with
    | bytes hne =>
      obtain ⟨r, -, new, s', hturn', -, hx'⟩ := @Exchange.serve _ _ _ _ _ _ _ _ hx hne
        (h.talks htalks) y.server.sends
      obtain rfl : _ = server := Turn.again.inj (Except.ok.inj ((hturn' a ha).symm.trans hturn))
      have hnew : new = sends := by
        have hmap := congrArg (List.map Prod.fst) (List.append_cancel_left hsends)
        simpa [List.map_map, Function.comp_def] using hmap
      exact ⟨hnew ▸ hx', done, hrs, hprinted⟩

omit htalks in
theorem Joint.init (rs : List Request) (resp : Request → Response) :
    Joint J rs resp ⟨{ inputs := rs }, [], [], {}⟩ := ⟨.rest, [], rfl, rfl⟩

/-- **One of the parties can go on**, until everything typed is answered. -/
theorem Joint.exists_step (h : Joint J rs resp y) :
    y.client.place = .asking ∧ y.client.inputs = [] ∨ ∃ y', System.Step J y y' := by
  obtain ⟨⟨inputs, backStr, place, printed⟩, c2s, s2c, ⟨s, sends⟩⟩ := y
  have hx := h.exchange
  have ht := h.talks htalks
  simp only at hx ht ⊢
  cases hx with
  | rest =>
    cases inputs with
    | nil => exact Or.inl ⟨rfl, rfl⟩
    | cons req inputs => exact Or.inr ⟨_, .ask rfl⟩
  | @request r _ _ hframe hmore =>
    have hall := @Receives.bytes c2s [] hmore
    have hx : Exchange J resp (.waiting r) [] (c2s ++ []) [] s := by
      rw [List.append_nil]
      exact .request hframe hmore
    obtain ⟨r', -, new, s', hturn, hnew, -⟩ := @Exchange.serve _ _ _ _ _ _ _ _ hx hmore ht sends
    rw [List.append_nil] at hall
    have hpos : 0 < (SendAns.count (answer J resp r').length).taken :=
      List.length_pos_of_ne_nil (enCode_ne_nil _)
    refine Or.inr ⟨_, @System.Step.serve J _ _ _ _ _ new hall hpos (hturn _ hpos) ?_⟩
    have hsends : (new.map fun x => (x, SendAns.count (answer J resp r').length)) =
        new.map fun s => (s, .count s.length) :=
      List.map_congr_left fun x hx => by rw [hnew x hx]
    rw [hsends]
  | @answering r _ _ hframe hmore =>
    have hall := @Receives.bytes s2c [] hmore
    have hx : Exchange J resp (.waiting r) backStr [] (s2c ++ []) [] := by
      rw [List.append_nil]
      exact .answering hframe hmore
    obtain ⟨r', -, c', hturn, -, -⟩ :=
      @Exchange.take _ _ _ _ _ _ ⟨inputs, backStr, .waiting r, printed⟩ hx hmore ht
    rw [List.append_nil] at hall
    exact Or.inr ⟨_, .answer hall hturn⟩

end Joint

/-! ### Lock step -/

/-- **The parties are in step**, for the inputs `rs` and the answers `resp`. -/
structure InStep (J : Json) (rs : List Request) (resp : Request → Response) (y : System) :
    Prop where
  /-- The lines printed are those for the first requests, in order, -/
  printed : y.client.printed =
    (rs.take y.client.printed.length).map fun r => printLine r (resp r)
  /-- and for all of them in the end. -/
  finished : y.client.place = .asking → y.client.inputs = [] →
    y.client.printed.length = rs.length
  /-- Nothing is in flight, or the next request, or its answer. -/
  inFlight : y.server.s ++ y.c2s = [] ∧ y.client.backStr ++ y.s2c = [] ∨
    ∃ r, rs[y.client.printed.length]? = some r ∧
      (y.server.s ++ y.c2s = enCode (J.serialize r) ∧ y.client.backStr ++ y.s2c = [] ∨
        y.server.s ++ y.c2s = [] ∧ y.client.backStr ++ y.s2c = answer J resp r)
  /-- At the prompt all buffers are empty. -/
  asking : y.client.place = .asking → y.client.backStr = [] ∧ y.server.s = []
  /-- `Recv` is never called with a complete frame in the buffer behind it, -/
  client : deCode y.client.backStr = ([], y.client.backStr)
  server : deCode y.server.s = ([], y.server.s)
  /-- and whatever it is given, both loops go on. -/
  takes : ∀ b s2c, Receives y.s2c (.bytes b) s2c →
    ∃ c, CalClient.turn J y.client (.bytes b) = some (.ok c) ∧ c.place ≠ .quit
  serves : ∀ b c2s a, Receives y.c2s (.bytes b) c2s → 0 < a.taken →
    ∃ c, calculator.turn J y.server (.bytes b, a) = .ok (.again c)
  goes : y.client.place ≠ .quit ∧ y.client.place ≠ .killed

section InStep

variable {y : System} (htalks : ∀ r ∈ rs, Talks J r (resp r))

include htalks

theorem Joint.inStep (h : Joint J rs resp y) : InStep J rs resp y := by
  have ht := h.talks htalks
  have hx := h.exchange
  obtain ⟨done, hrs, hprinted⟩ := h.printed
  have hlen : y.client.printed.length = done.length := by rw [hprinted, List.length_map]
  have hnext : ∀ r, y.client.place = .waiting r → rs[y.client.printed.length]? = some r := by
    intro r hr
    rw [hlen, hrs, hr]
    simp [Place.current]
  obtain ⟨hclient, hserver⟩ := hx.incomplete ht
  refine ⟨?_, fun hp hin => ?_, ?_, fun hp => ?_, hclient, hserver, fun b s2c hb => ?_,
    fun b c2s a hb ha => ?_, hx.goes⟩
  · rw [hlen, hrs, List.append_assoc, List.take_left, hprinted]
  · rw [hlen, hrs, hp, hin]
    simp [Place.current]
  · rcases hx.inFlight with h | ⟨r, hr, h⟩
    · exact Or.inl h
    · exact Or.inr ⟨r, hnext r hr, h⟩
  · rw [hp] at hx
    exact hx.asking
  · generalize y.s2c = w at hb hx
    cases hb with
    | bytes hne =>
      obtain ⟨r, -, c, hturn, -, hx'⟩ := hx.take hne ht
      exact ⟨c, hturn, hx'.goes.1⟩
  · generalize y.c2s = w at hb hx
    cases hb with
    | bytes hne =>
      obtain ⟨r, -, new, s', hturn, -⟩ := @Exchange.serve _ _ _ _ _ _ _ _ hx hne ht y.server.sends
      exact ⟨_, hturn a ha⟩

end InStep

/-- **Lock step.** From the first prompt, in every order of the steps of client and calculator and
however the bytes are cut: the lines printed are the answers to the first requests in order, at most
one request or answer is in flight, neither side blocks with a complete frame in its buffer or
fails, and one of them can go on until everything typed is answered. -/
theorem calculator_lock_step (htalks : ∀ r ∈ rs, Talks J r (resp r)) {y : System}
    (h : Reachable (fun y => y = ⟨{ inputs := rs }, [], [], {}⟩) (System.Step J) y) :
    InStep J rs resp y ∧
      (y.client.place = .asking ∧ y.client.inputs = [] ∨ ∃ y', System.Step J y y') := by
  have hjoint : Joint J rs resp y := by
    refine Invariant.reachable ⟨?_, fun y y' hy hs => hy.step htalks hs⟩ h
    rintro _ rfl
    exact .init rs resp
  exact ⟨hjoint.inStep htalks, hjoint.exists_step htalks⟩

theorem flatJson_talks : ∀ r ∈ [(⟨1, 1, 43⟩ : Request), ⟨2, 3, 42⟩],
    Talks flatJson r (if r.op = 43 then ⟨2, 0⟩ else ⟨6, 0⟩) := by
  intro r hr
  have hcarries := flatJson_carries r hr
  simp only [List.mem_cons, List.not_mem_nil, or_false] at hr
  rcases hr with rfl | rfl
  · exact ⟨hcarries, by decide, rfl, ⟨by decide, by decide⟩, by decide, by decide, rfl⟩
  · exact ⟨hcarries, by decide, rfl, ⟨by decide, by decide⟩, by decide, by decide, rfl⟩

/-- The frames of `1 + 1` and of its answer. -/
def request₁ : Bytes := enCode (flatJson.serialize ⟨1, 1, 43⟩)
def answer₁ : Bytes := enCode (flatJson.serializeResponse ⟨2, 0⟩)

/-- The frames of `2 * 3` and of its answer. -/
def request₂ : Bytes := enCode (flatJson.serialize ⟨2, 3, 42⟩)
def answer₂ : Bytes := enCode (flatJson.serializeResponse ⟨6, 0⟩)

/-- The client asks for `1 + 1` and for `2 * 3`; the first request and its answer come in parts. -/
theorem exists_exchanges : ∃ y : System,
    Reachable (fun y => y = ⟨{ inputs := [⟨1, 1, 43⟩, ⟨2, 3, 42⟩] }, [], [], {}⟩)
      (System.Step flatJson) y ∧ y.client.printed = [.result 1 43 1 2, .result 2 42 3 6] := by
  have h : Reachable (fun y => y = ⟨{ inputs := [⟨1, 1, 43⟩, ⟨2, 3, 42⟩] }, [], [], {}⟩)
      (System.Step flatJson) _ := .start rfl
  have h := h.next (@System.Step.ask _ _ _ request₁ rfl)
  have h := h.next (@System.Step.serve _ _ _ _ _ (.count 1) []
    (@Receives.bytes (request₁.take 7) (request₁.drop 7) (by decide)) (by decide) rfl rfl)
  have h := h.next (@System.Step.serve _ _ _ _ _ (.count answer₁.length) [answer₁]
    (@Receives.bytes (request₁.drop 7) [] (by decide)) (by decide) rfl rfl)
  have h := h.next (.answer (@Receives.bytes (answer₁.take 1) (answer₁.drop 1) (by decide)) rfl)
  have h := h.next (.answer (@Receives.bytes (answer₁.drop 1) [] (by decide)) rfl)
  have h := h.next (@System.Step.ask _ _ _ request₂ rfl)
  have h := h.next (@System.Step.serve _ _ _ _ _ (.count answer₂.length) [answer₂]
    (@Receives.bytes request₂ [] (by decide)) (by decide) rfl rfl)
  have h := h.next (.answer (@Receives.bytes answer₂ [] (by decide)) rfl)
  exact ⟨_, h, rfl⟩

theorem calculator_lock_step_example : ∃ y,
    y.client.printed = [.result 1 43 1 2, .result 2 42 3 6] ∧
      InStep flatJson [⟨1, 1, 43⟩, ⟨2, 3, 42⟩]
        (fun r => if r.op = 43 then ⟨2, 0⟩ else ⟨6, 0⟩) y := by
  obtain ⟨y, hrun, hprinted⟩ := exists_exchanges
  exact ⟨y, hprinted, (calculator_lock_step flatJson_talks hrun).1⟩

end NetProg.Calculator
