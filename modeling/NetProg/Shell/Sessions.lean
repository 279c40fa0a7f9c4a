import NetProg.Shell.Commands
import NetProg.Shell.UdpClient

/-!
# A client and its answers

Neither side numbers its datagrams or sends one again, and the client shows whatever comes. It is
enough that a client waits: at most one datagram of it is on its way, so an answer is the answer to
the line that was sent last, and no line is run twice. When that datagram is lost, or `popen` fails,
the client waits for ever.

* `Place`: where the line that was sent last has got to;
* `Kept`: what holds in every state;
* `commands_answered`: what was run for a client, and what it is answered.
-/

namespace NetProg.Shell

open NetProg.Lib Function Relation

/-! ### A turn of the server -/

/-- What is sent back for a datagram. -/
def replyTo (bytes : Bytes) (output : Option Bytes) : Option Bytes :=
  if bytes = [] then some []
  else if strcasestr (cStr bytes) RM ≠ none then some errMsg
  else output.map UdpServer.sentOutput

/-- What is run for it. -/
def commands (bytes : Bytes) : List Bytes :=
  if bytes = [] ∨ strcasestr (cStr bytes) RM ≠ none then [] else [cStr bytes]

variable {s : UdpServer} {a b : SockaddrIn} {bytes m : Bytes} {output : Option Bytes} {takes : Bool}

theorem turn_datagram (h : s.backStr = []) (hlen : bytes.length < buffSize) :
    s.turn ⟨.datagram a bytes hlen, output, takes⟩ = ⟨[], s.calls ++ ((commands bytes).map .popen ++
      (replyTo bytes output).toList.map fun text => .sendto a text (sends takes text))⟩ := by
  by_cases hne : bytes = []
  · subst hne
    simp [UdpServer.turn, UdpServer.reply_nil h, commands, replyTo, sends]
  · have hpos : 0 < bytes.length := List.length_pos_iff.2 hne
    by_cases hfound : strcasestr (cStr bytes) RM ≠ none
    · simp only [UdpServer.turn, if_pos hpos, if_pos hfound, commands, replyTo, if_neg hne,
        if_pos (Or.inr hfound : bytes = [] ∨ _), UdpServer.sendto]
      rw [← h]
      rfl
    · have hrun : ¬ (bytes = [] ∨ strcasestr (cStr bytes) RM ≠ none) := not_or.2 ⟨hne, hfound⟩
      simp only [UdpServer.turn, if_pos hpos, if_neg hfound, commands, replyTo, if_neg hne,
        if_neg hrun]
      cases output with
      | none =>
        rw [← h]
        rfl
      | some output =>
        refine (UdpServer.reply_readOutput (s := ⟨s.backStr, s.calls ++ [.popen (cStr bytes)]⟩) h
          output takes a).trans ?_
        simp

theorem sentSince_turn (h : s.backStr = []) (hlen : bytes.length < buffSize) (b : SockaddrIn) :
    s.sentSince (s.turn ⟨.datagram a bytes hlen, output, takes⟩) b =
      if b = a then ((replyTo bytes output).filter (sends takes)).toList else [] := by
  have hrun : ((commands bytes).map Call.popen).filterMap (Call.sentTo b) = [] := by
    rw [List.filterMap_map]
    exact List.filterMap_eq_nil_iff.2 fun _ _ => rfl
  rw [UdpServer.sentSince, turn_datagram h, List.drop_left, List.filterMap_append, hrun,
    List.nil_append]
  cases replyTo bytes output with
  | none => simp
  | some text =>
    by_cases hb : b = a
    · cases hsent : sends takes text <;> simp [Call.sentTo, hb, hsent, Option.filter]
    · simp [Call.sentTo, hb, Ne.symm hb]

/-! ### One client -/

/-- What a client receives when the server has received `x.1`. -/
def answerTo (x : Bytes × Option Bytes) : Option Bytes :=
  (replyTo (x.1.take (buffSize - 1)) x.2).map (·.take (buffSize - 1))

/-- Where the line that was sent last has got to: `said` are the lines sent, `served` those that the
server has received, with the outputs, `answers` what the client has received; in flight are
`requests` and `replies`. -/
inductive Place (said answers : List Bytes) (served : List (Bytes × Option Bytes)) :
    Phase → List Bytes → List Bytes → Prop
  | settled {phase : Phase} (hp : phase ≠ .waiting) (hs : said = served.map Prod.fst)
      (ha : served.map answerTo = answers.map some) : Place said answers served phase [] []
  | asked {m : Bytes} {flight : List Bytes} (hf : flight = [m] ∨ flight = [])
      (hs : said = served.map Prod.fst ++ [m]) (ha : served.map answerTo = answers.map some) :
      Place said answers served .waiting flight []
  | served {before : List (Bytes × Option Bytes)} {x : Bytes × Option Bytes} {flight : List Bytes}
      (hf : flight = (replyTo (x.1.take (buffSize - 1)) x.2).toList ∨ flight = [])
      (hx : served = before ++ [x]) (hs : said = served.map Prod.fst)
      (ha : before.map answerTo = answers.map some) : Place said answers served .waiting [] flight

section Place

variable {said answers flight requests replies : List Bytes} {served : List (Bytes × Option Bytes)}
  {phase : Phase} {t : Bytes}

theorem Place.of_ne_waiting (h : Place said answers served phase requests replies)
    (hp : phase ≠ .waiting) : requests = [] ∧ replies = [] ∧ said = served.map Prod.fst ∧
      served.map answerTo = answers.map some := by
  cases h with
  | settled _ hs ha => exact ⟨rfl, rfl, hs, ha⟩
  | asked | served => exact absurd rfl hp

/-- **The server receives the line.** -/
theorem Place.serve (h : Place said answers served phase requests replies) (hm : m ∈ requests)
    (hflight : flight = (replyTo (m.take (buffSize - 1)) output).toList ∨ flight = []) :
    Place said answers (served ++ [(m, output)]) phase (requests.erase m) (replies ++ flight) := by
  cases h with
  | settled => cases hm
  | @asked m' _ hf hs ha =>
    rcases hf with rfl | rfl
    · obtain rfl := List.mem_singleton.1 hm
      rw [List.erase_cons_head, List.nil_append]
      exact .served (x := (m, output)) hflight rfl (by simpa using hs) ha
    · cases hm
  | served => cases hm

/-- **The client receives the answer.** -/
theorem Place.receive (h : Place said answers served .waiting requests replies) (ht : t ∈ replies) :
    Place said (answers ++ [t.take (buffSize - 1)]) served .prompting requests
      (replies.erase t) := by
  cases h with
  | settled => cases ht
  | asked => cases ht
  | @served before x _ hf hx hs ha =>
    rcases hf with rfl | rfl
    · have htx : replyTo (x.1.take (buffSize - 1)) x.2 = some t := Option.mem_toList.1 ht
      rw [htx, Option.toList_some, List.erase_cons_head]
      refine .settled nofun hs ?_
      rw [hx, List.map_append, ha, List.map_append]
      simp [answerTo, htx]
    · cases ht

theorem Place.loseRequest (h : Place said answers served phase requests replies)
    (hm : m ∈ requests) : Place said answers served phase (requests.erase m) replies := by
  cases h with
  | settled => cases hm
  | @asked m' _ hf hs ha =>
    rcases hf with rfl | rfl
    · obtain rfl := List.mem_singleton.1 hm
      exact .asked (Or.inr (List.erase_cons_head ..)) hs ha
    · cases hm
  | served => cases hm

theorem Place.loseReply (h : Place said answers served phase requests replies) (ht : t ∈ replies) :
    Place said answers served phase requests (replies.erase t) := by
  cases h with
  | settled => cases ht
  | asked => cases ht
  | served hf hx hs ha =>
    rcases hf with rfl | rfl
    · have hsome := Option.mem_toList.1 ht
      rw [hsome, Option.toList_some, List.erase_cons_head]
      exact .served (Or.inr rfl) hx hs ha
    · cases ht

/-- The answers are those to the first lines, in their order. -/
theorem Place.answers_eq (h : Place said answers served phase requests replies) :
    answers.map some = (served.take answers.length).map answerTo := by
  cases h with
  | settled _ _ ha | asked _ _ ha =>
    have hlen : served.length = answers.length := by simpa using congrArg List.length ha
    rw [← hlen, List.take_length, ha]
  | served _ hx _ ha =>
    have hlen := congrArg List.length ha
    simp only [List.length_map] at hlen
    rw [hx, ← hlen, List.take_left, ha]

theorem Place.received (h : Place said answers served phase requests replies) :
    served.map Prod.fst <+: said := by
  cases h with
  | settled _ hs _ | served _ _ hs _ => rw [hs]
  | asked _ hs _ =>
    rw [hs]
    exact List.prefix_append _ _

theorem Place.length_said (h : Place said answers served phase requests replies) :
    said.length = answers.length + if phase = .waiting then 1 else 0 := by
  cases h with
  | settled hp hs ha =>
    have hlen := congrArg List.length ha
    simp only [List.length_map] at hlen
    rw [if_neg hp, hs, List.length_map, hlen]
    rfl
  | asked _ hs ha =>
    have hlen := congrArg List.length ha
    simp only [List.length_map] at hlen
    rw [if_pos rfl, hs, List.length_append, List.length_map, hlen]
    rfl
  | served _ hx hs ha =>
    have hlen := congrArg List.length ha
    simp only [List.length_map] at hlen
    rw [if_pos rfl, hs, hx, List.length_map, List.length_append, hlen]
    rfl

end Place

/-- What holds of one client, whatever the others do. -/
structure Local (input : Bytes) (c : Client) (served : List (Bytes × Option Bytes))
    (requests replies : List Bytes) : Prop where
  typed : Typed input c.cin c.message
    (c.said ++ if c.phase = .stopped then [QUIT] else [])
  quit : QUIT ∉ c.said
  cout : c.cout = (c.answers.filter (· ≠ [])).map cStr
  place : c.failures = 0 → Place c.said c.answers served c.phase requests replies

section Local

variable {input : Bytes} {c : Client} {served : List (Bytes × Option Bytes)}
  {requests replies : List Bytes} {t : Bytes}

theorem Local.start (input : Bytes) : Local input { cin := ⟨input, true⟩ } [] [] [] where
  typed := Typed.start _ _
  quit := List.not_mem_nil
  cout := rfl
  place _ := .settled nofun rfl rfl

theorem Local.prompt (h : Local input c served requests replies) (hp : c.phase = .prompting) :
    Local input c.prompt.1 served (requests ++ c.prompt.2) replies := by
  have htyped := h.typed
  rw [hp, if_neg nofun, List.append_nil] at htyped
  have hnext := htyped.getline
  have hplace : c.failures = 0 → requests = [] ∧ replies = [] ∧
      c.said = served.map Prod.fst ∧ served.map answerTo = c.answers.map some :=
    fun hfail => (h.place hfail).of_ne_waiting (hp ▸ nofun)
  unfold Client.prompt
  dsimp only
  by_cases hq : (c.cin.getline c.message).2 = QUIT
  · rw [if_pos hq]
    refine ⟨by simpa [hq] using hnext, h.quit, h.cout, fun hfail => ?_⟩
    obtain ⟨rfl, rfl, hs, ha⟩ := hplace hfail
    exact .settled nofun hs ha
  · rw [if_neg hq]
    refine ⟨by simpa using hnext, ?_, h.cout, fun hfail => ?_⟩
    · simp only [List.mem_append, List.mem_singleton, not_or]
      exact ⟨h.quit, fun he => hq he.symm⟩
    · obtain ⟨rfl, rfl, hs, ha⟩ := hplace hfail
      exact .asked (Or.inl rfl) (by rw [hs]) ha

theorem Local.serve (h : Local input c served requests replies) (hm : m ∈ requests) :
    Local input c (served ++ [(m, output)]) (requests.erase m)
      (replies ++ ((replyTo (m.take (buffSize - 1)) output).filter (sends takes)).toList) := by
  refine ⟨h.typed, h.quit, h.cout, fun hfail => (h.place hfail).serve hm ?_⟩
  cases replyTo (m.take (buffSize - 1)) output with
  | none => exact Or.inl rfl
  | some text => cases hsent : sends takes text <;> simp [Option.filter, hsent]

theorem Local.receive (h : Local input c served requests replies) (hp : c.phase = .waiting)
    (ht : t ∈ replies) : Local input (c.receive t) served requests (replies.erase t) := by
  have htyped := h.typed
  rw [hp, if_neg nofun] at htyped
  refine ⟨htyped, h.quit, ?_, fun hfail => ?_⟩
  · unfold Client.receive
    dsimp only
    by_cases hnil : t.take (buffSize - 1) = []
    · simp [hnil, h.cout]
    · simp only [List.filter_append, List.map_append]
      rw [if_pos (List.length_pos_iff.2 hnil), h.cout]
      simp [hnil]
  · have hplace := h.place hfail
    rw [hp] at hplace
    exact hplace.receive ht

theorem Local.fail (h : Local input c served requests replies) (hp : c.phase = .waiting) :
    Local input c.fail served requests replies := by
  have htyped := h.typed
  rw [hp, if_neg nofun] at htyped
  exact ⟨htyped, h.quit, h.cout, fun hfail => absurd hfail (Nat.succ_ne_zero _)⟩

theorem Local.loseRequest (h : Local input c served requests replies) (hm : m ∈ requests) :
    Local input c served (requests.erase m) replies :=
  ⟨h.typed, h.quit, h.cout, fun hfail => (h.place hfail).loseRequest hm⟩

theorem Local.loseReply (h : Local input c served requests replies) (ht : t ∈ replies) :
    Local input c served requests (replies.erase t) :=
  ⟨h.typed, h.quit, h.cout, fun hfail => (h.place hfail).loseReply ht⟩

end Local

/-! ### The system -/

/-- What the server has received from `a`. -/
def System.servedTo (y : System) (a : SockaddrIn) : List (Bytes × Option Bytes) :=
  (y.turns.filter fun x => x.1 = a).map Prod.snd

/-- The command of a call. -/
def Call.command : Call → Option Bytes
  | .popen command => some command
  | .sendto _ _ _ => none

structure Kept (input : SockaddrIn → Bytes) (y : System) : Prop where
  backStr : y.server.backStr = []
  ran : y.server.calls.filterMap Call.command =
    y.turns.flatMap fun x => commands (x.2.1.take (buffSize - 1))
  client : ∀ a, Local (input a) (y.client a) (y.servedTo a) (y.requests a) (y.replies a)

section Kept

variable {input : SockaddrIn → Bytes} {y y' : System}

theorem Kept.init (h : System.Init input y) : Kept input y := by
  obtain rfl := h
  exact ⟨rfl, rfl, fun a => .start (input a)⟩

theorem Kept.change (h : Kept input y) (a : SockaddrIn) (hserver : y'.server = y.server)
    (hturns : y'.turns = y.turns) (hother : ∀ b, b ≠ a → y'.client b = y.client b ∧
      y'.requests b = y.requests b ∧ y'.replies b = y.replies b)
    (ha : Local (input a) (y'.client a) (y.servedTo a) (y'.requests a) (y'.replies a)) :
    Kept input y' := by
  have hserved : ∀ b, y'.servedTo b = y.servedTo b := fun b => by
    rw [System.servedTo, hturns, System.servedTo]
  refine ⟨hserver ▸ h.backStr, by rw [hserver, hturns]; exact h.ran, fun b => ?_⟩
  rw [hserved]
  by_cases hb : b = a
  · exact hb ▸ ha
  · obtain ⟨hc, hq, hp⟩ := hother b hb
    rw [hc, hq, hp]
    exact h.client b

theorem servedTo_concat (y : System) (a b : SockaddrIn) (m : Bytes) (output : Option Bytes) :
    ((y.turns ++ [(a, m, output)]).filter fun x => x.1 = b).map Prod.snd =
      if b = a then y.servedTo b ++ [(m, output)] else y.servedTo b := by
  rw [System.servedTo, List.filter_append]
  by_cases hb : b = a
  · simp [hb]
  · simp [hb, Ne.symm hb]

theorem Kept.step (h : Kept input y) (hs : System.Step y y') : Kept input y' := by
  cases hs with
  | @prompt a hp =>
    refine h.change a rfl rfl (fun b hb => ?_) ?_
    · simp only [update_of_ne hb, and_self]
    · simpa only [update_self] using (h.client a).prompt hp
  | @serve s a m output takes hm hs =>
    have hlen := length_take_lt m
    refine ⟨by rw [hs, turn_datagram h.backStr hlen], ?_, fun b => ?_⟩
    · have hreply : ∀ o : Option Bytes, (o.toList.map fun text =>
          Call.sendto a text (sends takes text)).filterMap Call.command = [] := by
        intro o
        rw [List.filterMap_map]
        exact List.filterMap_eq_nil_iff.2 fun _ _ => rfl
      have hrun : ∀ l : List Bytes, (l.map Call.popen).filterMap Call.command = l := by
        intro l
        rw [List.filterMap_map]
        exact List.filterMap_some
      dsimp only
      rw [hs, turn_datagram h.backStr hlen, List.filterMap_append, List.filterMap_append, h.ran,
        hreply, hrun, List.append_nil, List.flatMap_append, List.flatMap_singleton]
    · have hsent : y.server.sentSince s b =
          if b = a then ((replyTo (m.take (buffSize - 1)) output).filter (sends takes)).toList
          else [] := by
        rw [hs, sentSince_turn h.backStr hlen b]
      dsimp only
      rw [System.servedTo, servedTo_concat, hsent]
      by_cases hb : b = a
      · subst hb
        rw [if_pos rfl, if_pos rfl, update_self]
        exact (h.client b).serve hm
      · rw [if_neg hb, if_neg hb, update_of_ne hb, List.append_nil]
        exact h.client b
  | @idle takes =>
    have hturn : y.server.turn ⟨.fail, none, takes⟩ =
        ⟨[], y.server.calls ++ [.sendto Recvfrom.fail.peer [] takes]⟩ :=
      UdpServer.reply_nil h.backStr takes _
    refine ⟨by rw [hturn], ?_, h.client⟩
    dsimp only
    rw [hturn, List.filterMap_append, h.ran]
    exact List.append_nil _
  | @receive a t hp ht =>
    refine h.change a rfl rfl (fun b hb => ?_) ?_
    · simp only [update_of_ne hb, and_self]
    · simpa only [update_self] using (h.client a).receive hp ht
  | @fail a hp =>
    refine h.change a rfl rfl (fun b hb => ?_) ?_
    · simp only [update_of_ne hb, and_self]
    · simpa only [update_self] using (h.client a).fail hp
  | @loseRequest a m hm =>
    refine h.change a rfl rfl (fun b hb => ?_) ?_
    · simp only [update_of_ne hb, and_self]
    · simpa only [update_self] using (h.client a).loseRequest hm
  | @loseReply a t ht =>
    refine h.change a rfl rfl (fun b hb => ?_) ?_
    · simp only [update_of_ne hb, and_self]
    · simpa only [update_self] using (h.client a).loseReply ht

theorem Kept.invariant (input : SockaddrIn → Bytes) :
    Invariant (System.Init input) System.Step (Kept input) :=
  ⟨fun _ h => .init h, fun _ _ h hs => h.step hs⟩

theorem System.Reach.kept (h : Reach input y) : Kept input y :=
  (Kept.invariant input).reachable h

/-! ### Waiting for ever -/

/-- The client waits, and nothing is in flight from it or to it. -/
structure System.Stuck (y : System) (a : SockaddrIn) : Prop where
  phase : (y.client a).phase = .waiting
  requests : y.requests a = []
  replies : y.replies a = []

theorem System.Step.failures_le (hs : Step y y') (a : SockaddrIn) :
    (y.client a).failures ≤ (y'.client a).failures := by
  have hone : ∀ (b : SockaddrIn) (c : Client), (y.client b).failures ≤ c.failures →
      (y.client a).failures ≤ (update y.client b c a).failures := by
    intro b c hle
    by_cases hb : a = b
    · rw [hb, update_self]
      exact hle
    · rw [update_of_ne hb]
  cases hs with
  | @prompt b hp =>
    refine hone b _ ?_
    unfold Client.prompt
    dsimp only
    split <;> exact le_rfl
  | @receive b t hp ht => exact hone b _ le_rfl
  | @fail b hp => exact hone b _ (Nat.le_succ _)
  | serve | idle | loseRequest | loseReply => exact le_rfl

/-- **Nothing helps a client that waits for nothing**, but a failure of `recvfrom`. -/
theorem System.Stuck.step (h : y.Stuck a) (hkept : Kept input y) (hs : Step y y') :
    (y'.Stuck a ∧ y'.client a = y.client a ∧ y'.servedTo a = y.servedTo a) ∨
      0 < (y'.client a).failures := by
  have hne : ∀ b, (y.client b).phase = .prompting → a ≠ b := by
    rintro _ hp rfl
    rw [h.phase] at hp
    cases hp
  have hfrom : ∀ b m, m ∈ y.requests b → a ≠ b := by
    rintro _ m hm rfl
    rw [h.requests] at hm
    cases hm
  have hto : ∀ b t, t ∈ y.replies b → a ≠ b := by
    rintro _ t ht rfl
    rw [h.replies] at ht
    cases ht
  cases hs with
  | @prompt b hp =>
    have hab := hne b hp
    refine Or.inl ⟨⟨?_, ?_, h.replies⟩, update_of_ne hab .., rfl⟩
    · simpa only [update_of_ne hab] using h.phase
    · simpa only [update_of_ne hab] using h.requests
  | @serve s b m output takes hm hs =>
    have hab := hfrom b m hm
    refine Or.inl ⟨⟨h.phase, ?_, ?_⟩, rfl, ?_⟩
    · simpa only [update_of_ne hab] using h.requests
    · dsimp only
      rw [hs, sentSince_turn hkept.backStr (length_take_lt m), if_neg hab, h.replies]
      rfl
    · exact (servedTo_concat y b a m output).trans (if_neg hab)
  | idle => exact Or.inl ⟨⟨h.phase, h.requests, h.replies⟩, rfl, rfl⟩
  | @receive b t hp ht =>
    have hab := hto b t ht
    refine Or.inl ⟨⟨?_, h.requests, ?_⟩, update_of_ne hab .., rfl⟩
    · simpa only [update_of_ne hab] using h.phase
    · simpa only [update_of_ne hab] using h.replies
  | @fail b hp =>
    by_cases hab : a = b
    · subst hab
      refine Or.inr ?_
      simp only [update_self]
      exact Nat.succ_pos _
    · refine Or.inl ⟨⟨?_, h.requests, h.replies⟩, update_of_ne hab .., rfl⟩
      simpa only [update_of_ne hab] using h.phase
  | @loseRequest b m hm =>
    refine Or.inl ⟨⟨h.phase, ?_, h.replies⟩, rfl, rfl⟩
    simpa only [update_of_ne (hfrom b m hm)] using h.requests
  | @loseReply b t ht =>
    refine Or.inl ⟨⟨h.phase, h.requests, ?_⟩, rfl, rfl⟩
    simpa only [update_of_ne (hto b t ht)] using h.replies

/-- So it waits for ever. -/
theorem System.Stuck.run (h : y.Stuck a) (hreach : y.Reach input) (hrun : ReflTransGen Step y y')
    (hfail : (y'.client a).failures = 0) :
    y'.Stuck a ∧ y'.client a = y.client a ∧ y'.servedTo a = y.servedTo a := by
  induction hrun with
  | refl => exact ⟨h, rfl, rfl⟩
  | tail hrun hs ih =>
    obtain ⟨y₀, h₀, hsteps⟩ := hreach
    have hkept := System.Reach.kept ⟨y₀, h₀, hsteps.trans hrun⟩
    have hle := hs.failures_le a
    obtain ⟨hstuck, hclient, hserved⟩ := ih (by omega)
    rcases hstuck.step hkept hs with ⟨h₂, hc, hsv⟩ | hpos
    · exact ⟨h₂, hc.trans hclient, hsv.trans hserved⟩
    · omega

/-! ### What a client is answered -/

/-- The lines `said` of a client were typed one after the other and none is `quit`; of these the
server has received the first ones, in their order and none twice, and the client has the answers to
the first of those; only for the last line it may still wait. -/
structure Session (input : Bytes) (c : Client) (served : List (Bytes × Option Bytes)) : Prop where
  typed : ∃ k, c.said <+: input.splitOn 10 ++ List.replicate k (lastLine input)
  quit : QUIT ∉ c.said
  received : served.map Prod.fst <+: c.said
  answered : c.answers.map some = (served.take c.answers.length).map answerTo
  waits : c.said.length = c.answers.length + if c.phase = .waiting then 1 else 0
  cout : c.cout = (c.answers.filter (· ≠ [])).map cStr

/-- **Every line has its own answer.** Whatever the other clients do, and whatever the network loses
or delays, a client whose `recvfrom` has not failed is shown the answers to its lines in their
order, each as the command has written it then; a line is run at most once, and the server runs
nothing but what it has received. A client whose line or answer is lost is not answered any more. -/
theorem commands_answered (h : y.Reach input) (a : SockaddrIn)
    (hfail : (y.client a).failures = 0) :
    Session (input a) (y.client a) (y.servedTo a) ∧
    y.server.calls.filterMap Call.command =
      (y.turns.flatMap fun x => commands (x.2.1.take (buffSize - 1))) ∧
    (y.Stuck a → ∀ y', ReflTransGen System.Step y y' → (y'.client a).failures = 0 →
      y'.client a = y.client a ∧ y'.servedTo a = y.servedTo a) := by
  have hkept := h.kept
  have hlocal := hkept.client a
  have hplace := hlocal.place hfail
  refine ⟨⟨?_, hlocal.quit, hplace.received, hplace.answers_eq, hplace.length_said,
    hlocal.cout⟩, hkept.ran, fun hstuck y' hrun hfail' =>
      (hstuck.run h hrun hfail').2⟩
  obtain ⟨k, hk⟩ := hlocal.typed.lines
  exact ⟨k, (List.prefix_append _ _).trans hk⟩

end Kept

/-- The client on `a` types `ls` and is answered `a` and a newline. -/
theorem exists_run (a : SockaddrIn) : ∃ y : System, y.Reach (fun _ => [108, 115, 10]) ∧
    (y.client a).failures = 0 ∧ (y.client a).answers = [[97, 10]] := by
  have h₀ : System.Reach (fun _ => [108, 115, 10]) _ := .start rfl
  have h₁ := h₀.next (.prompt (a := a) rfl)
  have h₂ := h₁.next (@System.Step.serve _ _ a [108, 115] (some [97, 10]) true
    (by simp [Client.prompt, Cin.getline, QUIT, literal]) rfl)
  have h₃ := h₂.next (@System.Step.receive _ a [97, 10]
    (by simp [Client.prompt, Cin.getline, QUIT, literal]) ?_)
  · refine ⟨_, h₃, ?_, ?_⟩
    · simp [Client.receive, Client.prompt, Cin.getline, QUIT, literal]
    · simp [Client.receive, Client.prompt, Cin.getline, QUIT, literal, buffSize]
  · dsimp only
    rw [sentSince_turn rfl (length_take_lt _), if_pos rfl, List.nil_append]
    decide

/-- A client was answered. -/
theorem commands_answered_ls : ∃ y : System,
    (y.client ⟨⟨127, 0, 0, 1⟩, 9000⟩).answers = [[97, 10]] ∧ Session [108, 115, 10]
      (y.client ⟨⟨127, 0, 0, 1⟩, 9000⟩) (y.servedTo ⟨⟨127, 0, 0, 1⟩, 9000⟩) := by
  obtain ⟨y, hreach, hfail, hanswers⟩ := exists_run ⟨⟨127, 0, 0, 1⟩, 9000⟩
  exact ⟨y, hanswers, (commands_answered hreach _ hfail).1⟩

end NetProg.Shell
