import NetProg.Calculator.KeepingUp
import NetProg.Calculator.TcpServer

/-!
# Each thread talks with its own client

The numbers of descriptors are used again, and all threads use one table. `Kept` says for every
connection what its descriptor and its thread have to do with each other, and `threads_apart` that a
thread of the server is a calculator that is alone with its client.
-/

namespace NetProg.Calculator

open NetProg.Lib NetProg.Reactor Function
open SockCall (recvs sends recvs_concat_recv recvs_concat_send sends_concat_recv sends_concat_send)

namespace TcpServer

variable {σ ε : Type*} {P : Program σ SockCall ε} {x x' : TcpServer σ ε} {listenSock k : ℕ}
  {th : Thread σ}

/-! ### Descriptors and threads -/

/-- The descriptor and the thread of the connection `k`. -/
def Keeps (P : Program σ SockCall ε) (x : TcpServer σ ε) (k : ℕ) : Thread σ → Prop
  | ⟨sock, .missing⟩ => x.table sock = some (.connection k) ∧ x.talk (.connection k) = [] ∧
      x.closes (.connection k) = 0
  | ⟨sock, .excute s⟩ => Job.Fits P x.table x.talk ⟨sock, .connection k, s⟩ ∧
      x.closes (.connection k) = 0
  | ⟨_, .ended⟩ => (∀ fd, x.table fd ≠ some (.connection k)) ∧ x.closes (.connection k) = 1 ∧
      ∃ s, Talk P (x.talk (.connection k)) s ∧ P.returned s = true

/-- What holds of all connections while the process lives. -/
structure Kept (P : Program σ SockCall ε) (listenSock : ℕ) (x : TcpServer σ ε) : Prop where
  listening : x.table listenSock = some .listening
  thread : ∀ k th, x.thread k = some th → Keeps P x k th
  accepted : ∀ k, x.accepted ≤ k →
    x.thread k = none ∧ x.talk (.connection k) = [] ∧ x.closes (.connection k) = 0
  /-- every other open descriptor is one of a connection -/
  open_ : ∀ fd f, x.table fd = some f →
    fd = listenSock ∧ f = .listening ∨ ∃ k phase, f = .connection k ∧ x.thread k = some ⟨fd, phase⟩

theorem Kept.init : Kept P listenSock (init listenSock : TcpServer σ ε) where
  listening := by simp [TcpServer.init]
  thread k th h := by cases h
  accepted k _ := ⟨rfl, rfl, rfl⟩
  open_ fd f h := by
    simp only [TcpServer.init, update_apply] at h
    split at h
    · exact Or.inl ⟨‹_›, (Option.some.inj h).symm⟩
    · cases h

theorem Keeps.sock {sock : ℕ} {s : σ} (h : Keeps P x k ⟨sock, .excute s⟩) :
    x.table sock = some (.connection k) := h.1.sock

theorem Kept.inj (h : Kept P listenSock x) {fd fd' : ℕ} (hfd : x.table fd = some (.connection k))
    (hfd' : x.table fd' = some (.connection k)) : fd = fd' := by
  obtain ⟨-, hf⟩ | ⟨k₁, phase, hf, hth⟩ := h.open_ fd _ hfd
  · cases hf
  obtain ⟨-, hf'⟩ | ⟨k₂, phase', hf', hth'⟩ := h.open_ fd' _ hfd'
  · cases hf'
  cases hf
  cases hf'
  rw [hth] at hth'
  cases hth'
  rfl

theorem Kept.lt (h : Kept P listenSock x) (hth : x.thread k = some th) : k < x.accepted := by
  by_contra hle
  rw [(h.accepted k (Nat.le_of_not_lt hle)).1] at hth
  cases hth

/-! ### The steps -/

/-- What is known of a thread is about its own connection only. -/
theorem Keeps.of_same (h : Keeps P x k th)
    (htable : ∀ fd, x'.table fd = some (.connection k) ↔ x.table fd = some (.connection k))
    (htalk : x'.talk (.connection k) = x.talk (.connection k))
    (hcloses : x'.closes (.connection k) = x.closes (.connection k)) : Keeps P x' k th := by
  obtain ⟨sock, phase⟩ := th
  cases phase with
  | missing => exact ⟨(htable _).2 h.1, htalk.trans h.2.1, hcloses.trans h.2.2⟩
  | excute s =>
    have htalk' : Talk P (x.talk (.connection k)) s := h.1.talk
    exact ⟨⟨(htable _).2 h.1.sock, htalk ▸ htalk'⟩, hcloses.trans h.2⟩
  | ended => exact ⟨fun fd hfd => h.1 fd ((htable fd).1 hfd), hcloses.trans h.2.1, htalk ▸ h.2.2⟩

theorem Kept.accept (h : Kept P listenSock x) {sock : ℕ} (created : Bool)
    (hsock : x.table sock = none) : Kept P listenSock (x.accept P sock created) := by
  obtain ⟨hnone, htalk, hcloses⟩ := h.accepted x.accepted le_rfl
  refine ⟨?_, fun k th hth => ?_, fun k hk => ?_, fun fd f hf => ?_⟩
  · have hne : listenSock ≠ sock := by
      rintro rfl
      rw [h.listening] at hsock
      cases hsock
    exact (update_of_ne hne ..).trans h.listening
  · by_cases hk : k = x.accepted
    · subst hk
      rw [accept_thread, update_self] at hth
      obtain rfl := Option.some.inj hth
      have hself : (x.accept P sock created).table sock = some (.connection x.accepted) :=
        update_self ..
      cases created with
      | true => exact ⟨Job.Fits.start hself htalk, hcloses⟩
      | false => exact ⟨hself, htalk, hcloses⟩
    · rw [accept_thread, update_of_ne hk] at hth
      refine (h.thread k th hth).of_same (fun fd => ?_) rfl rfl
      by_cases hfd : fd = sock
      · subst hfd
        simp [accept_table, hsock, Ne.symm hk]
      · simp [accept_table, hfd]
  · have hk' : x.accepted + 1 ≤ k := hk
    obtain ⟨hnone', hrest⟩ := h.accepted k (by omega)
    exact ⟨(update_of_ne (by omega) ..).trans hnone', hrest⟩
  · by_cases hfd : fd = sock
    · subst hfd
      rw [accept_table, update_self] at hf
      obtain rfl := Option.some.inj hf
      exact Or.inr ⟨x.accepted, _, rfl, by rw [accept_thread, update_self]⟩
    · rw [accept_table, update_of_ne hfd] at hf
      rcases h.open_ fd f hf with hl | ⟨k, phase, rfl, hth⟩
      · exact Or.inl hl
      · have hk := (h.lt hth).ne
        exact Or.inr ⟨k, phase, rfl, by rw [accept_thread, update_of_ne hk, hth]⟩

theorem Kept.goto (h : Kept P listenSock x) {k sock : ℕ} {phase phase' : Phase σ}
    (hth : x.thread k = some ⟨sock, phase⟩) (hself : Keeps P x' k ⟨sock, phase'⟩)
    (hthread : x'.thread = x.thread) (haccepted : x'.accepted = x.accepted)
    (htalk : ∀ j, j ≠ k → x'.talk (.connection j) = x.talk (.connection j))
    (hcloses : ∀ j, j ≠ k → x'.closes (.connection j) = x.closes (.connection j))
    (htable : ∀ fd f, f ≠ .connection k → (x'.table fd = some f ↔ x.table fd = some f))
    (hopen : ∀ fd, x'.table fd = some (.connection k) → x.table fd = some (.connection k)) :
    Kept P listenSock (x'.goto k ⟨sock, phase'⟩) := by
  refine ⟨(htable _ _ (by simp)).2 h.listening, fun j th hj => ?_, fun j hj => ?_,
    fun fd f hf => ?_⟩
  · by_cases hjk : j = k
    · subst hjk
      rw [goto_thread, update_self] at hj
      obtain rfl := Option.some.inj hj
      exact hself.of_same (fun _ => Iff.rfl) rfl rfl
    · rw [goto_thread, update_of_ne hjk, hthread] at hj
      exact (h.thread j th hj).of_same (fun fd => htable fd _ (by simpa using hjk))
        (htalk j hjk) (hcloses j hjk)
  · have hj' : x.accepted ≤ j := haccepted ▸ hj
    have hjk : j ≠ k := by
      have := h.lt hth
      omega
    obtain ⟨hnone, htalk', hcloses'⟩ := h.accepted j hj'
    refine ⟨?_, (htalk j hjk).trans htalk', (hcloses j hjk).trans hcloses'⟩
    rw [goto_thread, update_of_ne hjk, hthread, hnone]
  · have hf' : x'.table fd = some f := hf
    have hold : x.table fd = some f := by
      by_cases hfk : f = .connection k
      · exact hfk ▸ hopen fd (hfk ▸ hf')
      · exact (htable fd f hfk).1 hf'
    rcases h.open_ fd f hold with hl | ⟨j, ph, rfl, hj⟩
    · exact Or.inl hl
    · by_cases hjk : j = k
      · subst hjk
        rw [hth] at hj
        cases hj
        exact Or.inr ⟨j, phase', rfl, by rw [goto_thread, update_self]⟩
      · exact Or.inr ⟨j, ph, rfl, by rw [goto_thread, update_of_ne hjk, hthread, hj]⟩

theorem Kept.call (h : Kept P listenSock x) {sock : ℕ} {s s' : σ} {c : SockCall}
    (hth : x.thread k = some ⟨sock, .excute s⟩) (hret : P.returned s = false)
    (hc : P.step s c = some (.ok s')) :
    Kept P listenSock ((x.call sock c).goto k ⟨sock, .excute s'⟩) := by
  have hk : Keeps P x k ⟨sock, .excute s⟩ := h.thread k _ hth
  have htalk : (x.call sock c).talk =
      update x.talk (.connection k) (x.talk (.connection k) ++ [c]) := hear_of_some hk.sock c
  refine h.goto hth ⟨hk.1.call hret hc, hk.2⟩ rfl rfl (fun j hj => ?_) (fun _ _ => rfl)
    (fun _ _ _ => Iff.rfl) (fun _ hfd => hfd)
  rw [htalk, update_of_ne (File.connection_ne hj)]

theorem Kept.close (h : Kept P listenSock x) {sock : ℕ} {s : σ}
    (hth : x.thread k = some ⟨sock, .excute s⟩) (hret : P.returned s = true) :
    Kept P listenSock ((x.close sock).goto k ⟨sock, .ended⟩) := by
  have hk : Keeps P x k ⟨sock, .excute s⟩ := h.thread k _ hth
  have hcloses : (x.close sock).closes =
      update x.closes (.connection k) (x.closes (.connection k) + 1) := by
    simp only [TcpServer.close, hk.sock]
  have htable : ∀ fd f, (x.close sock).table fd = some f ↔ fd ≠ sock ∧ x.table fd = some f := by
    intro fd f
    by_cases hfd : fd = sock <;> simp [TcpServer.close, hfd]
  refine h.goto hth ⟨fun fd hfd => ?_, ?_, s, hk.1.talk, hret⟩ rfl rfl (fun _ _ => rfl)
    (fun j hj => ?_) (fun fd f hf => ?_) (fun fd hfd => ((htable fd _).1 hfd).2)
  · obtain ⟨hne, hfd⟩ := (htable fd _).1 hfd
    exact hne (h.inj hfd hk.sock)
  · rw [hcloses, update_self, hk.2]
  · rw [hcloses, update_of_ne (File.connection_ne hj)]
  · rw [htable]
    refine and_iff_right_of_imp fun hold he => hf ?_
    rw [he, hk.sock] at hold
    exact (Option.some.inj hold).symm

/-! ### Runs -/

/-- The error is that of a service, on what was said on one connection. -/
def Blamed (P : Program σ SockCall ε) (x : TcpServer σ ε) (e : ε) : Prop :=
  ∃ k l c s, x.talk (.connection k) = l ++ [c] ∧ Talk P l s ∧ P.returned s = false ∧
    P.step s c = some (.error e)

theorem kept_invariant : Invariant (fun x : TcpServer σ ε => x = init listenSock) (Step P) fun x =>
    (x.died = none → Kept P listenSock x) ∧ ∀ e, x.died = some e → Blamed P x e where
  init := by
    rintro x rfl
    exact ⟨fun _ => .init, fun e (h : none = some e) => by cases h⟩
  step := by
    rintro x x' ⟨hkept, -⟩ hs
    have hnone : ∀ {e}, x.died = none → x.died = some e → False := fun h h' => by
      rw [h] at h'
      cases h'
    cases hs with
    | accept created hlive hsock =>
      exact ⟨fun _ => (hkept hlive).accept created hsock, fun e he => (hnone hlive he).elim⟩
    | call hlive hth hret hc =>
      exact ⟨fun _ => (hkept hlive).call hth hret hc, fun e he => (hnone hlive he).elim⟩
    | @die k sock s c e hlive hth hret hc =>
      have hk : Keeps P x k ⟨sock, .excute s⟩ := (hkept hlive).thread k _ hth
      refine ⟨fun h => absurd h (Option.some_ne_none _), fun e' he => ?_⟩
      obtain rfl : e = e' := Option.some.inj he
      refine ⟨k, x.talk (.connection k), c, s, ?_, hk.1.talk, hret, hc⟩
      simp [TcpServer.call, hear_of_some hk.sock]
    | close hlive hth hret =>
      exact ⟨fun _ => (hkept hlive).close hth hret, fun e he => (hnone hlive he).elim⟩

end TcpServer

/-! ### The calculator by its calls -/

variable {J : Json} {l : List SockCall} {s : At} {c : Service} {rounds : List (RecvAns × SendAns)}

/-- The end of the round that has come to `send`. -/
def sent (c : Service) (backStr : Bytes) (r : SendAns) : Except Stop (Turn Service State) :=
  let c := { c with sends := c.sends ++ [(backStr, r)] }
  match Reactor.send r with
  | some true => .ok (.again c)
  | some false => .ok (.leave (.returned c))
  | none => .error .sigpipe

/-- What a round does that begins in this state and ends there, or is in `send` there. -/
def RoundTo (J : Json) (c : Service) (a : RecvAns) : Except Stop At → Prop
  | .error e => ∀ r, calculator.turn J c (a, r) = .error e
  | .ok (.recv c') => c'.sends = c.sends ∧ ∀ r, calculator.turn J c (a, r) = .ok (.again c')
  | .ok (.send c' backStr) => c'.sends = c.sends ∧
      ∀ r, calculator.turn J c (a, r) = sent c' backStr r
  | .ok (.returned c') => c'.sends = c.sends ∧
      ∀ r, calculator.turn J c (a, r) = .ok (.leave (.returned c'))

theorem roundTo_recv {a : RecvAns} {r : Except Stop At}
    (h : calculatorStep J (.recv c) (.recv a) = some r) : RoundTo J c a r := by
  simp only [calculatorStep] at h
  cases hrecv : Reactor.recv a c.s with
  | none =>
    obtain rfl : _ = r := by simpa [hrecv] using h
    exact fun r => by simp [calculator.turn, hrecv]
  | some r₁ =>
    obtain ⟨ok, s₁⟩ := r₁
    cases ok with
    | false =>
      obtain rfl : _ = r := by simpa [hrecv] using h
      exact ⟨rfl, fun r => by simp [calculator.turn, hrecv]⟩
    | true =>
      cases hdec : deCode s₁ with
      | mk package s₂ =>
        simp only [hrecv, hdec] at h
        cases hempty : package.isEmpty with
        | true =>
          obtain rfl : _ = r := by simpa [hempty] using h
          exact ⟨rfl, fun r => by simp [calculator.turn, hrecv, hdec, hempty]⟩
        | false =>
          obtain rfl : _ = r := by simpa [hempty] using h
          cases hreply : reply J package with
          | error e =>
            exact fun r => by
              simp [calculator.turn, hrecv, hdec, hempty, hreply, bind, Except.bind]
          | ok backStr =>
            refine ⟨rfl, fun r => ?_⟩
            simp only [calculator.turn, hrecv, hdec, hempty, hreply, bind, Except.bind, sent]
            cases hsend : Reactor.send r with
            | none => rfl
            | some ok => cases ok <;> rfl

/-- The calls are those of `calculator`, when these are the answers: of its rounds, and of the round
that is in `send`. -/
def Serves (J : Json) (l : List SockCall) : At → Prop
  | .recv c => ∃ rounds, Goes (calculator.turn J) {} rounds c ∧
      rounds.map Prod.fst = recvs l ∧ c.sends = sends l
  | .send c backStr => ∃ rounds c₀ a, Goes (calculator.turn J) {} rounds c₀ ∧
      rounds.map Prod.fst ++ [a] = recvs l ∧ c₀.sends = sends l ∧ c.sends = sends l ∧
      ∀ r, calculator.turn J c₀ (a, r) = sent c backStr r
  | .returned c => ∃ rounds, calculator J rounds = .ok (.returned c) ∧
      rounds.map Prod.fst = recvs l ∧ c.sends = sends l

theorem calculator_last {x : RecvAns × SendAns} {c' : Service}
    (hgoes : Goes (calculator.turn J) {} rounds c)
    (hturn : calculator.turn J c x = .ok (.leave (.returned c'))) :
    calculator J (rounds ++ [x]) = .ok (.returned c') := by
  rw [calculator, hgoes.loop, Lib.loop, hturn]

theorem recvs_rounds {a : RecvAns} (h : rounds.map Prod.fst = recvs l) (r : SendAns) :
    (rounds ++ [(a, r)]).map Prod.fst = recvs (l ++ [.recv a]) := by
  rw [recvs_concat_recv, ← h, List.map_append]
  rfl

theorem Serves.recv {a : RecvAns} {s' : At} (h : Serves J l (.recv c))
    (hs : calculatorStep J (.recv c) (.recv a) = some (.ok s')) :
    Serves J (l ++ [.recv a]) s' := by
  obtain ⟨rounds, hgoes, hrecvs, hsends⟩ := h
  have hround : RoundTo J c a (.ok s') := roundTo_recv hs
  cases s' with
  | recv c' =>
    obtain ⟨hsame, hturn⟩ := hround
    refine ⟨rounds ++ [(a, .count 0)], hgoes.snoc (hturn _), recvs_rounds hrecvs _, ?_⟩
    rw [sends_concat_recv, hsame, hsends]
  | send c' backStr =>
    obtain ⟨hsame, hturn⟩ := hround
    refine ⟨rounds, c, a, hgoes, ?_, ?_, ?_, hturn⟩
    · rw [recvs_concat_recv, hrecvs]
    · rw [sends_concat_recv, hsends]
    · rw [sends_concat_recv, hsame, hsends]
  | returned c' =>
    obtain ⟨hsame, hturn⟩ := hround
    refine ⟨rounds ++ [(a, .count 0)], calculator_last hgoes (hturn _), recvs_rounds hrecvs _, ?_⟩
    rw [sends_concat_recv, hsame, hsends]

theorem Serves.send {backStr : Bytes} {r : SendAns} {s' : At} (h : Serves J l (.send c backStr))
    (hs : calculatorStep J (.send c backStr) (.send backStr r) = some (.ok s')) :
    Serves J (l ++ [.send backStr r]) s' := by
  obtain ⟨rounds, c₀, a, hgoes, hrecvs, -, hsends, hturn⟩ := h
  have hturn' := hturn r
  have hrecvs' : (rounds ++ [(a, r)]).map Prod.fst = recvs (l ++ [.send backStr r]) := by
    rw [recvs_concat_send, ← hrecvs, List.map_append]
    rfl
  have hsends' : c.sends ++ [(backStr, r)] = sends (l ++ [.send backStr r]) := by
    rw [sends_concat_send, hsends]
  simp only [calculatorStep, if_true] at hs
  cases hsend : Reactor.send r with
  | none => simp [hsend] at hs
  | some ok =>
    rw [sent, hsend] at hturn'
    cases ok with
    | true =>
      obtain rfl : _ = s' := by simpa [hsend] using hs
      exact ⟨rounds ++ [(a, r)], hgoes.snoc hturn', hrecvs', hsends'⟩
    | false =>
      obtain rfl : _ = s' := by simpa [hsend] using hs
      exact ⟨rounds ++ [(a, r)], calculator_last hgoes hturn', hrecvs', hsends'⟩

/-- **The talk of the calculator** is that of its rounds. -/
theorem Serves.of_talk (h : Talk (calculatorProgram J) l s) : Serves J l s := by
  induction h with
  | start => exact ⟨[], .nil, rfl, rfl⟩
  | @call l s s' c _ hret hc ih =>
    cases s with
    | returned c₀ => cases hret
    | recv c₀ =>
      cases c with
      | send => cases hc
      | recv a => exact ih.recv hc
    | send c₀ backStr =>
      cases c with
      | recv => cases hc
      | send b r =>
        obtain rfl : b = backStr := by
          by_contra hne
          simp [calculatorProgram, calculatorStep, hne] at hc
        exact ih.send hc

/-- The calls are those of `calculator` up to its error, when these are the answers: of its rounds,
and of the one that fails, behind `recv` or in `send`. -/
inductive Fails (J : Json) (l : List SockCall) (e : Stop) : Prop
  | recv {c : Service} {rounds : List (RecvAns × SendAns)} {a : RecvAns}
      (hgoes : Goes (calculator.turn J) {} rounds c) (hrecvs : rounds.map Prod.fst ++ [a] = recvs l)
      (hsends : c.sends = sends l) (h : ∀ r, calculator J (rounds ++ [(a, r)]) = .error e)
  | send {c c' : Service} {rounds : List (RecvAns × SendAns)} {a : RecvAns} {b : Bytes}
      {r : SendAns}
      (hgoes : Goes (calculator.turn J) {} rounds c) (hrecvs : rounds.map Prod.fst ++ [a] = recvs l)
      (hsends : c.sends ++ [(b, r)] = sends l)
      (hturn : ∀ r', calculator.turn J c (a, r') = sent c' b r')
      (h : calculator J (rounds ++ [(a, r)]) = .error e)

theorem calculator_fails {x : RecvAns × SendAns} {e : Stop}
    (hgoes : Goes (calculator.turn J) {} rounds c) (hturn : calculator.turn J c x = .error e) :
    calculator J (rounds ++ [x]) = .error e := by
  rw [calculator, hgoes.loop, Lib.loop, hturn]

/-- **An error of the calculator** comes from its last call. -/
theorem Fails.of_talk {k : SockCall} {e : Stop} (h : Talk (calculatorProgram J) l s)
    (hs : calculatorStep J s k = some (.error e)) : Fails J (l ++ [k]) e := by
  have hserves := Serves.of_talk h
  cases s with
  | returned c => cases hs
  | recv c =>
    cases k with
    | send => cases hs
    | recv a =>
      obtain ⟨rounds, hgoes, hrecvs, hsends⟩ := hserves
      have hturn : ∀ r, calculator.turn J c (a, r) = .error e := roundTo_recv hs
      refine .recv hgoes ?_ ?_ fun r => calculator_fails hgoes (hturn r)
      · rw [recvs_concat_recv, hrecvs]
      · rw [sends_concat_recv, hsends]
  | send c backStr =>
    cases k with
    | recv => cases hs
    | send b r =>
      obtain ⟨rounds, c₀, a, hgoes, hrecvs, hsends, -, hturn⟩ := hserves
      have hturn' := hturn r
      simp only [calculatorStep] at hs
      split at hs
      · rename_i hb
        subst hb
        -- of the results of `Send` only the signal is an error
        cases hsend : Reactor.send r with
        | some ok => cases ok <;> simp [hsend] at hs
        | none =>
          obtain rfl : Stop.sigpipe = e := by simpa [hsend] using hs
          rw [sent, hsend] at hturn'
          refine .send hgoes ?_ ?_ hturn (calculator_fails hgoes hturn')
          · rw [recvs_concat_send, hrecvs]
          · rw [sends_concat_send, hsends]
      · cases hs

/-! ### The threads of the server -/

abbrev CalServer : Type := TcpServer (List (Program At SockCall Stop × At)) Stop

/-- What the descriptor, the thread and the calls of the connection `k` have to do with `calculator`
on this connection's answers. -/
def Calculates (J : Json) (x : CalServer) (k : ℕ) :
    Thread (List (Program At SockCall Stop × At)) → Prop
  | ⟨sock, .missing⟩ => x.table sock = some (.connection k) ∧ x.talk (.connection k) = []
  | ⟨sock, .excute S⟩ => x.table sock = some (.connection k) ∧ x.closes (.connection k) = 0 ∧
      ∃ s, S = [(calculatorProgram J, s)] ∧ Serves J (x.talk (.connection k)) s
  | ⟨_, .ended⟩ => (∀ fd, x.table fd ≠ some (.connection k)) ∧ x.closes (.connection k) = 1 ∧
      ∃ c, Serves J (x.talk (.connection k)) (.returned c)

/-- **Each thread is a calculator alone with its client.** While the process lives, whatever the
threads do in turns and however descriptors are used again: a connection whose thread was created is
open under its number until `calculator` has returned, then closed once, and the calls made on it
are those of `calculator` when these are the answers; one whose thread was not created stays open,
and nothing is said on it. When the process has died, the calls on one of the connections are those
of `calculator`, alone with its answers, up to this error. -/
theorem threads_apart {x : CalServer} {listenSock : ℕ}
    (h : TcpServer.Reach (excute J) listenSock x) :
    (x.died = none → (∀ k th, x.thread k = some th → Calculates J x k th) ∧
      ∀ fd k, x.table fd = some (.connection k) → ∃ phase, x.thread k = some ⟨fd, phase⟩) ∧
      ∀ e, x.died = some e → ∃ k, Fails J (x.talk (.connection k)) e := by
  obtain ⟨hkept, hdied⟩ := TcpServer.kept_invariant.reachable h
  refine ⟨fun hlive => ⟨fun k th hth => ?_, fun fd k hfd => ?_⟩, ?_⟩
  · have hk := (hkept hlive).thread k th hth
    obtain ⟨sock, phase⟩ := th
    cases phase with
    | missing => exact ⟨hk.1, hk.2.1⟩
    | excute S =>
      obtain ⟨hfits, hcloses⟩ := hk
      have htalk : Talk (excute J) (x.talk (.connection k)) S := hfits.talk
      obtain ⟨s, hs, rfl⟩ := htalk.seq_singleton
      exact ⟨hfits.sock, hcloses, s, rfl, .of_talk hs⟩
    | ended =>
      obtain ⟨hclosed, hcloses, S, htalk, hret⟩ := hk
      obtain ⟨s, hs, rfl⟩ := htalk.seq_singleton
      refine ⟨hclosed, hcloses, ?_⟩
      cases s with
      | returned c => exact ⟨c, .of_talk hs⟩
      | recv c => simp [excute, Program.seq, calculatorProgram] at hret
      | send c b => simp [excute, Program.seq, calculatorProgram] at hret
  · obtain ⟨-, hf⟩ | ⟨k', phase, hf, hth⟩ := (hkept hlive).open_ fd _ hfd
    · cases hf
    · cases hf
      exact ⟨phase, hth⟩
  · intro e he
    obtain ⟨k, l, c, S, hl, htalk, hret, hstep⟩ := hdied e he
    obtain ⟨s, hs, rfl⟩ := htalk.seq_singleton
    have hsret : (calculatorProgram J).returned s = false := by
      simpa [excute, Program.seq] using hret
    obtain ⟨r, hr, hmap⟩ : ∃ r, calculatorStep J s c = some r ∧
        r.map (fun s' => [(calculatorProgram J, s')]) = .error e := by
      simp only [excute, Program.seq, Program.seqStep, hsret, Bool.false_eq_true, if_false,
        Option.map_eq_some_iff] at hstep
      exact hstep
    cases r with
    | ok s' => cases hmap
    | error e' =>
      obtain rfl : e' = e := Except.error.inj hmap
      exact ⟨k, hl ▸ .of_talk hs hr⟩

/-- A client that ends its stream, and another one that is given the same number. -/
def reused : CalServer :=
  let x := (TcpServer.init 3).accept (excute flatJson) 4 true
  let x := (x.call 4 (.recv (.bytes []))).goto 0
    ⟨4, .excute [(calculatorProgram flatJson, .returned {})]⟩
  ((x.close 4).goto 0 ⟨4, .ended⟩).accept (excute flatJson) 4 true

theorem reach_reused : TcpServer.Reach (excute flatJson) 3 reused := by
  have h₀ : TcpServer.Reach (excute flatJson) 3 (.init 3) := .start rfl
  have h₁ := h₀.next (@TcpServer.Step.accept _ _ (excute flatJson) (.init 3) 4 true rfl rfl)
  have h₂ := h₁.next (@TcpServer.Step.call _ _ _ _ 0 4 _ _ (.recv (.bytes [])) rfl rfl rfl rfl)
  have h₃ := h₂.next (@TcpServer.Step.close _ _ _ _ 0 4 _ rfl rfl rfl)
  exact h₃.next (@TcpServer.Step.accept _ _ _ _ 4 true rfl rfl)

/-- The other client asks for `1 + 1`, and is gone before the answer. -/
def gone : CalServer :=
  let c : Service := {}
  let backStr := answer flatJson (fun _ => ⟨2, 0⟩) ⟨1, 1, 43⟩
  let x := (reused.call 4 (.recv (.bytes (enCode (flatJson.serialize ⟨1, 1, 43⟩))))).goto 1
    ⟨4, .excute [(calculatorProgram flatJson, .send c backStr)]⟩
  { x.call 4 (.send backStr (.fail .EPIPE)) with table := fun _ => none, died := some .sigpipe }

theorem reach_gone : TcpServer.Reach (excute flatJson) 3 gone := by
  have h := reach_reused.next (@TcpServer.Step.call _ _ _ _ 1 4 _ _
    (.recv (.bytes (enCode (flatJson.serialize ⟨1, 1, 43⟩)))) rfl rfl rfl rfl)
  exact h.next (@TcpServer.Step.die _ _ _ _ 1 4 _
    (.send (answer flatJson (fun _ => ⟨2, 0⟩) ⟨1, 1, 43⟩) (.fail .EPIPE)) _ rfl rfl rfl rfl)

theorem threads_apart_example :
    (∀ k th, reused.thread k = some th → Calculates flatJson reused k th) ∧
      (∀ fd k, reused.table fd = some (.connection k) →
        ∃ phase, reused.thread k = some ⟨fd, phase⟩) ∧
      ∃ k, Fails flatJson (gone.talk (.connection k)) .sigpipe := by
  obtain ⟨hthreads, hopen⟩ := (threads_apart reach_reused).1 rfl
  exact ⟨hthreads, hopen, (threads_apart reach_gone).2 .sigpipe rfl⟩

end NetProg.Calculator
