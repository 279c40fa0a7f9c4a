import NetProg.Calculator.CalServer
import NetProg.Reactor.Client

/-!
# What reaches the peer

`Send` calls `send` once and reports success for any positive count. So what it reports to have sent
has arrived only when the kernel never took a part of a string (`send_exact_iff`); a short write
goes unnoticed, and the callers go on (`calculator_blocked_iff`). They do stop at a `Send` that
reports a failure (`calculator_stops`, `ask_stops`).
-/

namespace NetProg.Calculator

open NetProg.Lib NetProg.Reactor

/-- What `send` may give for a string: -1, or a count from one to its length. -/
def Outcome (s : Bytes) : SendAns → Prop
  | .count n => 1 ≤ n ∧ n ≤ s.length
  | .fail _ => True

/-- The strings of these calls of `Send`, one behind the other. -/
def passed (calls : List (Bytes × SendAns)) : Bytes := calls.flatMap Prod.fst

/-- The bytes that the peer can read. -/
def arrived (calls : List (Bytes × SendAns)) : Bytes := calls.flatMap fun c => c.1.take c.2.taken

variable {calls : List (Bytes × SendAns)}

theorem Outcome.send_of_count {s : Bytes} {n : ℕ} (h : Outcome s (.count n)) :
    send (.count n) = some true := send_of_taken h.1

theorem not_send_of_fail (e : Errno) : send (.fail e) ≠ some true := by
  rw [send]
  split <;> simp [SendAns.taken]

theorem length_arrived_le (calls : List (Bytes × SendAns)) :
    (arrived calls).length ≤ (passed calls).length := by
  induction calls with
  | nil => exact le_rfl
  | cons c cs ih =>
    have hc : (c.1.take c.2.taken).length ≤ c.1.length := List.length_take_le' _ _
    simp only [arrived, passed, List.flatMap_cons, List.length_append] at ih ⊢
    omega

/-- Bytes that are missing are missed: what comes later does not make up for them. -/
theorem arrived_eq_passed_iff :
    arrived calls = passed calls ↔ ∀ c ∈ calls, c.1.length ≤ c.2.taken := by
  constructor
  · intro h
    induction calls with
    | nil => simp
    | cons c cs ih =>
      have h' : c.1.take c.2.taken ++ arrived cs = c.1 ++ passed cs := h
      have hlen := congrArg List.length h'
      have hle := length_arrived_le cs
      rw [List.length_append, List.length_append, List.length_take] at hlen
      have hc : c.1.length ≤ c.2.taken := by omega
      rw [List.take_of_length_le hc] at h'
      exact List.forall_mem_cons.2 ⟨hc, ih (List.append_cancel_left h')⟩
  · intro h
    exact List.flatMap_congr fun c hc => List.take_of_length_le (h c hc)

/-- A string has arrived if the kernel took it whole. -/
theorem Outcome.length_le_taken_iff {s : Bytes} {a : SendAns} (h : Outcome s a)
    (hsend : send a = some true) : s.length ≤ a.taken ↔ a = .count s.length := by
  cases a with
  | count n =>
    simp only [SendAns.taken, SendAns.count.injEq]
    exact ⟨fun hle => le_antisymm h.2 hle, fun he => he.ge⟩
  | fail e => exact absurd hsend (not_send_of_fail e)

theorem arrived_iff_whole (hv : ∀ c ∈ calls, Outcome c.1 c.2)
    (hall : ∀ c ∈ calls, send c.2 = some true) :
    arrived calls = passed calls ↔ ∀ c ∈ calls, c.2 = .count c.1.length := by
  rw [arrived_eq_passed_iff]
  exact forall₂_congr fun c hc => (hv c hc).length_le_taken_iff (hall c hc)

/-- Wherever calls one behind the other have all succeeded, their strings have arrived. -/
def Exact (calls : List (Bytes × SendAns)) : Prop :=
  ∀ part, part <:+: calls → (∀ c ∈ part, send c.2 = some true) → arrived part = passed part

/-- **When a successful `Send` truncates nothing**: the kernel never took only a part of a
string. -/
theorem send_exact_iff (hv : ∀ c ∈ calls, Outcome c.1 c.2) :
    Exact calls ↔ ∀ c ∈ calls, ∀ n, c.2 = .count n → n = c.1.length := by
  constructor
  · rintro h ⟨s, a⟩ hc n (rfl : a = .count n)
    have hout : Outcome s (.count n) := hv _ hc
    -- the call alone
    have hone := h [(s, .count n)] ((List.singleton_infix_iff _ _).2 hc)
      (by simpa using hout.send_of_count)
    have hle := arrived_eq_passed_iff.1 hone _ List.mem_cons_self
    exact le_antisymm hout.2 hle
  · intro h part hpart hall
    refine arrived_eq_passed_iff.2 fun c hc => ?_
    cases ha : c.2 with
    | count n => exact (h c (hpart.subset hc) n ha).ge
    | fail e => exact absurd (ha ▸ hall c hc) (not_send_of_fail e)

/-- Two answers are taken whole, and the third `send` fails. -/
theorem send_exact_iff_failure :
    Exact [(([51] : Bytes), SendAns.count 1), ([49, 50], .count 2), ([52], .fail .EINTR)] :=
  (send_exact_iff (by simp [Outcome])).2 (by simp)

/-- One byte of the frame `"3\r\n0 2\r\n"`. -/
theorem send_not_exact :
    ¬ ∀ calls : List (Bytes × SendAns), (∀ c ∈ calls, Outcome c.1 c.2) →
      (∀ c ∈ calls, send c.2 = some true) → arrived calls = passed calls := fun h =>
  absurd (h [([51, 13, 10, 48, 32, 50, 13, 10], .count 1)] (by simp [Outcome]) (by decide))
    (by decide)

/-! ### The callers -/

def State.service : State → Service
  | .blocked c => c
  | .returned c => c

variable {J : Json}

theorem turn_sends {c : Service} {a : RecvAns × SendAns} {t : Turn Service State}
    (hc : ∀ x ∈ c.sends, send x.2 = some true) (h : calculator.turn J c a = .ok t) :
    (∃ c', t = .again c' ∧ ∀ x ∈ c'.sends, send x.2 = some true) ∨
      ∃ c', t = .leave (.returned c') ∧ ∀ x ∈ c'.sends.dropLast, send x.2 = some true := by
  unfold calculator.turn at h
  split at h
  · cases h
  · cases h
    exact Or.inr ⟨_, rfl, fun x hx => hc x (List.mem_of_mem_dropLast hx)⟩
  · rename_i s hrecv
    dsimp only at h
    split at h
    · cases h
      exact Or.inl ⟨_, rfl, hc⟩
    · obtain ⟨b, -, h⟩ := bind_eq_ok.1 h
      split at h
      · rename_i hsend
        cases h
        refine Or.inl ⟨_, rfl, fun x hx => ?_⟩
        rcases List.mem_append.1 hx with hx | hx
        · exact hc x hx
        · rwa [List.mem_singleton.1 hx]
      · cases h
        exact Or.inr ⟨_, rfl, fun x hx => hc x (by simpa using hx)⟩
      · cases h

/-- **`calculator` stops at a `Send` that fails**: it comes to no other one, and only a calculator
that has returned has seen one fail. -/
theorem calculator_stops {answers : List (RecvAns × SendAns)} {st : State}
    (h : calculator J answers = .ok st) :
    (∀ x ∈ st.service.sends.dropLast, send x.2 = some true) ∧
      ∀ c, st = .blocked c → ∀ x ∈ c.sends, send x.2 = some true := by
  have key : ∀ c : Service, (∀ x ∈ c.sends, send x.2 = some true) →
      loop (fun c => .ok (.blocked c)) (calculator.turn J) c answers = .ok st →
      (∃ c', st = .blocked c' ∧ ∀ x ∈ c'.sends, send x.2 = some true) ∨
        ∃ c', st = .returned c' ∧ ∀ x ∈ c'.sends.dropLast, send x.2 = some true := by
    clear h
    induction answers with
    | nil =>
      intro c hc h
      cases h
      exact Or.inl ⟨c, rfl, hc⟩
    | cons a as ih =>
      intro c hc h
      rw [loop] at h
      cases ht : calculator.turn J c a with
      | error e => rw [ht] at h; cases h
      | ok t =>
        rw [ht] at h
        rcases turn_sends hc ht with ⟨c', rfl, hc'⟩ | ⟨c', rfl, hc'⟩
        · exact ih c' hc' h
        · cases h
          exact Or.inr ⟨c', rfl, hc'⟩
  rcases key {} (by simp) h with ⟨c, rfl, hc⟩ | ⟨c, rfl, hc⟩
  · refine ⟨fun x hx => hc x (List.mem_of_mem_dropLast hx), fun c' hc' => ?_⟩
    cases hc'
    exact hc
  · exact ⟨hc, fun c' hc' => by cases hc'⟩

/-- **A calculator that is still serving its client** has sent it all its answers exactly when the
kernel took each of them whole. -/
theorem calculator_blocked_iff {answers : List (RecvAns × SendAns)} {c : Service}
    (h : calculator J answers = .ok (.blocked c)) (hv : ∀ x ∈ c.sends, Outcome x.1 x.2) :
    arrived c.sends = passed c.sends ↔ ∀ x ∈ c.sends, x.2 = .count x.1.length :=
  arrived_iff_whole hv ((calculator_stops h).2 c rfl)

/-- **The client stops at a `Send` that does not succeed**: it neither sends nor receives
afterwards. -/
theorem ask_stops {c c' : Client} {a : SendAns} {reqStr : Bytes}
    (h : c.ask a = some (reqStr, c')) (ha : send a ≠ some true) :
    (∀ a', c'.ask a' = none) ∧ ∀ a', c'.turn a' = none := by
  unfold Client.ask at h
  split at h
  · cases h
    cases hsend : send a with
    | none => simp [Client.ask, Client.turn, Client.sent, hsend]
    | some ok =>
      obtain rfl : ok = false := by
        rw [hsend] at ha
        simpa using ha
      simp [Client.ask, Client.turn, Client.sent, hsend]
  · cases h

end NetProg.Calculator
