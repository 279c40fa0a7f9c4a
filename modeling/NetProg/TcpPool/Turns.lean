import Mathlib.Data.List.Forall2
import NetProg.Lib.Runs
import NetProg.TcpPool.TcpClient

/-!
# A line and its answer

`Link` says what the two channels of a connection hold together, when the client has sent `sent` on
it: what the server has not read yet, and a beginning of the answer to what it has read. Every step
keeps it (`Kept.step`).

A text that the client shows is a beginning of the line in capital letters (`lines_answered`). Who
waits for whom is told by `both_wait_iff`: if no call fails, client and server go on until a line is
empty or begins with a NUL.
-/

namespace NetProg.TcpPool

open NetProg.Lib NetProg.Reactor

/-! ### The answer to a line -/

def upper (ch : UInt8) : UInt8 := if islower ch then toupper ch else ch

theorem result_eq (s : Bytes) : result s = (cStr s).map upper := rfl

theorem upper_ne_zero {ch : UInt8} (h : ch ≠ 0) : upper ch ≠ 0 := by
  unfold upper toupper islower
  split
  · rename_i hl
    simp only [decide_eq_true_eq] at hl
    intro h0
    have : ch = 32 := by grind
    grind
  · exact h

theorem zero_not_mem_result (s : Bytes) : 0 ∉ result s := by
  rw [result_eq, List.mem_map]
  rintro ⟨ch, hch, h0⟩
  exact upper_ne_zero (fun h => zero_not_mem_cStr s (h ▸ hch)) h0

theorem result_nil_iff (s : Bytes) : result s = [] ↔ s = [] ∨ s.head? = some 0 := by
  cases s with
  | nil => simp [result_eq, cStr]
  | cons c s => by_cases hc : c = 0 <;> simp [result_eq, cStr, hc]

theorem result_mono {s t : Bytes} (h : s <+: t) : result s <+: result t := by
  rw [List.prefix_iff_eq_take.1 h, result_eq, cStr_take, List.map_take]
  exact List.take_prefix _ _

/-! ### What the channels hold -/

/-- Where `transform` goes on after its `recv`. -/
def afterRecv : RecvAns → Pos
  | .bytes b => if b.length = 0 then .close else .send (result b)
  | .fail _ => .close

theorem transform_recv {s pos : Pos} {a : RecvAns}
    (hc : transform.step s (.recv a) = some (.ok pos)) : s = .recv ∧ pos = afterRecv a := by
  cases s with
  | recv => cases a <;> exact ⟨rfl, (Except.ok.inj (Option.some.inj hc)).symm⟩
  | send => cases hc
  | close => cases hc
  | returned => cases hc

theorem transform_send {s pos : Pos} {b : Bytes} {a : SendAns}
    (hc : transform.step s (.send b a) = some (.ok pos)) : s = .send b ∧ pos = .close := by
  cases s with
  | send r =>
    by_cases hb : b = r
    · subst hb
      simp only [transform, if_true] at hc
      exact ⟨rfl, (Except.ok.inj (Option.some.inj hc)).symm⟩
    · simp [transform, hb] at hc
  | recv => cases hc
  | close => cases hc
  | returned => cases hc

/-- What the server has to do with what it has read, and has sent. -/
def Reply (got down : Bytes) : Pos → Prop
  | .recv => got = [] ∧ down = []
  | .send r => got ≠ [] ∧ r = result got ∧ down = []
  | .close | .returned => down <+: result got

/-- The client has sent `sent`; the server has read the beginning of it. -/
def Link (sent : Bytes) (conn : Conn) : Prop :=
  ∃ got, got ++ conn.up = sent ∧ Reply got conn.down conn.server

section Link

variable {sent : Bytes} {conn conn' : Conn} {ok : Bool} {call : SockCall} {pos : Pos}

theorem Link.start : Link [] ⟨[], [], transform.start⟩ := ⟨[], rfl, rfl, rfl⟩

theorem Link.say (h : Link sent conn) (b : Bytes) :
    Link (sent ++ b) { conn with up := conn.up ++ b } := by
  obtain ⟨got, rfl, hreply⟩ := h
  exact ⟨got, (List.append_assoc _ _ _).symm, hreply⟩

/-- What is on its way to the client is the beginning of the answer to a part of what was sent. -/
theorem Link.down (h : Link sent conn) : conn.down <+: result sent := by
  obtain ⟨up, down, server⟩ := conn
  obtain ⟨got, rfl, hreply⟩ := h
  have hgot : result got <+: result (got ++ up) := result_mono (List.prefix_append _ _)
  cases server with
  | recv =>
    obtain ⟨-, hdown⟩ := hreply
    exact hdown ▸ List.nil_prefix
  | send r =>
    obtain ⟨-, -, hdown⟩ := hreply
    exact hdown ▸ List.nil_prefix
  | close => exact List.IsPrefix.trans hreply hgot
  | returned => exact List.IsPrefix.trans hreply hgot

/-- **A call of `transform`.** -/
theorem Link.serve (h : Link sent conn) (hk : conn.Call ok call conn')
    (hc : transform.step conn.server call = some (.ok pos)) :
    Link sent { conn' with server := pos } := by
  obtain ⟨got, hsent, hreply⟩ := h
  have hrecv : conn.server = .recv → got = [] ∧ conn.down = [] := fun hs => by rwa [hs] at hreply
  have hsend : ∀ b, conn.server = .send b → b = result got ∧ conn.down = [] := fun b hs => by
    rw [hs] at hreply
    exact hreply.2
  cases hk with
  | @recv b rest ht =>
    obtain ⟨hs, rfl⟩ := transform_recv hc
    obtain ⟨rfl, hdown⟩ := hrecv hs
    generalize hup : conn.up = up at ht hsent
    cases ht with
    | mk hb hlen =>
      refine ⟨b, hsent, ?_⟩
      simp only [afterRecv, if_neg (mt List.eq_nil_of_length_eq_zero hb)]
      exact ⟨hb, rfl, hdown⟩
  | recvFails e =>
    obtain ⟨hs, rfl⟩ := transform_recv hc
    obtain ⟨rfl, hdown⟩ := hrecv hs
    exact ⟨[], hsent, by rw [hdown]; exact List.nil_prefix⟩
  | send b =>
    obtain ⟨hs, rfl⟩ := transform_send hc
    obtain ⟨rfl, hdown⟩ := hsend b hs
    exact ⟨got, hsent, by rw [hdown]; exact List.prefix_rfl⟩
  | sendPart b n =>
    obtain ⟨hs, rfl⟩ := transform_send hc
    obtain ⟨rfl, hdown⟩ := hsend b hs
    exact ⟨got, hsent, by rw [hdown]; exact List.take_prefix _ _⟩
  | sendFails b e =>
    obtain ⟨hs, rfl⟩ := transform_send hc
    obtain ⟨rfl, hdown⟩ := hsend b hs
    exact ⟨got, hsent, by rw [hdown]; exact List.nil_prefix⟩

theorem Link.serveEnd (h : Link sent conn)
    (hc : transform.step conn.server (.recv (.bytes [])) = some (.ok pos)) :
    Link sent { conn with server := pos } := by
  obtain ⟨got, hsent, hreply⟩ := h
  obtain ⟨hs, rfl⟩ := transform_recv hc
  rw [hs] at hreply
  obtain ⟨rfl, hdown⟩ := hreply
  exact ⟨[], hsent, by rw [hdown]; exact List.nil_prefix⟩

theorem Link.close (h : Link sent conn) (hs : conn.server = .close) :
    Link sent { conn with server := .returned } := by
  obtain ⟨got, hsent, hreply⟩ := h
  rw [hs] at hreply
  exact ⟨got, hsent, hreply⟩

end Link

/-! ### Every run -/

/-- The line that is still to be answered. -/
def TcpClient.unanswered (c : TcpClient) : List Bytes :=
  match c.place with
  | .receiving | .quit => [c.line]
  | .connecting | .typing => []

/-- A text that the client may show for a line. -/
def Shows (line text : Bytes) : Prop := text ≠ [] ∧ text <+: result line

structure Kept (input : Bytes) (y : System) : Prop where
  typed : Typed input y.client.cin y.client.line y.client.typed
  answered : ∃ ls, y.client.typed = ls ++ y.client.unanswered ∧ List.Forall₂ Shows ls y.client.shown
  conn : y.client.place ≠ .connecting → ∀ conn, y.conn = some conn →
    ∃ sent, sent <+: y.client.unanswered.flatten ∧ Link sent conn

section Kept

variable {input : Bytes} {y y' : System} {c : TcpClient} {conn : Conn} {ok : Bool}

theorem Kept.init (input : Bytes) : Kept input (System.init input) where
  typed := Typed.start _ _
  answered := ⟨[], rfl, .nil⟩
  conn h := absurd rfl h

theorem unanswered_eq (h : c.place = .receiving ∨ c.place = .quit) : c.unanswered = [c.line] := by
  rcases h with h | h <;> simp only [TcpClient.unanswered, h]

theorem unanswered_nil (h : c.place = .connecting ∨ c.place = .typing) : c.unanswered = [] := by
  rcases h with h | h <;> simp only [TcpClient.unanswered, h]

theorem Kept.say {conn : Option Conn} (h : Kept input ⟨c, conn⟩) (hc : c.place = .typing)
    {sent : Bytes} (hsent : sent <+: c.say.line) {conn' : Option Conn}
    (hconn : ∀ x', conn' = some x' → ∃ x, conn = some x ∧ x' = { x with up := x.up ++ sent }) :
    Kept input ⟨c.say, conn'⟩ := by
  have hnil := unanswered_nil (Or.inr hc)
  obtain ⟨ls, htyped, hall⟩ := h.answered
  refine ⟨h.typed.getline, ⟨ls, ?_, hall⟩, fun _ x' hx' => ?_⟩
  · rw [hnil, List.append_nil] at htyped
    rw [unanswered_eq (Or.inl rfl), ← htyped]
    rfl
  · obtain ⟨x, hx, rfl⟩ := hconn x' hx'
    obtain ⟨before, hbefore, hlink⟩ := h.conn (by simp [hc]) x hx
    rw [hnil, List.flatten_nil, List.prefix_nil] at hbefore
    subst hbefore
    refine ⟨sent, ?_, hlink.say sent⟩
    rw [unanswered_eq (Or.inl rfl)]
    simpa using hsent

theorem Kept.quit {conn : Option Conn} (h : Kept input ⟨c, conn⟩) (hc : c.place = .receiving) :
    Kept input ⟨{ c with place := .quit }, conn⟩ := by
  have heq : c.unanswered = [c.line] := unanswered_eq (Or.inl hc)
  obtain ⟨ls, htyped, hall⟩ := h.answered
  exact ⟨h.typed, ⟨ls, by rw [heq] at htyped; exact htyped, hall⟩, fun _ x hx => by
    have hconn := h.conn (by simp [hc]) x hx
    rwa [heq] at hconn⟩

theorem Kept.receive (h : Kept input ⟨c, some conn⟩) (hc : c.place = .receiving) {b rest : Bytes}
    (hb : Takes conn.down b rest) (conn' : Option Conn) :
    Kept input ⟨c.receive (.bytes b), conn'⟩ := by
  have heq : c.unanswered = [c.line] := unanswered_eq (Or.inl hc)
  obtain ⟨ls, htyped, hall⟩ := h.answered
  obtain ⟨sent, hsent, hlink⟩ := h.conn (by simp [hc]) conn rfl
  have hdown := hlink.down
  simp only [heq, List.flatten_singleton] at hsent htyped
  generalize conn.down = down at hb hdown
  cases hb with
  | mk hne hlen =>
    have hpre : b <+: result c.line :=
      ((List.prefix_append _ _).trans hdown).trans (result_mono hsent)
    have hfree : 0 ∉ b := fun h0 => zero_not_mem_result c.line (hpre.subset h0)
    have hpos : b.length > 0 := List.length_pos_iff.2 hne
    have hrecv : c.receive (.bytes b) =
        { c with shown := c.shown ++ [b], place := .connecting } := by
      simp only [TcpClient.receive, if_pos hpos, cStr_of_free hfree]
    rw [hrecv]
    refine ⟨h.typed, ⟨ls ++ [c.line], ?_, ?_⟩, fun hplace => absurd rfl hplace⟩
    · rw [unanswered_nil (Or.inl rfl), List.append_nil]
      exact htyped
    · exact List.rel_append hall (.cons ⟨hne, hpre⟩ .nil)

theorem Kept.serve {conn' : Conn} (h : Kept input ⟨c, some conn⟩)
    (hlink : ∀ sent, Link sent conn → Link sent conn') : Kept input ⟨c, some conn'⟩ := by
  refine ⟨h.typed, h.answered, fun hplace x hx => ?_⟩
  obtain rfl := Option.some.inj hx
  obtain ⟨sent, hsent, hold⟩ := h.conn hplace conn rfl
  exact ⟨sent, hsent, hlink sent hold⟩

theorem Kept.step (h : Kept input y) (hs : System.Step ok y y') : Kept input y' := by
  cases hs with
  | @connect c conn hc =>
    have hnil := unanswered_nil (Or.inl hc)
    obtain ⟨ls, htyped, hall⟩ := h.answered
    refine ⟨h.typed, ⟨ls, by rw [hnil] at htyped; exact htyped, hall⟩, fun _ x hx => ?_⟩
    obtain rfl := Option.some.inj hx
    exact ⟨[], List.nil_prefix, Link.start⟩
  | @connectFails c conn hc =>
    have hnil := unanswered_nil (Or.inl hc)
    obtain ⟨ls, htyped, hall⟩ := h.answered
    exact ⟨h.typed, ⟨ls, by rw [hnil] at htyped; exact htyped, hall⟩, fun _ x hx => nomatch hx⟩
  | @say c conn hc =>
    exact h.say hc List.prefix_rfl fun x' hx' => ⟨conn, rfl, (Option.some.inj hx').symm⟩
  | @sayPart c conn hc n =>
    exact h.say hc (List.take_prefix n _) fun x' hx' => ⟨conn, rfl, (Option.some.inj hx').symm⟩
  | sayFails hc => exact h.say hc List.nil_prefix fun x' hx' => nomatch hx'
  | receive hc hb => exact h.receive hc hb _
  | receiveEnd hc => exact h.quit hc
  | receiveFails hc => exact h.quit hc
  | serve hret hk hc => exact h.serve fun sent hlink => hlink.serve hk hc
  | serveEnd hc hup hpos => exact h.serve fun sent hlink => hlink.serveEnd hpos
  | close hserver => exact h.serve fun sent hlink => hlink.close hserver

end Kept

/-- **Lines and answers.** In every run, whichever calls fail or take only a part: the client sends
its lines, and behind the end of its input the last one again and again; what it shows are non-empty
beginnings of these lines in capital letters, cut at a NUL, one for each line in this order; and
only the last line can be without one, while the client waits for it or because it has quit. -/
theorem lines_answered {input : Bytes} {y : System}
    (h : Reachable (fun y => y = .init input) (fun y y' => ∃ ok, System.Step ok y y') y) :
    (∃ k, y.client.typed <+: input.splitOn 10 ++ List.replicate k (lastLine input)) ∧
    List.Forall₂ Shows (y.client.typed.take y.client.shown.length) y.client.shown ∧
    y.client.typed.length = y.client.shown.length +
      if y.client.place = .receiving ∨ y.client.place = .quit then 1 else 0 := by
  have hkept : Kept input y := by
    refine Invariant.reachable ⟨?_, fun y y' hy hs => ?_⟩ h
    · rintro _ rfl
      exact .init input
    · obtain ⟨ok, hs⟩ := hs
      exact hy.step hs
  obtain ⟨ls, htyped, hall⟩ := hkept.answered
  have hlen : ls.length = y.client.shown.length := hall.length_eq
  refine ⟨hkept.typed.lines, ?_, ?_⟩
  · rwa [htyped, ← hlen, List.take_left]
  · rw [htyped, List.length_append, hlen]
    split
    · rename_i hplace
      rw [unanswered_eq hplace, List.length_singleton]
    · rename_i hplace
      rw [unanswered_nil, List.length_nil]
      cases hp : y.client.place <;> simp [hp] at hplace ⊢

theorem takes_all {s : Bytes} (hs : s ≠ []) (hlen : s.length < messageSize) : Takes s s [] := by
  have h := @Takes.mk s [] hs hlen
  rwa [List.append_nil] at h

/-- The state when the line `hi` was answered. -/
def greeted : System where
  client := ⟨⟨[], true⟩, literal "hi", .connecting, [literal "hi"], [literal "HI"]⟩
  conn := some ⟨[], [], .close⟩

theorem reach_greeted :
    Reachable (fun y => y = .init (literal "hi\n")) (System.Step true) greeted := by
  have hinit : Reachable (fun y => y = .init (literal "hi\n")) (System.Step true)
      (.init (literal "hi\n")) := .start rfl
  have hsaid := (hinit.next (.connect rfl)).next (.say rfl)
  have hread := hsaid.next (.serve rfl (.recv (takes_all (s := literal "hi")
    (by decide) (by decide))) rfl)
  have hsent := hread.next (.serve rfl (.send (literal "HI")) rfl)
  have hshown := hsent.next (.receive rfl (takes_all (s := literal "HI") (by decide) (by decide)))
  exact hshown

/-- The line `hi` was answered. -/
theorem lines_answered_hi : List.Forall₂ Shows [literal "hi"] [literal "HI"] :=
  (lines_answered (Reachable.mono reach_greeted fun _ _ h => ⟨true, h⟩)).2.1

/-! ### Who waits for whom -/

/-- A connection on which no call has failed, when the client has sent `line`. -/
inductive Turn (line : Bytes) : Conn → Prop
  | sent : Turn line ⟨line, [], .recv⟩
  | read {b rest : Bytes} (hb : b ≠ []) (hline : b ++ rest = line) :
      Turn line ⟨rest, [], .send (result b)⟩
  | answered {b rest : Bytes} (hb : b ≠ []) (hline : b ++ rest = line) :
      Turn line ⟨rest, result b, .close⟩
  | closed {b rest : Bytes} (hb : b ≠ []) (hline : b ++ rest = line) :
      Turn line ⟨rest, result b, .returned⟩

/-- What holds as long as no call fails. -/
def Smooth (y : System) : Prop :=
  match y.client.place with
  | .connecting => True
  | .typing => y.conn = some ⟨[], [], .recv⟩
  | .receiving => ∃ conn, y.conn = some conn ∧ Turn y.client.line conn
  | .quit => y.client.line.head? = some 0 ∧ ∃ conn, y.conn = some conn ∧ conn.server = .returned

/-- How many calls `transform` has still to make. -/
def Pos.left : Pos → ℕ
  | .recv => 3
  | .send _ => 2
  | .close => 1
  | .returned => 0

def System.left (y : System) : ℕ := (y.conn.map fun conn => conn.server.left).getD 0

section Smooth

variable {y y' : System} {c : TcpClient} {conn : Conn}

theorem Turn.server {line : Bytes} (h : Turn line conn) {conn' : Conn} {call : SockCall} {pos : Pos}
    (hk : conn.Call true call conn') (hc : transform.step conn.server call = some (.ok pos)) :
    Turn line { conn' with server := pos } := by
  cases h with
  | sent =>
    cases hk with
    | send => cases hc
    | @recv b rest ht =>
      generalize hup : line = up at ht
      cases ht with
      | mk hb hlen =>
        obtain ⟨-, rfl⟩ := transform_recv hc
        simp only [afterRecv, if_neg (mt List.eq_nil_of_length_eq_zero hb)]
        exact .read hb rfl
  | @read b rest hb hline =>
    cases hk with
    | recv => cases hc
    | send r =>
      obtain ⟨hr, rfl⟩ := transform_send hc
      obtain rfl := Pos.send.inj hr
      exact .answered hb hline
  | answered => cases hk <;> cases hc
  | closed => cases hk <;> cases hc

theorem Turn.close {line : Bytes} (h : Turn line conn) (hserver : conn.server = .close) :
    Turn line { conn with server := .returned } := by
  cases h with
  | answered hb hline => exact .closed hb hline
  | sent => cases hserver
  | read => cases hserver
  | closed => cases hserver

theorem takes_nil {b rest : Bytes} : ¬ Takes [] b rest := by
  generalize hs : ([] : Bytes) = s
  rintro ⟨hb, -⟩
  exact hb (List.append_eq_nil_iff.1 hs.symm).1

theorem Smooth.serve {conn' : Conn} (h : Smooth ⟨c, some conn⟩) (hidle : conn ≠ ⟨[], [], .recv⟩)
    (hopen : conn.server ≠ .returned) (hturn : ∀ line, Turn line conn → Turn line conn') :
    Smooth ⟨c, some conn'⟩ := by
  unfold Smooth at h ⊢
  cases hp : c.place with
  | connecting => trivial
  | typing =>
    simp only [hp] at h
    exact absurd (Option.some.inj h) hidle
  | receiving =>
    simp only [hp] at h ⊢
    obtain ⟨_, heq, ht⟩ := h
    obtain rfl := Option.some.inj heq
    exact ⟨_, rfl, hturn _ ht⟩
  | quit =>
    simp only [hp] at h
    obtain ⟨-, _, heq, hserver⟩ := h
    obtain rfl := Option.some.inj heq
    exact absurd hserver hopen

/-- **A step without a failure.** -/
theorem Smooth.step (h : Smooth y) (hs : System.Step true y y') : Smooth y' := by
  cases hs with
  | connect hc => rfl
  | @say c conn hc =>
    simp only [Smooth, hc] at h
    obtain rfl := Option.some.inj h
    exact ⟨_, rfl, .sent⟩
  | @receive c conn b rest hc hb =>
    generalize conn.down = down at hb
    cases hb with
    | mk hne hlen =>
      simp only [TcpClient.receive, if_pos (List.length_pos_iff.2 hne)]
      trivial
  | @receiveEnd c conn hc hdown hend =>
    simp only [Smooth, hc] at h
    obtain ⟨_, heq, hturn⟩ := h
    obtain rfl := Option.some.inj heq
    refine ⟨?_, _, rfl, hend⟩
    cases hturn with
    | @closed b rest hb hline =>
      -- the answer to a line that is not empty is empty
      have hzero := ((result_nil_iff b).1 hdown).resolve_left hb
      cases b with
      | nil => cases hzero
      | cons x b => exact hline ▸ hzero
    | sent => cases hend
    | read => cases hend
    | answered => cases hend
  | @serve c conn conn' _ call pos hret hk hc =>
    refine h.serve ?_ ?_ fun line hturn => hturn.server hk hc
    · rintro rfl
      cases hk with
      | recv ht => exact takes_nil ht
      | send => cases hc
    · intro hserver
      rw [hserver] at hret
      cases hret
  | @serveEnd c conn pos hq hup hc =>
    simp only [Smooth, hq] at h
    obtain ⟨-, _, heq, hserver⟩ := h
    obtain rfl := Option.some.inj heq
    rw [hserver] at hc
    cases hc
  | @close c conn hserver =>
    refine h.serve ?_ ?_ fun line hturn => hturn.close hserver
    · rintro rfl
      cases hserver
    · rw [hserver]
      exact Pos.noConfusion

theorem left_afterRecv (a : RecvAns) : (afterRecv a).left < Pos.recv.left := by
  cases a with
  | bytes b =>
    by_cases hb : b.length = 0
    · rw [afterRecv, if_pos hb]
      exact Nat.one_lt_succ_succ 1
    · rw [afterRecv, if_neg hb]
      exact Nat.lt_succ_self 2
  | fail e => exact Nat.one_lt_succ_succ 1

/-- While the client waits, every step brings the end of its turn nearer. -/
theorem System.Step.left_lt {ok : Bool} (hs : System.Step ok y y')
    (hp : y.client.place = .receiving) (hp' : y'.client.place = .receiving) : y'.left < y.left := by
  cases hs with
  | connect hc => cases hp.symm.trans hc
  | connectFails hc => cases hp.symm.trans hc
  | say hc => cases hp.symm.trans hc
  | sayPart hc => cases hp.symm.trans hc
  | sayFails hc => cases hp.symm.trans hc
  | @receive c conn b rest hc hb =>
    generalize conn.down = down at hb
    cases hb with
    | mk hne hlen =>
      simp only [TcpClient.receive, if_pos (List.length_pos_iff.2 hne)] at hp'
      cases hp'
  | receiveEnd => cases hp'
  | receiveFails => cases hp'
  | @serve c conn conn' ok call pos hret hk hc =>
    simp only [System.left, Option.map_some, Option.getD_some]
    cases call with
    | recv a =>
      obtain ⟨hserver, rfl⟩ := transform_recv hc
      rw [hserver]
      exact left_afterRecv a
    | send b a =>
      obtain ⟨hserver, rfl⟩ := transform_send hc
      rw [hserver]
      exact Nat.lt_succ_self 1
  | serveEnd hq => cases hp.symm.trans hq
  | close hserver =>
    simp only [System.left, Option.map_some, Option.getD_some, hserver]
    exact Nat.lt_succ_self 0

theorem exists_takes {s : Bytes} (hs : s ≠ []) : ∃ b rest, Takes s b rest := by
  obtain ⟨x, s, rfl⟩ := List.exists_cons_of_ne_nil hs
  exact ⟨[x], s, Takes.mk (b := [x]) (List.cons_ne_nil _ _) (by simp [messageSize])⟩

/-- On the connection of an empty line nothing happens. -/
theorem Turn.of_empty (h : Turn [] conn) : conn = ⟨[], [], .recv⟩ := by
  have hnil : ∀ b rest : Bytes, b ≠ [] → b ++ rest ≠ [] := fun b rest hb h =>
    hb (List.append_eq_nil_iff.1 h).1
  cases h with
  | sent => rfl
  | read hb h => exact absurd h (hnil _ _ hb)
  | answered hb h => exact absurd h (hnil _ _ hb)
  | closed hb h => exact absurd h (hnil _ _ hb)

theorem Turn.exists_step (h : Turn c.line conn) (hc : c.place = .receiving) (hline : c.line ≠ []) :
    ∃ y', System.Step true ⟨c, some conn⟩ y' := by
  cases h with
  | sent =>
    obtain ⟨b, rest, ht⟩ := exists_takes hline
    exact ⟨_, .serve rfl (.recv ht) rfl⟩
  | @read b rest hb => exact ⟨_, .serve rfl (.send (result b)) (if_pos rfl)⟩
  | answered => exact ⟨_, .close rfl⟩
  | @closed b rest hb =>
    by_cases hdown : result b = []
    · exact ⟨_, .receiveEnd hc hdown rfl⟩
    · obtain ⟨d, rest', ht⟩ := exists_takes hdown
      exact ⟨_, .receive hc ht⟩

theorem not_step_of_empty (hc : c.place = .receiving) :
    ¬ System.Step true ⟨c, some ⟨[], [], .recv⟩⟩ y' := by
  intro hs
  cases hs with
  | connect h => cases hc.symm.trans h
  | say h => cases hc.symm.trans h
  | receive _ hb => exact takes_nil hb
  | receiveEnd _ _ hend => cases hend
  | serve _ hk hc =>
    cases hk with
    | recv ht => exact takes_nil ht
    | send => cases hc
  | serveEnd h => cases hc.symm.trans h
  | close h => cases h

theorem not_step_of_returned (hc : c.place = .quit) (hserver : conn.server = .returned) :
    ¬ System.Step true ⟨c, some conn⟩ y' := by
  intro hs
  cases hs with
  | connect h => cases hc.symm.trans h
  | say h => cases hc.symm.trans h
  | receive h => cases hc.symm.trans h
  | receiveEnd h => cases hc.symm.trans h
  | serve hret =>
    rw [hserver] at hret
    cases hret
  | serveEnd _ _ hpos =>
    rw [hserver] at hpos
    cases hpos
  | close h => cases hserver.symm.trans h

theorem Smooth.stuck_iff (h : Smooth y) : (∀ y', ¬ System.Step true y y') ↔
    y.client.place = .receiving ∧ y.client.line = [] ∨ y.client.place = .quit := by
  obtain ⟨c, conn⟩ := y
  unfold Smooth at h
  constructor
  · intro hstuck
    cases hp : c.place with
    | connecting => exact absurd (.connect hp) (hstuck _)
    | typing =>
      simp only [hp] at h
      subst h
      exact absurd (.say hp) (hstuck _)
    | receiving =>
      simp only [hp] at h
      obtain ⟨conn, rfl, hturn⟩ := h
      refine Or.inl ⟨rfl, ?_⟩
      by_contra hline
      obtain ⟨y', hs⟩ := hturn.exists_step hp hline
      exact hstuck y' hs
    | quit => exact Or.inr rfl
  · rintro (⟨(hp : c.place = .receiving), (hline : c.line = [])⟩ | (hp : c.place = .quit)) y'
    · simp only [hp] at h
      obtain ⟨conn, rfl, hturn⟩ := h
      rw [hline] at hturn
      rw [hturn.of_empty]
      exact not_step_of_empty hp
    · simp only [hp] at h
      obtain ⟨-, conn, rfl, hserver⟩ := h
      exact not_step_of_returned hp hserver

end Smooth

/-- **Where client and server stop.** In every run in which no call fails, however the bytes are cut
into segments: nobody can go on exactly when the client has sent an empty line, and waits for an
answer while the server waits for a byte, or when it has quit; and it quits only behind a line that
begins with a NUL. Until then a line is answered after four steps at most. -/
theorem both_wait_iff {input : Bytes} {y : System}
    (h : Reachable (fun y => y = .init input) (System.Step true) y) :
    ((∀ y', ¬ System.Step true y y') ↔
      y.client.place = .receiving ∧ y.client.line = [] ∨ y.client.place = .quit) ∧
    (y.client.place = .receiving → y.client.line = [] → y.conn = some ⟨[], [], .recv⟩) ∧
    (y.client.place = .quit → y.client.line.head? = some 0) ∧
    y.left ≤ 3 ∧ ∀ y', System.Step true y y' → y.client.place = .receiving →
      y'.client.place = .receiving → y'.left < y.left := by
  have hsmooth : Smooth y := by
    refine Invariant.reachable ⟨?_, fun y y' hy hs => hy.step hs⟩ h
    rintro _ rfl
    trivial
  refine ⟨hsmooth.stuck_iff, fun hp hline => ?_, fun hp => ?_, ?_, fun y' hs => hs.left_lt⟩
  · simp only [Smooth, hp] at hsmooth
    obtain ⟨conn, hconn, hturn⟩ := hsmooth
    rw [hline] at hturn
    rw [hconn, hturn.of_empty]
  · simp only [Smooth, hp] at hsmooth
    exact hsmooth.1
  · obtain ⟨c, conn⟩ := y
    cases conn with
    | none => exact Nat.zero_le 3
    | some conn => cases hs : conn.server <;> simp [System.left, hs, Pos.left]

/-- Behind the end of the input the client sends an empty line, and both wait. -/
theorem both_wait_iff_hi : ∃ y,
    Reachable (fun y => y = .init (literal "hi\n")) (System.Step true) y ∧
    y.client.shown = [literal "HI"] ∧ ∀ y', ¬ System.Step true y y' := by
  have hsaid := (reach_greeted.next (.connect rfl)).next (.say rfl)
  exact ⟨_, hsaid, rfl, (both_wait_iff hsaid).1.2 (Or.inl ⟨rfl, by decide⟩)⟩

end NetProg.TcpPool
