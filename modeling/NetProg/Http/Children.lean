import NetProg.Http.Files
import NetProg.Http.Processes

/-!
# Each child is alone with its client

A table of a process has the listening socket or not, and at most one connection (`Tab`). `Kept`
says so of the parent and of every child, and what the calls on a connection have to do with its
child; `processes_apart` draws the conclusions for the handler.
-/

namespace NetProg.Http

open NetProg.Lib NetProg.Reactor Function

/-! ### Tables -/

/-- The table has the connection that was accepted, and the listening socket if `listens`, and
nothing else. -/
def Tab (listenSock : ℕ) (listens : Prop) (got : Accepted) (table : ℕ → Option File) : Prop :=
  ∀ fd f, table fd = some f ↔
    listens ∧ fd = listenSock ∧ f = .listening ∨ ∃ k, got = some (fd, k) ∧ f = .connection k

section Tab

variable {listenSock sock k : ℕ} {listens : Prop} {got : Accepted} {table : ℕ → Option File}

theorem Tab.ne (h : Tab listenSock listens (some (sock, k)) table) (hl : listens) :
    sock ≠ listenSock := by
  rintro rfl
  have hlisten := (h sock .listening).2 (Or.inl ⟨hl, rfl, rfl⟩)
  have hconn := (h sock (.connection k)).2 (Or.inr ⟨k, rfl, rfl⟩)
  rw [hlisten] at hconn
  cases hconn

theorem Tab.conn (h : Tab listenSock listens (some (sock, k)) table) :
    table sock = some (.connection k) := (h sock _).2 (Or.inr ⟨k, rfl, rfl⟩)

theorem tab_closed : Tab listenSock False none fun _ => none := by
  intro fd f
  simp

theorem tab_init :
    Tab listenSock True none (update (fun _ => none) listenSock (some .listening)) := by
  intro fd f
  by_cases hfd : fd = listenSock
  · subst hfd
    simp [eq_comm]
  · simp [hfd]

theorem Tab.accept (h : Tab listenSock True none table) (hsock : table sock = none) :
    Tab listenSock True (some (sock, k)) (update table sock (some (.connection k))) := by
  have hne : sock ≠ listenSock := by
    rintro rfl
    rw [(h sock .listening).2 (Or.inl ⟨trivial, rfl, rfl⟩)] at hsock
    cases hsock
  intro fd f
  by_cases hfd : fd = sock
  · subst hfd
    simp [hne, eq_comm]
  · rw [update_of_ne hfd, h fd f]
    simp [Ne.symm hfd]

theorem Tab.closeSock (h : Tab listenSock listens got table) :
    Tab listenSock listens none (closeSock table got) := by
  cases got with
  | none => exact h
  | some g =>
    obtain ⟨sock, k⟩ := g
    intro fd f
    by_cases hfd : fd = sock
    · subst hfd
      simp only [Http.closeSock, update_self, reduceCtorEq, false_iff]
      rintro (⟨hl, he, -⟩ | ⟨j, hj, -⟩)
      · exact h.ne hl he
      · cases hj
    · simp only [Http.closeSock, update_of_ne hfd, h fd f, Option.some.injEq, Prod.mk.injEq]
      simp [Ne.symm hfd]

theorem Tab.start (h : Tab listenSock True got table) :
    Tab listenSock False got (update table listenSock none) := by
  intro fd f
  by_cases hfd : fd = listenSock
  · subst hfd
    simp only [update_self, reduceCtorEq, false_and, false_or, false_iff]
    rintro ⟨k, rfl, -⟩
    exact h.ne trivial rfl
  · rw [update_of_ne hfd, h fd f]
    simp [hfd]

end Tab

namespace HttpServer

variable {σ ε : Type*} {listenSock : ℕ} {P : ℕ → Program σ SockCall ε} {x x' : HttpServer σ}
  {j : ℕ} {c : Child σ}

/-! ### Parent and children -/

/-- The connection that the parent is handing over. -/
def handing : Turn → Accepted
  | .accepting => none
  | .forking got => got
  | .closing got => got

/-- The table of a child. -/
def ChildKeeps (listenSock : ℕ) (c : Child σ) : Prop :=
  match c.phase with
  | .start => Tab listenSock True c.got c.table
  | .func _ => Tab listenSock False c.got c.table
  | .closed => Tab listenSock False none c.table
  | .gone => Tab listenSock False none c.table

/-- The calls on the connection of a child. -/
def Tells (P : Program σ SockCall ε) (l : List SockCall) : ChildPhase σ → Prop
  | .start => l = []
  | .func s => Talk P l s
  | .closed => ∃ s, Talk P l s ∧ P.returned s = true
  | .gone => (∃ s, Talk P l s ∧ P.returned s = true) ∨
      ∃ l' k s e, l = l' ++ [k] ∧ Talk P l' s ∧ P.step s k = some (.error e)

def HasChild (x : HttpServer σ) (k : ℕ) : Prop :=
  ∃ j c sock, x.child j = some c ∧ c.got = some (sock, k)

structure Kept (listenSock : ℕ) (P : ℕ → Program σ SockCall ε) (x : HttpServer σ) : Prop where
  parent : Tab listenSock True (handing x.turn) x.table
  child : ∀ j c, x.child j = some c → ChildKeeps listenSock c
  told : ∀ j c sock k, x.child j = some c → c.got = some (sock, k) →
    Tells (P j) (x.talk (.connection k)) c.phase
  apart : ∀ i j c d sock sock' k, x.child i = some c → x.child j = some d →
    c.got = some (sock, k) → d.got = some (sock', k) → i = j
  silent : ∀ k, ¬ HasChild x k → x.talk (.connection k) = []
  forking : ∀ sock k, x.turn = .forking (some (sock, k)) → k < x.accepted ∧ ¬ HasChild x k
  accepted : ∀ k, HasChild x k → k < x.accepted
  forked : ∀ j, x.forked ≤ j → x.child j = none

theorem Kept.init : Kept listenSock P (HttpServer.init listenSock : HttpServer σ) := by
  have hnone : ∀ k, ¬ HasChild (HttpServer.init listenSock : HttpServer σ) k := by
    rintro k ⟨j, c, sock, hc, -⟩
    cases hc
  exact ⟨tab_init, nofun, nofun, nofun, fun _ _ => rfl, fun _ _ => nofun,
    fun k hk => absurd hk (hnone k), fun _ _ => rfl⟩

theorem Kept.parent_step (h : Kept listenSock P x) {table : ℕ → Option File} {turn : Turn}
    {accepted : ℕ} (hparent : Tab listenSock True (handing turn) table)
    (hforking : ∀ sock k, turn = .forking (some (sock, k)) → k < accepted ∧ ¬ HasChild x k)
    (haccepted : x.accepted ≤ accepted) :
    Kept listenSock P { x with table, turn, accepted } where
  parent := hparent
  child := h.child
  told := h.told
  apart := h.apart
  silent := h.silent
  forking := hforking
  accepted k hk := (h.accepted k hk).trans_le haccepted
  forked := h.forked

/-- Every child is an old one, or the one that has changed. -/
theorem child_setChild {c' d : Child σ} {i : ℕ} (h : (x.setChild j c').child i = some d) :
    (i = j ∧ d = c') ∨ (i ≠ j ∧ x.child i = some d) := by
  by_cases hi : i = j
  · subst hi
    refine Or.inl ⟨rfl, ?_⟩
    simpa [setChild] using h.symm
  · exact Or.inr ⟨hi, by simpa [setChild, hi] using h⟩

theorem Kept.phase (h : Kept listenSock P x) {phase : ChildPhase σ} (hc : x.child j = some c)
    (hp : c.phase = phase) : ChildKeeps listenSock ⟨c.table, c.got, phase⟩ ∧
      ∀ sock k, c.got = some (sock, k) → Tells (P j) (x.talk (.connection k)) phase := by
  subst hp
  exact ⟨h.child j c hc, fun sock k => h.told j c sock k hc⟩

theorem Kept.child_step (h : Kept listenSock P x) (c' : Child σ) (hc : x.child j = some c)
    (hgot : c'.got = c.got) {talk : File → List SockCall} (hkeeps : ChildKeeps listenSock c')
    (htells : ∀ sock k, c.got = some (sock, k) → Tells (P j) (talk (.connection k)) c'.phase)
    (htalk : ∀ k, (∀ sock, c.got ≠ some (sock, k)) →
      talk (.connection k) = x.talk (.connection k)) :
    Kept listenSock P { x.setChild j c' with talk } := by
  have hold : ∀ i d, (x.setChild j c').child i = some d →
      ∃ d₀, x.child i = some d₀ ∧ d₀.got = d.got := by
    intro i d hd
    rcases child_setChild hd with ⟨rfl, rfl⟩ | ⟨-, hd⟩
    · exact ⟨c, hc, hgot.symm⟩
    · exact ⟨d, hd, rfl⟩
  have hhas : ∀ k, HasChild { x.setChild j c' with talk } k ↔ HasChild x k := by
    intro k
    constructor
    · rintro ⟨i, d, sock, hd, hk⟩
      obtain ⟨d₀, hd₀, he⟩ := hold i d hd
      exact ⟨i, d₀, sock, hd₀, he.trans hk⟩
    · rintro ⟨i, d, sock, hd, hk⟩
      by_cases hi : i = j
      · subst hi
        obtain rfl := Option.some.inj (hc.symm.trans hd)
        exact ⟨i, c', sock, by simp [setChild], hgot.trans hk⟩
      · exact ⟨i, d, sock, by simpa [setChild, hi] using hd, hk⟩
  have hsame : ∀ k, ¬ HasChild x k → talk (.connection k) = x.talk (.connection k) := fun k hk =>
    htalk k fun sock hs => hk ⟨j, c, sock, hc, hs⟩
  refine ⟨h.parent, fun i d hd => ?_, fun i d sock k hd hk => ?_,
    fun i i' d d' sock sock' k hd hd' hk hk' => ?_, fun k hk => ?_, fun sock k ht => ?_,
    fun k hk => h.accepted k ((hhas k).1 hk), fun i hi => ?_⟩
  · rcases child_setChild hd with ⟨-, rfl⟩ | ⟨-, hd⟩
    · exact hkeeps
    · exact h.child i d hd
  · rcases child_setChild hd with ⟨rfl, rfl⟩ | ⟨hi, hd⟩
    · exact htells sock k (hgot.symm.trans hk)
    · have hk' : ∀ sock', c.got ≠ some (sock', k) := fun sock' hs =>
        hi (h.apart i j d c sock sock' k hd hc hk hs)
      have hold' : Tells (P i) (x.talk (.connection k)) d.phase := h.told i d sock k hd hk
      rwa [← htalk k hk'] at hold'
  · obtain ⟨e, he, hek⟩ := hold i d hd
    obtain ⟨e', he', hek'⟩ := hold i' d' hd'
    exact h.apart i i' e e' sock sock' k he he' (hek.trans hk) (hek'.trans hk')
  · have hk' : ¬ HasChild x k := fun hx => hk ((hhas k).2 hx)
    exact (hsame k hk').trans (h.silent k hk')
  · obtain ⟨hlt, hno⟩ := h.forking sock k ht
    exact ⟨hlt, fun hk => hno ((hhas k).1 hk)⟩
  · have hi' : x.forked ≤ i := hi
    have hij : i ≠ j := by
      rintro rfl
      rw [h.forked i hi'] at hc
      cases hc
    exact (update_of_ne hij ..).trans (h.forked i hi')

theorem Kept.fork (h : Kept listenSock P x) {got : Accepted} (ht : x.turn = .forking got) :
    Kept listenSock P { x.setChild x.forked ⟨x.table, got, .start⟩ with
      turn := .closing got, forked := x.forked + 1 } := by
  set x' : HttpServer σ := { x.setChild x.forked ⟨x.table, got, .start⟩ with
    turn := .closing got, forked := x.forked + 1 }
  have hparent : Tab listenSock True got x.table := by
    have := h.parent
    rwa [ht] at this
  have hchild : ∀ i d, x'.child i = some d →
      (i = x.forked ∧ d = ⟨x.table, got, .start⟩) ∨ (i ≠ x.forked ∧ x.child i = some d) :=
    fun _ _ => child_setChild
  have hhas : ∀ k, HasChild x' k ↔ HasChild x k ∨ ∃ sock, got = some (sock, k) := by
    intro k
    constructor
    · rintro ⟨i, d, sock, hd, hk⟩
      rcases hchild i d hd with ⟨rfl, rfl⟩ | ⟨-, hd⟩
      · exact Or.inr ⟨sock, hk⟩
      · exact Or.inl ⟨i, d, sock, hd, hk⟩
    · rintro (⟨i, d, sock, hd, hk⟩ | ⟨sock, hk⟩)
      · have hi : i ≠ x.forked := by
          rintro rfl
          rw [h.forked _ le_rfl] at hd
          cases hd
        exact ⟨i, d, sock, by simpa [x', setChild, hi] using hd, hk⟩
      · exact ⟨x.forked, ⟨x.table, got, .start⟩, sock, by simp [x', setChild], hk⟩
  have hnew : ∀ sock k, got = some (sock, k) → k < x.accepted ∧ ¬ HasChild x k := fun sock k hk =>
    h.forking sock k (by rw [ht, hk])
  refine ⟨hparent, fun i d hd => ?_, fun i d sock k hd hk => ?_,
    fun i i' d d' sock sock' k hd hd' hk hk' => ?_, fun k hk => ?_, fun _ _ => nofun,
    fun k hk => ?_, fun i hi => ?_⟩
  · rcases hchild i d hd with ⟨-, rfl⟩ | ⟨-, hd⟩
    · exact hparent
    · exact h.child i d hd
  · rcases hchild i d hd with ⟨rfl, rfl⟩ | ⟨-, hd⟩
    · exact h.silent k (hnew sock k hk).2
    · exact h.told i d sock k hd hk
  · rcases hchild i d hd with ⟨rfl, rfl⟩ | ⟨-, hd⟩
    · rcases hchild i' d' hd' with ⟨rfl, -⟩ | ⟨-, hd'⟩
      · rfl
      · exact absurd ⟨i', d', sock', hd', hk'⟩ (hnew sock k hk).2
    · rcases hchild i' d' hd' with ⟨rfl, rfl⟩ | ⟨-, hd'⟩
      · exact absurd ⟨i, d, sock, hd, hk⟩ (hnew sock' k hk').2
      · exact h.apart i i' d d' sock sock' k hd hd' hk hk'
  · exact h.silent k fun hx => hk ((hhas k).2 (Or.inl hx))
  · rcases (hhas k).1 hk with hk | ⟨sock, hk⟩
    · exact h.accepted k hk
    · exact (hnew sock k hk).1
  · have hi' : x.forked + 1 ≤ i := hi
    have hne : i ≠ x.forked := by omega
    simpa [x', setChild, hne] using h.forked i (by omega)

/-! ### Runs -/

/-- What a child has said so far, and one more call. -/
theorem hearSock_self {table : ℕ → Option File} {talk : File → List SockCall} {sock k : ℕ}
    (h : Tab listenSock False (some (sock, k)) table) (call : SockCall) :
    hearSock table (some (sock, k)) call talk (.connection k) =
      talk (.connection k) ++ [call] := by
  simp only [hearSock, hear_of_some h.conn, update_self]

theorem hearSock_ne {table : ℕ → Option File} {talk : File → List SockCall} {got : Accepted} {k : ℕ}
    (h : Tab listenSock False got table) (hk : ∀ sock, got ≠ some (sock, k)) (call : SockCall) :
    hearSock table got call talk (.connection k) = talk (.connection k) := by
  cases got with
  | none => rfl
  | some g =>
    obtain ⟨sock, j⟩ := g
    have hne : k ≠ j := by
      rintro rfl
      exact hk sock rfl
    simp only [hearSock, hear_of_some h.conn, update_of_ne (File.connection_ne hne)]

theorem kept_invariant : Invariant (fun x : HttpServer σ => x = HttpServer.init listenSock)
    (Step listenSock P) (Kept listenSock P) where
  init := by
    rintro x rfl
    exact .init
  step := by
    rintro x x' h hs
    cases hs with
    | @accept sock ht hsock =>
      have hparent : Tab listenSock True none x.table := by
        have := h.parent
        rwa [ht] at this
      refine h.parent_step (hparent.accept hsock) (fun sock' k hk => ?_) (Nat.le_succ _)
      obtain ⟨rfl, rfl⟩ : sock = sock' ∧ x.accepted = k := by simpa using hk
      exact ⟨Nat.lt_succ_self _, fun hx => (h.accepted _ hx).false⟩
    | acceptFailed ht =>
      refine h.parent_step ?_ (fun _ _ => nofun) le_rfl
      have := h.parent
      rwa [ht] at this
    | fork ht => exact h.fork ht
    | forkFailed ht =>
      refine h.parent_step ?_ (fun _ _ => nofun) le_rfl
      have := h.parent
      rwa [ht] at this
    | close ht =>
      refine h.parent_step ?_ (fun _ _ => nofun) le_rfl
      have := h.parent
      rw [ht] at this
      exact this.closeSock
    | @start j c hc hp =>
      obtain ⟨htab, htells⟩ := h.phase hc hp
      have htab : Tab listenSock True c.got c.table := htab
      refine h.child_step ⟨_, c.got, .func (P j).start⟩ hc rfl htab.start (fun sock k hk => ?_)
        (fun _ _ => rfl)
      have hl : x.talk (.connection k) = [] := htells sock k hk
      rw [hl]
      exact Talk.start
    | @call j c s s' k hc hp hret hk =>
      obtain ⟨htab, htells⟩ := h.phase hc hp
      have htab : Tab listenSock False c.got c.table := htab
      refine h.child_step ⟨c.table, c.got, .func s'⟩ hc rfl htab (fun sock i hi => ?_)
        (fun i hi => hearSock_ne htab hi k)
      have hl : Talk (P j) (x.talk (.connection i)) s := htells sock i hi
      rw [hi] at htab ⊢
      rw [hearSock_self htab]
      exact Talk.call hl hret hk
    | @fault j c s k e hc hp hret hk =>
      obtain ⟨htab, htells⟩ := h.phase hc hp
      have htab : Tab listenSock False c.got c.table := htab
      refine h.child_step ⟨fun _ => none, c.got, .gone⟩ hc rfl tab_closed (fun sock i hi => ?_)
        (fun i hi => hearSock_ne htab hi k)
      have hl : Talk (P j) (x.talk (.connection i)) s := htells sock i hi
      rw [hi] at htab ⊢
      rw [hearSock_self htab]
      exact Or.inr ⟨_, k, s, e, rfl, hl, hk⟩
    | @childClose j c s hc hp hret =>
      obtain ⟨htab, htells⟩ := h.phase hc hp
      have htab : Tab listenSock False c.got c.table := htab
      exact h.child_step ⟨_, c.got, .closed⟩ hc rfl htab.closeSock
        (fun sock i hi => ⟨s, htells sock i hi, hret⟩) (fun _ _ => rfl)
    | @exit j c hc hp =>
      obtain ⟨-, htells⟩ := h.phase hc hp
      exact h.child_step ⟨_, c.got, .gone⟩ hc rfl tab_closed
        (fun sock i hi => Or.inl (htells sock i hi)) (fun _ _ => rfl)

end HttpServer

/-! ### The handler -/

section Handler

variable {fs : Bytes → Option Bytes} {buf : Buffer} {l : List SockCall}

/-- The client was sent the answer to what it has sent. -/
def Responded (fs : Bytes → Option Bytes) (buf : Buffer) (l : List SockCall) : Prop :=
  ∃ a a' reply r, Recv.of a = some a' ∧ HttpServerHandler fs buf a' = .ok reply ∧
    l = [.recv a, .send reply.response r]

/-- What the client has sent was a fault of the handler. -/
def Faulted (fs : Bytes → Option Bytes) (buf : Buffer) (l : List SockCall) : Prop :=
  ∃ a a' fault, Recv.of a = some a' ∧ HttpServerHandler fs buf a' = .error fault ∧ l = [.recv a]

/-- The calls on the connection of a child that runs the handler. -/
def Serves (fs : Bytes → Option Bytes) (buf : Buffer) (l : List SockCall) : ChildPhase Pos → Prop
  | .start => l = []
  | .func .recv => l = []
  | .func (.send response) => ∃ a a' reply, Recv.of a = some a' ∧
      HttpServerHandler fs buf a' = .ok reply ∧ l = [.recv a] ∧ response = reply.response
  | .func .returned => Responded fs buf l
  | .closed => Responded fs buf l
  | .gone => Responded fs buf l ∨ Faulted fs buf l

theorem step_recv {k : SockCall} {r : Except Fault Pos}
    (h : (handlerProgram fs buf).step .recv k = some r) : ∃ a a', k = .recv a ∧
      Recv.of a = some a' ∧ r = (HttpServerHandler fs buf a').map (.send ·.response) := by
  cases k with
  | send => cases h
  | recv a =>
    simp only [handlerProgram, Option.map_eq_some_iff] at h
    obtain ⟨a', ha, rfl⟩ := h
    exact ⟨a, a', rfl, ha, rfl⟩

theorem talk_handler {pos : Pos} (h : Talk (handlerProgram fs buf) l pos) :
    Serves fs buf l (.func pos) := by
  induction h with
  | start => rfl
  | @call l pos pos' k _ hret hk ih =>
    cases pos with
    | returned => cases hret
    | recv =>
      obtain rfl : l = [] := ih
      obtain ⟨a, a', rfl, ha, hr⟩ := step_recv hk
      cases hreply : HttpServerHandler fs buf a' with
      | error e => rw [hreply] at hr; cases hr
      | ok reply =>
        rw [hreply] at hr
        cases hr
        exact ⟨a, a', reply, ha, hreply, rfl, rfl⟩
    | send response =>
      obtain ⟨a, a', reply, ha, hreply, rfl, rfl⟩ := ih
      cases k with
      | recv => cases hk
      | send b r =>
        simp only [handlerProgram] at hk
        split at hk
        · rename_i hb
          subst hb
          cases hk
          exact ⟨a, a', reply, r, ha, hreply, rfl⟩
        · cases hk

theorem serves_of_tells {phase : ChildPhase Pos}
    (h : HttpServer.Tells (handlerProgram fs buf) l phase) : Serves fs buf l phase := by
  have hreturned : ∀ s, Talk (handlerProgram fs buf) l s →
      (handlerProgram fs buf).returned s = true → Responded fs buf l := by
    intro s hs hret
    cases s with
    | returned => exact talk_handler hs
    | recv => cases hret
    | send _ => cases hret
  cases phase with
  | start => exact h
  | func s => exact talk_handler h
  | closed =>
    obtain ⟨s, hs, hret⟩ := h
    exact hreturned s hs hret
  | gone =>
    rcases h with ⟨s, hs, hret⟩ | ⟨l', k, s, e, rfl, hs, hk⟩
    · exact Or.inl (hreturned s hs hret)
    · -- only the call of `recv` can be followed by a fault
      cases s with
      | returned =>
        cases k with
        | recv => cases hk
        | send => cases hk
      | send response =>
        cases k with
        | recv => cases hk
        | send b r =>
          simp only [handlerProgram] at hk
          split at hk <;> cases hk
      | recv =>
        obtain rfl : l' = [] := talk_handler hs
        obtain ⟨a, a', rfl, ha, hr⟩ := step_recv hk
        cases hreply : HttpServerHandler fs buf a' with
        | ok reply => rw [hreply] at hr; cases hr
        | error fault => exact Or.inr ⟨a, a', fault, ha, hreply, rfl⟩

end Handler

/-- **Each child is alone with its client.** Whatever the processes do in turns, and whether
`accept` and `fork` succeed or not: the parent has the listening socket and the connection that it
is handing over, and nothing else; a child has its own connection, until it closes it or a fault
ends it, and never that of another; and its client is sent the response to its own request, once, or
nothing. -/
theorem processes_apart {listenSock : ℕ} {fs : ℕ → Bytes → Option Bytes} {buf : ℕ → Buffer}
    {x : HttpServer Pos}
    (h : HttpServer.Reach listenSock (fun j => handlerProgram (fs j) (buf j)) x) :
    Tab listenSock True (HttpServer.handing x.turn) x.table ∧
      (∀ j c, x.child j = some c → HttpServer.ChildKeeps listenSock c ∧ ∀ sock k,
        c.got = some (sock, k) → Serves (fs j) (buf j) (x.talk (.connection k)) c.phase) ∧
      (∀ i j c d sock sock' k, x.child i = some c → x.child j = some d →
        c.got = some (sock, k) → d.got = some (sock', k) → i = j) ∧
      ∀ k, ¬ HttpServer.HasChild x k → x.talk (.connection k) = [] := by
  have hkept := HttpServer.kept_invariant.reachable h
  refine ⟨hkept.parent, fun j c hc => ⟨hkept.child j c hc, fun sock k hk => ?_⟩, hkept.apart,
    hkept.silent⟩
  exact serves_of_tells (hkept.told j c sock k hc hk)

/-- A client is served while the next one, with the same number, is handed over. -/
theorem processes_apart_example : ∃ x : HttpServer Pos,
    x.turn = .forking (some (4, 1)) ∧
    x.talk (.connection 0) = [.recv (.bytes (literal "GET /")),
      .send (response (contentOf (oneFile HOMEPAGE (literal "<html></html>")) HOMEPAGE))
        (.count 32)] ∧
    Tab 3 True (HttpServer.handing x.turn) x.table ∧
      (∀ j c, x.child j = some c → HttpServer.ChildKeeps 3 c ∧ ∀ sock k,
        c.got = some (sock, k) → Serves (oneFile HOMEPAGE (literal "<html></html>")) blank
          (x.talk (.connection k)) c.phase) ∧
      (∀ i j c d sock sock' k, x.child i = some c → x.child j = some d →
        c.got = some (sock, k) → d.got = some (sock', k) → i = j) ∧
      ∀ k, ¬ HttpServer.HasChild x k → x.talk (.connection k) = [] := by
  let P : ℕ → Program Pos SockCall Fault := fun _ =>
    handlerProgram (oneFile HOMEPAGE (literal "<html></html>")) blank
  have hreply : HttpServerHandler (oneFile HOMEPAGE (literal "<html></html>")) blank
      (.bytes (literal "GET /") (by decide)) = .ok ⟨HOMEPAGE,
        response (contentOf (oneFile HOMEPAGE (literal "<html></html>")) HOMEPAGE)⟩ :=
    handler_request (b := literal "GET /") _ (by decide) (by decide) (by decide) rfl
  have hrecv : (P 0).step .recv (.recv (.bytes (literal "GET /"))) = some (.ok (.send
      (response (contentOf (oneFile HOMEPAGE (literal "<html></html>")) HOMEPAGE)))) :=
    congrArg (fun r => some (Except.map (fun reply : Reply => Pos.send reply.response) r)) hreply
  have h₀ : HttpServer.Reach 3 P (HttpServer.init 3) := .start rfl
  have h₁ := h₀.next (@HttpServer.Step.accept _ _ 3 P _ 4 rfl rfl)
  have h₂ := h₁.next (.fork rfl)
  have h₃ := h₂.next (.close rfl)
  have h₄ := h₃.next (@HttpServer.Step.start _ _ 3 P _ 0 _ rfl rfl)
  have h₅ := h₄.next (@HttpServer.Step.accept _ _ 3 P _ 4 rfl rfl)
  have h₆ := h₅.next (@HttpServer.Step.call _ _ 3 P _ 0 _ _ _ (.recv (.bytes (literal "GET /")))
    rfl rfl rfl hrecv nofun)
  have h₇ := h₆.next (@HttpServer.Step.call _ _ 3 P _ 0 _ _ _ (.send _ (.count 32))
    rfl rfl rfl (if_pos rfl) nofun)
  exact ⟨_, rfl, rfl, processes_apart h₇⟩

end NetProg.Http
