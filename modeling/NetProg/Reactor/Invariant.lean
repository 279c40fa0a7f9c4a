import NetProg.Reactor.Handlers

/-!
# The invariant of the Reactor

`Good` ties the structures that the handlers update one by one: the map `_connections`, the heap of
`Connection` objects, the descriptors open and those registered in epoll, and each connection's
write interest and `_out_buffer`. `Effect` lists what a completed callback can have done to the
state; `Good.effect` shows that every effect keeps the invariant, and `Effect.frame` that it leaves
the connections of other descriptors alone.
-/

namespace NetProg.Reactor

open NetProg.Lib Function

namespace TcpServer

variable {L fd : Fd} {s s' : TcpServer} {p : Ptr} {c : Connection}

/-- The callbacks that the constructor and `Accepter` set. -/
def Wired (L : Fd) (c : Connection) : Prop :=
  if c.sock = L then c.recvCb = some .accepter ∧ c.sendCb = none ∧ c.exceptCb = none
  else c.recvCb = some .recver ∧ c.sendCb = some .sender ∧ c.exceptCb = some .excepter

/-- The interest registered for `fd` has `EPOLLOUT`. -/
def WantsWrite (s : TcpServer) (fd : Fd) : Prop := ∃ e, s.epoll fd = some e ∧ e.epollout = true

/-- **The invariant**, for a server that listens on `L`. -/
structure Good (L : Fd) (s : TcpServer) : Prop where
  /-- The keys of the map are the open descriptors. -/
  keys : ∀ fd, s.connIsExists fd = s.isOpen fd
  /-- Only open descriptors are registered. -/
  registered : ∀ fd e, s.epoll fd = some e → s.isOpen fd = true
  /-- Every entry of the map is a live connection of that descriptor. -/
  live : ∀ fd p, s.connections fd = some p → ∃ c, s.heap p = some c ∧ c.sock = fd
  /-- Every live connection is in the map, with the callbacks of its kind. -/
  owned : ∀ p c, s.heap p = some c → s.connections c.sock = some p ∧ Wired L c
  /-- Addresses not given out yet are free. -/
  fresh : ∀ p, s.next ≤ p → s.heap p = none
  listening : s.isOpen L = true
  /-- The interest has `EPOLLOUT` exactly when something is to be written. -/
  interest : ∀ p c, s.heap p = some c → (s.WantsWrite c.sock ↔ c.outBuffer ≠ [])

/-- The connection that `Accepter` makes. -/
def newClient (sock : Fd) : Connection :=
  { sock, recvCb := some .recver, sendCb := some .sender, exceptCb := some .excepter }

section AcceptStep

variable (s) (g : Fd) (added : Bool)

theorem acceptStep_isOpen : (s.acceptStep (.conn g added)).isOpen = update s.isOpen g true := by
  simp only [acceptStep, addConnection, addEvent]
  split <;> rfl

theorem acceptStep_connections : (s.acceptStep (.conn g added)).connections =
    if s.connections g = none then update s.connections g (some s.next) else s.connections := by
  simp only [acceptStep, addConnection, addEvent]
  split <;> simp [insert, log, store]

theorem acceptStep_heap : (s.acceptStep (.conn g added)).heap =
    update s.heap s.next (some (newClient g)) := by
  simp only [acceptStep, addConnection, addEvent]
  split <;> rfl

theorem acceptStep_next : (s.acceptStep (.conn g added)).next = s.next + 1 := by
  simp only [acceptStep, addConnection, addEvent]
  split <;> rfl

theorem acceptStep_epoll : (s.acceptStep (.conn g added)).epoll =
    if added ∧ s.epoll g = none then
      update s.epoll g (some { epollin := true, epollet := true }) else s.epoll := by
  simp only [acceptStep, addConnection, addEvent]
  split <;> rename_i h
  · exact (if_pos h).symm
  · exact (if_neg h).symm

theorem acceptStep_trace (a : AcceptAns) : (s.acceptStep a).trace =
    s.trace ++ .accept a :: match a with
      | .conn fd _ => [.insert fd (s.connections fd).isNone]
      | .fail _ => [] := by
  cases a with
  | fail e => rfl
  | conn fd added =>
    simp only [acceptStep, addConnection, addEvent]
    split <;> simp [insert, log, store]

end AcceptStep

theorem Good.key (h : Good L s) (hc : s.heap p = some c) : s.connIsExists c.sock = true := by
  simp [connIsExists, (h.owned p c hc).1]

theorem Good.isOpen (h : Good L s) (hc : s.heap p = some c) : s.isOpen c.sock = true := by
  rw [← h.keys]; exact h.key hc

theorem Good.absent (h : Good L s) (ho : s.isOpen fd = false) :
    s.connections fd = none ∧ s.epoll fd = none := by
  constructor
  · have hk := h.keys fd
    rw [ho] at hk
    simpa [connIsExists] using hk
  · cases he : s.epoll fd with
    | none => rfl
    | some e =>
      have := h.registered fd e he
      rw [ho] at this; cases this

theorem Good.inj (h : Good L s) {p' : Ptr} {c' : Connection} (hc : s.heap p = some c)
    (hc' : s.heap p' = some c') (hs : c.sock = c'.sock) : p = p' := by
  have h1 := (h.owned p c hc).1
  rw [hs, (h.owned p' c' hc').1] at h1
  exact (Option.some.inj h1).symm

theorem Good.logs (h : Good L s) (calls : List Call) : Good L (s.logs calls) := by
  refine ⟨?_, ?_, ?_, ?_, ?_, ?_, ?_⟩
  · simpa [connIsExists] using h.keys
  · simpa using h.registered
  · simpa using h.live
  · simpa using h.owned
  · simpa using h.fresh
  · simpa using h.listening
  · simpa [WantsWrite] using h.interest

theorem Good.touch (h : Good L s) (hc : s.heap p = some c) {inBuffer outBuffer : Bytes}
    (hheap : s'.heap = update s.heap p (some { c with inBuffer, outBuffer }))
    (hconn : s'.connections = s.connections) (hopen : s'.isOpen = s.isOpen)
    (hnext : s'.next = s.next) (hepoll : ∀ g, g ≠ c.sock → s'.epoll g = s.epoll g)
    (hwants : s'.WantsWrite c.sock ↔ outBuffer ≠ []) : Good L s' := by
  have hlive : ∀ q d, s'.heap q = some d → q = p ∧ d = { c with inBuffer, outBuffer } ∨
      q ≠ p ∧ s.heap q = some d := by
    intro q d hd
    rw [hheap] at hd
    by_cases hq : q = p
    · subst hq
      exact Or.inl ⟨rfl, by simpa using hd.symm⟩
    · exact Or.inr ⟨hq, by simpa [hq] using hd⟩
  refine ⟨?_, ?_, ?_, ?_, ?_, ?_, ?_⟩
  · intro g
    rw [connIsExists, hconn, hopen]
    exact h.keys g
  · intro g e he
    rw [hopen]
    by_cases hg : g = c.sock
    · subst hg; exact h.isOpen hc
    · exact h.registered g e (by rwa [← hepoll g hg])
  · intro g q hq
    rw [hconn] at hq
    obtain ⟨d, hd, rfl⟩ := h.live g q hq
    by_cases hqp : q = p
    · subst hqp
      obtain rfl : c = d := Option.some.inj (hc.symm.trans hd)
      refine ⟨{ c with inBuffer, outBuffer }, ?_, rfl⟩
      rw [hheap, update_self]
    · exact ⟨d, by simpa [hheap, hqp] using hd, rfl⟩
  · intro q d hd
    rw [hconn]
    rcases hlive q d hd with ⟨rfl, rfl⟩ | ⟨-, hd'⟩
    · exact h.owned q c hc
    · exact h.owned q d hd'
  · intro q hq
    rw [hnext] at hq
    have hqp : q ≠ p := by
      rintro rfl
      rw [h.fresh q hq] at hc; cases hc
    simpa [hheap, hqp] using h.fresh q hq
  · rw [hopen]; exact h.listening
  · intro q d hd
    rcases hlive q d hd with ⟨rfl, rfl⟩ | ⟨hq, hd'⟩
    · exact hwants
    · have hne : d.sock ≠ c.sock := fun heq => hq (h.inj hd' hc heq)
      rw [WantsWrite, hepoll _ hne]
      exact h.interest q d hd'

theorem Good.drop (h : Good L s) (hc : s.heap p = some c) (hL : c.sock ≠ L) :
    Good L (s.drop p c.sock) := by
  have hne : ∀ q d, q ≠ p → s.heap q = some d → d.sock ≠ c.sock := fun q d hq hd he =>
    hq (h.inj hd hc he)
  have hheap : ∀ q d, (s.drop p c.sock).heap q = some d → q ≠ p ∧ s.heap q = some d := by
    intro q d hd
    by_cases hqp : q = p
    · subst hqp
      simp at hd
    · exact ⟨hqp, by simpa [hqp] using hd⟩
  refine ⟨?_, ?_, ?_, ?_, ?_, ?_, ?_⟩
  · intro g
    by_cases hg : g = c.sock
    · subst hg
      simp [connIsExists]
    · have := h.keys g
      simpa [connIsExists, hg] using this
  · intro g e he
    by_cases hg : g = c.sock
    · subst hg
      simp at he
    · have := h.registered g e (by
        simpa [hg] using he)
      simpa [hg] using this
  · intro g q hq
    by_cases hg : g = c.sock
    · subst hg
      simp at hq
    · obtain ⟨d, hd, rfl⟩ := h.live g q (by
        simpa [hg] using hq)
      have hqp : q ≠ p := by
        rintro rfl
        obtain rfl : c = d := Option.some.inj (hc.symm.trans hd)
        exact hg rfl
      exact ⟨d, by simpa [hqp] using hd, rfl⟩
  · intro q d hd
    obtain ⟨hqp, hd'⟩ := hheap q d hd
    have := h.owned q d hd'
    simpa [hne q d hqp hd'] using this
  · intro q hq
    by_cases hqp : q = p
    · subst hqp; simp
    · have := h.fresh q hq
      simpa [hqp] using this
  · have := h.listening
    simpa [hL.symm] using this
  · intro q d hd
    obtain ⟨hqp, hd'⟩ := hheap q d hd
    have := h.interest q d hd'
    simpa [WantsWrite, hne q d hqp hd'] using this

theorem Good.acceptStep (h : Good L s) (a : AcceptAns)
    (hfresh : ∀ g added, a = .conn g added → s.isOpen g = false) : Good L (s.acceptStep a) := by
  cases a with
  | fail e => exact h.logs [.accept (.fail e)]
  | conn g added =>
    have ho := hfresh g added rfl
    obtain ⟨hmap, hepoll⟩ := h.absent ho
    have hgL : g ≠ L := by rintro rfl; rw [h.listening] at ho; cases ho
    have hne : ∀ q d, s.heap q = some d → d.sock ≠ g := by
      rintro q d hd rfl
      rw [h.isOpen hd] at ho; cases ho
    have hnext : ∀ q d, s.heap q = some d → q ≠ s.next := by
      rintro q d hd rfl
      rw [h.fresh _ le_rfl] at hd; cases hd
    refine ⟨?_, ?_, ?_, ?_, ?_, ?_, ?_⟩
    · intro f
      have hk := h.keys f
      by_cases hf : f = g
      · subst hf
        simp [connIsExists, acceptStep_connections, acceptStep_isOpen, hmap]
      · simpa [connIsExists, acceptStep_connections, acceptStep_isOpen, hmap, hf] using hk
    · intro f e he
      by_cases hf : f = g
      · subst hf; simp [acceptStep_isOpen]
      · have := h.registered f e (by
          rw [acceptStep_epoll] at he
          split at he
          · simpa [hf] using he
          · exact he)
        simpa [acceptStep_isOpen, hf] using this
    · intro f q hq
      by_cases hf : f = g
      · subst hf
        obtain rfl : s.next = q := by simpa [acceptStep_connections, hmap] using hq
        exact ⟨newClient f, by simp [acceptStep_heap], rfl⟩
      · obtain ⟨d, hd, rfl⟩ := h.live f q (by simpa [acceptStep_connections, hmap, hf] using hq)
        exact ⟨d, by simpa [acceptStep_heap, hnext q d hd] using hd, rfl⟩
    · intro q d hd
      by_cases hq : q = s.next
      · subst hq
        obtain rfl : _ = d := by simpa [acceptStep_heap] using hd
        simp [acceptStep_connections, hmap, Wired, newClient, hgL]
      · have hd' : s.heap q = some d := by simpa [acceptStep_heap, hq] using hd
        simpa [acceptStep_connections, hmap, hne q d hd'] using h.owned q d hd'
    · intro q hq
      have hlt : s.next < q := Nat.lt_of_succ_le (by simpa [acceptStep_next] using hq)
      simpa [acceptStep_heap, hlt.ne'] using h.fresh q hlt.le
    · simpa [acceptStep_isOpen, hgL.symm] using h.listening
    · intro q d hd
      by_cases hq : q = s.next
      · subst hq
        obtain rfl : _ = d := by simpa [acceptStep_heap] using hd
        simp only [WantsWrite, acceptStep_epoll, newClient]
        split <;> simp [hepoll]
      · have hd' : s.heap q = some d := by simpa [acceptStep_heap, hq] using hd
        have hi := h.interest q d hd'
        simp only [WantsWrite, acceptStep_epoll] at hi ⊢
        split
        · simpa [hne q d hd'] using hi
        · exact hi

theorem heap_init {q : Ptr} {d : Connection} (hd : (TcpServer.init L).heap q = some d) :
    q = 0 ∧ d = { sock := L, recvCb := some .accepter } := by
  have hheap : (TcpServer.init L).heap =
      update (fun _ => none) 0 (some { sock := L, recvCb := some .accepter }) := rfl
  rw [hheap] at hd
  by_cases hq : q = 0
  · subst hq; exact ⟨rfl, by simpa using hd.symm⟩
  · simp [hq] at hd

theorem Good.init (L : Fd) : Good L (TcpServer.init L) := by
  have hconn : (TcpServer.init L).connections = update (fun _ => none) L (some 0) := rfl
  have hepoll : (TcpServer.init L).epoll =
      update (fun _ => none) L (some { epollin := true, epollet := true }) := rfl
  have hopen : (TcpServer.init L).isOpen = update (fun _ => false) L true := rfl
  refine ⟨?_, ?_, ?_, ?_, ?_, ?_, ?_⟩
  · intro f
    by_cases hf : f = L
    · subst hf; simp [connIsExists, hconn, hopen]
    · simp [connIsExists, hconn, hopen, hf]
  · intro f e he
    by_cases hf : f = L
    · subst hf; simp [hopen]
    · simp [hepoll, hf] at he
  · intro f q hq
    by_cases hf : f = L
    · subst hf
      obtain rfl : 0 = q := by simpa [hconn] using hq
      exact ⟨_, rfl, rfl⟩
    · simp [hconn, hf] at hq
  · intro q d hd
    obtain ⟨rfl, rfl⟩ := heap_init hd
    simp [hconn, Wired]
  · intro q hq
    by_contra hne
    obtain ⟨d, hd⟩ := Option.ne_none_iff_exists'.1 hne
    obtain ⟨rfl, -⟩ := heap_init hd
    exact absurd hq (Nat.not_succ_le_zero 0)
  · simp [hopen]
  · intro q d hd
    obtain ⟨rfl, rfl⟩ := heap_init hd
    simp [WantsWrite, hepoll]

/-! ### Effects -/

/-- A `recv` on the connection, or a `send` on it of something. -/
def OwnIO (p : Ptr) : Call → Prop
  | .recv q _ => q = p
  | .send q buf _ => q = p ∧ buf ≠ []
  | _ => False

/-- **What a handler of an event on the descriptor `fd` can do** before it returns: `Accepter` does
the first any number of times, each of the others happens at most once in a handler. -/
inductive Effect (L fd : Fd) (s : TcpServer) : Handler → TcpServer → Prop
  | accepted {a : AcceptAns} (hfd : fd = L)
      (hfresh : ∀ g added, a = .conn g added → s.isOpen g = false) :
      Effect L fd s .read (s.acceptStep a)
  | read {p : Ptr} {c : Connection} {as used : List RecvAns} {rest out : Bytes}
      {messages : List Bytes} {mem : ℕ → Request} (hc : s.heap p = some c) (hfd : c.sock = fd)
      (hL : fd ≠ L) (hscan : recvScan as = some (used, true))
      (hsplit : splitMessage (c.inBuffer ++ recvData used) [] = (rest, messages))
      (hout : replies mem messages = .ok out) :
      Effect L fd s .read (s.handled p c used rest messages out)
  | wrote {p : Ptr} {c : Connection} {as : List SendAns} {used : List (Bytes × SendAns)}
      {rest : Bytes} (hc : s.heap p = some c) (hfd : c.sock = fd) (hL : fd ≠ L)
      (hne : c.outBuffer ≠ [])
      (hscan : sendScan s.errno c.outBuffer as = some (used, rest, false)) :
      Effect L fd s .write (s.flushed p c used rest)
  | closed {h : Handler} {p : Ptr} {c : Connection} {calls : List Call} (hc : s.heap p = some c)
      (hfd : c.sock = fd) (hL : fd ≠ L) (hio : ∀ k ∈ calls, OwnIO p k) :
      Effect L fd s h ((s.logs calls).drop p fd)

/-- **Every effect keeps the invariant.** -/
theorem Good.effect {k : Handler} (h : Good L s) (he : Effect L fd s k s') : Good L s' := by
  cases he with
  | accepted hfd hfresh => exact h.acceptStep _ hfresh
  | @read p c as used rest out messages mem hc hfd hL hscan hsplit hout =>
    refine h.touch hc (heap_handled ..) (by simp) (by simp) (by simp) ?_ ?_
    · intro g hg
      rw [epoll_handled]
      split
      · rfl
      · simp [hg]
    · rw [WantsWrite, epoll_handled]
      by_cases hm : messages = []
      · subst hm
        rw [replies_nil hout, List.append_nil, if_pos rfl]
        exact h.interest p c hc
      · simp [hm, replies_ne_nil hout hm]
  | @wrote p c as used rest hc hfd hL hne hscan =>
    refine h.touch hc (heap_flushed ..) (by simp) (by simp) (by simp) ?_ ?_
    · intro g hg
      simp [epoll_flushed, hg]
    · simp [WantsWrite, epoll_flushed]
  | @closed k p c calls hc hfd hL hio =>
    subst hfd
    exact (h.logs calls).drop (by simpa using hc) hL

/-- **Frame**: a connection of another descriptor, and that of the listening one, stay as they are,
registered as they were. -/
theorem Effect.frame {k : Handler} (he : Effect L fd s k s') (h : Good L s) {q : Ptr}
    {d : Connection} (hd : s.heap q = some d) (hfd : d.sock ≠ fd ∨ d.sock = L) :
    s'.heap q = some d ∧ s'.epoll d.sock = s.epoll d.sock := by
  have hother : ∀ {p : Ptr} {c : Connection}, s.heap p = some c → c.sock = fd → fd ≠ L →
      q ≠ p ∧ d.sock ≠ fd := by
    rintro p c hc rfl hL
    have hne : d.sock ≠ c.sock := hfd.elim id fun e => e ▸ hL.symm
    refine ⟨?_, hne⟩
    rintro rfl
    obtain rfl : c = d := Option.some.inj (hc.symm.trans hd)
    exact hne rfl
  cases he with
  | @accepted a hfd' hfresh =>
    cases a with
    | fail e => exact ⟨hd, rfl⟩
    | conn g added =>
      have hq : q ≠ s.next := by
        rintro rfl
        rw [h.fresh _ le_rfl] at hd; cases hd
      have hg : d.sock ≠ g := by
        rintro rfl
        have := hfresh d.sock added rfl
        rw [h.isOpen hd] at this; cases this
      refine ⟨by simpa [acceptStep_heap, hq] using hd, ?_⟩
      rw [acceptStep_epoll]
      split
      · simp [hg]
      · rfl
  | @read p c as used rest out messages mem hc hs hL hscan hsplit hout =>
    obtain ⟨hq, hne⟩ := hother hc hs hL
    subst hs
    refine ⟨by simpa [hq] using hd, ?_⟩
    rw [epoll_handled]
    split
    · rfl
    · simp [hne]
  | @wrote p c as used rest hc hs hL hne' hscan =>
    obtain ⟨hq, hne⟩ := hother hc hs hL
    subst hs
    exact ⟨by simpa [hq] using hd, by simp [epoll_flushed, hne]⟩
  | @closed k p c calls hc hs hL hio =>
    obtain ⟨hq, hne⟩ := hother hc hs hL
    exact ⟨by simpa [hq] using hd, by simp [hne]⟩

end TcpServer

end NetProg.Reactor
