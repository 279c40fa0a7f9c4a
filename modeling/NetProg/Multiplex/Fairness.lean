import NetProg.Multiplex.Stories

/-!
# No client is starved

One thread serves every client, and still none of them can keep it from the others: a turn reads
each client that is ready once, whoever else is ready, comes or goes in the same turn. So a client
is heard turn by turn, and closed when its stream has ended and all of it has been heard. Only the
kernel's part for that one client is described; the others may do what they like.

* `Table.acts_scan`: what a turn does for the client in a slot;
* `Flow`, `Table.Watched`: turns seen from one client;
* `Table.Watched.heard`, `Table.Watched.ended`: what it is given in them;
* `nobody_starves`: the same for both servers.
-/

namespace NetProg.Multiplex

open NetProg.Lib NetProg.Reactor Function

/-! ### What a turn does for one client -/

theorem Story.flag_eq {op : Bool} {l : List Act} (h : Story op l) :
    op = (l.getLast?.any fun a => a ≠ .closed) := by
  cases h <;> simp

theorem Story.unique {op op' : Bool} {l : List Act} (h : Story op l) (h' : Story op' l) :
    op = op' := h.flag_eq.trans h'.flag_eq.symm

theorem flatMap_eq_of_unique {α β : Type*} {l : List α} {a : α} {f : α → List β} (hl : l.Nodup)
    (ha : a ∈ l) (h : ∀ b ∈ l, b ≠ a → f b = []) : l.flatMap f = f a := by
  obtain ⟨s, u, rfl⟩ := List.append_of_mem ha
  have hne := List.nodup_middle.1 hl
  have hs : s.flatMap f = [] := List.flatMap_eq_nil_iff.2 fun b hb =>
    h b (List.mem_append_left _ hb) fun he =>
      (List.nodup_cons.1 hne).1 (List.mem_append_left _ (he ▸ hb))
  have hu : u.flatMap f = [] := List.flatMap_eq_nil_iff.2 fun b hb =>
    h b (List.mem_append_right _ (List.mem_cons_of_mem _ hb)) fun he =>
      (List.nodup_cons.1 hne).1 (List.mem_append_right _ (he ▸ hb))
  rw [List.flatMap_append, List.flatMap_cons, hs, hu, List.nil_append, List.append_nil]

theorem acts_flatMap {α : Type*} (l : List α) (f : α → List Call) (fd : Fd) :
    acts (l.flatMap f) fd = l.flatMap fun x => acts (f x) fd := List.filterMap_flatMap ..

/-- The bytes read from the connection on `fd` that was accepted last. -/
def heard (trace : List Call) (fd : Fd) : Bytes := (pieces (acts trace fd)).flatten

namespace Table

variable {n i k : ℕ} {listen fd : Fd} {ready : ℕ → Fd → Bool} {ans : Answers} {t : Table}

theorem acts_accepter (t : Table) {r : Option Fd} (hr : ∀ sock, r = some sock → sock ≠ fd) :
    acts (accepter n listen t r).trace fd = acts t.trace fd := by
  unfold accepter
  cases r with
  | none => simp [acts, Call.act]
  | some sock =>
    have hne := hr sock rfl
    dsimp only
    split <;> simp [acts, Call.act, hne]

theorem acts_reads (slots : ℕ → Option Fd) (i : ℕ) (fd : Fd) : acts (reads ready ans slots i) fd =
    if slots i = some fd ∧ ready i fd = true then turn (ans.recv i) else [] := by
  unfold reads
  cases hs : slots i with
  | none => simp
  | some sock =>
    dsimp only
    by_cases hfd : sock = fd
    · subst hfd
      by_cases hready : ready i sock = true
      · simp [hready, acts_recvCalls]
      · simp [hready]
    · by_cases hready : ready i sock = true
      · simp [hready, acts_recvCalls, hfd]
      · simp [hready, hfd]

/-- **A turn serves the client in a slot exactly when it is ready**, and once. -/
theorem acts_scan (h : Ok n listen t.slots t.trace) (hown : Own n t.slots ready)
    (hfresh : Fresh listen (scanTo n listen ready ans n t).trace) (hpos : 0 < i) (hi : i < n)
    (hfd : t.slots i = some fd) : acts (scanTo n listen ready ans n t).trace fd =
      acts t.trace fd ++ if ready i fd = true then turn (ans.recv i) else [] := by
  obtain ⟨m, rfl⟩ := Nat.exists_eq_succ_of_ne_zero (Nat.pos_iff_ne_zero.1 (hpos.trans hi))
  have hone := scanTo_fresh (k := 1) (by omega) le_rfl hfresh
  have hfirst : acts (scanTo (m + 1) listen ready ans 1 t).trace fd = acts t.trace fd := by
    rw [scanTo_one h.listening] at hone ⊢
    split
    · rename_i hready
      rw [if_pos hready] at hone
      refine acts_accepter t fun sock hr => ?_
      -- what is accepted is new, so it is not the client's descriptor
      rintro rfl
      obtain ⟨u, hu, -⟩ := accepter_trace (m + 1) listen t (ans.accept 0)
      exact (hone t.trace _ u hu listen sock (by rw [hr])).2
        ((h.tracked sock).1 ⟨i, hpos, hi, hfd⟩)
    · rfl
  have hrest : acts ((List.range m).flatMap fun j => reads ready ans t.slots (j + 1)) fd =
      if ready i fd = true then turn (ans.recv i) else [] := by
    rw [acts_flatMap]
    simp only [acts_reads]
    rw [flatMap_eq_of_unique (a := i - 1) List.nodup_range (List.mem_range.2 (by omega)) ?_]
    · rw [Nat.sub_add_cancel hpos]
      simp [hfd]
    · intro j hj hne
      have hjm := List.mem_range.1 hj
      refine if_neg fun hc => hne ?_
      have := h.distinct (j + 1) i fd (by omega) hi hc.1 hfd
      omega
  rw [scanTo_eq h hown hone (Nat.lt_succ_self m), acts_append, hfirst, hrest]

theorem acts_scan_other (h : Ok n listen t.slots t.trace) (hown : Own n t.slots ready)
    (hfresh : Fresh listen (scanTo n listen ready ans n t).trace) (hn : 0 < n)
    (hfd : ∀ i, 0 < i → i < n → t.slots i ≠ some fd) (hroom : ready 0 listen = true →
      ans.accept 0 ≠ none → firstFree n t.slots ≠ none) :
    acts (scanTo n listen ready ans n t).trace fd = acts t.trace fd ++
      if ready 0 listen = true ∧ ans.accept 0 = some fd then [.accepted] else [] := by
  obtain ⟨m, rfl⟩ := Nat.exists_eq_succ_of_ne_zero hn.ne'
  have hone := scanTo_fresh (k := 1) (by omega) le_rfl hfresh
  have hrest : acts ((List.range m).flatMap fun j => reads ready ans t.slots (j + 1)) fd = [] := by
    rw [acts_flatMap]
    refine List.flatMap_eq_nil_iff.2 fun j hj => ?_
    have hjm := List.mem_range.1 hj
    rw [acts_reads]
    exact if_neg fun hc => hfd (j + 1) (Nat.succ_pos j) (by omega) hc.1
  rw [scanTo_eq h hown hone (Nat.lt_succ_self m), acts_append, hrest, List.append_nil,
    scanTo_one h.listening]
  by_cases hready : ready 0 listen = true
  · rw [if_pos hready]
    cases hacc : ans.accept 0 with
    | none => simp [accepter, acts, Call.act]
    | some sock =>
      obtain ⟨i, hi⟩ := Option.ne_none_iff_exists'.1 (hroom hready (by simp [hacc]))
      by_cases hsock : sock = fd <;> simp [accepter, hi, acts, Call.act, hready, hsock]
  · rw [if_neg hready, if_neg fun hc => hready hc.1, List.append_nil]

/-- **The client stays** unless what was read ends its connection. -/
theorem isLive_scan (h : Reach n listen t) (hown : Own n t.slots ready)
    (hfresh : Fresh listen (scanTo n listen ready ans n t).trace) (hpos : 0 < i) (hi : i < n)
    (hfd : t.slots i = some fd) : isLive (scanTo n listen ready ans n t).trace fd =
      !(ready i fd && quits (ans.recv i)) := by
  have hok : Ok n listen t.slots t.trace := h.ok_before le_rfl hfresh
  have hlive : fd ∈ live t.trace := (hok.tracked fd).1 ⟨i, hpos, hi, hfd⟩
  have hbefore : Story true (acts t.trace fd) := by
    simpa [isLive, hlive] using h.storied (scanTo_fresh (Nat.zero_le n) le_rfl hfresh) fd
  have hafter := (h.scan ans hown).storied hfresh fd
  rw [acts_scan hok hown hfresh hpos hi hfd] at hafter
  cases hready : ready i fd with
  | true =>
    rw [hready, if_pos rfl] at hafter
    rw [hafter.unique (hbefore.turn _), Bool.true_and]
  | false =>
    rw [hready, if_neg Bool.false_ne_true, List.append_nil] at hafter
    rw [hafter.unique hbefore, Bool.false_and, Bool.not_false]

end Table

/-! ### Turns seen from one client -/

/-- What the kernel holds for one client at the beginning of `k` turns one after the other. Turn `j`
takes the first `size j` bytes of what is waiting, where `size j` is at least `b` and at most the
1023 that are asked for, and then the client sends what it likes, until its end has shut down. -/
structure Flow (b k : ℕ) (waiting sent : ℕ → Bytes) (size : ℕ → ℕ) (shut : ℕ → Bool) : Prop where
  enough : ∀ j < k, b ≤ size j ∧ size j ≤ 1023
  left : ∀ j < k, waiting (j + 1) = (waiting j).drop (size j) ++ sent j
  shut : ∀ j < k, shut j = true → shut (j + 1) = true ∧ sent j = []

theorem Flow.shut_of_zero {b k j : ℕ} {waiting sent : ℕ → Bytes} {size : ℕ → ℕ} {shut : ℕ → Bool}
    (h : Flow b k waiting sent size shut) (h0 : shut 0 = true) (hj : j ≤ k) : shut j = true := by
  induction j with
  | zero => exact h0
  | succ j ih => exact (h.shut j hj (ih (by omega))).1

/-- The client has sent its last byte, and the server has read it. -/
def AtEnd (waiting : ℕ → Bytes) (shut : ℕ → Bool) (j : ℕ) : Prop :=
  waiting j = [] ∧ shut j = true

/-- After `j` turns the client has not been disconnected, and nothing of what it sent was lost. -/
structure Heard (b j : ℕ) (fd : Fd) (before after : List Call) (waiting sent : ℕ → Bytes) :
    Prop where
  live : fd ∈ live after
  exact : heard after fd ++ waiting j = heard before fd ++ waiting 0 ++ (List.range j).flatMap sent
  atLeast : (heard before fd).length + min (b * j) (waiting 0).length ≤ (heard after fd).length

/-- What the client on `fd` is given in `k` turns. -/
structure Cared (b k : ℕ) (fd : Fd) (trace : ℕ → List Call) (waiting sent : ℕ → Bytes)
    (shut : ℕ → Bool) : Prop where
  heard : ∀ j ≤ k, (∀ i < j, ¬ AtEnd waiting shut i) →
    Heard b j fd (trace 0) (trace j) waiting sent
  ended : ∀ j < k, (∀ i < j, ¬ AtEnd waiting shut i) → AtEnd waiting shut j →
    fd ∉ live (trace (j + 1)) ∧
      acts (trace (j + 1)) fd = acts (trace j) fd ++ [.read (.bytes []), .closed]
  /-- A client that has ended its stream is heard to the end and disconnected in time. -/
  closed : shut 0 = true → ∀ m < k, (waiting 0).length ≤ b * m → ∃ j ≤ m,
    Multiplex.heard (trace j) fd = Multiplex.heard (trace 0) fd ++ waiting 0 ∧
      fd ∉ live (trace (j + 1))

theorem heard_turn {trace trace' : List Call} {fd : Fd} {buff : Bytes}
    (h : acts trace' fd = acts trace fd ++ turn (.bytes buff)) :
    heard trace' fd = heard trace fd ++ buff := by
  unfold heard
  rw [h]
  by_cases hb : buff.length = 0
  · obtain rfl := List.length_eq_zero_iff.1 hb
    simp [turn, pieces]
  · simp [turn, pieces, hb]

namespace Table

/-- Turns of the table of which each reports the client on `fd` when it has something for the
server, and then gives it. -/
structure Watched (n : ℕ) (listen fd : Fd) (k : ℕ) (t : ℕ → Table) (ready : ℕ → ℕ → Fd → Bool)
    (ans : ℕ → Answers) (waiting : ℕ → Bytes) (size : ℕ → ℕ) (shut : ℕ → Bool) : Prop where
  start : Reach n listen (t 0)
  scanned : ∀ j < k, t (j + 1) = scanTo n listen (ready j) (ans j) n (t j)
  own : ∀ j < k, Own n (t j).slots (ready j)
  fresh : ∀ j ≤ k, Fresh listen (t j).trace
  reported : ∀ j < k, ∀ i < n, (t j).slots i = some fd →
    (ready j i fd = true ↔ waiting j ≠ [] ∨ shut j = true)
  given : ∀ j < k, ∀ i < n, (t j).slots i = some fd → ready j i fd = true →
    (ans j).recv i = .bytes ((waiting j).take (size j))

variable {n b k j : ℕ} {listen fd : Fd} {t : ℕ → Table} {ready : ℕ → ℕ → Fd → Bool}
  {ans : ℕ → Answers} {waiting sent : ℕ → Bytes} {size : ℕ → ℕ} {shut : ℕ → Bool}

theorem Watched.reach (h : Watched n listen fd k t ready ans waiting size shut) (hj : j ≤ k) :
    Reach n listen (t j) := by
  induction j with
  | zero => exact h.start
  | succ j ih =>
    rw [h.scanned j hj]
    exact (ih (by omega)).scan _ (h.own j hj)

/-- **One turn for the client**: it is read when it has something for the server, and leaves when
that is the end of its stream. -/
theorem Watched.next (h : Watched n listen fd k t ready ans waiting size shut) (hj : j < k)
    (hsize : 0 < size j) (hlive : fd ∈ live (t j).trace) :
    (waiting j = [] ∧ shut j = false → acts (t (j + 1)).trace fd = acts (t j).trace fd ∧
      fd ∈ live (t (j + 1)).trace) ∧
    (waiting j ≠ [] ∨ shut j = true → acts (t (j + 1)).trace fd =
        acts (t j).trace fd ++ turn (.bytes ((waiting j).take (size j))) ∧
      (fd ∈ live (t (j + 1)).trace ↔ waiting j ≠ [])) := by
  have hfresh := h.fresh (j + 1) hj
  obtain ⟨i, hpos, hi, hfd⟩ := (((h.reach hj.le).ok (h.fresh j hj.le)).tracked fd).2 hlive
  have hacts := acts_scan ((h.reach hj.le).ok (h.fresh j hj.le)) (h.own j hj)
    (h.scanned j hj ▸ hfresh) hpos hi hfd
  have hflag := isLive_scan (h.reach hj.le) (h.own j hj) (h.scanned j hj ▸ hfresh) hpos hi hfd
  rw [← h.scanned j hj] at hacts hflag
  have hrep := h.reported j hj i hi hfd
  constructor
  · rintro ⟨hw, ho⟩
    have hready : ready j i fd = false := by simpa [hw, ho] using hrep
    rw [hready] at hacts hflag
    exact ⟨by simpa using hacts, by simpa [isLive] using hflag⟩
  · intro hw
    have hready := hrep.2 hw
    have hgiven := h.given j hj i hi hfd hready
    rw [hready, hgiven] at hacts hflag
    refine ⟨by simpa using hacts, ?_⟩
    have htake : (waiting j).take (size j) = [] ↔ waiting j = [] :=
      List.take_eq_nil_iff.trans (or_iff_right hsize.ne')
    have hquits : quits (.bytes ((waiting j).take (size j))) = true ↔ waiting j = [] := by
      rw [← htake]
      simp [quits]
    rw [Bool.true_and] at hflag
    rw [Ne, ← hquits, Bool.not_eq_true, ← Bool.not_eq_true', ← hflag]
    simp [isLive]

section Watched

variable (h : Watched n listen fd k t ready ans waiting size shut)
  (hflow : Flow b k waiting sent size shut) (hb : 0 < b) (hlive : fd ∈ live (t 0).trace)

include h hflow hb hlive

/-- **The client is heard** as long as its stream has not come to its end. -/
theorem Watched.heard (hj : j ≤ k) (hend : ∀ i < j, ¬ AtEnd waiting shut i) :
    Heard b j fd (t 0).trace (t j).trace waiting sent := by
  induction j with
  | zero => exact ⟨hlive, by simp, by simp⟩
  | succ j ih =>
    obtain ⟨hl, hexact, hleast⟩ := ih (by omega) fun i hi => hend i (by omega)
    have hsize := (hflow.enough j hj).1
    obtain ⟨hidle, hserved⟩ := h.next hj (by omega) hl
    -- what is heard in this turn is taken from what was waiting
    have hgot : Multiplex.heard (t (j + 1)).trace fd =
          Multiplex.heard (t j).trace fd ++ (waiting j).take (size j) ∧
        fd ∈ live (t (j + 1)).trace := by
      by_cases hw : waiting j = []
      · have ho : shut j = false := by simpa [AtEnd, hw] using hend j (Nat.lt_succ_self j)
        obtain ⟨hacts, hl'⟩ := hidle ⟨hw, ho⟩
        exact ⟨by simp [Multiplex.heard, hacts, hw], hl'⟩
      · obtain ⟨hacts, hl'⟩ := hserved (Or.inl hw)
        exact ⟨heard_turn hacts, hl'.2 hw⟩
    refine ⟨hgot.2, ?_, ?_⟩
    · rw [hgot.1, hflow.left j hj, List.append_assoc, ← List.append_assoc (List.take _ _),
        List.take_append_drop, ← List.append_assoc, hexact, List.range_succ,
        List.flatMap_append, List.flatMap_singleton, List.append_assoc]
    · have hlen := congrArg List.length hexact
      simp only [List.length_append] at hlen
      rw [hgot.1, List.length_append, List.length_take, Nat.mul_succ]
      omega

theorem Watched.ended (hj : j < k) (hend : ∀ i < j, ¬ AtEnd waiting shut i)
    (hat : AtEnd waiting shut j) : fd ∉ live (t (j + 1)).trace ∧
      acts (t (j + 1)).trace fd = acts (t j).trace fd ++ [.read (.bytes []), .closed] := by
  obtain ⟨hl, -, -⟩ := h.heard hflow hb hlive hj.le hend
  have hsize := (hflow.enough j hj).1
  obtain ⟨hacts, hl'⟩ := (h.next hj (by omega) hl).2 (Or.inr hat.2)
  refine ⟨fun hc => hl'.1 hc hat.1, ?_⟩
  rw [hacts, hat.1, List.take_nil]
  rfl

theorem Watched.cared : Cared b k fd (fun j => (t j).trace) waiting sent shut := by
  refine ⟨fun j hj hend => h.heard hflow hb hlive hj hend, fun j hj hend hat =>
    h.ended hflow hb hlive hj hend hat, fun h0 m hm hlen => ?_⟩
  have hshut : ∀ j ≤ k, shut j = true := fun j hj => hflow.shut_of_zero h0 hj
  have hexact : ∀ j ≤ k, (∀ i < j, ¬ AtEnd waiting shut i) →
      Multiplex.heard (t j).trace fd ++ waiting j =
        Multiplex.heard (t 0).trace fd ++ waiting 0 := by
    intro j hj hend
    have hsent : (List.range j).flatMap sent = [] := List.flatMap_eq_nil_iff.2 fun i hi => by
      have hij := List.mem_range.1 hi
      exact (hflow.shut i (by omega) (hshut i (by omega))).2
    rw [(h.heard hflow hb hlive hj hend).exact, hsent, List.append_nil]
  -- the first turn that finds the stream at its end is at most the `m`th
  obtain ⟨j, hjm, hat, hend⟩ : ∃ j ≤ m, AtEnd waiting shut j ∧
      ∀ i < j, ¬ AtEnd waiting shut i := by
    classical
    by_cases hex : ∃ j, j ≤ m ∧ AtEnd waiting shut j
    · obtain ⟨hjm, hat⟩ := Nat.find_spec hex
      exact ⟨Nat.find hex, hjm, hat, fun i hi hc => Nat.find_min hex hi ⟨by omega, hc⟩⟩
    · have hend : ∀ i < m, ¬ AtEnd waiting shut i := fun i hi hc => hex ⟨i, hi.le, hc⟩
      have hleast := (h.heard hflow hb hlive hm.le hend).atLeast
      have hlength := congrArg List.length (hexact m hm.le hend)
      simp only [List.length_append] at hlength
      have hnil : waiting m = [] := List.length_eq_zero_iff.1 (by omega)
      exact absurd ⟨m, le_rfl, hnil, hshut m hm.le⟩ hex
  refine ⟨j, hjm, ?_, (h.ended hflow hb hlive (by omega) hend hat).1⟩
  have := hexact j (by omega) hend
  rwa [hat.1, List.append_nil] at this

end Watched

end Table

/-! ### Both servers -/

/-- Turns of the select server in which `select` reports the client on `fd` exactly when it has
something for the server, and `recv` then gives it. -/
structure SelectServer.Watched (listen fd : Fd) (k : ℕ) (s : ℕ → SelectServer) (r : ℕ → Round)
    (waiting : ℕ → Bytes) (size : ℕ → ℕ) (shut : ℕ → Bool) : Prop where
  reach : Reach listen (s 0)
  start : ∀ j < k, (s j).start (r j) = some (s (j + 1))
  fresh : ∀ j ≤ k, Fresh listen (s j).trace
  reported : ∀ j < k, ∀ i < NUM, (s j).sockArray i = some fd →
    ((r j).ret > 0 ∧ (r j).fs fd = true ↔ waiting j ≠ [] ∨ shut j = true)
  given : ∀ j < k, ∀ i < NUM, (s j).sockArray i = some fd → waiting j ≠ [] ∨ shut j = true →
    (r j).ans.recv i = .bytes ((waiting j).take (size j))

/-- The same turns of the poll server. -/
structure PollServer.Watched (listen fd : Fd) (k : ℕ) (s : ℕ → PollServer) (r : ℕ → Round)
    (waiting : ℕ → Bytes) (size : ℕ → ℕ) (shut : ℕ → Bool) : Prop where
  reach : Reach listen (s 0)
  start : ∀ j < k, s (j + 1) = (s j).start (r j)
  fresh : ∀ j ≤ k, Fresh listen (s j).trace
  reported : ∀ j < k, ∀ i < nfds, ((s j).fds i).fd = some fd →
    ((r j).n > 0 ∧ (r j).revents i &&& POLLIN ≠ 0 ↔ waiting j ≠ [] ∨ shut j = true)
  given : ∀ j < k, ∀ i < nfds, ((s j).fds i).fd = some fd → waiting j ≠ [] ∨ shut j = true →
    (r j).ans.recv i = .bytes ((waiting j).take (size j))

section Both

variable {listen fd : Fd} {k : ℕ} {waiting : ℕ → Bytes} {size : ℕ → ℕ} {shut : ℕ → Bool}

theorem SelectServer.Watched.table {s : ℕ → SelectServer} {r : ℕ → Round}
    (h : Watched listen fd k s r waiting size shut) : Table.Watched NUM listen fd k
      (fun j => (s j).table) (fun j => (s j).ready (r j)) (fun j => (r j).ans) waiting size
      shut := by
  have hready : ∀ j < k, ∀ i < NUM, (s j).sockArray i = some fd →
      ((s j).ready (r j) i fd = true ↔ waiting j ≠ [] ∨ shut j = true) := by
    intro j hj i hi hfd
    rw [← h.reported j hj i hi hfd]
    have hmem : fd ∈ (s j).socks := mem_socks.2 ⟨i, hi, hfd⟩
    simp [ready, selected_iff, hmem]
  have hlisten : ∀ j ≤ k, (s j).listenSock = listen := by
    intro j hj
    induction j with
    | zero => exact h.reach.table.1
    | succ j ih => exact (startTo_table (h.start j hj)).1.trans (ih (by omega))
  refine ⟨h.reach.table.2, fun j hj => ?_, fun j _ => own_ready (s j) (r j), h.fresh, hready,
    fun j hj i hi hfd hr => h.given j hj i hi hfd ((hready j hj i hi hfd).1 hr)⟩
  rw [← hlisten j hj.le]
  exact (startTo_table (h.start j hj)).2

theorem PollServer.Watched.table {s : ℕ → PollServer} {r : ℕ → Round}
    (h : Watched listen fd k s r waiting size shut) : Table.Watched nfds listen fd k
      (fun j => (s j).table) (fun j => (s j).ready (r j)) (fun j => (r j).ans) waiting size
      shut := by
  have hready : ∀ j < k, ∀ i < nfds, ((s j).fds i).fd = some fd →
      ((s j).ready (r j) i fd = true ↔ waiting j ≠ [] ∨ shut j = true) := by
    intro j hj i hi hfd
    rw [← h.reported j hj i hi hfd]
    simp [ready, hfd, FD_NONE]
  have hlisten : ∀ j ≤ k, (s j).listenSock = listen := by
    intro j hj
    induction j with
    | zero => exact h.reach.table.1
    | succ j ih =>
      rw [h.start j hj]
      exact (startTo_table (s j) nfds (r j)).1.trans (ih (by omega))
  refine ⟨h.reach.table.2, fun j hj => ?_, fun j _ => own_ready (s j) (r j), h.fresh, hready,
    fun j hj i hi hfd hr => h.given j hj i hi hfd ((hready j hj i hi hfd).1 hr)⟩
  rw [← hlisten j hj.le, h.start j hj]
  exact (startTo_table (s j) nfds (r j)).2

end Both

/-- **No client is starved**, whatever the other clients do, in turns of either server that report
it when it has something: after `j` turns at least `b * j` bytes of what was waiting have been
heard, if `recv` gives at least `b` each time, nothing is lost or reordered, and it is disconnected
once its stream has ended and has been heard, not earlier. -/
theorem nobody_starves {listen fd : Fd} {b k : ℕ} {waiting sent : ℕ → Bytes} {size : ℕ → ℕ}
    {shut : ℕ → Bool} (hflow : Flow b k waiting sent size shut) (hb : 0 < b) :
    (∀ (s : ℕ → SelectServer) (r : ℕ → SelectServer.Round),
      SelectServer.Watched listen fd k s r waiting size shut → fd ∈ live (s 0).trace →
      Cared b k fd (fun j => (s j).trace) waiting sent shut) ∧
    (∀ (s : ℕ → PollServer) (r : ℕ → PollServer.Round),
      PollServer.Watched listen fd k s r waiting size shut → fd ∈ live (s 0).trace →
      Cared b k fd (fun j => (s j).trace) waiting sent shut) :=
  ⟨fun _ _ h hlive => h.table.cared hflow hb hlive,
    fun _ _ h hlive => h.table.cared hflow hb hlive⟩

theorem fresh_heard {listen fd : Fd} (h : fd ≠ listen) (a : RecvAns) (text : Bytes) :
    Fresh listen [.accept listen (some fd), .recv fd a, .message fd text] :=
  always_concat₂ (t := [.accept listen (some fd)]).2
    ⟨fresh_accept h, fun _ _ hc => (by cases hc), fun _ _ hc => by cases hc⟩

theorem SelectServer.start_hears : ∃ s s', (SelectServer.init 3).start
      ⟨1, fun _ => true, ⟨fun _ => some 5, fun _ => .bytes []⟩⟩ = some s ∧
    s.start ⟨1, fun fd => fd = 5, ⟨fun _ => none, fun _ => .bytes [104, 105]⟩⟩ = some s' ∧
    s.trace = [.accept 3 (some 5)] ∧
    s'.trace = [.accept 3 (some 5), .recv 5 (.bytes [104, 105]), .message 5 [104, 105]] := by
  obtain ⟨s, hs, htrace⟩ := SelectServer.start_accept
  have h : (((SelectServer.init 3).start
      ⟨1, fun _ => true, ⟨fun _ => some 5, fun _ => .bytes []⟩⟩).bind fun s => s.start
        ⟨1, fun fd => fd = 5, ⟨fun _ => none, fun _ => .bytes [104, 105]⟩⟩).map
          SelectServer.trace =
      some [.accept 3 (some 5), .recv 5 (.bytes [104, 105]), .message 5 [104, 105]] := by
    decide +kernel
  rw [hs, Option.bind_some] at h
  obtain ⟨s', hs', htrace'⟩ := Option.map_eq_some_iff.1 h
  exact ⟨s, s', hs, hs', htrace, htrace'⟩

theorem PollServer.start_hears : ∃ s s', PollServer.Reach 3 s ∧ s' = s.start
      ⟨1, fun i => if i = 1 then 1 else 0, ⟨fun _ => none, fun _ => .bytes [104, 105]⟩⟩ ∧
    (∀ i < nfds, (s.fds i).fd = some 5 → i = 1) ∧ s.trace = [.accept 3 (some 5)] ∧
    s'.trace = [.accept 3 (some 5), .recv 5 (.bytes [104, 105]), .message 5 [104, 105]] :=
  ⟨_, _, .start (.init fun _ => 1) ⟨1, fun _ => 1, ⟨fun _ => some 5, fun _ => .bytes []⟩⟩, rfl,
    by decide +kernel, PollServer.start_accept, by decide +kernel⟩

/-- A client that has sent two bytes is heard in the next turn. -/
theorem nobody_starves_example :
    (∃ s : ℕ → SelectServer, (s 0).trace = [.accept 3 (some 5)] ∧
      Cared 1023 1 5 (fun j => (s j).trace) (fun j => if j = 0 then [104, 105] else [])
        (fun _ => []) fun _ => false) ∧
    (∃ s : ℕ → PollServer, (s 0).trace = [.accept 3 (some 5)] ∧
      Cared 1023 1 5 (fun j => (s j).trace) (fun j => if j = 0 then [104, 105] else [])
        (fun _ => []) fun _ => false) := by
  have hflow : Flow 1023 1 (fun j => if j = 0 then [104, 105] else []) (fun _ => [])
      (fun _ => 1023) fun _ => false :=
    ⟨fun _ _ => ⟨le_rfl, le_rfl⟩, fun j hj => (by obtain rfl := Nat.lt_one_iff.1 hj; rfl),
      fun _ _ h => by cases h⟩
  have hlive : 5 ∈ live [.accept 3 (some 5)] := by decide
  constructor
  · obtain ⟨s, s', hs, hs', htrace, htrace'⟩ := SelectServer.start_hears
    refine ⟨fun j => if j = 0 then s else s', htrace, ?_⟩
    refine (nobody_starves hflow (by decide)).1 _
      (fun _ => ⟨1, fun fd => fd = 5, ⟨fun _ => none, fun _ => .bytes [104, 105]⟩⟩)
      ⟨.start .init hs, fun j hj => ?_, fun j hj => ?_, fun j hj i _ _ => ?_,
        fun j hj i _ _ _ => ?_⟩ (htrace ▸ hlive)
    · obtain rfl := Nat.lt_one_iff.1 hj
      exact hs'
    · split
      · exact htrace ▸ fresh_accept (by decide)
      · exact htrace' ▸ fresh_heard (by decide) _ _
    · obtain rfl := Nat.lt_one_iff.1 hj
      simp
    · obtain rfl := Nat.lt_one_iff.1 hj
      rfl
  · obtain ⟨s, s', hs, hs', hslot, htrace, htrace'⟩ := PollServer.start_hears
    refine ⟨fun j => if j = 0 then s else s', htrace, ?_⟩
    refine (nobody_starves hflow (by decide)).2 _
      (fun _ => ⟨1, fun i => if i = 1 then 1 else 0, ⟨fun _ => none, fun _ => .bytes [104, 105]⟩⟩)
      ⟨hs, fun j hj => ?_, fun j hj => ?_, fun j hj i hi hfd => ?_, fun j hj i _ _ _ => ?_⟩
      (htrace ▸ hlive)
    · obtain rfl := Nat.lt_one_iff.1 hj
      exact hs'
    · split
      · exact htrace ▸ fresh_accept (by decide)
      · exact htrace' ▸ fresh_heard (by decide) _ _
    · obtain rfl := Nat.lt_one_iff.1 hj
      obtain rfl := hslot i hi hfd
      simp [POLLIN]
    · obtain rfl := Nat.lt_one_iff.1 hj
      rfl

end NetProg.Multiplex
