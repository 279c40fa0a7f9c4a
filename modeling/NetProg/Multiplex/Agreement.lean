import NetProg.Multiplex.Monitoring

/-!
# The poll server refines the select server

Both are driven by the same turns: the same descriptors are ready and the same calls are answered in
the same way. Their tables differ in size only, so while the smaller one has room the two scans stay
in step (`Table.Agree.scanTo`), and the rest of the larger table is never used.

* `Table.Agree.scan`: a scan of the larger table agrees with a scan of the smaller one;
* `poll_refines_select`: after every turn the arrays and the calls are the same.
-/

namespace NetProg.Multiplex

open NetProg.Lib NetProg.Reactor Function

namespace Table

/-! ### Two tables that differ in size -/

/-- `t` with `m` slots and `u` with `n` slots hold the same, in the same slots. -/
structure Agree (n m : ℕ) (t u : Table) : Prop where
  slots : ∀ i < n, t.slots i = u.slots i
  free : ∀ i, n ≤ i → i < m → t.slots i = none
  trace : t.trace = u.trace

variable {n m k : ℕ} {listen : Fd} {ready ready' : ℕ → Fd → Bool} {ans : Answers} {t u : Table}

theorem Agree.accepter (h : Agree n m t u) (hnm : n ≤ m) {r : Option Fd}
    (hroom : ∀ fd, r = some fd → firstFree n u.slots ≠ none) :
    Agree n m (Table.accepter m listen t r) (Table.accepter n listen u r) := by
  cases r with
  | none => exact ⟨h.slots, h.free, by simp [Table.accepter, h.trace]⟩
  | some sock =>
    obtain ⟨i, hi⟩ := Option.ne_none_iff_exists'.1 (hroom sock rfl)
    have hin : i < n := (firstFree_eq_some.1 hi).1
    have hi' : firstFree m t.slots = some i :=
      firstFree_mono hnm (fun j hj => (h.slots j hj).symm) hi
    have ht : Table.accepter m listen t (some sock) =
        ⟨update t.slots i (some sock), t.trace ++ [.accept listen (some sock)]⟩ := by
      simp only [Table.accepter, hi']
    have hu : Table.accepter n listen u (some sock) =
        ⟨update u.slots i (some sock), u.trace ++ [.accept listen (some sock)]⟩ := by
      simp only [Table.accepter, hi]
    rw [ht, hu]
    refine ⟨fun j hj => ?_, fun j hj hjm => ?_, by rw [h.trace]⟩
    · simp only [update_apply, h.slots j hj]
    · simp only [update_apply, if_neg (show j ≠ i by omega)]
      exact h.free j hj hjm

theorem scanTo_free (hk : k ≤ m)
    (hfree : ∀ i, k ≤ i → i < m → (scanTo n listen ready ans k t).slots i = none) :
    scanTo n listen ready ans m t = scanTo n listen ready ans k t := by
  induction m with
  | zero => rw [Nat.le_zero.1 hk]
  | succ m ih =>
    by_cases hkm : k = m + 1
    · rw [hkm]
    · have hbefore := ih (by omega) fun i hi him => hfree i hi (by omega)
      rw [scanTo_succ, hbefore]
      exact visit_none (hfree m (by omega) (Nat.lt_succ_self m))

section Scan

variable (h : Agree n m t u) (hready : ∀ i < n, ∀ fd, u.slots i = some fd →
  ready i fd = ready' i fd)

include h hready

theorem Agree.reads {i : ℕ} (hi : i < n) :
    reads ready ans t.slots i = reads ready' ans u.slots i := by
  unfold Table.reads
  rw [h.slots i hi]
  cases hs : u.slots i with
  | none => rfl
  | some sock => simp only [hready i hi sock hs]

theorem Agree.leaves {i : ℕ} (hi : i < n) :
    leaves ready ans t.slots i = leaves ready' ans u.slots i := by
  unfold Table.leaves
  rw [h.slots i hi]
  cases hs : u.slots i with
  | none => rfl
  | some sock => simp only [hready i hi sock hs]

theorem Agree.scanTo_one (hn : 0 < n) (hnm : n ≤ m) (ht : t.slots 0 = some listen)
    (hroom : ∀ fd, ready' 0 listen = true → ans.accept 0 = some fd →
      firstFree n u.slots ≠ none) :
    Agree n m (scanTo m listen ready ans 1 t) (scanTo n listen ready' ans 1 u) := by
  have hu : u.slots 0 = some listen := (h.slots 0 hn).symm.trans ht
  rw [Table.scanTo_one ht, Table.scanTo_one hu, hready 0 hn listen hu]
  split
  · rename_i hr
    exact h.accepter hnm fun fd hfd => hroom fd hr hfd
  · exact h

end Scan

/-- **Scans of two tables agree** while the smaller one has room. -/
theorem Agree.scanTo (h : Agree n m t u) (hready : ∀ i < n, ∀ fd, u.slots i = some fd →
      ready i fd = ready' i fd) (hnm : n ≤ m) (hk : k ≤ n) (ht : Ok m listen t.slots t.trace)
    (hu : Ok n listen u.slots u.trace) (hown : Own m t.slots ready)
    (hown' : Own n u.slots ready')
    (hfresh : Fresh listen (Table.scanTo n listen ready' ans k u).trace)
    (hroom : Roomy n (Table.scanTo n listen ready' ans k u).trace) :
    Agree n m (Table.scanTo m listen ready ans k t) (Table.scanTo n listen ready' ans k u) := by
  rcases k with - | k
  · exact h
  have hfirst : Fresh listen (Table.scanTo n listen ready' ans 1 u).trace :=
    scanTo_fresh (by omega) hk hfresh
  have hone : Agree n m (Table.scanTo m listen ready ans 1 t)
      (Table.scanTo n listen ready' ans 1 u) := by
    refine h.scanTo_one hready (by omega) hnm ht.listening fun fd hr hacc => ?_
    apply hu.firstFree_ne_none
    obtain ⟨v, hv⟩ : ∃ v, (Table.scanTo n listen ready' ans (k + 1) u).trace =
      (Table.scanTo n listen ready' ans 1 u).trace ++ v := scanTo_mono (by omega) hk
    obtain ⟨w, hw, -⟩ := accepter_trace n listen u (ans.accept 0)
    rw [hv, Table.scanTo_one hu.listening, if_pos hr, hw, List.append_assoc,
      List.cons_append] at hroom
    exact hroom u.trace _ _ rfl listen fd (by rw [hacc])
  rw [scanTo_eq ht hown (hone.trace ▸ hfirst) (by omega), scanTo_eq hu hown' hfirst hk]
  refine ⟨fun i hi => ?_, fun i hi him => ?_, ?_⟩
  · simp only [slotsAfter, hone.slots i hi, h.leaves hready hi]
  · exact (slotsAfter_of_lt _ (by omega)).trans (hone.free i hi him)
  · simp only [hone.trace]
    congr 1
    refine List.flatMap_congr fun i hi => ?_
    have hik := List.mem_range.1 hi
    exact h.reads hready (by omega)

/-- **Whole scans agree**: what the larger table has more is free, so its visits change nothing. -/
theorem Agree.scan (h : Agree n m t u) (hready : ∀ i < n, ∀ fd, u.slots i = some fd →
      ready i fd = ready' i fd) (hnm : n ≤ m) (ht : Ok m listen t.slots t.trace)
    (hu : Ok n listen u.slots u.trace) (hown : Own m t.slots ready)
    (hown' : Own n u.slots ready')
    (hfresh : Fresh listen (Table.scanTo n listen ready' ans n u).trace)
    (hroom : Roomy n (Table.scanTo n listen ready' ans n u).trace) :
    Agree n m (Table.scanTo m listen ready ans m t) (Table.scanTo n listen ready' ans n u) := by
  have hscan : Agree n m (Table.scanTo m listen ready ans n t)
      (Table.scanTo n listen ready' ans n u) :=
    h.scanTo hready hnm le_rfl ht hu hown hown' hfresh hroom
  rw [scanTo_free hnm hscan.free]
  exact hscan

end Table

/-! ### The descriptors are in range -/

/-- A live descriptor was accepted. -/
theorem exists_accept_of_mem_live {fd : Fd} {trace : List Call} (h : fd ∈ live trace) :
    ∃ sock, .accept sock (some fd) ∈ trace := by
  induction trace using List.reverseRecOn with
  | nil => simp at h
  | append_singleton trace c ih =>
    have hbefore : fd ∈ live trace → ∃ sock, .accept sock (some fd) ∈ trace ++ [c] := by
      intro hfd
      obtain ⟨sock, hm⟩ := ih hfd
      exact ⟨sock, List.mem_append_left _ hm⟩
    rw [live_concat] at h
    cases c with
    | accept sock r =>
      cases r with
      | none => exact hbefore h
      | some fd' =>
        rcases List.mem_cons.1 h with rfl | h
        · exact ⟨sock, by simp⟩
        · exact hbefore h
    | close fd' => exact hbefore (List.mem_of_mem_erase h)
    | recv sock a => exact hbefore h
    | message sock text => exact hbefore h

theorem Table.Ok.lt_of_slot {n b i : ℕ} {listen fd : Fd} {slots : ℕ → Option Fd}
    {trace u : List Call} (h : Table.Ok n listen slots trace) (hi : i < n)
    (hfd : slots i = some fd) (hl : listen < b)
    (hsmall : ∀ sock fd, .accept sock (some fd) ∈ trace ++ u → fd < b) : fd < b := by
  by_cases hne : fd = listen
  · exact hne ▸ hl
  · obtain ⟨sock, hm⟩ := exists_accept_of_mem_live
      ((h.tracked fd).1 ⟨i, h.pos_of_ne hfd hne, hi, hfd⟩)
    exact hsmall sock fd (List.mem_append_left _ hm)

namespace SelectServer

variable {s : SelectServer} {fs : Fd → Bool} {ans : Answers} {r : Round} {k : ℕ}

theorem handleTo_isSome (h : ∀ j < k, ∀ fd, (Table.scanTo NUM s.listenSock (fun _ fd => fs fd) ans j
    s.table).slots j = some fd → fd < FD_SETSIZE) : ∃ s', s.handleTo k fs ans = some s' := by
  induction k with
  | zero => exact ⟨s, rfl⟩
  | succ k ih =>
    obtain ⟨t, ht⟩ := ih fun j hj => h j (by omega)
    have hslots : t.sockArray = _ := congrArg Table.slots (handleTo_table ht).2
    rw [handleTo_succ, ht]
    exact visit_isSome fun sock hsock => h k (Nat.lt_succ_self k) sock (hslots ▸ hsock)

/-- A turn has a meaning when the descriptors in the array are in range at its start and when they
are visited. -/
theorem startTo_isSome (hsocks : ∀ fd ∈ s.socks, fd < FD_SETSIZE)
    (h : ∀ j < k, ∀ fd, (Table.scanTo NUM s.listenSock (s.ready r) r.ans j
      s.table).slots j = some fd → fd < FD_SETSIZE) : ∃ s', s.startTo k r = some s' := by
  unfold startTo
  rw [if_pos (by simpa using hsocks)]
  split
  · rename_i hret
    exact handleTo_isSome (ready_of_pos hret ▸ h)
  · exact ⟨s, rfl⟩

end SelectServer

/-! ### The servers in step -/

/-- Both servers find the same tracked descriptors ready, and get the same answers. -/
structure SameTurn (q : PollServer) (sr : SelectServer.Round) (pr : PollServer.Round) : Prop where
  ready : ∀ i < nfds, ∀ fd, (q.fds i).fd = some fd →
    (sr.ret > 0 ∧ sr.fs fd = true ↔ pr.n > 0 ∧ pr.revents i &&& POLLIN ≠ 0)
  ans : sr.ans = pr.ans

/-- The two servers after the same turns. There is no select server any more when it has used its
`fd_set` out of range. -/
inductive InStep (listen : Fd) : Option SelectServer → PollServer → Prop
  | init (garbage : ℕ → UInt16) :
      InStep listen (some (.init listen)) (.init listen garbage)
  | start {s : Option SelectServer} {q : PollServer} {sr : SelectServer.Round}
      {pr : PollServer.Round} (h : InStep listen s q) (hturn : SameTurn q sr pr) :
      InStep listen (s.bind fun s => s.start sr) (q.start pr)

theorem InStep.reach {listen : Fd} {s : Option SelectServer} {q : PollServer}
    (h : InStep listen s q) :
    PollServer.Reach listen q ∧ ∀ t, s = some t → SelectServer.Reach listen t := by
  induction h with
  | init garbage =>
    refine ⟨.init garbage, fun t ht => ?_⟩
    obtain rfl := Option.some.inj ht
    exact .init
  | @start s q sr pr _ _ ih =>
    refine ⟨.start ih.1 pr, fun t ht => ?_⟩
    obtain ⟨s', hs', hstart⟩ := Option.bind_eq_some_iff.1 ht
    exact .start (ih.2 s' hs') hstart

theorem SameTurn.ready_eq {s : SelectServer} {q : PollServer} {sr : SelectServer.Round}
    {pr : PollServer.Round} (h : SameTurn q sr pr)
    (hagree : Table.Agree nfds NUM s.table q.table) :
    ∀ i < nfds, ∀ fd, q.table.slots i = some fd → s.ready sr i fd = q.ready pr i fd := by
  intro i hi fd hfd
  have hfdq : (q.fds i).fd = some fd := hfd
  have hmem : fd ∈ s.socks := SelectServer.mem_socks.2
    ⟨i, hi.trans (by decide), (hagree.slots i hi).trans hfd⟩
  have hiff := h.ready i hi fd hfdq
  rw [Bool.eq_iff_iff]
  simp only [SelectServer.ready, PollServer.ready, Bool.and_eq_true, decide_eq_true_eq,
    SelectServer.selected_iff, hmem, true_and, hfdq, FD_NONE, hiff]
  simp

/-- When every descriptor accepted in a scan fits into an `fd_set`, so does every descriptor that
stands in a slot on the way. -/
theorem scanTo_small {listen : Fd} {ready : ℕ → Fd → Bool} {ans : Answers} {t : Table}
    (h : Table.Ok NUM listen t.slots t.trace) (hl : listen < FD_SETSIZE)
    (hfresh : Fresh listen (Table.scanTo NUM listen ready ans NUM t).trace)
    (hsmall : ∀ sock fd, .accept sock (some fd) ∈ (Table.scanTo NUM listen ready ans NUM t).trace →
      fd < FD_SETSIZE) :
    ∀ j < NUM, ∀ i < NUM, ∀ fd,
      (Table.scanTo NUM listen ready ans j t).slots i = some fd → fd < FD_SETSIZE := by
  intro j hj i hi fd hfd
  obtain ⟨u, hu⟩ : ∃ u, (Table.scanTo NUM listen ready ans NUM t).trace =
    (Table.scanTo NUM listen ready ans j t).trace ++ u := Table.scanTo_mono hj.le le_rfl
  refine (Table.Ok.scanTo h hj.le (Table.scanTo_fresh hj.le le_rfl hfresh)).lt_of_slot hi hfd hl
    (u := u) ?_
  rw [← hu]
  exact hsmall

theorem SameTurn.agree {listen : Fd} {s : SelectServer} {q : PollServer}
    {sr : SelectServer.Round} {pr : PollServer.Round} (h : SameTurn q sr pr)
    (hs : SelectServer.Reach listen s) (hq : PollServer.Reach listen q)
    (hagree : Table.Agree nfds NUM s.table q.table) (hl : listen < FD_SETSIZE)
    (hfresh : Fresh listen (q.start pr).trace)
    (hsmall : ∀ sock fd, .accept sock (some fd) ∈ (q.start pr).trace → fd < FD_SETSIZE)
    (hroom : Roomy nfds (q.start pr).trace) :
    ∃ s', s.start sr = some s' ∧ Table.Agree nfds NUM s'.table (q.start pr).table := by
  obtain ⟨hlq, htq⟩ := hq.table
  obtain ⟨hls, hts⟩ := hs.table
  obtain ⟨-, htable⟩ := PollServer.startTo_table q nfds pr
  rw [hlq] at htable
  have htrace : (q.start pr).trace = _ := congrArg Table.trace htable
  have hstart : (q.start pr).table = _ := htable
  have hbefore : Fresh listen q.trace :=
    Table.scanTo_fresh (Nat.zero_le nfds) le_rfl (htrace ▸ hfresh)
  have hokq := htq.ok hbefore
  have hoks := hts.ok (hagree.trace ▸ hbefore)
  have hscan : Table.Agree nfds NUM (Table.scanTo NUM listen (s.ready sr) sr.ans NUM s.table)
      (q.start pr).table := by
    rw [hstart, h.ans]
    exact hagree.scan (h.ready_eq hagree) (by decide) hoks hokq (SelectServer.own_ready s sr)
      (PollServer.own_ready q pr) (htrace ▸ hfresh) (htrace ▸ hroom)
  have hfinal : (Table.scanTo NUM listen (s.ready sr) sr.ans NUM s.table).trace =
    (q.start pr).trace := hscan.trace
  have hslots := scanTo_small hoks hl (hfinal ▸ hfresh) (hfinal ▸ hsmall)
  subst hls
  obtain ⟨s', hs'⟩ := SelectServer.startTo_isSome (s := s) (r := sr) (k := NUM)
    (fun fd hfd => by
      obtain ⟨i, hi, hfd⟩ := SelectServer.mem_socks.1 hfd
      exact hslots 0 (by decide) i hi fd hfd)
    (fun j hj fd hfd => hslots j hj j hj fd hfd)
  refine ⟨s', hs', ?_⟩
  rw [(SelectServer.startTo_table hs').2]
  exact hscan

/-- **The poll server refines the select server**: after every turn the arrays hold the same
descriptors and the same calls were made, in the same order. Here `accept` never gives a descriptor
that is open, the descriptors fit into an `fd_set`, and 100 slots are enough. -/
theorem poll_refines_select {listen : Fd} {s : Option SelectServer} {q : PollServer}
    (h : InStep listen s q) (hl : listen < FD_SETSIZE) (hfresh : Fresh listen q.trace)
    (hsmall : ∀ sock fd, .accept sock (some fd) ∈ q.trace → fd < FD_SETSIZE)
    (hroom : Roomy nfds q.trace) :
    ∃ t, s = some t ∧ (∀ i < nfds, t.sockArray i = (q.fds i).fd) ∧
      (∀ i, nfds ≤ i → i < NUM → t.sockArray i = FD_NONE) ∧ t.trace = q.trace := by
  have key : ∃ t, s = some t ∧ Table.Agree nfds NUM t.table q.table := by
    induction h with
    | init garbage =>
      refine ⟨_, rfl, fun i hi => ?_, fun i hi him => ?_, rfl⟩
      · simp only [SelectServer.init, SelectServer.table, PollServer.init, PollServer.table,
          PollServer.setFd_slots, update_apply]
      · have hi0 : i ≠ 0 := by
          have : 0 < nfds := by decide
          omega
        simp [SelectServer.init, SelectServer.table, hi0, FD_NONE]
    | @start s q sr pr h hturn ih =>
      obtain ⟨u, hu⟩ := PollServer.startTo_mono q le_rfl pr
      have hbefore : ∀ {P : List Fd → Call → Prop}, Always P (q.start pr).trace →
          Always P q.trace := by
        intro P hP
        rw [show q.start pr = q.startTo nfds pr from rfl, hu] at hP
        exact hP.of_append
      have hmem : ∀ {c : Call}, c ∈ q.trace → c ∈ (q.start pr).trace := by
        intro c hc
        rw [show q.start pr = q.startTo nfds pr from rfl, hu]
        exact List.mem_append_left _ hc
      obtain ⟨t, rfl, hagree⟩ := ih (hbefore hfresh) (fun sock fd hm => hsmall sock fd (hmem hm))
        (hbefore hroom)
      obtain ⟨hq, hs⟩ := h.reach
      obtain ⟨s', hs', hagree'⟩ := hturn.agree (hs t rfl) hq hagree hl hfresh hsmall hroom
      refine ⟨s', ?_, hagree'⟩
      rw [Option.bind_some]
      exact hs'
  obtain ⟨t, ht, hagree⟩ := key
  exact ⟨t, ht, hagree.slots, hagree.free, hagree.trace⟩

/-- Both servers accept a client. -/
theorem poll_refines_select_example : ∃ q : PollServer, q.trace = [.accept 3 (some 5)] ∧
    ∃ t, (some (SelectServer.init 3)).bind (fun s => s.start ⟨1, fun _ => true,
        ⟨fun _ => some 5, fun _ => .bytes []⟩⟩) = some t ∧
      (∀ i < nfds, t.sockArray i = (q.fds i).fd) ∧
      (∀ i, nfds ≤ i → i < NUM → t.sockArray i = FD_NONE) ∧ t.trace = q.trace := by
  have hturn : SameTurn (.init 3 fun _ => 1)
      ⟨1, fun _ => true, ⟨fun _ => some 5, fun _ => .bytes []⟩⟩
      ⟨1, fun _ => 1, ⟨fun _ => some 5, fun _ => .bytes []⟩⟩ :=
    ⟨fun i _ fd _ => by simp [POLLIN], rfl⟩
  have htrace := PollServer.start_accept
  refine ⟨_, htrace, poll_refines_select ((InStep.init _).start hturn) (by decide) ?_ ?_ ?_⟩
  · rw [htrace]
    exact fresh_accept (by decide)
  · rw [htrace]
    intro sock fd hm
    obtain ⟨-, hfd⟩ := Call.accept.inj (List.mem_singleton.1 hm)
    obtain rfl : fd = 5 := Option.some.inj hfd
    decide
  · rw [htrace]
    exact always_concat (t := []).2 ⟨always_nil, fun _ _ _ => by decide⟩

end NetProg.Multiplex
