import NetProg.Multiplex.Agreement

/-!
# How large the descriptors of the select server get

`Accepter` looks for a free slot, which bounds how many descriptors are in the array, and not how
large they are. An `fd_set` has room for the descriptors below `FD_SETSIZE` only, and the kernel may
give others when that many are open. So the set is used in range exactly as long as `accept` gives
none of them (`run_inRange_iff`); the turn that accepts one already asks `FD_ISSET` for it.
-/

namespace NetProg.Multiplex

open NetProg.Lib NetProg.Reactor Function

/-! ### The first visit and the others -/

namespace Table

variable {n : ℕ} {listen : Fd} {ready : ℕ → Fd → Bool} {ans : Answers} {t : Table} {i j k : ℕ}
  {fd : Fd}

/-- The descriptor that a scan accepts, if `accept` is called and succeeds. -/
def accepted (listen : Fd) (ready : ℕ → Fd → Bool) (ans : Answers) : Option Fd :=
  if ready 0 listen then ans.accept 0 else none

theorem fresh_append {t u : List Call} (h : Fresh listen t)
    (hu : ∀ sock fd, Call.accept sock (some fd) ∉ u) : Fresh listen (t ++ u) := by
  induction u using List.reverseRecOn with
  | nil => rwa [List.append_nil]
  | append_singleton u c ih =>
    rw [← List.append_assoc]
    refine always_concat.2 ⟨ih fun sock fd hm => hu sock fd (List.mem_append_left _ hm), ?_⟩
    rintro sock fd rfl
    exact absurd (List.mem_append_right _ (List.mem_singleton_self _)) (hu sock fd)

section First

variable (h : Ok n listen t.slots t.trace)

include h

theorem scanTo_one_of_none (hacc : accepted listen ready ans = none) :
    (scanTo n listen ready ans 1 t).slots = t.slots := by
  unfold accepted at hacc
  rw [scanTo_one h.listening]
  split
  · rename_i hready
    rw [if_pos hready] at hacc
    rw [hacc]
    rfl
  · rfl

theorem scanTo_one_of_some (hacc : accepted listen ready ans = some fd)
    (hi : firstFree n t.slots = some i) :
    (scanTo n listen ready ans 1 t).slots = update t.slots i (some fd) := by
  unfold accepted at hacc
  split at hacc
  · rename_i hready
    rw [scanTo_one h.listening, if_pos hready, hacc, accepter]
    simp only [hi]
  · cases hacc

theorem fresh_first (hfresh : Fresh listen t.trace)
    (hnew : ∀ fd, accepted listen ready ans = some fd → fd ≠ listen ∧ fd ∉ live t.trace) :
    Fresh listen (scanTo n listen ready ans 1 t).trace := by
  rw [scanTo_one h.listening]
  split
  · rename_i hready
    obtain ⟨u, hu, hclose⟩ := accepter_trace n listen t (ans.accept 0)
    have hone : Fresh listen (t.trace ++ [.accept listen (ans.accept 0)]) := by
      refine always_concat.2 ⟨hfresh, fun sock fd hc => ?_⟩
      obtain ⟨-, hr⟩ := Call.accept.inj hc
      exact hnew fd (by rw [accepted, if_pos hready, hr])
    rw [hu, List.append_cons]
    refine fresh_append hone fun sock fd hm => ?_
    obtain ⟨_, hc⟩ := hclose _ hm
    cases hc
  · exact hfresh

variable (hown : Own n t.slots ready) (hfresh : Fresh listen (scanTo n listen ready ans 1 t).trace)

include hown hfresh

/-- **A slot is as the first visit left it** when the scan comes to it. -/
theorem visited_slot (hj : j < n) :
    (scanTo n listen ready ans j t).slots j = (scanTo n listen ready ans 1 t).slots j := by
  rcases j with - | k
  · rcases scanTo_one_slot h hfresh 0 with he | ⟨hnone, -⟩
    · rw [he, scanTo_zero]
    · rw [h.listening] at hnone
      cases hnone
  · rw [scanTo_eq h hown hfresh (by omega)]
    exact slotsAfter_of_lt _ (Nat.lt_succ_self k)

theorem fresh_scan (hn : 0 < n) : Fresh listen (scanTo n listen ready ans n t).trace := by
  obtain ⟨k, rfl⟩ := Nat.exists_eq_add_one.2 hn
  rw [scanTo_eq h hown hfresh (Nat.lt_succ_self k)]
  refine fresh_append hfresh fun sock fd hm => ?_
  obtain ⟨i, -, hm⟩ := List.mem_flatMap.1 hm
  obtain ⟨sock', -, -, hm⟩ := mem_reads hm
  exact accept_not_mem_recvCalls hm

theorem slot_scan (hn : 0 < n) (hfd : (scanTo n listen ready ans n t).slots i = some fd) :
    (scanTo n listen ready ans 1 t).slots i = some fd := by
  obtain ⟨k, rfl⟩ := Nat.exists_eq_add_one.2 hn
  rw [scanTo_eq h hown hfresh (Nat.lt_succ_self k)] at hfd
  simp only [slotsAfter] at hfd
  split at hfd
  · cases hfd
  · exact hfd

end First

end Table

namespace SelectServer

variable {s s' : SelectServer} {fs : Fd → Bool} {ans : Answers} {r : Round} {i k : ℕ} {fd : Fd}
  {listen : Fd} {others : Fd → Prop}

/-! ### One turn -/

/-- The descriptor that a turn accepts, if `accept` is called in it and succeeds. -/
def Round.accepted (r : Round) (listen : Fd) : Option Fd :=
  if r.ret > 0 ∧ r.fs listen = true then r.ans.accept 0 else none

theorem handleTo_visited (h : s.handleTo k fs ans = some s') : ∀ j < k, ∀ fd,
    (Table.scanTo NUM s.listenSock (fun _ fd => fs fd) ans j s.table).slots j = some fd →
      fd < FD_SETSIZE := by
  induction k generalizing s' with
  | zero => exact fun j hj => absurd hj (Nat.not_lt_zero j)
  | succ k ih =>
    rw [handleTo_succ] at h
    obtain ⟨t, ht, hv⟩ := Option.bind_eq_some_iff.1 h
    intro j hj fd hfd
    rcases Nat.lt_succ_iff_lt_or_eq.1 hj with hj | rfl
    · exact ih ht j hj fd hfd
    · have hslots : t.sockArray = _ := congrArg Table.slots (handleTo_table ht).2
      rw [← hslots] at hfd
      unfold visit at hv
      rw [hfd] at hv
      simp only at hv
      split at hv
      · assumption
      · cases hv

/-- **A turn has a meaning** exactly when the descriptors in the array are in range at its start and
when they are visited. -/
theorem start_isSome_iff : (∃ s', s.start r = some s') ↔ (∀ fd ∈ s.socks, fd < FD_SETSIZE) ∧
    ∀ j < NUM, ∀ fd, (Table.scanTo NUM s.listenSock (s.ready r) r.ans j s.table).slots j = some fd →
      fd < FD_SETSIZE := by
  refine ⟨fun ⟨s', h⟩ => ?_, fun h => startTo_isSome h.1 h.2⟩
  unfold start startTo at h
  split at h
  · rename_i hsocks
    have hsocks : ∀ fd ∈ s.socks, fd < FD_SETSIZE := by simpa using hsocks
    refine ⟨hsocks, fun j hj fd hfd => ?_⟩
    split at h
    · rename_i hret
      rw [ready_of_pos hret] at hfd
      exact handleTo_visited h j hj fd hfd
    · rename_i hret
      rw [Table.scanTo_idle fun i fd => by simp [ready, hret]] at hfd
      exact hsocks fd (mem_socks.2 ⟨j, hj, hfd⟩)
  · cases h

theorem accepted_eq (h : Table.Ok NUM listen s.sockArray s.trace) :
    Table.accepted listen (s.ready r) r.ans = r.accepted listen := by
  have hmem : listen ∈ s.socks := mem_socks.2 ⟨0, by decide, h.listening⟩
  have hready : s.ready r 0 listen = true ↔ r.ret > 0 ∧ r.fs listen = true := by
    simp [ready, selected_iff, hmem]
  unfold Table.accepted Round.accepted
  simp only [hready]

/-- What the kernel may answer in a turn: a descriptor that is open nowhere, neither here nor in the
rest of the process. -/
def New (others : Fd → Prop) (s : SelectServer) (r : Round) : Prop :=
  ∀ fd, r.accepted s.listenSock = some fd → fd ≠ s.listenSock ∧ fd ∉ live s.trace ∧ ¬ others fd

/-- Between two turns, when every descriptor has been in range. -/
structure InRange (listen : Fd) (others : Fd → Prop) (s : SelectServer) : Prop where
  reach : Reach listen s
  fresh : Fresh listen s.trace
  small : ∀ i < NUM, ∀ fd, s.sockArray i = some fd → fd < FD_SETSIZE
  away : ∀ i < NUM, ∀ fd, s.sockArray i = some fd → fd = listen ∨ ¬ others fd

theorem inRange_init (hlisten : listen < FD_SETSIZE) : InRange listen others (init listen) := by
  have hslot : ∀ i fd, (init listen).sockArray i = some fd → fd = listen := by
    intro i fd hfd
    simp only [init, update_apply] at hfd
    split at hfd
    · exact (Option.some.inj hfd).symm
    · cases hfd
  exact ⟨.init, always_nil, fun i _ fd hfd => hslot i fd hfd ▸ hlisten,
    fun i _ fd hfd => Or.inl (hslot i fd hfd)⟩

theorem InRange.ok (h : InRange listen others s) : Table.Ok NUM listen s.sockArray s.trace :=
  Seen.ok (.between h.reach) h.fresh

theorem InRange.listenSock (h : InRange listen others s) : s.listenSock = listen := h.reach.table.1

/-- **The array is never full**: it has a slot for every descriptor below `FD_SETSIZE`, and one of
these is open elsewhere. -/
theorem InRange.room (h : InRange listen others s) (hothers : ∀ fd ≤ 2, others fd) :
    ∃ i, firstFree NUM s.sockArray = some i := by
  refine Option.ne_none_iff_exists'.1 (h.ok.firstFree_ne_none ?_)
  have hlive : ∀ fd ∈ live s.trace, fd < FD_SETSIZE ∧ ¬ others fd := by
    intro fd hfd
    obtain ⟨i, -, hi, hs⟩ := (h.ok.tracked fd).2 hfd
    have hne : fd ≠ listen := fun he => h.ok.unlisted (he ▸ hfd)
    exact ⟨h.small i hi fd hs, (h.away i hi fd hs).resolve_left hne⟩
  obtain ⟨x, hx, hxl⟩ : ∃ x ≤ 2, x ≠ listen := by
    by_cases h0 : listen = 0
    · exact ⟨1, by decide, by rw [h0]; decide⟩
    · exact ⟨0, by decide, fun h => h0 h.symm⟩
  have hnodup : (x :: listen :: live s.trace).Nodup := by
    refine List.nodup_cons.2 ⟨fun hm => ?_, List.nodup_cons.2 ⟨h.ok.unlisted, h.ok.nodup⟩⟩
    rcases List.mem_cons.1 hm with he | hm
    · exact hxl he
    · exact (hlive x hm).2 (hothers x hx)
  have hsub : x :: listen :: live s.trace ⊆ List.range FD_SETSIZE := by
    intro fd hfd
    rw [List.mem_range]
    rcases List.mem_cons.1 hfd with rfl | hfd
    · exact hx.trans_lt (by decide)
    · rcases List.mem_cons.1 hfd with rfl | hfd
      · exact h.small 0 (by decide) fd h.ok.listening
      · exact (hlive fd hfd).1
  have hlen := (hnodup.subperm hsub).length_le
  rw [List.length_range] at hlen
  exact hlen

theorem InRange.first_slot (h : InRange listen others s) (hothers : ∀ fd ≤ 2, others fd) {j : ℕ} :
    (Table.scanTo NUM s.listenSock (s.ready r) r.ans 1 s.table).slots j = some fd →
      s.sockArray j = some fd ∨ r.accepted s.listenSock = some fd := by
  obtain rfl := h.listenSock
  intro hfd
  cases hacc : r.accepted s.listenSock with
  | none =>
    rw [Table.scanTo_one_of_none h.ok (by rw [accepted_eq h.ok, hacc])] at hfd
    exact Or.inl hfd
  | some sock =>
    obtain ⟨i, hi⟩ := h.room hothers
    rw [Table.scanTo_one_of_some (t := s.table) h.ok (by rw [accepted_eq h.ok, hacc]) hi,
      update_apply] at hfd
    split at hfd
    · exact Or.inr hfd
    · exact Or.inl hfd

/-- **One turn** uses the set in range exactly when it accepts no descriptor that is too large, and
then all descriptors are in range again. -/
theorem InRange.start (h : InRange listen others s) (hothers : ∀ fd ≤ 2, others fd)
    (hnew : New others s r) :
    ((∃ s', s.start r = some s') ↔ ∀ fd, r.accepted listen = some fd → fd < FD_SETSIZE) ∧
      ∀ s', s.start r = some s' → InRange listen others s' := by
  obtain rfl := h.listenSock
  have hacc := accepted_eq (r := r) h.ok
  have hfirst : Fresh s.listenSock
      (Table.scanTo NUM s.listenSock (s.ready r) r.ans 1 s.table).trace :=
    Table.fresh_first h.ok h.fresh fun fd hfd =>
      ⟨(hnew fd (hacc ▸ hfd)).1, (hnew fd (hacc ▸ hfd)).2.1⟩
  have hown : Table.Own NUM s.table.slots (s.ready r) := own_ready s r
  constructor
  · rw [start_isSome_iff]
    constructor
    · rintro ⟨-, hvis⟩ fd hfd
      obtain ⟨i, hi⟩ := h.room hothers
      have hiN := (firstFree_eq_some.1 hi).1
      apply hvis i hiN fd
      rw [Table.visited_slot h.ok hown hfirst hiN,
        Table.scanTo_one_of_some (t := s.table) h.ok (by rw [hacc, hfd]) hi, update_self]
    · refine fun hsmall => ⟨fun fd hfd => ?_, fun j hj fd hfd => ?_⟩
      · obtain ⟨i, hi, hs⟩ := mem_socks.1 hfd
        exact h.small i hi fd hs
      · rw [Table.visited_slot h.ok hown hfirst hj] at hfd
        rcases h.first_slot hothers hfd with hs | hs
        · exact h.small j hj fd hs
        · exact hsmall fd hs
  · intro s' hs'
    obtain ⟨hl, htable⟩ := startTo_table hs'
    have hslots : s'.sockArray = _ := congrArg Table.slots htable
    have htrace : s'.trace = _ := congrArg Table.trace htable
    have hslot : ∀ j fd, s'.sockArray j = some fd →
        s.sockArray j = some fd ∨ r.accepted s.listenSock = some fd := by
      intro j fd hfd
      rw [hslots] at hfd
      exact h.first_slot hothers (Table.slot_scan h.ok hown hfirst (by decide) hfd)
    have hall := (start_isSome_iff.1 ⟨s', hs'⟩).2
    refine ⟨.start h.reach hs', ?_, fun j hj fd hfd => ?_, fun j hj fd hfd => ?_⟩
    · rw [htrace]
      exact Table.fresh_scan h.ok hown hfirst (by decide)
    · apply hall j hj fd
      rw [Table.visited_slot h.ok hown hfirst hj]
      exact Table.slot_scan h.ok hown hfirst (by decide) (hslots ▸ hfd)
    · rcases hslot j fd hfd with hs | hs
      · exact h.away j hj fd hs
      · exact Or.inr (hnew fd hs).2.2

/-! ### Runs -/

/-- `Start` for these turns of its loop. -/
def run (s : SelectServer) (rounds : List Round) : Option SelectServer := rounds.foldlM start s

/-- What the kernel may answer in a run. -/
def Admissible (others : Fd → Prop) : SelectServer → List Round → Prop
  | _, [] => True
  | s, r :: rounds => New others s r ∧ ∀ s', s.start r = some s' → Admissible others s' rounds

theorem run_cons {rounds : List Round} :
    s.run (r :: rounds) = (s.start r).bind fun s' => s'.run rounds := by
  simp only [run, List.foldlM_cons, Option.bind_eq_bind]

theorem InRange.run (h : InRange listen others s) (hothers : ∀ fd ≤ 2, others fd)
    {rounds : List Round} (hadm : Admissible others s rounds) :
    (∃ s', s.run rounds = some s') ↔
      ∀ r ∈ rounds, ∀ fd, r.accepted listen = some fd → fd < FD_SETSIZE := by
  induction rounds generalizing s with
  | nil => exact ⟨fun _ r hr => absurd hr List.not_mem_nil, fun _ => ⟨s, rfl⟩⟩
  | cons r rounds ih =>
    obtain ⟨hiff, hkeep⟩ := h.start hothers hadm.1
    rw [List.forall_mem_cons, ← hiff, run_cons]
    constructor
    · rintro ⟨s'', hs''⟩
      obtain ⟨s', hs', hrun⟩ := Option.bind_eq_some_iff.1 hs''
      exact ⟨⟨s', hs'⟩, (ih (hkeep s' hs') (hadm.2 s' hs')).1 ⟨s'', hrun⟩⟩
    · rintro ⟨⟨s', hs'⟩, hrest⟩
      obtain ⟨s'', hrun⟩ := (ih (hkeep s' hs') (hadm.2 s' hs')).2 hrest
      exact ⟨s'', by rw [hs', Option.bind_some, hrun]⟩

/-- **When the select server keeps inside its `fd_set`.** Descriptors 0, 1 and 2 are open besides
the server's own: every run, with any answers of the kernel, uses the set in range exactly when the
listening descriptor and all those that `accept` gives are below `FD_SETSIZE`. -/
theorem run_inRange_iff {listen : Fd} {others : Fd → Prop} (hothers : ∀ fd ≤ 2, others fd)
    {rounds : List Round} (hadm : Admissible others (init listen) rounds) :
    (∃ s, (init listen).run rounds = some s) ↔ (rounds = [] ∨ listen < FD_SETSIZE) ∧
      ∀ r ∈ rounds, ∀ fd, r.accepted listen = some fd → fd < FD_SETSIZE := by
  by_cases hlisten : listen < FD_SETSIZE
  · rw [and_iff_right (Or.inr hlisten)]
    exact (inRange_init hlisten).run hothers hadm
  · rcases rounds with - | ⟨r, rounds⟩
    · exact ⟨fun _ => ⟨Or.inl rfl, fun r hr => absurd hr List.not_mem_nil⟩, fun _ => ⟨_, rfl⟩⟩
    · refine ⟨fun ⟨s, hs⟩ => absurd ?_ hlisten, fun h => absurd (h.1.resolve_left ?_) hlisten⟩
      · rw [run_cons] at hs
        obtain ⟨s', hs', -⟩ := Option.bind_eq_some_iff.1 hs
        refine (start_isSome_iff.1 ⟨s', hs'⟩).1 listen (mem_socks.2 ⟨0, by decide, ?_⟩)
        simp [init]
      · exact List.cons_ne_nil _ _

/-- A turn in which a client is accepted on `fd`. -/
def acceptRound (fd : Fd) : Round := ⟨1, fun _ => true, ⟨fun _ => some fd, fun _ => .bytes []⟩⟩

theorem admissible_accept {fd : Fd} (hne : fd ≠ 3) (hother : ¬ others fd) :
    Admissible others (init 3) [acceptRound fd] := by
  refine ⟨fun fd' hfd => ?_, fun _ _ => trivial⟩
  obtain rfl : fd = fd' := Option.some.inj hfd
  exact ⟨hne, List.not_mem_nil, hother⟩

/-- A client on descriptor 4. -/
theorem run_inRange_iff_accept :
    (∃ s, (init 3).run [acceptRound 4] = some s) ↔ ([acceptRound 4] = [] ∨ 3 < FD_SETSIZE) ∧
      ∀ r ∈ [acceptRound 4], ∀ fd, r.accepted 3 = some fd → fd < FD_SETSIZE := by
  have hadm : Admissible (fun fd => fd ≤ 2) (init 3) [acceptRound 4] :=
    admissible_accept (by decide) (by decide)
  exact run_inRange_iff (fun _ h => h) hadm

/-- With all the smaller descriptors open `accept` gives 1024, and `FD_ISSET` is asked for it. -/
theorem run_not_inRange : ¬ ∀ (others : Fd → Prop) (rounds : List Round),
    (∀ fd ≤ 2, others fd) → Admissible others (init 3) rounds →
      ∃ s, (init 3).run rounds = some s := by
  intro h
  have hothers : ∀ fd ≤ 2, fd < 1024 := fun fd hfd => hfd.trans_lt (by decide)
  have hadm : Admissible (fun fd => fd < 1024) (init 3) [acceptRound 1024] :=
    admissible_accept (by decide) (by decide)
  have hrange := ((inRange_init (by decide)).run hothers hadm).1 (h _ _ hothers hadm)
  exact absurd (hrange _ (List.mem_singleton_self _) 1024 rfl) (by decide)

end SelectServer

end NetProg.Multiplex
