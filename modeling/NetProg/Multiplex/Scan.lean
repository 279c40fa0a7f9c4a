import NetProg.Multiplex.Table

/-!
# A whole scan

The table changes while it is scanned, but what a scan does can be read from the table before it:
`accept` is called first, from slot 0, and each other slot is read exactly when it held a ready
client before the scan. A slot that `accept` filled meanwhile is not ready, when readiness was
asked for the descriptors of the table before (`Own`).

* `scanTo_eq`: the closed form;
* `scanTo_unblocked`: every call that might block is on a descriptor that was ready, once;
* `Reach`: the runs of the table, with `Ok` along them.
-/

namespace NetProg.Multiplex

open NetProg.Lib NetProg.Reactor Function

namespace Table

variable {n : ℕ} {listen : Fd} {ready : ℕ → Fd → Bool} {ans : Answers} {t : Table} {i j k : ℕ}
  {sock fd : Fd} {slots : ℕ → Option Fd}

/-! ### The closed form -/

/-- The calls made for the client in slot `i`. -/
def reads (ready : ℕ → Fd → Bool) (ans : Answers) (slots : ℕ → Option Fd) (i : ℕ) : List Call :=
  match slots i with
  | none => []
  | some sock => if ready i sock then recvCalls sock (ans.recv i) else []

/-- The client in slot `i` is closed. -/
def leaves (ready : ℕ → Fd → Bool) (ans : Answers) (slots : ℕ → Option Fd) (i : ℕ) : Bool :=
  match slots i with
  | none => false
  | some sock => ready i sock && quits (ans.recv i)

/-- Readiness concerns the table as it is: a free slot is not ready for a descriptor that no slot
holds. -/
def Own (n : ℕ) (slots : ℕ → Option Fd) (ready : ℕ → Fd → Bool) : Prop :=
  ∀ i fd, slots i = none → (∀ j < n, slots j ≠ some fd) → ready i fd = false

/-- The slots when the first visit has left `first` and `k` more slots have been visited. -/
def slotsAfter (ready : ℕ → Fd → Bool) (ans : Answers) (slots first : ℕ → Option Fd) (k j : ℕ) :
    Option Fd :=
  if 0 < j ∧ j ≤ k ∧ leaves ready ans slots j = true then none else first j

theorem slotsAfter_of_lt (first : ℕ → Option Fd) (h : k < j) :
    slotsAfter ready ans slots first k j = first j := by
  unfold slotsAfter
  rw [if_neg (by omega)]

theorem slotsAfter_zero (first : ℕ → Option Fd) : slotsAfter ready ans slots first 0 = first := by
  funext j
  unfold slotsAfter
  rw [if_neg (by omega)]

theorem slotsAfter_stay (first : ℕ → Option Fd) (h : leaves ready ans slots (k + 1) = false) :
    slotsAfter ready ans slots first (k + 1) = slotsAfter ready ans slots first k := by
  funext j
  unfold slotsAfter
  by_cases hj : j = k + 1
  · rw [if_neg (by simp [hj, h]), if_neg (by omega)]
  · have hle : j ≤ k + 1 ↔ j ≤ k := by omega
    simp only [hle]

theorem slotsAfter_leave (first : ℕ → Option Fd) (h : leaves ready ans slots (k + 1) = true) :
    slotsAfter ready ans slots first (k + 1) =
      update (slotsAfter ready ans slots first k) (k + 1) none := by
  funext j
  by_cases hj : j = k + 1
  · rw [hj, update_self, slotsAfter, if_pos ⟨Nat.succ_pos k, le_rfl, h⟩]
  · have hle : j ≤ k + 1 ↔ j ≤ k := by omega
    rw [update_of_ne hj]
    unfold slotsAfter
    simp only [hle]

theorem scanTo_one (h : t.slots 0 = some listen) : scanTo n listen ready ans 1 t =
    if ready 0 listen then accepter n listen t (ans.accept 0) else t := by
  rw [scanTo_succ, scanTo_zero, visit_some h, if_pos rfl]

/-- What `Accepter` does to the slots. -/
theorem accepter_slots (n : ℕ) (listen : Fd) (t : Table) (r : Option Fd) :
    (accepter n listen t r).slots = t.slots ∨
    ∃ i sock, t.slots i = none ∧ r = some sock ∧
      (accepter n listen t r).slots = update t.slots i (some sock) := by
  unfold accepter
  split
  · exact Or.inl rfl
  · rename_i sock
    split
    · exact Or.inl rfl
    · rename_i i hi
      exact Or.inr ⟨i, sock, (firstFree_eq_some.1 hi).2.1, rfl, rfl⟩

theorem accepter_trace (n : ℕ) (listen : Fd) (t : Table) (r : Option Fd) :
    ∃ u, (accepter n listen t r).trace = t.trace ++ .accept listen r :: u ∧
      (∀ c ∈ u, ∃ sock, c = .close sock) := by
  unfold accepter
  split
  · exact ⟨[], rfl, by simp⟩
  · rename_i sock
    split
    · exact ⟨[.close sock], rfl, by simp⟩
    · exact ⟨[], rfl, by simp⟩

theorem scanTo_idle (h : ∀ i fd, ready i fd = false) : scanTo n listen ready ans k t = t := by
  induction k with
  | zero => rfl
  | succ k ih =>
    rw [scanTo_succ, ih]
    cases hs : t.slots k with
    | none => exact visit_none hs
    | some sock => rw [visit_some hs, h]; rfl

section Closed

variable (h : Ok n listen t.slots t.trace)

include h

/-- A slot behind the first after the first visit: as before, or filled with a new descriptor. -/
theorem scanTo_one_slot (hfresh : Fresh listen (scanTo n listen ready ans 1 t).trace) (j : ℕ) :
    (scanTo n listen ready ans 1 t).slots j = t.slots j ∨
    t.slots j = none ∧ ∃ fd, (scanTo n listen ready ans 1 t).slots j = some fd ∧
      ∀ i < n, t.slots i ≠ some fd := by
  rw [scanTo_one h.listening] at hfresh ⊢
  split
  · rcases accepter_slots n listen t (ans.accept 0) with he | ⟨i, fd, hi, hr, he⟩
    · exact Or.inl (by rw [he])
    · rename_i hready
      rw [if_pos hready] at hfresh
      obtain ⟨u, hu, -⟩ := accepter_trace n listen t (ans.accept 0)
      obtain ⟨hne, hnew⟩ := hfresh _ _ _ hu listen fd (by rw [hr])
      by_cases hj : j = i
      · subst hj
        exact Or.inr ⟨hi, fd, by rw [he, update_self], fun i hi => h.not_slot hne hnew hi⟩
      · exact Or.inl (by rw [he, update_of_ne hj])
  · exact Or.inl rfl

/-- **A scan in closed form**, from the table before it and the first visit. -/
theorem scanTo_eq (hown : Own n t.slots ready)
    (hfresh : Fresh listen (scanTo n listen ready ans 1 t).trace) (hk : k < n) :
    scanTo n listen ready ans (k + 1) t =
      ⟨slotsAfter ready ans t.slots (scanTo n listen ready ans 1 t).slots k,
        (scanTo n listen ready ans 1 t).trace ++
          (List.range k).flatMap fun i => reads ready ans t.slots (i + 1)⟩ := by
  induction k with
  | zero => rw [slotsAfter_zero, List.range_zero, List.flatMap_nil, List.append_nil]
  | succ k ih =>
    have hslot : slotsAfter ready ans t.slots (scanTo n listen ready ans 1 t).slots k (k + 1) =
        (scanTo n listen ready ans 1 t).slots (k + 1) := slotsAfter_of_lt _ (Nat.lt_succ_self k)
    rw [scanTo_succ, ih (by omega), List.range_succ, List.flatMap_append, ← List.append_assoc,
      List.flatMap_singleton]
    unfold visit
    simp only [hslot]
    rcases scanTo_one_slot h hfresh (k + 1) with he | ⟨hnone, fd, he, hnew⟩
    · rw [he]
      cases hs : t.slots (k + 1) with
      | none =>
        rw [slotsAfter_stay _ (by simp [leaves, hs])]
        simp [reads, hs]
      | some sock =>
        have hne : sock ≠ listen := h.ne_listen (Nat.succ_pos k) hk hs
        by_cases hr : ready (k + 1) sock = true
        · cases hq : quits (ans.recv (k + 1)) with
          | false =>
            rw [slotsAfter_stay _ (by simp [leaves, hs, hq])]
            simp [reads, hs, hr, hne, hq, recver]
          | true =>
            rw [slotsAfter_leave _ (by simp [leaves, hs, hr, hq])]
            simp [reads, hs, hr, hne, hq, recver]
        · rw [slotsAfter_stay _ (by simp [leaves, hs, hr])]
          simp [reads, hs, hr]
    · rw [he, slotsAfter_stay _ (by simp [leaves, hnone])]
      simp [reads, hnone, hown (k + 1) fd hnone hnew]

/-- The calls for the listening socket: when it is ready, an `accept` and perhaps a `close`. -/
def First (listen : Fd) (ready : ℕ → Fd → Bool) (ans : Answers) (first : List Call) : Prop :=
  first = [] ∨ ready 0 listen = true ∧ ∃ u, first = .accept listen (ans.accept 0) :: u ∧
    ∀ c ∈ u, ∃ sock, c = .close sock

/-- The calls of a scan: those for the listening socket, then those for the clients that were
ready. -/
theorem scanTo_trace (hown : Own n t.slots ready)
    (hfresh : Fresh listen (scanTo n listen ready ans 1 t).trace) (hk : k < n) :
    ∃ first, (scanTo n listen ready ans (k + 1) t).trace = t.trace ++ (first ++
        (List.range k).flatMap fun i => reads ready ans t.slots (i + 1)) ∧
      First listen ready ans first := by
  rw [scanTo_eq h hown hfresh hk, scanTo_one h.listening]
  split
  · rename_i hready
    obtain ⟨u, hu, hclose⟩ := accepter_trace n listen t (ans.accept 0)
    exact ⟨_, by rw [hu, List.append_assoc], Or.inr ⟨hready, u, rfl, hclose⟩⟩
  · exact ⟨[], rfl, Or.inl rfl⟩

end Closed

/-! ### No call blocks -/

theorem mem_reads {c : Call} (hc : c ∈ reads ready ans slots i) : ∃ sock, slots i = some sock ∧
    ready i sock = true ∧ c ∈ recvCalls sock (ans.recv i) := by
  unfold reads at hc
  split at hc
  · simp at hc
  · rename_i sock hs
    split at hc
    · exact ⟨sock, hs, ‹_›, hc⟩
    · simp at hc

theorem recv_mem_recvCalls {a a' : RecvAns} (hc : Call.recv fd a ∈ recvCalls sock a') :
    fd = sock := by
  unfold recvCalls at hc
  split at hc
  · split at hc <;> simp_all
  · simp_all

theorem accept_not_mem_recvCalls {r : Option Fd} {a : RecvAns} :
    Call.accept fd r ∉ recvCalls sock a := by
  unfold recvCalls
  split
  · split <;> simp
  · simp

theorem targets_reads : (reads ready ans slots i).filterMap Call.target =
    ((slots i).filter fun sock => ready i sock).toList := by
  unfold reads
  split
  · rename_i hs
    rw [hs]
    rfl
  · rename_i sock hs
    rw [hs]
    by_cases hr : ready i sock = true
    · simp only [hr, if_true]
      unfold recvCalls
      split
      · split <;> simp [Call.target, Option.filter, hr]
      · simp [Call.target, Option.filter, hr]
    · simp [Option.filter, hr]

theorem mem_reads_range {c : Call} (hk : k < n)
    (hc : c ∈ (List.range k).flatMap fun i => reads ready ans slots (i + 1)) :
    ∃ i sock, 0 < i ∧ i < n ∧ slots i = some sock ∧ ready i sock = true ∧
      c ∈ recvCalls sock (ans.recv i) := by
  obtain ⟨i, hi, hc⟩ := List.mem_flatMap.1 hc
  have hik := List.mem_range.1 hi
  obtain ⟨sock, hs, hr, hc⟩ := mem_reads hc
  exact ⟨i + 1, sock, Nat.succ_pos i, by omega, hs, hr, hc⟩

section First

variable {first : List Call} (h : First listen ready ans first)

include h

theorem First.recv_not_mem {a : RecvAns} : Call.recv sock a ∉ first := by
  intro hm
  rcases h with rfl | ⟨-, u, rfl, hclose⟩
  · cases hm
  · rcases List.mem_cons.1 hm with hm | hm
    · cases hm
    · obtain ⟨_, hc⟩ := hclose _ hm
      cases hc

theorem First.of_accept {r : Option Fd} (hm : Call.accept sock r ∈ first) :
    sock = listen ∧ r = ans.accept 0 ∧ ready 0 listen = true := by
  rcases h with rfl | ⟨hready, u, rfl, hclose⟩
  · cases hm
  · rcases List.mem_cons.1 hm with hm | hm
    · obtain ⟨rfl, rfl⟩ := Call.accept.inj hm
      exact ⟨rfl, rfl, hready⟩
    · obtain ⟨_, hc⟩ := hclose _ hm
      cases hc

theorem First.nodup {l : List Fd} (hl : (listen :: l).Nodup) :
    (first.filterMap Call.target ++ l).Nodup := by
  rcases h with rfl | ⟨-, u, rfl, hclose⟩
  · exact (List.nodup_cons.1 hl).2
  · have hu : u.filterMap Call.target = [] := by
      refine List.filterMap_eq_nil_iff.2 fun c hc => ?_
      obtain ⟨sock, rfl⟩ := hclose c hc
      rfl
    simpa [Call.target, hu] using hl

end First

/-- Every call that might block is on a descriptor that was reported, at most one on each, and a
descriptor accepted meanwhile is not read. -/
structure Unblocked (reported : Fd → Prop) (calls : List Call) : Prop where
  recv : ∀ sock a, .recv sock a ∈ calls → reported sock
  accept : ∀ sock r, .accept sock r ∈ calls → reported sock
  once : (calls.filterMap Call.target).Nodup
  unread : ∀ sock fd a, .accept sock (some fd) ∈ calls → .recv fd a ∉ calls

theorem unblocked_nil (reported : Fd → Prop) : Unblocked reported [] :=
  ⟨by simp, by simp, List.nodup_nil, by simp⟩

theorem targets_nodup (h : Ok n listen t.slots t.trace) (hk : k < n) :
    (listen :: ((List.range k).flatMap fun i =>
      reads ready ans t.slots (i + 1)).filterMap Call.target).Nodup := by
  have hmem : ∀ i, ∀ sock ∈ ((t.slots (i + 1)).filter fun sock => ready (i + 1) sock).toList,
      t.slots (i + 1) = some sock := by
    intro i sock hm
    exact (Option.filter_eq_some_iff.1 (Option.mem_toList.1 hm)).1
  rw [List.filterMap_flatMap]
  simp only [targets_reads]
  rw [List.nodup_cons]
  constructor
  · intro hm
    obtain ⟨i, hi, hm⟩ := List.mem_flatMap.1 hm
    have hin := List.mem_range.1 hi
    exact h.ne_listen (Nat.succ_pos i) (by omega) (hmem i listen hm) rfl
  · refine List.nodup_flatMap.2 ⟨fun i _ => Option.toList_nodup _, ?_⟩
    refine List.nodup_range.pairwise_of_forall_ne fun i hi j hj hij sock hmi hmj => hij ?_
    have hin := List.mem_range.1 hi
    have hjn := List.mem_range.1 hj
    have := h.distinct (i + 1) (j + 1) sock (by omega) (by omega) (hmem i sock hmi)
      (hmem j sock hmj)
    omega

theorem scanTo_unblocked (h : Ok n listen t.slots t.trace) (hown : Own n t.slots ready) (hk : k ≤ n)
    (hfresh : Fresh listen (scanTo n listen ready ans k t).trace) {reported : Fd → Prop}
    (hrep : ∀ i < n, ∀ sock, t.slots i = some sock → ready i sock = true → reported sock) :
    ∃ calls, (scanTo n listen ready ans k t).trace = t.trace ++ calls ∧
      Unblocked reported calls := by
  rcases k with - | k
  · exact ⟨[], by rw [scanTo_zero, List.append_nil], unblocked_nil reported⟩
  have hone : Fresh listen (scanTo n listen ready ans 1 t).trace :=
    scanTo_fresh (by omega) hk hfresh
  obtain ⟨first, htrace, hfirst⟩ := scanTo_trace h hown hone hk
  have haccept : ∀ sock r, Call.accept sock r ∈ first ++ ((List.range k).flatMap fun i =>
      reads ready ans t.slots (i + 1)) → Call.accept sock r ∈ first := by
    intro sock r hm
    refine (List.mem_append.1 hm).resolve_right fun hm => ?_
    obtain ⟨i, sock', -, -, -, -, hc⟩ := mem_reads_range hk hm
    exact accept_not_mem_recvCalls hc
  refine ⟨_, htrace, ?_, ?_, ?_, ?_⟩
  · intro sock a hm
    have hm := (List.mem_append.1 hm).resolve_left hfirst.recv_not_mem
    obtain ⟨i, sock', -, hi, hs, hr, hc⟩ := mem_reads_range hk hm
    obtain rfl := recv_mem_recvCalls hc
    exact hrep i hi sock hs hr
  · intro sock r hm
    obtain ⟨rfl, -, hready⟩ := hfirst.of_accept (haccept sock r hm)
    exact hrep 0 (by omega) sock h.listening hready
  · rw [List.filterMap_append]
    exact hfirst.nodup (targets_nodup h hk)
  · intro sock fd a hm hr
    have hr := (List.mem_append.1 hr).resolve_left hfirst.recv_not_mem
    obtain ⟨i, sock', -, hi, hs, -, hc⟩ := mem_reads_range hk hr
    obtain rfl := recv_mem_recvCalls hc
    -- what is accepted is new, so it stands in no slot
    have hm := haccept sock (some fd) hm
    obtain ⟨rfl, hacc, -⟩ := hfirst.of_accept hm
    rcases hfirst with rfl | ⟨-, u, rfl, -⟩
    · cases hm
    · rw [htrace, List.cons_append] at hfresh
      obtain ⟨hne, hnew⟩ := hfresh t.trace _ _ rfl sock fd (by rw [hacc])
      exact h.not_slot hne hnew hi hs

/-! ### Runs -/

/-- The table between two scans. What is ready is asked of the table before each scan. -/
inductive Reach (n : ℕ) (listen : Fd) : Table → Prop
  | init {t : Table} (hslots : ∀ i, t.slots i = if i = 0 then some listen else none)
      (htrace : t.trace = []) : Reach n listen t
  | scan {t : Table} (h : Reach n listen t) {ready : ℕ → Fd → Bool} (ans : Answers)
      (hown : Own n t.slots ready) : Reach n listen (scanTo n listen ready ans n t)

/-- **The table holds what it should** in every state of every run. -/
theorem Reach.ok (h : Reach n listen t) (hfresh : Fresh listen t.trace) :
    Ok n listen t.slots t.trace := by
  induction h with
  | init hslots htrace =>
    rw [htrace]
    exact ok_init hslots
  | scan _ _ _ ih => exact Ok.scanTo (ih (scanTo_fresh (Nat.zero_le n) le_rfl hfresh)) le_rfl hfresh

section Reach

variable (h : Reach n listen t) (hk : k ≤ n)
  (hfresh : Fresh listen (scanTo n listen ready ans k t).trace)

include h hk hfresh

theorem Reach.ok_before : Ok n listen t.slots t.trace :=
  h.ok (scanTo_fresh (Nat.zero_le k) hk hfresh)

theorem Reach.ok_scanTo : Ok n listen (scanTo n listen ready ans k t).slots
    (scanTo n listen ready ans k t).trace :=
  (h.ok_before hk hfresh).scanTo hk hfresh

end Reach

end Table

end NetProg.Multiplex
