import NetProg.Lib.Slots
import NetProg.Multiplex.Sock

/-!
# The table that both servers keep

What the select and the poll server have in common: `n` slots, the listening descriptor in slot 0
and clients in others, and a scan that visits the slots in order and serves those that are ready.
The two differ in what "ready" is: a question about the descriptor, or about the slot.

* `Step`: all that visiting a slot can do;
* `Ok`, `Step.ok`: the slots are the listening descriptor and the live ones, and visits keep that;
* `Ok.scanTo`: so does a scan, at every point of it.
-/

namespace NetProg.Multiplex

open NetProg.Lib NetProg.Reactor Function

structure Table where
  slots : ℕ → Option Fd
  trace : List Call

namespace Table

/-! ### The scan -/

def accepter (n : ℕ) (listen : Fd) (t : Table) (r : Option Fd) : Table :=
  match r with
  | none => { t with trace := t.trace ++ [.accept listen none] }
  | some sock =>
    match firstFree n t.slots with
    | none => { t with trace := t.trace ++ [.accept listen (some sock), .close sock] }
    | some i => ⟨update t.slots i (some sock), t.trace ++ [.accept listen (some sock)]⟩

/-- The connection is closed on this result of `recv`. -/
def quits : RecvAns → Bool
  | .bytes buff => buff.length = 0
  | .fail _ => true

/-- What is done with a readable client. -/
def recvCalls (sock : Fd) (a : RecvAns) : List Call :=
  match a with
  | .bytes buff =>
    if buff.length = 0 then [.recv sock a, .close sock]
    else [.recv sock a, .message sock (cStr buff)]
  | .fail _ => [.recv sock a, .close sock]

def recver (t : Table) (i : ℕ) (sock : Fd) (a : RecvAns) : Table where
  slots := if quits a then update t.slots i none else t.slots
  trace := t.trace ++ recvCalls sock a

variable (n : ℕ) (listen : Fd) (ready : ℕ → Fd → Bool) (ans : Answers)

/-- A slot is visited. -/
def visit (t : Table) (i : ℕ) : Table :=
  match t.slots i with
  | none => t
  | some sock =>
    if ready i sock then
      if sock = listen then accepter n listen t (ans.accept i) else t.recver i sock (ans.recv i)
    else t

/-- The scan when it has visited the first `k` slots. -/
def scanTo (k : ℕ) (t : Table) : Table := (List.range k).foldl (visit n listen ready ans) t

/-- All that a visit can do. -/
inductive Step (t : Table) : Table → Prop
  | stay : Step t t
  | refused : Step t ⟨t.slots, t.trace ++ [.accept listen none]⟩
  | full {sock : Fd} (h : ∀ i < n, t.slots i ≠ none) :
      Step t ⟨t.slots, t.trace ++ [.accept listen (some sock), .close sock]⟩
  | added {i : ℕ} {sock : Fd} (hi : i < n) (h : t.slots i = none) :
      Step t ⟨update t.slots i (some sock), t.trace ++ [.accept listen (some sock)]⟩
  | said {i : ℕ} {sock : Fd} {buff : Bytes} (hi : i < n) (h : t.slots i = some sock)
      (hl : sock ≠ listen) :
      Step t ⟨t.slots, t.trace ++ [.recv sock (.bytes buff), .message sock (cStr buff)]⟩
  | left {i : ℕ} {sock : Fd} {a : RecvAns} (hi : i < n) (h : t.slots i = some sock)
      (hl : sock ≠ listen) :
      Step t ⟨update t.slots i none, t.trace ++ [.recv sock a, .close sock]⟩

variable {n listen ready ans} {t t' : Table} {i k : ℕ} {sock : Fd}

@[simp] theorem scanTo_zero : scanTo n listen ready ans 0 t = t := rfl

theorem scanTo_succ : scanTo n listen ready ans (k + 1) t =
    visit n listen ready ans (scanTo n listen ready ans k t) k := by
  simp [scanTo, List.range_succ]

theorem visit_none (h : t.slots i = none) : visit n listen ready ans t i = t := by
  simp [visit, h]

theorem visit_some (h : t.slots i = some sock) : visit n listen ready ans t i =
    if ready i sock then
      if sock = listen then accepter n listen t (ans.accept i) else t.recver i sock (ans.recv i)
    else t := by
  simp [visit, h]

theorem recver_of_quits (t : Table) (i : ℕ) (sock : Fd) {a : RecvAns} (h : quits a = true) :
    t.recver i sock a = ⟨update t.slots i none, t.trace ++ [.recv sock a, .close sock]⟩ := by
  cases a with
  | bytes buff =>
    have h0 : buff.length = 0 := by simpa [quits] using h
    simp only [recver, h, if_true, recvCalls, if_pos h0]
  | fail e => simp only [recver, h, if_true, recvCalls]

theorem recver_of_not_quits (t : Table) (i : ℕ) (sock : Fd) {a : RecvAns} (h : quits a = false) :
    ∃ buff, a = .bytes buff ∧ t.recver i sock a =
      ⟨t.slots, t.trace ++ [.recv sock a, .message sock (cStr buff)]⟩ := by
  cases a with
  | bytes buff =>
    have h0 : ¬ buff.length = 0 := by simpa [quits] using h
    refine ⟨buff, rfl, ?_⟩
    simp only [recver, h, Bool.false_eq_true, if_false, recvCalls, if_neg h0]
  | fail e => cases h

theorem visit_step (hi : i < n) : Step n listen t (visit n listen ready ans t i) := by
  cases hsock : t.slots i with
  | none => rw [visit_none hsock]; exact .stay
  | some sock =>
    rw [visit_some hsock]
    split
    · split
      · unfold accepter
        split
        · exact .refused
        · split
          · rename_i hfull
            exact .full (firstFree_eq_none.1 hfull)
          · rename_i j hj
            obtain ⟨hjn, hfree, -⟩ := firstFree_eq_some.1 hj
            exact .added hjn hfree
      · rename_i hl
        cases hq : quits (ans.recv i) with
        | true => rw [recver_of_quits _ _ _ hq]; exact .left hi hsock hl
        | false =>
          obtain ⟨buff, hb, hr⟩ := recver_of_not_quits t i sock hq
          rw [hr, hb]
          exact .said hi hsock hl
    · exact .stay

theorem Step.trace (h : Step n listen t t') : ∃ u, t'.trace = t.trace ++ u := by
  cases h with
  | stay => exact ⟨[], by simp⟩
  | refused | full | added | said | left => exact ⟨_, rfl⟩

/-! ### The invariant -/

/-- The slots are the listening descriptor in front and the live descriptors, each once. -/
structure Ok (n : ℕ) (listen : Fd) (slots : ℕ → Option Fd) (trace : List Call) : Prop where
  listening : slots 0 = some listen
  distinct : Distinct n slots
  tracked : ∀ fd, (∃ i, 0 < i ∧ i < n ∧ slots i = some fd) ↔ fd ∈ live trace
  nodup : (live trace).Nodup
  unlisted : listen ∉ live trace
  closed : ClosedOnce trace

section Ok

variable {slots : ℕ → Option Fd} {trace : List Call} {fd : Fd}

theorem ok_init (hslots : ∀ i, slots i = if i = 0 then some listen else none) :
    Ok n listen slots [] where
  listening := (hslots 0).trans (if_pos rfl)
  distinct := by
    intro i j x _ _ hi hj
    rw [hslots] at hi hj
    split at hi
    · split at hj
      · omega
      · cases hj
    · cases hi
  tracked := by
    intro fd
    simp only [live_nil, List.not_mem_nil, iff_false, not_exists, not_and]
    intro i hi _ h
    simp [hslots, show i ≠ 0 by omega] at h
  nodup := List.nodup_nil
  unlisted := List.not_mem_nil
  closed := always_nil

variable (h : Ok n listen slots trace)

include h

theorem Ok.not_slot (hfd : fd ≠ listen) (hlive : fd ∉ live trace) (hi : i < n) :
    slots i ≠ some fd := by
  intro hs
  rcases Nat.eq_zero_or_pos i with rfl | hpos
  · rw [h.listening] at hs
    exact hfd (Option.some.inj hs).symm
  · exact hlive ((h.tracked fd).1 ⟨i, hpos, hi, hs⟩)

theorem Ok.pos_of_ne (hsock : slots i = some sock) (hl : sock ≠ listen) : 0 < i := by
  rcases Nat.eq_zero_or_pos i with rfl | hpos
  · rw [h.listening] at hsock
    exact absurd (Option.some.inj hsock).symm hl
  · exact hpos

theorem Ok.ne_listen (hpos : 0 < i) (hi : i < n) (hsock : slots i = some sock) :
    sock ≠ listen := by
  rintro rfl
  have := h.distinct i 0 sock hi (by omega) hsock h.listening
  omega

theorem Ok.firstFree_ne_none (hroom : (live trace).length + 1 < n) : firstFree n slots ≠ none := by
  intro hnone
  have hfull := firstFree_eq_none.1 hnone
  have hle := h.distinct.le_length (l := listen :: live trace) fun i hi => by
    obtain ⟨fd, hfd⟩ := Option.ne_none_iff_exists'.1 (hfull i hi)
    refine ⟨fd, ?_, hfd⟩
    by_cases hl : fd = listen
    · exact hl ▸ List.mem_cons_self
    · exact List.mem_cons_of_mem _ ((h.tracked fd).1 ⟨i, h.pos_of_ne hfd hl, hi, hfd⟩)
  rw [List.length_cons] at hle
  omega

theorem Ok.of_live {trace' : List Call} (hl : live trace' = live trace)
    (hc : ClosedOnce trace') : Ok n listen slots trace' :=
  ⟨h.listening, h.distinct, hl ▸ h.tracked, hl ▸ h.nodup, hl ▸ h.unlisted, hc⟩

theorem Ok.fill (hi : i < n) (hfree : slots i = none) (hne : sock ≠ listen)
    (hnew : sock ∉ live trace) :
    Ok n listen (update slots i (some sock)) (trace ++ [.accept listen (some sock)]) := by
  have hi0 : i ≠ 0 := by
    rintro rfl
    rw [h.listening] at hfree
    cases hfree
  have hl : live (trace ++ [.accept listen (some sock)]) = sock :: live trace := live_concat ..
  refine ⟨?_, h.distinct.fill fun j hj => h.not_slot hne hnew hj, fun fd => ?_, ?_, ?_, ?_⟩
  · rw [update_of_ne hi0.symm]; exact h.listening
  · rw [hl]
    constructor
    · rintro ⟨j, hj0, hjn, hj⟩
      rw [update_apply] at hj
      split at hj
      · exact Option.some.inj hj ▸ List.mem_cons_self
      · exact List.mem_cons_of_mem _ ((h.tracked fd).1 ⟨j, hj0, hjn, hj⟩)
    · intro hfd
      rcases List.mem_cons.1 hfd with rfl | hfd
      · exact ⟨i, by omega, hi, update_self ..⟩
      · obtain ⟨j, hj0, hjn, hj⟩ := (h.tracked fd).2 hfd
        refine ⟨j, hj0, hjn, ?_⟩
        rw [update_of_ne (fun hji => by rw [hji, hfree] at hj; cases hj)]
        exact hj
  · rw [hl]; exact List.nodup_cons.2 ⟨hnew, h.nodup⟩
  · rw [hl]; exact fun hm => (List.mem_cons.1 hm).elim (fun he => hne he.symm) h.unlisted
  · exact always_concat.2 ⟨h.closed, fun fd hfd => by cases hfd⟩

theorem Ok.free (hi : i < n) (hsock : slots i = some sock) (hne : sock ≠ listen) (a : RecvAns) :
    Ok n listen (update slots i none) (trace ++ [.recv sock a, .close sock]) := by
  have hpos := h.pos_of_ne hsock hne
  have hlive : sock ∈ live trace := (h.tracked sock).1 ⟨i, hpos, hi, hsock⟩
  have hl : live (trace ++ [.recv sock a, .close sock]) = (live trace).erase sock :=
    live_concat₂ ..
  refine ⟨?_, h.distinct.free, fun fd => ?_, ?_, ?_, ?_⟩
  · rw [update_of_ne hpos.ne]; exact h.listening
  · rw [hl, h.nodup.mem_erase_iff, ← h.tracked]
    constructor
    · rintro ⟨j, hj0, hjn, hj⟩
      rw [update_apply] at hj
      split at hj
      · cases hj
      · rename_i hji
        exact ⟨fun he => hji (h.distinct j i fd hjn hi hj (he ▸ hsock)), j, hj0, hjn, hj⟩
    · rintro ⟨hfd, j, hj0, hjn, hj⟩
      refine ⟨j, hj0, hjn, ?_⟩
      rw [update_of_ne (fun hji => hfd (Option.some.inj (hj.symm.trans (by rw [hji, hsock]))))]
      exact hj
  · rw [hl]; exact h.nodup.erase _
  · rw [hl]; exact fun hm => h.unlisted (List.mem_of_mem_erase hm)
  · refine always_concat₂.2 ⟨h.closed, fun fd hfd => (by cases hfd), fun fd hfd => ?_⟩
    obtain rfl : sock = fd := Call.close.inj hfd
    exact hlive

end Ok

/-- **A visit keeps the invariant**, when `accept` gave no descriptor that is open. -/
theorem Step.ok (h : Step n listen t t') (hok : Ok n listen t.slots t.trace)
    (hfresh : Fresh listen t'.trace) : Ok n listen t'.slots t'.trace := by
  cases h with
  | stay => exact hok
  | refused =>
    exact hok.of_live (live_concat ..) (always_concat.2 ⟨hok.closed, fun fd hfd => by cases hfd⟩)
  | @full sock _ =>
    refine hok.of_live ?_ (always_concat₂.2 ⟨hok.closed, ?_, ?_⟩)
    · rw [live_concat₂]
      exact List.erase_cons_head ..
    · exact fun fd hfd => by cases hfd
    · intro fd hfd
      obtain rfl : sock = fd := Call.close.inj hfd
      exact List.mem_cons_self
  | added hi hfree =>
    obtain ⟨hne, hnew⟩ := (always_concat.1 hfresh).2 listen _ rfl
    exact hok.fill hi hfree hne hnew
  | said hi hsock hl =>
    exact hok.of_live (live_concat₂ ..) (always_concat₂.2
      ⟨hok.closed, fun fd hfd => (by cases hfd), fun fd hfd => by cases hfd⟩)
  | left hi hsock hl => exact hok.free hi hsock hl _

theorem scanTo_mono {m : ℕ} (hkm : k ≤ m) (hm : m ≤ n) :
    ∃ u, (scanTo n listen ready ans m t).trace = (scanTo n listen ready ans k t).trace ++ u := by
  induction m with
  | zero => exact ⟨[], by rw [Nat.le_zero.1 hkm, List.append_nil]⟩
  | succ m ih =>
    by_cases hk : k = m + 1
    · exact ⟨[], by rw [hk, List.append_nil]⟩
    · obtain ⟨u, hu⟩ := ih (by omega) (by omega)
      have hstep : Step n listen (scanTo n listen ready ans m t)
        (visit n listen ready ans (scanTo n listen ready ans m t) m) := visit_step (by omega)
      obtain ⟨v, hv⟩ := hstep.trace
      exact ⟨u ++ v, by rw [scanTo_succ, hv, hu, List.append_assoc]⟩

theorem scanTo_fresh {m : ℕ} (hkm : k ≤ m) (hm : m ≤ n)
    (h : Fresh listen (scanTo n listen ready ans m t).trace) :
    Fresh listen (scanTo n listen ready ans k t).trace := by
  obtain ⟨u, hu⟩ : ∃ u, (scanTo n listen ready ans m t).trace =
    (scanTo n listen ready ans k t).trace ++ u := scanTo_mono hkm hm
  exact Always.of_append (u := u) (hu ▸ h)

theorem Ok.scanTo (h : Ok n listen t.slots t.trace) (hk : k ≤ n)
    (hfresh : Fresh listen (Table.scanTo n listen ready ans k t).trace) :
    Ok n listen (Table.scanTo n listen ready ans k t).slots
      (Table.scanTo n listen ready ans k t).trace := by
  induction k with
  | zero => exact h
  | succ k ih =>
    have hbefore := ih (by omega) (scanTo_fresh (Nat.le_succ k) hk hfresh)
    rw [scanTo_succ] at hfresh ⊢
    exact (visit_step (by omega)).ok hbefore hfresh

end Table

end NetProg.Multiplex
