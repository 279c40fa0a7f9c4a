import NetProg.Reactor.Segmentation

/-!
# `SplitMessage` loses no byte and stops on none

`deCode` leaves two things to the string class and to the arithmetic of `size_t`: a position behind
the end of a string is an exception, and a difference of sizes below zero wraps. In `deCode.checked`
either is an error; the error never comes (`checked_deCode`), on any bytes. What the loop removes
from the buffer is then cut into frames, byte by byte (`splitMessage_conserves`).
-/

namespace NetProg.Reactor

open NetProg.Lib

/-! ### The code with its checks -/

inductive StringFault where
  | outOfRange
  | wraps
  deriving DecidableEq, Repr

def substr (s : Bytes) (pos n : ℕ) : Except StringFault Bytes :=
  if pos ≤ s.length then .ok ((s.drop pos).take n) else .error .outOfRange

def erase (s : Bytes) (pos n : ℕ) : Except StringFault Bytes :=
  if pos ≤ s.length then .ok (s.take pos ++ s.drop (pos + n)) else .error .outOfRange

/-- The difference of two sizes. -/
def minus (a b : ℕ) : Except StringFault ℕ := if b ≤ a then .ok (a - b) else .error .wraps

def deCode.checked (s : Bytes) : Except StringFault (Bytes × Bytes) :=
  match find SEP s with
  | none => .ok ([], s)
  | some left =>
    if rfind SEP s = some left then .ok ([], s)
    else do
      let length := atoi (cStr (← substr s 0 left))
      if toSize length > (← minus (← minus s.length left) (2 * SEP.length)) then return ([], s)
      let s ← erase s 0 (left + SEP.length)
      let ret ← substr s 0 (toSize length)
      -- the sum of an `int` and a `size_t`
      let s ← erase s 0 ((toSize length + SEP.length) % 2 ^ 64)
      return (ret, s)

/-- At most `fuel` turns of the loop of `SplitMessage`. -/
def splitMessage.checked :
    ℕ → Bytes → List Bytes → Except StringFault (Option (Bytes × List Bytes))
  | 0, _, _ => .ok none
  | fuel + 1, inBuffer, messages => do
    let (message, inBuffer) ← deCode.checked inBuffer
    if message.isEmpty then return some (inBuffer, messages)
    else splitMessage.checked fuel inBuffer (messages ++ [message])

/-! ### No check fails -/

theorem substr_zero (s : Bytes) (n : ℕ) : substr s 0 n = .ok (s.take n) := by
  simp [substr]

theorem erase_zero (s : Bytes) (n : ℕ) : erase s 0 n = .ok (s.drop n) := by
  simp [erase]

theorem minus_of_le {a b : ℕ} (h : b ≤ a) : minus a b = .ok (a - b) := if_pos h

/-- **No position is out of range and no difference wraps**, on any bytes that a string can hold:
the first and the last separator do not overlap. -/
theorem checked_deCode {s : Bytes} (hs : s.length < 2 ^ 63) :
    deCode.checked s = .ok (deCode s) := by
  cases hf : find SEP s with
  | none => unfold deCode.checked deCode; rw [hf]
  | some left =>
    obtain ⟨H, t, rfl, rfl, -⟩ := find_split hf
    by_cases ht : SEP <:+: t
    · have h2 := two_le_of_sep ht
      have hsep : SEP.length = 2 := rfl
      have hlen : (H ++ (SEP ++ t)).length = H.length + 2 + t.length := by
        simp only [List.length_append, hsep]; omega
      have hr : ¬ rfind SEP (H ++ (SEP ++ t)) = some H.length := fun h =>
        (rfind_sep_eq_iff H t).1 h ht
      have hdiff : H.length + 2 + t.length - H.length - 2 * 2 = t.length - 2 := by omega
      have hdrop : (H ++ (SEP ++ t)).drop (H.length + 2) = t := by
        rw [← List.append_assoc, List.drop_left' (by simp [SEP])]
      rw [deCode_sep (find_free (by decide) hf) ht]
      unfold deCode.checked
      rw [hf]
      simp only [if_neg hr, substr_zero, List.take_left, bind, Except.bind, hlen, hsep]
      rw [minus_of_le (by omega)]
      dsimp only
      rw [minus_of_le (by omega), hdiff]
      dsimp only
      split_ifs with hgt
      · rfl
      · -- what is accepted is no longer than the buffer
        have hmod : (toSize (atoi (cStr H)) + 2) % 2 ^ 64 = toSize (atoi (cStr H)) + 2 :=
          Nat.mod_eq_of_lt (by omega)
        simp only [erase_zero, hdrop, hmod]
        rfl
    · have hr := (rfind_sep_eq_iff H t).2 ht
      unfold deCode.checked deCode
      rw [hf]
      simp only [if_pos hr]

theorem checked_splitMessage {fuel : ℕ} {inBuffer : Bytes} (messages : List Bytes)
    (hlen : inBuffer.length < 2 ^ 63) (hfuel : inBuffer.length < fuel) :
    splitMessage.checked fuel inBuffer messages = .ok (some (splitMessage inBuffer messages)) := by
  rw [splitMessage_eq, ← splitMessage_loop messages hfuel]
  induction fuel generalizing inBuffer messages with
  | zero => exact absurd hfuel (Nat.not_lt_zero _)
  | succ fuel ih =>
    rw [splitMessage.checked, splitMessage.loop, checked_deCode hlen]
    simp only [bind, Except.bind]
    cases hm : (deCode inBuffer).1.isEmpty with
    | true => rfl
    | false =>
      rcases deCode_shrinks inBuffer with h0 | hlt
      · rw [h0] at hm; cases hm
      · exact ih _ (by omega) (by omega)

/-! ### What is removed -/

/-- `c` is a frame as `deCode` cuts it: a header without a separator that `atoi` reads as the length
of `m`, a separator, `m`, and two bytes that are not looked at. -/
def Piece (c m : Bytes) : Prop :=
  ∃ H t, c = H ++ SEP ++ m ++ t ∧ ¬ SEP <:+: H ∧ (atoi (cStr H)).toInt = m.length ∧ t.length = 2

/-- A negative length is never accepted: as a `size_t` it is longer than any string. -/
theorem toInt_of_declares {z : Int32} {n : ℕ} (h : toSize z = n) (hn : n < 2 ^ 63) :
    z.toInt = n := by
  by_cases hneg : z.toInt < 0
  · have := le_toSize_of_neg hneg
    omega
  · rw [toSize_of_nonneg (by omega)] at h
    omega

/-- Frames at the front of a byte string, written out one behind the other. -/
theorem Frames.pieces {w r : Bytes} {ms : List Bytes} (h : Frames w ms r)
    (hw : w.length < 2 ^ 63) : ∃ cs, w = cs.flatten ++ r ∧ List.Forall₂ Piece cs ms := by
  induction h with
  | nil s => exact ⟨[], rfl, .nil⟩
  | @cons H m e r r' ms hfree hdecl htwo _ _ ih =>
    simp only [List.length_append] at hw
    obtain ⟨cs, hr, hcs⟩ := ih (by omega)
    refine ⟨(H ++ SEP ++ m ++ e) :: cs, ?_, .cons ⟨H, e, rfl, hfree, ?_, htwo⟩ hcs⟩
    · rw [List.flatten_cons, List.append_assoc _ cs.flatten, ← hr]
    · exact toInt_of_declares hdecl (by omega)

/-- **`SplitMessage` is total and conserves bytes.** With one turn more than the buffer has bytes
the loop has come to its end and no check has failed; and the buffer was the frames of the messages
delivered, in order, then perhaps one frame of declared length zero, then what is left. -/
theorem splitMessage_conserves (b : Bytes) (hb : b.length < 2 ^ 63) (messages : List Bytes) :
    (∀ fuel, b.length < fuel →
      splitMessage.checked fuel b messages = .ok (some (splitMessage b messages))) ∧
    ∃ ms cs d, (splitMessage b messages).2 = messages ++ ms ∧
      b = cs.flatten ++ d ++ (splitMessage b messages).1 ∧
      List.Forall₂ Piece cs ms ∧ (∀ m ∈ ms, m ≠ []) ∧ (d = [] ∨ Piece d []) := by
  refine ⟨fun fuel => checked_splitMessage messages hb, ?_⟩
  obtain ⟨ms, hu, hdel, hinit, -⟩ := Cutter.drain_spec cutter List.isEmpty b
  obtain ⟨cs, hcs, hall⟩ := (frames_iff_units.2 hu).pieces hb
  rw [splitMessage_eq]
  dsimp only
  rw [hdel]
  have hne : ∀ m ∈ ms.filter (fun m => !m.isEmpty), m ≠ [] := fun m hm => by
    simpa using (List.mem_filter.1 hm).2
  refine ⟨ms.filter (fun m => !m.isEmpty), ?_⟩
  rcases List.eq_nil_or_concat ms with rfl | ⟨ms', m, rfl⟩
  · cases hall
    exact ⟨[], [], rfl, by simpa using hcs, .nil, hne, Or.inl rfl⟩
  · rw [List.concat_eq_append] at hall hinit hne ⊢
    rw [List.dropLast_concat] at hinit
    have hkeep : ms'.filter (fun m => !m.isEmpty) = ms' :=
      List.filter_eq_self.2 fun x hx => by simp [hinit x hx]
    rw [List.filter_append, hkeep] at hne ⊢
    by_cases hm : m = []
    · -- the loop gave up on the last frame
      subst hm
      have hlast := List.forall₂_drop_append cs ms' [[]] hall
      obtain ⟨d, hd⟩ : ∃ d, cs.drop ms'.length = [d] :=
        List.length_eq_one_iff.1 (by simpa using hlast.length_eq)
      rw [hd] at hlast
      refine ⟨cs.take ms'.length, d, by simp, ?_, ?_, hne, Or.inr (List.forall₂_cons.1 hlast).1⟩
      · conv_lhs => rw [hcs, ← List.take_append_drop ms'.length cs, hd]
        simp
      · simpa using List.forall₂_take_append cs ms' [[]] hall
    · rw [List.filter_cons_of_pos (by simpa using hm), List.filter_nil] at hne ⊢
      exact ⟨cs, [], rfl, by simpa using hcs, hall, hne, Or.inl rfl⟩

/-- `"1\r\nab\r"`, a frame whose header is no number, `"x\r\n01"`, and a frame behind it. -/
theorem splitMessage_conserves_example :
    splitMessage.checked 19 ([49, 13, 10, 97, 98, 13] ++ [120, 13, 10, 48, 49] ++
      [49, 13, 10, 99, 13, 10]) [] = .ok (some ([49, 13, 10, 99, 13, 10], [[97]])) :=
  (splitMessage_conserves ([49, 13, 10, 97, 98, 13] ++ [120, 13, 10, 48, 49] ++
    [49, 13, 10, 99, 13, 10]) (by decide) []).1 19 (by decide)

end NetProg.Reactor
