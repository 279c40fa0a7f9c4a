import NetProg.Lib.Stream
import NetProg.Reactor.Protocol

/-!
# Framing: `deCode` and `SplitMessage` as a stream cutter

`deCode` decides with the first and the last `SEP` of the whole buffer and a length check. Here its
effect is described by what stands at the front of the buffer alone: a complete frame (`FrameAt`) is
cut off whatever follows it, and anything else is left as it is. That makes `deCode` a `Cutter`, so
the facts about chunked streams come from the library.
-/

namespace NetProg.Reactor

open NetProg.Lib

/-! ### The separator -/

theorem sep_infix_append {s t : Bytes} : SEP <:+: s ++ (SEP ++ t) := ⟨s, t, by simp⟩

theorem sep_infix_concat_cr {s : Bytes} (h : SEP <:+: s ++ [13]) : SEP <:+: s :=
  infix_of_infix_concat (by decide) h

theorem sep_infix_cons_lf {s : Bytes} (h : SEP <:+: 10 :: s) : SEP <:+: s := by
  rcases List.infix_cons_iff.1 h with h | h
  · obtain ⟨u, hu⟩ := h
    simp [SEP] at hu
  · exact h

theorem find_sep {H : Bytes} (hH : ¬ SEP <:+: H) (t : Bytes) :
    find SEP (H ++ (SEP ++ t)) = some H.length :=
  find_first (by decide) H t fun h => hH (sep_infix_concat_cr h)

theorem rfind_sep_eq_iff (H t : Bytes) :
    rfind SEP (H ++ (SEP ++ t)) = some H.length ↔ ¬ SEP <:+: t := by
  constructor
  · intro h hc
    obtain ⟨j, hj⟩ : ∃ j, rfind SEP t = some j := by
      cases hr : rfind SEP t with
      | none => exact absurd hc (rfind_eq_none.1 hr)
      | some j => exact ⟨j, rfl⟩
    have h2 := rfind_append_left hj (H ++ SEP)
    rw [List.append_assoc, h, Option.some.injEq, List.length_append] at h2
    have : SEP.length = 2 := rfl
    omega
  · intro h
    exact rfind_last (by decide) H t fun hc => h (sep_infix_cons_lf hc)

theorem sep_split {H H' t t' : Bytes} (h : H ++ (SEP ++ t) = H' ++ (SEP ++ t')) (hH : ¬ SEP <:+: H)
    (hH' : ¬ SEP <:+: H') : H = H' ∧ t = t' := by
  have h1 := find_sep hH t
  rw [h, find_sep hH' t', Option.some.injEq] at h1
  obtain ⟨rfl, ht⟩ := List.append_inj h h1.symm
  exact ⟨rfl, List.append_cancel_left ht⟩

theorem two_le_of_sep {t : Bytes} (h : SEP <:+: t) : 2 ≤ t.length := h.length_le

/-! ### What `deCode` cuts off -/

/-- A complete frame at the front of `s`: a header `H` that declares `n` bytes, and behind its
separator a text `t` that holds those bytes, two more, and some separator. -/
structure FrameAt (s H : Bytes) (n : ℕ) (t : Bytes) : Prop where
  eq : s = H ++ (SEP ++ t)
  free : ¬ SEP <:+: H
  closed : SEP <:+: t
  declares : toSize (atoi (cStr H)) = n
  fits : n + 2 ≤ t.length

theorem FrameAt.append {s H t : Bytes} {n : ℕ} (h : FrameAt s H n t) (u : Bytes) :
    FrameAt (s ++ u) H n (t ++ u) where
  eq := by rw [h.eq]; simp
  free := h.free
  closed := h.closed.trans (List.prefix_append t u).isInfix
  declares := h.declares
  fits := by have := h.fits; rw [List.length_append]; omega

theorem FrameAt.unique {s H H' t t' : Bytes} {n n' : ℕ} (h : FrameAt s H n t)
    (h' : FrameAt s H' n' t') : H = H' ∧ n = n' ∧ t = t' := by
  obtain ⟨rfl, ht⟩ := sep_split (h.eq.symm.trans h'.eq) h.free h'.free
  exact ⟨rfl, h.declares.symm.trans h'.declares, ht⟩

theorem length_check {H t : Bytes} (ht : SEP <:+: t) :
    subSize (subSize (H ++ (SEP ++ t)).length H.length) (2 * SEP.length) = t.length - 2 := by
  have h2 := two_le_of_sep ht
  have hs : SEP.length = 2 := rfl
  rw [subSize_of_le (a := (H ++ (SEP ++ t)).length) (by simp), subSize_of_le]
  · simp only [List.length_append, hs]; omega
  · simp only [List.length_append, hs]; omega

theorem deCode_sep {H : Bytes} (hH : ¬ SEP <:+: H) {t : Bytes} (ht : SEP <:+: t) :
    deCode (H ++ (SEP ++ t)) =
      if toSize (atoi (cStr H)) > t.length - 2 then ([], H ++ (SEP ++ t))
      else (t.take (toSize (atoi (cStr H))), t.drop (toSize (atoi (cStr H)) + 2)) := by
  have hr : ¬ rfind SEP (H ++ (SEP ++ t)) = some H.length := fun h =>
    (rfind_sep_eq_iff H t).1 h ht
  have hdrop : (H ++ (SEP ++ t)).drop (H.length + SEP.length) = t := by
    rw [← List.append_assoc, ← List.length_append, List.drop_left]
  unfold deCode
  rw [find_sep hH t]
  simp only [if_neg hr, List.take_left, length_check ht, hdrop]
  rfl

/-- **A complete frame is cut off**, whatever follows it. -/
theorem deCode_of_frame {s H t : Bytes} {n : ℕ} (h : FrameAt s H n t) :
    deCode s = (t.take n, t.drop (n + 2)) := by
  have := h.fits
  rw [h.eq, deCode_sep h.free h.closed, h.declares, if_neg (by omega)]

/-- **Anything else is left as it is.** -/
theorem deCode_of_not_frame {s : Bytes} (h : ∀ H n t, ¬ FrameAt s H n t) :
    deCode s = ([], s) := by
  cases hf : find SEP s with
  | none => unfold deCode; rw [hf]
  | some left =>
    obtain ⟨H, t, rfl, rfl, -⟩ := find_split hf
    have hH : ¬ SEP <:+: H := find_free (by decide) hf
    by_cases ht : SEP <:+: t
    · rw [deCode_sep hH ht]
      apply if_pos
      by_contra hc
      have := two_le_of_sep ht
      exact h H _ t ⟨rfl, hH, ht, rfl, by omega⟩
    · unfold deCode
      rw [hf]
      exact if_pos ((rfind_sep_eq_iff H t).2 ht)

/-! ### The cutter -/

/-- What `deCode` removes, with the payload, or `none` when it leaves the buffer as it is. -/
def cut (s : Bytes) : Option (Bytes × Bytes) :=
  if (deCode s).2.length < s.length then some (deCode s) else none

theorem cut_eq_some {s m r : Bytes} :
    cut s = some (m, r) ↔ ∃ H n t, FrameAt s H n t ∧ m = t.take n ∧ r = t.drop (n + 2) := by
  constructor
  · intro h
    unfold cut at h
    split at h
    · rename_i hlt
      by_cases hf : ∃ H n t, FrameAt s H n t
      · obtain ⟨H, n, t, hf⟩ := hf
        rw [deCode_of_frame hf, Option.some.injEq, Prod.mk.injEq] at h
        exact ⟨H, n, t, hf, h.1.symm, h.2.symm⟩
      · rw [deCode_of_not_frame fun H n t hc => hf ⟨H, n, t, hc⟩] at hlt
        exact absurd hlt (lt_irrefl _)
    · cases h
  · rintro ⟨H, n, t, hf, rfl, rfl⟩
    have hfit := hf.fits
    have hs : s.length = H.length + 2 + t.length := by
      rw [hf.eq]; simp [SEP]; omega
    unfold cut
    rw [deCode_of_frame hf, if_pos (by rw [List.length_drop]; omega)]

theorem cut_eq_none {s : Bytes} : cut s = none ↔ ∀ H n t, ¬ FrameAt s H n t := by
  constructor
  · intro h H n t hf
    have := cut_eq_some.2 ⟨H, n, t, hf, rfl, rfl⟩
    rw [h] at this; cases this
  · intro h
    cases hc : cut s with
    | none => rfl
    | some mr =>
      obtain ⟨H, n, t, hf, -⟩ := cut_eq_some.1 hc
      exact absurd hf (h H n t)

theorem deCode_eq_cut (s : Bytes) : deCode s = (cut s).getD ([], s) := by
  cases hc : cut s with
  | none => rw [deCode_of_not_frame (cut_eq_none.1 hc)]; rfl
  | some mr =>
    obtain ⟨m, r⟩ := mr
    obtain ⟨H, n, t, hf, rfl, rfl⟩ := cut_eq_some.1 hc
    rw [deCode_of_frame hf]; rfl

/-- `deCode` as a cutter of the library. -/
def cutter : Cutter UInt8 Bytes where
  cut := cut
  shrink := by
    intro s m r h
    unfold cut at h
    split at h
    · rename_i hlt
      rw [Option.some.injEq] at h
      rwa [h] at hlt
    · cases h
  stable := by
    intro s m r h u
    obtain ⟨H, n, t, hf, rfl, rfl⟩ := cut_eq_some.1 h
    have hfit := hf.fits
    refine cut_eq_some.2 ⟨H, n, t ++ u, hf.append u, ?_, ?_⟩
    · rw [List.take_append_of_le_length (by omega)]
    · rw [List.drop_append_of_le_length (by omega)]

/-- `deCode` that has returned something, or has changed the buffer, does the same whatever follows
the buffer. -/
theorem deCode_append {s p r : Bytes} (h : deCode s = (p, r)) (hne : p ≠ [] ∨ r ≠ s) (t : Bytes) :
    deCode (s ++ t) = (p, r ++ t) := by
  rw [deCode_eq_cut] at h
  cases hc : cut s with
  | none =>
    -- neither of the two has happened
    rw [hc] at h
    obtain ⟨rfl, rfl⟩ := Prod.mk.inj h
    rcases hne with hne | hne <;> exact absurd rfl hne
  | some mr =>
    rw [hc] at h
    obtain rfl : mr = (p, r) := h
    rw [deCode_eq_cut, show cut (s ++ t) = some (p, r ++ t) from cutter.stable hc t]
    rfl

/-- **Decoding is stable under later bytes**, for a payload and for a frame that is thrown away. -/
theorem deCode_stable (s t : Bytes) :
    (∀ p r, deCode s = (p, r) → p ≠ [] → deCode (s ++ t) = (p, r ++ t)) ∧
      ∀ r, deCode s = ([], r) → r ≠ s → deCode (s ++ t) = ([], r ++ t) :=
  ⟨fun _ _ h hp => deCode_append h (Or.inl hp) t, fun _ h hr => deCode_append h (Or.inr hr) t⟩

/-- A payload whose frame ends in half a separator, and an empty frame. -/
theorem deCode_stable_example :
    deCode ([49, 13, 10, 97, 13, 10, 13] ++ [10, 98]) = ([97], [13] ++ [10, 98]) ∧
      deCode ([48, 13, 10, 13, 10] ++ [13, 10]) = ([], [] ++ [13, 10]) :=
  ⟨(deCode_stable [49, 13, 10, 97, 13, 10, 13] [10, 98]).1 [97] [13] (by decide) (by decide),
    (deCode_stable [48, 13, 10, 13, 10] [13, 10]).2 [] (by decide) (by decide)⟩

/-- A frame that the last byte received completes leaves no complete frame behind. -/
theorem cut_concat {s m r : Bytes} {a : UInt8} (hs : cut s = none)
    (h : cut (s ++ [a]) = some (m, r)) : cut r = none := by
  obtain ⟨H, n, t, hf, rfl, rfl⟩ := cut_eq_some.1 h
  rcases List.eq_nil_or_concat t with rfl | ⟨t', b, rfl⟩
  · exact absurd (two_le_of_sep hf.closed) (by simp)
  rw [List.concat_eq_append] at hf ⊢
  have hsplit : s ++ [a] = (H ++ SEP ++ t') ++ [b] := by rw [hf.eq]; simp
  have heq : s = H ++ SEP ++ t' := (List.append_inj' hsplit rfl).1
  have hfit := hf.fits
  by_cases hlen : n + 2 ≤ t'.length
  · -- the last byte completes the closing separator: none lies in `t'`
    have hno : ¬ SEP <:+: t' := fun hc =>
      cut_eq_none.1 hs H n t' ⟨by rw [heq, List.append_assoc], hf.free, hc, hf.declares, hlen⟩
    refine cut_eq_none.2 fun H' n' t'' hf' => hno ?_
    rcases List.eq_nil_or_concat t'' with rfl | ⟨u, c, rfl⟩
    · exact absurd (two_le_of_sep hf'.closed) (by simp)
    have h1 := hf'.eq
    rw [List.drop_append_of_le_length hlen, List.concat_eq_append, ← List.append_assoc,
      ← List.append_assoc] at h1
    have h2 : t'.drop (n + 2) = H' ++ SEP ++ u := (List.append_inj' h1 rfl).1
    have h3 : SEP <:+: t'.drop (n + 2) := by rw [h2]; exact ⟨H', u, rfl⟩
    exact h3.trans (List.drop_suffix _ _).isInfix
  · rw [List.length_append, List.length_singleton] at hfit
    rw [List.drop_of_length_le (by simp; omega)]
    exact cutter.cut_nil

/-! ### `SplitMessage` -/

theorem splitMessage_loop {fuel : ℕ} {inBuffer : Bytes} (messages : List Bytes)
    (h : inBuffer.length < fuel) :
    splitMessage.loop fuel inBuffer messages =
      some ((cutter.drain List.isEmpty inBuffer).2,
        messages ++ (cutter.drain List.isEmpty inBuffer).1) := by
  induction fuel generalizing inBuffer messages with
  | zero => exact absurd h (Nat.not_lt_zero _)
  | succ fuel ih =>
    rw [splitMessage.loop, deCode_eq_cut]
    cases hc : cut inBuffer with
    | none => rw [Cutter.drain_of_none (show cutter.cut inBuffer = none from hc)]; simp
    | some mr =>
      obtain ⟨m, r⟩ := mr
      have hc' : cutter.cut inBuffer = some (m, r) := hc
      have hlt := cutter.shrink hc'
      cases hm : m.isEmpty with
      | true => rw [Cutter.drain_of_stop hc' hm]; simp [hm]
      | false =>
        rw [Cutter.drain_of_some hc' hm]
        simp [hm, ih _ (show r.length < fuel by omega)]

/-- **`SplitMessage` is the receiver loop** that gives up on an empty payload. -/
theorem splitMessage_eq (inBuffer : Bytes) (messages : List Bytes) :
    splitMessage inBuffer messages = ((cutter.drain List.isEmpty inBuffer).2,
      messages ++ (cutter.drain List.isEmpty inBuffer).1) := by
  unfold splitMessage
  simp only [splitMessage_loop messages (Nat.lt_succ_self _), Option.get_some]

/-- A connection whose `_in_buffer` gets the chunks one after another, with `SplitMessage` called
after each: the buffer at the end and all the messages delivered. -/
def receive (inBuffer : Bytes) : List Bytes → Bytes × List Bytes
  | [] => (inBuffer, [])
  | chunk :: chunks =>
    let (inBuffer, messages) := splitMessage (inBuffer ++ chunk) []
    let (inBuffer, messages') := receive inBuffer chunks
    (inBuffer, messages ++ messages')

theorem receive_eq (inBuffer : Bytes) (chunks : List Bytes) :
    receive inBuffer chunks = (cutter.feed List.isEmpty inBuffer chunks).swap := by
  induction chunks generalizing inBuffer with
  | nil => rfl
  | cons c cs ih =>
    rw [receive, Cutter.feed_cons, splitMessage_eq]
    simp only [ih, List.nil_append, Prod.swap_prod_mk, Prod.fst_swap, Prod.snd_swap]

end NetProg.Reactor
