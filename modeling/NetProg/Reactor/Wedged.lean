import NetProg.Reactor.Segmentation

/-!
# Buffers from which no message is ever delivered

`deCode` compares the declared length with the size of the buffer as unsigned numbers, so a header
that declares a negative length is never complete: the bytes behind it pile up and no later frame is
dispatched. `Stuck` are the buffers that are lost in this way, for their header is negative whatever
follows, or it will be once the frames of declared length zero in front are gone.

* `Stuck.receive`: a stuck buffer delivers nothing, whatever chunks follow;
* `revives_of_not_stuck`: any other buffer delivers a message after few more bytes;
* `revives_iff`: both, for every buffer that a connection can have.
-/

namespace NetProg.Reactor

open NetProg.Lib

/-! ### Headers -/

/-- `H` is the header of the buffer `b`, or one that `b` can still get. -/
def Header (b H : Bytes) : Prop := ∃ u t, b ++ u = H ++ (SEP ++ t) ∧ ¬ SEP <:+: H

/-- A buffer that is lost: what stands behind some frames of declared length zero can only have a
header that declares a negative length. -/
inductive Stuck : Bytes → Prop
  | header {b : Bytes} (h : ∀ H, Header b H → (atoi (cStr H)).toInt < 0) : Stuck b
  | behind {H e r : Bytes} (free : ¬ SEP <:+: H) (zero : atoi (cStr H) = 0) (two : e.length = 2)
      (rest : Stuck r) : Stuck (H ++ (SEP ++ (e ++ r)))

theorem Header.of_append {b c H : Bytes} (h : Header (b ++ c) H) : Header b H := by
  obtain ⟨u, t, hu, hH⟩ := h
  exact ⟨c ++ u, t, by rw [← List.append_assoc, hu], hH⟩

theorem header_self {H : Bytes} (hH : ¬ SEP <:+: H) (t : Bytes) : Header (H ++ (SEP ++ t)) H :=
  ⟨[], t, by simp, hH⟩

theorem Header.eq {H H' t : Bytes} (h : Header (H ++ (SEP ++ t)) H') (hH : ¬ SEP <:+: H) :
    H' = H := by
  obtain ⟨u, t', hu, hH'⟩ := h
  have heq : H ++ (SEP ++ (t ++ u)) = H' ++ (SEP ++ t') := by rw [← hu]; simp
  exact ((sep_split heq hH hH').1).symm

theorem Stuck.append {b : Bytes} (h : Stuck b) (c : Bytes) : Stuck (b ++ c) := by
  induction h with
  | header h => exact .header fun H hH => h H hH.of_append
  | @behind H e r free zero two _ ih =>
    have heq : H ++ (SEP ++ (e ++ r)) ++ c = H ++ (SEP ++ (e ++ (r ++ c))) := by simp
    rw [heq]
    exact .behind free zero two ih

/-! ### `SplitMessage` on one frame -/

section Split

variable {s H t : Bytes} {n : ℕ}

theorem splitMessage_of_not_frame (h : ∀ H n t, ¬ FrameAt s H n t) :
    splitMessage s [] = (s, []) := by
  have hc : cutter.cut s = none := cut_eq_none.2 h
  rw [splitMessage_eq, Cutter.drain_of_none hc]
  rfl

theorem splitMessage_of_empty (h : FrameAt s H 0 t) : splitMessage s [] = (t.drop 2, []) := by
  have hc : cutter.cut s = some ([], t.drop 2) := cut_eq_some.2 ⟨H, 0, t, h, rfl, rfl⟩
  rw [splitMessage_eq, Cutter.drain_of_stop hc rfl]
  rfl

theorem splitMessage_of_frame (h : FrameAt s H n t) (hn : 0 < n) : (splitMessage s []).2 ≠ [] := by
  have hfit := h.fits
  have hc : cutter.cut s = some (t.take n, t.drop (n + 2)) := cut_eq_some.2 ⟨H, n, t, h, rfl, rfl⟩
  have hm : (t.take n).isEmpty = false := by
    rw [List.isEmpty_eq_false_iff, ← List.length_pos_iff, List.length_take_of_le (by omega)]
    exact hn
  rw [splitMessage_eq, Cutter.drain_of_some hc hm]
  simp

end Split

/-! ### Stuck buffers -/

/-- **A stuck buffer stays stuck**: `SplitMessage` finds nothing in it. No `std::string` has
`2 ^ 63` bytes. -/
theorem Stuck.splitMessage {s : Bytes} (h : Stuck s) (hlen : s.length < 2 ^ 63) :
    ∃ r, Reactor.splitMessage s [] = (r, []) ∧ Stuck r ∧ r.length ≤ s.length := by
  by_cases hf : ∃ H n t, FrameAt s H n t
  · obtain ⟨H, n, t, hf⟩ := hf
    cases h with
    | header h =>
      -- the declared length is more than any buffer holds
      have hneg := le_toSize_of_neg (h H (hf.eq ▸ header_self hf.free t))
      have hfit := hf.fits
      have hs := congrArg List.length hf.eq
      rw [hf.declares] at hneg
      simp only [List.length_append] at hs
      omega
    | @behind H' e r free zero two rest =>
      obtain ⟨rfl, rfl⟩ := sep_split hf.eq free hf.free
      have hn : n = 0 := by rw [← hf.declares, zero]; rfl
      subst hn
      refine ⟨r, ?_, rest, ?_⟩
      · rw [splitMessage_of_empty hf, List.drop_left' two]
      · simp only [List.length_append]; omega
  · exact ⟨s, splitMessage_of_not_frame fun H n t hc => hf ⟨H, n, t, hc⟩, h, le_rfl⟩

/-- **Nothing is delivered from a stuck buffer**, however many chunks follow. -/
theorem Stuck.receive {b : Bytes} (h : Stuck b) (chunks : List Bytes)
    (hlen : (b ++ chunks.flatten).length < 2 ^ 63) : (Reactor.receive b chunks).2 = [] := by
  induction chunks generalizing b with
  | nil => rfl
  | cons c cs ih =>
    simp only [List.flatten_cons, List.length_append] at hlen
    obtain ⟨r, hr, hstuck, hle⟩ := (h.append c).splitMessage (by rw [List.length_append]; omega)
    rw [List.length_append] at hle
    have hrest := ih hstuck (by rw [List.length_append]; omega)
    simp only [Reactor.receive, hr, hrest, List.append_nil]

/-! ### Other buffers -/

/-- At most `k` more bytes make the connection deliver a message. -/
def RevivesIn (k : ℕ) (b : Bytes) : Prop :=
  ∃ chunks : List Bytes, chunks.flatten.length ≤ k ∧ (receive b chunks).2 ≠ []

theorem RevivesIn.of_frame {b c H t : Bytes} {n : ℕ} (h : FrameAt (b ++ c) H n t) (hn : 0 < n) :
    RevivesIn c.length b := by
  refine ⟨[c], by simp, ?_⟩
  have := splitMessage_of_frame h hn
  simpa [receive] using this

theorem RevivesIn.step {b c r : Bytes} {k : ℕ} (h : splitMessage (b ++ c) [] = (r, []))
    (hr : RevivesIn k r) : RevivesIn (c.length + k) b := by
  obtain ⟨chunks, hlen, hne⟩ := hr
  refine ⟨c :: chunks, by simpa using hlen, ?_⟩
  simpa only [receive, h, List.nil_append] using hne

theorem RevivesIn.mono {b : Bytes} {k k' : ℕ} (h : RevivesIn k b) (hk : k ≤ k') : RevivesIn k' b :=
  ⟨h.choose, h.choose_spec.1.trans hk, h.choose_spec.2⟩

/-- A header that declares at least one byte is revived by the rest of its frame. -/
theorem revivesIn_of_pos {H : Bytes} (hH : ¬ SEP <:+: H) (t : Bytes)
    (hpos : 0 ≤ (atoi (cStr H)).toInt) (h0 : atoi (cStr H) ≠ 0) :
    RevivesIn (2 ^ 31 + 2) (H ++ (SEP ++ t)) := by
  have hlt := toSize_lt_of_nonneg hpos
  have hn : 0 < toSize (atoi (cStr H)) := by
    rw [toSize_of_nonneg hpos]
    have hne : (atoi (cStr H)).toInt ≠ 0 := fun h => h0 (Int32.toInt_inj.1 h)
    omega
  have hf : FrameAt (H ++ (SEP ++ t) ++ (List.replicate (toSize (atoi (cStr H))) 48 ++ SEP)) H
      (toSize (atoi (cStr H))) (t ++ (List.replicate (toSize (atoi (cStr H))) 48 ++ SEP)) :=
    ⟨by simp, hH, ⟨t ++ List.replicate (toSize (atoi (cStr H))) 48, [], by simp⟩, rfl,
      by simp [SEP]⟩
  refine (RevivesIn.of_frame hf hn).mono ?_
  simp only [List.length_append, List.length_replicate, SEP, List.length_cons, List.length_nil]
  omega

theorem revivesIn_nil : RevivesIn 6 [] := by
  have hp : Payload [97] := ⟨by decide, by decide⟩
  have hf := frameAt_enCode hp []
  rw [List.append_nil] at hf
  exact (RevivesIn.of_frame (b := []) (c := enCode [97]) hf (by decide)).mono (by decide)

theorem revivesIn_header {H : Bytes} (hH : ¬ SEP <:+: H) (hpos : 0 ≤ (atoi (cStr H)).toInt) :
    RevivesIn (2 ^ 31 + 8) (H ++ SEP) := by
  by_cases h0 : atoi (cStr H) = 0
  · have hf : FrameAt (H ++ SEP ++ SEP) H 0 SEP :=
      ⟨by simp, hH, List.infix_refl _, by rw [h0]; rfl, by decide⟩
    exact (RevivesIn.step (splitMessage_of_empty hf) revivesIn_nil).mono (by decide)
  · have := revivesIn_of_pos hH [] hpos h0
    rw [List.append_nil] at this
    exact this.mono (by decide)

theorem sep_infix_append_digits {s ds : Bytes} (hds : ∀ c ∈ ds, isDigit c = true)
    (h : SEP <:+: s ++ ds) : SEP <:+: s := by
  induction ds using List.reverseRecOn with
  | nil => rwa [List.append_nil] at h
  | append_singleton ds c ih =>
    refine ih (fun x hx => hds x (List.mem_append_left _ hx)) ?_
    rw [← List.append_assoc] at h
    rcases List.infix_concat_iff.1 h with hc | hc
    · obtain ⟨u, hu⟩ := hc
      have hlast := congrArg List.getLast? hu
      obtain rfl : 10 = c := by simpa [SEP] using hlast
      exact absurd (hds 10 (by simp)) (by decide)
    · exact hc

/-- A buffer without a separator that can get a header which is not negative gets one by a few
bytes. -/
theorem exists_short_header {b H : Bytes} (hb : ¬ SEP <:+: b) (h : Header b H)
    (hpos : 0 ≤ (atoi (cStr H)).toInt) : ∃ H' u : Bytes, b ++ u = H' ++ SEP ∧ ¬ SEP <:+: H' ∧
      0 ≤ (atoi (cStr H')).toInt ∧ u.length ≤ 22 := by
  obtain ⟨u, t, hu, hH⟩ := h
  have hself : (b ++ SEP = b ++ SEP ∧ ¬ SEP <:+: b) := ⟨rfl, hb⟩
  rcases List.append_eq_append_iff.1 hu with ⟨v, rfl, hv⟩ | ⟨v, rfl, hv⟩
  · -- the header goes on behind `b`
    by_cases h0 : (0 : UInt8) ∈ b
    · have hc : ∀ x : Bytes, cStr (b ++ x) = cStr b := fun x => by
        have hlen : (b.takeWhile (· ≠ 0)).length ≠ b.length := fun he => by
          have := List.takeWhile_eq_self_iff.1 ((List.takeWhile_prefix _).eq_of_length he) 0 h0
          simp at this
        unfold cStr
        rw [List.takeWhile_append, if_neg hlen]
      rw [hc] at hpos
      exact ⟨b, SEP, rfl, hb, hpos, by decide⟩
    · have hc : ∀ x : Bytes, cStr (b ++ x) = b ++ cStr x := fun x => by
        unfold cStr
        rw [List.takeWhile_append_of_pos fun c hc => by
          simpa using fun e : c = 0 => h0 (e ▸ hc)]
      obtain ⟨ds, hds, hlen, heq⟩ := exists_digits_strtol b (cStr v)
      have hcd : cStr ds = ds := cStr_of_free fun hm => absurd (hds 0 hm) (by decide)
      refine ⟨b ++ ds, ds ++ SEP, by simp, fun hs => hb (sep_infix_append_digits hds hs), ?_, ?_⟩
      · rw [hc] at hpos ⊢
        rw [hcd]
        unfold atoi at hpos ⊢
        rcases heq with heq | heq
        · rwa [heq]
        · rw [heq]; decide
      · simp only [List.length_append, SEP, List.length_cons, List.length_nil]; omega
  · -- `b` holds the header, so what is missing is part of the separator
    rcases v with _ | ⟨a, _ | ⟨a', v⟩⟩
    · rw [List.append_nil] at hb ⊢
      exact ⟨H, SEP, rfl, hH, hpos, by decide⟩
    · obtain rfl : a = 13 := by simp [SEP] at hv; exact hv.1.symm
      exact ⟨H, [10], by simp [SEP], hH, hpos, by decide⟩
    · obtain ⟨rfl, rfl, -⟩ : 13 = a ∧ 10 = a' ∧ _ := by simpa [SEP] using hv
      exact absurd ⟨H, v, by simp [SEP]⟩ hb

theorem not_stuck_header {b : Bytes} (h : ¬ Stuck b) :
    ∃ H, Header b H ∧ 0 ≤ (atoi (cStr H)).toInt := by
  by_contra hno
  refine h (.header fun H hH => ?_)
  by_contra hneg
  exact hno ⟨H, hH, by omega⟩

theorem revivesIn_of_free {b H : Bytes} (hb : ¬ SEP <:+: b) (hH : Header b H)
    (hpos : 0 ≤ (atoi (cStr H)).toInt) : RevivesIn (2 ^ 31 + 30) b := by
  obtain ⟨H', u, hu, hfree, hpos', hlen⟩ := exists_short_header hb hH hpos
  have hnone : splitMessage (b ++ u) [] = (H' ++ SEP, []) := by
    rw [hu]
    refine splitMessage_of_not_frame fun H'' n t hf => ?_
    have heq := hf.eq
    rw [← List.append_nil SEP] at heq
    obtain ⟨-, rfl⟩ := sep_split heq hfree hf.free
    exact absurd (two_le_of_sep hf.closed) (by decide)
  exact (RevivesIn.step hnone (revivesIn_header hfree hpos')).mono (by omega)

section EmptyFrame

variable {H t : Bytes} (hfree : ¬ SEP <:+: H) (h0 : atoi (cStr H) = 0)

include hfree h0

theorem RevivesIn.behind {c : Bytes} {k : ℕ} (hc : SEP <:+: t ++ c)
    (hk : RevivesIn k ((t ++ c).drop 2)) : RevivesIn (c.length + k) (H ++ (SEP ++ t)) := by
  have hframe : FrameAt (H ++ (SEP ++ (t ++ c))) H 0 (t ++ c) :=
    ⟨rfl, hfree, hc, by rw [h0]; rfl, two_le_of_sep hc⟩
  refine RevivesIn.step ?_ hk
  rw [← splitMessage_of_empty hframe]
  simp

theorem revivesIn_of_short (ht : t.length < 2) : RevivesIn (2 ^ 31 + 30) (H ++ (SEP ++ t)) := by
  have hpad : (t ++ (List.replicate (2 - t.length) 48 ++ SEP)).drop 2 = [] ++ SEP := by
    rw [← List.append_assoc, List.drop_left' (by simp; omega)]
    rfl
  have hc : SEP <:+: t ++ (List.replicate (2 - t.length) 48 ++ SEP) :=
    ⟨t ++ List.replicate (2 - t.length) 48, [], by simp⟩
  have hrest := revivesIn_header (H := []) (by decide) (by decide)
  refine (RevivesIn.behind hfree h0 hc (hpad ▸ hrest)).mono ?_
  simp only [List.length_append, List.length_replicate, SEP, List.length_cons, List.length_nil]
  omega

/-- The frame of length zero is not complete, and bytes of what follows it are there already: it is
completed together with the next header. -/
theorem revivesIn_of_open (ht : 2 ≤ t.length) (hsep : ¬ SEP <:+: t) (hr : ¬ Stuck (t.drop 2)) :
    RevivesIn (2 ^ 31 + 30) (H ++ (SEP ++ t)) := by
  obtain ⟨H₁, hH₁, hpos₁⟩ := not_stuck_header hr
  obtain ⟨H₂, u, hu, hfree₂, hpos₂, hlen⟩ := exists_short_header
    (fun hs => hsep (hs.trans (List.drop_suffix 2 t).isInfix)) hH₁ hpos₁
  have hdrop : (t ++ u).drop 2 = H₂ ++ SEP := by
    rw [List.drop_append_of_le_length ht, hu]
  have hc : SEP <:+: t ++ u :=
    (hdrop ▸ (List.suffix_append H₂ SEP).isInfix).trans (List.drop_suffix 2 _).isInfix
  have hrest := revivesIn_header hfree₂ hpos₂
  exact (RevivesIn.behind hfree h0 hc (hdrop ▸ hrest)).mono (by omega)

end EmptyFrame

/-- **A buffer that is not stuck delivers a message after few more bytes.** -/
theorem revives_of_not_stuck {b : Bytes} (h : ¬ Stuck b) : RevivesIn (2 ^ 31 + 30) b := by
  induction hn : b.length using Nat.strong_induction_on generalizing b with
  | _ n ih =>
    obtain ⟨H, hH, hpos⟩ := not_stuck_header h
    cases hleft : find SEP b with
    | none => exact revivesIn_of_free (find_eq_none.1 hleft) hH hpos
    | some left =>
      obtain ⟨H', t, rfl, rfl, -⟩ := find_split hleft
      have hfree : ¬ SEP <:+: H' := find_free (by decide) hleft
      obtain rfl := hH.eq hfree
      by_cases h0 : atoi (cStr H) = 0
      · by_cases ht : 2 ≤ t.length
        · have hsplit : t = t.take 2 ++ t.drop 2 := (List.take_append_drop 2 t).symm
          have hr : ¬ Stuck (t.drop 2) := fun hs => h (by
            rw [hsplit]
            exact .behind hfree h0 (List.length_take_of_le ht) hs)
          by_cases hsep : SEP <:+: t
          · have hlt : (t.drop 2).length < n := by
              rw [← hn]
              simp only [List.length_append, List.length_drop, SEP, List.length_cons,
                List.length_nil]
              omega
            have hrev := RevivesIn.behind (t := t) (c := []) hfree h0
              (by rwa [List.append_nil]) (by rw [List.append_nil]; exact ih _ hlt hr rfl)
            exact hrev.mono (by simp)
          · exact revivesIn_of_open hfree h0 ht hsep hr
        · exact revivesIn_of_short hfree h0 (Nat.lt_of_not_le ht)
      · exact (revivesIn_of_pos hfree t hpos h0).mono (by decide)

/-- **Which buffers are lost.** For every buffer that a connection can have, there is a continuation
after which a message is delivered exactly when the buffer is not stuck. The bounds say that the
buffers are those of a `std::string`. -/
theorem revives_iff (before : List Bytes) (hlen : (receive [] before).1.length < 2 ^ 62) :
    (∃ chunks : List Bytes, ((receive [] before).1 ++ chunks.flatten).length < 2 ^ 63 ∧
      (receive (receive [] before).1 chunks).2 ≠ []) ↔ ¬ Stuck (receive [] before).1 := by
  constructor
  · rintro ⟨chunks, hbound, hne⟩ hs
    exact hne (hs.receive chunks hbound)
  · intro h
    obtain ⟨chunks, hk, hne⟩ := revives_of_not_stuck h
    exact ⟨chunks, by rw [List.length_append]; omega, hne⟩

/-- A header `"-1"`, on which the bound is met. -/
theorem revives_iff_negative :
    (∃ chunks : List Bytes, ((receive [] [[45, 49, 13, 10]]).1 ++ chunks.flatten).length < 2 ^ 63 ∧
      (receive (receive [] [[45, 49, 13, 10]]).1 chunks).2 ≠ []) ↔
    ¬ Stuck (receive [] [[45, 49, 13, 10]]).1 :=
  revives_iff [[45, 49, 13, 10]] (by decide)

/-- The four bytes `"-1\r\n"` are enough. -/
theorem receive_wedged :
    receive [] [[45, 49, 13, 10]] = ([45, 49, 13, 10], []) ∧
    ¬ ∃ chunks : List Bytes, ([45, 49, 13, 10] ++ chunks.flatten).length < 2 ^ 63 ∧
      (receive [45, 49, 13, 10] chunks).2 ≠ [] := by
  refine ⟨by decide, ?_⟩
  rintro ⟨chunks, hlen, hne⟩
  have hfree : ¬ SEP <:+: ([45, 49] : Bytes) := by decide
  have hstuck : Stuck ([45, 49] ++ (SEP ++ [])) := .header fun H hH => by
    rw [hH.eq hfree]
    decide
  exact hne (hstuck.receive chunks hlen)

end NetProg.Reactor
