import NetProg.Reactor.Segmentation

/-!
# What `deCode` accepts

`deCode` is documented with the frame `"Length\r\nx op y\r\n"`, and with the empty string for "no
complete frame". Both are exact on most byte strings, and the two theorems say on which:

* `deCode_keeps_iff`: an empty result leaves the buffer alone unless a frame of declared length zero
  stands at its front;
* `deCode_grammar_iff`: the payloads returned are those of the documented frames unless the header
  is not a plain numeral, the payload is not followed by a separator, or the length is no `int`.
-/

namespace NetProg.Reactor

open NetProg.Lib

/-! ### Failed decodes -/

/-- A complete frame of declared length zero at the front, be its header `"0"` or no number. -/
def EmptyFrame (s : Bytes) : Prop :=
  ∃ H t, s = H ++ (SEP ++ t) ∧ ¬ SEP <:+: H ∧ SEP <:+: t ∧ atoi (cStr H) = 0

theorem toSize_eq_zero_iff {z : Int32} : toSize z = 0 ↔ z = 0 := by
  constructor
  · intro h
    have h1 := z.toInt_lt
    have h2 := z.le_toInt
    unfold toSize at h
    exact Int32.toInt_inj.1 (show z.toInt = 0 by omega)
  · rintro rfl
    rfl

theorem emptyFrame_iff {s : Bytes} : EmptyFrame s ↔ ∃ H t, FrameAt s H 0 t := by
  constructor
  · rintro ⟨H, t, hs, hH, ht, h0⟩
    exact ⟨H, t, hs, hH, ht, toSize_eq_zero_iff.2 h0, two_le_of_sep ht⟩
  · rintro ⟨H, t, h⟩
    exact ⟨H, t, h.eq, h.free, h.closed, toSize_eq_zero_iff.1 h.declares⟩

theorem FrameAt.split {s H t : Bytes} {n : ℕ} (h : FrameAt s H n t) :
    s = H ++ SEP ++ t.take n ++ (t.drop n).take 2 ++ t.drop (n + 2) := by
  rw [h.eq, List.append_assoc _ (List.take 2 _), ← List.drop_drop, List.take_append_drop,
    List.append_assoc _ (List.take n t), List.take_append_drop, List.append_assoc]

theorem FrameAt.take_ne_nil {s H t : Bytes} {n : ℕ} (h : FrameAt s H n t) (hn : 0 < n) :
    t.take n ≠ [] := by
  have hfit := h.fits
  intro h0
  have := congrArg List.length h0
  rw [List.length_take_of_le (by omega), List.length_nil] at this
  omega

/-- **When an empty result means "keep the bytes and wait"**: an empty result leaves the buffer as
it is, and bytes are removed with a payload taken from them, exactly when no complete frame of
declared length zero stands at the front. -/
theorem deCode_keeps_iff (s : Bytes) :
    (((deCode s).1 = [] → (deCode s).2 = s) ∧
      ((deCode s).2 ≠ s → (deCode s).1 ≠ [] ∧
        ∃ H e, e.length = 2 ∧ s = H ++ SEP ++ (deCode s).1 ++ e ++ (deCode s).2)) ↔
    ¬ EmptyFrame s := by
  rw [emptyFrame_iff]
  constructor
  · rintro ⟨hkeep, -⟩ ⟨H, t, h⟩
    rw [deCode_of_frame h] at hkeep
    have hlen := congrArg List.length (hkeep t.take_zero)
    rw [List.length_drop, h.eq, List.length_append, List.length_append] at hlen
    have := h.fits
    omega
  · intro hno
    by_cases hf : ∃ H n t, FrameAt s H n t
    · obtain ⟨H, n, t, h⟩ := hf
      have hn : 0 < n := Nat.pos_of_ne_zero fun h0 => hno ⟨H, t, h0 ▸ h⟩
      rw [deCode_of_frame h]
      refine ⟨fun h0 => absurd h0 (h.take_ne_nil hn), fun _ => ?_⟩
      refine ⟨h.take_ne_nil hn, H, _, ?_, h.split⟩
      have hfit := h.fits
      rw [List.length_take_of_le (by rw [List.length_drop]; omega)]
    · rw [deCode_of_not_frame fun H n t h => hf ⟨H, n, t, h⟩]
      exact ⟨fun _ => rfl, fun h => absurd rfl h⟩

/-- `"0\r\n\r\n"` is removed with an empty result. -/
theorem deCode_not_keeps :
    ¬ ∀ s : Bytes, (deCode s).1 = [] → (deCode s).2 = s := fun h =>
  absurd (h [48, 13, 10, 13, 10] (by decide)) (by decide)

/-! ### The documented frame -/

/-- A non-empty string of decimal digits. -/
def Numeral (H : Bytes) : Prop := H ≠ [] ∧ ∀ c ∈ H, isDigit c = true

/-- `s` is `"Length\r\npayload\r\n"` with a payload `p`, followed by `r`. -/
def Grammar (s p r : Bytes) : Prop :=
  ∃ H, s = H ++ SEP ++ p ++ SEP ++ r ∧ p ≠ [] ∧ Numeral H ∧ digitsVal H = p.length

/-- What the front of `s` must be like for `deCode` to accept what the grammar does. -/
structure Plain (s : Bytes) : Prop where
  /-- a complete frame has a header of digits only, and a separator behind its payload -/
  strict : ∀ H n t, FrameAt s H n t → 0 < n →
    Numeral H ∧ digitsVal H = n ∧ (t.drop n).take 2 = SEP
  /-- `atoi` reads the length that the header of a documented frame writes, as it does below 2^31 -/
  reads : ∀ H p r, s = H ++ SEP ++ p ++ SEP ++ r → p ≠ [] → Numeral H → digitsVal H = p.length →
    toSize (atoi (cStr H)) = p.length

theorem Numeral.free {H : Bytes} (h : Numeral H) : ¬ SEP <:+: H := fun hs =>
  absurd (h.2 13 (hs.subset (by simp [SEP]))) (by decide)

theorem Grammar.frameAt {s H p r : Bytes} (hs : s = H ++ SEP ++ p ++ SEP ++ r) (hH : Numeral H)
    (hread : toSize (atoi (cStr H)) = p.length) : FrameAt s H p.length (p ++ (SEP ++ r)) where
  eq := by rw [hs]; simp
  free := hH.free
  closed := sep_infix_append
  declares := hread
  fits := by simp [SEP]

theorem FrameAt.of_grammar {s H H' p r t : Bytes} {n : ℕ} (h : FrameAt s H n t)
    (hs : s = H' ++ SEP ++ p ++ SEP ++ r) (hH : Numeral H') : H = H' ∧ t = p ++ (SEP ++ r) := by
  refine sep_split ?_ h.free hH.free
  rw [← h.eq, hs]
  simp

/-- **What `deCode` accepts** is exactly the documented frames, on the strings that are `Plain`. -/
theorem deCode_grammar_iff (s : Bytes) :
    (∀ p r, (deCode s = (p, r) ∧ p ≠ []) ↔ Grammar s p r) ↔ Plain s := by
  constructor
  · intro h
    refine ⟨fun H n t hf hn => ?_, fun H p r hs hp hH hval => ?_⟩
    · obtain ⟨H', hs, -, hH', hval⟩ :=
        (h (t.take n) (t.drop (n + 2))).1 ⟨deCode_of_frame hf, hf.take_ne_nil hn⟩
      have hfit := hf.fits
      have hlen : (t.take n).length = n := List.length_take_of_le (by omega)
      obtain ⟨rfl, ht⟩ := hf.of_grammar hs hH'
      refine ⟨hH', hval.trans hlen, ?_⟩
      have hd : t.drop n = SEP ++ t.drop (n + 2) := by
        conv_lhs => rw [ht]
        rw [List.drop_left' hlen]
      rw [hd]
      rfl
    · obtain ⟨hd, -⟩ := (h p r).2 ⟨H, hs, hp, hH, hval⟩
      by_cases hf : ∃ H' n t, FrameAt s H' n t
      · obtain ⟨H', n, t, hf⟩ := hf
        obtain ⟨rfl, -⟩ := hf.of_grammar hs hH
        rw [deCode_of_frame hf, Prod.mk.injEq] at hd
        have hfit := hf.fits
        rw [hf.declares, ← hd.1, List.length_take_of_le (by omega)]
      · rw [deCode_of_not_frame fun H n t hc => hf ⟨H, n, t, hc⟩, Prod.mk.injEq] at hd
        exact absurd hd.1.symm hp
  · intro h p r
    constructor
    · rintro ⟨hd, hp⟩
      by_cases hf : ∃ H n t, FrameAt s H n t
      · obtain ⟨H, n, t, hf⟩ := hf
        rw [deCode_of_frame hf, Prod.mk.injEq] at hd
        obtain ⟨rfl, rfl⟩ := hd
        have hn : 0 < n := Nat.pos_of_ne_zero fun h0 => hp (by rw [h0, List.take_zero])
        have hfit := hf.fits
        obtain ⟨hH, hval, hsep⟩ := h.strict H n t hf hn
        refine ⟨H, ?_, hp, hH, ?_⟩
        · conv_lhs => rw [hf.split, hsep]
        · rw [hval, List.length_take_of_le (by omega)]
      · rw [deCode_of_not_frame fun H n t hc => hf ⟨H, n, t, hc⟩, Prod.mk.injEq] at hd
        exact absurd hd.1.symm hp
    · rintro ⟨H, hs, hp, hH, hval⟩
      refine ⟨?_, hp⟩
      rw [deCode_of_frame (Grammar.frameAt hs hH (h.reads H p r hs hp hH hval)), List.take_left]
      congr 1
      rw [← List.append_assoc, List.drop_left' (by simp [SEP])]

/-- In `"1\r\naXY\r\n"` the two bytes behind the payload are removed, though they are no
separator. -/
theorem deCode_not_grammar : ¬ ∀ s p r, (deCode s = (p, r) ∧ p ≠ []) ↔ Grammar s p r := by
  intro h
  obtain ⟨H, hs, -, -, -⟩ := (h [49, 13, 10, 97, 88, 89, 13, 10] [97] [13, 10]).1 (by decide)
  have hlen := congrArg List.length hs
  simp only [List.length_append, List.length_cons, List.length_nil, SEP] at hlen
  obtain ⟨c, rfl⟩ := List.length_eq_one_iff.1 (show H.length = 1 by omega)
  simp [SEP] at hs

end NetProg.Reactor
