import NetProg.Reactor.Framing

/-!
# Segmentation: what a connection delivers however TCP cuts its bytes

* `receive_frames`: a stream of frames is delivered frame by frame, however it is divided.
* `receive_indep_iff`: on arbitrary bytes the division matters exactly when a complete frame stands
  behind a frame of declared length zero, where the loop of `SplitMessage` gives up early.
-/

namespace NetProg.Reactor

open NetProg.Lib

/-! ### Frames that `enCode` makes -/

/-- A payload whose frame `deCode` can give back: not empty, and of a length that is an `int`. -/
structure Payload (p : Bytes) : Prop where
  ne : p ≠ []
  length : p.length ≤ 2147483647

theorem zero_not_mem_decimal (n : ℕ) : 0 ∉ decimal n := fun h =>
  absurd (isDigit_of_mem_decimal h) (by decide)

theorem sep_not_infix_decimal (n : ℕ) : ¬ SEP <:+: decimal n := fun h =>
  absurd (isDigit_of_mem_decimal (h.subset (by simp [SEP] : (13 : UInt8) ∈ SEP))) (by decide)

theorem enCode_eq (p : Bytes) : enCode p = decimal p.length ++ (SEP ++ (p ++ SEP)) := by
  simp [enCode]

theorem length_enCode (p : Bytes) :
    (enCode p).length = (decimal p.length).length + p.length + 4 := by
  simp [enCode, SEP]; omega

theorem enCode_ne_nil (m : Bytes) : enCode m ≠ [] := by simp [enCode, SEP]

theorem zero_not_mem_enCode {p : Bytes} (h : 0 ∉ p) : 0 ∉ enCode p := by
  simp [enCode, SEP, zero_not_mem_decimal, h]

theorem toSize_declared {p : Bytes} (hp : Payload p) :
    toSize (atoi (cStr (decimal p.length))) = p.length := by
  have hlen := hp.length
  have hval : (Int32.ofInt p.length).toInt = p.length :=
    Int32.toInt_ofInt_of_le (by omega) (by omega)
  rw [cStr_of_free (zero_not_mem_decimal _), atoi_decimal (by omega),
    toSize_of_nonneg (by omega), hval]
  rfl

theorem frameAt_enCode {p : Bytes} (hp : Payload p) (u : Bytes) :
    FrameAt (enCode p ++ u) (decimal p.length) p.length (p ++ (SEP ++ u)) where
  eq := by rw [enCode_eq]; simp
  free := sep_not_infix_decimal _
  closed := sep_infix_append
  declares := toSize_declared hp
  fits := by simp [SEP]

theorem cut_enCode {p : Bytes} (hp : Payload p) (u : Bytes) :
    cutter.cut (enCode p ++ u) = some (p, u) := by
  refine cut_eq_some.2 ⟨_, _, _, frameAt_enCode hp u, by simp, ?_⟩
  rw [← List.append_assoc, List.drop_left' (by simp [SEP])]

/-- **No proper part of a frame is a frame.** -/
theorem cut_part {p s : Bytes} (hp : Payload p) (h : s <+: enCode p) (hne : s ≠ enCode p) :
    cutter.cut s = none := by
  refine cut_eq_none.2 fun H n t hf => hne (h.eq_of_length_le ?_)
  obtain ⟨u, hu⟩ := h
  -- the header of the part is the header of the frame, so it declares the frame's length
  have hfull := frameAt_enCode hp []
  rw [List.append_nil] at hfull
  obtain ⟨rfl, rfl, -⟩ := (hu ▸ hf.append u).unique hfull
  have hfit := hf.fits
  have hs := congrArg List.length hf.eq
  simp only [List.length_append] at hs
  have hsep : SEP.length = 2 := rfl
  rw [length_enCode]
  omega

theorem deCode_of_cut_none {s : Bytes} (h : cutter.cut s = none) : deCode s = ([], s) := by
  rw [deCode_eq_cut, show cut s = none from h]; rfl

theorem deCode_of_cut_some {s p r : Bytes} (h : cutter.cut s = some (p, r)) :
    deCode s = (p, r) := by
  rw [deCode_eq_cut, show cut s = some (p, r) from h]; rfl

theorem deCode_enCode {p : Bytes} (hp : Payload p) (u : Bytes) : deCode (enCode p ++ u) = (p, u) :=
  deCode_of_cut_some (cut_enCode hp u)

theorem deCode_part {p s : Bytes} (hp : Payload p) (h : s <+: enCode p) (hne : s ≠ enCode p) :
    deCode s = ([], s) :=
  deCode_of_cut_none (cut_part hp h hne)

/-- The byte stream of a list of payloads. -/
def frames (ps : List Bytes) : Bytes := (ps.map enCode).flatten

theorem zero_not_mem_frames {ps : List Bytes} (h : ∀ p ∈ ps, 0 ∉ p) : 0 ∉ frames ps := by
  intro hmem
  obtain ⟨f, hf, h0⟩ := List.mem_flatten.1 hmem
  obtain ⟨p, hp, rfl⟩ := List.mem_map.1 hf
  exact zero_not_mem_enCode (h p hp) h0

theorem frames_append (ps qs : List Bytes) : frames (ps ++ qs) = frames ps ++ frames qs := by
  simp [frames]

section Stream

variable {ps : List Bytes} {w rest : Bytes} {k : ℕ}

theorem atFrame_nil (hps : ∀ p ∈ ps, Payload p) : Cutter.AtFrame enCode ps [] 0 [] :=
  Cutter.atFrame_nil (D := cutter) (V := Payload) (fun _ hm t => cut_enCode hm t) hps

theorem deCode_incomplete (hps : ∀ p ∈ ps, Payload p) (h : Cutter.AtFrame enCode ps w 0 rest) :
    deCode w = ([], w) :=
  deCode_of_cut_none (h.cut_none (D := cutter) (V := Payload) (fun _ _ hm => cut_part hm) hps)

theorem deCode_complete {p : Bytes} (hp : Payload p)
    (h : Cutter.AtFrame enCode (p :: ps) w (k + 1) rest) :
    ∃ w', w = enCode p ++ w' ∧ deCode w = (p, w') ∧ Cutter.AtFrame enCode ps w' k rest := by
  obtain ⟨w', hw, hc, hk⟩ :=
    h.cut_some (D := cutter) (V := Payload) (fun _ hm t => cut_enCode hm t) hp
  exact ⟨w', hw, deCode_of_cut_some hc, hk⟩

/-- One more chunk of a stream of frames: the messages it completes, and what is left. -/
theorem splitMessage_atFrame (hps : ∀ p ∈ ps, Payload p) (h : Cutter.AtFrame enCode ps w k rest)
    (c : Bytes) (hc : w ++ c <+: frames ps) :
    ∃ n rest', splitMessage (rest ++ c) [] = (rest', (ps.drop k).take n) ∧
      Cutter.AtFrame enCode ps (w ++ c) (k + n) rest' := by
  obtain ⟨n, rest', hd, hn⟩ := Cutter.drain_append_atFrame (D := cutter) (V := Payload)
    (fun _ hm => List.isEmpty_eq_false_iff.2 hm.ne) (fun _ hm t => cut_enCode hm t)
    (fun _ _ hm => cut_part hm) hps h c hc
  exact ⟨n, rest', by rw [splitMessage_eq, hd]; rfl, hn⟩

theorem atFrame_unique (hps : ∀ p ∈ ps, Payload p) {k' : ℕ} {rest' : Bytes}
    (h : Cutter.AtFrame enCode ps w k rest) (h' : Cutter.AtFrame enCode ps w k' rest') :
    k = k' ∧ rest = rest' :=
  Cutter.AtFrame.unique (D := cutter) (V := Payload)
    (fun _ hm => List.isEmpty_eq_false_iff.2 hm.ne) (fun _ hm t => cut_enCode hm t)
    (fun _ _ hm => cut_part hm) hps h h'

theorem atFrame_take (hk : k ≤ ps.length) : Cutter.AtFrame enCode ps (frames (ps.take k)) k [] where
  le := hk
  eq := by simp [frames]
  next := fun m _ => ⟨List.nil_prefix, (enCode_ne_nil m).symm⟩
  last := fun _ => rfl

theorem atFrame_frames (ps : List Bytes) : Cutter.AtFrame enCode ps (frames ps) ps.length [] := by
  have := atFrame_take (le_refl ps.length)
  rwa [List.take_length] at this

theorem receive_atFrame (hps : ∀ p ∈ ps, Payload p) (chunks : List Bytes)
    (h : chunks.flatten <+: frames ps) :
    ∃ k rest, receive [] chunks = (rest, ps.take k) ∧
      Cutter.AtFrame enCode ps chunks.flatten k rest := by
  obtain ⟨k, rest, hf, hk⟩ := Cutter.feed_atFrame (D := cutter) (V := Payload)
    (fun _ hm => List.isEmpty_eq_false_iff.2 hm.ne) (fun _ hm t => cut_enCode hm t)
    (fun _ _ hm => cut_part hm) hps (atFrame_nil hps) chunks h
  exact ⟨k, rest, by rw [receive_eq, hf]; rfl, by simpa using hk⟩

/-- **Frames are delivered one by one, however the stream is divided**: after any number of chunks
the messages are those whose frames are complete, and the buffer is the received part of the next
frame; at the end every message has been delivered and the buffer is empty. -/
theorem receive_frames (hne : ∀ p ∈ ps, p ≠ []) (hlen : ∀ p ∈ ps, p.length ≤ 2147483647)
    (chunks : List Bytes) (h : chunks.flatten = frames ps) :
    receive [] chunks = ([], ps) ∧
      ∀ j, ∃ k rest, receive [] (chunks.take j) = (rest, ps.take k) ∧
        Cutter.AtFrame enCode ps (chunks.take j).flatten k rest := by
  have hps : ∀ p ∈ ps, Payload p := fun p hp => ⟨hne p hp, hlen p hp⟩
  constructor
  · obtain ⟨k, rest, hr, hk⟩ := receive_atFrame hps chunks (h ▸ List.prefix_refl _)
    rw [h] at hk
    obtain ⟨rfl, rfl⟩ := atFrame_unique hps hk (atFrame_frames ps)
    rw [hr, List.take_length]
  · intro j
    refine receive_atFrame hps (chunks.take j) (h ▸ ?_)
    conv_rhs => rw [← List.take_append_drop j chunks, List.flatten_append]
    exact List.prefix_append _ _

/-- Two payloads, the first with a separator in it and the second a NUL, cut inside the header's
separator, inside the payload and between the frames. -/
theorem receive_frames_example :
    receive [] [[51, 13], [10, 97, 13], [10, 13, 10, 49], [13, 10, 0, 13, 10]] =
      ([], [[97, 13, 10], [0]]) :=
  (receive_frames (by decide) (by decide)
    [[51, 13], [10, 97, 13], [10, 13, 10, 49], [13, 10, 0, 13, 10]] (by decide)).1

end Stream

/-! ### Arbitrary bytes -/

/-- Complete frames at the front of a byte string, with what stands behind them: a header without a
separator, as many payload bytes as it declares, two bytes that are dropped unread, and some
separator behind the header's. -/
inductive Frames : Bytes → List Bytes → Bytes → Prop
  | nil (s : Bytes) : Frames s [] s
  | cons {H m e r r' : Bytes} {ms : List Bytes} (free : ¬ SEP <:+: H)
      (declares : toSize (atoi (cStr H)) = m.length) (two : e.length = 2)
      (closed : SEP <:+: m ++ e ++ r) (tail : Frames r ms r') :
      Frames (H ++ SEP ++ m ++ e ++ r) (m :: ms) r'

/-- No complete frame stands behind one of declared length zero. -/
def NoFrameAfterEmpty (w : Bytes) : Prop := ∀ ms r, Frames w ms r → [] ∉ ms.dropLast

theorem frames_iff_units {w r : Bytes} {ms : List Bytes} : Frames w ms r ↔ cutter.Units w ms r := by
  constructor
  · intro h
    induction h with
    | nil s => exact .nil s
    | @cons H m e r r' ms hfree hdecl htwo hclosed _ ih =>
      refine .cons (cut_eq_some.2 ⟨H, m.length, m ++ e ++ r, ⟨by simp, hfree, hclosed, hdecl, ?_⟩,
        by simp, ?_⟩) ih
      · simp [htwo]
      · rw [List.drop_left' (by simp [htwo])]
  · intro h
    induction h with
    | nil s => exact .nil s
    | @cons s r r' m ms hc _ ih =>
      obtain ⟨H, n, t, hf, rfl, rfl⟩ := cut_eq_some.1 hc
      have hfit := hf.fits
      have ht : t = t.take n ++ (t.drop n).take 2 ++ t.drop (n + 2) := by
        rw [List.append_assoc, ← List.drop_drop, List.take_append_drop, List.take_append_drop]
      have hs : s = H ++ SEP ++ t.take n ++ (t.drop n).take 2 ++ t.drop (n + 2) := by
        rw [hf.eq]; conv_lhs => rw [ht]
        simp
      rw [hs]
      refine .cons hf.free ?_ ?_ (ht ▸ hf.closed) ih
      · rw [List.length_take_of_le (by omega)]; exact hf.declares
      · rw [List.length_take_of_le (by rw [List.length_drop]; omega)]

theorem clean_iff (w : Bytes) : Cutter.Clean cutter List.isEmpty w ↔ NoFrameAfterEmpty w := by
  constructor
  · intro h ms r hf hmem
    have := h ms r (frames_iff_units.1 hf) [] hmem
    cases this
  · intro h ms r hu m hm
    exact List.isEmpty_eq_false_iff.2 fun h0 => h ms r (frames_iff_units.2 hu) (h0 ▸ hm)

/-- **When the division matters**: on a byte string all divisions deliver the same messages and
leave the same buffer exactly when no complete frame stands behind one of declared length zero;
whether or not divisions may have empty chunks. -/
theorem receive_indep_iff (w : Bytes) :
    ((∀ cs cs' : List Bytes, [] ∉ cs → [] ∉ cs' → cs.flatten = w → cs'.flatten = w →
      receive [] cs = receive [] cs') ↔ NoFrameAfterEmpty w) ∧
    ((∀ cs cs' : List Bytes, cs.flatten = w → cs'.flatten = w →
      receive [] cs = receive [] cs') ↔ NoFrameAfterEmpty w) := by
  have key := Cutter.feed_indep_iff cutter List.isEmpty (fun _ _ _ _ hs h => cut_concat hs h) w
  have hswap : ∀ cs cs' : List Bytes, receive [] cs = receive [] cs' ↔
      cutter.feed List.isEmpty [] cs = cutter.feed List.isEmpty [] cs' := fun cs cs' => by
    rw [receive_eq, receive_eq, Prod.swap_inj]
  simp only [hswap, ← clean_iff]
  refine ⟨key, fun h => key.1 fun cs cs' _ _ => h cs cs', fun hc cs cs' h h' => ?_⟩
  obtain ⟨ms, r, hu, hr⟩ := Cutter.exists_units (D := cutter) w
  rw [Cutter.feed_clean cs (h ▸ hc) cutter.cut_nil (h ▸ hu) hr,
    Cutter.feed_clean cs' (h' ▸ hc) cutter.cut_nil (h' ▸ hu) hr]

/-- An empty frame and a frame behind it, `"0\r\n\r\n1\r\na\r\n"`: in one chunk the second frame
stays in the buffer, in two chunks it is delivered. -/
theorem receive_not_indep :
    ¬ ∀ cs cs' : List Bytes, [] ∉ cs → [] ∉ cs' →
      cs.flatten = [48, 13, 10, 13, 10, 49, 13, 10, 97, 13, 10] →
      cs'.flatten = [48, 13, 10, 13, 10, 49, 13, 10, 97, 13, 10] →
      receive [] cs = receive [] cs' := by
  intro h
  have heq := h [[48, 13, 10, 13, 10, 49, 13, 10, 97, 13, 10]]
    [[48, 13, 10, 13, 10], [49, 13, 10, 97, 13, 10]] (by decide) (by decide) (by decide) (by decide)
  exact absurd heq (by decide)

end NetProg.Reactor
