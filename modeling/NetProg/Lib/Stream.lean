import Mathlib.Data.List.Infix
import Mathlib.Data.List.Flatten
import Mathlib.Tactic.Common

/-!
# Cutting a byte stream into units

A receiver keeps the bytes it has not understood yet in a buffer. A `Cutter` removes one unit from
the front of the buffer when a complete one is there; text that arrives later never changes how a
complete head is cut (`stable`). A receiver loop cuts until nothing complete is left, or until it
meets a unit on which it gives up (`stop`); the unit it gives up on is dropped.

* `units_unique`: all the units of a buffer, in order, and what is left when none is complete.
* `feed_clean`: when no unit follows one that stops the loop, the units delivered and the bytes left
  do not depend on how the stream was divided into chunks.
* `feed_singles`: a stream that arrives symbol by symbol is cut completely, whatever units stop the
  loop. Together they say exactly when the division matters (`feed_indep_iff`).
* `AtFrame`: the position of a stream inside a sequence of encoded messages; `feed_atFrame` says
  that a loop over a stream of encodings delivers exactly the complete ones.
-/

namespace NetProg.Lib

/-- Removes one complete unit from the front of a buffer. -/
structure Cutter (α β : Type*) where
  cut : List α → Option (β × List α)
  /-- a unit is not empty -/
  shrink : ∀ {s m r}, cut s = some (m, r) → r.length < s.length
  /-- later text does not change how a complete head is cut -/
  stable : ∀ {s m r}, cut s = some (m, r) → ∀ t, cut (s ++ t) = some (m, r ++ t)

namespace Cutter

variable {α β : Type*} (D : Cutter α β)

theorem cut_nil : D.cut [] = none := by
  cases h : D.cut [] with
  | none => rfl
  | some mr => exact absurd (D.shrink (m := mr.1) (r := mr.2) h) (Nat.not_lt_zero _)

/-! ## The units of a buffer -/

/-- The units `ms` stand at the front of the buffer and `r` stands behind them. -/
inductive Units : List α → List β → List α → Prop
  | nil (s : List α) : Units s [] s
  | cons {s r r' : List α} {m : β} {ms : List β} (h : D.cut s = some (m, r)) (ht : Units r ms r') :
      Units s (m :: ms) r'

variable {D} {s t r r' : List α} {ms ms' : List β} {m : β}

theorem Units.append (h : D.Units s ms r) (h' : D.Units r ms' r') : D.Units s (ms ++ ms') r' := by
  induction h with
  | nil s => exact h'
  | cons hc _ ih => exact .cons hc (ih h')

theorem Units.mono (h : D.Units s ms r) (t : List α) : D.Units (s ++ t) ms (r ++ t) := by
  induction h with
  | nil s => exact .nil _
  | cons hc _ ih => exact .cons (D.stable hc t) ih

/-- Of two lists of units at the front of one buffer, a complete one extends the other. -/
theorem Units.extends (h : D.Units s ms r) (h' : D.Units s ms' r') (hr' : D.cut r' = none) :
    ∃ ns, ms' = ms ++ ns ∧ D.Units r ns r' := by
  induction h generalizing ms' with
  | nil s => exact ⟨ms', rfl, h'⟩
  | cons hc _ ih =>
    cases h' with
    | nil => rw [hr'] at hc; cases hc
    | cons hc' ht' =>
      obtain ⟨rfl, rfl⟩ : _ ∧ _ := by simpa using hc.symm.trans hc'
      obtain ⟨ns, rfl, hns⟩ := ih ht'
      exact ⟨ns, rfl, hns⟩

theorem units_unique (h : D.Units s ms r) (hr : D.cut r = none) (h' : D.Units s ms' r')
    (hr' : D.cut r' = none) : ms = ms' ∧ r = r' := by
  obtain ⟨ns, rfl, hns⟩ := h.extends h' hr'
  cases hns with
  | nil => exact ⟨(List.append_nil _).symm, rfl⟩
  | cons hc _ => rw [hr] at hc; cases hc

theorem exists_units (s : List α) : ∃ ms r, D.Units s ms r ∧ D.cut r = none := by
  induction hn : s.length using Nat.strong_induction_on generalizing s with
  | _ n ih =>
    cases h : D.cut s with
    | none => exact ⟨[], s, .nil s, h⟩
    | some mr =>
      obtain ⟨ms, r, hu, hr⟩ := ih mr.2.length (hn ▸ D.shrink h) mr.2 rfl
      exact ⟨mr.1 :: ms, r, .cons h hu, hr⟩

/-! ## The receiver loop -/

section Loop

variable (D) (stop : β → Bool)

/-- The loop on one buffer: the units delivered and the bytes left. -/
def drain (s : List α) : List β × List α :=
  match _h : D.cut s with
  | none => ([], s)
  | some (m, r) => if stop m then ([], r) else (m :: (drain r).1, (drain r).2)
termination_by s.length
decreasing_by all_goals exact D.shrink _h

/-- The loop after each chunk that arrives: all units delivered and the bytes left at the end. -/
def feed (s : List α) : List (List α) → List β × List α
  | [] => ([], s)
  | c :: cs =>
    let (ms, r) := D.drain stop (s ++ c)
    let (ms', r') := feed r cs
    (ms ++ ms', r')

variable {D stop}

theorem drain_of_none (h : D.cut s = none) : D.drain stop s = ([], s) := by
  rw [drain]; split <;> simp_all

theorem drain_of_stop (h : D.cut s = some (m, r)) (hm : stop m = true) :
    D.drain stop s = ([], r) := by
  rw [drain]; split <;> simp_all

theorem drain_of_some (h : D.cut s = some (m, r)) (hm : stop m = false) :
    D.drain stop s = (m :: (D.drain stop r).1, (D.drain stop r).2) := by
  rw [drain]; split <;> simp_all

@[simp] theorem feed_nil : D.feed stop s [] = ([], s) := rfl

theorem feed_cons (c : List α) (cs : List (List α)) :
    D.feed stop s (c :: cs) =
      ((D.drain stop (s ++ c)).1 ++ (D.feed stop (D.drain stop (s ++ c)).2 cs).1,
        (D.feed stop (D.drain stop (s ++ c)).2 cs).2) := rfl

/-- **What one run of the loop does**: it delivers the units at the front of the buffer up to the
first that stops it, and then nothing complete is left unless a unit stopped it. -/
theorem drain_spec (D : Cutter α β) (stop : β → Bool) (s : List α) :
    ∃ ms, D.Units s ms (D.drain stop s).2 ∧
    (D.drain stop s).1 = ms.filter (fun m => !stop m) ∧ (∀ m ∈ ms.dropLast, stop m = false) ∧
    (D.cut (D.drain stop s).2 = none ∨ ∃ m, ms.getLast? = some m ∧ stop m = true) := by
  induction hn : s.length using Nat.strong_induction_on generalizing s with
  | _ n ih =>
    cases h : D.cut s with
    | none => rw [drain_of_none h]; exact ⟨[], .nil s, rfl, by simp, Or.inl h⟩
    | some mr =>
      obtain ⟨m, r⟩ := mr
      cases hm : stop m with
      | true =>
        rw [drain_of_stop h hm]
        exact ⟨[m], .cons h (.nil r), by simp [hm], by simp, Or.inr ⟨m, rfl, hm⟩⟩
      | false =>
        rw [drain_of_some h hm]
        obtain ⟨ms, hu, hd, hs, hl⟩ := ih r.length (hn ▸ D.shrink h) r rfl
        refine ⟨m :: ms, .cons h hu, by simp [hm, hd], ?_, ?_⟩
        · intro x hx
          cases ms with
          | nil => simp at hx
          | cons y ys =>
            rw [List.dropLast_cons_cons] at hx
            rcases List.mem_cons.1 hx with rfl | hx
            · exact hm
            · exact hs x hx
        · apply hl.imp id
          rintro ⟨x, hx, hx'⟩
          cases ms with
          | nil => simp at hx
          | cons y ys => exact ⟨x, by simpa using hx, hx'⟩

/-! ## Independence of the division -/

/-- No unit at the front of the buffer follows one that stops the loop. -/
def Clean (D : Cutter α β) (stop : β → Bool) (s : List α) : Prop :=
  ∀ ms r, D.Units s ms r → ∀ m ∈ ms.dropLast, stop m = false

theorem drain_clean (hc : Clean D stop s) : D.cut (D.drain stop s).2 = none := by
  obtain ⟨ms, hu, -, -, hl⟩ := drain_spec D stop s
  rcases hl with hl | ⟨m, hm, hs⟩
  · exact hl
  · cases h : D.cut (D.drain stop s).2 with
    | none => rfl
    | some nr =>
      -- another unit stands behind the one that stopped the loop
      have hu' := hu.append (.cons h (.nil nr.2))
      have hmem : m ∈ (ms ++ [nr.1]).dropLast := by
        rw [List.dropLast_concat]; exact List.mem_of_mem_getLast? hm
      rw [hc _ _ hu' m hmem] at hs
      cases hs

theorem Clean.rest (hc : Clean D stop s) (hu : D.Units s ms r) : Clean D stop r := by
  intro ns r' hr m hm
  apply hc _ _ (hu.append hr) m
  rw [List.dropLast_append]
  split
  · rename_i h; simp_all
  · exact List.mem_append_right _ hm

theorem Clean.of_append (hc : Clean D stop (s ++ t)) : Clean D stop s := fun ms r hu =>
  hc ms (r ++ t) (hu.mono t)

/-- **A clean stream**: every division delivers the units of the stream and leaves its rest. -/
theorem feed_clean (cs : List (List α)) (hc : Clean D stop (s ++ cs.flatten))
    (hs : D.cut s = none) (hu : D.Units (s ++ cs.flatten) ms r) (hr : D.cut r = none) :
    D.feed stop s cs = (ms.filter (fun m => !stop m), r) := by
  induction cs generalizing s ms with
  | nil =>
    rw [List.flatten_nil, List.append_nil] at hu
    obtain ⟨rfl, rfl⟩ := units_unique (.nil s) hs hu hr
    rfl
  | cons c cs ih =>
    rw [List.flatten_cons, ← List.append_assoc] at hc hu
    obtain ⟨us, hd, hdel, -, -⟩ := drain_spec D stop (s ++ c)
    have hstuck := drain_clean hc.of_append
    obtain ⟨ns, rfl, hns⟩ := (hd.mono cs.flatten).extends hu hr
    have hrest := ih (hc.rest (hd.mono cs.flatten)) hstuck hns
    rw [feed_cons, hrest, hdel, List.filter_append]

/-- A stream that arrives symbol by symbol, when a unit that becomes complete leaves no complete
unit behind: it is cut completely, whether or not units stop the loop. -/
theorem feed_singles (hone : ∀ s a m r, D.cut s = none → D.cut (s ++ [a]) = some (m, r) →
      D.cut r = none) (w : List α) (hs : D.cut s = none) (hu : D.Units (s ++ w) ms r)
    (hr : D.cut r = none) :
    D.feed stop s (w.map fun a => [a]) = (ms.filter (fun m => !stop m), r) := by
  induction w generalizing s ms with
  | nil =>
    rw [List.append_nil] at hu
    obtain ⟨rfl, rfl⟩ := units_unique (.nil s) hs hu hr
    rfl
  | cons a w ih =>
    have hsplit : s ++ a :: w = s ++ [a] ++ w := by simp
    rw [hsplit] at hu
    rw [List.map_cons, feed_cons]
    cases h : D.cut (s ++ [a]) with
    | none => rw [drain_of_none h, ih h hu]; rfl
    | some nr =>
      obtain ⟨n, r₁⟩ := nr
      have h₁ := hone s a n r₁ hs h
      obtain ⟨ns, rfl, hns⟩ := (Units.cons (D.stable h w) (.nil _)).extends hu hr
      cases hn : stop n with
      | true => rw [drain_of_stop h hn, ih h₁ hns]; simp [hn]
      | false =>
        rw [drain_of_some h hn, drain_of_none h₁, ih h₁ hns]
        simp [hn]

/-- **When the division matters.** The units delivered and the bytes left are the same for all
divisions of a stream into non-empty chunks exactly when the stream is clean. -/
theorem feed_indep_iff (D : Cutter α β) (stop : β → Bool) (hone : ∀ s a m r, D.cut s = none →
      D.cut (s ++ [a]) = some (m, r) → D.cut r = none) (w : List α) :
    (∀ cs cs' : List (List α), [] ∉ cs → [] ∉ cs' → cs.flatten = w → cs'.flatten = w →
      D.feed stop [] cs = D.feed stop [] cs') ↔ Clean D stop w := by
  obtain ⟨ms, r, hu, hr⟩ := exists_units (D := D) w
  constructor
  · intro h us r₁ hus m hm
    by_contra hstop
    have hstop : stop m = true := by simpa using hstop
    -- one chunk against single symbols
    have hw : w ≠ [] := by
      rintro rfl
      cases hus with
      | nil => simp at hm
      | cons hc _ => rw [cut_nil] at hc; cases hc
    have h1 := h [w] (w.map fun a => [a]) (by simpa using Ne.symm hw) (by simp) (by simp)
      (by simp [List.flatten_eq_flatMap, List.flatMap_map])
    rw [feed_singles hone w D.cut_nil hu hr, feed_cons, feed_nil, List.nil_append,
      List.append_nil, Prod.mk.injEq] at h1
    obtain ⟨vs, hv, -, hvs, -⟩ := drain_spec D stop w
    rw [h1.2] at hv
    obtain ⟨rfl, -⟩ := units_unique hv hr hu hr
    obtain ⟨ns, rfl, -⟩ := hus.extends hu hr
    have hmem : m ∈ (us ++ ns).dropLast := by
      rw [List.dropLast_append]
      split
      · exact hm
      · exact List.mem_append_left _ (List.mem_of_mem_dropLast hm)
    rw [hvs m hmem] at hstop
    cases hstop
  · rintro hc cs cs' - - rfl h'
    rw [feed_clean cs hc D.cut_nil hu hr, feed_clean cs' (h' ▸ hc) D.cut_nil (h' ▸ hu) hr]

end Loop

/-! ## Streams of encoded messages -/

section Frames

variable (enc : β → List α)

/-- A stream `w` inside the encodings of `ms`: the first `k` are complete and `rest` is a proper
part of the next one. -/
structure AtFrame (ms : List β) (w : List α) (k : ℕ) (rest : List α) : Prop where
  le : k ≤ ms.length
  eq : w = ((ms.take k).map enc).flatten ++ rest
  next : ∀ m, ms[k]? = some m → rest <+: enc m ∧ rest ≠ enc m
  last : k = ms.length → rest = []

variable {enc}

theorem exists_atFrame {w : List α} (h : w <+: (ms.map enc).flatten) :
    ∃ k rest, AtFrame enc ms w k rest := by
  induction ms generalizing w with
  | nil =>
    obtain rfl : w = [] := by simpa using h
    exact ⟨0, [], le_rfl, rfl, by simp, fun _ => rfl⟩
  | cons m ms ih =>
    rw [List.map_cons, List.flatten_cons] at h
    by_cases hlen : (enc m).length ≤ w.length
    · obtain ⟨v, rfl⟩ := List.prefix_of_prefix_length_le (List.prefix_append _ _) h hlen
      obtain ⟨k, rest, hk⟩ := ih ((List.prefix_append_right_inj _).1 h)
      refine ⟨k + 1, rest, by simpa using hk.le, ?_, by simpa using hk.next, fun e => hk.last ?_⟩
      · rw [List.take_succ_cons, List.map_cons, List.flatten_cons, List.append_assoc, ← hk.eq]
      · simpa using e
    · have hw := List.prefix_of_prefix_length_le h (List.prefix_append _ _) (by omega)
      refine ⟨0, w, by simp, by simp, ?_, by simp⟩
      intro x hx
      obtain rfl : m = x := by simpa using hx
      exact ⟨hw, fun e => hlen (by rw [e])⟩

/-- The frame boundary reached by a shorter stream comes first. -/
theorem AtFrame.drop {w : List α} {k : ℕ} {rest : List α} (h : AtFrame enc ms w k rest)
    (t : List α) (ht : w ++ t <+: (ms.map enc).flatten) :
    rest ++ t <+: ((ms.drop k).map enc).flatten := by
  have hsplit : (ms.map enc).flatten =
      ((ms.take k).map enc).flatten ++ ((ms.drop k).map enc).flatten := by
    rw [← List.flatten_append, ← List.map_append, List.take_append_drop]
  rw [hsplit, h.eq, List.append_assoc] at ht
  exact (List.prefix_append_right_inj _).1 ht

theorem AtFrame.trans {w t : List α} {k k' : ℕ} {rest rest' : List α}
    (h : AtFrame enc ms w k rest) (h' : AtFrame enc (ms.drop k) (rest ++ t) k' rest') :
    AtFrame enc ms (w ++ t) (k + k') rest' := by
  have hle := h'.le
  have hk := h.le
  rw [List.length_drop] at hle
  refine ⟨by omega, ?_, ?_, fun e => h'.last (by rw [List.length_drop]; omega)⟩
  · rw [h.eq, List.append_assoc, h'.eq, ← List.append_assoc, ← List.flatten_append,
      ← List.map_append, List.take_add]
  · intro m hm
    exact h'.next m (by rw [List.getElem?_drop]; exact hm)

section Codec

variable {stop : β → Bool} {V : β → Prop} (hstop : ∀ m, V m → stop m = false)
  (hfull : ∀ m, V m → ∀ t, D.cut (enc m ++ t) = some (m, t))
  (hpart : ∀ m s, V m → s <+: enc m → s ≠ enc m → D.cut s = none)

include hfull in
theorem atFrame_nil (hms : ∀ m ∈ ms, V m) : AtFrame enc ms [] 0 [] := by
  refine ⟨by simp, by simp, fun m hm => ⟨List.nil_prefix, fun h => ?_⟩, fun _ => rfl⟩
  have hc := hfull m (hms m (List.mem_of_getElem? hm)) []
  rw [← h, List.nil_append, cut_nil] at hc
  cases hc

include hpart in
theorem AtFrame.cut_none (hms : ∀ m ∈ ms, V m) {w rest : List α} (h : AtFrame enc ms w 0 rest) :
    D.cut w = none := by
  obtain rfl : w = rest := by simpa using h.eq
  cases ms with
  | nil => rw [h.last rfl]; exact D.cut_nil
  | cons m ms =>
    obtain ⟨h1, h2⟩ := h.next m rfl
    exact hpart m w (hms m List.mem_cons_self) h1 h2

include hfull in
theorem AtFrame.cut_some {m : β} (hm : V m) {w rest : List α} {k : ℕ}
    (h : AtFrame enc (m :: ms) w (k + 1) rest) :
    ∃ w', w = enc m ++ w' ∧ D.cut w = some (m, w') ∧ AtFrame enc ms w' k rest := by
  have hw : w = enc m ++ (((ms.take k).map enc).flatten ++ rest) := by rw [h.eq]; simp
  exact ⟨_, hw, hw ▸ hfull m hm _,
    by simpa using h.le, rfl, by simpa using h.next, fun e => h.last (by simp [e])⟩

include hstop hfull hpart

/-- **The loop on a stream of encodings** delivers the complete ones and leaves the rest, when an
encoding is cut from the front of any text and none of its proper parts is cut. -/
theorem drain_atFrame (hms : ∀ m ∈ ms, V m) {w rest : List α} {k : ℕ}
    (h : AtFrame enc ms w k rest) : D.drain stop w = (ms.take k, rest) := by
  induction k generalizing ms w with
  | zero =>
    have hw : w = rest := by simpa using h.eq
    rw [drain_of_none (h.cut_none hpart hms), hw]; rfl
  | succ k ih =>
    cases ms with
    | nil => exact absurd h.le (by simp)
    | cons m ms =>
      have hm := hms m List.mem_cons_self
      obtain ⟨w', -, hc, hw'⟩ := h.cut_some hfull hm
      rw [drain_of_some hc (hstop m hm), ih (fun x hx => hms x (List.mem_cons_of_mem _ hx)) hw']
      rfl

theorem AtFrame.unique (hms : ∀ m ∈ ms, V m) {w rest rest' : List α} {k k' : ℕ}
    (h : AtFrame enc ms w k rest) (h' : AtFrame enc ms w k' rest') : k = k' ∧ rest = rest' := by
  have heq := (drain_atFrame hstop hfull hpart hms h).symm.trans
    (drain_atFrame hstop hfull hpart hms h')
  rw [Prod.mk.injEq] at heq
  have hlen := congrArg List.length heq.1
  rw [List.length_take_of_le h.le, List.length_take_of_le h'.le] at hlen
  exact ⟨hlen, heq.2⟩

theorem drain_append_atFrame (hms : ∀ m ∈ ms, V m) {w rest : List α} {k : ℕ}
    (h : AtFrame enc ms w k rest) (c : List α) (hc : w ++ c <+: (ms.map enc).flatten) :
    ∃ n rest', D.drain stop (rest ++ c) = ((ms.drop k).take n, rest') ∧
      AtFrame enc ms (w ++ c) (k + n) rest' := by
  obtain ⟨n, rest', hn⟩ := exists_atFrame (h.drop c hc)
  exact ⟨n, rest', drain_atFrame hstop hfull hpart (fun m hm => hms m (List.mem_of_mem_drop hm)) hn,
    h.trans hn⟩

/-- **All the chunks of a stream of encodings**: the messages delivered are the next ones of the
stream, and what is left is the received part of the one after them. -/
theorem feed_atFrame (hms : ∀ m ∈ ms, V m) {w rest : List α} {k : ℕ}
    (h : AtFrame enc ms w k rest) (cs : List (List α))
    (hcs : w ++ cs.flatten <+: (ms.map enc).flatten) :
    ∃ n rest', D.feed stop rest cs = ((ms.drop k).take n, rest') ∧
      AtFrame enc ms (w ++ cs.flatten) (k + n) rest' := by
  induction cs generalizing w rest k with
  | nil => exact ⟨0, rest, by simp, by simpa using h⟩
  | cons c cs ih =>
    rw [List.flatten_cons, ← List.append_assoc] at hcs ⊢
    obtain ⟨n, rest', hd, hn⟩ := drain_append_atFrame hstop hfull hpart hms h c
      ((List.prefix_append _ _).trans hcs)
    obtain ⟨n', rest'', hf, hn'⟩ := ih hn hcs
    refine ⟨n + n', rest'', ?_, by rwa [← Nat.add_assoc]⟩
    rw [feed_cons, hd, hf, List.take_add, List.drop_drop]

end Codec

end Frames

end Cutter

end NetProg.Lib
