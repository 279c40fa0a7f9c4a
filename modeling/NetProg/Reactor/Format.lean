import NetProg.Reactor.Calculation
import NetProg.Reactor.Grammar
import NetProg.Reactor.Leftover

/-!
# What `Request::deserialize` recognises

The comment in the code says `"_x _op _y"`. The code looks for the first and the last space, hands
what stands outside them to `atoi` and takes the byte behind the first one as the operator. So it
accepts every string with two spaces (`deserialize_of_two`), and is exact on the strings that are
`Spaced`: those it rejects, and those whose first and last space have one byte between them and
numerals outside (`deserialize_format_iff`).
-/

namespace NetProg.Reactor

open NetProg.Lib

/-- `X` is a decimal numeral with the value `z`, perhaps with a minus sign. -/
def Signed (X : Bytes) (z : ℤ) : Prop :=
  ∃ H, Numeral H ∧ (X = H ∧ z = digitsVal H ∨ X = 45 :: H ∧ z = -digitsVal H)

/-- A numeral of some `int`. -/
def IntNumeral (X : Bytes) : Prop := ∃ z, Signed X z ∧ InInt z

/-- `s` is the documented text of the request `r`. -/
def Request.Text (r : Request) (s : Bytes) : Prop :=
  ∃ X Y, s = X ++ SPACE ++ [r.op] ++ SPACE ++ Y ∧ Signed X r.x.toInt ∧ Signed Y r.y.toInt

/-- A text with at most one space, or with one byte between the first and the last, a numeral before
the first and a numeral behind the last. -/
def Spaced (s : Bytes) : Prop :=
  s.count 32 < 2 ∨ ∃ left, find SPACE s = some left ∧ rfind SPACE s = some (left + 2) ∧
    IntNumeral (s.take left) ∧ IntNumeral (s.drop (left + 3))

/-! ### Numerals -/

theorem Numeral.zero_not_mem {H : Bytes} (h : Numeral H) : 0 ∉ H := fun h0 =>
  absurd (h.2 0 h0) (by decide)

theorem Numeral.space_not_mem {H : Bytes} (h : Numeral H) : 32 ∉ H := fun h0 =>
  absurd (h.2 32 h0) (by decide)

theorem Signed.space_not_mem {X : Bytes} {z : ℤ} (h : Signed X z) : 32 ∉ X := by
  obtain ⟨H, hH, ⟨rfl, -⟩ | ⟨rfl, -⟩⟩ := h
  · exact hH.space_not_mem
  · exact List.not_mem_cons_of_ne_of_not_mem (by decide) hH.space_not_mem

theorem Signed.zero_not_mem {X : Bytes} {z : ℤ} (h : Signed X z) : 0 ∉ X := by
  obtain ⟨H, hH, ⟨rfl, -⟩ | ⟨rfl, -⟩⟩ := h
  · exact hH.zero_not_mem
  · exact List.not_mem_cons_of_ne_of_not_mem (by decide) hH.zero_not_mem

theorem Signed.atoi {X : Bytes} {z : Int32} (h : Signed X z.toInt) : atoi (cStr X) = z := by
  have h1 := z.toInt_lt
  have h2 := z.le_toInt
  have hval : strtol X = z.toInt := by
    obtain ⟨H, hH, ⟨rfl, hz⟩ | ⟨rfl, hz⟩⟩ := h
    · have hread := strtol_digits_nil hH.1 hH.2
      omega
    · have hread := strtol_neg_digits_nil hH.2
      omega
  rw [cStr_of_free h.zero_not_mem, Lib.atoi, hval, Int32.ofInt_toInt]

theorem intNumeral_iff {X : Bytes} : IntNumeral X ↔ ∃ z : Int32, Signed X z.toInt := by
  constructor
  · rintro ⟨z, hX, hz⟩
    exact ⟨Int32.ofInt z, by rwa [toInt_ofInt hz]⟩
  · rintro ⟨z, hX⟩
    exact ⟨z.toInt, hX, inInt_toInt z⟩

/-! ### The documented texts -/

theorem Request.Text.deserialize {r : Request} {s : Bytes} (h : r.Text s) (left : Request) :
    left.deserialize s = (true, r) := by
  obtain ⟨X, Y, rfl, hX, hY⟩ := h
  rw [deserialize_two_spaces hX.space_not_mem hY.space_not_mem, hX.atoi, hY.atoi]

theorem exists_text_iff {s : Bytes} : (∃ r : Request, r.Text s) ↔
    ∃ left, find SPACE s = some left ∧ rfind SPACE s = some (left + 2) ∧
      IntNumeral (s.take left) ∧ IntNumeral (s.drop (left + 3)) := by
  constructor
  · rintro ⟨r, X, Y, rfl, hX, hY⟩
    refine ⟨X.length, find_two_spaces hX.space_not_mem _, rfind_two_spaces hY.space_not_mem _,
      ?_, ?_⟩
    · simp only [List.append_assoc, List.take_left]
      exact intNumeral_iff.2 ⟨_, hX⟩
    · rw [List.drop_left' (by simp [SPACE])]
      exact intNumeral_iff.2 ⟨_, hY⟩
  · rintro ⟨left, hl, hr, hX, hY⟩
    obtain ⟨X, t, hs, rfl, -⟩ := find_split hl
    obtain ⟨U, Y, hs', hU⟩ := rfind_split hr
    -- between the two spaces stands one byte
    have hlen : (X ++ SPACE).length ≤ U.length := by simp [SPACE, hU]
    obtain ⟨v, rfl⟩ : X ++ SPACE <+: U :=
      List.prefix_of_prefix_length_le ⟨t, by rw [hs, List.append_assoc]⟩ ⟨_, hs'.symm⟩ hlen
    obtain ⟨c, rfl⟩ : ∃ c, v = [c] := List.length_eq_one_iff.1 (by
      simp only [List.length_append, SPACE, List.length_singleton] at hU
      omega)
    rw [← List.append_assoc] at hs'
    subst hs'
    rw [List.drop_left' (by simp [SPACE])] at hY
    simp only [List.append_assoc, List.take_left] at hX
    obtain ⟨x, hX⟩ := intNumeral_iff.1 hX
    obtain ⟨y, hY⟩ := intNumeral_iff.1 hY
    exact ⟨⟨x, y, c⟩, X, Y, rfl, hX, hY⟩

theorem spaced_iff {s : Bytes} : Spaced s ↔ s.count 32 < 2 ∨ ∃ r : Request, r.Text s := by
  rw [exists_text_iff]
  rfl

/-- **What `deserialize` recognises** is exactly the documented texts, with their values, on the
strings that are `Spaced`. -/
theorem deserialize_format_iff (left : Request) (s : Bytes) :
    (((left.deserialize s).1 = true ↔ ∃ r : Request, r.Text s) ∧
      ∀ r : Request, r.Text s → left.deserialize s = (true, r)) ↔ Spaced s := by
  rw [spaced_iff]
  constructor
  · rintro ⟨h, -⟩
    by_cases hc : s.count 32 < 2
    · exact Or.inl hc
    · obtain ⟨r, hr⟩ := deserialize_of_two (by omega : 2 ≤ s.count 32)
      exact Or.inr (h.1 (by rw [hr left]))
  · intro h
    refine ⟨⟨fun htrue => ?_, fun ⟨r, hr⟩ => by rw [hr.deserialize left]⟩,
      fun r hr => hr.deserialize left⟩
    rcases h with hc | h
    · rw [deserialize_of_few hc left] at htrue
      cases htrue
    · exact h

/-- `"1 + 2 3"` is accepted as `1 + 3`. -/
theorem deserialize_not_format :
    ¬ ∀ (left : Request) (s : Bytes), (left.deserialize s).1 = true ↔ ∃ r : Request, r.Text s := by
  intro h
  obtain ⟨r, hr⟩ := (h ⟨0, 0, 0⟩ [49, 32, 43, 32, 50, 32, 51]).1 (by decide)
  obtain ⟨left, hl, hr, -⟩ := exists_text_iff.1 ⟨r, hr⟩
  have h1 : find SPACE [49, 32, 43, 32, 50, 32, 51] = some 1 := by decide
  have h2 : rfind SPACE [49, 32, 43, 32, 50, 32, 51] = some 5 := by decide
  rw [h1, Option.some.injEq] at hl
  rw [h2, ← hl, Option.some.injEq] at hr
  omega

end NetProg.Reactor
