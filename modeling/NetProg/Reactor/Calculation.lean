import NetProg.Reactor.Messages

/-!
# When the calculation is right

`calculatorHelp` computes with `int`s that came from the network. It answers with the exact value,
or says that there is none, except where the value is no `int` and where the quotient of a division
is none (`calculatorHelp_told_iff`). `%` belongs to the second kind: its value would be zero there,
but the processor computes the quotient with it.
-/

namespace NetProg.Reactor

open NetProg.Lib

/-- The values of an `int`. -/
def InInt (z : ℤ) : Prop := -2 ^ 31 ≤ z ∧ z < 2 ^ 31

/-- The mathematical value of a request, if its operator is one of the five and there is one. -/
def Request.value (r : Request) : Option ℤ :=
  let x := r.x.toInt
  let y := r.y.toInt
  match r.op with
  | 43 => some (x + y)
  | 45 => some (x - y)
  | 42 => some (x * y)
  | 47 => if y = 0 then none else some (x.tdiv y)
  | 37 => if y = 0 then none else some (x.tmod y)
  | _ => none

/-- A response that tells the truth about a request. -/
structure Told (r : Request) (resp : Response) : Prop where
  exact : resp.code = 0 → r.value = some resp.result.toInt
  without : resp.code ≠ 0 → ∀ z, r.value = some z → ¬ InInt z

/-- A sum, difference or product that is an `int`; no division of the least `int` by -1. -/
def Request.Safe (r : Request) : Prop :=
  match r.op with
  | 43 => InInt (r.x.toInt + r.y.toInt)
  | 45 => InInt (r.x.toInt - r.y.toInt)
  | 42 => InInt (r.x.toInt * r.y.toInt)
  | 47 | 37 => ¬ (r.x.toInt = -2 ^ 31 ∧ r.y.toInt = -1)
  | _ => True

/-! ### The operations -/

theorem inInt_toInt (x : Int32) : InInt x.toInt := ⟨x.le_toInt, x.toInt_lt⟩

theorem toInt_ofInt {z : ℤ} (h : InInt z) : (Int32.ofInt z).toInt = z :=
  Int32.toInt_ofInt_of_le h.1 h.2

theorem checked_of_inInt {f : ArithFault} {z : ℤ} (h : InInt z) :
    checked f z = .ok (Int32.ofInt z) := if_pos h

theorem checked_of_not {f : ArithFault} {z : ℤ} (h : ¬ InInt z) : checked f z = .error f := if_neg h

/-- A quotient is an `int` but for one pair of operands. -/
theorem inInt_tdiv_iff {x y : ℤ} (hx : InInt x) (hy : y ≠ 0) :
    InInt (x.tdiv y) ↔ ¬ (x = -2 ^ 31 ∧ y = -1) := by
  constructor
  · rintro h ⟨rfl, rfl⟩
    rw [Int.tdiv_neg, Int.tdiv_one] at h
    exact absurd h.2 (by decide)
  · intro h
    have hle := Int.natAbs_tdiv x y
    by_cases h1 : y = 1
    · rw [h1, Int.tdiv_one]
      exact hx
    by_cases h2 : y = -1
    · rw [h2, Int.tdiv_neg, Int.tdiv_one]
      have := hx.1
      have := hx.2
      constructor <;> omega
    · -- the divisor is at least two
      have hhalf : (x.tdiv y).natAbs ≤ x.natAbs / 2 := by
        rw [hle]
        exact Nat.div_le_div_left (by omega) (by decide)
      have := hx.1
      have := hx.2
      constructor <;> omega

theorem inInt_tmod {x y : ℤ} (hy : InInt y) (hy0 : y ≠ 0) : InInt (x.tmod y) := by
  have habs := Int.natAbs_tmod x y
  have hlt : x.natAbs % y.natAbs < y.natAbs := Nat.mod_lt _ (by omega)
  have := hy.1
  have := hy.2
  constructor <;> omega

theorem told_of_value {r : Request} {z : ℤ} (h : InInt z) (hv : r.value = some z) :
    Told r { result := Int32.ofInt z } where
  exact := fun _ => by rw [hv, toInt_ofInt h]
  without := fun h0 => absurd rfl h0

theorem told_of_none {r : Request} {code : Int32} (h0 : code ≠ 0) (hv : r.value = none) :
    Told r { code } where
  exact := fun h => absurd h h0
  without := fun _ z hz => by rw [hv] at hz; cases hz

theorem told_checked_iff {r : Request} {f : ArithFault} {z : ℤ} (hv : r.value = some z)
    (hc : calculatorHelp r = (do return { result := ← checked f z })) :
    (∃ resp, calculatorHelp r = .ok resp ∧ Told r resp) ↔ InInt z := by
  by_cases hz : InInt z
  · rw [hc, checked_of_inInt hz]
    exact ⟨fun _ => hz, fun _ => ⟨_, rfl, told_of_value hz hv⟩⟩
  · rw [hc, checked_of_not hz]
    exact ⟨fun ⟨_, h, _⟩ => (nomatch h), fun h => absurd h hz⟩

theorem not_safe_div {x y : Int32} (h : y.toInt = 0) : ¬ (x.toInt = -2 ^ 31 ∧ y.toInt = -1) :=
  fun hc => absurd (h.symm.trans hc.2) (by decide)

/-- **When the calculation neither overflows, traps nor lies**: unless a sum, a difference or a
product is no `int`, or the least `int` is divided by -1, also for its remainder. -/
theorem calculatorHelp_told_iff (r : Request) :
    (∃ resp, calculatorHelp r = .ok resp ∧ Told r resp) ↔ r.Safe := by
  obtain ⟨x, y, op⟩ := r
  have hx := inInt_toInt x
  have hy := inInt_toInt y
  unfold Request.Safe
  dsimp only
  split
  · exact told_checked_iff rfl rfl
  · exact told_checked_iff rfl rfl
  · exact told_checked_iff rfl rfl
  · by_cases h0 : y.toInt = 0
    · refine ⟨fun _ => not_safe_div h0, fun _ => ⟨{ code := 1 }, if_pos h0, ?_⟩⟩
      exact told_of_none (by decide) (if_pos h0)
    · rw [← inInt_tdiv_iff hx h0]
      exact told_checked_iff (if_neg h0) (if_neg h0)
  · by_cases h0 : y.toInt = 0
    · refine ⟨fun _ => not_safe_div h0, fun _ => ⟨{ code := 2 }, if_pos h0, ?_⟩⟩
      exact told_of_none (by decide) (if_pos h0)
    · have hc : calculatorHelp ⟨x, y, 37⟩ = (do
          let _ ← checked .trap (x.toInt.tdiv y.toInt)
          return { result := ← checked .trap (x.toInt.tmod y.toInt) }) := if_neg h0
      rw [← inInt_tdiv_iff hx h0]
      by_cases hq : InInt (x.toInt.tdiv y.toInt)
      · rw [checked_of_inInt hq] at hc
        exact (told_checked_iff (r := ⟨x, y, 37⟩) (if_neg h0) hc).trans
          ⟨fun _ => hq, fun _ => inInt_tmod hy h0⟩
      · rw [hc, checked_of_not hq]
        exact ⟨fun ⟨_, h, _⟩ => (nomatch h), fun h => absurd h hq⟩
  · rename_i h43 h45 h42 h47 h37
    refine ⟨fun _ => trivial, fun _ => ⟨{ code := 3 }, ?_, told_of_none (by decide) ?_⟩⟩
    · unfold calculatorHelp
      split <;> simp_all
    · unfold Request.value
      split <;> simp_all

/-- `2147483647 + 1` has no answer, and `-2147483648 % -1` stops the server. -/
theorem calculatorHelp_not_told :
    (¬ ∃ resp, calculatorHelp ⟨2147483647, 1, 43⟩ = .ok resp ∧ Told ⟨2147483647, 1, 43⟩ resp) ∧
    calculatorHelp ⟨-2147483648, -1, 37⟩ = .error .trap :=
  ⟨fun ⟨_, h, _⟩ => (nomatch h), rfl⟩

end NetProg.Reactor
