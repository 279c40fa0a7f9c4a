import NetProg.Calculator.CalServer
import NetProg.Reactor.Calculation

/-!
# Which payloads the calculator can take (JSON)

`Request::deserialize` looks neither at the result of `parse` nor at the kinds of the values, and
always returns true; an exception of the library ends the process, since neither `calculator` nor
the thread that runs it catches one. `deserialize_isOk_iff` says on which values the library does
not throw, `calculator_throws_iff` in which runs the calculator ends so, and `deserialize_sound_iff`
which payloads are read as what they are.
-/

namespace NetProg.Calculator

open NetProg.Lib NetProg.Reactor

/-! ### What the library converts -/

/-- `asInt` does not throw. -/
def Value.Converts : Value → Prop
  | null => True
  | bool _ => True
  | int z => InInt z
  | real q => -2 ^ 31 ≤ q ∧ q ≤ 2 ^ 31 - 1
  | string _ => False
  | array _ => False
  | object _ => False

/-- No member that `deserialize` asks for makes the library throw. -/
def Value.Readable : Value → Prop
  | null => True
  | object ms => ∀ key ∈ ["x", "y", "op"], ((ms.lookup key).getD null).Converts
  | bool _ => False
  | int _ => False
  | real _ => False
  | string _ => False
  | array _ => False

theorem Value.asInt_of_converts {v : Value} (h : v.Converts) : ∃ z, v.asInt = .ok z := by
  cases v with
  | null => exact ⟨0, rfl⟩
  | bool b => exact ⟨_, rfl⟩
  | int z => exact ⟨_, if_pos h⟩
  | real q => exact ⟨_, if_pos h⟩
  | string s => exact h.elim
  | array vs => exact h.elim
  | object ms => exact h.elim

theorem Value.asInt_of_not {v : Value} (h : ¬ v.Converts) : v.asInt = .error .json := by
  cases v with
  | null => exact absurd trivial h
  | bool b => exact absurd trivial h
  | int z => exact if_neg h
  | real q => exact if_neg h
  | string s => rfl
  | array vs => rfl
  | object ms => rfl

namespace Json

variable {J : Json} {s : Bytes}

/-! ### When `deserialize` ends -/

theorem deserialize_object {ms : List (String × Value)} (h : (J.parse s).getD .null = .object ms) :
    J.deserialize s = do
      let x ← ((ms.lookup "x").getD .null).asInt
      let y ← ((ms.lookup "y").getD .null).asInt
      let op ← ((ms.lookup "op").getD .null).asInt
      return (true, { x, y, op := intToChar op }) := by
  unfold deserialize
  rw [h]
  rfl

theorem deserialize_of_readable (h : ((J.parse s).getD .null).Readable) :
    ∃ r, J.deserialize s = .ok (true, r) := by
  cases hroot : (J.parse s).getD .null with
  | null => exact ⟨_, by unfold deserialize; rw [hroot]; rfl⟩
  | object ms =>
    rw [hroot] at h
    obtain ⟨x, hx⟩ := Value.asInt_of_converts (h "x" (by simp))
    obtain ⟨y, hy⟩ := Value.asInt_of_converts (h "y" (by simp))
    obtain ⟨op, hop⟩ := Value.asInt_of_converts (h "op" (by simp))
    refine ⟨{ x, y, op := intToChar op }, ?_⟩
    rw [deserialize_object hroot, hx, hy, hop]
    rfl
  | _ => rw [hroot] at h; exact h.elim

theorem deserialize_of_not_readable (h : ¬ ((J.parse s).getD .null).Readable) :
    J.deserialize s = .error .json := by
  cases hroot : (J.parse s).getD .null with
  | null => rw [hroot] at h; exact absurd trivial h
  | object ms =>
    rw [hroot] at h
    rw [deserialize_object hroot]
    -- the first of the members that does not convert throws
    by_cases hx : ((ms.lookup "x").getD .null).Converts
    · obtain ⟨x, hx'⟩ := Value.asInt_of_converts hx
      rw [hx']
      by_cases hy : ((ms.lookup "y").getD .null).Converts
      · obtain ⟨y, hy'⟩ := Value.asInt_of_converts hy
        rw [hy']
        have hop : ¬ ((ms.lookup "op").getD .null).Converts := fun hop => h (by
          simp [Value.Readable, hx, hy, hop])
        rw [Value.asInt_of_not hop]
        rfl
      · rw [Value.asInt_of_not hy]
        rfl
    · rw [Value.asInt_of_not hx]
      rfl
  | _ => unfold deserialize; rw [hroot]; rfl

theorem deserialize_isOk_iff :
    (∃ r, J.deserialize s = .ok r) ↔ ((J.parse s).getD .null).Readable := by
  constructor
  · rintro ⟨r, hr⟩
    by_contra hnot
    rw [deserialize_of_not_readable hnot] at hr
    cases hr
  · intro h
    obtain ⟨r, hr⟩ := deserialize_of_readable h
    exact ⟨_, hr⟩

theorem deserialize_throws_iff :
    J.deserialize s = .error .json ↔ ¬ ((J.parse s).getD .null).Readable := by
  constructor
  · intro h hread
    obtain ⟨r, hr⟩ := deserialize_of_readable hread
    rw [hr] at h
    cases h
  · exact deserialize_of_not_readable

end Json

/-! ### When the calculator ends -/

variable {J : Json}

theorem reply_throws_iff {package : Bytes} :
    reply J package = .error .json ↔ ¬ ((J.parse package).getD .null).Readable := by
  rw [← Json.deserialize_throws_iff]
  unfold reply
  cases J.deserialize package with
  | error e => simp [bind, Except.bind]
  | ok r =>
    cases hresp : calculatorHelp r.2 <;>
      simp [bind, Except.bind, Except.mapError, pure, Except.pure, hresp]

/-- **A turn of `calculator` ends the process with an exception** exactly when it takes a complete
frame off its buffer and the library cannot convert the payload. -/
theorem turn_throws_iff {c : Service} {a : RecvAns × SendAns} :
    calculator.turn J c a = .error .json ↔ ∃ s, recv a.1 c.s = some (true, s) ∧
      (deCode s).1 ≠ [] ∧ ¬ ((J.parse (deCode s).1).getD .null).Readable := by
  unfold calculator.turn
  split
  · rename_i h
    simp [h]
  · rename_i s h
    simp [h]
  · rename_i s h
    simp only [h, Option.some.injEq, Prod.mk.injEq, true_and, exists_eq_left']
    by_cases hp : (deCode s).1 = []
    · simp [hp]
    · rw [if_neg (by simpa using hp), ← reply_throws_iff, and_iff_right hp]
      cases reply J (deCode s).1 with
      | error e => simp [bind, Except.bind]
      | ok backStr =>
        simp only [bind, Except.bind, pure, Except.pure]
        split <;> simp

/-- **The process ends with an exception** in the runs that come to such a turn, and in no other. -/
theorem calculator_throws_iff {answers : List (RecvAns × SendAns)} :
    calculator J answers = .error .json ↔ ∃ as a bs c s, answers = as ++ a :: bs ∧
      Goes (calculator.turn J) {} as c ∧ recv a.1 c.s = some (true, s) ∧ (deCode s).1 ≠ [] ∧
        ¬ ((J.parse (deCode s).1).getD .null).Readable := by
  unfold calculator
  rw [loop_eq_error_iff fun c => by rintro ⟨⟩]
  simp only [turn_throws_iff, exists_and_left]

/-! ### Which payloads are requests -/

/-- The payload was parsed, to an object whose `x`, `y` and `op` are integers in the range of
`int`. -/
def IsRequest (root : Option Value) : Prop :=
  ∃ ms x y op, root = some (.object ms) ∧
    (ms.lookup "x" = some (.int x) ∧ InInt x) ∧ (ms.lookup "y" = some (.int y) ∧ InInt y) ∧
      ms.lookup "op" = some (.int op) ∧ InInt op

theorem IsRequest.readable {root : Option Value} (h : IsRequest root) :
    (root.getD .null).Readable := by
  obtain ⟨ms, x, y, op, rfl, ⟨hx, hxi⟩, ⟨hy, hyi⟩, hop, hopi⟩ := h
  intro key hkey
  simp only [List.mem_cons, List.not_mem_nil, or_false] at hkey
  rcases hkey with rfl | rfl | rfl
  · rw [hx]; exact hxi
  · rw [hy]; exact hyi
  · rw [hop]; exact hopi

/-- **Which payloads are safe.** `deserialize` ends without an exception exactly when the library
can convert what it is asked for; and it does so with true only for a request exactly on the
requests. -/
theorem deserialize_sound_iff (J : Json) (s : Bytes) :
    ((∃ r, J.deserialize s = .ok r) ↔ ((J.parse s).getD .null).Readable) ∧
      ((∃ ok r, J.deserialize s = .ok (ok, r) ∧ (ok = true → IsRequest (J.parse s))) ↔
        IsRequest (J.parse s)) := by
  refine ⟨Json.deserialize_isOk_iff, ?_, ?_⟩
  · rintro ⟨ok, r, h, hsound⟩
    obtain ⟨r', hr'⟩ := Json.deserialize_of_readable (Json.deserialize_isOk_iff.1 ⟨_, h⟩)
    rw [hr'] at h
    obtain ⟨rfl, -⟩ := Prod.mk.inj (Except.ok.inj h)
    exact hsound rfl
  · intro h
    obtain ⟨r, hr⟩ := Json.deserialize_of_readable h.readable
    exact ⟨true, r, hr, fun _ => h⟩

/-- What the library does on two payloads: an empty array, and a text that is no JSON. -/
def arrayJson : Json where
  write _ := []
  parse s := if s = literal "[]" then some (.array []) else none

/-- The array ends the process, and the text that is no JSON is read as a request of zeros. -/
theorem deserialize_not_sound :
    (¬ ∃ ok r, arrayJson.deserialize (literal "[]") = .ok (ok, r)) ∧
      calculator arrayJson [(.bytes (literal "2\r\n[]\r\n"), .count 1)] = .error .json ∧
      arrayJson.deserialize (literal "x") = .ok (true, ⟨0, 0, 0⟩) ∧
      ¬ IsRequest (arrayJson.parse (literal "x")) := by
  have hthrow : arrayJson.deserialize (literal "[]") = .error .json := rfl
  refine ⟨?_, rfl, rfl, ?_⟩
  · rintro ⟨ok, r, h⟩
    rw [hthrow] at h
    cases h
  · rintro ⟨ms, x, y, op, h, -⟩
    cases h

end NetProg.Calculator
