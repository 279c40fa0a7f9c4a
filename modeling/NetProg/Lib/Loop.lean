import Mathlib.Tactic.Common

/-!
# Loops that are driven by answers

A `while (true)` loop around a system call goes round once for each answer of the environment. The
loop here runs on a list of answers; the body says what one turn does with one answer, and may also
end the whole program (`Except`). When the answers end before the loop is left, the loop is at its
call again and waits; the caller says what that means.

`Goes` follows a loop through answers that do not leave it, and `Goes.loop` says that the loop then
continues from there; `loop_eq_error_iff` says in which runs the program ends. `bind_eq_ok` takes a
computation apart at its steps.
-/

namespace NetProg.Lib

universe u v w

/-- What a turn of the loop does: go round again from a new state, or leave with a result. -/
inductive Turn (σ : Type u) (β : Type v) where
  | again (s : σ)
  | leave (b : β)

variable {ε : Type w} {σ α β γ : Type u}

/-- Run the body once for each answer until it leaves the loop; `wait` is for the answers' end. -/
def loop (wait : σ → Except ε β) (body : σ → α → Except ε (Turn σ β)) : σ → List α → Except ε β
  | s, [] => wait s
  | s, a :: as =>
    match body s a with
    | .ok (.again s') => loop wait body s' as
    | .ok (.leave b) => .ok b
    | .error e => .error e

theorem bind_eq_ok {x : Except ε β} {f : β → Except ε γ} {c : γ} :
    x >>= f = .ok c ↔ ∃ b, x = .ok b ∧ f b = .ok c := by
  cases x <;> simp [bind, Except.bind]

/-- The answers `as` take the loop from one state to another without leaving it. -/
inductive Goes (body : σ → α → Except ε (Turn σ β)) (s : σ) : List α → σ → Prop
  | nil : Goes body s [] s
  | snoc {as : List α} {s' s'' : σ} {a : α} (h : Goes body s as s')
      (ha : body s' a = .ok (.again s'')) : Goes body s (as ++ [a]) s''

variable {wait : σ → Except ε β} {body : σ → α → Except ε (Turn σ β)} {s s' : σ} {as : List α}

theorem Goes.loop (h : Goes body s as s') (bs : List α) :
    loop wait body s (as ++ bs) = Lib.loop wait body s' bs := by
  induction h generalizing bs with
  | nil => rfl
  | snoc _ ha ih => rw [List.append_assoc, ih, List.singleton_append, Lib.loop, ha]

theorem Goes.head {a : α} {s'' : σ} (ha : body s a = .ok (.again s')) (h : Goes body s' as s'') :
    Goes body s (a :: as) s'' := by
  induction h with
  | nil =>
    have hone : Goes body s ([] ++ [a]) s' := Goes.snoc Goes.nil ha
    exact hone
  | snoc _ hb ih => exact Goes.snoc ih hb

/-- **A loop ends with an error** when its turns come to a state and an answer on which the body
does. -/
theorem loop_eq_error_iff {e : ε} (hwait : ∀ s, wait s ≠ .error e) :
    Lib.loop wait body s as = .error e ↔
      ∃ bs a cs s', as = bs ++ a :: cs ∧ Goes body s bs s' ∧ body s' a = .error e := by
  constructor
  · intro h
    induction as generalizing s with
    | nil => exact absurd h (hwait s)
    | cons a as ih =>
      rw [Lib.loop] at h
      split at h
      · rename_i s' ha
        obtain ⟨bs, b, cs, s'', rfl, hgoes, hb⟩ := ih h
        exact ⟨a :: bs, b, cs, s'', rfl, Goes.head ha hgoes, hb⟩
      · cases h
      · rename_i e' ha
        obtain rfl : e' = e := by simpa using h
        exact ⟨[], a, as, s, rfl, Goes.nil, ha⟩
  · rintro ⟨bs, a, cs, s', rfl, hgoes, ha⟩
    rw [hgoes.loop, Lib.loop, ha]

/-- **A loop waits** in the state that all its answers have taken it to. -/
theorem Goes.loop_eq_wait (h : Goes body s as s') : Lib.loop wait body s as = wait s' := by
  have := @Goes.loop _ _ _ _ wait _ _ _ _ h []
  rwa [List.append_nil] at this

end NetProg.Lib
