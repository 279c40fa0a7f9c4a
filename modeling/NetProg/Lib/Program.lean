import Mathlib.Logic.Function.Basic
import Mathlib.Tactic.Common

/-!
# Programs that make calls, and the descriptors they make them on

A program is given by the calls it can make, each with the answer it gets: a call takes it from one
state to another, or ends it with an error. `Talk` lists the calls that have taken a program to a
state. Programs that run one after the other are a program again (`Program.seq`).

A descriptor is a number in a table, and numbers are used again. A `Job` is a program at work on a
descriptor, for a connection that the descriptor is meant to stand for. It `Fits` when the table
says so and what was said on the connection is the talk of the program.
-/

namespace NetProg.Lib

open Function

structure Program (σ Call ε : Type*) where
  start : σ
  returned : σ → Bool
  /-- none when this is not the next call -/
  step : σ → Call → Option (Except ε σ)

variable {σ Call ε κ : Type*} {P : Program σ Call ε} {l : List Call} {s s' : σ} {c : Call}

/-- The calls that have taken the program to a state. -/
inductive Talk (P : Program σ Call ε) : List Call → σ → Prop
  | start : Talk P [] P.start
  | call {l : List Call} {s s' : σ} {c : Call} (h : Talk P l s) (hs : P.returned s = false)
      (hc : P.step s c = some (.ok s')) : Talk P (l ++ [c]) s'

/-! ### One program after the other -/

namespace Program

/-- A call is made by the first program that has not returned. -/
def seqStep : List (Program σ Call ε × σ) → Call →
    Option (Except ε (List (Program σ Call ε × σ)))
  | [], _ => none
  | (P, s) :: rest, c =>
    if P.returned s then (seqStep rest c).map (Except.map ((P, s) :: ·))
    else (P.step s c).map (Except.map fun s' => (P, s') :: rest)

def seq (Ps : List (Program σ Call ε)) : Program (List (Program σ Call ε × σ)) Call ε where
  start := Ps.map fun P => (P, P.start)
  returned S := S.all fun (P, s) => P.returned s
  step := seqStep

end Program

theorem Talk.seq_nil {S : List (Program σ Call ε × σ)} (h : Talk (Program.seq []) l S) :
    l = [] ∧ S = [] := by
  induction h with
  | start => exact ⟨rfl, rfl⟩
  | call _ _ hc ih =>
    obtain ⟨-, rfl⟩ := ih
    cases hc

theorem Talk.seq_cons {Ps : List (Program σ Call ε)} {S : List (Program σ Call ε × σ)}
    (h : Talk (Program.seq (P :: Ps)) l S) :
    ∃ l₁ l₂ s S', l = l₁ ++ l₂ ∧ S = (P, s) :: S' ∧ Talk P l₁ s ∧ Talk (Program.seq Ps) l₂ S' ∧
      (P.returned s = false → l₂ = []) := by
  induction h with
  | start => exact ⟨[], [], P.start, _, rfl, rfl, .start, .start, fun _ => rfl⟩
  | @call l S S'' c _ hs hc ih =>
    obtain ⟨l₁, l₂, s, S', rfl, rfl, h₁, h₂, hopen⟩ := ih
    cases hret : P.returned s with
    | true =>
      -- the call is one of the programs behind
      have hs' : (Program.seq Ps).returned S' = false := by
        simpa [Program.seq, hret] using hs
      simp only [Program.seq, Program.seqStep, hret, if_true, Option.map_eq_some_iff] at hc
      obtain ⟨r, hr, hmap⟩ := hc
      cases r with
      | error e => cases hmap
      | ok S₁ =>
        cases hmap
        exact ⟨l₁, l₂ ++ [c], s, S₁, by simp, rfl, h₁, h₂.call hs' hr, fun h => by simp [hret] at h⟩
    | false =>
      obtain rfl := hopen hret
      simp only [Program.seq, Program.seqStep, hret, Bool.false_eq_true, if_false,
        Option.map_eq_some_iff] at hc
      obtain ⟨r, hr, hmap⟩ := hc
      cases r with
      | error e => cases hmap
      | ok s' =>
        cases hmap
        exact ⟨l₁ ++ [c], [], s', S', by simp, rfl, h₁.call hret hr, h₂, fun _ => rfl⟩

theorem Talk.seq_singleton {S : List (Program σ Call ε × σ)}
    (h : Talk (Program.seq [P]) l S) : ∃ s, Talk P l s ∧ S = [(P, s)] := by
  obtain ⟨l₁, l₂, s, S', rfl, rfl, h₁, h₂, -⟩ := h.seq_cons
  obtain ⟨rfl, rfl⟩ := h₂.seq_nil
  exact ⟨s, by rwa [List.append_nil], rfl⟩

/-! ### Programs at work on descriptors -/

/-- What a descriptor stands for; connections are numbered as they are accepted. -/
inductive File where
  | listening
  | connection (k : ℕ)
  deriving DecidableEq, Repr

theorem File.connection_ne {j k : ℕ} (h : j ≠ k) : File.connection j ≠ .connection k := by
  simpa using h

/-- A program at work: on the descriptor `sock`, for the connection `conn`. -/
structure Job (σ κ : Type*) where
  sock : ℕ
  conn : κ
  state : σ

variable {t : ℕ → Option κ} {talk : κ → List Call} {fd : ℕ} {j : Job σ κ} {k : κ}

section

variable [DecidableEq κ]

/-- A call on the descriptor `fd` is heard by what the table has there. -/
def hear (t : ℕ → Option κ) (fd : ℕ) (c : Call) (talk : κ → List Call) : κ → List Call :=
  match t fd with
  | some k => update talk k (talk k ++ [c])
  | none => talk

theorem hear_of_some (h : t fd = some k) (c : Call) :
    hear t fd c talk = update talk k (talk k ++ [c]) := by
  simp only [hear, h]

end

structure Job.Fits (P : Program σ Call ε) (t : ℕ → Option κ) (talk : κ → List Call)
    (j : Job σ κ) : Prop where
  sock : t j.sock = some j.conn
  talk : Talk P (talk j.conn) j.state

namespace Job.Fits

theorem start (h : t fd = some k) (htalk : talk k = []) : Job.Fits P t talk ⟨fd, k, P.start⟩ :=
  ⟨h, htalk ▸ .start⟩

theorem call [DecidableEq κ] (h : j.Fits P t talk) (hret : P.returned j.state = false)
    (hc : P.step j.state c = some (.ok s)) :
    Job.Fits P t (hear t j.sock c talk) { j with state := s } where
  sock := h.sock
  talk := by
    rw [hear_of_some h.sock, update_self]
    exact h.talk.call hret hc

end Job.Fits

end NetProg.Lib
