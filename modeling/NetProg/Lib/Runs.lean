import Mathlib.Logic.Relation

/-!
# Runs of a transition system

A system is given by its initial states and its steps. An `Invariant` holds at the start and is kept
by every step, so it holds in every state of every run (`Invariant.reachable`).

A program that makes calls shares its state with an environment that moves whenever it likes
(`During`). What the last call establishes and the moves keep holds afterwards (`During.settles`).
-/

namespace NetProg.Lib

open Relation

variable {σ : Type*} {init : σ → Prop} {step : σ → σ → Prop} {I : σ → Prop} {s s' : σ}

/-- The states of the runs. -/
def Reachable (init : σ → Prop) (step : σ → σ → Prop) (s : σ) : Prop :=
  ∃ s₀, init s₀ ∧ ReflTransGen step s₀ s

theorem Reachable.start (h : init s) : Reachable init step s := ⟨s, h, .refl⟩

theorem Reachable.next (h : Reachable init step s) (hs : step s s') : Reachable init step s' := by
  obtain ⟨s₀, h₀, hsteps⟩ := h
  exact ⟨s₀, h₀, hsteps.tail hs⟩

theorem Reachable.mono {step' : σ → σ → Prop} (h : Reachable init step s)
    (hstep : ∀ s s', step s s' → step' s s') : Reachable init step' s := by
  obtain ⟨s₀, h₀, hsteps⟩ := h
  exact ⟨s₀, h₀, ReflTransGen.mono hstep _ _ hsteps⟩

structure Invariant (init : σ → Prop) (step : σ → σ → Prop) (I : σ → Prop) : Prop where
  init : ∀ s, init s → I s
  step : ∀ s s', I s → step s s' → I s'

/-- **An invariant holds in every reachable state.** -/
theorem Invariant.reachable (h : Invariant init step I) (hs : Reachable init step s) : I s := by
  obtain ⟨s₀, h₀, hsteps⟩ := hs
  induction hsteps with
  | refl => exact h.init s₀ h₀
  | tail _ hstep ih => exact h.step _ _ ih hstep

/-! ### Calls, and what happens between them -/

variable {α : Type*} {move : σ → σ → Prop} {call : σ → α → σ → Prop} {as bs : List α} {a : α}

/-- The calls `as` are made one after the other; before, between and after them the environment may
move. -/
inductive During (move : σ → σ → Prop) (call : σ → α → σ → Prop) : σ → List α → σ → Prop
  | nil {s : σ} : During move call s [] s
  | move {s s' s'' : σ} {as : List α} (hm : move s s') (h : During move call s' as s'') :
      During move call s as s''
  | call {s s' s'' : σ} {a : α} {as : List α} (ha : call s a s') (h : During move call s' as s'') :
      During move call s (a :: as) s''

theorem During.keeps (h : During move call s as s') (hmove : ∀ s s', move s s' → I s → I s')
    (hcall : ∀ a ∈ as, ∀ s s', call s a s' → I s → I s') (hs : I s) : I s' := by
  induction h with
  | nil => exact hs
  | move hm _ ih => exact ih hcall (hmove _ _ hm hs)
  | call ha _ ih =>
    exact ih (fun b hb => hcall b (List.mem_cons_of_mem _ hb))
      (hcall _ List.mem_cons_self _ _ ha hs)

theorem During.of_append (h : During move call s (as ++ bs) s') :
    ∃ t, During move call s as t ∧ During move call t bs s' := by
  generalize hl : as ++ bs = l at h
  induction h generalizing as with
  | @nil s =>
    obtain ⟨rfl, rfl⟩ := List.append_eq_nil_iff.1 hl
    exact ⟨s, .nil, .nil⟩
  | move hm _ ih =>
    obtain ⟨t, h1, h2⟩ := ih hl
    exact ⟨t, .move hm h1, h2⟩
  | @call s s' s'' a l ha h ih =>
    cases as with
    | nil =>
      obtain rfl : bs = a :: l := hl
      exact ⟨s, .nil, .call ha h⟩
    | cons b as =>
      obtain ⟨rfl, rfl⟩ := List.cons.inj hl
      obtain ⟨t, h1, h2⟩ := ih rfl
      exact ⟨t, .call ha h1, h2⟩

/-- **What a call settles.** A property that one of the calls establishes holds in the end, when the
moves and the calls behind it keep it. -/
theorem During.settles (h : During move call s (as ++ a :: bs) s')
    (hmove : ∀ s s', move s s' → I s → I s') (hcall : ∀ b ∈ bs, ∀ s s', call s b s' → I s → I s')
    (ha : ∀ s s', call s a s' → I s') : I s' := by
  obtain ⟨t, -, h2⟩ := h.of_append
  clear h
  generalize hl : a :: bs = l at h2
  induction h2 with
  | nil => cases hl
  | move _ _ ih => exact ih hl
  | call hc h3 _ =>
    obtain ⟨rfl, rfl⟩ := List.cons.inj hl
    exact h3.keeps hmove hcall (ha _ _ hc)

end NetProg.Lib
