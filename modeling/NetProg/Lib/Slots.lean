import Mathlib.Data.List.Nodup
import Mathlib.Data.List.Perm.Subperm
import Mathlib.Data.List.Range
import Mathlib.Logic.Function.Basic
import Mathlib.Tactic.Common

/-!
# Tables of slots

A table is a function from slot numbers to their contents, of which the first `n` slots are used; a
free slot holds nothing. `firstFree` is the search for a slot from the front. `Distinct` tables hold
nothing twice, which filling a free slot with something new and freeing a slot keep.
-/

namespace NetProg.Lib

open Function

variable {α : Type*} {n m i j : ℕ} {t u : ℕ → Option α} {x y : α}

/-- The first free slot. -/
def firstFree (n : ℕ) (t : ℕ → Option α) : Option ℕ := (List.range n).find? fun i => (t i).isNone

theorem firstFree_eq_some : firstFree n t = some i ↔ i < n ∧ t i = none ∧ ∀ j < i, t j ≠ none := by
  unfold firstFree
  rw [List.find?_range_eq_some, List.mem_range]
  simp only [Option.isNone_iff_eq_none, Bool.not_eq_true', Option.isNone_eq_false_iff,
    Option.isSome_iff_ne_none]
  tauto

theorem firstFree_eq_none : firstFree n t = none ↔ ∀ i < n, t i ≠ none := by
  simp [firstFree]

theorem firstFree_mono (hnm : n ≤ m) (htu : ∀ i < n, t i = u i) (h : firstFree n t = some i) :
    firstFree m u = some i := by
  obtain ⟨hi, hfree, hbefore⟩ := firstFree_eq_some.1 h
  refine firstFree_eq_some.2 ⟨by omega, htu i hi ▸ hfree, fun j hj => ?_⟩
  rw [← htu j (by omega)]
  exact hbefore j hj

/-- No two slots hold the same. -/
def Distinct (n : ℕ) (t : ℕ → Option α) : Prop :=
  ∀ i j x, i < n → j < n → t i = some x → t j = some x → i = j

theorem Distinct.fill (h : Distinct n t) (hx : ∀ j < n, t j ≠ some x) :
    Distinct n (update t i (some x)) := by
  intro j k y hj hk hjy hky
  rw [update_apply] at hjy hky
  split at hjy
  · rename_i hji
    split at hky
    · rename_i hki
      rw [hji, hki]
    · obtain rfl : x = y := Option.some.inj hjy
      exact absurd hky (hx k hk)
  · split at hky
    · obtain rfl : x = y := Option.some.inj hky
      exact absurd hjy (hx j hj)
    · exact h j k y hj hk hjy hky

theorem Distinct.free (h : Distinct n t) : Distinct n (update t i none) := by
  intro j k y hj hk hjy hky
  rw [update_apply] at hjy hky
  split at hjy
  · cases hjy
  · split at hky
    · cases hky
    · exact h j k y hj hk hjy hky

theorem Distinct.le_length (h : Distinct n t) {l : List α} (hl : ∀ i < n, ∃ x ∈ l, t i = some x) :
    n ≤ l.length := by
  have hnodup : ((List.range n).filterMap fun i => if i < n then t i else none).Nodup := by
    refine List.Nodup.filterMap ?_ List.nodup_range
    intro a b y ha hb
    simp only [Option.mem_def] at ha hb
    split at ha
    · split at hb
      · exact h a b y ‹_› ‹_› ha hb
      · cases hb
    · cases ha
  have hsub : ((List.range n).filterMap fun i => if i < n then t i else none) ⊆ l := by
    intro y hy
    obtain ⟨i, hi, hiy⟩ := List.mem_filterMap.1 hy
    have hin := List.mem_range.1 hi
    obtain ⟨x, hx, htx⟩ := hl i hin
    rw [if_pos hin, htx] at hiy
    exact Option.some.inj hiy ▸ hx
  have hlen : ((List.range n).filterMap fun i => if i < n then t i else none).length = n := by
    rw [List.filterMap_length_eq_length.2, List.length_range]
    intro i hi
    have hin := List.mem_range.1 hi
    obtain ⟨x, -, htx⟩ := hl i hin
    rw [if_pos hin, htx]
    rfl
  exact hlen ▸ (hnodup.subperm hsub).length_le

end NetProg.Lib
