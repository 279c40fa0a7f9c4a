import Mathlib.Data.List.Infix
import Mathlib.Tactic.Common

/-!
# Searching a list for a pattern

The two searches of a string class, `find` (first occurrence) and `rfind` (last occurrence), on
lists over any alphabet, with the facts a parser needs: when there is none, what stands before and
after the one found, and that text added behind never moves a first occurrence.
-/

namespace NetProg.Lib

variable {α : Type*} [DecidableEq α]

/-- The first position at which `pat` occurs. -/
def find (pat : List α) : List α → Option ℕ
  | [] => if pat = [] then some 0 else none
  | a :: s => if pat <+: a :: s then some 0 else (find pat s).map (· + 1)

/-- The last position at which `pat` occurs. -/
def rfind (pat : List α) : List α → Option ℕ
  | [] => if pat = [] then some 0 else none
  | a :: s =>
    match rfind pat s with
    | some i => some (i + 1)
    | none => if pat <+: a :: s then some 0 else none

section Find

variable {pat s t : List α} {i : ℕ}

theorem find_eq_none : find pat s = none ↔ ¬ pat <:+: s := by
  induction s with
  | nil => simp [find]
  | cons a s ih =>
    simp only [find, List.infix_cons_iff, not_or]
    split
    · rename_i h; simp [h]
    · rename_i h; simp [h, ih]

theorem rfind_eq_none : rfind pat s = none ↔ ¬ pat <:+: s := by
  induction s with
  | nil => simp [rfind]
  | cons a s ih =>
    simp only [rfind, List.infix_cons_iff, not_or]
    cases h : rfind pat s with
    | none => simp [ih.1 h]
    | some i =>
      have : ¬ ¬ pat <:+: s := fun hn => by simp [ih.2 hn] at h
      simp [this]

theorem find_split (h : find pat s = some i) :
    ∃ H t, s = H ++ (pat ++ t) ∧ H.length = i ∧ ∀ u, find pat (s ++ u) = some i := by
  induction s generalizing i with
  | nil =>
    simp only [find] at h
    split at h
    · rename_i hp
      obtain rfl : 0 = i := by simpa using h
      subst hp
      refine ⟨[], [], rfl, rfl, fun u => ?_⟩
      cases u <;> simp [find]
    · cases h
  | cons a s ih =>
    simp only [find] at h
    split at h
    · rename_i hp
      obtain rfl : 0 = i := by simpa using h
      obtain ⟨t, ht⟩ := hp
      refine ⟨[], t, by simp [ht], rfl, fun u => ?_⟩
      have hpu : pat <+: a :: (s ++ u) := ⟨t ++ u, by rw [← List.append_assoc, ht]; rfl⟩
      simp [find, hpu]
    · rename_i hp
      obtain ⟨j, hj, rfl⟩ := Option.map_eq_some_iff.1 h
      obtain ⟨H, t, hs, rfl, hu⟩ := ih hj
      refine ⟨a :: H, t, by simp [hs], rfl, fun u => ?_⟩
      have hpu : ¬ pat <+: a :: (s ++ u) := by
        intro hc
        -- the pattern fits into `a :: s`, since a later occurrence lies in `s`
        have hlen : pat.length ≤ (a :: s).length := by
          rw [hs]; simp only [List.length_cons, List.length_append]; omega
        exact hp (List.prefix_of_prefix_length_le hc (by simp) hlen)
      simp [find, hpu, hu u]

/-- **The first occurrence**: no occurrence starts before `pat` if none lies in the text before it
and all of `pat` but its last symbol. -/
theorem find_first (hpat : pat ≠ []) (H t : List α) (hfree : ¬ pat <:+: H ++ pat.dropLast) :
    find pat (H ++ (pat ++ t)) = some H.length := by
  induction H with
  | nil =>
    obtain ⟨p, ps, rfl⟩ := List.exists_cons_of_ne_nil hpat
    have : p :: ps <+: p :: (ps ++ t) := ⟨t, rfl⟩
    simp [find, this]
  | cons a H ih =>
    have hfree' : ¬ pat <:+: H ++ pat.dropLast := fun h => hfree (by
      rw [List.cons_append]; exact List.infix_cons h)
    have hp : ¬ pat <+: a :: (H ++ (pat ++ t)) := by
      intro hc
      refine hfree (List.IsPrefix.isInfix ?_)
      refine List.prefix_of_prefix_length_le hc ?_ ?_
      · refine ⟨[pat.getLast hpat] ++ t, ?_⟩
        have := List.dropLast_concat_getLast hpat
        rw [List.cons_append, List.cons_append, List.append_assoc,
          ← List.append_assoc pat.dropLast, this]
      · simp only [List.length_append, List.length_cons, List.length_dropLast]; omega
    simp [find, hp, ih hfree']

theorem rfind_split (h : rfind pat s = some i) : ∃ H t, s = H ++ (pat ++ t) ∧ H.length = i := by
  induction s generalizing i with
  | nil =>
    simp only [rfind] at h
    split at h
    · rename_i hp
      obtain rfl : 0 = i := by simpa using h
      exact ⟨[], [], by simp [hp], rfl⟩
    · cases h
  | cons a s ih =>
    simp only [rfind] at h
    split at h
    · rename_i j hj
      obtain rfl : j + 1 = i := by simpa using h
      obtain ⟨H, t, hs, rfl⟩ := ih hj
      exact ⟨a :: H, t, by simp [hs], rfl⟩
    · split at h
      · rename_i hp
        obtain rfl : 0 = i := by simpa using h
        obtain ⟨t, ht⟩ := hp
        exact ⟨[], t, by simp [ht], rfl⟩
      · cases h

theorem rfind_append_left (h : rfind pat t = some i) (u : List α) :
    rfind pat (u ++ t) = some (u.length + i) := by
  induction u with
  | nil => simpa using h
  | cons a u ih =>
    simp only [List.cons_append, rfind, ih, List.length_cons, Option.some.injEq]
    omega

/-- **The last occurrence**: no occurrence starts after `pat` if none lies in what stands behind
its first symbol. -/
theorem rfind_last (hpat : pat ≠ []) (H t : List α) (hfree : ¬ pat <:+: pat.tail ++ t) :
    rfind pat (H ++ (pat ++ t)) = some H.length := by
  have h0 : rfind pat (pat ++ t) = some 0 := by
    obtain ⟨p, ps, rfl⟩ := List.exists_cons_of_ne_nil hpat
    have hn : rfind (p :: ps) (ps ++ t) = none := rfind_eq_none.2 hfree
    have hp : p :: ps <+: p :: (ps ++ t) := ⟨t, rfl⟩
    simp only [List.cons_append, rfind, hn, if_pos hp]
  simpa using rfind_append_left h0 H

omit [DecidableEq α] in
/-- A pattern of two different symbols is not completed by its first one. -/
theorem infix_of_infix_concat {a b : α} (hab : a ≠ b) (h : [a, b] <:+: s ++ [a]) :
    [a, b] <:+: s := by
  rcases List.infix_concat_iff.1 h with h | h
  · obtain ⟨u, hu⟩ := h
    have hlast := congrArg List.getLast? hu
    exact absurd (by simpa using hlast.symm) hab
  · exact h

theorem find_free {H : List α} (hpat : pat ≠ []) (h : find pat (H ++ t) = some H.length) :
    ¬ pat <:+: H := by
  rintro ⟨u, v, rfl⟩
  obtain ⟨j, hj⟩ : ∃ j, find pat (u ++ pat) = some j := by
    cases hf : find pat (u ++ pat) with
    | none => exact absurd ⟨u, [], by simp⟩ (find_eq_none.1 hf)
    | some j => exact ⟨j, rfl⟩
  obtain ⟨A, B, hAB, rfl, hu⟩ := find_split hj
  have h1 := hu (v ++ t)
  rw [show u ++ pat ++ (v ++ t) = u ++ pat ++ v ++ t by simp, h] at h1
  have hA : A.length + pat.length + B.length = u.length + pat.length := by
    have := congrArg List.length hAB
    simp only [List.length_append] at this; omega
  have hpos : 0 < pat.length := List.length_pos_iff.2 hpat
  simp only [List.length_append, Option.some.injEq] at h1
  omega

end Find

end NetProg.Lib
