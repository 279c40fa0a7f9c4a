import Mathlib.Data.List.Infix
import Mathlib.Tactic.Common

/-!
# Lexical resolution of relative paths

A relative path is a sequence of components. Resolving it without looking at the file system keeps
a stack of names: an empty component or `.` does nothing, `..` takes the last name off, and above
the start it counts the levels climbed (`Place`). `walk` follows only the depth and fails where the
path would climb above its start.

`foldl_of_walk` says that a walk that does not fail leaves everything below its start as it is, and
`inside_iff` when a path that starts in the directory `w` ends inside it: either it never
leaves it, or it leaves it by one level and comes back by its name.
-/

namespace NetProg.Lib

variable {α : Type*}

inductive PathPart (α : Type*) where
  | skip
  | up
  | name (a : α)
  deriving DecidableEq

/-- The end of a relative path: the levels climbed above its start, and the names from there on,
the last one first. -/
structure Place (α : Type*) where
  ups : ℕ := 0
  names : List α := []
  deriving DecidableEq

def Place.step : Place α → PathPart α → Place α
  | p, .skip => p
  | ⟨u, []⟩, .up => ⟨u + 1, []⟩
  | ⟨u, _ :: t⟩, .up => ⟨u, t⟩
  | ⟨u, t⟩, .name a => ⟨u, a :: t⟩

def resolve (ps : List (PathPart α)) : Place α := ps.foldl Place.step {}

/-- The place is the directory that the names lead to, or below it. -/
def Place.Inside (d : List α) (p : Place α) : Prop := p.ups = 0 ∧ d <+: p.names.reverse

instance [DecidableEq α] (d : List α) (p : Place α) : Decidable (p.Inside d) :=
  inferInstanceAs (Decidable (_ ∧ _))

/-- The depth at the end of a path that starts at a depth; `none` when it climbs above depth 0. -/
def walk : ℕ → List (PathPart α) → Option ℕ
  | d, [] => some d
  | d, .skip :: ps => walk d ps
  | 0, .up :: _ => none
  | d + 1, .up :: ps => walk d ps
  | d, .name _ :: ps => walk (d + 1) ps

section Walk

variable {d e : ℕ} {ps : List (PathPart α)} {s t : List α} {w : α}

@[simp] theorem walk_nil : walk d ([] : List (PathPart α)) = some d := by cases d <;> rfl

@[simp] theorem walk_skip : walk d (.skip :: ps) = walk d ps := by cases d <;> rfl

@[simp] theorem walk_zero_up : walk 0 (.up :: ps) = none := rfl

@[simp] theorem walk_succ_up : walk (d + 1) (.up :: ps) = walk d ps := rfl

@[simp] theorem walk_name {a : α} : walk d (.name a :: ps) = walk (d + 1) ps := by
  cases d <;> rfl

/-- **A walk that does not fail** works on the names above its start only. -/
theorem foldl_of_walk {u : ℕ} (h : walk s.length ps = some e) :
    ∃ s' : List α, s'.length = e ∧ ps.foldl Place.step ⟨u, s ++ t⟩ = ⟨u, s' ++ t⟩ := by
  induction ps generalizing s with
  | nil => exact ⟨s, by simpa using h, rfl⟩
  | cons p ps ih =>
    cases p with
    | skip => exact ih (by simpa using h)
    | up =>
      cases s with
      | nil => simp at h
      | cons a s => exact ih (s := s) (by simpa using h)
    | name a => exact ih (s := a :: s) (by simpa using h)

theorem ups_step_le (p : Place α) (c : PathPart α) : p.ups ≤ (p.step c).ups := by
  obtain ⟨u, t⟩ := p
  cases c <;> cases t <;> simp [Place.step]

theorem ups_le_foldl (p : Place α) : p.ups ≤ (ps.foldl Place.step p).ups := by
  induction ps generalizing p with
  | nil => exact le_rfl
  | cons c ps ih => exact (ups_step_le p c).trans (ih _)

/-- From depth `d` the path climbs to depth 0 and no higher, enters `w` there and stays in it. -/
def ComesBack (w : α) (d : ℕ) (ps : List (PathPart α)) : Prop :=
  ∃ u v, ps = u ++ .name w :: v ∧ walk d u = some 0 ∧ (walk 0 v).isSome

/-- From the names `t`, a path ends in `w` when `w` is the first of them and stays, or when all of
them are taken off and `w` is entered again. -/
theorem inside_foldl (h : (ps.foldl Place.step ⟨0, t⟩).Inside [w]) :
    ([w] <+: t.reverse ∧ (walk (t.length - 1) ps).isSome) ∨ ComesBack w t.length ps := by
  induction ps generalizing t with
  | nil => exact Or.inl ⟨h.2, by simp⟩
  | cons p ps ih =>
    cases p with
    | skip =>
      rcases ih h with ⟨h1, h2⟩ | ⟨u, v, rfl, hu, hv⟩
      · exact Or.inl ⟨h1, by simpa using h2⟩
      · exact Or.inr ⟨.skip :: u, v, rfl, by simpa using hu, hv⟩
    | up =>
      cases t with
      | nil =>
        -- above the start, where no path comes back from
        have hle := @ups_le_foldl _ ps (⟨1, []⟩ : Place α)
        rw [show (ps.foldl Place.step (⟨1, []⟩ : Place α)).ups = 0 from h.1] at hle
        exact absurd hle (Nat.not_succ_le_zero 0)
      | cons a t =>
        rcases ih (t := t) h with ⟨h1, h2⟩ | ⟨u, v, rfl, hu, hv⟩
        · obtain ⟨n, hn⟩ : ∃ n, t.length = n + 1 := by
            refine Nat.exists_eq_succ_of_ne_zero fun h0 => ?_
            obtain rfl := List.length_eq_zero_iff.1 h0
            simp at h1
          refine Or.inl ⟨?_, ?_⟩
          · rw [List.reverse_cons]
            exact h1.trans (List.prefix_append _ _)
          · rw [hn] at h2
            simpa [hn] using h2
        · exact Or.inr ⟨.up :: u, v, rfl, by simpa using hu, hv⟩
    | name a =>
      rcases ih (t := a :: t) h with ⟨h1, h2⟩ | ⟨u, v, rfl, hu, hv⟩
      · cases t with
        | nil =>
          -- the first name of all is `w` itself
          obtain rfl : w = a := by simpa using h1
          exact Or.inr ⟨[], ps, rfl, by simp, by simpa using h2⟩
        | cons b t =>
          refine Or.inl ⟨?_, by simpa using h2⟩
          rw [List.reverse_cons] at h1
          refine List.prefix_of_prefix_length_le h1 (List.prefix_append _ _) ?_
          simp
      · exact Or.inr ⟨.name a :: u, v, rfl, by simpa using hu, hv⟩

/-- **A path that starts in a directory `x`** ends inside a directory `w` beside it exactly when `x`
is `w` and the path never climbs above it, or when the path leaves `x` and comes back to `w`. -/
theorem inside_iff {x : α} :
    (ps.foldl Place.step ⟨0, [x]⟩).Inside [w] ↔
      (w = x ∧ (walk 0 ps).isSome) ∨ ComesBack w 1 ps := by
  constructor
  · intro h
    simpa using inside_foldl h
  · rintro (⟨rfl, h⟩ | ⟨u, v, rfl, hu, hv⟩)
    · obtain ⟨e, he⟩ := Option.isSome_iff_exists.1 h
      obtain ⟨s, -, hs⟩ := foldl_of_walk (s := []) (t := [w]) (u := 0) he
      rw [List.nil_append] at hs
      rw [hs]
      exact ⟨rfl, by simp⟩
    · obtain ⟨s, h0, hs⟩ := foldl_of_walk (s := [x]) (t := []) (u := 0) hu
      obtain rfl := List.length_eq_zero_iff.1 h0
      obtain ⟨e, he⟩ := Option.isSome_iff_exists.1 hv
      obtain ⟨s', -, hs'⟩ := foldl_of_walk (s := []) (t := [w]) (u := 0) he
      rw [List.append_nil] at hs
      rw [List.nil_append] at hs'
      rw [List.foldl_append, hs, List.nil_append, List.foldl_cons]
      rw [show Place.step (⟨0, []⟩ : Place α) (.name w) = ⟨0, [w]⟩ from rfl, hs']
      exact ⟨rfl, by simp⟩

end Walk

end NetProg.Lib
