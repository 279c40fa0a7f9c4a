import NetProg.Lib.CString
import NetProg.Lib.Split

/-!
# Cutting a text into pieces (`util.hpp`)

`Util::cutString` walks a start index through the text, from one separator to the next, and appends
the pieces to a vector. An empty separator would never move the index, so the function here takes a
separator that is not empty. `cutString_eq` says that the pieces are the cut of the text.
-/

namespace NetProg.Http

open NetProg.Lib

/-- `std::string::find` from a position on. -/
def findFrom (sep s : Bytes) (start : ℕ) : Option ℕ := (find sep (s.drop start)).map (start + ·)

/-- At most `fuel` turns of the loop of `cutString`: the index it leaves with, and the vector. -/
def cutString.loop (s sep : Bytes) : ℕ → ℕ → List Bytes → Option (ℕ × List Bytes)
  | 0, _, _ => none
  | fuel + 1, start, v =>
    if start < s.length then
      match findFrom sep s start with
      | none => some (start, v)
      | some pos =>
        cutString.loop s sep fuel (pos + sep.length) (v ++ [(s.drop start).take (pos - start)])
    else some (start, v)

theorem findFrom_split {sep s : Bytes} {start pos : ℕ} (h : findFrom sep s start = some pos) :
    ∃ t rest, s.drop start = t ++ (sep ++ rest) ∧ pos = start + t.length ∧
      find sep (s.drop start) = some t.length := by
  obtain ⟨i, hi, rfl⟩ := Option.map_eq_some_iff.1 h
  obtain ⟨t, rest, hs, rfl, -⟩ := find_split hi
  exact ⟨t, rest, hs, rfl, hi⟩

theorem drop_of_split {s sep t rest : Bytes} {start : ℕ} (h : s.drop start = t ++ (sep ++ rest)) :
    s.drop (start + t.length + sep.length) = rest := by
  rw [← List.drop_drop, ← List.drop_drop, h, List.drop_left, List.drop_left]

theorem cutString.loop_isSome {s sep : Bytes} (hsep : sep ≠ []) {fuel start : ℕ} (v : List Bytes)
    (h : s.length < fuel + start) (hfuel : 0 < fuel) :
    (cutString.loop s sep fuel start v).isSome := by
  induction fuel generalizing start v with
  | zero => exact absurd hfuel (Nat.lt_irrefl 0)
  | succ fuel ih =>
    have hpos : 0 < sep.length := List.length_pos_iff.2 hsep
    simp only [cutString.loop]
    split
    · rename_i hlt
      split
      · rfl
      · rename_i pos hf
        obtain ⟨t, rest, -, rfl, -⟩ := findFrom_split hf
        -- the index moves by at least the separator
        apply ih <;> omega
    · rfl

/-- The vector `v` with the pieces of `s` appended. The loop always ends, since every turn but the
last moves the index. -/
def cutString (s sep : Bytes) (hsep : sep ≠ []) (v : List Bytes) : List Bytes :=
  let (start, v) := (cutString.loop s sep (s.length + 1) 0 v).get
    (cutString.loop_isSome hsep v (by omega) (Nat.succ_pos _))
  if start < s.length then v ++ [s.drop start] else v

theorem cutString.loop_cut {s sep : Bytes} {fuel start start' : ℕ} {v v' : List Bytes}
    (h : cutString.loop s sep fuel start v = some (start', v')) :
    ∃ ts, (if start' < s.length then v' ++ [s.drop start'] else v') = v ++ ts ∧
      Cut sep (s.drop start) ts := by
  induction fuel generalizing start v with
  | zero => cases h
  | succ fuel ih =>
    simp only [cutString.loop] at h
    split at h
    · rename_i hlt
      split at h
      · rename_i hf
        obtain ⟨rfl, rfl⟩ := Prod.mk.inj (Option.some.inj h)
        refine ⟨[s.drop start], if_pos hlt, Cut.last ?_ (Option.map_eq_none_iff.1 hf)⟩
        exact List.ne_nil_of_length_pos (by rw [List.length_drop]; omega)
      · rename_i pos hf
        obtain ⟨t, rest, hs, rfl, hfind⟩ := findFrom_split hf
        obtain ⟨ts, hts, hcut⟩ := ih h
        refine ⟨t :: ts, ?_, ?_⟩
        · rw [hts, hs, Nat.add_sub_cancel_left, List.take_left, List.append_assoc]
          rfl
        · rw [drop_of_split hs] at hcut
          rw [hs] at hfind ⊢
          exact Cut.cons hfind hcut
    · rename_i hge
      obtain ⟨rfl, rfl⟩ := Prod.mk.inj (Option.some.inj h)
      refine ⟨[], by rw [if_neg hge, List.append_nil], ?_⟩
      rw [List.drop_eq_nil_of_le (Nat.le_of_not_lt hge)]
      exact Cut.nil

/-- **`cutString` appends the cut** of the text. -/
theorem cutString_eq (s sep : Bytes) (hsep : sep ≠ []) (v : List Bytes) :
    ∃ ts, cutString s sep hsep v = v ++ ts ∧ Cut sep s ts := by
  have hsome : (cutString.loop s sep (s.length + 1) 0 v).isSome := by
    apply cutString.loop_isSome hsep <;> omega
  obtain ⟨⟨start', v'⟩, h⟩ := Option.isSome_iff_exists.1 hsome
  obtain ⟨ts, hts, hcut⟩ := cutString.loop_cut h
  refine ⟨ts, ?_, hcut⟩
  simp only [cutString, h, Option.get_some]
  exact hts

end NetProg.Http
