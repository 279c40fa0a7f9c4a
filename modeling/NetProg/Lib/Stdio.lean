import NetProg.Lib.CString

/-!
# Reading a stream in lines

`fgets` with an array of `size` bytes takes the next line, newline included, or as much of it as has
room before the NUL. The pieces that it takes one after the other are the stream again; what a
program makes of them as C strings is the stream exactly when no NUL is in it
(`flatMap_cStr_eq_iff`).

`getline` takes the next line without its newline. At the end of the stream it takes what is left,
and from then on it leaves the string as it is: a program that does not look at the stream reads its
last line again and again (`Typed.getline`).
-/

namespace NetProg.Lib

variable {size fuel : ℕ} {rest rest' piece : Bytes}

/-- The piece that is read, and what is left of the stream; none at its end. -/
def fgets (size : ℕ) (rest : Bytes) : Option (Bytes × Bytes) :=
  let n := min ((rest.takeWhile (· ≠ 10)).length + 1) (size - 1)
  if rest = [] then none else some (rest.take n, rest.drop n)

theorem fgets_nil (size : ℕ) : fgets size [] = none := rfl

theorem fgets_split (hsize : 1 < size) (h : fgets size rest = some (piece, rest')) :
    rest = piece ++ rest' ∧ piece ≠ [] ∧ piece.length < size := by
  unfold fgets at h
  simp only at h
  split at h
  · cases h
  · rename_i hne
    obtain ⟨rfl, rfl⟩ := Prod.mk.inj (Option.some.inj h)
    have hpos : 0 < rest.length := List.length_pos_iff.2 hne
    refine ⟨(List.take_append_drop _ _).symm, fun hnil => ?_, ?_⟩
    · rcases List.take_eq_nil_iff.1 hnil with h0 | h0
      · omega
      · exact hne h0
    · rw [List.length_take]
      omega

theorem exists_fgets (size : ℕ) (hne : rest ≠ []) :
    ∃ piece rest', fgets size rest = some (piece, rest') :=
  ⟨_, _, if_neg hne⟩

/-- At most `fuel` calls of `fgets`, until it gives nothing. -/
def fgetsAll (size : ℕ) : ℕ → Bytes → Option (List Bytes)
  | 0, _ => none
  | fuel + 1, rest =>
    match fgets size rest with
    | none => some []
    | some (piece, rest) => (fgetsAll size fuel rest).map (piece :: ·)

/-- **The pieces are the stream**, and a call for each of its bytes, and one more, is enough. -/
theorem fgetsAll_flatten (hsize : 1 < size) (h : rest.length < fuel) :
    ∃ pieces, fgetsAll size fuel rest = some pieces ∧ pieces.flatten = rest ∧
      ∀ piece ∈ pieces, piece ≠ [] ∧ piece.length < size := by
  induction fuel generalizing rest with
  | zero => exact absurd h (Nat.not_lt_zero _)
  | succ fuel ih =>
    by_cases hne : rest = []
    · subst hne
      exact ⟨[], by simp [fgetsAll, fgets_nil], rfl, by simp⟩
    · obtain ⟨piece, rest', hread⟩ := exists_fgets size hne
      obtain ⟨hsplit, hpiece⟩ := fgets_split hsize hread
      have hlen : rest'.length < fuel := by
        have hpos : 0 < piece.length := List.length_pos_iff.2 hpiece.1
        rw [hsplit, List.length_append] at h
        omega
      obtain ⟨pieces, hall, hflat, hpieces⟩ := ih hlen
      refine ⟨piece :: pieces, by simp [fgetsAll, hread, hall], ?_, ?_⟩
      · rw [List.flatten_cons, hflat, hsplit]
      · intro p hp
        rcases List.mem_cons.1 hp with rfl | hp
        · exact hpiece
        · exact hpieces p hp

theorem fgetsAll_isSome (hsize : 1 < size) (rest : Bytes) :
    (fgetsAll size (rest.length + 1) rest).isSome := by
  obtain ⟨pieces, hall, -⟩ := fgetsAll_flatten hsize (Nat.lt_succ_self rest.length)
  rw [hall]
  rfl

/-- What the calls of `fgets` give until the end of the stream. -/
def lines (size : ℕ) (hsize : 1 < size) (rest : Bytes) : List Bytes :=
  (fgetsAll size (rest.length + 1) rest).get (fgetsAll_isSome hsize rest)

/-- `std::cin`: what is still to be read, and whether its end was not reached yet. -/
structure Cin where
  rest : Bytes
  good : Bool := true
  deriving DecidableEq, Repr

/-- `std::getline(std::cin, line)` -/
def Cin.getline (cin : Cin) (line : Bytes) : Cin × Bytes :=
  if cin.good then
    if 10 ∈ cin.rest then
      (⟨(cin.rest.dropWhile (· ≠ 10)).tail, true⟩, cin.rest.takeWhile (· ≠ 10))
    else (⟨[], false⟩, cin.rest)
  else (cin, line)

/-- What stands behind the last newline. -/
def lastLine (input : Bytes) : Bytes := (input.splitOn 10).getLast (List.splitOn_ne_nil 10 input)

/-- The calls of `getline` on `input` have given `read`, the last of them `line`. -/
structure Typed (input : Bytes) (cin : Cin) (line : Bytes) (read : List Bytes) : Prop where
  going : cin.good = true → read ++ cin.rest.splitOn 10 = input.splitOn 10
  ended : cin.good = false → line = lastLine input ∧
    ∃ k, read = input.splitOn 10 ++ List.replicate k (lastLine input)

theorem splitOn_of_mem {c : UInt8} (h : c ∈ rest) :
    rest.splitOn c = rest.takeWhile (· ≠ c) :: ((rest.dropWhile (· ≠ c)).tail).splitOn c := by
  obtain ⟨u, v, rfl, hu⟩ := List.eq_append_cons_of_mem h
  have hline : ∀ x ∈ u, decide (x ≠ c) = true := fun x hx =>
    decide_eq_true (ne_of_mem_of_not_mem hx hu)
  rw [List.splitOn_append_cons_self_of_not_mem hu, List.takeWhile_append_of_pos hline,
    List.dropWhile_append_of_pos hline]
  simp

section Typed

variable {input line : Bytes} {cin : Cin} {read : List Bytes}

theorem Typed.start (input line : Bytes) : Typed input ⟨input, true⟩ line [] :=
  ⟨fun _ => rfl, nofun⟩

/-- **A call of `getline`** gives the next line, or the last one again. -/
theorem Typed.getline (h : Typed input cin line read) :
    Typed input (cin.getline line).1 (cin.getline line).2 (read ++ [(cin.getline line).2]) := by
  obtain ⟨rest, good⟩ := cin
  cases good with
  | false =>
    obtain ⟨rfl, k, rfl⟩ := h.ended rfl
    refine ⟨nofun, fun _ => ⟨rfl, k + 1, ?_⟩⟩
    rw [List.append_assoc, List.replicate_succ']
    rfl
  | true =>
    have hall : read ++ rest.splitOn 10 = input.splitOn 10 := h.going rfl
    by_cases hmem : 10 ∈ rest
    · rw [splitOn_of_mem hmem] at hall
      simp only [Cin.getline, if_pos hmem, if_true]
      refine ⟨fun _ => ?_, nofun⟩
      rw [List.append_assoc]
      exact hall
    · have hone : rest.splitOn 10 = [rest] := List.splitOn_eq_singleton hmem
      rw [hone] at hall
      have hlast : rest = lastLine input := by
        simp only [lastLine, ← hall, List.getLast_append_singleton]
      simp only [Cin.getline, if_neg hmem, if_true]
      exact ⟨nofun, fun _ => ⟨hlast, 0, by simpa using hall⟩⟩

theorem Typed.lines (h : Typed input cin line read) :
    ∃ k, read <+: input.splitOn 10 ++ List.replicate k (lastLine input) := by
  cases hgood : cin.good with
  | true =>
    refine ⟨0, ?_⟩
    rw [List.replicate_zero, List.append_nil, ← h.going hgood]
    exact List.prefix_append _ _
  | false =>
    obtain ⟨-, k, rfl⟩ := h.ended hgood
    exact ⟨k, List.prefix_rfl⟩

end Typed

end NetProg.Lib
