import NetProg.Reactor.Protocol
import Mathlib.Data.List.GetD

/-!
# Requests and responses: the calculation and the round trips

`calculatorHelp` of `Server.cc`, with the two ways in which its `int` operations can have no result,
and the facts that let an endpoint rely on what the other one serialized.
-/

namespace NetProg.Reactor

open NetProg.Lib

/-! ### The calculation -/

/-- An `int` operation without a result: a signed overflow, or a division whose quotient is no
`int`, on which the processor traps. -/
inductive ArithFault where
  | overflow
  | trap
  deriving DecidableEq, Repr

/-- The value of an operation on `int`s, if it is one. -/
def checked (fault : ArithFault) (z : ℤ) : Except ArithFault Int32 :=
  if -2 ^ 31 ≤ z ∧ z < 2 ^ 31 then .ok (Int32.ofInt z) else .error fault

def calculatorHelp (req : Request) : Except ArithFault Response :=
  let resp : Response := {}
  let x := req.x.toInt
  let y := req.y.toInt
  match req.op with
  | 43 => do return { resp with result := ← checked .overflow (x + y) }
  | 45 => do return { resp with result := ← checked .overflow (x - y) }
  | 42 => do return { resp with result := ← checked .overflow (x * y) }
  | 47 =>
    if y = 0 then .ok { resp with code := 1 }
    else do return { resp with result := ← checked .trap (x.tdiv y) }
  | 37 =>
    if y = 0 then .ok { resp with code := 2 }
    else do
      -- `%` is computed with the quotient, and undefined when that is no `int`
      let _ ← checked .trap (x.tdiv y)
      return { resp with result := ← checked .trap (x.tmod y) }
  | _ => .ok { resp with code := 3 }

/-! ### Serialization -/

theorem space_not_mem_toStringInt (z : Int32) : 32 ∉ toStringInt z := fun h => by
  rcases mem_toStringInt h with h | h
  · exact absurd h (by decide)
  · exact absurd h (by decide)

theorem zero_not_mem_toStringInt (z : Int32) : 0 ∉ toStringInt z := fun h => by
  rcases mem_toStringInt h with h | h
  · exact absurd h (by decide)
  · exact absurd h (by decide)

theorem atoi_cStr_toStringInt (z : Int32) : atoi (cStr (toStringInt z)) = z := by
  rw [cStr_of_free (zero_not_mem_toStringInt z), atoi_toStringInt]

theorem find_space {X : Bytes} (hX : 32 ∉ X) (t : Bytes) :
    find SPACE (X ++ (SPACE ++ t)) = some X.length :=
  find_first (by decide) X t fun h =>
    hX (by simpa [SPACE] using h.subset (List.mem_singleton_self _))

theorem rfind_space {Y : Bytes} (hY : 32 ∉ Y) (u : Bytes) :
    rfind SPACE (u ++ (SPACE ++ Y)) = some u.length :=
  rfind_last (by decide) u Y fun h =>
    hY (by simpa [SPACE] using h.subset (List.mem_singleton_self _))

section Spaces

variable {X Y : Bytes} (hX : 32 ∉ X) (hY : 32 ∉ Y) (op : UInt8)

include hX in
theorem find_two_spaces : find SPACE (X ++ SPACE ++ [op] ++ SPACE ++ Y) = some X.length := by
  simp only [List.append_assoc]
  exact find_space hX _

include hY in
theorem rfind_two_spaces :
    rfind SPACE (X ++ SPACE ++ [op] ++ SPACE ++ Y) = some (X.length + 2) := by
  rw [List.append_assoc _ SPACE Y, rfind_space hY]
  simp [SPACE]

include hX hY in
/-- Two texts without a space, and one byte between two spaces, which may be one itself. -/
theorem deserialize_two_spaces (left : Request) :
    left.deserialize (X ++ SPACE ++ [op] ++ SPACE ++ Y) =
      (true, { x := atoi (cStr X), y := atoi (cStr Y), op }) := by
  have htake : (X ++ SPACE ++ [op] ++ SPACE ++ Y).take X.length = X := by
    simp only [List.append_assoc]
    exact List.take_left
  have hop : (X ++ SPACE ++ [op] ++ SPACE ++ Y).getD (X.length + SPACE.length) 0 = op := by
    rw [List.append_assoc _ SPACE Y, List.append_assoc (X ++ SPACE),
      List.getD_append_right _ _ _ _ (by simp)]
    simp
  have hdrop : (X ++ SPACE ++ [op] ++ SPACE ++ Y).drop (X.length + 2 + SPACE.length) = Y :=
    List.drop_left' (by simp [SPACE])
  unfold Request.deserialize
  rw [find_two_spaces hX]
  simp only [rfind_two_spaces hY, Option.some.injEq, Nat.add_eq_left, OfNat.ofNat_ne_zero, if_false,
    htake, hop, Option.elim_some, hdrop]

end Spaces

/-- **A serialized request is read back**, whatever the object held before; the operator may be any
`char`, also the separator itself. -/
theorem deserialize_serialize (left r : Request) : left.deserialize r.serialize = (true, r) := by
  have h := deserialize_two_spaces (space_not_mem_toStringInt r.x) (space_not_mem_toStringInt r.y)
    r.op left
  rwa [atoi_cStr_toStringInt, atoi_cStr_toStringInt] at h

theorem response_deserialize_serialize (left r : Response) :
    left.deserialize r.serialize = (true, r) := by
  have hs : r.serialize = toStringInt r.code ++ (SPACE ++ toStringInt r.result) := by
    simp [Response.serialize]
  have hdrop :
      r.serialize.drop ((toStringInt r.code).length + SPACE.length) = toStringInt r.result := by
    rw [hs, ← List.append_assoc, List.drop_left' (by simp)]
  unfold Response.deserialize
  rw [hs, find_space (space_not_mem_toStringInt _), ← hs]
  simp only [hdrop, atoi_cStr_toStringInt]
  rw [hs, List.take_left, atoi_cStr_toStringInt]

/-- **Both serializations are read back**, and so no two objects have the same text. -/
theorem serialization_round_trip :
    (∀ left r : Request, left.deserialize r.serialize = (true, r)) ∧
    (∀ left r : Response, left.deserialize r.serialize = (true, r)) ∧
    Function.Injective Request.serialize ∧ Function.Injective Response.serialize := by
  refine ⟨deserialize_serialize, response_deserialize_serialize, fun r r' h => ?_, fun r r' h => ?_⟩
  · have h1 := deserialize_serialize r r
    rw [h, deserialize_serialize r r'] at h1
    exact (Prod.mk.inj h1).2.symm
  · have h1 := response_deserialize_serialize r r
    rw [h, response_deserialize_serialize r r'] at h1
    exact (Prod.mk.inj h1).2.symm

/-! ### The payloads are short and without NUL -/

theorem length_serialize_le (r : Request) : r.serialize.length ≤ 25 := by
  have h1 := length_toStringInt_le r.x
  have h2 := length_toStringInt_le r.y
  simp only [Request.serialize, List.length_append, SPACE, List.length_singleton]
  omega

theorem serialize_ne_nil (r : Request) : r.serialize ≠ [] := by
  simp [Request.serialize, SPACE]

theorem zero_not_mem_serialize {r : Request} (h : r.op ≠ 0) : 0 ∉ r.serialize := by
  simp only [Request.serialize, SPACE, List.mem_append, List.mem_singleton, not_or]
  exact ⟨⟨⟨⟨zero_not_mem_toStringInt _, by decide⟩, h.symm⟩, by decide⟩, zero_not_mem_toStringInt _⟩

theorem length_response_serialize_le (r : Response) : r.serialize.length ≤ 23 := by
  have h1 := length_toStringInt_le r.code
  have h2 := length_toStringInt_le r.result
  simp only [Response.serialize, List.length_append, SPACE, List.length_singleton]
  omega

theorem response_serialize_ne_nil (r : Response) : r.serialize ≠ [] := by
  simp [Response.serialize, SPACE]

theorem zero_not_mem_response_serialize (r : Response) : 0 ∉ r.serialize := by
  simp only [Response.serialize, SPACE, List.mem_append, List.mem_singleton, not_or]
  exact ⟨⟨zero_not_mem_toStringInt _, by decide⟩, zero_not_mem_toStringInt _⟩

end NetProg.Reactor
