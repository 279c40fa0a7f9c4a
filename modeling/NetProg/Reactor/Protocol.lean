import NetProg.Lib.CString
import NetProg.Lib.Search

/-!
# The application protocol of the calculator (`Protocol.hpp`)

Requests are sent as `"_x _op _y"` and responses as `"_code _result"`; either is put into a frame
`"Length\r\npayload\r\n"`, because TCP is a stream of bytes. The functions are those of namespace
`ns_protocol`: a C++ function that changes its argument returns the argument's new value here.
-/

namespace NetProg.Reactor

open NetProg.Lib

def SPACE : Bytes := [32]

def SEP : Bytes := [13, 10]

/-! ### Frames -/

/-- Take the header off the first frame of `s`: the payload returned, and what `s` is then. The
empty string stands for "no complete frame". -/
def deCode (s : Bytes) : Bytes × Bytes :=
  match find SEP s with
  | none => ([], s)
  | some left =>
    if rfind SEP s = some left then ([], s)
    else
      let length := atoi (cStr (s.take left))
      -- a comparison of two `size_t`s: a negative `length` is converted and compares as huge
      if toSize length > subSize (subSize s.length left) (2 * SEP.length) then ([], s)
      else
        let s := s.drop (left + SEP.length)
        let ret := s.take (toSize length)
        (ret, s.drop (toSize length + SEP.length))

def enCode (s : Bytes) : Bytes := decimal s.length ++ SEP ++ s ++ SEP

/-- At most `fuel` turns of the loop of `SplitMessage`; `none` when they do not suffice. -/
def splitMessage.loop : ℕ → Bytes → List Bytes → Option (Bytes × List Bytes)
  | 0, _, _ => none
  | fuel + 1, inBuffer, messages =>
    let (message, inBuffer) := deCode inBuffer
    if message.isEmpty then some (inBuffer, messages)
    else splitMessage.loop fuel inBuffer (messages ++ [message])

/-- `deCode` either leaves the buffer as it is and returns the empty string, or shortens it. -/
theorem deCode_shrinks (s : Bytes) : deCode s = ([], s) ∨ (deCode s).2.length < s.length := by
  unfold deCode
  split
  · exact Or.inl rfl
  · rename_i left hleft
    obtain ⟨H, t, rfl, rfl, -⟩ := find_split hleft
    dsimp only
    split_ifs
    · exact Or.inl rfl
    · exact Or.inl rfl
    · right
      simp [SEP]
      omega

theorem splitMessage.loop_isSome {fuel : ℕ} {inBuffer : Bytes} (messages : List Bytes)
    (h : inBuffer.length < fuel) : (splitMessage.loop fuel inBuffer messages).isSome := by
  induction fuel generalizing inBuffer messages with
  | zero => exact absurd h (Nat.not_lt_zero _)
  | succ fuel ih =>
    simp only [splitMessage.loop]
    split
    · rfl
    · rename_i hne
      rcases deCode_shrinks inBuffer with h0 | hlt
      · simp [h0] at hne
      · exact ih _ (by omega)

/-- Move the complete frames of `inBuffer` to `messages`: the new `inBuffer` and `messages`. The
loop always ends, since every turn but the last makes the buffer shorter. -/
def splitMessage (inBuffer : Bytes) (messages : List Bytes) : Bytes × List Bytes :=
  (splitMessage.loop (inBuffer.length + 1) inBuffer messages).get
    (splitMessage.loop_isSome messages (Nat.lt_succ_self _))

/-! ### Requests and responses -/

structure Request where
  x : Int32
  y : Int32
  op : UInt8
  deriving DecidableEq, Repr

def Request.serialize (r : Request) : Bytes :=
  toStringInt r.x ++ SPACE ++ [r.op] ++ SPACE ++ toStringInt r.y

/-- The status returned and the object afterwards; `r` is the object before, whose fields are
whatever they were when the string has not two spaces. -/
def Request.deserialize (r : Request) (s : Bytes) : Bool × Request :=
  match find SPACE s with
  | none => (false, r)
  | some left =>
    let right := rfind SPACE s
    if right = some left then (false, r)
    else
      (true, { x := atoi (cStr (s.take left))
               op := s.getD (left + SPACE.length) 0
               -- `npos + SPACE_LENGTH` would wrap to 0
               y := atoi (cStr (s.drop (right.elim 0 (· + SPACE.length)))) })

structure Response where
  result : Int32 := 0
  code : Int32 := 0
  deriving DecidableEq, Repr

def Response.serialize (r : Response) : Bytes :=
  toStringInt r.code ++ SPACE ++ toStringInt r.result

def Response.deserialize (r : Response) (s : Bytes) : Bool × Response :=
  match find SPACE s with
  | none => (false, r)
  | some pos =>
    (true, { code := atoi (cStr (s.take pos))
             result := atoi (cStr (s.drop (pos + SPACE.length))) })

end NetProg.Reactor
