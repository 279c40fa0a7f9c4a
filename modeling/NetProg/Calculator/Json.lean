import Mathlib.Data.Rat.Defs
import NetProg.Reactor.Messages
import NetProg.Reactor.Segmentation

/-!
# JSON payloads (`Protocol.hpp` of the calculator)

`Request` and `Response` of the thread-per-connection calculator are those of the Reactor, but are
serialized with the JSON library. Its values are modelled as far as the protocol looks at them; its
writer and its reader are parameters (`Json`).
-/

namespace NetProg.Calculator

open NetProg.Lib NetProg.Reactor

/-- Why the process ends. -/
inductive Stop where
  /-- `Recv` writes behind its array -/
  | overrun
  /-- the JSON library throws, and nothing catches it -/
  | json
  | arith (fault : ArithFault)
  /-- the signal of `send` -/
  | sigpipe
  deriving DecidableEq, Repr

/-- `Json::Value`; the members of an object are in the order of their keys. -/
inductive Value where
  | null
  | bool (b : Bool)
  | int (z : ℤ)
  | real (q : ℚ)
  | string (s : Bytes)
  | array (vs : List Value)
  | object (members : List (String × Value))

namespace Value

/-- `root[key] = v`, on the members of `root`. -/
def setMember (key : String) (v : Value) : List (String × Value) → List (String × Value)
  | [] => [(key, v)]
  | (k, w) :: ms =>
    if key < k then (key, v) :: (k, w) :: ms
    else if key = k then (key, v) :: ms
    else (k, w) :: setMember key v ms

/-- The value of `root[key]`. That a missing member is put into `root` as a null makes no difference
to the members looked up later. -/
def get (root : Value) (key : String) : Except Stop Value :=
  match root with
  | null => .ok null
  | object ms => .ok ((ms.lookup key).getD null)
  | _ => .error .json

def asInt : Value → Except Stop Int32
  | null => .ok 0
  | bool b => .ok (if b then 1 else 0)
  | int z => if -2 ^ 31 ≤ z ∧ z < 2 ^ 31 then .ok (Int32.ofInt z) else .error .json
  | real q =>
    if -2 ^ 31 ≤ q ∧ q ≤ 2 ^ 31 - 1 then .ok (Int32.ofInt (q.num.tdiv q.den)) else .error .json
  | _ => .error .json

@[simp] theorem asInt_int (z : Int32) : asInt (int z.toInt) = .ok z := by
  have h := z.toInt_lt
  have h' := z.le_toInt
  simp only [asInt, Int32.ofInt_toInt]
  exact if_pos ⟨h', h⟩

end Value

/-- The library's `FastWriter::write` and `Reader::parse`; a text that cannot be parsed gives
nothing. -/
structure Json where
  write : Value → Bytes
  parse : Bytes → Option Value

/-- A `char`, which is signed, as an `int`. -/
def charToInt (c : UInt8) : Int32 := c.toInt8.toInt32

/-- An `int` as a `char`. -/
def intToChar (z : Int32) : UInt8 := z.toInt8.toUInt8

@[simp] theorem intToChar_charToInt (c : UInt8) : intToChar (charToInt c) = c := by
  simp [intToChar, charToInt]

namespace Json

open Value

variable (J : Json)

/-- The object that `Request::serialize` writes. -/
def requestRoot (r : Request) : Value :=
  let root := setMember "x" (.int r.x.toInt) []
  let root := setMember "y" (.int r.y.toInt) root
  .object (setMember "op" (.int (charToInt r.op).toInt) root)

/-- `Request::serialize` -/
def serialize (r : Request) : Bytes := J.write (requestRoot r)

/-- `Request::deserialize`: the status, and the object, of which every field is assigned. -/
def deserialize (s : Bytes) : Except Stop (Bool × Request) := do
  let root := (J.parse s).getD .null
  let x ← (← root.get "x").asInt
  let y ← (← root.get "y").asInt
  let op ← (← root.get "op").asInt
  return (true, { x, y, op := intToChar op })

def responseRoot (r : Response) : Value :=
  let root := setMember "code" (.int r.code.toInt) []
  .object (setMember "result" (.int r.result.toInt) root)

/-- `Response::serialize` -/
def serializeResponse (r : Response) : Bytes := J.write (responseRoot r)

theorem requestRoot_eq (r : Request) : requestRoot r = .object
    [("op", .int (charToInt r.op).toInt), ("x", .int r.x.toInt), ("y", .int r.y.toInt)] := rfl

/-- The library on the object of a request: its text is read back, is not empty, has no NUL, and is
of a length that is an `int`. -/
structure Carries (r : Request) : Prop where
  parse : J.parse (J.serialize r) = some (requestRoot r)
  payload : Payload (J.serialize r)
  free : 0 ∉ J.serialize r

variable {J}

theorem Carries.deserialize {r : Request} (h : J.Carries r) :
    J.deserialize (J.serialize r) = .ok (true, r) := by
  simp only [Json.deserialize, h.parse, Option.getD_some, requestRoot_eq, Value.get]
  simp [List.lookup_cons, bind, Except.bind, pure, Except.pure]

end Json

end NetProg.Calculator
