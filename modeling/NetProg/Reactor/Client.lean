import NetProg.Reactor.Protocol
import NetProg.Reactor.Socket

/-!
# The client (`Client.cc`)

The client reads a request, sends it, and then calls `Recv` and `deCode` until one answer is
complete. What is typed is a list of requests here; connecting and the prompt are left out.
-/

namespace NetProg.Reactor

open NetProg.Lib

/-- A line of output. -/
inductive Line where
  | error (text : String)
  | result (x : Int32) (op : UInt8) (y result : Int32)
  deriving DecidableEq, Repr

/-- What the client prints for an answer. -/
def printLine (req : Request) (resp : Response) : Line :=
  match resp.code with
  | 1 => .error "除零错误"
  | 2 => .error "模零错误"
  | 3 => .error "其他错误"
  | _ => .result req.x req.op req.y resp.result

/-- Where the client is: at the prompt, in the loop around `Recv` for a request, or behind both
loops; or it has been ended by the signal of `send`. -/
inductive Place where
  | asking
  | waiting (req : Request)
  | quit
  | killed
  deriving DecidableEq, Repr

structure Client where
  /-- what is still to be typed -/
  inputs : List Request
  backStr : Bytes := []
  place : Place := .asking
  printed : List Line := []
  deriving DecidableEq, Repr

namespace Client

/-- Behind `Send`. -/
def sent (req : Request) (a : SendAns) : Place :=
  match send a with
  | some true => .waiting req
  | some false => .quit
  | none => .killed

/-- From the prompt to the loop around `Recv`: the string passed to `send`, whose result is `a`, and
the client afterwards. -/
def ask (c : Client) (a : SendAns) : Option (Bytes × Client) :=
  match c.place, c.inputs with
  | .asking, req :: inputs =>
    let reqStr := enCode req.serialize
    some (reqStr, { c with inputs, place := sent req a })
  | _, _ => none

theorem sent_of_taken (req : Request) {a : SendAns} (h : 0 < a.taken) :
    sent req a = .waiting req := by
  rw [sent, send_of_taken h]

/-- One turn of the loop around `Recv`, when `recv` gives `a`. -/
def turn (c : Client) (a : RecvAns) : Option Client :=
  match c.place with
  | .waiting req =>
    match recv a c.backStr with
    | none => none
    | some (false, backStr) => some { c with backStr, place := .quit }
    | some (true, backStr) =>
      let (package, backStr) := deCode backStr
      if package.isEmpty then some { c with backStr }
      else
        let resp := (({} : Response).deserialize package).2
        some { c with backStr, place := .asking, printed := c.printed ++ [printLine req resp] }
  | _ => none

end Client

end NetProg.Reactor
