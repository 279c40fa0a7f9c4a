import NetProg.Calculator.Json
import NetProg.Lib.Loop
import NetProg.Reactor.Socket

/-!
# The thread-per-connection calculator (`CalServer.cc`)

Each connection has a thread of its own, which runs `calculator`. The threads share nothing, so one
connection is modelled. `deCode`, `enCode`, `Recv`, `Send` and `calculatorHelp` have the text of the
Reactor's functions and are taken from there; a round of the loop is given what `recv` gives, and
what `send` gives if the round comes to it.

`calculator_answers_iff` says when the calculator keeps up with its client: it takes at most one
frame out of its buffer for each `recv`, where the Reactor's `SplitMessage` takes all of them.
-/

namespace NetProg.Calculator

open NetProg.Lib NetProg.Reactor

/-! ### The loop -/

/-- The variable `s` of `calculator`, and the calls of `send` so far. -/
structure Service where
  s : Bytes := []
  sends : List (Bytes × SendAns) := []
  deriving DecidableEq, Repr

/-- Whether `calculator` is blocked in `recv` or has returned. -/
inductive State where
  | blocked (c : Service)
  | returned (c : Service)
  deriving DecidableEq, Repr

variable (J : Json)

/-- From a payload to the frame of its answer. -/
def reply (package : Bytes) : Except Stop Bytes := do
  let (_, req) ← J.deserialize package
  let resp ← (calculatorHelp req).mapError .arith
  return enCode (J.serializeResponse resp)

def calculator.turn (c : Service) (a : RecvAns × SendAns) : Except Stop (Turn Service State) :=
  match recv a.1 c.s with
  | none => .error .overrun
  | some (false, s) => .ok (.leave (.returned { c with s }))
  | some (true, s) =>
    let (package, s) := deCode s
    if package.isEmpty then .ok (.again { c with s })
    else do
      let backStr ← reply J package
      let c := { c with s, sends := c.sends ++ [(backStr, a.2)] }
      match send a.2 with
      | some true => return .again c
      | some false => return .leave (.returned c)
      | none => .error .sigpipe

def calculator (answers : List (RecvAns × SendAns)) : Except Stop State :=
  loop (fun c => .ok (.blocked c)) (calculator.turn J) {} answers

end NetProg.Calculator
