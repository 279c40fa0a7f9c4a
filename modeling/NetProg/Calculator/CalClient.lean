import NetProg.Calculator.CalServer
import NetProg.Reactor.LockStep

/-!
# The client of the calculator (`CalClient.cc`)

The client is the Reactor's, with the JSON library in the place of the text format: it reads a
request, sends it, and calls `Recv` and `deCode` until one answer is complete. `System` joins it and
the thread that runs `calculator` for it by two byte channels, from which each `recv` takes a part.
-/

namespace NetProg.Calculator

open NetProg.Lib NetProg.Reactor

variable (J : Json)

/-- `Response::deserialize` -/
def Json.deserializeResponse (s : Bytes) : Except Stop Response := do
  let root := (J.parse s).getD .null
  let result ← (← root.get "result").asInt
  let code ← (← root.get "code").asInt
  return { result, code }

namespace CalClient

/-- From the prompt to the loop around `Recv`: the string passed to `send`, whose result is `a`, and
the client afterwards. -/
def ask (c : Client) (a : SendAns) : Option (Bytes × Client) :=
  match c.place, c.inputs with
  | .asking, req :: inputs =>
    let reqStr := enCode (J.serialize req)
    some (reqStr, { c with inputs, place := Client.sent req a })
  | _, _ => none

/-- One turn of the loop around `Recv`, when `recv` gives `a`; none when the client is not there. -/
def turn (c : Client) (a : RecvAns) : Option (Except Stop Client) :=
  match c.place with
  | .waiting req =>
    match recv a c.backStr with
    | none => some (.error .overrun)
    | some (false, backStr) => some (.ok { c with backStr, place := .quit })
    | some (true, backStr) =>
      let (package, backStr) := deCode backStr
      if package.isEmpty then some (.ok { c with backStr })
      else some do
        let resp ← J.deserializeResponse package
        return { c with backStr, place := .asking, printed := c.printed ++ [printLine req resp] }
  | _ => none

end CalClient

structure System where
  client : Client
  /-- the bytes on their way to the server, and to the client -/
  c2s : Bytes
  s2c : Bytes
  server : Service

/-- A step of a party. Each `send` takes the whole frame that it is given. -/
inductive System.Step : System → System → Prop
  | ask {y : System} {client : Client} {reqStr : Bytes}
      (h : CalClient.ask J y.client (.count reqStr.length) = some (reqStr, client)) :
      Step y { y with client, c2s := y.c2s ++ reqStr }
  | answer {y : System} {client : Client} {b s2c : Bytes} (hb : Receives y.s2c (.bytes b) s2c)
      (h : CalClient.turn J y.client (.bytes b) = some (.ok client)) :
      Step y { y with client, s2c }
  | serve {y : System} {server : Service} {b c2s : Bytes} {a : SendAns} {sends : List Bytes}
      (hb : Receives y.c2s (.bytes b) c2s)
      (ha : 0 < a.taken) (h : calculator.turn J y.server (.bytes b, a) = .ok (.again server))
      (hsends : server.sends = y.server.sends ++ sends.map fun s => (s, .count s.length)) :
      Step y { y with server, c2s, s2c := y.s2c ++ sends.flatten }

end NetProg.Calculator
