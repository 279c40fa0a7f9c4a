import NetProg.Lib.Stdio
import NetProg.TcpPool.Transform

/-!
# The client (`tcp_client.cc`)

The client opens a connection for each line: `connect`, `getline`, `send`, one `recv`, `close`. What
`connect` and `send` return is not looked at, and the loop is left when `recv` gives no byte.

`System` is the client with the server's part of its connection, from `accept` to the `close` at the
end of `transform`. A step is one call of one of them; `ok` says that the call did not fail and that
a `send` has taken all it was given. The calls on a socket that is not connected fail; the signal
that a `send` on it may raise is left out, the client ends a call later here.
-/

namespace NetProg.TcpPool

open NetProg.Lib NetProg.Reactor

/-- The length of the arrays that both sides receive into, one byte of which is for the NUL. -/
def messageSize : ℕ := 1024

inductive TcpClient.Place where
  | connecting
  | typing
  | receiving
  | quit
  deriving DecidableEq, Repr

structure TcpClient where
  cin : Cin
  line : Bytes := []
  place : TcpClient.Place := .connecting
  /-- the lines that `send` was called with -/
  typed : List Bytes := []
  /-- the texts printed behind `"server# "` -/
  shown : List Bytes := []
  deriving DecidableEq, Repr

namespace TcpClient

variable (c : TcpClient)

/-- `std::getline` and `send`. -/
def say : TcpClient :=
  let (cin, line) := c.cin.getline c.line
  { c with cin, line, typed := c.typed ++ [line], place := .receiving }

/-- What is done with the result of `recv`. -/
def receive : RecvAns → TcpClient
  | .bytes buff =>
    if buff.length > 0 then { c with shown := c.shown ++ [cStr buff], place := .connecting }
    else { c with place := .quit }
  | .fail _ => { c with place := .quit }

end TcpClient

/-- The bytes on their way to the server and to the client, and where `transform` is. -/
structure Conn where
  up : Bytes
  down : Bytes
  server : Pos
  deriving DecidableEq, Repr

/-- What `recv` takes from the front of a channel. -/
inductive Takes : Bytes → Bytes → Bytes → Prop
  | mk {b rest : Bytes} (hb : b ≠ []) (hlen : b.length < messageSize) : Takes (b ++ rest) b rest

/-- A call of `transform` with its answer, and the connection behind it. -/
inductive Conn.Call (c : Conn) : (ok : Bool) → SockCall → Conn → Prop
  | recv {b rest : Bytes} (h : Takes c.up b rest) :
      Call c true (.recv (.bytes b)) { c with up := rest }
  | recvFails (e : Errno) : Call c false (.recv (.fail e)) c
  | send (b : Bytes) :
      Call c true (.send b (.count b.length)) { c with down := c.down ++ b }
  | sendPart (b : Bytes) (n : ℕ) :
      Call c false (.send b (.count n)) { c with down := c.down ++ b.take n }
  | sendFails (b : Bytes) (e : Errno) : Call c false (.send b (.fail e)) c

structure System where
  client : TcpClient
  /-- none when the socket is not connected -/
  conn : Option Conn

namespace System

def init (input : Bytes) : System := ⟨{ cin := ⟨input, true⟩ }, none⟩

inductive Step : (ok : Bool) → System → System → Prop
  | connect {c : TcpClient} {conn : Option Conn} (h : c.place = .connecting) :
      Step true ⟨c, conn⟩ ⟨{ c with place := .typing }, some ⟨[], [], transform.start⟩⟩
  | connectFails {c : TcpClient} {conn : Option Conn} (h : c.place = .connecting) :
      Step false ⟨c, conn⟩ ⟨{ c with place := .typing }, none⟩
  | say {c : TcpClient} {conn : Conn} (h : c.place = .typing) :
      Step true ⟨c, some conn⟩ ⟨c.say, some { conn with up := conn.up ++ c.say.line }⟩
  /-- `send` takes a part, or nothing. -/
  | sayPart {c : TcpClient} {conn : Conn} (h : c.place = .typing) (n : ℕ) :
      Step false ⟨c, some conn⟩ ⟨c.say, some { conn with up := conn.up ++ c.say.line.take n }⟩
  | sayFails {c : TcpClient} (h : c.place = .typing) : Step false ⟨c, none⟩ ⟨c.say, none⟩
  | receive {c : TcpClient} {conn : Conn} {b rest : Bytes} (h : c.place = .receiving)
      (hb : Takes conn.down b rest) :
      Step true ⟨c, some conn⟩ ⟨c.receive (.bytes b), some { conn with down := rest }⟩
  | receiveEnd {c : TcpClient} {conn : Conn} (h : c.place = .receiving) (hdown : conn.down = [])
      (hend : conn.server = .returned) :
      Step true ⟨c, some conn⟩ ⟨c.receive (.bytes []), some conn⟩
  | receiveFails {c : TcpClient} {conn : Option Conn} (h : c.place = .receiving) (e : Errno) :
      Step false ⟨c, conn⟩ ⟨c.receive (.fail e), conn⟩
  /-- A call of `transform`. -/
  | serve {c : TcpClient} {conn conn' : Conn} {ok : Bool} {call : SockCall} {pos : Pos}
      (hret : transform.returned conn.server = false) (hk : conn.Call ok call conn')
      (hc : transform.step conn.server call = some (.ok pos)) :
      Step ok ⟨c, some conn⟩ ⟨c, some { conn' with server := pos }⟩
  /-- The socket of the client was closed when it has quit. -/
  | serveEnd {c : TcpClient} {conn : Conn} {pos : Pos} (h : c.place = .quit) (hup : conn.up = [])
      (hc : transform.step conn.server (.recv (.bytes [])) = some (.ok pos)) :
      Step true ⟨c, some conn⟩ ⟨c, some { conn with server := pos }⟩
  | close {c : TcpClient} {conn : Conn} (h : conn.server = .close) :
      Step true ⟨c, some conn⟩ ⟨c, some { conn with server := .returned }⟩

end System

end NetProg.TcpPool
