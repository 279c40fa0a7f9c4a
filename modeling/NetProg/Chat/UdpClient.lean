import NetProg.Chat.UdpServer
import NetProg.Lib.Stdio

/-!
# The clients of the chat server (`udp_client.cc`)

A client has two threads: `out` sends each line that is typed, `in` shows each datagram that it
receives. The prompt and the arguments of the program are left out.

In `System` there is a client at each address. A message for the server may be received when it was
sent once, as often as the network likes, or never, and so may what the server sends to a client.
-/

namespace NetProg.Chat

open NetProg.Lib Function

structure Client where
  cin : Cin
  /-- the variable of `out` -/
  message : Bytes := []
  /-- the messages that `out` has called `sendto` with -/
  said : List Bytes := []
  /-- which of the datagrams sent to the client `in` has received -/
  got : List ℕ := []
  /-- the lines on the screen -/
  cout : List Bytes := []
  deriving DecidableEq, Repr

namespace Client

/-- A turn of the loop of `out`. -/
def out (c : Client) : Client :=
  let (cin, message) := c.cin.getline c.message
  { c with cin, message, said := c.said ++ [message] }

/-- A turn of the loop of `in`, when the `i`-th datagram sent to the client is received. -/
def inTurn (c : Client) (i : ℕ) (datagram : Bytes) : Client :=
  let messageSvr := datagram.take (BUFF_SIZE - 1)
  { c with
    got := c.got ++ [i]
    cout := if 0 < messageSvr.length then c.cout ++ [cStr messageSvr] else c.cout }

end Client

/-- The texts that the server has sent to an address. -/
def UdpServer.sentTo (s : UdpServer) (peer : SockaddrIn) : List Bytes :=
  (s.sent.filter fun call => call.1 = peer).map Prod.snd

structure System where
  server : UdpServer
  /-- the messages that the server has received, in this order, each with its sender -/
  heard : List (SockaddrIn × Bytes)
  client : SockaddrIn → Client
  /-- how often `recvfrom` of the server has failed -/
  failures : ℕ

/-- The variables of the server are not initialised, and nothing was typed yet. -/
def System.Init (input : SockaddrIn → Bytes) (y : System) : Prop :=
  (∃ buff, y.server = UdpServer.init buff) ∧ y.heard = [] ∧
    (∀ a, y.client a = ⟨⟨input a, true⟩, [], [], [], []⟩) ∧ y.failures = 0

theorem length_take_lt (bytes : Bytes) : (bytes.take (BUFF_SIZE - 1)).length < BUFF_SIZE := by
  rw [List.length_take, BUFF_SIZE]
  omega

inductive System.Step : System → System → Prop
  | out {y : System} (a : SockaddrIn) :
      Step y { y with client := update y.client a (y.client a).out }
  /-- A turn of the server. What has no room in `buff_message` is lost. -/
  | serve {y : System} {a : SockaddrIn} {message : Bytes} (hm : message ∈ (y.client a).said)
      (w : Walk) :
      Step y { y with
        server := y.server.turn
          (.datagram a (message.take (BUFF_SIZE - 1)) (length_take_lt message)) w
        heard := y.heard ++ [(a, message)] }
  /-- A turn of the server in which `recvfrom` fails. -/
  | fail {y : System} (w : Walk) :
      Step y { y with server := y.server.turn .fail w, failures := y.failures + 1 }
  | shows {y : System} {b : SockaddrIn} {i : ℕ} {datagram : Bytes}
      (hd : (y.server.sentTo b)[i]? = some datagram) :
      Step y { y with client := update y.client b ((y.client b).inTurn i datagram) }

end NetProg.Chat
