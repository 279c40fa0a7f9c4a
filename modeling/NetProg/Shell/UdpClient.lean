import NetProg.Lib.Runs
import NetProg.Shell.UdpServer

/-!
# The clients of the remote shell (`udp_client.cc`)

A client sends the line that is typed and waits for one datagram, for as long as it takes. The
prompt and the arguments of the program are left out.

In `System` there is a client at each address. A datagram in flight may be received, in any order,
or lost, but not twice. The server cuts off what has no room in `buff_message`, a client what has no
room in `message_svr`, which is as large. What the server sends when its `recvfrom` has failed goes
to address 0, where nobody is.
-/

namespace NetProg.Shell

open NetProg.Lib Function

/-- `"quit"` -/
def QUIT : Bytes := literal "quit"

/-- Where a client is in its loop. -/
inductive Phase where
  /-- at `getline` -/
  | prompting
  /-- in `recvfrom` -/
  | waiting
  | stopped
  deriving DecidableEq, Repr

structure Client where
  cin : Cin
  message : Bytes := []
  phase : Phase := .prompting
  /-- the messages sent -/
  said : List Bytes := []
  /-- what `recvfrom` has given -/
  answers : List Bytes := []
  /-- how often `recvfrom` has failed -/
  failures : ℕ := 0
  /-- the texts behind `server echo# ` on the screen -/
  cout : List Bytes := []
  deriving DecidableEq, Repr

namespace Client

variable (c : Client)

/-- A turn of the loop up to `recvfrom`, with what is sent. -/
def prompt : Client × List Bytes :=
  let (cin, message) := c.cin.getline c.message
  if message = QUIT then ({ c with cin, message, phase := .stopped }, [])
  else ({ c with cin, message, phase := .waiting, said := c.said ++ [message] }, [message])

/-- The rest of the turn, when a datagram is received. -/
def receive (datagram : Bytes) : Client :=
  let messageSvr := datagram.take (buffSize - 1)
  { c with
    phase := .prompting
    answers := c.answers ++ [messageSvr]
    cout := if 0 < messageSvr.length then c.cout ++ [cStr messageSvr] else c.cout }

def fail : Client := { c with phase := .prompting, failures := c.failures + 1 }

end Client

/-- The text that a call has sent to `peer`. -/
def Call.sentTo (peer : SockaddrIn) : Call → Option Bytes
  | .sendto peer' bytes sent => if sent ∧ peer' = peer then some bytes else none
  | .popen _ => none

/-- What a turn has sent to `peer`. -/
def UdpServer.sentSince (s s' : UdpServer) (peer : SockaddrIn) : List Bytes :=
  (s'.calls.drop s.calls.length).filterMap (Call.sentTo peer)

structure System where
  server : UdpServer
  client : SockaddrIn → Client
  /-- the datagrams in flight from a client -/
  requests : SockaddrIn → List Bytes
  /-- the datagrams in flight to a client -/
  replies : SockaddrIn → List Bytes
  /-- what the server has received, with the outputs of the commands -/
  turns : List (SockaddrIn × Bytes × Option Bytes)

/-- Nothing was typed yet. -/
def System.Init (input : SockaddrIn → Bytes) (y : System) : Prop :=
  y = ⟨.init, fun a => { cin := ⟨input a, true⟩ }, fun _ => [], fun _ => [], []⟩

theorem length_take_lt (bytes : Bytes) : (bytes.take (buffSize - 1)).length < buffSize := by
  rw [List.length_take, buffSize]
  omega

inductive System.Step : System → System → Prop
  | prompt {y : System} {a : SockaddrIn} (h : (y.client a).phase = .prompting) :
      Step y { y with
        client := update y.client a (y.client a).prompt.1
        requests := update y.requests a (y.requests a ++ (y.client a).prompt.2) }
  | serve {y : System} {s : UdpServer} {a : SockaddrIn} {m : Bytes} {output : Option Bytes}
      {takes : Bool} (hm : m ∈ y.requests a) (hs : s = y.server.turn
        ⟨.datagram a (m.take (buffSize - 1)) (length_take_lt m), output, takes⟩) :
      Step y { y with
        server := s
        requests := update y.requests a ((y.requests a).erase m)
        replies := fun b => y.replies b ++ y.server.sentSince s b
        turns := y.turns ++ [(a, m, output)] }
  | idle {y : System} {takes : Bool} :
      Step y { y with server := y.server.turn ⟨.fail, none, takes⟩ }
  | receive {y : System} {a : SockaddrIn} {t : Bytes} (h : (y.client a).phase = .waiting)
      (ht : t ∈ y.replies a) :
      Step y { y with
        client := update y.client a ((y.client a).receive t)
        replies := update y.replies a ((y.replies a).erase t) }
  | fail {y : System} {a : SockaddrIn} (h : (y.client a).phase = .waiting) :
      Step y { y with client := update y.client a (y.client a).fail }
  | loseRequest {y : System} {a : SockaddrIn} {m : Bytes} (hm : m ∈ y.requests a) :
      Step y { y with requests := update y.requests a ((y.requests a).erase m) }
  | loseReply {y : System} {a : SockaddrIn} {t : Bytes} (ht : t ∈ y.replies a) :
      Step y { y with replies := update y.replies a ((y.replies a).erase t) }

/-- The states of the runs. -/
def System.Reach (input : SockaddrIn → Bytes) (y : System) : Prop :=
  Reachable (System.Init input) System.Step y

end NetProg.Shell
