import NetProg.Lib.Inet

/-!
# The chat server over UDP (`udp_server.hpp`)

Each turn of `start` takes one datagram, puts its sender into `_map` and sends its text to everybody
in there. The result of `recvfrom` is not looked at: when it is -1, `buff_message[sz] = 0` writes in
front of the array, `peer` is all zero, and the rest is done with them and with what the array still
holds.

The indices that `buff_message` is used with are recorded. A write in front of it changes some other
byte of the stack; the model goes on as the program does when that byte does not matter.
-/

namespace NetProg.Chat

open NetProg.Lib

/-- `sizeof buff_message` -/
def BUFF_SIZE : ℕ := 1024

/-- The contents of `buff_message`. -/
structure Buff where
  bytes : Bytes
  size : bytes.length = BUFF_SIZE

namespace Buff

/-- `recvfrom` writes a datagram to the front of the array. -/
def fill (b : Buff) (data : Bytes) (h : data.length < BUFF_SIZE) : Buff where
  bytes := data ++ b.bytes.drop data.length
  size := by
    have := b.size
    rw [List.length_append, List.length_drop]
    omega

/-- `buff_message[i] = c` -/
def store (b : Buff) (i : ℤ) (c : UInt8) : Buff where
  bytes := if 0 ≤ i then b.bytes.set i.toNat c else b.bytes
  size := by
    split
    · rw [List.length_set, b.size]
    · exact b.size

end Buff

/-- What a call of `recvfrom` with room for `BUFF_SIZE - 1` bytes can do. -/
inductive Outcome where
  | fail
  | datagram (peer : SockaddrIn) (bytes : Bytes) (h : bytes.length < BUFF_SIZE)

abbrev Entry := Bytes × SockaddrIn

/-- The order in which a loop goes through an `unordered_map`. -/
structure Walk where
  visit : List Entry → List Entry
  perm : ∀ m, (visit m).Perm m

structure UdpServer where
  buffMessage : Buff
  /-- `_map`, by the time of insertion -/
  map : List Entry
  /-- the calls of `sendto` -/
  sent : List (SockaddrIn × Bytes)
  /-- the indices that `buff_message` was used with -/
  indexed : List ℤ

/-- `key`, from the format `"%s-%d"`. -/
def key (peer : SockaddrIn) : Bytes :=
  snprintf 128 (inetNtoa peer.sinAddr ++ 45 :: decimal peer.sinPort.toNat)

namespace UdpServer

def init (buffMessage : Buff) : UdpServer := ⟨buffMessage, [], [], []⟩

/-- `recvfrom`: its result, and the variables `buff_message` and `peer`, which was set to zero. -/
def recvfrom (s : UdpServer) : Outcome → ℤ × Buff × SockaddrIn
  | .fail => (-1, s.buffMessage, ⟨⟨0, 0, 0, 0⟩, 0⟩)
  | .datagram peer bytes h => (bytes.length, s.buffMessage.fill bytes h, peer)

/-- `_map` when a client that it did not have is inserted. -/
def join (map : List Entry) (key : Bytes) (peer : SockaddrIn) : List Entry :=
  if map.lookup key = none then map ++ [(key, peer)] else map

/-- `sendMessage`; the C string in the array follows `key` and `"# "`. -/
def sendMessage (key : Bytes) (buffMessage : Buff) : Bytes :=
  key ++ 35 :: 32 :: cStr buffMessage.bytes

/-- A turn of the loop of `start`. To append the array as a C string, it is read as far as the NUL
behind the text. -/
def turn (s : UdpServer) (o : Outcome) (w : Walk) : UdpServer :=
  let (sz, buff, peer) := s.recvfrom o
  let buff := buff.store sz 0
  let map := join s.map (key peer) peer
  { buffMessage := buff
    map
    sent := s.sent ++ (w.visit map).map fun iter => (iter.2, sendMessage (key peer) buff)
    indexed := s.indexed ++ sz :: (w.visit map).map fun _ => ((cStr buff.bytes).length : ℤ) }

/-- `start`, on the outcomes of `recvfrom` so far; the array is not initialised. -/
def start (buffMessage : Buff) (turns : List (Outcome × Walk)) : UdpServer :=
  turns.foldl (fun s t => s.turn t.1 t.2) (init buffMessage)

end UdpServer

end NetProg.Chat
