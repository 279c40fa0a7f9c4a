import NetProg.Lib.Inet
import NetProg.Lib.Search
import NetProg.Lib.Stdio

/-!
# The remote shell over UDP (`udp_server.hpp`)

Each turn of `start` takes one datagram, gives its text to the shell, and sends the output back. A
text with `rm` in it is refused. The text is the C string in `buff_message`, for the filter and for
`popen` alike. `back_str` is declared outside the loop, and keeps what no turn has cleared.

What the client sends, whether `popen` succeeds, what the command writes and whether the kernel
takes the answer are given; the result of `sendto` is not looked at, and one too long for a datagram
is never sent. What is printed to the terminal is left out.
-/

namespace NetProg.Shell

open NetProg.Lib

/-! ### The filter -/

/-- A letter as a small letter, in the C locale. -/
def tolower (c : UInt8) : UInt8 := if 65 ≤ c ∧ c ≤ 90 then c + 32 else c

/-- `strcasestr`, by the position found -/
def strcasestr (haystack needle : Bytes) : Option ℕ :=
  find (needle.map tolower) (haystack.map tolower)

/-- `"rm"` -/
def RM : Bytes := literal "rm"

/-- `err_msg`, in UTF-8 -/
def errMsg : Bytes := [0xE5, 0x8F, 0xAF, 0xE6, 0x81, 0xB6, 0x20, 0x3A, 0x20]

/-! ### The server -/

/-- `sizeof buff_message` -/
def buffSize : ℕ := 1024

/-- `sizeof back_message` -/
def backSize : ℕ := 124

theorem one_lt_backSize : 1 < backSize := by decide

/-- The longest text of a datagram: 65535 bytes less the headers of IP and UDP. -/
def maxText : ℕ := 65507

/-- Whether `sendto` succeeds, when the kernel takes what is not too long or does not. -/
def sends (takes : Bool) (bytes : Bytes) : Bool := takes && bytes.length ≤ maxText

/-- What `recvfrom` gives, with room for `buffSize - 1` bytes; `peer` was set to zero. -/
inductive Recvfrom where
  | fail
  | datagram (peer : SockaddrIn) (bytes : Bytes) (h : bytes.length < buffSize)

def Recvfrom.peer : Recvfrom → SockaddrIn
  | .fail => ⟨⟨0, 0, 0, 0⟩, 0⟩
  | .datagram peer _ _ => peer

/-- What a turn of the loop is given. -/
structure Turn where
  recvfrom : Recvfrom
  /-- what the command writes; none when `popen` fails -/
  output : Option Bytes
  /-- the kernel takes the answer, if it is not too long -/
  takes : Bool

inductive Call where
  | popen (command : Bytes)
  | sendto (peer : SockaddrIn) (bytes : Bytes) (sent : Bool)
  deriving DecidableEq, Repr

structure UdpServer where
  backStr : Bytes
  calls : List Call
  deriving DecidableEq, Repr

namespace UdpServer

variable (s : UdpServer)

def init : UdpServer := ⟨[], []⟩

/-- The loop over `fgets`. -/
def readOutput (output : Bytes) : UdpServer :=
  { s with
    backStr := (lines backSize one_lt_backSize output).foldl
      (fun backStr backMessage => backStr ++ cStr backMessage) s.backStr }

def sendto (takes : Bool) (peer : SockaddrIn) (bytes : Bytes) : UdpServer :=
  { s with calls := s.calls ++ [.sendto peer bytes (sends takes bytes)] }

/-- The end of a turn. -/
def reply (takes : Bool) (peer : SockaddrIn) : UdpServer :=
  { s.sendto takes peer s.backStr with backStr := [] }

def turn (t : Turn) : UdpServer :=
  match t.recvfrom with
  | .fail => s.reply t.takes Recvfrom.fail.peer
  | .datagram peer bytes _ =>
    if 0 < bytes.length then
      let buffMessage := cStr bytes
      if strcasestr buffMessage RM ≠ none then s.sendto t.takes peer errMsg
      else
        let s := { s with calls := s.calls ++ [.popen buffMessage] }
        match t.output with
        | none => s
        | some output => (s.readOutput output).reply t.takes peer
    else s.reply t.takes peer

/-- `start`, on what has come so far. -/
def start (turns : List Turn) : UdpServer := turns.foldl turn init

end UdpServer

end NetProg.Shell
