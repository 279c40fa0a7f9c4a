import NetProg.Lib.CString

/-!
# What `recv` and `send` give, and the functions `Recv` and `Send` of `Protocol.hpp`
-/

namespace NetProg.Reactor

open NetProg.Lib

inductive Errno where
  | EAGAIN
  | EWOULDBLOCK
  | EINTR
  | EPIPE
  | other (n : ℕ)
  deriving DecidableEq, Repr

/-- `errno == EAGAIN || errno == EWOULDBLOCK` -/
def Errno.again (e : Errno) : Bool := e = .EAGAIN || e = .EWOULDBLOCK

/-- What `recv` gives: the bytes put into the buffer (none at the end of the stream), or -1. -/
inductive RecvAns where
  | bytes (b : Bytes)
  | fail (e : Errno)
  deriving DecidableEq, Repr

/-- What `send` gives: the number of bytes taken, or -1. -/
inductive SendAns where
  | count (n : ℕ)
  | fail (e : Errno)
  deriving DecidableEq, Repr

/-- The bytes that a `send` took: none when it failed. -/
def SendAns.taken : SendAns → ℕ
  | .count n => n
  | .fail _ => 0

/-- The bytes that the calls of `recv` gave. -/
def received (as : List RecvAns) : Bytes :=
  as.flatMap fun
    | .bytes b => b
    | .fail _ => []

theorem received_append (as as' : List RecvAns) :
    received (as ++ as') = received as ++ received as' := List.flatMap_append

/-- The array that `Recv` reads into. -/
def buffSize : ℕ := 1024

/-- `Recv`: whether it succeeded, and `*s` afterwards; `none` when `buff[sz] = '\0'` writes behind
the array. -/
def recv (a : RecvAns) (s : Bytes) : Option (Bool × Bytes) :=
  match a with
  | .bytes buff =>
    if buff.length = 0 then some (false, s)
    else if buff.length < buffSize then some (true, s ++ cStr buff)
    else none
  | .fail _ => some (false, s)

/-- `Send`: whether it succeeded; `none` when the peer has closed the connection: the signal that
`send` raises with `EPIPE` ends the process. -/
def send (a : SendAns) : Option Bool := if a = .fail .EPIPE then none else some (a.taken > 0)

theorem recv_bytes {b : Bytes} (hne : b ≠ []) (hlen : b.length < buffSize) (hfree : 0 ∉ b)
    (s : Bytes) : recv (.bytes b) s = some (true, s ++ b) := by
  have hpos : b.length ≠ 0 := by simpa using hne
  simp only [recv, if_neg hpos, if_pos hlen, cStr_of_free hfree]

theorem send_of_taken {a : SendAns} (h : 0 < a.taken) : send a = some true := by
  cases a with
  | count n => simpa [send, SendAns.taken] using h
  | fail e => cases h

/-! ### What is said on a connection -/

/-- A call on the descriptor of a connection, with its answer. -/
inductive SockCall where
  | recv (a : RecvAns)
  | send (b : Bytes) (a : SendAns)
  deriving DecidableEq, Repr

namespace SockCall

def recvs (l : List SockCall) : List RecvAns :=
  l.filterMap fun
    | .recv a => some a
    | .send _ _ => none

def sends (l : List SockCall) : List (Bytes × SendAns) :=
  l.filterMap fun
    | .recv _ => none
    | .send b a => some (b, a)

variable (l : List SockCall) (a : RecvAns) (b : Bytes) (r : SendAns)

theorem recvs_concat_recv : recvs (l ++ [.recv a]) = recvs l ++ [a] := by simp [recvs]

theorem recvs_concat_send : recvs (l ++ [.send b r]) = recvs l := by simp [recvs]

theorem sends_concat_recv : sends (l ++ [.recv a]) = sends l := by simp [sends]

theorem sends_concat_send : sends (l ++ [.send b r]) = sends l ++ [(b, r)] := by simp [sends]

end SockCall

end NetProg.Reactor
