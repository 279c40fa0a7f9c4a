import NetProg.Http.Util
import NetProg.Lib.Loop

/-!
# The handler of the HTTP server (`http_server.cc`)

A forked child calls `HttpServerHandler` once for its connection: one `recv` into an array on the
stack, the lines of the text received, the words of the first line, and the file that the second
word names. The handler trusts the client with its indices; here an index out of range, or a read
behind the end of the array, is a `Fault`. The file system is a parameter: the bytes that an
`ifstream` reads from a path, `none` when it does not open.

`requested_eq_ok` says which request texts have a second word, and `readFile_eq` what the loop over
the lines of a file makes of its bytes. What is printed to the terminal, and the `send` that passes
the response on, are left out.
-/

namespace NetProg.Http

open NetProg.Lib

inductive Fault where
  | bufferIndex
  | unterminated
  | lineIndex
  | wordIndex
  deriving DecidableEq, Repr

/-! ### The buffer -/

def bufferSize : ℕ := 10240

/-- `char buffer[10240]`, which nothing initialises. -/
structure Buffer where
  bytes : Bytes
  length_eq : bytes.length = bufferSize

/-- What `recv` gives: -1, or the bytes that it has put into the buffer, none of them at the end of
the stream. -/
inductive Recv where
  | fail
  | bytes (b : Bytes) (h : b.length ≤ bufferSize)

def Recv.delivered : Recv → Bytes
  | .fail => []
  | .bytes b _ => b

/-- Bytes copied to the front of the buffer. -/
def Buffer.fill (buf : Buffer) (b : Bytes) (h : b.length ≤ bufferSize) : Buffer where
  bytes := b ++ buf.bytes.drop b.length
  length_eq := by
    rw [List.length_append, List.length_drop, buf.length_eq]
    exact Nat.add_sub_of_le h

/-- `buffer[i] = c`. -/
def Buffer.set (buf : Buffer) (i : ℕ) (c : UInt8) : Except Fault Buffer :=
  if i < bufferSize then .ok ⟨buf.bytes.set i c, by rw [List.length_set, buf.length_eq]⟩
  else .error .bufferIndex

/-- The `std::string` made from the buffer; without a NUL it would go on behind the array. -/
def Buffer.text (buf : Buffer) : Except Fault Bytes :=
  if 0 ∈ buf.bytes then .ok (cStr buf.bytes) else .error .unterminated

/-- The text that is parsed: what the buffer holds after `recv`. -/
def received (buf : Buffer) : Recv → Except Fault Bytes
  | .fail => buf.text
  | .bytes b h =>
    if 0 < b.length then do (← (buf.fill b h).set b.length 0).text
    else buf.text

/-! ### The request -/

def CRLF : Bytes := literal "\r\n"

def SP : Bytes := literal " "

theorem crlf_ne_nil : CRLF ≠ [] := by decide

theorem sp_ne_nil : SP ≠ [] := by decide

/-- `v[i]`, with the fault when there is no such element. -/
def at? (v : List Bytes) (i : ℕ) (e : Fault) : Except Fault Bytes :=
  match v[i]? with
  | some s => .ok s
  | none => .error e

/-- The second word of the first line. -/
def requested (text : Bytes) : Except Fault Bytes := do
  let vline := cutString text CRLF crlf_ne_nil []
  let vfirst := cutString (← at? vline 0 .lineIndex) SP sp_ne_nil []
  at? vfirst 1 .wordIndex

def ROOT : Bytes := literal "./wwwroot"

def HOMEPAGE : Bytes := literal "./wwwroot/index.html"

def target (file : Bytes) : Bytes := if file = literal "/" then HOMEPAGE else ROOT ++ file

/-! ### The response -/

/-- `std::getline`: the line without its newline, and what is left to read. Nothing is read at the
end of the file. -/
def getline (rest : Bytes) : Option (Bytes × Bytes) :=
  if rest = [] then none
  else some (rest.takeWhile (· ≠ 10), (rest.dropWhile (· ≠ 10)).tail)

/-- At most `fuel` turns of the loop that reads the lines. -/
def readLines : ℕ → Bytes → Bytes → Option Bytes
  | 0, _, _ => none
  | fuel + 1, rest, content =>
    match getline rest with
    | none => some content
    | some (line, rest) => readLines fuel rest (content ++ line)

theorem getline_shrinks {rest rest' line : Bytes} (h : getline rest = some (line, rest')) :
    rest'.length < rest.length := by
  unfold getline at h
  split at h
  · cases h
  · rename_i hne
    obtain ⟨-, rfl⟩ := Prod.mk.inj (Option.some.inj h)
    have hpos : 0 < rest.length := List.length_pos_iff.2 hne
    have hle : (rest.dropWhile (· ≠ 10)).length ≤ rest.length :=
      (List.dropWhile_suffix _).length_le
    rw [List.length_tail]
    omega

theorem readLines_isSome {fuel : ℕ} {rest : Bytes} (content : Bytes) (h : rest.length < fuel) :
    (readLines fuel rest content).isSome := by
  induction fuel generalizing rest content with
  | zero => exact absurd h (Nat.not_lt_zero _)
  | succ fuel ih =>
    simp only [readLines]
    split
    · rfl
    · rename_i hline
      have := getline_shrinks hline
      exact ih _ (by omega)

/-- The content that the handler builds from the bytes of an open file. The loop always ends, since
every turn reads at least one byte. -/
def readFile (c : Bytes) : Bytes :=
  (readLines (c.length + 1) c []).get (readLines_isSome [] (Nat.lt_succ_self _))

def NOT_FOUND : Bytes := literal "HTTP/1.1 404 NotFound\r\n"

def OK : Bytes := literal "HTTP/1.1 200 OK\r\n"

def contentOf (fs : Bytes → Option Bytes) (target : Bytes) : Bytes :=
  match fs target with
  | some c => readFile c
  | none => []

def response (content : Bytes) : Bytes :=
  (if content.isEmpty then NOT_FOUND else OK) ++ CRLF ++ content

/-- What the handler asks the file system for, and what it answers the client. -/
structure Reply where
  target : Bytes
  response : Bytes
  deriving DecidableEq

def HttpServerHandler (fs : Bytes → Option Bytes) (buf : Buffer) (a : Recv) :
    Except Fault Reply := do
  let text ← received buf a
  let file ← requested text
  let target := target file
  return { target, response := response (contentOf fs target) }

/-! ### What is parsed -/

theorem received_bytes (buf : Buffer) {b : Bytes} (h : b.length ≤ bufferSize) (hpos : 0 < b.length)
    (hlt : b.length < bufferSize) : received buf (.bytes b h) = .ok (cStr b) := by
  obtain ⟨x, rest, hx⟩ : ∃ x rest, buf.bytes.drop b.length = x :: rest := by
    refine List.exists_cons_of_ne_nil fun hnil => ?_
    have := List.drop_eq_nil_iff.1 hnil
    rw [buf.length_eq] at this
    omega
  have hset : ((buf.fill b h).bytes.set b.length 0) = b ++ 0 :: rest := by
    simp [Buffer.fill, hx]
  simp only [received, if_pos hpos, Buffer.set, if_pos hlt, bind, Except.bind, Buffer.text, hset]
  rw [if_pos (by simp), cStr_append_zero]

theorem received_full (buf : Buffer) {b : Bytes} (h : b.length ≤ bufferSize)
    (hge : bufferSize ≤ b.length) : received buf (.bytes b h) = .error .bufferIndex := by
  have hpos : 0 < b.length := (by decide : 0 < bufferSize).trans_le hge
  simp only [received, if_pos hpos, Buffer.set, if_neg (Nat.not_lt.2 hge), bind, Except.bind]

theorem at?_eq_ok {v : List Bytes} {i : ℕ} {e : Fault} {s : Bytes} :
    at? v i e = .ok s ↔ v[i]? = some s := by
  unfold at?
  split <;> rename_i h <;> simp [h]

/-- **The second word of the first line**: a space in the line with something behind it, and what
stands there up to the next space. -/
theorem requested_eq_ok {text file : Bytes} :
    requested text = .ok file ↔ ∃ t rest, before CRLF text = t ++ (SP ++ rest) ∧
      find SP (before CRLF text) = some t.length ∧ rest ≠ [] ∧ before SP rest = file := by
  obtain ⟨lines, hlines, hcut⟩ := cutString_eq text CRLF crlf_ne_nil []
  simp only [requested, bind_eq_ok, at?_eq_ok, hlines, List.nil_append,
    hcut.getElem?_zero crlf_ne_nil]
  constructor
  · rintro ⟨line, ⟨-, rfl⟩, hfile⟩
    obtain ⟨words, hwords, hcut'⟩ := cutString_eq (before CRLF text) SP sp_ne_nil []
    rw [hwords, List.nil_append, hcut'.getElem?_one sp_ne_nil] at hfile
    exact hfile
  · intro h
    refine ⟨before CRLF text, ⟨?_, rfl⟩, ?_⟩
    · rintro rfl
      obtain ⟨t, rest, hs, -⟩ := h
      simp [SP, literal, before, CRLF, find] at hs
    · obtain ⟨words, hwords, hcut'⟩ := cutString_eq (before CRLF text) SP sp_ne_nil []
      rw [hwords, List.nil_append, hcut'.getElem?_one sp_ne_nil]
      exact h

/-- A run without a fault: the text parsed, the word found in it, and the answer. -/
theorem handler_eq_ok {fs : Bytes → Option Bytes} {buf : Buffer} {a : Recv} {r : Reply} :
    HttpServerHandler fs buf a = .ok r ↔ ∃ text file, received buf a = .ok text ∧
      requested text = .ok file ∧ r = ⟨target file, response (contentOf fs (target file))⟩ := by
  simp only [HttpServerHandler, bind_eq_ok]
  constructor
  · rintro ⟨text, htext, file, hfile, hr⟩
    exact ⟨text, file, htext, hfile, (Except.ok.inj hr).symm⟩
  · rintro ⟨text, file, htext, hfile, rfl⟩
    exact ⟨text, htext, file, hfile, rfl⟩

/-! ### What is read -/

/-- What a filter keeps, one line at a time. -/
theorem filter_eq_takeWhile_append (p : UInt8 → Bool) (s : Bytes) :
    s.filter p = s.takeWhile p ++ (s.dropWhile p).tail.filter p := by
  induction s with
  | nil => rfl
  | cons b s ih =>
    cases hb : p b with
    | true => rw [List.filter_cons_of_pos hb, List.takeWhile_cons_of_pos hb,
        List.dropWhile_cons_of_pos hb, ih, List.cons_append]
    | false => simp [hb]

theorem readLines_eq {fuel : ℕ} {rest content : Bytes} (h : rest.length < fuel) :
    readLines fuel rest content = some (content ++ rest.filter (· ≠ 10)) := by
  induction fuel generalizing rest content with
  | zero => exact absurd h (Nat.not_lt_zero _)
  | succ fuel ih =>
    by_cases hne : rest = []
    · simp [readLines, getline, hne]
    · have hline : getline rest = some (rest.takeWhile (· ≠ 10), (rest.dropWhile (· ≠ 10)).tail) :=
        if_neg hne
      have hlt := getline_shrinks hline
      simp only [readLines, hline]
      rw [ih (by omega), filter_eq_takeWhile_append _ rest, List.append_assoc]

/-- **The content is the file without its newlines.** -/
theorem readFile_eq (c : Bytes) : readFile c = c.filter (· ≠ 10) := by
  simp only [readFile, readLines_eq (Nat.lt_succ_self c.length), Option.get_some, List.nil_append]

theorem contentOf_of_some {fs : Bytes → Option Bytes} {path c : Bytes} (h : fs path = some c) :
    contentOf fs path = c.filter (· ≠ 10) := by
  simp only [contentOf, h, readFile_eq]

theorem response_of_ne {content : Bytes} (h : content ≠ []) :
    response content = OK ++ CRLF ++ content := by
  simp [response, h]

theorem not_found_prefix_iff {content : Bytes} : NOT_FOUND <+: response content ↔ content = [] := by
  constructor
  · intro h
    by_contra hne
    rw [response_of_ne hne, List.append_assoc] at h
    -- they differ in the first digit of the status
    have h10 := h.take 10
    rw [List.take_append_of_le_length (by decide)] at h10
    revert h10
    decide
  · rintro rfl
    exact ⟨CRLF, rfl⟩

end NetProg.Http
