import NetProg.Http.Indices
import NetProg.Lib.Path

/-!
# Which files the handler opens, and what it answers with them

The path that the handler opens is `./wwwroot` with the second word of the request behind it, as it
is: `confined_iff` says which words keep the path inside the directory. The answer is built from the
lines of the file and not from its bytes, and its status from the text so built: `bodyIsFile_iff`
says for which files the answer is the file.
-/

namespace NetProg.Http

open NetProg.Lib

/-! ### The web root -/

def SLASH : UInt8 := 47

def WWWROOT : Bytes := literal "wwwroot"

/-- A component of a path, as it is resolved. -/
def part (c : Bytes) : PathPart Bytes :=
  if c = [] ∨ c = literal "." then .skip
  else if c = literal ".." then .up
  else .name c

def components (path : Bytes) : List (PathPart Bytes) := (path.splitOn SLASH).map part

/-- The path leads, component by component, into the directory `./wwwroot`, or to it. -/
def InRoot (path : Bytes) : Prop := (resolve (components path)).Inside [WWWROOT]

instance (path : Bytes) : Decidable (InRoot path) :=
  inferInstanceAs (Decidable (Place.Inside _ _))

/-- The file that the request text names, if it names one, is inside the web root. -/
def Confined (text : Bytes) : Prop := ∀ file, requested text = .ok file → InRoot (target file)

/-- The word starts at the root and never climbs above it; or what follows its first slash leaves
the directory of its start by one level and comes back by the name of the web root. -/
def StaysInRoot (file : Bytes) : Prop :=
  ((file = [] ∨ file.head? = some SLASH) ∧ (walk 0 (components file).tail).isSome) ∨
    ComesBack WWWROOT 1 (components file).tail

/-- The components of a path that is not the home page: `.`, one that begins with `wwwroot`, and
what the word has behind its first slash. -/
theorem components_target (file : Bytes) :
    ∃ w, components (ROOT ++ file) = .skip :: .name (WWWROOT ++ w) :: (components file).tail ∧
      (w = [] ↔ file = [] ∨ file.head? = some SLASH) := by
  obtain ⟨w, ws, hw⟩ := List.exists_cons_of_ne_nil (List.splitOn_ne_nil SLASH file)
  have hroot : ROOT ++ file = literal "." ++ SLASH :: (WWWROOT ++ file) := rfl
  have hname : part (WWWROOT ++ w) = .name (WWWROOT ++ w) := by
    have hlen : 7 ≤ (WWWROOT ++ w).length := by
      rw [List.length_append]
      exact Nat.le_add_right 7 _
    have hne : ∀ c : Bytes, c.length < 7 → WWWROOT ++ w ≠ c := fun c hc h => by
      rw [h] at hlen
      omega
    unfold part
    rw [if_neg, if_neg (hne _ (by decide))]
    exact not_or.2 ⟨hne _ (by decide), hne _ (by decide)⟩
  refine ⟨w, ?_, splitOn_head hw⟩
  rw [components, hroot, List.splitOn_append_cons_of_beq _ _ (beq_self_eq_true SLASH),
    splitOn_append (by decide), hw]
  simp only [components, hw, List.modifyHead_cons, List.map_append, List.map_cons, hname]
  rfl

theorem inRoot_append_iff (file : Bytes) : InRoot (ROOT ++ file) ↔ StaysInRoot file := by
  obtain ⟨w, hw, hnil⟩ := components_target file
  unfold InRoot resolve
  rw [hw, List.foldl_cons, List.foldl_cons]
  refine inside_iff.trans ?_
  rw [StaysInRoot, ← hnil, List.self_eq_append_right]

theorem inRoot_target_iff (file : Bytes) : InRoot (target file) ↔ StaysInRoot file := by
  unfold target
  split
  · rename_i h
    subst h
    refine iff_of_true (by decide) (Or.inl ⟨Or.inr rfl, by decide⟩)
  · exact inRoot_append_iff file

/-- **Staying in the web root.** The path that a request text makes the handler open is inside the
web root if and only if the second word stays in it or comes back to it. -/
theorem confined_iff (text : Bytes) :
    Confined text ↔ ∀ file, requested text = .ok file → StaysInRoot file := by
  unfold Confined
  constructor
  · intro h file hfile
    exact (inRoot_target_iff file).1 (h file hfile)
  · intro h file hfile
    exact (inRoot_target_iff file).2 (h file hfile)

/-- A file system with one file. -/
def oneFile (path c : Bytes) : Bytes → Option Bytes := fun p => if p = path then some c else none

theorem handler_request {fs : Bytes → Option Bytes} {buf : Buffer} {b : Bytes}
    (h : b.length ≤ bufferSize) (hne : b ≠ []) (hlt : b.length < bufferSize) (h0 : 0 ∉ b)
    {file : Bytes} (hfile : requested b = .ok file) : HttpServerHandler fs buf (.bytes b h) =
      .ok ⟨target file, response (contentOf fs (target file))⟩ := by
  refine handler_eq_ok.2 ⟨b, file, ?_, hfile, rfl⟩
  rw [received_bytes buf h (List.length_pos_iff.2 hne) hlt, cStr_of_free h0]

/-- The client asks for a file beside the web root, and gets it. -/
theorem not_confined :
    ¬ Confined (literal "GET /../Makefile HTTP/1.1\r\n\r\n") ∧
      HttpServerHandler (oneFile (literal "./wwwroot/../Makefile") (literal "all:"))
        blank (.bytes (literal "GET /../Makefile HTTP/1.1\r\n\r\n") (by decide)) =
          .ok ⟨literal "./wwwroot/../Makefile", OK ++ CRLF ++ literal "all:"⟩ := by
  have hfile : requested (literal "GET /../Makefile HTTP/1.1\r\n\r\n") =
      .ok (literal "/../Makefile") := rfl
  constructor
  · intro h
    exact absurd (h _ hfile) (by decide)
  · exact (handler_request _ (by decide) (by decide) (by decide) hfile).trans rfl

/-! ### The body -/

/-- For the file found under the target, `none` when it does not open: the response is the file if
it has bytes, and "not found" only if it has none or does not open. -/
def BodyIsFile (found : Option Bytes) (response : Bytes) : Prop :=
  (∀ c, found = some c → c ≠ [] → response = OK ++ CRLF ++ c) ∧
    (NOT_FOUND <+: response → found = none ∨ found = some [])

theorem bodyIsFile_response (fs : Bytes → Option Bytes) (path : Bytes) :
    BodyIsFile (fs path) (response (contentOf fs path)) ↔ ∀ c, fs path = some c → 10 ∉ c := by
  simp only [BodyIsFile, not_found_prefix_iff]
  constructor
  · rintro ⟨hbody, hmissing⟩ c hc hmem
    have hne : c ≠ [] := List.ne_nil_of_mem hmem
    by_cases hnil : contentOf fs path = []
    · -- a file of newlines only is "not found"
      rcases hmissing hnil with h0 | h0 <;> rw [hc] at h0
      · cases h0
      · exact hne (Option.some.inj h0)
    · have heq := hbody c hc hne
      rw [response_of_ne hnil, contentOf_of_some hc] at heq
      have hfilter := List.append_cancel_left heq
      have := List.filter_eq_self.1 hfilter 10 hmem
      simp at this
  · intro hfree
    cases hc : fs path with
    | none => exact ⟨by rintro c ⟨⟩, fun _ => Or.inl rfl⟩
    | some c =>
      have hcontent : contentOf fs path = c := by
        rw [contentOf_of_some hc, List.filter_eq_self]
        intro b hb
        have hne : b ≠ 10 := fun h => hfree c hc (h ▸ hb)
        simpa using hne
      rw [hcontent]
      refine ⟨?_, fun hnil => Or.inr (congrArg some hnil)⟩
      rintro c' hc' hne
      obtain rfl := Option.some.inj hc'
      exact response_of_ne hne

/-- **The body is the file** that the request names if and only if the file has no newline. -/
theorem bodyIsFile_iff {fs : Bytes → Option Bytes} {buf : Buffer} {a : Recv} {text file : Bytes}
    (htext : received buf a = .ok text) (hfile : requested text = .ok file) :
    (∃ r, HttpServerHandler fs buf a = .ok r ∧ BodyIsFile (fs (target file)) r.response) ↔
      ∀ c, fs (target file) = some c → 10 ∉ c := by
  rw [← bodyIsFile_response]
  constructor
  · rintro ⟨r, hr, hbody⟩
    obtain ⟨text', file', htext', hfile', rfl⟩ := handler_eq_ok.1 hr
    rw [htext] at htext'
    obtain rfl := Except.ok.inj htext'
    rw [hfile] at hfile'
    obtain rfl := Except.ok.inj hfile'
    exact hbody
  · intro hbody
    exact ⟨_, handler_eq_ok.2 ⟨text, file, htext, hfile, rfl⟩, hbody⟩

/-- The home page, a file without a newline, is sent as it is. -/
theorem bodyIsFile_homepage :
    ∃ r, HttpServerHandler (oneFile HOMEPAGE (literal "<html></html>")) blank
        (.bytes (literal "GET / HTTP/1.1\r\n\r\n") (by decide)) = .ok r ∧
      BodyIsFile (some (literal "<html></html>")) r.response := by
  have htext := received_bytes blank (b := literal "GET / HTTP/1.1\r\n\r\n") (by decide)
    (by decide) (by decide)
  have hfile : requested (cStr (literal "GET / HTTP/1.1\r\n\r\n")) = .ok (literal "/") := rfl
  refine (bodyIsFile_iff htext hfile).2 ?_
  rintro c hc
  obtain rfl := Option.some.inj hc
  decide

/-- Two lines arrive as one, and a file of newlines is said not to exist. -/
theorem not_bodyIsFile :
    (HttpServerHandler (oneFile (literal "./wwwroot/a") (literal "x\ny\n")) blank
        (.bytes (literal "GET /a HTTP/1.1\r\n\r\n") (by decide)) =
          .ok ⟨literal "./wwwroot/a", OK ++ CRLF ++ literal "xy"⟩ ∧
      ¬ BodyIsFile (some (literal "x\ny\n")) (OK ++ CRLF ++ literal "xy")) ∧
    (HttpServerHandler (oneFile (literal "./wwwroot/a") (literal "\n")) blank
        (.bytes (literal "GET /a HTTP/1.1\r\n\r\n") (by decide)) =
          .ok ⟨literal "./wwwroot/a", NOT_FOUND ++ CRLF⟩ ∧
      ¬ BodyIsFile (some (literal "\n")) (NOT_FOUND ++ CRLF)) := by
  have hfile : requested (literal "GET /a HTTP/1.1\r\n\r\n") = .ok (literal "/a") := rfl
  refine ⟨⟨?_, ?_⟩, ?_, ?_⟩
  · exact (handler_request _ (by decide) (by decide) (by decide) hfile).trans rfl
  · rintro ⟨hbody, -⟩
    exact absurd (hbody _ rfl (by decide)) (by decide)
  · exact (handler_request _ (by decide) (by decide) (by decide) hfile).trans rfl
  · rintro ⟨-, hmissing⟩
    rcases hmissing ⟨CRLF, rfl⟩ with h | h
    · cases h
    · exact absurd h (by decide)

end NetProg.Http
