import NetProg.Http.HttpServer

/-!
# When the handler stays inside its arrays

`buffer[sz]`, `vline[0]` and `vfirst[1]` are all unchecked, and after a `recv` that gives nothing
the handler parses what the stack held before. `indexSafe_iff` says which results of `recv` are
handled without such a fault.
-/

namespace NetProg.Http

open NetProg.Lib

/-- Every index that the handler uses is in range, and what it parses has been received. -/
def IndexSafe (fs : Bytes → Option Bytes) (buf : Buffer) (a : Recv) : Prop :=
  (∃ r, HttpServerHandler fs buf a = .ok r) ∧
    ∀ text, received buf a = .ok text → text <+: a.delivered

theorem handler_isOk_iff {fs : Bytes → Option Bytes} {buf : Buffer} {a : Recv} :
    (∃ r, HttpServerHandler fs buf a = .ok r) ↔
      ∃ text file, received buf a = .ok text ∧ requested text = .ok file := by
  simp only [handler_eq_ok]
  constructor
  · rintro ⟨r, text, file, htext, hfile, -⟩
    exact ⟨text, file, htext, hfile⟩
  · rintro ⟨text, file, htext, hfile⟩
    exact ⟨_, text, file, htext, hfile, rfl⟩

/-- There is a second word when a space stands in the first line and is not its end. -/
theorem requested_isOk_iff {text : Bytes} :
    (∃ file, requested text = .ok file) ↔ 32 ∈ (before CRLF text).dropLast := by
  rw [← exists_before_singleton]
  simp only [requested_eq_ok]
  constructor
  · rintro ⟨file, t, rest, hs, hf, hne, -⟩
    exact ⟨t, rest, hs, hf, hne⟩
  · rintro ⟨t, rest, hs, hf, hne⟩
    exact ⟨before SP rest, t, rest, hs, hf, hne, rfl⟩

theorem requested_nil : ¬ ∃ file, requested [] = .ok file := by
  rw [requested_isOk_iff]
  decide

theorem received_of_some (buf : Buffer) {a : Recv} (hne : a.delivered ≠ [])
    (hlt : a.delivered.length < bufferSize) : received buf a = .ok (cStr a.delivered) := by
  cases a with
  | fail => exact absurd rfl hne
  | bytes b h => exact received_bytes buf h (List.length_pos_iff.2 hne) hlt

theorem received_of_full (buf : Buffer) {a : Recv} (h : bufferSize ≤ a.delivered.length) :
    received buf a = .error .bufferIndex := by
  cases a with
  | fail => exact absurd h (by decide)
  | bytes b hb => exact received_full buf hb h

/-- After a `recv` that gives nothing, an index is out of range or old bytes are parsed. -/
theorem not_indexSafe_of_nothing {fs : Bytes → Option Bytes} {buf : Buffer} {a : Recv}
    (h : a.delivered = []) : ¬ IndexSafe fs buf a := by
  rintro ⟨hok, hpre⟩
  obtain ⟨text, file, htext, hfile⟩ := handler_isOk_iff.1 hok
  have hp := hpre text htext
  rw [h, List.prefix_nil] at hp
  subst hp
  exact requested_nil ⟨file, hfile⟩

theorem not_indexSafe_of_full {fs : Bytes → Option Bytes} {buf : Buffer} {a : Recv}
    (h : bufferSize ≤ a.delivered.length) : ¬ IndexSafe fs buf a := by
  rintro ⟨hok, -⟩
  obtain ⟨text, file, htext, -⟩ := handler_isOk_iff.1 hok
  rw [received_of_full buf h] at htext
  cases htext

/-- **Index safety.** Every index is in range and only received bytes are parsed if and only if
`recv` has left room for the NUL, and the first line that it delivered has a space that is not its
last byte. -/
theorem indexSafe_iff (fs : Bytes → Option Bytes) (buf : Buffer) (a : Recv) :
    IndexSafe fs buf a ↔ a.delivered.length < bufferSize ∧
      32 ∈ (before CRLF (cStr a.delivered)).dropLast := by
  by_cases hlt : a.delivered.length < bufferSize
  · by_cases hne : a.delivered = []
    · refine iff_of_false (not_indexSafe_of_nothing hne) ?_
      rintro ⟨-, h⟩
      rw [hne] at h
      revert h
      decide
    · have htext := received_of_some buf hne hlt
      rw [← requested_isOk_iff]
      constructor
      · rintro ⟨hok, -⟩
        obtain ⟨text, file, h, hfile⟩ := handler_isOk_iff.1 hok
        rw [htext] at h
        obtain rfl := Except.ok.inj h
        exact ⟨hlt, file, hfile⟩
      · rintro ⟨-, file, hfile⟩
        refine ⟨handler_isOk_iff.2 ⟨_, file, htext, hfile⟩, fun text h => ?_⟩
        rw [htext] at h
        obtain rfl := Except.ok.inj h
        exact List.takeWhile_prefix _
  · exact iff_of_false (not_indexSafe_of_full (Nat.le_of_not_lt hlt)) fun h => hlt h.1

/-- An array that the stack left full of zeros, and a file system without files. -/
def blank : Buffer := ⟨List.replicate bufferSize 0, List.length_replicate⟩

def noFiles : Bytes → Option Bytes := fun _ => none

/-- A line of one word has no second one; a full buffer has no room for the NUL; and the end of the
stream leaves nothing to parse. -/
theorem not_indexSafe :
    ¬ IndexSafe noFiles blank (.bytes (literal "GET\r\n\r\n") (by decide)) ∧
      ¬ IndexSafe noFiles blank (.bytes (List.replicate bufferSize 65) (by simp)) ∧
      ¬ IndexSafe noFiles blank (.bytes [] (Nat.zero_le _)) ∧ ¬ IndexSafe noFiles blank .fail := by
  refine ⟨?_, ?_, not_indexSafe_of_nothing rfl, not_indexSafe_of_nothing rfl⟩
  · rintro ⟨hok, -⟩
    obtain ⟨text, file, htext, hfile⟩ := handler_isOk_iff.1 hok
    rw [received_of_some blank (by decide) (by decide)] at htext
    obtain rfl := Except.ok.inj htext
    exact absurd (requested_isOk_iff.1 ⟨file, hfile⟩) (by decide)
  · apply not_indexSafe_of_full
    rw [Recv.delivered, List.length_replicate]

end NetProg.Http
