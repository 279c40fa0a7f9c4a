import NetProg.Reactor.Socket

/-!
# Calls of the select and poll servers

Both servers serve every client from one thread. The calls that matter are recorded in a trace,
newest last: `accept`, `recv` and `close` with their descriptors and results, and the calls of
`logMessage` with the text of a client. `live` reads from a trace which accepted descriptors have
not been closed.
-/

namespace NetProg.Multiplex

open NetProg.Lib NetProg.Reactor

/-- A descriptor. -/
abbrev Fd := ℕ

/-- The value `-1` of a free slot. -/
def FD_NONE : Option Fd := none

inductive Call where
  /-- `Sock::Accept`: a descriptor, or -1 -/
  | accept (sock : Fd) (r : Option Fd)
  | recv (sock : Fd) (a : RecvAns)
  | close (sock : Fd)
  /-- `logMessage` with the format `client[%d]# %s` and these arguments -/
  | message (sock : Fd) (text : Bytes)
  deriving DecidableEq, Repr

/-- The descriptor that a call might block on. -/
def Call.target : Call → Option Fd
  | .accept sock _ => some sock
  | .recv sock _ => some sock
  | .close _ => none
  | .message _ _ => none

/-- `client[sock]# text` -/
def clientLine (sock : Fd) (text : Bytes) : Bytes :=
  literal "client[" ++ decimal sock ++ literal "]# " ++ text

/-- The line that `logMessage` prints, from its `logBuffer` of 1024 bytes. -/
def logLine (sock : Fd) (text : Bytes) : Bytes := snprintf 1024 (clientLine sock text)

/-- What the kernel answers during one scan of the table: a slot is visited once, so the results
are given by the slot whose descriptor the call is about. -/
structure Answers where
  accept : ℕ → Option Fd
  recv : ℕ → RecvAns

/-! ### Descriptors that are open -/

def liveStep (l : List Fd) : Call → List Fd
  | .accept _ (some fd) => fd :: l
  | .accept _ none => l
  | .recv _ _ => l
  | .close fd => l.erase fd
  | .message _ _ => l

/-- The descriptors that were accepted and not closed since. -/
def live (trace : List Call) : List Fd := trace.foldl liveStep []

@[simp] theorem live_nil : live [] = [] := rfl

@[simp] theorem live_concat (t : List Call) (c : Call) :
    live (t ++ [c]) = liveStep (live t) c := by
  simp [live]

@[simp] theorem live_concat₂ (t : List Call) (c d : Call) :
    live (t ++ [c, d]) = liveStep (liveStep (live t) c) d := by
  simp [live]

/-- What holds of every call of a trace, given the descriptors that are live before it. -/
def Always (P : List Fd → Call → Prop) (trace : List Call) : Prop :=
  ∀ t c u, trace = t ++ c :: u → P (live t) c

section Always

variable {P : List Fd → Call → Prop} {t u : List Call} {c : Call}

theorem always_nil : Always P [] := by
  intro t c u h
  simp at h

theorem always_concat : Always P (t ++ [c]) ↔ Always P t ∧ P (live t) c := by
  constructor
  · intro h
    refine ⟨fun v d w hv => h v d (w ++ [c]) (by rw [hv]; simp), h t c [] rfl⟩
  · rintro ⟨h, hc⟩ v d w hv
    rcases List.eq_nil_or_concat w with rfl | ⟨w', d', rfl⟩
    · obtain ⟨rfl, hd⟩ := List.append_inj' hv rfl
      obtain rfl : c = d := by simpa using hd
      exact hc
    · rw [List.concat_eq_append, ← List.cons_append, ← List.append_assoc] at hv
      exact h v d w' (List.append_inj' hv rfl).1

theorem always_concat₂ {d : Call} :
    Always P (t ++ [c, d]) ↔ Always P t ∧ P (live t) c ∧ P (liveStep (live t) c) d := by
  rw [show t ++ [c, d] = t ++ [c] ++ [d] by simp, always_concat, always_concat, live_concat,
    and_assoc]

theorem Always.of_append (h : Always P (t ++ u)) : Always P t := fun v d w hv =>
  h v d (w ++ u) (by rw [hv]; simp)

end Always

/-- Every descriptor that `accept` gave was not open then. -/
def Fresh (listen : Fd) : List Call → Prop :=
  Always fun l c => ∀ sock fd, c = .accept sock (some fd) → fd ≠ listen ∧ fd ∉ l

/-- Every descriptor that was closed was one accepted and not closed since. -/
def ClosedOnce : List Call → Prop := Always fun l c => ∀ fd, c = .close fd → fd ∈ l

/-- Whenever a connection was accepted, a table of `n` slots had one left. -/
def Roomy (n : ℕ) : List Call → Prop :=
  Always fun l c => ∀ sock fd, c = .accept sock (some fd) → l.length + 1 < n

end NetProg.Multiplex
