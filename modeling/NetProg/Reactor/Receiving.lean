import NetProg.Reactor.Dispatch

/-!
# Receiving into a local array

`Recver` and `Recv` both read into a local array, put a NUL behind the bytes and append the array as
a C string. Here the array is explicit: `readInto` is one such read, and the read loop of the model
is shown to be made of it (`recver_loop_readAll`). `receiving_iff` says when receiving is byte-exact
and stays inside the arrays.
-/

namespace NetProg.Reactor

open NetProg.Lib

/-- `char buff[10240]` of `Recver`; the size argument is one less. -/
def recverBuffSize : ℕ := 10240

/-- One successful read: the kernel puts `b` at the front of the array, then `buff[sz] = 0` and
`s += buff`. The array and the string afterwards, or `none` when `sz` is no index of the array. -/
def readInto (buff b s : Bytes) : Option (Bytes × Bytes) :=
  let buff := b ++ buff.drop b.length
  if b.length < buff.length then
    let buff := buff.set b.length 0
    some (buff, s ++ cStr buff)
  else none

/-- The string after some successful reads into one array. -/
def readAll (buff s : Bytes) : List Bytes → Option Bytes
  | [] => some s
  | b :: bs => (readInto buff b s).bind fun r => readAll r.1 r.2 bs

/-- `*s` after some successful calls of `Recv`. -/
def recvAll (s : Bytes) : List Bytes → Option Bytes
  | [] => some s
  | b :: bs => (recv (.bytes b) s).bind fun r => recvAll r.2 bs

/-! ### One read -/

theorem readInto_of_lt {buff b : Bytes} (h : b.length < buff.length) (s : Bytes) :
    ∃ buff', readInto buff b s = some (buff', s ++ cStr b) ∧ buff'.length = buff.length := by
  have hlen : (b ++ buff.drop b.length).length = buff.length := by
    rw [List.length_append, List.length_drop]; omega
  obtain ⟨x, xs, hx⟩ := List.exists_cons_of_ne_nil
    (show buff.drop b.length ≠ [] by rw [← List.length_pos_iff, List.length_drop]; omega)
  refine ⟨(b ++ buff.drop b.length).set b.length 0, ?_, by rw [List.length_set, hlen]⟩
  simp only [readInto, hlen, if_pos h, Option.some.injEq, Prod.mk.injEq, true_and]
  rw [List.set_append_right _ _ le_rfl, Nat.sub_self, hx, List.set_cons_zero, cStr_append_zero]

theorem readAll_of_lt {buff : Bytes} {bs : List Bytes} (h : ∀ b ∈ bs, b.length < buff.length)
    (s : Bytes) : readAll buff s bs = some (s ++ bs.flatMap cStr) := by
  induction bs generalizing buff s with
  | nil => simp [readAll]
  | cons b bs ih =>
    obtain ⟨buff', hr, hlen⟩ := readInto_of_lt (h b List.mem_cons_self) s
    have hrest := ih (fun x hx => hlen ▸ h x (List.mem_cons_of_mem _ hx)) (s ++ cStr b)
    simp [readAll, hr, hrest]

/-! ### The read loop of `Recver` -/

/-- The bytes of the positive results. -/
def chunks (as : List RecvAns) : List Bytes :=
  as.filterMap fun
    | .bytes b => some b
    | .fail _ => none

theorem received_eq (as : List RecvAns) : received as = (chunks as).flatten := by
  induction as with
  | nil => rfl
  | cons a as ih => cases a <;> simpa [received, chunks] using ih

theorem recvData_eq_chunks (as : List RecvAns) :
    TcpServer.recvData as = (chunks as).flatMap cStr := by
  induction as with
  | nil => rfl
  | cons a as ih => cases a <;> simpa [TcpServer.recvData, chunks] using ih

/-- Answers of `recv` that keep the loop going: positive results of at most `size` bytes, and
interruptions. -/
def Positive (size : ℕ) (as : List RecvAns) : Prop :=
  ∀ a ∈ as, a = .fail .EINTR ∨ ∃ b, a = .bytes b ∧ b ≠ [] ∧ b.length ≤ size

theorem Positive.chunks {size : ℕ} {as : List RecvAns} (h : Positive size as) :
    ∀ b ∈ Reactor.chunks as, b.length ≤ size := by
  intro b hb
  obtain ⟨a, ha, hab⟩ := List.mem_filterMap.1 hb
  rcases h a ha with rfl | ⟨b', rfl, -, hle⟩
  · cases hab
  · obtain rfl : b' = b := by simpa using hab
    exact hle

theorem Positive.recvScan {size : ℕ} {as : List RecvAns} (h : Positive size as) {e : Errno}
    (he : e.again = true) :
    TcpServer.recvScan (as ++ [.fail e]) = some (as ++ [.fail e], true) := by
  induction as with
  | nil => simp [TcpServer.recvScan, he]
  | cons a as ih =>
    have hrest := ih fun x hx => h x (List.mem_cons_of_mem _ hx)
    rcases h a List.mem_cons_self with rfl | ⟨b, rfl, hne, -⟩
    · simp [TcpServer.recvScan, hrest, Errno.again]
    · simp [TcpServer.recvScan, hrest, hne]

/-- **The read loop of `Recver` is made of reads into its array.** -/
theorem recver_loop_readAll {s : TcpServer} {p : Ptr} {c : Connection} (hc : s.heap p = some c)
    (hcb : c.exceptCb = some .excepter) (hkey : s.connIsExists c.sock = true) {as : List RecvAns}
    (has : Positive (recverBuffSize - 1) as) {e : Errno} (he : e.again = true) {buff : Bytes}
    (hbuff : buff.length = recverBuffSize) :
    ∃ s', loop (fun _ => .error .pending) (TcpServer.recver.turn p) s (as ++ [.fail e]) =
        .ok (s', true) ∧
      (s'.heap p).map Connection.inBuffer = readAll buff c.inBuffer (chunks as) := by
  refine ⟨s.readIn p c (as ++ [.fail e]), ?_, ?_⟩
  · rw [TcpServer.recver_loop hc hcb hkey, has.recvScan he]
  · have hlt : ∀ b ∈ chunks as, b.length < buff.length := fun b hb => by
      have := has.chunks b hb
      rw [hbuff]
      unfold recverBuffSize at *
      omega
    rw [readAll_of_lt hlt, ← recvData_eq_chunks]
    simp [TcpServer.readIn, TcpServer.recvData]

/-! ### Byte-exact -/

theorem recvAll_isSome_iff {bs : List Bytes} (hbs : ∀ b ∈ bs, b ≠ [] ∧ b.length ≤ buffSize)
    (s : Bytes) : (recvAll s bs).isSome ↔ ∀ b ∈ bs, b.length ≠ buffSize := by
  induction bs generalizing s with
  | nil => simp [recvAll]
  | cons b bs ih =>
    obtain ⟨hne, hle⟩ := hbs b List.mem_cons_self
    have hpos : b.length ≠ 0 := by simpa using hne
    have hrest := ih (fun x hx => hbs x (List.mem_cons_of_mem _ hx)) (s ++ cStr b)
    by_cases h : b.length < buffSize
    · simp only [recvAll, recv, if_neg hpos, if_pos h, Option.bind_some, hrest,
        List.forall_mem_cons]
      exact ⟨fun hr => ⟨h.ne, hr⟩, fun hr => hr.2⟩
    · have heq : b.length = buffSize := by omega
      simp [recvAll, recv, heq, buffSize]

theorem recvAll_of_lt {bs : List Bytes} (hbs : ∀ b ∈ bs, b ≠ [] ∧ b.length < buffSize) (s : Bytes) :
    recvAll s bs = some (s ++ bs.flatMap cStr) := by
  induction bs generalizing s with
  | nil => simp [recvAll]
  | cons b bs ih =>
    obtain ⟨hne, hlt⟩ := hbs b List.mem_cons_self
    have hpos : b.length ≠ 0 := by simpa using hne
    simp only [recvAll, recv, if_neg hpos, if_pos hlt, Option.bind_some]
    rw [ih fun x hx => hbs x (List.mem_cons_of_mem _ hx)]
    simp

/-- **When receiving is byte-exact and in bounds.** One read loop of `Recver` on a live connection
that ends because nothing more is there to read, and any sequence of successful calls of `Recv`:
both strings grow by exactly the bytes received, and no terminator is written outside its array,
exactly when no NUL was received and no call of `Recv` got as many bytes as its array has. -/
theorem receiving_iff {s : TcpServer} {p : Ptr} {c : Connection} (hc : s.heap p = some c)
    (hcb : c.exceptCb = some .excepter) (hkey : s.connIsExists c.sock = true) {as : List RecvAns}
    (has : Positive (recverBuffSize - 1) as) {e : Errno} (he : e.again = true) {buff : Bytes}
    (hbuff : buff.length = recverBuffSize) {bs : List Bytes}
    (hbs : ∀ b ∈ bs, b ≠ [] ∧ b.length ≤ buffSize) (t : Bytes) :
    ((∃ s', loop (fun _ => .error .pending) (TcpServer.recver.turn p) s (as ++ [.fail e]) =
          .ok (s', true) ∧
        (s'.heap p).map Connection.inBuffer = some (c.inBuffer ++ received as)) ∧
      recvAll t bs = some (t ++ bs.flatten) ∧
      (readAll buff c.inBuffer (chunks as)).isSome ∧ (recvAll t bs).isSome) ↔
    0 ∉ received as ∧ 0 ∉ bs.flatten ∧ ∀ b ∈ bs, b.length ≠ buffSize := by
  obtain ⟨s₁, hloop, hin⟩ := recver_loop_readAll hc hcb hkey has he hbuff
  have hlt : ∀ b ∈ chunks as, b.length < buff.length := fun b hb => by
    have := has.chunks b hb
    rw [hbuff]
    unfold recverBuffSize at *
    omega
  rw [readAll_of_lt hlt] at hin ⊢
  rw [received_eq, ← flatMap_cStr_eq_iff, ← flatMap_cStr_eq_iff, ← recvAll_isSome_iff hbs t]
  constructor
  · rintro ⟨⟨s', hs', hin'⟩, hrecv, -, hsome⟩
    rw [hloop, Except.ok.injEq, Prod.mk.injEq] at hs'
    obtain ⟨rfl, -⟩ := hs'
    rw [hin, Option.some.injEq, List.append_cancel_left_eq] at hin'
    have hlt' : ∀ b ∈ bs, b ≠ [] ∧ b.length < buffSize := fun b hb =>
      ⟨(hbs b hb).1, lt_of_le_of_ne (hbs b hb).2 ((recvAll_isSome_iff hbs t).1 hsome b hb)⟩
    rw [recvAll_of_lt hlt', Option.some.injEq, List.append_cancel_left_eq] at hrecv
    exact ⟨hin', hrecv, hsome⟩
  · rintro ⟨h1, h2, hsome⟩
    have hlt' : ∀ b ∈ bs, b ≠ [] ∧ b.length < buffSize := fun b hb =>
      ⟨(hbs b hb).1, lt_of_le_of_ne (hbs b hb).2 ((recvAll_isSome_iff hbs t).1 hsome b hb)⟩
    exact ⟨⟨s₁, hloop, by rw [hin, h1]⟩, by rw [recvAll_of_lt hlt', h2], rfl, hsome⟩

/-- One chunk each, without NUL. -/
theorem receiving_iff_text :
    ((∃ s', loop (fun _ => .error .pending) (TcpServer.recver.turn 1) TcpServer.oneClient
          ([.bytes [97]] ++ [.fail .EAGAIN]) = .ok (s', true) ∧
        (s'.heap 1).map Connection.inBuffer = some ([] ++ received [.bytes [97]])) ∧
      recvAll [98] [[99]] = some ([98] ++ [[99]].flatten) ∧
      (readAll (List.replicate 10240 0) [] (chunks [.bytes [97]])).isSome ∧
      (recvAll [98] [[99]]).isSome) ↔
    0 ∉ received [.bytes [97]] ∧ (0 : UInt8) ∉ ([[99]] : List Bytes).flatten ∧
      ∀ b ∈ ([[99]] : List Bytes), b.length ≠ buffSize :=
  receiving_iff (c := TcpServer.newClient 5) rfl rfl rfl
    (fun a ha => Or.inr ⟨[97], List.mem_singleton.1 ha, by decide, by decide⟩) rfl
    List.length_replicate (fun b hb => by rw [List.mem_singleton.1 hb]; decide) [98]

/-- A NUL ends what is appended, in `Recver` and in `Recv`, and 1024 bytes are one too many for the
array of `Recv`. -/
theorem receiving_not_exact :
    (∃ s', loop (fun _ => .error .pending) (TcpServer.recver.turn 1) TcpServer.oneClient
        [.bytes [97, 0, 98], .fail .EAGAIN] = .ok (s', true) ∧
      (s'.heap 1).map Connection.inBuffer = some [97]) ∧
    recvAll [] [[97, 0, 98]] = some [97] ∧ recvAll [] [List.replicate 1024 97] = none := by
  refine ⟨⟨_, TcpServer.recver_loop (c := TcpServer.newClient 5) rfl rfl rfl _, rfl⟩, rfl, ?_⟩
  have hlen : (List.replicate 1024 (97 : UInt8)).length = buffSize := List.length_replicate
  rw [← Option.not_isSome_iff_eq_none]
  refine fun h => (recvAll_isSome_iff ?_ []).1 h _ (List.mem_singleton_self _) hlen
  intro b hb
  rw [List.mem_singleton.1 hb]
  exact ⟨List.ne_nil_of_length_pos (by rw [hlen]; decide), hlen.le⟩

end NetProg.Reactor
