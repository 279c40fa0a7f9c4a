import NetProg.Reactor.Dispatch

/-!
# Leftover memory in a reply

`NetCal` declares `Request req;`, whose constructor sets nothing, and ignores what `deserialize`
returns. On a payload with fewer than two spaces the calculation then runs on whatever the stack
held. Two runs that differ only in that memory are compared.

* `deserialize_of_two`, `deserialize_of_few`: on which payloads the fields are assigned;
* `netCal_indep_iff`: the reply depends on the payload alone exactly on those.
-/

namespace NetProg.Reactor

open NetProg.Lib

/-! ### What `deserialize` assigns -/

theorem space_infix_iff {s : Bytes} : SPACE <:+: s ↔ 32 ∈ s := by
  constructor
  · exact fun h => h.subset (List.mem_singleton_self _)
  · intro h
    obtain ⟨u, v, rfl⟩ := List.append_of_mem h
    exact ⟨u, v, by simp [SPACE]⟩

theorem exists_find_space {s : Bytes} (h : 32 ∈ s) : ∃ X t : Bytes, s = X ++ (SPACE ++ t) ∧
    find SPACE s = some X.length ∧ s.count 32 = 1 + t.count 32 ∧
      (rfind SPACE s = some X.length ↔ 32 ∉ t) := by
  obtain ⟨i, hi⟩ : ∃ i, find SPACE s = some i := by
    cases hf : find SPACE s with
    | none => exact absurd (space_infix_iff.2 h) (find_eq_none.1 hf)
    | some i => exact ⟨i, rfl⟩
  obtain ⟨X, t, rfl, rfl, -⟩ := find_split hi
  have hX : 32 ∉ X := fun hx => find_free (by decide) hi (space_infix_iff.2 hx)
  refine ⟨X, t, rfl, hi, ?_, fun hr ht => ?_, fun ht => rfind_space ht X⟩
  · rw [List.count_append, List.count_eq_zero_of_not_mem hX]
    simp [SPACE, Nat.add_comm]
  · obtain ⟨j, hj⟩ : ∃ j, rfind SPACE t = some j := by
      cases hf : rfind SPACE t with
      | none => exact absurd (space_infix_iff.2 ht) (rfind_eq_none.1 hf)
      | some j => exact ⟨j, rfl⟩
    have h2 := rfind_append_left hj (X ++ SPACE)
    rw [List.append_assoc, hr, Option.some.injEq, List.length_append] at h2
    have : SPACE.length = 1 := rfl
    omega

/-- **With two spaces every field is assigned.** -/
theorem deserialize_of_two {s : Bytes} (h : 2 ≤ s.count 32) :
    ∃ r, ∀ left : Request, left.deserialize s = (true, r) := by
  obtain ⟨X, t, -, hfind, hcount, hr⟩ :=
    exists_find_space (List.count_pos_iff.1 (by omega : 0 < s.count 32))
  have ht : 32 ∈ t := List.count_pos_iff.1 (by omega)
  have hne : ¬ rfind SPACE s = some X.length := fun hc => hr.1 hc ht
  unfold Request.deserialize
  simp only [hfind, if_neg hne]
  exact ⟨_, fun _ => rfl⟩

/-- **With fewer none is**, and the status returned is `false`. -/
theorem deserialize_of_few {s : Bytes} (h : s.count 32 < 2) (left : Request) :
    left.deserialize s = (false, left) := by
  by_cases hs : 32 ∈ s
  · obtain ⟨X, t, -, hfind, hcount, hr⟩ := exists_find_space hs
    have ht : 32 ∉ t := List.count_eq_zero.1 (by omega)
    unfold Request.deserialize
    simp only [hfind, if_pos (hr.2 ht)]
  · have hfind : find SPACE s = none := find_eq_none.2 fun hc => hs (space_infix_iff.1 hc)
    unfold Request.deserialize
    simp only [hfind]

/-! ### The reply -/

theorem netCal_congr {m : Bytes} (h : 2 ≤ m.count 32) (s : TcpServer) (p : Ptr)
    (left left' : Request) : s.netCal left p m = s.netCal left' p m := by
  obtain ⟨r, hr⟩ := deserialize_of_two h
  unfold TcpServer.netCal
  rw [hr left, hr left']

/-- One and one in the memory, or two and two, make different replies. -/
theorem netCal_few_ne {s : TcpServer} {p : Ptr} {c : Connection} (hc : s.heap p = some c)
    (hreg : s.epoll c.sock ≠ none) {m : Bytes} (h : m.count 32 < 2) :
    s.netCal ⟨1, 1, 43⟩ p m ≠ s.netCal ⟨2, 2, 43⟩ p m := by
  intro heq
  have h1 : TcpServer.reply ⟨1, 1, 43⟩ m = .ok [51, 13, 10, 48, 32, 50, 13, 10] := by
    unfold TcpServer.reply
    rw [deserialize_of_few h]
    rfl
  have h2 : TcpServer.reply ⟨2, 2, 43⟩ m = .ok [51, 13, 10, 48, 32, 52, 13, 10] := by
    unfold TcpServer.reply
    rw [deserialize_of_few h]
    rfl
  rw [TcpServer.netCal_eq hc hreg, TcpServer.netCal_eq hc hreg, h1, h2] at heq
  have hheap := congrArg (fun s' => (s'.heap p).map Connection.outBuffer) (Except.ok.inj heq)
  simp [TcpServer.setOut] at hheap

/-- **When a reply depends on the payload alone.** On a live connection `NetCal` does the same for
any two contents of the memory it finds exactly when the payload has at least two spaces. -/
theorem netCal_indep_iff {s : TcpServer} {p : Ptr} {c : Connection} (hc : s.heap p = some c)
    (hreg : s.epoll c.sock ≠ none) (m : Bytes) :
    (∀ left left' : Request, s.netCal left p m = s.netCal left' p m) ↔ 2 ≤ m.count 32 := by
  refine ⟨fun h => ?_, fun h left left' => netCal_congr h s p left left'⟩
  by_contra hfew
  exact netCal_few_ne hc hreg (by omega) (h ⟨1, 1, 43⟩ ⟨2, 2, 43⟩)

/-- A payload with two spaces. -/
theorem netCal_indep_iff_request :
    (∀ left left' : Request, TcpServer.oneClient.netCal left 1 [49, 32, 43, 32, 49] =
      TcpServer.oneClient.netCal left' 1 [49, 32, 43, 32, 49]) ↔
    2 ≤ ([49, 32, 43, 32, 49] : Bytes).count 32 :=
  netCal_indep_iff (c := TcpServer.newClient 5) rfl (Option.some_ne_none _) _

/-- The payload `"x"` is answered with `2` or with `4`, as the memory may be. -/
theorem netCal_not_indep :
    ¬ ∀ (m : Bytes) (left left' : Request),
      TcpServer.oneClient.netCal left 1 m = TcpServer.oneClient.netCal left' 1 m := fun h =>
  netCal_few_ne (c := TcpServer.newClient 5) rfl (Option.some_ne_none _) (by decide)
    (h [120] ⟨1, 1, 43⟩ ⟨2, 2, 43⟩)

end NetProg.Reactor
