import NetProg.Chat.UdpServer

/-!
# Who is in the room and what they are told

A key determines the endpoint that it is made from, so `_map` has one entry for each endpoint seen,
in every run (`keys_identify`).

The room is what the server is for: everybody who has sent a datagram is in it, and every datagram
is told to everybody in it, under the name of its sender. `Room` says that `_map` is the room and
that `buff_message` was used inside its bounds, `Told` that a turn did what its outcome asks for.

The server keeps this in the turns that `Text` allows, and in no others (`correct_iff`): a datagram
was received, and the array holds it as a C string.
-/

namespace NetProg.Chat

open NetProg.Lib

/-! ### Keys -/

theorem length_key_text (peer : SockaddrIn) :
    (inetNtoa peer.sinAddr ++ 45 :: decimal peer.sinPort.toNat).length < 128 := by
  have haddr := length_inetNtoa_le peer.sinAddr
  have hport : (decimal peer.sinPort.toNat).length ≤ 5 :=
    length_decimal_le (by omega) (peer.sinPort.toNat_lt.trans (by omega))
  rw [List.length_append, List.length_cons]
  omega

/-- The text of a key is not cut. -/
theorem key_eq (peer : SockaddrIn) :
    key peer = inetNtoa peer.sinAddr ++ 45 :: decimal peer.sinPort.toNat := by
  apply List.take_of_length_le
  exact Nat.le_pred_of_lt (length_key_text peer)

theorem key_injective {a b : SockaddrIn} (h : key a = key b) : a = b := by
  have hminus : ∀ t : Bytes, ∀ c ∈ (45 :: t).head?, isDigit c = false := by
    intro t c hc
    obtain rfl : 45 = c := Option.some.inj hc
    rfl
  rw [key_eq, key_eq] at h
  obtain ⟨haddr, hport⟩ := inetNtoa_append_inj (hminus _) (hminus _) h
  have hport := decimal_injective (List.cons.inj hport).2
  cases a
  cases b
  simp only [SockaddrIn.mk.injEq]
  exact ⟨haddr, UInt16.toNat_inj.1 hport⟩

/-! ### The map -/

/-- The variable `peer` after `recvfrom`. -/
def Outcome.peer : Outcome → SockaddrIn
  | .fail => ⟨⟨0, 0, 0, 0⟩, 0⟩
  | .datagram peer _ _ => peer

/-- `_map` holds each of these addresses once, under its key. -/
structure Keyed (peers : List SockaddrIn) (map : List Entry) : Prop where
  entry : ∀ k a, (k, a) ∈ map ↔ k = key a ∧ a ∈ peers
  keys : (map.map Prod.fst).Nodup

section Keyed

variable {peers : List SockaddrIn} {map : List Entry} (h : Keyed peers map) (peer : SockaddrIn)

include h

theorem Keyed.lookup_eq_none : map.lookup (key peer) = none ↔ peer ∉ peers := by
  rw [List.lookup_eq_none_iff]
  constructor
  · intro hnone hpeer
    simpa using hnone _ ((h.entry _ peer).2 ⟨rfl, hpeer⟩)
  · rintro hpeer ⟨k, a⟩ he
    obtain ⟨rfl, ha⟩ := (h.entry k a).1 he
    simp only [bne_iff_ne]
    intro hkey
    exact hpeer (key_injective hkey ▸ ha)

theorem Keyed.join : Keyed (peers ++ [peer]) (UdpServer.join map (key peer) peer) := by
  unfold UdpServer.join
  split
  · rename_i hnone
    refine ⟨fun k a => ?_, ?_⟩
    · simp only [List.mem_append, List.mem_singleton, h.entry, Prod.mk.injEq]
      constructor
      · rintro (⟨hk, ha⟩ | ⟨hk, rfl⟩)
        · exact ⟨hk, Or.inl ha⟩
        · exact ⟨hk, Or.inr rfl⟩
      · rintro ⟨hk, ha | rfl⟩
        · exact Or.inl ⟨hk, ha⟩
        · exact Or.inr ⟨hk, rfl⟩
    · rw [List.map_append, List.map_singleton, List.nodup_append]
      refine ⟨h.keys, List.nodup_singleton _, ?_⟩
      rintro k hk k' hk' rfl
      obtain rfl := List.mem_singleton.1 hk'
      obtain ⟨⟨k, a⟩, he, hka⟩ := List.mem_map.1 hk
      have hne : ¬ key peer = k := by simpa using List.lookup_eq_none_iff.1 hnone (k, a) he
      exact hne hka.symm
  · rename_i hfound
    have hpeer : peer ∈ peers := by
      by_contra hnot
      exact hfound ((h.lookup_eq_none peer).2 hnot)
    refine ⟨fun k a => ?_, h.keys⟩
    rw [h.entry, List.mem_append, List.mem_singleton]
    constructor
    · exact fun ⟨hk, ha⟩ => ⟨hk, Or.inl ha⟩
    · rintro ⟨hk, ha | rfl⟩
      · exact ⟨hk, ha⟩
      · exact ⟨hk, hpeer⟩

theorem Keyed.addresses : (map.map Prod.snd).Nodup := by
  have hkeys : map.map Prod.fst = (map.map Prod.snd).map key := by
    rw [List.map_map]
    exact List.map_congr_left fun e he => ((h.entry e.1 e.2).1 he).1
  have := h.keys
  rw [hkeys] at this
  exact this.of_map

end Keyed

theorem UdpServer.start_concat (buff : Buff) (t : List (Outcome × Walk)) (i : Outcome × Walk) :
    start buff (t ++ [i]) = (start buff t).turn i.1 i.2 := by
  simp [start]

theorem UdpServer.turn_map (s : UdpServer) (o : Outcome) (w : Walk) :
    (s.turn o w).map = join s.map (key o.peer) o.peer := by
  cases o <;> rfl

/-- **The map in every run.** -/
theorem UdpServer.keyed_start (buff : Buff) (turns : List (Outcome × Walk)) :
    Keyed (turns.map fun i => i.1.peer) (start buff turns).map := by
  induction turns using List.reverseRecOn with
  | nil => exact ⟨by simp [start, init], List.nodup_nil⟩
  | append_singleton t i ih =>
    rw [start_concat, turn_map, List.map_append]
    exact ih.join i.1.peer

/-- **Keys identify endpoints.** The text of a key is not cut, and determines the address and the
port; in every run, whatever `recvfrom` gives, the map has one entry for each endpoint that was
seen, under its key. -/
theorem keys_identify :
    (∀ (a : InAddr) (p : UInt16), (inetNtoa a ++ 45 :: decimal p.toNat).length < 128 ∧
      key ⟨a, p⟩ = inetNtoa a ++ 45 :: decimal p.toNat) ∧
    (∀ (a b : InAddr) (p q : UInt16), key ⟨a, p⟩ = key ⟨b, q⟩ ↔ a = b ∧ p = q) ∧
    ∀ (buff : Buff) (turns : List (Outcome × Walk)),
      Keyed (turns.map fun i => i.1.peer) (UdpServer.start buff turns).map ∧
        ((UdpServer.start buff turns).map.map Prod.snd).Nodup := by
  refine ⟨fun a p => ⟨length_key_text ⟨a, p⟩, key_eq ⟨a, p⟩⟩, fun a b p q => ⟨fun h => ?_, ?_⟩,
    fun buff turns => ?_⟩
  · exact SockaddrIn.mk.inj (key_injective h)
  · rintro ⟨rfl, rfl⟩
    rfl
  · exact ⟨UdpServer.keyed_start buff turns, (UdpServer.keyed_start buff turns).addresses⟩

/-! ### The room -/

def Outcome.sender : Outcome → Option SockaddrIn
  | .fail => none
  | .datagram peer _ _ => some peer

/-- Everybody who has sent a datagram. -/
def senders (os : List Outcome) : List SockaddrIn := os.filterMap Outcome.sender

/-- What everybody is told when `peer` has sent `bytes`. -/
def line (peer : SockaddrIn) (bytes : Bytes) : Bytes :=
  inetNtoa peer.sinAddr ++ 45 :: (decimal peer.sinPort.toNat ++ 35 :: 32 :: bytes)

/-- `_map` holds each sender once, under its key. -/
structure Room (os : List Outcome) (s : UdpServer) : Prop where
  entry : ∀ k a, (k, a) ∈ s.map ↔ k = key a ∧ a ∈ senders os
  keys : (s.map.map Prod.fst).Nodup
  inside : ∀ i ∈ s.indexed, 0 ≤ i ∧ i < BUFF_SIZE

/-- What a turn from `s` to `s'` has to do. -/
def Told (s s' : UdpServer) : Outcome → Prop
  | .fail => s'.map = s.map ∧ s'.sent = s.sent
  | .datagram peer bytes _ => ∃ calls, s'.sent = s.sent ++ calls ∧
      (calls.map Prod.fst).Perm (s'.map.map Prod.snd) ∧ ∀ c ∈ calls, c.2 = line peer bytes

/-- The server does what it is for, in every turn. -/
def Correct (buff : Buff) (turns : List (Outcome × Walk)) : Prop :=
  ∀ t i u, turns = t ++ i :: u →
    Room ((t ++ [i]).map Prod.fst) (UdpServer.start buff (t ++ [i])) ∧
      Told (UdpServer.start buff t) (UdpServer.start buff (t ++ [i])) i.1

/-- A datagram was received, and it is a text. -/
def Outcome.Text : Outcome → Prop
  | .fail => False
  | .datagram _ bytes _ => 0 ∉ bytes

/-! ### A turn that received a datagram -/

theorem cStr_store (b : Buff) {bytes : Bytes} (h : bytes.length < BUFF_SIZE) :
    cStr ((b.fill bytes h).store bytes.length 0).bytes = cStr bytes := by
  obtain ⟨x, rest, hx⟩ := List.exists_cons_of_ne_nil (l := b.bytes.drop bytes.length) (by
    rw [ne_eq, List.drop_eq_nil_iff, b.size]
    omega)
  simp only [Buff.store, Buff.fill, Int.natCast_nonneg, if_true, Int.toNat_natCast]
  rw [List.set_append_right _ _ le_rfl, Nat.sub_self, hx, List.set_cons_zero, cStr_append_zero]

namespace UdpServer

variable {s : UdpServer} {peer : SockaddrIn} {bytes : Bytes} {h : bytes.length < BUFF_SIZE}
  {w : Walk} {os : List Outcome}

theorem turn_datagram : s.turn (.datagram peer bytes h) w =
    { buffMessage := (s.buffMessage.fill bytes h).store bytes.length 0
      map := join s.map (key peer) peer
      sent := s.sent ++ (w.visit (join s.map (key peer) peer)).map fun iter =>
        (iter.2, key peer ++ 35 :: 32 :: cStr bytes)
      indexed := s.indexed ++ (bytes.length : ℤ) ::
        (w.visit (join s.map (key peer) peer)).map fun _ => ((cStr bytes).length : ℤ) } := by
  simp only [turn, recvfrom, sendMessage, cStr_store]

theorem join_ne_nil (map : List Entry) (key : Bytes) (peer : SockaddrIn) :
    join map key peer ≠ [] := by
  unfold join
  split
  · simp
  · rename_i hne
    rintro rfl
    exact hne rfl

end UdpServer

theorem line_eq (peer : SockaddrIn) (bytes : Bytes) :
    line peer bytes = key peer ++ 35 :: 32 :: bytes := by
  simp [line, key_eq]

/-- **What a turn with a text does.** -/
theorem told_turn (s : UdpServer) (w : Walk) {o : Outcome} (ho : o.Text) :
    Told s (s.turn o w) o := by
  cases o with
  | fail => exact ho.elim
  | datagram peer bytes h =>
    rw [UdpServer.turn_datagram, cStr_of_free ho]
    refine ⟨_, rfl, ?_, ?_⟩
    · rw [List.map_map]
      exact (w.perm _).map _
    · intro c hc
      obtain ⟨e, -, rfl⟩ := List.mem_map.1 hc
      exact (line_eq peer bytes).symm

/-- A turn with a datagram that is no text tells nobody what was sent. -/
theorem text_of_told {s : UdpServer} {w : Walk} {peer : SockaddrIn} {bytes : Bytes}
    {h : bytes.length < BUFF_SIZE}
    (ht : Told s (s.turn (.datagram peer bytes h) w) (.datagram peer bytes h)) : 0 ∉ bytes := by
  rw [UdpServer.turn_datagram] at ht
  obtain ⟨calls, hcalls, -, hline⟩ := ht
  have hperm : (w.visit (UdpServer.join s.map (key peer) peer)).Perm _ := w.perm _
  have hne : w.visit (UdpServer.join s.map (key peer) peer) ≠ [] := by
    intro hnil
    rw [hnil] at hperm
    exact UdpServer.join_ne_nil _ _ _ hperm.nil_eq.symm
  -- somebody is told, and not what was sent
  obtain ⟨e, he⟩ := List.exists_mem_of_ne_nil _ hne
  have hcalls := List.append_cancel_left hcalls
  have htext := hline (e.2, key peer ++ 35 :: 32 :: cStr bytes)
    (hcalls ▸ List.mem_map.2 ⟨e, he, rfl⟩)
  rw [line_eq] at htext
  have hbytes : cStr bytes = bytes := by simpa using htext
  exact hbytes ▸ zero_not_mem_cStr bytes

/-! ### The room along a run -/

section Room

variable {os : List Outcome} {s : UdpServer} {peer : SockaddrIn} {o : Outcome}

/-- **A turn with a text keeps the room.** -/
theorem Room.turn (hroom : Room os s) (w : Walk) (ho : o.Text) :
    Room (os ++ [o]) (s.turn o w) := by
  cases o with
  | fail => exact ho.elim
  | datagram peer bytes h =>
    rw [UdpServer.turn_datagram]
    have hkeyed : Keyed (senders os) s.map := ⟨hroom.entry, hroom.keys⟩
    have hsenders : senders (os ++ [.datagram peer bytes h]) = senders os ++ [peer] := by
      simp [senders, Outcome.sender]
    refine ⟨hsenders ▸ (hkeyed.join peer).entry, (hkeyed.join peer).keys, fun i hi => ?_⟩
    · rcases List.mem_append.1 hi with hi | hi
      · exact hroom.inside i hi
      · rcases List.mem_cons.1 hi with rfl | hi
        · omega
        · obtain ⟨-, -, rfl⟩ := List.mem_map.1 hi
          have := cStr_of_free ho
          rw [this]
          omega

end Room

namespace UdpServer

theorem room_start (buff : Buff) {t : List (Outcome × Walk)} (h : ∀ i ∈ t, i.1.Text) :
    Room (t.map Prod.fst) (start buff t) := by
  induction t using List.reverseRecOn with
  | nil => exact ⟨by simp [start, init, senders], List.nodup_nil, by simp [start, init]⟩
  | append_singleton t i ih =>
    rw [start_concat, List.map_append]
    exact (ih fun j hj => h j (List.mem_append_left _ hj)).turn i.2 (h i (by simp))

end UdpServer

/-! ### When the server is correct -/

theorem Correct.text {buff : Buff} {turns : List (Outcome × Walk)} (h : Correct buff turns)
    {i : Outcome × Walk} (hi : i ∈ turns) : i.1.Text := by
  obtain ⟨t, u, rfl⟩ := List.append_of_mem hi
  obtain ⟨hroom, htold⟩ := h t i u rfl
  rw [UdpServer.start_concat] at hroom htold
  obtain ⟨o, w⟩ := i
  cases o with
  | fail =>
    have := hroom.inside (-1) (by simp [UdpServer.turn, UdpServer.recvfrom])
    omega
  | datagram peer bytes hlt => exact text_of_told htold

/-- **The server keeps the room and tells everybody in it what was sent, in every run in which no
`recvfrom` fails and no datagram has a NUL in it, and in no other.** -/
theorem correct_iff (buff : Buff) (turns : List (Outcome × Walk)) :
    Correct buff turns ↔ ∀ i ∈ turns, i.1.Text := by
  constructor
  · exact fun h i hi => h.text hi
  · rintro h t i u rfl
    have ht : ∀ j ∈ t ++ [i], j.1.Text := fun j hj => h j (by
      rw [show t ++ i :: u = t ++ [i] ++ u by simp]
      exact List.mem_append_left u hj)
    refine ⟨UdpServer.room_start buff ht, ?_⟩
    rw [UdpServer.start_concat]
    exact told_turn _ _ (ht i (by simp))

/-- After "hi" from 1.2.3.4:80 a call of `recvfrom` fails: `buff_message[-1]` is written, 0.0.0.0:0
joins and "hi" is told again, as its words. -/
theorem chat_not_correct : ∃ turns : List (Outcome × Walk),
    turns = [(.datagram ⟨⟨1, 2, 3, 4⟩, 80⟩ [104, 105] (by decide), ⟨id, fun m => .refl m⟩),
      (.fail, ⟨id, fun m => .refl m⟩)] ∧
    ¬ Correct ⟨List.replicate BUFF_SIZE 0, List.length_replicate⟩ turns ∧
    (UdpServer.start ⟨List.replicate BUFF_SIZE 0, List.length_replicate⟩ turns).indexed =
      [2, 2, -1, 2, 2] ∧
    (UdpServer.start ⟨List.replicate BUFF_SIZE 0, List.length_replicate⟩ turns).map.map Prod.snd =
      [⟨⟨1, 2, 3, 4⟩, 80⟩, ⟨⟨0, 0, 0, 0⟩, 0⟩] ∧
    (⟨⟨1, 2, 3, 4⟩, 80⟩, line ⟨⟨0, 0, 0, 0⟩, 0⟩ [104, 105]) ∈
      (UdpServer.start ⟨List.replicate BUFF_SIZE 0, List.length_replicate⟩ turns).sent := by
  refine ⟨_, rfl, fun h => ?_, ?_, ?_, ?_⟩
  · exact h.text (i := (.fail, ⟨id, fun m => .refl m⟩)) (by simp)
  · decide +kernel
  · decide +kernel
  · decide +kernel

end NetProg.Chat
