import NetProg.Chat.Room
import NetProg.Chat.UdpClient
import NetProg.Lib.Runs

/-!
# Everybody is told the same

The server tells what it has heard to everybody in one order. A client is in the room from its first
message on, so what is sent to it is the end of that order, each text once (`InOrder.sentTo`). What
its screen shows are texts of it, and if the network keeps the order, they stand in that order
(`one_order`). A server whose `recvfrom` has failed tells what it heard last once more, under
another name.
-/

namespace NetProg.Chat

open NetProg.Lib Function

/-- What `sendto` is called with for a message. -/
def tell (m : SockaddrIn × Bytes) : Bytes := line m.1 (cStr (m.2.take (BUFF_SIZE - 1)))

/-- What a screen shows of it. -/
def seen (m : SockaddrIn × Bytes) : Bytes := (line m.1 (cStr m.2)).take (BUFF_SIZE - 1)

/-- What was heard from the first message of `b` on. -/
def since (b : SockaddrIn) (heard : List (SockaddrIn × Bytes)) : List (SockaddrIn × Bytes) :=
  heard.dropWhile fun m => m.1 ≠ b

/-! ### Texts -/

theorem zero_not_mem_key (peer : SockaddrIn) : 0 ∉ key peer := by
  have hdigit : ∀ n, (0 : UInt8) ∉ decimal n := fun n h =>
    absurd (isDigit_of_mem_decimal h) (by decide)
  rw [key_eq]
  simp [inetNtoa, hdigit]

/-- **What a screen shows of a text of the server.** -/
theorem cStr_take_tell (m : SockaddrIn × Bytes) :
    cStr ((tell m).take (BUFF_SIZE - 1)) = seen m := by
  have hfree : 0 ∉ tell m := by
    rw [tell, line_eq]
    simp [zero_not_mem_key, zero_not_mem_cStr]
  rw [cStr_take, cStr_of_free hfree, tell, seen, cStr_take, line_eq, line_eq]
  -- the second cut is in front of the first one
  have hcut : ∀ k t : Bytes, (k ++ t.take (BUFF_SIZE - 1)).take (BUFF_SIZE - 1) =
      (k ++ t).take (BUFF_SIZE - 1) := by
    intro k t
    rw [List.take_append, List.take_append, List.take_take, min_eq_left (Nat.sub_le _ _)]
  have hkey : ∀ t : Bytes, key m.1 ++ 35 :: 32 :: t = (key m.1 ++ [35, 32]) ++ t := fun t => by simp
  exact (congrArg _ (hkey _)).trans ((hcut _ _).trans (congrArg _ (hkey _).symm))

theorem tell_ne_nil (m : SockaddrIn × Bytes) : tell m ≠ [] := by
  simp [tell, line]

/-- A message is seen in full when it is a text, and short enough. -/
theorem seen_eq_iff (m : SockaddrIn × Bytes) :
    seen m = line m.1 m.2 ↔ 0 ∉ m.2 ∧ (line m.1 m.2).length < BUFF_SIZE := by
  have hkey : ∀ t : Bytes, line m.1 t = (key m.1 ++ [35, 32]) ++ t := fun t => by simp [line_eq]
  rw [seen, hkey, hkey]
  exact snprintf_cStr_eq_iff (by decide) _ _

/-! ### What is sent to a client -/

/-- What the server has told, and what the screens show of it. -/
structure InOrder (y : System) : Prop where
  keyed : Keyed (y.heard.map Prod.fst) y.server.map
  /-- a client is sent everything from its first message on -/
  sentTo : ∀ b, y.server.sentTo b = (since b y.heard).map tell
  cout : ∀ b, List.Forall₂ (fun i text => ((since b y.heard)[i]?).map seen = some text)
    (y.client b).got (y.client b).cout

/-- What holds in every state. -/
structure Kept (input : SockaddrIn → Bytes) (y : System) : Prop where
  typed : ∀ a, Typed (input a) (y.client a).cin (y.client a).message (y.client a).said
  said : ∀ m ∈ y.heard, m.2 ∈ (y.client m.1).said
  order : y.failures = 0 → InOrder y

theorem since_concat (b : SockaddrIn) (heard : List (SockaddrIn × Bytes)) (m : SockaddrIn × Bytes) :
    since b (heard ++ [m]) =
      if b ∈ (heard ++ [m]).map Prod.fst then since b heard ++ [m] else since b heard := by
  have hnil : since b heard = [] ↔ b ∉ heard.map Prod.fst := by
    simp only [since, List.dropWhile_eq_nil_iff, List.mem_map, not_exists, not_and,
      decide_eq_true_eq]
  have hmem : b ∈ (heard ++ [m]).map Prod.fst ↔ b ∈ heard.map Prod.fst ∨ b = m.1 := by simp
  simp only [hmem]
  by_cases hb : b ∈ heard.map Prod.fst
  · have hne : since b heard ≠ [] := fun h => hnil.1 h hb
    rw [if_pos (Or.inl hb)]
    unfold since at hne ⊢
    rw [List.dropWhile_append, if_neg (by simpa using hne)]
  · have hempty : since b heard = [] := hnil.2 hb
    rw [hempty]
    unfold since at hempty ⊢
    rw [List.dropWhile_append, hempty, List.isEmpty_nil, if_pos rfl]
    by_cases hm : b = m.1
    · rw [if_pos (Or.inr hm)]
      simp [hm]
    · rw [if_neg (fun h => h.elim hb hm)]
      simp [Ne.symm hm]

theorem map_filter_entries (entries : List Entry) (text : Bytes) (b : SockaddrIn) :
    ((entries.map fun iter => (iter.2, text)).filter fun call => call.1 = b).map Prod.snd =
      List.replicate ((entries.map Prod.snd).count b) text := by
  induction entries with
  | nil => rfl
  | cons e entries ih =>
    by_cases he : e.2 = b
    · simpa [he, List.replicate_succ] using ih
    · simpa [he] using ih

theorem sentTo_turn {s : UdpServer} {peers : List SockaddrIn} (h : Keyed peers s.map)
    (a : SockaddrIn) {bytes : Bytes} (hlen : bytes.length < BUFF_SIZE) (w : Walk) (b : SockaddrIn) :
    (s.turn (.datagram a bytes hlen) w).sentTo b =
      if b ∈ peers ++ [a] then s.sentTo b ++ [line a (cStr bytes)] else s.sentTo b := by
  have hjoin := h.join a
  set map := UdpServer.join s.map (key a) a with hmap
  have hperm : ((w.visit map).map Prod.snd).Perm (map.map Prod.snd) := (w.perm map).map _
  have hmem : b ∈ map.map Prod.snd ↔ b ∈ peers ++ [a] := by
    constructor
    · intro hb
      obtain ⟨e, he, rfl⟩ := List.mem_map.1 hb
      exact ((hjoin.entry e.1 e.2).1 he).2
    · exact fun hb => List.mem_map.2 ⟨(key b, b), (hjoin.entry _ _).2 ⟨rfl, hb⟩, rfl⟩
  have hcount : ((w.visit map).map Prod.snd).count b = if b ∈ peers ++ [a] then 1 else 0 := by
    rw [hperm.count_eq, hjoin.addresses.count, if_congr hmem rfl rfl]
  rw [UdpServer.turn_datagram, ← hmap, line_eq]
  unfold UdpServer.sentTo
  simp only [List.filter_append, List.map_append, map_filter_entries, hcount]
  split <;> simp

/-! ### Every run -/

section Kept

variable {input : SockaddrIn → Bytes} {y y' : System}

theorem Kept.init (h : System.Init input y) : Kept input y := by
  obtain ⟨⟨buff, hserver⟩, hheard, hclient, -⟩ := h
  refine ⟨fun a => ?_, ?_, fun _ => ⟨?_, fun b => ?_, fun b => ?_⟩⟩
  · rw [hclient]
    exact Typed.start _ _
  · rw [hheard]
    exact fun m hm => absurd hm List.not_mem_nil
  · rw [hserver, hheard]
    exact ⟨by simp [UdpServer.init], List.nodup_nil⟩
  · rw [hserver, hheard]
    rfl
  · rw [hclient]
    exact .nil

theorem Client.out_said (c : Client) : c.out.said = c.said ++ [c.out.message] := rfl

/-- **The server hears a message**, and tells it. -/
theorem InOrder.serve (h : InOrder y) (a : SockaddrIn) (message : Bytes) (w : Walk) :
    InOrder { y with
      server := y.server.turn
        (.datagram a (message.take (BUFF_SIZE - 1)) (length_take_lt message)) w
      heard := y.heard ++ [(a, message)] } := by
  have hsince : ∀ b, since b (y.heard ++ [(a, message)]) =
      if b ∈ y.heard.map Prod.fst ++ [a] then since b y.heard ++ [(a, message)]
        else since b y.heard := by
    intro b
    rw [since_concat, List.map_append, List.map_singleton]
  refine ⟨?_, fun b => ?_, fun b => ?_⟩
  · rw [UdpServer.turn_map, List.map_append]
    exact h.keyed.join a
  · rw [sentTo_turn h.keyed, hsince, h.sentTo b]
    split
    · rw [List.map_append, List.map_singleton, tell]
    · rfl
  · -- what was sent to a client before stands at the same place
    refine (h.cout b).imp fun i text hi => ?_
    obtain ⟨e, he, rfl⟩ := Option.map_eq_some_iff.1 hi
    have hlt : i < (since b y.heard).length := (List.getElem?_eq_some_iff.1 he).1
    rw [hsince]
    split
    · rw [List.getElem?_append_left hlt, he]
      rfl
    · exact hi

/-- **A client shows a text** that was sent to it. -/
theorem InOrder.shows (h : InOrder y) {b : SockaddrIn} {i : ℕ} {datagram : Bytes}
    (hd : (y.server.sentTo b)[i]? = some datagram) :
    InOrder { y with client := update y.client b ((y.client b).inTurn i datagram) } := by
  rw [h.sentTo b, List.getElem?_map] at hd
  obtain ⟨e, he, rfl⟩ := Option.map_eq_some_iff.1 hd
  have hpos : 0 < ((tell e).take (BUFF_SIZE - 1)).length := by
    have hne : 0 < (tell e).length := List.length_pos_iff.2 (tell_ne_nil e)
    rw [List.length_take, BUFF_SIZE]
    omega
  have hin : (y.client b).inTurn i (tell e) =
      { y.client b with
        got := (y.client b).got ++ [i]
        cout := (y.client b).cout ++ [seen e] } := by
    simp only [Client.inTurn, if_pos hpos, cStr_take_tell]
  refine ⟨h.keyed, h.sentTo, fun a => ?_⟩
  by_cases ha : a = b
  · subst ha
    simp only [update_self, hin]
    exact List.rel_append (h.cout a) (.cons (by rw [he]; rfl) .nil)
  · simpa only [update_of_ne ha] using h.cout a

theorem Kept.step (h : Kept input y) (hs : System.Step y y') : Kept input y' := by
  cases hs with
  | out a =>
    refine ⟨fun b => ?_, fun m hm => ?_, fun hfail => ?_⟩
    · by_cases hb : b = a
      · subst hb
        simp only [update_self]
        exact (h.typed b).getline
      · simpa only [update_of_ne hb] using h.typed b
    · have hsaid := h.said m hm
      by_cases hb : m.1 = a
      · subst hb
        simp only [update_self, Client.out_said]
        exact List.mem_append_left _ hsaid
      · simpa only [update_of_ne hb] using hsaid
    · obtain ⟨hkeyed, hsent, hcout⟩ := h.order hfail
      refine ⟨hkeyed, hsent, fun b => ?_⟩
      by_cases hb : b = a
      · subst hb
        simp only [update_self]
        exact hcout b
      · simpa only [update_of_ne hb] using hcout b
  | @serve a message hm w =>
    refine ⟨h.typed, fun m hm' => ?_, fun hfail => (h.order hfail).serve a message w⟩
    rcases List.mem_append.1 hm' with hm' | hm'
    · exact h.said m hm'
    · obtain rfl := List.mem_singleton.1 hm'
      exact hm
  | fail w => exact ⟨h.typed, h.said, fun hfail => absurd hfail (Nat.succ_ne_zero _)⟩
  | @shows b i datagram hd =>
    refine ⟨fun a => ?_, fun m hm => ?_, fun hfail => (h.order hfail).shows hd⟩
    · by_cases ha : a = b
      · subst ha
        simp only [update_self]
        exact h.typed a
      · simpa only [update_of_ne ha] using h.typed a
    · have hsaid := h.said m hm
      by_cases ha : m.1 = b
      · subst ha
        simp only [update_self]
        exact hsaid
      · simpa only [update_of_ne ha] using hsaid

theorem Kept.reachable (h : Reachable (System.Init input) System.Step y) : Kept input y :=
  Invariant.reachable ⟨fun _ => Kept.init, fun _ _ => Kept.step⟩ h

end Kept

theorem sublist_of_places {α : Type*} {l xs : List α} {is : List ℕ} {k : ℕ}
    (h : List.Forall₂ (fun i x => l[i]? = some x) is xs) (his : is.Pairwise (· < ·))
    (hk : ∀ i ∈ is, k ≤ i) : xs.Sublist (l.drop k) := by
  induction h generalizing k with
  | nil => exact List.nil_sublist _
  | @cons i x is xs hi _ ih =>
    rw [List.pairwise_cons] at his
    obtain ⟨hlt, rfl⟩ := List.getElem?_eq_some_iff.1 hi
    have hrest : xs.Sublist (l.drop (i + 1)) := ih his.2 fun j hj => his.1 j hj
    have hsub : (l.drop i).Sublist (l.drop k) :=
      List.drop_sublist_drop_left l (hk i List.mem_cons_self)
    rw [List.drop_eq_getElem_cons hlt] at hsub
    exact (hrest.cons_cons _).trans hsub

theorem prefix_of_places {α : Type*} {l xs : List α} {is : List ℕ}
    (h : List.Forall₂ (fun i x => l[i]? = some x) is xs) (his : is = List.range is.length) :
    xs <+: l := by
  obtain ⟨hlen, hget⟩ := List.forall₂_iff_get.1 h
  rw [List.prefix_iff_getElem?]
  intro i hi
  have hi' : i < is.length := hlen ▸ hi
  have hat : is.get ⟨i, hi'⟩ = i := by
    rw [List.get_eq_getElem, List.getElem_of_eq his, List.getElem_range]
  have hx := hget i hi' hi
  rwa [hat] at hx

/-- **One order for all.** In every run, whatever the network loses, repeats or reorders: a client
says its lines, and behind the end of its input the last one again and again; the server hears only
what was said. While no `recvfrom` of the server has failed: a client is sent everything that is
heard from its own first message on, once and in that order, which is the same for all clients, and
its screen shows nothing else. The screen shows it in that order if the network keeps it, and
without a gap if it loses nothing. A message is seen in full when it is a text, and has room behind
the name of its sender. -/
theorem one_order {input : SockaddrIn → Bytes} {y : System}
    (h : Reachable (System.Init input) System.Step y) :
    (∀ a, ∃ k, (y.client a).said <+:
      (input a).splitOn 10 ++ List.replicate k (lastLine (input a))) ∧
    (∀ m ∈ y.heard, m.2 ∈ (y.client m.1).said) ∧
    (y.failures = 0 → ∀ b, since b y.heard <:+ y.heard ∧
      y.server.sentTo b = (since b y.heard).map tell ∧
      List.Forall₂ (fun i text => ((since b y.heard).map seen)[i]? = some text)
        (y.client b).got (y.client b).cout ∧
      ((y.client b).got.Pairwise (· < ·) →
        (y.client b).cout.Sublist ((since b y.heard).map seen)) ∧
      ((y.client b).got = List.range (y.client b).got.length →
        (y.client b).cout <+: (since b y.heard).map seen)) ∧
    ∀ m, seen m = line m.1 m.2 ↔ 0 ∉ m.2 ∧ (line m.1 m.2).length < BUFF_SIZE := by
  have hkept := Kept.reachable h
  refine ⟨fun a => (hkept.typed a).lines, hkept.said, fun hfail b => ?_, seen_eq_iff⟩
  have horder := hkept.order hfail
  have hcout : List.Forall₂ (fun i text => ((since b y.heard).map seen)[i]? = some text)
      (y.client b).got (y.client b).cout := by
    simpa only [List.getElem?_map] using horder.cout b
  refine ⟨List.dropWhile_suffix _, horder.sentTo b, hcout, fun hmono => ?_, prefix_of_places hcout⟩
  simpa using sublist_of_places hcout hmono fun i _ => Nat.zero_le i

/-- Two clients say hello, and the second one sees the first. -/
theorem one_order_example : ∃ (a b : SockaddrIn) (y : System),
    Reachable (System.Init fun c => if c = a then literal "hi" else literal "ho\n") System.Step y ∧
      a ≠ b ∧ y.heard = [(b, literal "ho"), (a, literal "hi")] ∧
      (y.client b).cout.Sublist (y.heard.map seen) ∧ (y.client b).cout ≠ [] := by
  let a : SockaddrIn := ⟨⟨10, 0, 0, 7⟩, 4000⟩
  let b : SockaddrIn := ⟨⟨10, 0, 0, 8⟩, 4000⟩
  let walk : Walk := ⟨id, fun _ => .refl _⟩
  let y₀ : System := ⟨UdpServer.init ⟨List.replicate BUFF_SIZE 0, List.length_replicate⟩, [],
    fun c => ⟨⟨if c = a then literal "hi" else literal "ho\n", true⟩, [], [], [], []⟩, 0⟩
  have h₀ : Reachable (System.Init fun c => if c = a then literal "hi" else literal "ho\n")
      System.Step y₀ := Reachable.start ⟨⟨_, rfl⟩, rfl, fun _ => rfl, rfl⟩
  have h₂ := (h₀.next (.out a)).next (.out b)
  have h₃ := h₂.next (@System.Step.serve _ b (literal "ho") (by decide) walk)
  have h₄ := h₃.next (@System.Step.serve _ a (literal "hi") (by decide) walk)
  have h₅ := h₄.next (@System.Step.shows _ b 1 (tell (a, literal "hi")) (by
    rw [((Kept.reachable h₄).order rfl).sentTo b]
    rfl))
  obtain ⟨-, -, hall, -⟩ := one_order h₅
  obtain ⟨-, -, hseen, hsub, -⟩ := hall rfl b
  refine ⟨a, b, _, h₅, by decide, rfl, hsub ?_, fun hnil => ?_⟩
  · exact List.pairwise_singleton _ _
  · have hlen := hseen.length_eq
    rw [hnil] at hlen
    exact absurd hlen (by decide)

end NetProg.Chat
