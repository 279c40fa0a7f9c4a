import NetProg.TcpPool.Serving

/-!
# Clients that are silent

A worker that runs `transform` waits in `recv` until its client sends something or ends the
connection. `n` clients that do neither keep all `n` workers of the pool: nobody else is served, and
whoever is accepted stands in the queue (`Waits.run`). There is nothing to stop them
(`exists_waits`).
-/

namespace NetProg.TcpPool.Process

open NetProg.Lib NetProg.Reactor Function Relation

variable {n : ℕ} {x x' : Process n} {listenSock : ℕ} {place : ℕ → Place n}
  {served : Fin n → Task × ℕ}

/-! ### While they are silent -/

/-- Every worker waits for a client. -/
def Waits (x : Process n) (served : Fin n → Task × ℕ) : Prop :=
  ∀ w, x.pool.phase w = .working (served w) ∧ x.pos w = .recv

/-- Nothing was heard from these clients. -/
def Silent (x : Process n) (served : Fin n → Task × ℕ) : Prop :=
  ∀ w, x.talk (.connection (served w).2) = []

theorem talk_grows (hs : Step x x') (f : File) : x.talk f <+: x'.talk f := by
  cases hs with
  | @call w task c pos hw hret hc =>
    unfold Process.call hear
    cases ht : x.table task.1.sock with
    | none => exact List.prefix_rfl
    | some g =>
      by_cases hf : f = g
      · subst hf
        simp only [update_self]
        exact List.prefix_append _ _
      · simp only [update_of_ne hf]
        exact List.prefix_rfl
  | create => exact List.prefix_rfl
  | accept => exact List.prefix_rfl
  | wake => exact List.prefix_rfl
  | enter => exact List.prefix_rfl
  | run => exact List.prefix_rfl
  | close => exact List.prefix_rfl
  | finish => exact List.prefix_rfl

/-- What the process has done behind a state in which every worker waits: accepted connections. -/
structure Queued (x x' : Process n) : Prop where
  talk : x'.talk = x.talk
  ran : x'.pool.ran = x.pool.ran
  later : ∃ later, x'.pool.taskQueue = x.pool.taskQueue ++ later ∧
    later.map Prod.snd = List.range' x.accepted later.length ∧
    x'.accepted = x.accepted + later.length

theorem Queued.refl (x : Process n) : Queued x x := ⟨rfl, rfl, [], by simp⟩

theorem Waits.step (h : Kept listenSock x place) (hw : Waits x served) (hs : Step x x')
    (hsilent : Silent x' served) {x₀ : Process n} (hq : Queued x₀ x) :
    Waits x' served ∧ Queued x₀ x' := by
  have hphase : ∀ {w ph}, x.pool.phase w = ph → .working (served w) = ph := fun {w ph} hph =>
    (hw w).1.symm.trans hph
  cases hs with
  | create hlt => cases hphase ((h.idle ⟨x.created, hlt⟩).2 le_rfl)
  | @accept serviceSock w client hn hsock hwakes =>
    obtain rfl : w = none := by
      cases w with
      | none => rfl
      | some w => cases hphase hwakes
    refine ⟨hw, hq.talk, hq.ran, ?_⟩
    obtain ⟨later, hqueue, hnums, hacc⟩ := hq.later
    refine ⟨later ++ [(⟨serviceSock, inetNtoa client.sinAddr, client.sinPort⟩, x.accepted)],
      ?_, ?_, ?_⟩
    · simp [Process.accept, ThreadPool.pushTask, ThreadPool.signal, hqueue]
    · rw [List.map_append, hnums, List.length_append, List.length_singleton, List.range'_concat,
        hacc]
      simp
    · rw [List.length_append, List.length_singleton, ← Nat.add_assoc, ← hacc]
      rfl
  | wake h => cases hphase h
  | enter h => rcases h with h | h <;> cases hphase h
  | run h => cases hphase h
  | @call w task c pos hwork hret hc =>
    -- then something was heard from the client
    obtain rfl : served w = task := Phase.working.inj (hphase hwork)
    have hfits := (h.working hwork (by rw [(hw w).2]; exact Pos.noConfusion)).1
    have htalk := hsilent w
    simp only [Process.call, hear_of_some hfits.sock, update_self] at htalk
    exact absurd htalk (by simp)
  | close h hpos => cases (hw _).2.symm.trans hpos
  | finish h hpos => cases (hw _).2.symm.trans hpos

theorem Waits.run (h : Reach listenSock x) (hw : Waits x served) (hrun : ReflTransGen Step x x')
    (hsilent : Silent x' served) : Waits x' served ∧ Queued x x' := by
  induction hrun with
  | refl => exact ⟨hw, .refl x⟩
  | @tail y z hbefore hs ih =>
    have hy : Silent y served := fun w => List.prefix_nil.1 (hsilent w ▸ talk_grows hs _)
    obtain ⟨hwy, hq⟩ := ih hy
    have hreach : Reach listenSock y := by
      obtain ⟨s₀, h₀, hsteps⟩ := h
      exact ⟨s₀, h₀, hsteps.trans hbefore⟩
    obtain ⟨place, hkept⟩ := kept_invariant.reachable hreach
    exact hwy.step hkept hs hsilent hq

/-! ### How they get there -/

/-- The first `i` workers wait for a client, the others have not come to the empty queue. -/
structure Filled (listenSock i : ℕ) (x : Process n) : Prop where
  reach : Reach listenSock x
  created : x.created = n
  phase : ∀ w : Fin n, if w.val < i then
      ∃ task, x.pool.phase w = .working task ∧ x.pos w = .recv else x.pool.phase w = .locking
  queue : x.pool.taskQueue = []
  accepted : x.accepted = i
  free : ∀ fd, listenSock + i < fd → x.table fd = none

theorem exists_created (n listenSock i : ℕ) (hi : i ≤ n) : ∃ x : Process n, Reach listenSock x ∧
    x.created = i ∧ (∀ w : Fin n, w.val < i → x.pool.phase w = .locking) ∧
    x.pool.taskQueue = [] ∧ x.accepted = 0 ∧ x.table = (init listenSock : Process n).table := by
  induction i with
  | zero => exact ⟨init listenSock, .start rfl, rfl, by simp, rfl, rfl, rfl⟩
  | succ i ih =>
    obtain ⟨x, hreach, hcreated, hphase, hqueue, haccepted, htable⟩ := ih (by omega)
    have hlt : x.created < n := by omega
    refine ⟨_, hreach.next (.create hlt), congrArg (· + 1) hcreated, fun w hw => ?_, hqueue,
      haccepted, htable⟩
    by_cases hlast : w = ⟨x.created, hlt⟩
    · rw [hlast, ThreadPool.goto_self]
    · rw [ThreadPool.goto_of_ne _ _ _ _ hlast]
      apply hphase
      have hne : w.val ≠ x.created := fun h => hlast (Fin.ext h)
      omega

/-- The next client connects, and the next worker takes its task. -/
theorem Filled.next {i : ℕ} (h : Filled listenSock i x) (hi : i < n) :
    ∃ x' : Process n, Filled listenSock (i + 1) x' := by
  let w : Fin n := ⟨i, hi⟩
  let client : SockaddrIn := ⟨⟨127, 0, 0, 1⟩, 40000⟩
  have hwakes : x.pool.Wakes none := by
    intro v hv
    have hphase := h.phase v
    split at hphase
    · obtain ⟨task, hwork, -⟩ := hphase
      cases hwork.symm.trans hv
    · cases hphase.symm.trans hv
  have hlocking : x.pool.phase w = .locking := by
    have hphase := h.phase w
    rwa [if_neg (Nat.lt_irrefl i)] at hphase
  have haccept := h.reach.next (.accept client h.created (h.free (listenSock + i + 1) (by omega))
    hwakes)
  have henter := haccept.next (.enter (w := w) (Or.inl hlocking)
    (ThreadPool.critical_of_cons (q := []) (congrArg (· ++ _) h.queue)))
  have hrun := henter.next (.run (w := w) (ThreadPool.goto_self ..))
  refine ⟨_, hrun, h.created, fun v => ?_, rfl, congrArg (· + 1) h.accepted, fun fd hfd => ?_⟩
  · by_cases hv : v = w
    · subst hv
      rw [if_pos (Nat.lt_succ_self i)]
      exact ⟨_, ThreadPool.goto_self .., update_self ..⟩
    · have hne : v.val ≠ i := fun he => hv (Fin.ext he)
      have hkeep := h.phase v
      split at hkeep
      · rename_i hlt
        obtain ⟨task, hwork, hpos⟩ := hkeep
        rw [if_pos (hlt.trans (Nat.lt_succ_self i))]
        refine ⟨task, ?_, (update_of_ne hv ..).trans hpos⟩
        exact (update_of_ne hv ..).trans ((update_of_ne hv ..).trans hwork)
      · rename_i hle
        rw [if_neg (by omega)]
        exact (update_of_ne hv ..).trans ((update_of_ne hv ..).trans hkeep)
  · refine (update_of_ne ?_ ..).trans (h.free fd (by omega))
    omega

/-- **`n` clients are enough.** -/
theorem exists_waits (n listenSock : ℕ) : ∃ (x : Process n) (served : Fin n → Task × ℕ),
    Reach listenSock x ∧ Waits x served ∧ x.accepted = n := by
  have hfilled : ∀ i ≤ n, ∃ x : Process n, Filled listenSock i x := by
    intro i hi
    induction i with
    | zero =>
      obtain ⟨x, hreach, hcreated, hphase, hqueue, haccepted, htable⟩ :=
        exists_created n listenSock n le_rfl
      refine ⟨x, hreach, hcreated, fun w => ?_, hqueue, haccepted, fun fd hfd => ?_⟩
      · rw [if_neg (Nat.not_lt_zero _)]
        exact hphase w w.isLt
      · have hne : fd ≠ listenSock := by omega
        rw [htable]
        simpa [Process.init] using update_of_ne hne _ _
    | succ i ih =>
      obtain ⟨x, hx⟩ := ih (by omega)
      exact hx.next hi
  obtain ⟨x, hx⟩ := hfilled n le_rfl
  have hall : ∀ w, ∃ task, x.pool.phase w = .working task ∧ x.pos w = .recv := by
    intro w
    have hphase := hx.phase w
    rwa [if_pos w.isLt] at hphase
  choose served hserved using hall
  exact ⟨x, served, hx.reach, hserved, hx.accepted⟩

/-- **Silent clients stop the server.** With `n` workers, `n` clients that connect and are silent
bring every worker into `recv`. In every run from such a state, until something is heard from one of
these clients, the workers stay there: no call is made on any connection, no task is begun, and the
connections accepted meanwhile stand in the queue behind the others, in order. -/
theorem silent_clients_stop (n listenSock : ℕ) :
    (∃ (x : Process n) (served : Fin n → Task × ℕ),
      Reach listenSock x ∧ Waits x served ∧ x.accepted = n) ∧
    ∀ (x x' : Process n) (served : Fin n → Task × ℕ), Reach listenSock x → Waits x served →
      ReflTransGen Step x x' → Silent x' served → Waits x' served ∧ Queued x x' :=
  ⟨exists_waits n listenSock, fun _ _ _ h hw hrun hsilent => hw.run h hrun hsilent⟩

/-- The pool of the server has five workers. If it had one, a silent client would keep the next one
in the queue. -/
theorem silent_clients_stop_five : (∃ (x : Process 5) (served : Fin 5 → Task × ℕ),
    Reach 3 x ∧ Waits x served ∧ x.accepted = 5) ∧
    ∃ (x x' : Process 1) (served : Fin 1 → Task × ℕ), Waits x' served ∧ Queued x x' ∧
      x.pool.taskQueue = [] ∧ x'.pool.taskQueue.map Prod.snd = [1] := by
  refine ⟨(silent_clients_stop 5 3).1, ?_⟩
  let client : SockaddrIn := ⟨⟨127, 0, 0, 1⟩, 40000⟩
  have hnone : ∀ p : ThreadPool 1 (Task × ℕ), p.phase 0 ≠ .waiting → p.Wakes none := by
    intro p hp w
    rwa [Subsingleton.elim w 0]
  have h₀ : Reach 3 (init 3 : Process 1) := .start rfl
  have h₁ := h₀.next (.create (by decide))
  have h₂ := h₁.next (@Step.accept 1 _ 4 none client rfl rfl (hnone _ nofun))
  have h₃ := h₂.next (@Step.enter 1 _ 0 _ (Or.inl rfl) (ThreadPool.critical_of_cons (q := []) rfl))
  have h₄ := h₃.next (@Step.run 1 _ 0 _ rfl)
  obtain ⟨hstill, hqueued⟩ := (silent_clients_stop 1 3).2 _ _
    (fun _ => (⟨4, inetNtoa client.sinAddr, client.sinPort⟩, 0)) h₄
    (fun w => by rw [Subsingleton.elim w 0]; exact ⟨rfl, rfl⟩)
    (.single (@Step.accept 1 _ 5 none client rfl rfl (hnone _ nofun))) fun _ => rfl
  exact ⟨_, _, _, hstill, hqueued, rfl, rfl⟩

end NetProg.TcpPool.Process
