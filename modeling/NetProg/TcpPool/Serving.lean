import NetProg.TcpPool.Transform

/-!
# Each connection is served once

At any time a connection has one place: it waits in the queue, a worker holds its task, a worker
runs its task, or its descriptor is closed (`Place`). `Keeps` says what its descriptor and the calls
made on it have to do with the place, and `one_answer` that all connections of a run are kept.
-/

namespace NetProg.TcpPool

open NetProg.Lib NetProg.Reactor Function

/-! ### The talk of a task -/

/-- What is said on a connection: its text and the answer to it, or nothing that can be answered. -/
def Answered (l : List SockCall) : Prop :=
  (∃ b r, b ≠ [] ∧ l = [.recv (.bytes b), .send (result b) r]) ∨
    l = [.recv (.bytes [])] ∨ ∃ e, l = [.recv (.fail e)]

theorem talk_transform {l : List SockCall} {pos : Pos} (h : Talk transform l pos) :
    match pos with
    | .recv => l = []
    | .send r => ∃ b, b ≠ [] ∧ r = result b ∧ l = [.recv (.bytes b)]
    | .close => Answered l
    | .returned => False := by
  induction h with
  | start => rfl
  | @call l pos pos' c _ hret hc ih =>
    cases pos with
    | close => cases hret
    | returned => cases hret
    | recv =>
      obtain rfl : l = [] := ih
      cases c with
      | send => cases hc
      | recv a =>
        cases a with
        | fail e =>
          obtain rfl : Pos.close = pos' := by simpa [transform] using hc
          exact Or.inr (Or.inr ⟨e, rfl⟩)
        | bytes b =>
          by_cases hb : b = []
          · subst hb
            obtain rfl : Pos.close = pos' := by simpa [transform] using hc
            exact Or.inr (Or.inl rfl)
          · obtain rfl : Pos.send (result b) = pos' := by simpa [transform, hb] using hc
            exact ⟨b, hb, rfl, rfl⟩
    | send r =>
      obtain ⟨b, hb, rfl, rfl⟩ := ih
      cases c with
      | recv => cases hc
      | send b' a =>
        by_cases hb' : b' = result b
        · subst hb'
          obtain rfl : Pos.close = pos' := by simpa [transform] using hc
          exact Or.inl ⟨b, a, hb, rfl⟩
        · simp [transform, hb'] at hc

namespace Process

variable {n : ℕ} {x x' : Process n} {listenSock k : ℕ}

/-! ### The place of a connection -/

inductive Place (n : ℕ) where
  /-- not accepted yet -/
  | coming
  | queued (task : Task)
  | held (w : Fin n) (task : Task)
  | served (w : Fin n) (task : Task)
  | done
  deriving DecidableEq

structure Untouched (x : Process n) (k : ℕ) : Prop where
  talk : x.talk (.connection k) = []
  closes : x.closes (.connection k) = 0

structure Done (x : Process n) (k : ℕ) : Prop where
  closed : ∀ fd, x.table fd ≠ some (.connection k)
  closes : x.closes (.connection k) = 1
  talk : Answered (x.talk (.connection k))

/-- What is true of a connection at its place. -/
def Keeps (x : Process n) (k : ℕ) : Place n → Prop
  | .coming => x.accepted ≤ k ∧ (∀ fd, x.table fd ≠ some (.connection k)) ∧ Untouched x k
  | .queued task => (task, k) ∈ x.pool.taskQueue ∧
      x.table task.sock = some (.connection k) ∧ Untouched x k
  | .held w task => x.pool.phase w = .holding (task, k) ∧
      x.table task.sock = some (.connection k) ∧ Untouched x k
  | .served w task => x.pool.phase w = .working (task, k) ∧
      if x.pos w = .returned then Done x k
      else Job.Fits transform x.table x.talk ⟨task.sock, .connection k, x.pos w⟩ ∧
        x.closes (.connection k) = 0
  | .done => k < x.accepted ∧ Done x k

/-- Every connection has a place, and what is in the pool is a connection at its place. -/
structure Kept (listenSock : ℕ) (x : Process n) (place : ℕ → Place n) : Prop where
  idle : ∀ w, x.pool.phase w = .idle ↔ x.created ≤ w
  listening : x.table listenSock = some .listening
  /-- a connection is open under one number -/
  single : ∀ fd fd' k, x.table fd = some (.connection k) → x.table fd' = some (.connection k) →
    fd = fd'
  keeps : ∀ k, Keeps x k (place k)
  coming : ∀ k, x.accepted ≤ k → place k = .coming
  queued : ∀ task k, (task, k) ∈ x.pool.taskQueue → place k = .queued task
  held : ∀ w task k, x.pool.phase w = .holding (task, k) → place k = .held w task
  served : ∀ w task k, x.pool.phase w = .working (task, k) → place k = .served w task
  nodup : (x.pool.taskQueue.map Prod.snd).Nodup

theorem table_init (fd k : ℕ) : (init listenSock : Process n).table fd ≠ some (.connection k) := by
  simp only [Process.init, update_apply]
  split <;> simp

theorem Kept.init : Kept listenSock (init listenSock : Process n) fun _ => .coming where
  idle w := by simp [Process.init, ThreadPool.init]
  listening := by simp [Process.init]
  single fd fd' k hfd := absurd hfd (table_init fd k)
  keeps k := ⟨Nat.zero_le _, fun fd => table_init fd k, rfl, rfl⟩
  coming _ _ := rfl
  queued task k h := by cases h
  held w task k h := by cases h
  served w task k h := by cases h
  nodup := List.nodup_nil

/-! ### What a step leaves alone -/

section Frame

variable {pl : Place n}

theorem Untouched.of_same (h : Untouched x k)
    (htalk : x'.talk (.connection k) = x.talk (.connection k))
    (hcloses : x'.closes (.connection k) = x.closes (.connection k)) : Untouched x' k :=
  ⟨htalk.trans h.talk, hcloses.trans h.closes⟩

theorem Done.of_same (h : Done x k)
    (htable : ∀ fd, x'.table fd = some (.connection k) ↔ x.table fd = some (.connection k))
    (htalk : x'.talk (.connection k) = x.talk (.connection k))
    (hcloses : x'.closes (.connection k) = x.closes (.connection k)) : Done x' k :=
  ⟨fun fd hfd => h.closed fd ((htable fd).1 hfd), hcloses.trans h.closes, htalk ▸ h.talk⟩

theorem Keeps.of_same (h : Keeps x k pl) (haccepted : x.accepted ≤ x'.accepted)
    (hcoming : x.accepted ≤ k → x'.accepted ≤ k)
    (hqueued : ∀ task, (task, k) ∈ x.pool.taskQueue → (task, k) ∈ x'.pool.taskQueue)
    (hheld : ∀ w task, x.pool.phase w = .holding (task, k) → x'.pool.phase w = .holding (task, k))
    (hserved : ∀ w task, x.pool.phase w = .working (task, k) →
      x'.pool.phase w = .working (task, k) ∧ x'.pos w = x.pos w)
    (htable : ∀ fd, x'.table fd = some (.connection k) ↔ x.table fd = some (.connection k))
    (htalk : x'.talk (.connection k) = x.talk (.connection k))
    (hcloses : x'.closes (.connection k) = x.closes (.connection k)) : Keeps x' k pl := by
  cases pl with
  | coming => exact ⟨hcoming h.1, fun fd hfd => h.2.1 fd ((htable fd).1 hfd),
      h.2.2.of_same htalk hcloses⟩
  | queued task => exact ⟨hqueued task h.1, (htable _).2 h.2.1, h.2.2.of_same htalk hcloses⟩
  | held w task => exact ⟨hheld w task h.1, (htable _).2 h.2.1, h.2.2.of_same htalk hcloses⟩
  | served w task =>
    obtain ⟨hphase, hrest⟩ := h
    obtain ⟨hphase', hpos⟩ := hserved w task hphase
    refine ⟨hphase', ?_⟩
    rw [hpos]
    split at hrest
    · rename_i hret
      rw [if_pos hret]
      exact hrest.of_same htable htalk hcloses
    · rename_i hret
      rw [if_neg hret]
      have hfits : Talk transform (x.talk (.connection k)) (x.pos w) := hrest.1.talk
      exact ⟨⟨(htable _).2 hrest.1.sock, htalk ▸ hfits⟩, hcloses.trans hrest.2⟩
  | done => exact ⟨h.1.trans_le haccepted, h.2.of_same htable htalk hcloses⟩

end Frame

/-! ### Workers without a task -/

/-- A thread that was created and has no task. -/
def Free {T : Type*} : Phase T → Prop
  | .locking | .waiting | .woken => True
  | .idle | .holding _ | .working _ => False

/-- The same threads have tasks, and the same ones. -/
structure SameTasks {T : Type*} (p p' : ThreadPool n T) : Prop where
  idle : ∀ w, p'.phase w = .idle ↔ p.phase w = .idle
  holding : ∀ w task, p'.phase w = .holding task ↔ p.phase w = .holding task
  working : ∀ w task, p'.phase w = .working task ↔ p.phase w = .working task

theorem SameTasks.goto {T : Type*} {p : ThreadPool n T} {w : Fin n} {phase : Phase T}
    (h : Free (p.phase w)) (h' : Free phase) : SameTasks p (p.goto w phase) := by
  have hne : ∀ {ph ph' : Phase T}, Free ph → ¬ Free ph' → ph ≠ ph' := by
    rintro ph _ hfree hnot rfl
    exact hnot hfree
  have hsame : ∀ v ph, ¬ Free ph → ((p.goto w phase).phase v = ph ↔ p.phase v = ph) := by
    intro v ph hnot
    by_cases hv : v = w
    · subst hv
      rw [ThreadPool.goto_self]
      exact iff_of_false (hne h' hnot) (hne h hnot)
    · rw [ThreadPool.goto_of_ne p w v phase hv]
  exact ⟨fun v => hsame v _ id, fun v task => hsame v _ id, fun v task => hsame v _ id⟩

theorem SameTasks.pushTask {T : Type*} {p : ThreadPool n T} {o : Option (Fin n)} (ho : p.Wakes o)
    (task : T) : SameTasks p (p.pushTask task o) := by
  cases o with
  | none => exact ⟨fun _ => Iff.rfl, fun _ _ => Iff.rfl, fun _ _ => Iff.rfl⟩
  | some w =>
    have hw : Free (p.phase w) := by
      rw [show p.phase w = .waiting from ho]
      trivial
    have hgoto : SameTasks p (p.goto w .woken) := .goto hw trivial
    exact ⟨hgoto.idle, hgoto.holding, hgoto.working⟩

theorem Kept.idle_step {place : ℕ → Place n} (h : Kept listenSock x place)
    {pool : ThreadPool n (Task × ℕ)} (hsame : SameTasks x.pool pool) (w : Fin n) :
    pool.phase w = .idle ↔ x.created ≤ w :=
  (hsame.idle w).trans (h.idle w)

/-! ### The steps -/

variable {place : ℕ → Place n} {pl : Place n}

theorem Kept.pool (h : Kept listenSock x place) {pool : ThreadPool n (Task × ℕ)}
    (hsame : SameTasks x.pool pool) (hqueue : pool.taskQueue = x.pool.taskQueue) :
    Kept listenSock { x with pool } place where
  idle w := h.idle_step hsame w
  listening := h.listening
  single := h.single
  keeps k := by
    refine (h.keeps k).of_same le_rfl id (fun task => ?_) (fun w task => (hsame.holding w _).2)
      (fun w task hw => ⟨(hsame.working w _).2 hw, rfl⟩) (fun _ => Iff.rfl) rfl rfl
    rw [hqueue]
    exact id
  coming := h.coming
  queued task k hk := h.queued task k (hqueue ▸ hk)
  held w task k hw := h.held w task k ((hsame.holding w _).1 hw)
  served w task k hw := h.served w task k ((hsame.working w _).1 hw)
  nodup := by
    rw [hqueue]
    exact h.nodup

theorem Kept.create (h : Kept listenSock x place) (hlt : x.created < n) :
    Kept listenSock { x with
      created := x.created + 1, pool := x.pool.goto ⟨x.created, hlt⟩ .locking } place := by
  have hidle : x.pool.phase ⟨x.created, hlt⟩ = .idle := (h.idle _).2 le_rfl
  -- the new thread has no task, like before
  have hsame : ∀ w ph, ph ≠ .idle → ph ≠ .locking →
      ((x.pool.goto ⟨x.created, hlt⟩ .locking).phase w = ph ↔ x.pool.phase w = ph) := by
    intro w ph hne hne'
    by_cases hw : w = ⟨x.created, hlt⟩
    · subst hw
      rw [ThreadPool.goto_self, hidle]
      exact iff_of_false (Ne.symm hne') (Ne.symm hne)
    · rw [ThreadPool.goto_of_ne _ _ _ _ hw]
  refine ⟨fun w => ?_, h.listening, h.single, fun k => ?_, h.coming, h.queued,
    fun w task k hw => ?_, fun w task k hw => ?_, h.nodup⟩
  · by_cases hw : w = ⟨x.created, hlt⟩
    · subst hw
      simp
    · have hne : (w : ℕ) ≠ x.created := fun he => hw (Fin.ext he)
      rw [ThreadPool.goto_of_ne _ _ _ _ hw, h.idle w]
      simp only
      omega
  · exact (h.keeps k).of_same le_rfl id (fun _ => id)
      (fun w task => (hsame w _ (by simp) (by simp)).2)
      (fun w task hw => ⟨(hsame w _ (by simp) (by simp)).2 hw, rfl⟩) (fun _ => Iff.rfl) rfl rfl
  · exact h.held w task k ((hsame w _ (by simp) (by simp)).1 hw)
  · exact h.served w task k ((hsame w _ (by simp) (by simp)).1 hw)

/-- Other connections have other places. -/
theorem ne_of_place {j : ℕ} {pl pl' : Place n} (hj : place j = pl) (hk : place k = pl')
    (h : pl ≠ pl') : j ≠ k := by
  rintro rfl
  exact h (hj.symm.trans hk)

theorem Kept.accept (h : Kept listenSock x place) {sock : ℕ} {w : Option (Fin n)}
    (client : SockaddrIn) (hsock : x.table sock = none) (hw : x.pool.Wakes w) :
    Kept listenSock (x.accept sock client w) (update place x.accepted
      (.queued ⟨sock, inetNtoa client.sinAddr, client.sinPort⟩)) := by
  set task : Task := ⟨sock, inetNtoa client.sinAddr, client.sinPort⟩
  have hplace : place x.accepted = .coming := h.coming _ le_rfl
  have hnew : Keeps x x.accepted .coming := hplace ▸ h.keeps x.accepted
  have hsame : SameTasks x.pool (x.accept sock client w).pool := .pushTask hw _
  have hqueue : (x.accept sock client w).pool.taskQueue =
      x.pool.taskQueue ++ [(task, x.accepted)] := ThreadPool.pushTask_taskQueue ..
  have htable : (x.accept sock client w).table =
      update x.table sock (some (.connection x.accepted)) := rfl
  have hmem : ∀ t k, (t, k) ∈ x.pool.taskQueue → k ≠ x.accepted := fun t k hk =>
    ne_of_place (h.queued t k hk) hplace (by simp)
  refine ⟨h.idle_step hsame, ?_, fun fd fd' k hfd hfd' => ?_, fun k => ?_, fun k hk => ?_,
    fun t k hk => ?_, fun v t k hk => ?_, fun v t k hk => ?_, ?_⟩
  · have hne : listenSock ≠ sock := by
      rintro rfl
      rw [h.listening] at hsock
      cases hsock
    rw [htable, update_of_ne hne, h.listening]
  · -- the new connection was open nowhere
    have hopen : ∀ g, (x.accept sock client w).table g = some (.connection k) →
        g = sock ∧ k = x.accepted ∨ x.table g = some (.connection k) := by
      intro g hg
      rw [htable, update_apply] at hg
      split at hg
      · exact Or.inl ⟨‹_›, by simpa using hg.symm⟩
      · exact Or.inr hg
    rcases hopen fd hfd with ⟨rfl, rfl⟩ | hold
    · rcases hopen fd' hfd' with ⟨rfl, -⟩ | hold'
      · rfl
      · exact absurd hold' (hnew.2.1 fd')
    · rcases hopen fd' hfd' with ⟨rfl, rfl⟩ | hold'
      · exact absurd hold (hnew.2.1 fd)
      · exact h.single fd fd' k hold hold'
  · by_cases hk : k = x.accepted
    · subst hk
      rw [update_self]
      exact ⟨by rw [hqueue]; simp, by rw [htable, update_self], hnew.2.2.of_same rfl rfl⟩
    · rw [update_of_ne hk]
      refine (h.keeps k).of_same (Nat.le_succ _) (fun hle => Nat.lt_of_le_of_ne hle (Ne.symm hk))
        (fun t ht => ?_) (fun v t => (hsame.holding v _).2)
        (fun v t ht => ⟨(hsame.working v _).2 ht, rfl⟩) (fun fd => ?_) rfl rfl
      · rw [hqueue]
        exact List.mem_append_left _ ht
      · by_cases hfd : fd = sock
        · subst hfd
          simp [htable, hsock, Ne.symm hk]
        · rw [htable, update_of_ne hfd]
  · have hk' : x.accepted + 1 ≤ k := hk
    rw [update_of_ne (by omega), h.coming k (by omega)]
  · rw [hqueue, List.mem_append, List.mem_singleton] at hk
    rcases hk with hk | hk
    · rw [update_of_ne (hmem t k hk), h.queued t k hk]
    · obtain ⟨rfl, rfl⟩ := Prod.mk.inj hk
      rw [update_self]
  · have hheld := h.held v t k ((hsame.holding v _).1 hk)
    rw [update_of_ne (ne_of_place hheld hplace (by simp)), hheld]
  · have hserved := h.served v t k ((hsame.working v _).1 hk)
    rw [update_of_ne (ne_of_place hserved hplace (by simp)), hserved]
  · rw [hqueue, List.map_append, List.nodup_append']
    refine ⟨h.nodup, List.nodup_singleton _, ?_⟩
    simp only [List.map_cons, List.map_nil, List.disjoint_singleton]
    intro hk
    obtain ⟨⟨t, k⟩, hk, he⟩ := List.mem_map.1 hk
    exact hmem t k hk he

/-- A worker takes the first task of the queue. -/
theorem Kept.took (h : Kept listenSock x place) {w : Fin n} {task : Task}
    {q : List (Task × ℕ)} (hfree : Free (x.pool.phase w))
    (hqueue : x.pool.taskQueue = (task, k) :: q) :
    Kept listenSock { x with pool := x.pool.took w (task, k) q }
      (update place k (.held w task)) := by
  have hplace : place k = .queued task := h.queued task k (by rw [hqueue]; simp)
  obtain ⟨-, hsock, huntouched⟩ : Keeps x k (.queued task) := hplace ▸ h.keeps k
  have hnodup := h.nodup
  rw [hqueue, List.map_cons, List.nodup_cons] at hnodup
  have hne : ∀ t j, (t, j) ∈ q → j ≠ k := by
    rintro t j hj rfl
    exact hnodup.1 (List.mem_map.2 ⟨_, hj, rfl⟩)
  have hphase : ∀ v, v ≠ w → (x.pool.took w (task, k) q).phase v = x.pool.phase v := fun v hv =>
    ThreadPool.goto_of_ne _ _ _ _ hv
  have hself : (x.pool.took w (task, k) q).phase w = .holding (task, k) :=
    ThreadPool.goto_self ..
  have hother : ∀ v ph, ¬ Free ph → x.pool.phase v = ph → v ≠ w := by
    rintro v ph hnot hv rfl
    rw [hv] at hfree
    exact hnot hfree
  refine ⟨fun v => ?_, h.listening, h.single, fun j => ?_, fun j hj => ?_, fun t j hj => ?_,
    fun v t j hj => ?_, fun v t j hj => ?_, hnodup.2⟩
  · rw [← h.idle v]
    by_cases hv : v = w
    · subst hv
      rw [hself]
      refine iff_of_false (by simp) fun hidle => ?_
      exact hother v _ id hidle rfl
    · rw [hphase v hv]
  · by_cases hj : j = k
    · subst hj
      rw [update_self]
      exact ⟨hself, hsock, huntouched.of_same rfl rfl⟩
    · rw [update_of_ne hj]
      refine (h.keeps j).of_same le_rfl id (fun t ht => ?_) (fun v t hv => ?_) (fun v t hv => ?_)
        (fun _ => Iff.rfl) rfl rfl
      · rw [hqueue] at ht
        rcases List.mem_cons.1 ht with ht | ht
        · exact absurd (Prod.mk.inj ht).2 hj
        · exact ht
      · exact (hphase v (hother v _ id hv)).trans hv
      · exact ⟨(hphase v (hother v _ id hv)).trans hv, rfl⟩
  · have hjk := ne_of_place (h.coming j hj) hplace (by simp)
    rw [update_of_ne hjk, h.coming j hj]
  · rw [update_of_ne (hne t j hj), h.queued t j (by rw [hqueue]; exact List.mem_cons_of_mem _ hj)]
  · by_cases hv : v = w
    · subst hv
      rw [hself] at hj
      cases hj
      rw [update_self]
    · rw [hphase v hv] at hj
      have hheld := h.held v t j hj
      rw [update_of_ne (ne_of_place hheld hplace (by simp)), hheld]
  · by_cases hv : v = w
    · subst hv
      rw [hself] at hj
      cases hj
    · rw [hphase v hv] at hj
      have hserved := h.served v t j hj
      rw [update_of_ne (ne_of_place hserved hplace (by simp)), hserved]

/-! ### The work on a task -/

theorem phase_other {w v : Fin n} {ph ph' : Phase (Task × ℕ)} (hw : x.pool.phase w = ph)
    (hv : x.pool.phase v = ph') (h : ph' ≠ ph) : v ≠ w := by
  rintro rfl
  exact h (hv.symm.trans hw)

theorem Kept.run (h : Kept listenSock x place) {w : Fin n} {task : Task}
    (hw : x.pool.phase w = .holding (task, k)) :
    Kept listenSock (x.run w (task, k)) (update place k (.served w task)) := by
  have hplace : place k = .held w task := h.held w task k hw
  obtain ⟨-, hsock, huntouched⟩ : Keeps x k (.held w task) := hplace ▸ h.keeps k
  have hphase : ∀ v, v ≠ w → (x.run w (task, k)).pool.phase v = x.pool.phase v := fun v hv =>
    ThreadPool.goto_of_ne _ _ _ _ hv
  have hself : (x.run w (task, k)).pool.phase w = .working (task, k) := ThreadPool.goto_self ..
  refine ⟨fun v => ?_, h.listening, h.single, fun j => ?_, fun j hj => ?_, fun t j hj => ?_,
    fun v t j hj => ?_, fun v t j hj => ?_, h.nodup⟩
  · have hcreated : (x.run w (task, k)).created = x.created := rfl
    rw [hcreated, ← h.idle v]
    by_cases hv : v = w
    · subst hv
      rw [hself, hw]
      simp
    · rw [hphase v hv]
  · by_cases hj : j = k
    · subst hj
      rw [update_self]
      have hpos : (x.run w (task, j)).pos w = .recv := update_self ..
      refine ⟨hself, ?_⟩
      rw [hpos, if_neg (by simp)]
      exact ⟨Job.Fits.start hsock huntouched.talk, huntouched.closes⟩
    · rw [update_of_ne hj]
      refine (h.keeps j).of_same le_rfl id (fun _ => id) (fun v t hv => ?_) (fun v t hv => ?_)
        (fun _ => Iff.rfl) rfl rfl
      · rw [hphase v (phase_other hw hv (by simp [hj])), hv]
      · have hne : v ≠ w := phase_other hw hv (by simp)
        exact ⟨(hphase v hne).trans hv, update_of_ne hne ..⟩
  · have hjk := ne_of_place (h.coming j hj) hplace (by simp)
    rw [update_of_ne hjk, h.coming j hj]
  · have hqueued := h.queued t j hj
    rw [update_of_ne (ne_of_place hqueued hplace (by simp)), hqueued]
  · by_cases hv : v = w
    · subst hv
      rw [hself] at hj
      cases hj
    · rw [hphase v hv] at hj
      have hheld := h.held v t j hj
      rw [update_of_ne (ne_of_place hheld hplace (by simp [hv])), hheld]
  · by_cases hv : v = w
    · subst hv
      rw [hself] at hj
      cases hj
      rw [update_self]
    · rw [hphase v hv] at hj
      have hserved := h.served v t j hj
      rw [update_of_ne (ne_of_place hserved hplace (by simp)), hserved]

theorem Kept.work (h : Kept listenSock x place) {w : Fin n} {task : Task}
    (hw : x.pool.phase w = .working (task, k)) (hpool : x'.pool = x.pool)
    (hcreated : x'.created = x.created) (haccepted : x'.accepted = x.accepted)
    (hpos : ∀ v, v ≠ w → x'.pos v = x.pos v) (hself : Keeps x' k (.served w task))
    (htable : ∀ fd f, x'.table fd = some f → x.table fd = some f)
    (hopen : ∀ fd f, f ≠ .connection k → x.table fd = some f → x'.table fd = some f)
    (htalk : ∀ j, j ≠ k → x'.talk (.connection j) = x.talk (.connection j))
    (hcloses : ∀ j, j ≠ k → x'.closes (.connection j) = x.closes (.connection j)) :
    Kept listenSock x' place where
  idle v := by rw [hpool, hcreated, h.idle v]
  listening := hopen _ _ (by simp) h.listening
  single fd fd' j hfd hfd' := h.single fd fd' j (htable _ _ hfd) (htable _ _ hfd')
  keeps j := by
    by_cases hj : j = k
    · subst hj
      rw [h.served w task j hw]
      exact hself
    · refine (h.keeps j).of_same haccepted.ge (fun hle => haccepted ▸ hle) (fun t => ?_)
        (fun v t => ?_) (fun v t hv => ⟨hpool ▸ hv, hpos v ?_⟩)
        (fun fd => ⟨htable fd _, hopen fd _ (File.connection_ne hj)⟩) (htalk j hj) (hcloses j hj)
      · rw [hpool]
        exact id
      · rw [hpool]
        exact id
      · refine phase_other hw hv fun he => hj ?_
        cases he
        rfl
  coming j hj := h.coming j (haccepted ▸ hj)
  queued t j hj := h.queued t j (hpool ▸ hj)
  held v t j hv := h.held v t j (hpool ▸ hv)
  served v t j hv := h.served v t j (hpool ▸ hv)
  nodup := by
    rw [hpool]
    exact h.nodup

theorem Kept.working (h : Kept listenSock x place) {w : Fin n} {task : Task}
    (hw : x.pool.phase w = .working (task, k)) (hpos : x.pos w ≠ .returned) :
    Job.Fits transform x.table x.talk ⟨task.sock, .connection k, x.pos w⟩ ∧
      x.closes (.connection k) = 0 := by
  have hkeeps : Keeps x k (.served w task) := h.served w task k hw ▸ h.keeps k
  have hif := hkeeps.2
  rwa [if_neg hpos] at hif

theorem Kept.call (h : Kept listenSock x place) {w : Fin n} {task : Task} {c : SockCall}
    {pos : Pos} (hw : x.pool.phase w = .working (task, k))
    (hret : transform.returned (x.pos w) = false)
    (hc : transform.step (x.pos w) c = some (.ok pos)) :
    Kept listenSock (x.call w task.sock c pos) place := by
  have hpos : x.pos w ≠ .returned := by
    intro he
    rw [he] at hret
    cases hret
  obtain ⟨hfits, hcloses⟩ := h.working hw hpos
  have hfits' := hfits.call hret hc
  have hpos' : (x.call w task.sock c pos).pos w = pos := update_self ..
  refine h.work hw rfl rfl rfl (fun v hv => update_of_ne hv ..) ⟨hw, ?_⟩ (fun _ _ => id)
    (fun _ _ _ => id) (fun j hj => ?_) (fun _ _ => rfl)
  · have hne : pos ≠ .returned := by
      rintro rfl
      exact talk_transform hfits'.talk
    rw [hpos', if_neg hne]
    exact ⟨hfits', hcloses⟩
  · have htalk : (x.call w task.sock c pos).talk =
        update x.talk (.connection k) (x.talk (.connection k) ++ [c]) :=
      hear_of_some hfits.sock c
    rw [htalk, update_of_ne (File.connection_ne hj)]

theorem Kept.close (h : Kept listenSock x place) {w : Fin n} {task : Task}
    (hw : x.pool.phase w = .working (task, k)) (hpos : x.pos w = .close) :
    Kept listenSock (x.close w task.sock) place := by
  obtain ⟨hfits, hcloses⟩ := h.working hw (by rw [hpos]; simp)
  have hsock : x.table task.sock = some (.connection k) := hfits.sock
  have hcloses' : (x.close w task.sock).closes =
      update x.closes (.connection k) (x.closes (.connection k) + 1) := by
    simp only [Process.close, hsock]
  have htable : ∀ fd f, (x.close w task.sock).table fd = some f ↔
      fd ≠ task.sock ∧ x.table fd = some f := by
    intro fd f
    by_cases hfd : fd = task.sock <;> simp [Process.close, hfd]
  refine h.work hw rfl rfl rfl (fun v hv => update_of_ne hv ..) ⟨hw, ?_⟩
    (fun fd f hf => ((htable fd f).1 hf).2) (fun fd f hne hf => (htable fd f).2 ⟨?_, hf⟩)
    (fun _ _ => rfl) (fun j hj => ?_)
  · have hpos' : (x.close w task.sock).pos w = .returned := update_self ..
    have htalk : Talk transform (x.talk (.connection k)) (x.pos w) := hfits.talk
    rw [hpos] at htalk
    rw [if_pos hpos']
    refine ⟨fun fd hfd => ?_, by rw [hcloses', update_self, hcloses], talk_transform htalk⟩
    obtain ⟨hne, hfd⟩ := (htable fd _).1 hfd
    exact hne (h.single _ _ k hfd hsock)
  · rintro rfl
    rw [hsock] at hf
    exact hne (Option.some.inj hf).symm
  · rw [hcloses', update_of_ne (File.connection_ne hj)]

theorem Kept.finish (h : Kept listenSock x place) {w : Fin n} {task : Task}
    (hw : x.pool.phase w = .working (task, k)) (hpos : x.pos w = .returned) :
    Kept listenSock { x with pool := x.pool.goto w .locking } (update place k .done) := by
  have hplace : place k = .served w task := h.served w task k hw
  obtain ⟨-, hdone⟩ : Keeps x k (.served w task) := hplace ▸ h.keeps k
  rw [if_pos hpos] at hdone
  have hlt : k < x.accepted := by
    by_contra hle
    have := h.coming k (Nat.le_of_not_lt hle)
    rw [hplace] at this
    cases this
  have hphase : ∀ v, v ≠ w → (x.pool.goto w .locking).phase v = x.pool.phase v := fun v hv =>
    ThreadPool.goto_of_ne _ _ _ _ hv
  have hself : (x.pool.goto w .locking).phase w = .locking := ThreadPool.goto_self ..
  have hold : ∀ v ph, ph ≠ .locking → (x.pool.goto w .locking).phase v = ph →
      x.pool.phase v = ph ∧ v ≠ w := by
    intro v ph hne hv
    by_cases hvw : v = w
    · subst hvw
      exact absurd (hv.symm.trans hself) hne
    · exact ⟨(hphase v hvw).symm.trans hv, hvw⟩
  refine ⟨fun v => ?_, h.listening, h.single, fun j => ?_, fun j hj => ?_, fun t j hj => ?_,
    fun v t j hj => ?_, fun v t j hj => ?_, h.nodup⟩
  · rw [← h.idle v]
    by_cases hv : v = w
    · subst hv
      rw [hself, hw]
      simp
    · rw [hphase v hv]
  · by_cases hj : j = k
    · subst hj
      rw [update_self]
      exact ⟨hlt, hdone.of_same (fun _ => Iff.rfl) rfl rfl⟩
    · rw [update_of_ne hj]
      refine (h.keeps j).of_same le_rfl id (fun _ => id) (fun v t hv => ?_) (fun v t hv => ?_)
        (fun _ => Iff.rfl) rfl rfl
      · exact (hphase v (phase_other hw hv (by simp))).trans hv
      · exact ⟨(hphase v (phase_other hw hv (by simp [hj]))).trans hv, rfl⟩
  · have hjk := ne_of_place (h.coming j hj) hplace (by simp)
    rw [update_of_ne hjk, h.coming j hj]
  · have hqueued := h.queued t j hj
    rw [update_of_ne (ne_of_place hqueued hplace (by simp)), hqueued]
  · have hheld := h.held v t j (hold v _ (by simp) hj).1
    rw [update_of_ne (ne_of_place hheld hplace (by simp)), hheld]
  · obtain ⟨hv, hne⟩ := hold v _ (by simp) hj
    have hserved := h.served v t j hv
    rw [update_of_ne (ne_of_place hserved hplace (by simp [hne])), hserved]

/-! ### Runs -/

theorem kept_invariant : Invariant (fun x : Process n => x = init listenSock) Step fun x =>
    ∃ place, Kept listenSock x place where
  init := by
    rintro x rfl
    exact ⟨_, .init⟩
  step := by
    rintro x x' ⟨place, h⟩ hs
    cases hs with
    | create hlt => exact ⟨_, h.create hlt⟩
    | accept client _ hsock hw => exact ⟨_, h.accept client hsock hw⟩
    | wake hw => exact ⟨_, h.pool (.goto (by rw [hw]; trivial) trivial) rfl⟩
    | @enter w pool hw hc =>
      have hfree : Free (x.pool.phase w) := by
        rcases hw with hw | hw <;> rw [hw] <;> trivial
      obtain ⟨-, rfl⟩ | ⟨task, q, hq, rfl⟩ := ThreadPool.critical_eq_some hc
      · exact ⟨_, h.pool (.goto hfree trivial) rfl⟩
      · exact ⟨_, h.took hfree hq⟩
    | run hw => exact ⟨_, h.run hw⟩
    | call hw hret hc => exact ⟨_, h.call hw hret hc⟩
    | close hw hpos => exact ⟨_, h.close hw hpos⟩
    | finish hw hpos => exact ⟨_, h.finish hw hpos⟩

/-- The descriptor that is open for a connection at this place. -/
def Place.sock (x : Process n) : Place n → Option ℕ
  | .coming | .done => none
  | .queued task | .held _ task => some task.sock
  | .served w task => if x.pos w = .returned then none else some task.sock

/-- **Each connection is answered once, through its own descriptor.** Whatever the threads do in
turns and however descriptors are used again: every connection has one place, which is the only one
of its task in the pool, and is kept there; and a descriptor is open for it exactly until the worker
that runs the task has closed it. -/
theorem one_answer (h : Reach listenSock x) : (x.pool.taskQueue.map Prod.snd).Nodup ∧
    ∃ place : ℕ → Place n, (∀ k, Keeps x k (place k)) ∧
      (∀ task k, (task, k) ∈ x.pool.taskQueue → place k = .queued task) ∧
      (∀ w task k, x.pool.phase w = .holding (task, k) → place k = .held w task) ∧
      (∀ w task k, x.pool.phase w = .working (task, k) → place k = .served w task) ∧
      ∀ fd k, x.table fd = some (.connection k) ↔ (place k).sock x = some fd := by
  obtain ⟨place, h⟩ := kept_invariant.reachable h
  refine ⟨h.nodup, place, h.keeps, h.queued, h.held, h.served, fun fd k => ?_⟩
  have hk := h.keeps k
  have hopen : ∀ {sock : ℕ}, x.table sock = some (.connection k) →
      (x.table fd = some (.connection k) ↔ some sock = some fd) := fun {sock} hsock => by
    constructor
    · intro hfd
      rw [h.single _ _ k hfd hsock]
    · rintro hfd
      rw [← Option.some.inj hfd, hsock]
  cases hplace : place k with
  | coming =>
    rw [hplace] at hk
    exact iff_of_false (hk.2.1 fd) (by simp [Place.sock])
  | queued task =>
    rw [hplace] at hk
    exact hopen hk.2.1
  | held w task =>
    rw [hplace] at hk
    exact hopen hk.2.1
  | served w task =>
    rw [hplace] at hk
    obtain ⟨-, hrest⟩ := hk
    simp only [Place.sock]
    split at hrest
    · rename_i hpos
      rw [if_pos hpos]
      exact iff_of_false (hrest.closed fd) (by simp)
    · rename_i hpos
      rw [if_neg hpos]
      exact hopen hrest.1.sock
  | done =>
    rw [hplace] at hk
    exact iff_of_false (hk.2.closed fd) (by simp [Place.sock])

/-- A connection that was answered, and the next one, which has its number again. -/
theorem one_answer_example : ∃ x : Process 1,
    x.talk (.connection 0) = [.recv (.bytes [104, 105, 33]), .send [72, 73, 33] (.count 3)] ∧
    x.table 4 = some (.connection 1) ∧ (x.pool.taskQueue.map Prod.snd).Nodup ∧
    ∃ place : ℕ → Place 1, (∀ k, Keeps x k (place k)) ∧
      (∀ task k, (task, k) ∈ x.pool.taskQueue → place k = .queued task) ∧
      (∀ w task k, x.pool.phase w = .holding (task, k) → place k = .held w task) ∧
      (∀ w task k, x.pool.phase w = .working (task, k) → place k = .served w task) ∧
      ∀ fd k, x.table fd = some (.connection k) ↔ (place k).sock x = some fd := by
  let client : SockaddrIn := ⟨⟨127, 0, 0, 1⟩, 40000⟩
  have hnone : ∀ p : ThreadPool 1 (Task × ℕ), p.phase 0 ≠ .waiting → p.Wakes none := by
    intro p hp w
    rwa [Subsingleton.elim w 0]
  have h₀ : Reach 3 (init 3 : Process 1) := .start rfl
  have h₁ := h₀.next (.create (by decide))
  have h₂ := h₁.next (@Step.accept 1 _ 4 none client rfl rfl (hnone _ nofun))
  have h₃ := h₂.next (@Step.enter 1 _ 0 _ (Or.inl rfl) (ThreadPool.critical_of_cons (q := []) rfl))
  have h₄ := h₃.next (@Step.run 1 _ 0 _ rfl)
  have h₅ := h₄.next (@Step.call 1 _ 0 _ (.recv (.bytes [104, 105, 33])) _ rfl rfl rfl)
  have h₆ := h₅.next (@Step.call 1 _ 0 _ (.send [72, 73, 33] (.count 3)) _ rfl rfl rfl)
  have h₇ := h₆.next (@Step.close 1 _ 0 _ rfl rfl)
  have h₈ := h₇.next (@Step.accept 1 _ 4 none client rfl rfl (hnone _ nofun))
  exact ⟨_, rfl, rfl, one_answer h₈⟩

end Process

end NetProg.TcpPool
