import NetProg.TcpPool.ThreadPool

/-!
# No task is lost, repeated or stranded

Three invariants of the pool, each kept by every step:

* `conserved`: what was pushed is what was taken and what is in the queue, in this order;
* `served`: what a worker took is what it ran, and what it is about to run;
* `awake`: while there is a task in the queue, not every worker is blocked. A worker blocks only
  when the queue is empty, and the task that ends this comes with a signal.

They are put together in `loses_no_task`.
-/

namespace NetProg.TcpPool

open NetProg.Lib Function Relation

namespace ThreadPool

variable {n : ℕ} {T : Type*} {p p' : ThreadPool n T} {w v : Fin n} {task : T} {q : List T}

/-! ### What a step does -/

section Fields

variable (p : ThreadPool n T) (w v : Fin n) (phase : Phase T) (o : Option (Fin n)) (task : T)

@[simp] theorem goto_pushed : (p.goto w phase).pushed = p.pushed := rfl
@[simp] theorem goto_taken : (p.goto w phase).taken = p.taken := rfl
@[simp] theorem goto_ran : (p.goto w phase).ran = p.ran := rfl
@[simp] theorem goto_self : (p.goto w phase).phase w = phase := update_self ..

theorem goto_of_ne (h : v ≠ w) : (p.goto w phase).phase v = p.phase v := update_of_ne h ..

@[simp] theorem pushTask_taskQueue : (p.pushTask task o).taskQueue = p.taskQueue ++ [task] := by
  cases o <;> rfl

@[simp] theorem pushTask_pushed : (p.pushTask task o).pushed = p.pushed ++ [task] := by
  cases o <;> rfl

@[simp] theorem pushTask_taken : (p.pushTask task o).taken = p.taken := by
  cases o <;> rfl

end Fields

/-- The worker after `getTask`, when `task` was in front of `q`. -/
def took (p : ThreadPool n T) (w : Fin n) (task : T) (q : List T) : ThreadPool n T :=
  { p.goto w (.holding task) with taskQueue := q, taken := p.taken ++ [(w, task)] }

theorem critical_of_nil (h : p.taskQueue = []) : p.critical w = some (p.goto w .waiting) := by
  simp [critical, isEmpty, waitCond, h]

theorem critical_of_cons (h : p.taskQueue = task :: q) :
    p.critical w = some (p.took w task q) := by
  simp [critical, isEmpty, getTask, took, goto, h]

theorem critical_eq_some (h : p.critical w = some p') :
    p.taskQueue = [] ∧ p' = p.goto w .waiting ∨
    ∃ task q, p.taskQueue = task :: q ∧ p' = p.took w task q := by
  cases hq : p.taskQueue with
  | nil =>
    rw [critical_of_nil hq] at h
    exact Or.inl ⟨rfl, (Option.some.inj h).symm⟩
  | cons task q =>
    rw [critical_of_cons hq] at h
    exact Or.inr ⟨task, q, rfl, (Option.some.inj h).symm⟩

theorem critical_ne_none (p : ThreadPool n T) (w : Fin n) : p.critical w ≠ none := by
  cases hq : p.taskQueue with
  | nil => rw [critical_of_nil hq]; exact Option.some_ne_none _
  | cons task q => rw [critical_of_cons hq]; exact Option.some_ne_none _

/-! ### Nothing is lost -/

/-- What was pushed was taken or is in the queue. -/
def Conserved (p : ThreadPool n T) : Prop := p.pushed = p.taken.map Prod.snd ++ p.taskQueue

theorem conserved : Invariant (fun p : ThreadPool n T => p = init) Step Conserved where
  init := by
    rintro p rfl
    rfl
  step := by
    intro p p' h hs
    unfold Conserved at h ⊢
    cases hs with
    | create _ => exact h
    | push task _ => simp [h]
    | work hw =>
      cases hw with
      | wake _ => exact h
      | run _ => exact h
      | finish _ => exact h
      | enter _ hc =>
        obtain ⟨-, rfl⟩ | ⟨task, q, hq, rfl⟩ := critical_eq_some hc
        · exact h
        · simp [took, h, hq]

/-! ### Nothing is repeated -/

/-- The tasks of a worker in a record of all. -/
def tasksOf (w : Fin n) (l : List (Fin n × T)) : List T :=
  l.filterMap fun e => if e.1 = w then some e.2 else none

@[simp] theorem tasksOf_concat_self (w : Fin n) (l : List (Fin n × T)) (task : T) :
    tasksOf w (l ++ [(w, task)]) = tasksOf w l ++ [task] := by
  simp [tasksOf]

theorem tasksOf_concat_of_ne (l : List (Fin n × T)) (task : T) (h : v ≠ w) :
    tasksOf v (l ++ [(w, task)]) = tasksOf v l := by
  simp [tasksOf, h.symm]

/-- What the worker took was run by it or is about to be. -/
def Served (w : Fin n) (p : ThreadPool n T) : Prop :=
  tasksOf w p.taken = tasksOf w p.ran ++ (p.phase w).pending

theorem Served.goto {phase : Phase T} (h : Served v p) (hbefore : (p.phase w).pending = [])
    (hafter : phase.pending = []) : Served v (p.goto w phase) := by
  unfold Served at h ⊢
  by_cases hv : v = w
  · subst hv
    rw [hbefore] at h
    rw [goto_self, hafter]
    exact h
  · rw [goto_of_ne p w v phase hv]
    exact h

theorem Served.pushTask {o : Option (Fin n)} (h : Served v p) (ho : p.Wakes o) (task : T) :
    Served v (p.pushTask task o) := by
  cases o with
  | none => exact h
  | some w =>
    refine Served.goto (p := { p with taskQueue := _, pushed := _ }) h ?_ rfl
    rw [show p.phase w = .waiting from ho]
    rfl

theorem Served.took (h : Served v p) (hbefore : (p.phase w).pending = []) :
    Served v (p.took w task q) := by
  unfold Served at h ⊢
  by_cases hv : v = w
  · subst hv
    rw [hbefore, List.append_nil] at h
    simp [ThreadPool.took, h, Phase.pending]
  · simp only [ThreadPool.took, tasksOf_concat_of_ne _ _ hv, goto_of_ne p w v _ hv]
    exact h

theorem Served.run (h : Served v p) (hw : p.phase w = .holding task) :
    Served v { p.goto w (.working task) with ran := p.ran ++ [(w, task)] } := by
  unfold Served at h ⊢
  by_cases hv : v = w
  · subst hv
    rw [hw] at h
    simp [h, Phase.pending]
  · simp only [tasksOf_concat_of_ne _ _ hv, goto_of_ne p w v _ hv]
    exact h

theorem served (v : Fin n) : Invariant (fun p : ThreadPool n T => p = init) Step (Served v) where
  init := by
    rintro p rfl
    rfl
  step := by
    intro p p' h hs
    cases hs with
    | create hw => exact h.goto (by rw [hw]; rfl) rfl
    | push task ho => exact h.pushTask ho task
    | work hw =>
      cases hw with
      | wake hw => exact h.goto (by rw [hw]; rfl) rfl
      | run hw => exact h.run hw
      | finish hw => exact h.goto (by rw [hw]; rfl) rfl
      | @enter w _ hw hc =>
        have hbefore : (p.phase w).pending = [] := by
          rcases hw with hw | hw <;> rw [hw] <;> rfl
        obtain ⟨-, rfl⟩ | ⟨task, q, -, rfl⟩ := critical_eq_some hc
        · exact h.goto hbefore rfl
        · exact h.took hbefore

/-! ### Nothing is stranded -/

/-- While there is a task in the queue, not all workers are blocked. -/
def Awake (p : ThreadPool n T) : Prop := p.taskQueue ≠ [] → ∃ w, p.phase w ≠ .waiting

theorem awake_of_goto {phase : Phase T} (h : phase ≠ .waiting) : Awake (p.goto w phase) :=
  fun _ => ⟨w, by rw [goto_self]; exact h⟩

theorem Awake.pushTask (hn : 0 < n) {o : Option (Fin n)} (ho : p.Wakes o) (task : T) :
    Awake (p.pushTask task o) := by
  cases o with
  | none => exact fun _ => ⟨⟨0, hn⟩, ho ⟨0, hn⟩⟩
  | some w => exact awake_of_goto (by simp)

theorem awake (hn : 0 < n) : Invariant (fun p : ThreadPool n T => p = init) Step Awake where
  init := by
    rintro p rfl h
    exact absurd rfl h
  step := by
    intro p p' h hs
    cases hs with
    | create _ => exact awake_of_goto (by simp)
    | push task ho => exact Awake.pushTask hn ho task
    | work hw =>
      cases hw with
      | wake _ => exact awake_of_goto (by simp)
      | @run w task _ => exact fun _ => ⟨w, by simp⟩
      | finish _ => exact awake_of_goto (by simp)
      | @enter w _ _ hc =>
        obtain ⟨hq, rfl⟩ | ⟨task, q, -, rfl⟩ := critical_eq_some hc
        · exact fun hne => absurd hq hne
        · exact fun _ => ⟨w, by simp [ThreadPool.took]⟩

/-! ### The pool -/

/-- **The pool loses, repeats and strands no task.** -/
theorem loses_no_task (hn : 0 < n) (h : Reach p) :
    p.pushed = p.taken.map Prod.snd ++ p.taskQueue ∧
      (∀ w, tasksOf w p.taken = tasksOf w p.ran ++ (p.phase w).pending) ∧
      (∀ w, p.critical w ≠ none) ∧
      ¬ (p.taskQueue ≠ [] ∧ ∀ w, p.phase w = .waiting) := by
  refine ⟨conserved.reachable h, fun w => (served w).reachable h, critical_ne_none p, ?_⟩
  rintro ⟨hq, hall⟩
  obtain ⟨w, hw⟩ := (awake hn).reachable h hq
  exact hw (hall w)

/-- Worker 0 is woken by a task that worker 1 takes. -/
theorem loses_no_task_example : ∃ p : ThreadPool 2 ℕ, p.phase 0 = .woken ∧ p.taken = [(1, 7)] ∧
    p.pushed = p.taken.map Prod.snd ++ p.taskQueue ∧
      (∀ w, tasksOf w p.taken = tasksOf w p.ran ++ (p.phase w).pending) ∧
      (∀ w, p.critical w ≠ none) ∧
      ¬ (p.taskQueue ≠ [] ∧ ∀ w, p.phase w = .waiting) := by
  have h₀ : Reach (init : ThreadPool 2 ℕ) := .start rfl
  have h₁ := h₀.next (.create (w := 0) rfl)
  have h₂ := h₁.next (.create (w := 1) rfl)
  have h₃ := h₂.next (.work (.enter (w := 0) (Or.inl rfl) (critical_of_nil rfl)))
  have h₄ := h₃.next (.push 7 (w := some 0) rfl)
  have h₅ := h₄.next (.work (.enter (w := 1) (Or.inl rfl) (critical_of_cons (q := []) rfl)))
  exact ⟨_, rfl, rfl, loses_no_task (by omega) h₅⟩

end ThreadPool

end NetProg.TcpPool
