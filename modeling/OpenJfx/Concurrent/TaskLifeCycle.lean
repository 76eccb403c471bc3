import OpenJfx.Lib.Run
import Mathlib.Data.List.Basic

/-! # The life cycle of a `javafx.concurrent.Task`

A task is run once by an executor.  Three parties take steps: the thread of the
executor in `FutureTask.run` and `TaskCallable.call`, threads that call `cancel`, and
the event thread, which executes the queued runnables in order and may call `cancel`
itself, also between two changes of the state. -/
set_option autoImplicit false
namespace OpenJfx.Concurrent
open OpenJfx.Lib

namespace Task

inductive State where
  | ready
  | scheduled
  | running
  | succeeded
  | cancelled
  | failed
deriving DecidableEq, Repr

section Types
variable (V X : Type)

/-- What a `FutureTask` has recorded: nothing, a result or a throwable, or that it
was cancelled. -/
inductive Future where
  | pristine
  | done (outcome : Except X V)
  | cancelled

/-- Where the thread of the executor is. -/
inductive Worker where
  | idle
  /-- `FutureTask.run` has found that nothing is recorded. -/
  | entered
  /-- In `task.call()`. -/
  | calling
  | returned (result : V)
  /-- In front of `runLater` with the outcome. -/
  | submitting (outcome : Except X V)
  /-- In front of `set` or `setException` of the future. -/
  | recording (outcome : Except X V)
  /-- `call` returns null as the task was cancelled. -/
  | discarding
  | finished

inductive Job where
  | start
  | finish (outcome : Except X V)
  | cancel

/-- `rest` are the changes of the state that are left of the runnable in execution,
`seen` the states so far.  `cancelling` says that a call of `cancel` off the event
thread is in front of `runLater`, and `returned` that a call has returned true. -/
structure Life where
  future : Future V X
  worker : Worker V X
  queue : List (Job V X)
  rest : List State
  state : State
  isRunning : Bool
  value : Option V
  exception : Option X
  seen : List State
  cancelling : Bool
  returned : Bool

inductive Action where
  /-- `FutureTask.run` starts. -/
  | run
  /-- `TaskCallable.call` up to `task.call()`. -/
  | call
  | return (result : V)
  | throw (throwable : X)
  /-- The test of `isCancelled`. -/
  | check
  | submit
  | record
  /-- `cancel` off the event thread, in two steps. -/
  | cancel
  | cancelLater
  /-- `cancel` on the event thread. -/
  | cancelNow
  | execute
  | resume

end Types

variable {V X : Type}

def outcomeState : Except X V → State
  | .ok _ => .succeeded
  | .error _ => .failed

def Job.states : Job V X → List State
  | .start => [.scheduled, .running]
  | .finish outcome => [outcomeState outcome]
  | .cancel => [.cancelled]

def setState (value : State) (s : Life V X) : Life V X :=
  if s.state = .cancelled then s
  else { s with
    state := value
    isRunning := value == .scheduled || value == .running
    seen := s.seen ++ [value] }

/-- `updateValue(result)` or `_setException(th)`. -/
def publish : Job V X → Life V X → Life V X
  | .start, s => s
  | .finish (.ok result), s => { s with value := some result }
  | .finish (.error throwable), s => { s with exception := some throwable }
  | .cancel, s => s

/-- The runnable up to its first change of the state. -/
def perform (job : Job V X) (s : Life V X) : Life V X :=
  match job.states with
  | [] => s
  | value :: rest => { setState value (publish job s) with rest := rest }

def isPristine (s : Life V X) : Bool := match s.future with
  | .pristine => true
  | .done _ => false
  | .cancelled => false

/-- `isCancelled()` of the future. -/
def isCancelled (s : Life V X) : Bool := match s.future with
  | .pristine => false
  | .done _ => false
  | .cancelled => true

def act : Action V X → Life V X → Option (Life V X)
  | .run, s => match s.worker with
      | .idle => some { s with worker := if isPristine s then .entered else .finished }
      | _ => none
  | .call, s => match s.worker with
      | .entered => some { s with worker := .calling, queue := s.queue ++ [.start] }
      | _ => none
  | .return result, s => match s.worker with
      | .calling => some { s with worker := .returned result }
      | _ => none
  | .throw throwable, s => match s.worker with
      | .calling => some { s with worker := .submitting (.error throwable) }
      | _ => none
  | .check, s => match s.worker with
      | .returned result =>
          some { s with worker := if isCancelled s then .discarding else .submitting (.ok result) }
      | _ => none
  | .submit, s => match s.worker with
      | .submitting outcome => some { s with worker := .recording outcome, queue := s.queue ++ [.finish outcome] }
      | _ => none
  | .record, s => match s.worker with
      | .recording outcome =>
          some { s with worker := .finished, future := if isPristine s then .done outcome else s.future }
      -- null is not recorded by a future that was cancelled
      | .discarding => some { s with worker := .finished }
      | _ => none
  | .cancel, s =>
      if isPristine s then some { s with future := .cancelled, cancelling := true } else some s
  | .cancelLater, s =>
      if s.cancelling then some { s with cancelling := false, returned := true, queue := s.queue ++ [.cancel] } else none
  | .cancelNow, s =>
      if isPristine s then some { setState .cancelled { s with future := .cancelled } with returned := true } else some s
  | .execute, s => match s.rest, s.queue with
      | [], job :: queue => some (perform job { s with queue := queue })
      | _, _ => none
  | .resume, s => match s.rest with
      | value :: rest => some { setState value s with rest := rest }
      | [] => none

attribute [local simp] act

def created : Life V X := ⟨.pristine, .idle, [], [], .ready, false, none, none, [.ready], false, false⟩

/-! ## What the life cycle should be -/

/-- The states in order, up to a point, and the cancellation of a task that has not
ended. -/
def LifeCycle (seen : List State) : Prop :=
  seen <+: [State.ready, .scheduled, .running, .succeeded] ∨ seen <+: [State.ready, .scheduled, .running, .failed] ∨
    ∃ front, front ≠ [] ∧ front <+: [State.ready, .scheduled, .running] ∧ seen = front ++ [State.cancelled]

def Terminal : State → Prop
  | .succeeded => True
  | .failed => True
  | .cancelled => True
  | .ready => False
  | .scheduled => False
  | .running => False

def Settled (s : Life V X) : Prop := s.queue = [] ∧ s.rest = []

/-- The state of a settled task agrees with the future. -/
def Agrees (s : Life V X) : Prop :=
  (s.state = .cancelled ↔ s.returned = true) ∧
    (s.returned = false → ∀ outcome, s.future = .done outcome → s.state = outcomeState outcome)

/-- No `cancel` overtakes the outcome: on the event thread it does not succeed in a
state that shows an outcome, and off the event thread its `runLater` does not execute the
`runLater` of an outcome. -/
def InTime (a : Action V X) (s : Life V X) : Prop := match a with
  | .cancelNow => isPristine s = true → s.state ≠ .succeeded ∧ s.state ≠ .failed
  | .cancelLater => s.state ≠ .succeeded ∧ s.state ≠ .failed ∧ ∀ outcome, Job.finish outcome ∉ s.queue
  | _ => True

/-! ## The invariant -/

/-- The changes of the state that are still to come. -/
def todo (s : Life V X) : List State := s.rest ++ s.queue.flatMap Job.states

/-- The changes of the state that the thread of the executor has asked for. -/
inductive Asked : Worker V X → Future V X → List State → Prop where
  | before {worker : Worker V X} {future : Future V X} (idle : worker = .idle ∨ worker = .entered)
      (undone : ∀ outcome, future ≠ .done outcome) : Asked worker future []
  | during {worker : Worker V X} {future : Future V X}
      (busy : worker = .calling ∨ (∃ result, worker = .returned result) ∨ (∃ outcome, worker = .submitting outcome) ∨
        worker = .discarding ∧ future = .cancelled)
      (undone : ∀ outcome, future ≠ .done outcome) : Asked worker future [.scheduled, .running]
  | after {future : Future V X} (outcome : Except X V) (undone : ∀ outcome, future ≠ .done outcome) :
      Asked (.recording outcome) future [.scheduled, .running, outcomeState outcome]
  | recorded (outcome : Except X V) :
      Asked .finished (.done outcome) [.scheduled, .running, outcomeState outcome]
  | cancelled {asked : List State}
      (path : asked = [] ∨ asked = [.scheduled, .running] ∨
        ∃ outcome : Except X V, asked = [.scheduled, .running, outcomeState outcome]) :
      Asked .finished .cancelled asked

/-- Nothing is cancelled on the event thread, or the cancellation is queued behind
`front`, or it has been executed. -/
inductive Phase (s : Life V X) : Prop where
  | open (asked : List State) (plan : Asked s.worker s.future asked) (states : s.seen ++ todo s = .ready :: asked)
      (returned : s.returned = false) (cancelling : s.cancelling = true → s.future = .cancelled)
  | closing (front back : List State) (jobs : todo s = front ++ .cancelled :: back)
      (states : s.seen ++ front <+: [.ready, .scheduled, .running]) (returned : s.returned = true)
      (future : s.future = .cancelled)
  | closed (front : List State) (nonempty : front ≠ []) (states : front <+: [.ready, .scheduled, .running])
      (seen : s.seen = front ++ [State.cancelled]) (returned : s.returned = true) (future : s.future = .cancelled)

structure Lives (s : Life V X) : Prop where
  last : s.seen.getLast? = some s.state
  resting : ∀ value ∈ s.rest, value = .running
  phase : Phase s

theorem Asked.paths {worker : Worker V X} {future : Future V X} {asked : List State} (h : Asked worker future asked) :
    asked = [] ∨ asked = [.scheduled, .running] ∨
      ∃ outcome : Except X V, asked = [.scheduled, .running, outcomeState outcome] := by
  cases h with
  | before idle undone => exact Or.inl rfl
  | during busy undone => exact Or.inr (Or.inl rfl)
  | after outcome undone => exact Or.inr (Or.inr ⟨outcome, rfl⟩)
  | recorded outcome => exact Or.inr (Or.inr ⟨outcome, rfl⟩)
  | cancelled path => exact path

theorem Asked.not_cancelled {worker : Worker V X} {future : Future V X} {asked : List State}
    (h : Asked worker future asked) : State.cancelled ∉ State.ready :: asked := by
  rcases h.paths with rfl | rfl | ⟨outcome, rfl⟩
  · decide
  · decide
  · cases outcome with
    | ok result => change State.cancelled ∉ [State.ready, .scheduled, .running, .succeeded]; decide
    | error throwable => change State.cancelled ∉ [State.ready, .scheduled, .running, .failed]; decide

theorem Asked.cancel {worker : Worker V X} {asked : List State} (h : Asked worker .pristine asked) :
    Asked worker .cancelled asked := by
  have hundone : ∀ outcome : Except X V, Future.cancelled ≠ .done outcome := fun _ h => nomatch h
  cases h with
  | before idle undone => exact .before idle hundone
  | during busy undone =>
    refine .during ?_ hundone
    rcases busy with h | h | h | h
    · exact Or.inl h
    · exact Or.inr (Or.inl h)
    · exact Or.inr (Or.inr (Or.inl h))
    · exact nomatch h.2
  | after outcome undone => exact .after outcome hundone

theorem future_cases {s : Life V X} (h : isPristine s = false) (undone : ∀ outcome, s.future ≠ .done outcome) :
    s.future = .cancelled := by
  unfold isPristine at h
  cases hf : s.future with
  | pristine =>
    rw [hf] at h
    cases h
  | done outcome => exact absurd hf (undone outcome)
  | cancelled => rfl

theorem pristine_iff {s : Life V X} : isPristine s = true ↔ s.future = .pristine := by
  unfold isPristine
  cases s.future with
  | pristine => exact iff_of_true rfl rfl
  | done outcome => exact iff_of_false (fun h => nomatch h) (fun h => nomatch h)
  | cancelled => exact iff_of_false (fun h => nomatch h) (fun h => nomatch h)

/-! ## Steps of the event thread -/

/-- The event thread has made the next change of the state. -/
structure Advances (value : State) (s t : Life V X) : Prop where
  todo : todo s = value :: Task.todo t
  worker : t.worker = s.worker
  future : t.future = s.future
  cancelling : t.cancelling = s.cancelling
  returned : t.returned = s.returned
  kept : s.state = .cancelled → t.seen = s.seen ∧ t.state = s.state
  made : s.state ≠ .cancelled → t.seen = s.seen ++ [value] ∧ t.state = value

theorem setState_cases (value : State) (s : Life V X) :
    (s.state = .cancelled → setState value s = s) ∧
      (s.state ≠ .cancelled → (setState value s).seen = s.seen ++ [value] ∧ (setState value s).state = value) := by
  constructor
  · intro h
    rw [setState, if_pos h]
  · intro h
    rw [setState, if_neg h]
    exact ⟨rfl, rfl⟩

theorem setState_frame (value : State) (s : Life V X) :
    (setState value s).worker = s.worker ∧ (setState value s).future = s.future ∧
      (setState value s).cancelling = s.cancelling ∧ (setState value s).returned = s.returned ∧
      (setState value s).queue = s.queue ∧ (setState value s).rest = s.rest := by
  rw [setState]
  split
  · exact ⟨rfl, rfl, rfl, rfl, rfl, rfl⟩
  · exact ⟨rfl, rfl, rfl, rfl, rfl, rfl⟩

theorem publish_frame (job : Job V X) (s : Life V X) :
    (publish job s).worker = s.worker ∧ (publish job s).future = s.future ∧ (publish job s).cancelling = s.cancelling ∧
      (publish job s).returned = s.returned ∧ (publish job s).queue = s.queue ∧ (publish job s).state = s.state ∧
      (publish job s).seen = s.seen := by
  cases job with
  | start => exact ⟨rfl, rfl, rfl, rfl, rfl, rfl, rfl⟩
  | finish outcome =>
    cases outcome with
    | ok result => exact ⟨rfl, rfl, rfl, rfl, rfl, rfl, rfl⟩
    | error throwable => exact ⟨rfl, rfl, rfl, rfl, rfl, rfl, rfl⟩
  | cancel => exact ⟨rfl, rfl, rfl, rfl, rfl, rfl, rfl⟩

theorem resume_advances {s t : Life V X} (h : act .resume s = some t) : ∃ value, Advances value s t ∧ t.rest <:+ s.rest := by
  rw [act] at h
  cases hrest : s.rest with
  | nil =>
    rw [hrest] at h
    cases h
  | cons value rest =>
    rw [hrest] at h
    cases h
    obtain ⟨hkept, hmade⟩ := setState_cases value s
    obtain ⟨hworker, hfuture, hcancelling, hreturned, hqueue, -⟩ := setState_frame value s
    refine ⟨value, ⟨?_, hworker, hfuture, hcancelling, hreturned, ?_, hmade⟩, List.suffix_cons value rest⟩
    · rw [todo, todo, hrest, hqueue]
      rfl
    · intro hc
      dsimp only
      rw [hkept hc]
      exact ⟨rfl, rfl⟩

theorem perform_advances (job : Job V X) {s u : Life V X} (queue : s.queue = job :: u.queue) (rest : s.rest = [])
    (worker : u.worker = s.worker) (future : u.future = s.future) (cancelling : u.cancelling = s.cancelling)
    (returned : u.returned = s.returned) (state : u.state = s.state) (seen : u.seen = s.seen) :
    ∃ value, Advances value s (perform job u) ∧ ∀ value ∈ (perform job u).rest, value = .running := by
  obtain ⟨value, left, hstates, hrunning⟩ : ∃ value left, job.states = value :: left ∧
      ∀ value ∈ left, value = State.running := by
    cases job with
    | start => exact ⟨_, _, rfl, by simp⟩
    | finish outcome => exact ⟨_, _, rfl, by simp⟩
    | cancel => exact ⟨_, _, rfl, by simp⟩
  have hperform : perform job u = { setState value (publish job u) with rest := left } := by
    rw [perform, hstates]
  obtain ⟨hkept, hmade⟩ := setState_cases value (publish job u)
  obtain ⟨hw, hf, hc, hr, hq, -⟩ := setState_frame value (publish job u)
  obtain ⟨hw', hf', hc', hr', hq', hstate, hseen⟩ := publish_frame job u
  rw [hstate, state] at hkept hmade
  rw [hseen, seen] at hmade
  rw [hperform]
  refine ⟨value, ⟨?_, (hw.trans hw').trans worker, (hf.trans hf').trans future, (hc.trans hc').trans cancelling,
    (hr.trans hr').trans returned, ?_, hmade⟩, hrunning⟩
  · rw [todo, todo, rest, queue, List.flatMap_cons, hstates]
    dsimp only
    rw [hq, hq']
    rfl
  · intro hcancelled
    dsimp only
    rw [hkept hcancelled]
    exact ⟨hseen.trans seen, hstate.trans state⟩

theorem execute_advances {s t : Life V X} (h : act .execute s = some t) :
    ∃ value, Advances value s t ∧ ∀ value ∈ t.rest, value = .running := by
  rw [act] at h
  cases hrest : s.rest with
  | cons value rest =>
    rw [hrest] at h
    cases h
  | nil =>
    cases hqueue : s.queue with
    | nil =>
      rw [hrest, hqueue] at h
      cases h
    | cons job queue =>
      rw [hrest, hqueue] at h
      cases h
      exact perform_advances job hqueue hrest rfl rfl rfl rfl rfl rfl

theorem advance_phase {value : State} {s t : Life V X} (hs : Lives s) (h : Advances value s t) :
    t.seen.getLast? = some t.state ∧ Phase t := by
  have hmember : s.state ∈ s.seen := List.mem_of_getLast? hs.last
  have hmade : s.state ≠ .cancelled → t.seen.getLast? = some t.state := by
    intro hne
    obtain ⟨hseen, hstate⟩ := h.made hne
    rw [hseen, hstate, List.getLast?_append, List.getLast?_singleton, Option.some_or]
  cases hs.phase with
  | «open» asked plan states returned cancelling =>
    have hne : s.state ≠ .cancelled := by
      intro heq
      apply plan.not_cancelled
      rw [← states, ← heq]
      exact List.mem_append_left _ hmember
    refine ⟨hmade hne, .open asked ?_ ?_ (h.returned.trans returned) ?_⟩
    · rw [h.worker, h.future]
      exact plan
    · rw [(h.made hne).1, List.append_assoc, List.singleton_append, ← h.todo, states]
    · rw [h.cancelling, h.future]
      exact cancelling
  | closing front back jobs states returned future =>
    have hne : s.state ≠ .cancelled := by
      intro heq
      have hin : State.cancelled ∈ [State.ready, .scheduled, .running] := by
        refine states.subset (List.mem_append_left _ ?_)
        rw [← heq]
        exact hmember
      exact absurd hin (by decide)
    refine ⟨hmade hne, ?_⟩
    rw [h.todo] at jobs
    cases front with
    | nil =>
      -- the cancellation itself
      obtain ⟨rfl, -⟩ := List.cons.inj jobs
      rw [List.append_nil] at states
      refine .closed s.seen (List.ne_nil_of_mem hmember) states (h.made hne).1 (h.returned.trans returned) (h.future.trans future)
    | cons first front =>
      obtain ⟨rfl, hrest⟩ := List.cons.inj jobs
      refine .closing front back hrest ?_ (h.returned.trans returned) (h.future.trans future)
      rw [(h.made hne).1, List.append_assoc]
      exact states
  | closed front nonempty states seen returned future =>
    have heq : s.state = .cancelled := by
      have hlast := hs.last
      rw [seen, List.getLast?_append, List.getLast?_singleton, Option.some_or] at hlast
      exact (Option.some.inj hlast).symm
    obtain ⟨hseen, hstate⟩ := h.kept heq
    refine ⟨by rw [hseen, hstate, hs.last], .closed front nonempty states (hseen.trans seen) (h.returned.trans returned) (h.future.trans future)⟩

/-! ## Steps of the executor -/

/-- The thread of the executor has taken a step and queued `jobs`. -/
structure Continues (jobs : List (Job V X)) (s t : Life V X) : Prop where
  queue : t.queue = s.queue ++ jobs
  rest : t.rest = s.rest
  state : t.state = s.state
  seen : t.seen = s.seen
  cancelling : t.cancelling = s.cancelling
  returned : t.returned = s.returned
  future : s.future = .cancelled → t.future = .cancelled

theorem Continues.todo {jobs : List (Job V X)} {s t : Life V X} (h : Continues jobs s t) :
    todo t = Task.todo s ++ jobs.flatMap Job.states := by
  rw [Task.todo, Task.todo, h.queue, h.rest, List.flatMap_append, List.append_assoc]

theorem Continues.lives {jobs : List (Job V X)} {s t : Life V X} (hs : Lives s) (h : Continues jobs s t)
    (plan : ∀ asked, Asked s.worker s.future asked → Asked t.worker t.future (asked ++ jobs.flatMap Job.states)) :
    Lives t := by
  refine ⟨by rw [h.seen, h.state, hs.last], by rw [h.rest]; exact hs.resting, ?_⟩
  cases hs.phase with
  | «open» asked asks states returned cancelling =>
    refine .open _ (plan asked asks) ?_ (h.returned.trans returned) ?_
    · rw [h.seen, h.todo, ← List.append_assoc, states, List.cons_append]
    · intro hc
      rw [h.cancelling] at hc
      exact h.future (cancelling hc)
  | closing front back todo states returned future =>
    refine .closing front (back ++ jobs.flatMap Job.states) ?_ ?_ (h.returned.trans returned) (h.future future)
    · rw [h.todo, todo, List.append_assoc, List.cons_append]
    · rw [h.seen]
      exact states
  | closed front nonempty states seen returned future =>
    exact .closed front nonempty states (h.seen.trans seen) (h.returned.trans returned) (h.future future)

theorem Asked.of_start {worker : Worker V X} {future : Future V X} {asked : List State} (h : Asked worker future asked)
    (hworker : worker = .idle ∨ worker = .entered) : asked = [] ∧ ∀ outcome, future ≠ .done outcome := by
  cases h with
  | before idle undone => exact ⟨rfl, undone⟩
  | during busy undone =>
    rcases hworker with rfl | rfl
    · rcases busy with h | ⟨_, h⟩ | ⟨_, h⟩ | ⟨h, -⟩ <;> cases h
    · rcases busy with h | ⟨_, h⟩ | ⟨_, h⟩ | ⟨h, -⟩ <;> cases h
  | after outcome undone => rcases hworker with h | h <;> cases h
  | recorded outcome => rcases hworker with h | h <;> cases h
  | cancelled path => rcases hworker with h | h <;> cases h

theorem Asked.of_busy {worker : Worker V X} {future : Future V X} {asked : List State} (h : Asked worker future asked)
    (hworker : worker = .calling ∨ (∃ result, worker = .returned result) ∨ ∃ outcome, worker = .submitting outcome) :
    asked = [.scheduled, .running] ∧ ∀ outcome, future ≠ .done outcome := by
  cases h with
  | before idle undone =>
    rcases idle with rfl | rfl
    · rcases hworker with h | ⟨_, h⟩ | ⟨_, h⟩ <;> cases h
    · rcases hworker with h | ⟨_, h⟩ | ⟨_, h⟩ <;> cases h
  | during busy undone => exact ⟨rfl, undone⟩
  | after outcome undone => rcases hworker with h | ⟨_, h⟩ | ⟨_, h⟩ <;> cases h
  | recorded outcome => rcases hworker with h | ⟨_, h⟩ | ⟨_, h⟩ <;> cases h
  | cancelled path => rcases hworker with h | ⟨_, h⟩ | ⟨_, h⟩ <;> cases h

theorem Asked.of_recording {outcome : Except X V} {future : Future V X} {asked : List State}
    (h : Asked (.recording outcome) future asked) :
    asked = [.scheduled, .running, outcomeState outcome] ∧ ∀ outcome, future ≠ .done outcome := by
  cases h with
  | before idle undone => rcases idle with h | h <;> cases h
  | during busy undone => rcases busy with h | ⟨_, h⟩ | ⟨_, h⟩ | ⟨h, -⟩ <;> cases h
  | after outcome undone => exact ⟨rfl, undone⟩

theorem Asked.of_discarding {future : Future V X} {asked : List State} (h : Asked .discarding future asked) :
    asked = [.scheduled, .running] ∧ future = .cancelled := by
  cases h with
  | before idle undone => rcases idle with h | h <;> cases h
  | during busy undone =>
    rcases busy with h | ⟨_, h⟩ | ⟨_, h⟩ | ⟨-, h⟩
    · cases h
    · cases h
    · cases h
    · exact ⟨rfl, h⟩

theorem isCancelled_iff {s : Life V X} : isCancelled s = true ↔ s.future = .cancelled := by
  unfold isCancelled
  cases s.future with
  | pristine => exact iff_of_false (fun h => nomatch h) (fun h => nomatch h)
  | done outcome => exact iff_of_false (fun h => nomatch h) (fun h => nomatch h)
  | cancelled => exact iff_of_true rfl rfl

theorem run_lives {s t : Life V X} (hs : Lives s) (h : act .run s = some t) : Lives t := by
  rw [act] at h
  split at h
  · rename_i hworker
    cases h
    have hframe : Continues [] s { s with worker := if isPristine s then .entered else .finished } :=
      ⟨(List.append_nil _).symm, rfl, rfl, rfl, rfl, rfl, id⟩
    refine hframe.lives hs ?_
    intro asked hasked
    rw [hworker] at hasked
    obtain ⟨rfl, hundone⟩ := hasked.of_start (Or.inl rfl)
    change Asked (if isPristine s then .entered else .finished) s.future []
    by_cases hpristine : isPristine s = true
    · rw [if_pos hpristine]
      exact .before (Or.inr rfl) hundone
    · rw [if_neg hpristine, future_cases (by simpa using hpristine) hundone]
      exact .cancelled (Or.inl rfl)
  · cases h

theorem call_lives {s t : Life V X} (hs : Lives s) (h : act .call s = some t) : Lives t := by
  rw [act] at h
  split at h
  · rename_i hworker
    cases h
    have hframe : Continues [.start] s { s with worker := .calling, queue := s.queue ++ [.start] } :=
      ⟨rfl, rfl, rfl, rfl, rfl, rfl, id⟩
    refine hframe.lives hs ?_
    intro asked hasked
    rw [hworker] at hasked
    obtain ⟨rfl, hundone⟩ := hasked.of_start (Or.inr rfl)
    exact .during (Or.inl rfl) hundone
  · cases h

theorem return_lives {result : V} {s t : Life V X} (hs : Lives s) (h : act (.return result) s = some t) : Lives t := by
  rw [act] at h
  split at h
  · rename_i hworker
    cases h
    have hframe : Continues [] s { s with worker := .returned result } :=
      ⟨(List.append_nil _).symm, rfl, rfl, rfl, rfl, rfl, id⟩
    refine hframe.lives hs ?_
    intro asked hasked
    rw [hworker] at hasked
    obtain ⟨rfl, hundone⟩ := hasked.of_busy (Or.inl rfl)
    exact .during (Or.inr (Or.inl ⟨result, rfl⟩)) hundone
  · cases h

theorem throw_lives {throwable : X} {s t : Life V X} (hs : Lives s) (h : act (.throw throwable) s = some t) :
    Lives t := by
  rw [act] at h
  split at h
  · rename_i hworker
    cases h
    have hframe : Continues [] s { s with worker := .submitting (.error throwable) } :=
      ⟨(List.append_nil _).symm, rfl, rfl, rfl, rfl, rfl, id⟩
    refine hframe.lives hs ?_
    intro asked hasked
    rw [hworker] at hasked
    obtain ⟨rfl, hundone⟩ := hasked.of_busy (Or.inl rfl)
    exact .during (Or.inr (Or.inr (Or.inl ⟨_, rfl⟩))) hundone
  · cases h

theorem check_lives {s t : Life V X} (hs : Lives s) (h : act .check s = some t) : Lives t := by
  rw [act] at h
  split at h
  · rename_i result hworker
    cases h
    have hframe : Continues [] s { s with worker := if isCancelled s then .discarding else .submitting (.ok result) } :=
      ⟨(List.append_nil _).symm, rfl, rfl, rfl, rfl, rfl, id⟩
    refine hframe.lives hs ?_
    intro asked hasked
    rw [hworker] at hasked
    obtain ⟨rfl, hundone⟩ := hasked.of_busy (Or.inr (Or.inl ⟨result, rfl⟩))
    change Asked (if isCancelled s then .discarding else .submitting (.ok result)) s.future [.scheduled, .running]
    by_cases hcancelled : isCancelled s = true
    · rw [if_pos hcancelled]
      exact .during (Or.inr (Or.inr (Or.inr ⟨rfl, isCancelled_iff.mp hcancelled⟩))) hundone
    · rw [if_neg hcancelled]
      exact .during (Or.inr (Or.inr (Or.inl ⟨_, rfl⟩))) hundone
  · cases h

theorem submit_lives {s t : Life V X} (hs : Lives s) (h : act .submit s = some t) : Lives t := by
  rw [act] at h
  split at h
  · rename_i outcome hworker
    cases h
    have hframe : Continues [.finish outcome] s
        { s with worker := .recording outcome, queue := s.queue ++ [.finish outcome] } :=
      ⟨rfl, rfl, rfl, rfl, rfl, rfl, id⟩
    refine hframe.lives hs ?_
    intro asked hasked
    rw [hworker] at hasked
    obtain ⟨rfl, hundone⟩ := hasked.of_busy (Or.inr (Or.inr ⟨outcome, rfl⟩))
    exact .after outcome hundone
  · cases h

theorem record_lives {s t : Life V X} (hs : Lives s) (h : act .record s = some t) : Lives t := by
  rw [act] at h
  split at h
  · rename_i outcome hworker
    cases h
    have hframe : Continues [] s
        { s with worker := .finished, future := if isPristine s then .done outcome else s.future } := by
      refine ⟨(List.append_nil _).symm, rfl, rfl, rfl, rfl, rfl, ?_⟩
      intro hcancelled
      have hpristine : ¬ isPristine s = true := by
        rw [pristine_iff, hcancelled]
        exact fun h => nomatch h
      dsimp only
      rw [if_neg hpristine, hcancelled]
    refine hframe.lives hs ?_
    intro asked hasked
    rw [hworker] at hasked
    obtain ⟨rfl, hundone⟩ := hasked.of_recording
    change Asked .finished (if isPristine s then .done outcome else s.future) [.scheduled, .running, outcomeState outcome]
    by_cases hpristine : isPristine s = true
    · rw [if_pos hpristine]
      exact .recorded outcome
    · rw [if_neg hpristine, future_cases (by simpa using hpristine) hundone]
      exact .cancelled (Or.inr (Or.inr ⟨outcome, rfl⟩))
  · rename_i hworker
    cases h
    have hframe : Continues [] s { s with worker := .finished } :=
      ⟨(List.append_nil _).symm, rfl, rfl, rfl, rfl, rfl, id⟩
    refine hframe.lives hs ?_
    intro asked hasked
    rw [hworker] at hasked
    obtain ⟨rfl, hfuture⟩ := hasked.of_discarding
    change Asked .finished s.future [.scheduled, .running]
    rw [hfuture]
    exact .cancelled (Or.inr (Or.inl rfl))
  · cases h

/-! ## Cancellation -/

theorem pristine_phase {s : Life V X} (hs : Lives s) (hpristine : isPristine s = true) :
    ∃ asked, Asked s.worker .pristine asked ∧ s.seen ++ todo s = .ready :: asked ∧ s.returned = false := by
  have hfuture := pristine_iff.mp hpristine
  cases hs.phase with
  | «open» asked plan states returned cancelling =>
    rw [hfuture] at plan
    exact ⟨asked, plan, states, returned⟩
  | closing front back todo states returned future =>
    rw [hfuture] at future
    cases future
  | closed front nonempty states seen returned future =>
    rw [hfuture] at future
    cases future

theorem cancel_lives {s t : Life V X} (hs : Lives s) (h : act .cancel s = some t) : Lives t := by
  rw [act] at h
  by_cases hpristine : isPristine s = true
  · rw [if_pos hpristine] at h
    cases h
    obtain ⟨asked, plan, states, returned⟩ := pristine_phase hs hpristine
    exact ⟨hs.last, hs.resting, .open asked plan.cancel states returned fun _ => rfl⟩
  · rw [if_neg hpristine] at h
    cases h
    exact hs

theorem before_outcome {outcome : Except X V} {front back : List State}
    (h : front ++ back = [.ready, .scheduled, .running, outcomeState outcome]) (hback : back ≠ []) :
    front <+: [.ready, .scheduled, .running] := by
  obtain ⟨init, last, rfl⟩ := (List.eq_nil_or_concat' back).resolve_left hback
  have hinit : front ++ init = [.ready, .scheduled, .running] := by
    have hsplit : (front ++ init) ++ [last] = [State.ready, .scheduled, .running] ++ [outcomeState outcome] := by
      rw [List.append_assoc, h]
      rfl
    exact (List.append_inj' hsplit rfl).1
  exact ⟨init, hinit⟩

theorem outcomeState_cases (outcome : Except X V) : outcomeState outcome = .succeeded ∨ outcomeState outcome = .failed := by
  cases outcome with
  | ok result => exact Or.inl rfl
  | error throwable => exact Or.inr rfl

theorem seen_running {worker : Worker V X} {future : Future V X} {asked : List State} {s : Life V X} (hs : Lives s)
    (plan : Asked worker future asked) (states : s.seen ++ todo s = .ready :: asked)
    (hstate : s.state ≠ .succeeded ∧ s.state ≠ .failed) : s.seen <+: [.ready, .scheduled, .running] := by
  rcases plan.paths with rfl | rfl | ⟨outcome, rfl⟩
  · exact (List.prefix_append s.seen (todo s)).trans (by rw [states]; exact ⟨[.scheduled, .running], rfl⟩)
  · exact (List.prefix_append s.seen (todo s)).trans (by rewrite [states]; exact ⟨[], rfl⟩)
  · refine before_outcome states ?_
    intro hnil
    rw [hnil, List.append_nil] at states
    have hlast := hs.last
    rw [states] at hlast
    have heq : outcomeState outcome = s.state := Option.some.inj hlast
    rcases outcomeState_cases outcome with h | h
    · exact hstate.1 (heq.symm.trans h)
    · exact hstate.2 (heq.symm.trans h)

theorem cancelNow_lives {s t : Life V X} (hs : Lives s) (htime : InTime .cancelNow s) (h : act .cancelNow s = some t) :
    Lives t := by
  rw [act] at h
  by_cases hpristine : isPristine s = true
  · rw [if_pos hpristine] at h
    cases h
    obtain ⟨asked, plan, states, -⟩ := pristine_phase hs hpristine
    have hmember : s.state ∈ s.seen := List.mem_of_getLast? hs.last
    have hne : s.state ≠ .cancelled := by
      intro heq
      apply plan.not_cancelled
      rw [← states, ← heq]
      exact List.mem_append_left _ hmember
    obtain ⟨hseen, hstate⟩ := (setState_cases .cancelled { s with future := .cancelled }).2 hne
    obtain ⟨-, hfuture, -, -, -, hrest⟩ := setState_frame .cancelled { s with future := .cancelled }
    refine ⟨?_, ?_, ?_⟩
    · change (setState .cancelled { s with future := .cancelled }).seen.getLast? =
        some (setState .cancelled { s with future := .cancelled }).state
      rw [hseen, hstate, List.getLast?_append, List.getLast?_singleton, Option.some_or]
    · change ∀ value ∈ (setState .cancelled { s with future := .cancelled }).rest, value = .running
      rw [hrest]
      exact hs.resting
    · exact .closed s.seen (List.ne_nil_of_mem hmember) (seen_running hs plan states (htime hpristine)) hseen rfl hfuture
  · rw [if_neg hpristine] at h
    cases h
    exact hs

theorem cancelLater_lives {s t : Life V X} (hs : Lives s) (htime : InTime .cancelLater s)
    (h : act .cancelLater s = some t) : Lives t := by
  rw [act] at h
  by_cases hcancelling : s.cancelling = true
  · rw [if_pos hcancelling] at h
    cases h
    have htodo : todo { s with cancelling := false, returned := true, queue := s.queue ++ [.cancel] } =
        todo s ++ [State.cancelled] := by
      rw [todo, todo, List.flatMap_append, ← List.append_assoc]
      rfl
    refine ⟨hs.last, hs.resting, ?_⟩
    obtain ⟨hsucceeded, hfailed, hqueue⟩ := htime
    cases hs.phase with
    | «open» asked plan states returned cancelling =>
      refine .closing (todo s) [] htodo ?_ rfl (cancelling hcancelling)
      -- an outcome that was asked for would be shown or queued
      rcases plan.paths with rfl | rfl | ⟨outcome, rfl⟩
      · exact ⟨[.scheduled, .running], by rw [states]; rfl⟩
      · exact ⟨[], by rw [states]; rfl⟩
      · exfalso
        have houtcome := outcomeState_cases outcome
        have hin : outcomeState outcome ∈ todo s := by
          have hlast := congrArg List.getLast? states
          rw [List.getLast?_append] at hlast
          cases htail : (todo s).getLast? with
          | none =>
            rw [htail, Option.none_or, hs.last] at hlast
            have heq : s.state = outcomeState outcome := Option.some.inj hlast
            rcases houtcome with h | h
            · exact absurd (heq.trans h) hsucceeded
            · exact absurd (heq.trans h) hfailed
          | some value =>
            rw [htail, Option.some_or] at hlast
            have heq : value = outcomeState outcome := Option.some.inj hlast
            rw [← heq]
            exact List.mem_of_getLast? htail
        rcases List.mem_append.mp hin with hrest | hjobs
        · have hrunning := hs.resting _ hrest
          rcases houtcome with h | h
          · rw [h] at hrunning
            cases hrunning
          · rw [h] at hrunning
            cases hrunning
        · obtain ⟨job, hjob, hstates⟩ := List.mem_flatMap.mp hjobs
          cases job with
          | start =>
            rcases houtcome with h | h
            · rw [h] at hstates
              exact absurd hstates (by change State.succeeded ∉ [State.scheduled, .running]; decide)
            · rw [h] at hstates
              exact absurd hstates (by change State.failed ∉ [State.scheduled, .running]; decide)
          | finish outcome' => exact hqueue outcome' hjob
          | cancel =>
            rcases houtcome with h | h
            · rw [h] at hstates
              exact absurd hstates (by change State.succeeded ∉ [State.cancelled]; decide)
            · rw [h] at hstates
              exact absurd hstates (by change State.failed ∉ [State.cancelled]; decide)
    | closing front back jobs states returned future =>
      refine .closing front (back ++ [State.cancelled]) ?_ states rfl future
      rw [htodo, jobs, List.append_assoc, List.cons_append]
    | closed front nonempty states seen returned future => exact .closed front nonempty states seen rfl future
  · rw [if_neg hcancelling] at h
    cases h

/-! ## Runs -/

theorem lives_created : Lives (created : Life V X) where
  last := rfl
  resting := fun _ h => absurd h (List.not_mem_nil)
  phase := .open [] (.before (Or.inl rfl) fun _ h => nomatch h) rfl rfl fun h => nomatch h

theorem lives_step {a : Action V X} {s t : Life V X} (hs : Lives s) (htime : InTime a s) (h : act a s = some t) :
    Lives t := by
  cases a with
  | run => exact run_lives hs h
  | call => exact call_lives hs h
  | «return» result => exact return_lives hs h
  | throw throwable => exact throw_lives hs h
  | check => exact check_lives hs h
  | submit => exact submit_lives hs h
  | record => exact record_lives hs h
  | cancel => exact cancel_lives hs h
  | cancelLater => exact cancelLater_lives hs htime h
  | cancelNow => exact cancelNow_lives hs htime h
  | execute =>
    obtain ⟨value, hadvances, hresting⟩ := execute_advances h
    obtain ⟨hlast, hphase⟩ := advance_phase hs hadvances
    exact ⟨hlast, hresting, hphase⟩
  | resume =>
    obtain ⟨value, hadvances, hsuffix⟩ := resume_advances h
    obtain ⟨hlast, hphase⟩ := advance_phase hs hadvances
    exact ⟨hlast, fun value hvalue => hs.resting value (hsuffix.subset hvalue), hphase⟩

theorem seen_grows {a : Action V X} {s t : Life V X} (h : act a s = some t) : s.seen <+: t.seen := by
  have hset : ∀ (value : State) (u : Life V X), u.seen <+: (setState value u).seen := by
    intro value u
    by_cases hu : u.state = .cancelled
    · rewrite [(setState_cases value u).1 hu]
      exact List.prefix_rfl
    · rw [((setState_cases value u).2 hu).1]
      exact List.prefix_append _ _
  have hperform : ∀ (job : Job V X) (u : Life V X), u.seen <+: (perform job u).seen := by
    intro job u
    have hseen := (publish_frame job u).2.2.2.2.2.2
    rw [perform]
    split
    · exact List.prefix_rfl
    · rw [← hseen]
      exact hset _ _
  cases a with
  | execute =>
    rw [act] at h
    split at h
    · rename_i job queue hrest hqueue
      cases h
      exact hperform job { s with queue := queue }
    · cases h
  | resume =>
    rw [act] at h
    split at h
    · cases h
      exact hset _ s
    · cases h
  | cancelNow =>
    rw [act] at h
    split at h
    · cases h
      exact hset _ { s with future := .cancelled }
    · cases h
      exact List.prefix_rfl
  | cancel =>
    rw [act] at h
    split at h <;> cases h <;> exact List.prefix_rfl
  | cancelLater =>
    rw [act] at h
    split at h
    · cases h
      exact List.prefix_rfl
    · cases h
  | run => rw [act] at h; split at h <;> cases h; exact List.prefix_rfl
  | call => rw [act] at h; split at h <;> cases h; exact List.prefix_rfl
  | «return» result => rw [act] at h; split at h <;> cases h; exact List.prefix_rfl
  | throw throwable => rw [act] at h; split at h <;> cases h; exact List.prefix_rfl
  | check => rw [act] at h; split at h <;> cases h; exact List.prefix_rfl
  | submit => rw [act] at h; split at h <;> cases h; exact List.prefix_rfl
  | record =>
    rw [act] at h
    split at h
    · cases h
      exact List.prefix_rfl
    · cases h
      exact List.prefix_rfl
    · cases h

theorem Lives.lifeCycle {s : Life V X} (hs : Lives s) : LifeCycle s.seen := by
  have hshort : ∀ {l : List State}, l <+: [.ready, .scheduled, .running] → LifeCycle l := by
    intro l h
    exact Or.inl (h.trans ⟨[.succeeded], rfl⟩)
  cases hs.phase with
  | «open» asked plan states returned cancelling =>
    have hseen : s.seen <+: .ready :: asked := by
      rw [← states]
      exact List.prefix_append _ _
    rcases plan.paths with rfl | rfl | ⟨outcome, rfl⟩
    · exact hshort (hseen.trans ⟨[.scheduled, .running], rfl⟩)
    · exact hshort hseen
    · cases outcome with
      | ok result => exact Or.inl hseen
      | error throwable => exact Or.inr (Or.inl hseen)
  | closing front back jobs states returned future => exact hshort ((List.prefix_append _ _).trans states)
  | closed front nonempty states seen returned future => exact Or.inr (Or.inr ⟨front, nonempty, states, seen⟩)

theorem LifeCycle.complete {front seen : List State} {state : State} (h : LifeCycle seen) (hfront : front <+: seen)
    (last : front.getLast? = some state) (terminal : Terminal state) : front = seen := by
  have hbefore : ¬ front <+: [.ready, .scheduled, .running] := by
    intro hshort
    have hin := hshort.subset (List.mem_of_getLast? last)
    simp only [List.mem_cons, List.not_mem_nil, or_false] at hin
    rcases hin with rfl | rfl | rfl <;> exact terminal
  have hfull : ∀ {x : State}, seen <+: [State.ready, .scheduled, .running] ++ [x] → front = seen := by
    intro x hx
    rcases List.prefix_concat_iff.mp (hfront.trans hx) with heq | hshort
    · rw [heq] at hfront ⊢
      exact hfront.eq_of_length_le hx.length_le
    · exact absurd hshort hbefore
  rcases h with h | h | ⟨init, -, hinit, rfl⟩
  · exact hfull h
  · exact hfull h
  · rcases List.prefix_concat_iff.mp hfront with heq | hshort
    · exact heq
    · exact absurd (hshort.trans hinit) hbefore

theorem Lives.agrees {s : Life V X} (hs : Lives s) (settled : Settled s) : Agrees s := by
  have htodo : todo s = [] := by rw [todo, settled.1, settled.2]; rfl
  have hlast := hs.last
  cases hs.phase with
  | «open» asked plan states returned cancelling =>
    rw [htodo, List.append_nil] at states
    refine ⟨iff_of_false ?_ (by rw [returned]; exact Bool.false_ne_true), ?_⟩
    · intro heq
      apply plan.not_cancelled
      rw [← states, ← heq]
      exact List.mem_of_getLast? hlast
    · intro _ outcome hfuture
      rw [hfuture] at plan
      generalize s.worker = worker at plan
      cases plan with
      | before idle undone => exact absurd rfl (undone outcome)
      | during busy undone => exact absurd rfl (undone outcome)
      | after outcome' undone => exact absurd rfl (undone outcome)
      | recorded =>
        rw [states] at hlast
        exact (Option.some.inj hlast).symm
  | closing front back jobs states returned future =>
    rw [htodo] at jobs
    exact absurd jobs.symm (List.append_ne_nil_of_right_ne_nil _ (List.cons_ne_nil _ _))
  | closed front nonempty states seen returned future =>
    rw [seen, List.getLast?_append, List.getLast?_singleton, Option.some_or] at hlast
    refine ⟨iff_of_true (Option.some.inj hlast).symm returned, ?_⟩
    intro hfalse
    rw [returned] at hfalse
    cases hfalse

/-- In every run in which no cancellation overtakes the outcome, the states follow the
life cycle, a terminal state is not left, and the settled state agrees with the future. -/
theorem life_cycle_in_time {as bs : List (Action V X)} {s t : Life V X} (intime : Abides InTime act (as ++ bs) created)
    (first : execute act as created = some s) (second : execute act bs s = some t) :
    LifeCycle t.seen ∧ (Terminal s.state → t.state = s.state) ∧ (Settled t → Agrees t) := by
  have hrule : ∀ a (u v : Life V X), Lives u → InTime a u → act a u = some v → Lives v :=
    fun _ _ _ hu htime h => lives_step hu htime h
  have hs : Lives s := execute_invariant hrule lives_created intime.of_append first
  have ht : Lives t := execute_invariant hrule hs (intime.after_append first) second
  refine ⟨ht.lifeCycle, ?_, ht.agrees⟩
  intro hterminal
  have hgrows : s.seen <+: t.seen := by
    refine @execute_preserves _ _ act bs s t (fun u => s.seen <+: u.seen) (fun _ => True) ?_ (fun _ _ => trivial)
      List.prefix_rfl second
    intro a u v _ hu h
    exact hu.trans (seen_grows h)
  have heq := ht.lifeCycle.complete hgrows hs.last hterminal
  have hlast := ht.last
  rw [← heq, hs.last] at hlast
  exact (Option.some.inj hlast).symm

/-- A task that is cancelled off the event thread while it runs, and its outcome is
thrown away. -/
theorem life_cycle_in_time_cancelled :
    ∃ s t : Life Nat String,
      execute act [.run, .call, .execute, .resume, .cancel] created = some s ∧
        execute act [.return 7, .cancelLater, .check, .record, .execute] s = some t ∧
        LifeCycle t.seen ∧ (Terminal s.state → t.state = s.state) ∧ (Settled t → Agrees t) := by
  refine ⟨_, _, rfl, rfl, ?_⟩
  exact @life_cycle_in_time Nat String [.run, .call, .execute, .resume, .cancel]
    [.return 7, .cancelLater, .check, .record, .execute] _ _ (by
      simp [Abides, InTime, act, created, isPristine, isCancelled, perform, Job.states, publish, setState]) rfl rfl

/-- The event thread calls `cancel` when the state is `SUCCEEDED` and the future has
not recorded the result: the call returns true and the state becomes `CANCELLED`. -/
theorem cancelled_after_success :
    ∃ t : Life Nat String,
      execute act [.run, .call, .return 7, .check, .submit, .execute, .resume, .execute, .cancelNow] created = some t ∧
        t.seen = [.ready, .scheduled, .running, .succeeded, .cancelled] ∧ ¬ LifeCycle t.seen := by
  refine ⟨_, rfl, rfl, ?_⟩
  intro h
  change LifeCycle [.ready, .scheduled, .running, .succeeded, .cancelled] at h
  have hlength : ∀ {l m : List State}, l <+: m → l.length ≤ m.length := fun h => h.length_le
  rcases h with h | h | ⟨front, -, hfront, heq⟩
  · exact absurd (hlength h) (by decide)
  · exact absurd (hlength h) (by decide)
  · have := hlength hfront
    have hlen := congrArg List.length heq
    rw [List.length_append] at hlen
    simp only [List.length_cons, List.length_nil] at hlen this
    omega

end Task
end OpenJfx.Concurrent
