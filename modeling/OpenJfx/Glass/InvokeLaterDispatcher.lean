import OpenJfx.Lib.Run
import Mathlib.Data.List.Nodup

/-! # `com.sun.glass.ui.InvokeLaterDispatcher`

Deferred runnables are numbered in the order of `invokeLater`.  A step of a schedule is
a call of `invokeLater`, a step of the dispatcher thread between two accesses of what
it shares with others, or a step of the event thread: it starts a future or another
event handler, and these may enter nested event loops and leave them. -/
set_option autoImplicit false
namespace OpenJfx.Glass
open OpenJfx.Lib

namespace InvokeLaterDispatcher

inductive Phase where
  /-- In front of `deque.takeFirst()`. -/
  | idle
  /-- With a runnable, in front of the test of `leavingNestedEventLoop`. -/
  | holding (r : Nat)
  /-- The test has found true. -/
  | deferring (r : Nat)
  /-- The test has found false. -/
  | submitting (r : Nat)
  /-- In the loop `while (leavingNestedEventLoop)`. -/
  | pausing
  /-- In the loop `while (!future.isDone() && !nestedEventLoopEntered)`. -/
  | waiting (r : Nat)
deriving DecidableEq, Repr

/-- What the event thread is in; a nested event loop may have been asked to leave. -/
inductive Frame where
  | future (r : Nat)
  | handler
  | loop (leaving : Bool)
deriving DecidableEq, Repr

/-- `invoked` counts the runnables, `unstarted` has the submitted futures that the
native system has not started, and `frames` the event thread, innermost first. -/
structure Dispatch where
  invoked : Nat
  deque : List Nat
  phase : Phase
  nestedEventLoopEntered : Bool
  leavingNestedEventLoop : Bool
  submitted : List Nat
  unstarted : List Nat
  done : List Nat
  frames : List Frame
deriving DecidableEq, Repr

inductive Step where
  | invokeLater
  | takeFirst
  | test
  | addFirst
  | resume
  | submit
  | wake
  | startFuture
  | startHandler
  | finish
  | notifyEntering
  | notifyLeaving
  | notifyLeft
deriving DecidableEq, Repr

def inLoop : List Frame → Bool
  | [] => true
  | .loop _ :: _ => true
  | .future _ :: _ => false
  | .handler :: _ => false

def leaveInnermost : List Frame → List Frame
  | [] => []
  | .loop _ :: frames => .loop true :: frames
  | frame :: frames => frame :: leaveInnermost frames

def isNestedLoop : Frame → Bool
  | .loop _ => true
  | .future _ => false
  | .handler => false

def step : Step → Dispatch → Option Dispatch
  | .invokeLater, s => some { s with invoked := s.invoked + 1, deque := s.deque ++ [s.invoked] }
  | .takeFirst, s => match s.phase, s.deque with
      | .idle, r :: deque => some { s with phase := .holding r, deque := deque }
      | _, _ => none
  | .test, s => match s.phase with
      | .holding r => some { s with phase := if s.leavingNestedEventLoop then .deferring r else .submitting r }
      | _ => none
  | .addFirst, s => match s.phase with
      | .deferring r => some { s with phase := .pausing, deque := r :: s.deque }
      | _ => none
  | .resume, s => match s.phase with
      | .pausing => if s.leavingNestedEventLoop then none else some { s with phase := .idle }
      | _ => none
  | .submit, s => match s.phase with
      | .submitting r => some { s with
          phase := .waiting r
          submitted := s.submitted ++ [r]
          unstarted := s.unstarted ++ [r] }
      | _ => none
  | .wake, s => match s.phase with
      | .waiting r =>
          if r ∈ s.done ∨ s.nestedEventLoopEntered = true then
            some { s with phase := .idle, nestedEventLoopEntered := false }
          else none
      | _ => none
  | .startFuture, s => match inLoop s.frames, s.unstarted with
      | true, r :: unstarted => some { s with unstarted := unstarted, frames := .future r :: s.frames }
      | _, _ => none
  | .startHandler, s => if inLoop s.frames then some { s with frames := .handler :: s.frames } else none
  | .finish, s => match s.frames with
      | .future r :: frames => some { s with done := r :: s.done, frames := frames }
      | .handler :: frames => some { s with frames := frames }
      | _ => none
  | .notifyEntering, s =>
      if inLoop s.frames then none
      else some { s with nestedEventLoopEntered := true, frames := .loop false :: s.frames }
  | .notifyLeaving, s =>
      if inLoop s.frames = false ∧ s.frames.any isNestedLoop = true then
        some { s with leavingNestedEventLoop := true, frames := leaveInnermost s.frames }
      else none
  | .notifyLeft, s => match s.frames with
      | .loop _ :: frames => some { s with leavingNestedEventLoop := false, frames := frames }
      | _ => none

def started : Dispatch := ⟨0, [], .idle, false, false, [], [], [], []⟩

/-- What each step finds and leaves. -/
inductive Takes (s : Dispatch) : Step → Dispatch → Prop
  | invokeLater : Takes s .invokeLater { s with invoked := s.invoked + 1, deque := s.deque ++ [s.invoked] }
  | takeFirst {r : Nat} {deque : List Nat} (phase : s.phase = .idle) (queued : s.deque = r :: deque) :
      Takes s .takeFirst { s with phase := .holding r, deque := deque }
  | testLeaving {r : Nat} (phase : s.phase = .holding r) (leaving : s.leavingNestedEventLoop = true) :
      Takes s .test { s with phase := .deferring r }
  | test {r : Nat} (phase : s.phase = .holding r) (stays : s.leavingNestedEventLoop = false) :
      Takes s .test { s with phase := .submitting r }
  | addFirst {r : Nat} (phase : s.phase = .deferring r) : Takes s .addFirst { s with phase := .pausing, deque := r :: s.deque }
  | resume (phase : s.phase = .pausing) (stays : s.leavingNestedEventLoop = false) : Takes s .resume { s with phase := .idle }
  | submit {r : Nat} (phase : s.phase = .submitting r) : Takes s .submit
      { s with phase := .waiting r, submitted := s.submitted ++ [r], unstarted := s.unstarted ++ [r] }
  | wake {r : Nat} (phase : s.phase = .waiting r) (ends : r ∈ s.done ∨ s.nestedEventLoopEntered = true) :
      Takes s .wake { s with phase := .idle, nestedEventLoopEntered := false }
  | startFuture {r : Nat} {unstarted : List Nat} (loop : inLoop s.frames = true) (next : s.unstarted = r :: unstarted) :
      Takes s .startFuture { s with unstarted := unstarted, frames := .future r :: s.frames }
  | startHandler (loop : inLoop s.frames = true) : Takes s .startHandler { s with frames := .handler :: s.frames }
  | finishFuture {r : Nat} {frames : List Frame} (top : s.frames = .future r :: frames) :
      Takes s .finish { s with done := r :: s.done, frames := frames }
  | finishHandler {frames : List Frame} (top : s.frames = .handler :: frames) : Takes s .finish { s with frames := frames }
  | notifyEntering (inside : inLoop s.frames = false) :
      Takes s .notifyEntering { s with nestedEventLoopEntered := true, frames := .loop false :: s.frames }
  | notifyLeaving (inside : inLoop s.frames = false) (nested : s.frames.any isNestedLoop = true) :
      Takes s .notifyLeaving { s with leavingNestedEventLoop := true, frames := leaveInnermost s.frames }
  | notifyLeft {leaving : Bool} {frames : List Frame} (top : s.frames = .loop leaving :: frames) :
      Takes s .notifyLeft { s with leavingNestedEventLoop := false, frames := frames }

theorem takes_of_step {a : Step} {s t : Dispatch} (h : step a s = some t) : Takes s a t := by
  cases a with
  | invokeLater =>
    cases h
    exact .invokeLater
  | takeFirst =>
    rw [step] at h
    split at h
    · rename_i hphase hdeque
      cases h
      exact .takeFirst hphase hdeque
    · cases h
  | test =>
    rw [step] at h
    split at h
    · rename_i hphase
      cases h
      split
      · rename_i hleaving
        exact .testLeaving hphase hleaving
      · rename_i hstays
        exact .test hphase (Bool.not_eq_true _ ▸ hstays)
    · cases h
  | addFirst =>
    rw [step] at h
    split at h
    · rename_i hphase
      cases h
      exact .addFirst hphase
    · cases h
  | resume =>
    rw [step] at h
    split at h
    · rename_i hphase
      split at h
      · cases h
      · rename_i hstays
        cases h
        exact .resume hphase (Bool.not_eq_true _ ▸ hstays)
    · cases h
  | submit =>
    rw [step] at h
    split at h
    · rename_i hphase
      cases h
      exact .submit hphase
    · cases h
  | wake =>
    rw [step] at h
    split at h
    · rename_i hphase
      split at h
      · rename_i hend
        cases h
        exact .wake hphase hend
      · cases h
    · cases h
  | startFuture =>
    rw [step] at h
    split at h
    · rename_i hloop hunstarted
      cases h
      exact .startFuture hloop hunstarted
    · cases h
  | startHandler =>
    rw [step] at h
    split at h
    · rename_i hloop
      cases h
      exact .startHandler hloop
    · cases h
  | finish =>
    rw [step] at h
    split at h
    · rename_i hframes
      cases h
      exact .finishFuture hframes
    · rename_i hframes
      cases h
      exact .finishHandler hframes
    · cases h
  | notifyEntering =>
    rw [step] at h
    split at h
    · cases h
    · rename_i hinside
      cases h
      exact .notifyEntering (Bool.not_eq_true _ ▸ hinside)
  | notifyLeaving =>
    rw [step] at h
    split at h
    · rename_i hnested
      cases h
      exact .notifyLeaving hnested.1 hnested.2
    · cases h
  | notifyLeft =>
    rw [step] at h
    split at h
    · rename_i hframes
      cases h
      exact .notifyLeft hframes
    · cases h

/-! ## What the dispatcher promises -/

/-- The runnable that the dispatcher has taken and not submitted. -/
def held (s : Dispatch) : List Nat := match s.phase with
  | .holding r => [r]
  | .deferring r => [r]
  | .submitting r => [r]
  | .idle => []
  | .pausing => []
  | .waiting _ => []

/-- Every runnable is submitted once, or held, or queued, in this order. -/
def InOrder (s : Dispatch) : Prop := s.submitted ++ (held s ++ s.deque) = List.range s.invoked

/-- At most one submitted runnable has not started. -/
def OneByOne (s : Dispatch) : Prop := s.unstarted.length ≤ 1

/-- Between `notifyLeaving` and the matching `notifyLeft` of a loop. -/
def Leaving (s : Dispatch) : Prop := Frame.loop true ∈ s.frames

/-- Nothing is submitted while a loop is being left. -/
def Withholds (s : Dispatch) : Prop := Leaving s → ∀ t, step .submit s ≠ some t

/-- A nested loop is entered while the dispatcher waits for a runnable that has
started, a loop is not asked to leave between the test and the submission, and is not
left before the loops around it that have been asked to leave. -/
def Orderly (a : Step) (s : Dispatch) : Prop := match a with
  | .notifyEntering => ∃ r, s.phase = .waiting r ∧ r ∉ s.unstarted
  | .notifyLeaving => ∀ r, s.phase ≠ .submitting r
  | .notifyLeft => Frame.loop true ∉ s.frames.tail
  | _ => True

/-- A condition on the runnable that the dispatcher waits for. -/
instance decidableExistsWaiting (p : Nat → Prop) [DecidablePred p] (phase : Phase) :
    Decidable (∃ r, phase = .waiting r ∧ p r) := match phase with
  | .waiting r => decidable_of_iff (p r) ⟨fun h => ⟨r, rfl, h⟩, fun ⟨_, heq, h⟩ => Phase.waiting.inj heq ▸ h⟩
  | .idle | .holding _ | .deferring _ | .submitting _ | .pausing => isFalse fun ⟨_, heq, _⟩ => nomatch heq

instance decidableNotSubmitting (phase : Phase) : Decidable (∀ r, phase ≠ .submitting r) := match phase with
  | .submitting r => isFalse fun h => h r rfl
  | .idle | .holding _ | .deferring _ | .pausing | .waiting _ => isTrue fun _ => nofun

instance : ∀ (a : Step) (s : Dispatch), Decidable (Orderly a s)
  | .notifyEntering, s => inferInstanceAs (Decidable (∃ r, s.phase = .waiting r ∧ r ∉ s.unstarted))
  | .notifyLeaving, s => inferInstanceAs (Decidable (∀ r, s.phase ≠ .submitting r))
  | .notifyLeft, s => inferInstanceAs (Decidable (Frame.loop true ∉ s.frames.tail))
  | .invokeLater, _ | .takeFirst, _ | .test, _ | .addFirst, _ | .resume, _ | .submit, _ | .wake, _
  | .startFuture, _ | .startHandler, _ | .finish, _ => isTrue trivial

/-! ## The invariant -/

/-- The order of the runnables, and where a future can be that has not started. -/
structure Keeps (s : Dispatch) : Prop where
  order : InOrder s
  known : ∀ r, r ∈ s.unstarted ∨ r ∈ s.done ∨ Frame.future r ∈ s.frames → r ∈ s.submitted
  distinct : s.unstarted.Nodup
  fresh : ∀ r ∈ s.unstarted, r ∉ s.done ∧ Frame.future r ∉ s.frames

/-- The wait of the dispatcher is not cut short, and the flag covers the loops that are
being left. -/
structure Guards (s : Dispatch) : Prop where
  between : (∀ r, s.phase ≠ .waiting r) → s.unstarted = [] ∧ s.nestedEventLoopEntered = false
  waiting : ∀ r, s.phase = .waiting r → s.unstarted = [] ∨ s.unstarted = [r] ∧ s.nestedEventLoopEntered = false
  leaving : Leaving s → s.leavingNestedEventLoop = true
  tested : s.leavingNestedEventLoop = true → ∀ r, s.phase ≠ .submitting r

theorem future_mem_leaveInnermost {r : Nat} {frames : List Frame} :
    Frame.future r ∈ leaveInnermost frames ↔ Frame.future r ∈ frames := by
  induction frames with
  | nil => exact Iff.rfl
  | cons frame frames ih =>
    cases frame with
    | loop leaving => simp [leaveInnermost]
    | future r' => simp [leaveInnermost, ih]
    | handler => simp [leaveInnermost, ih]

theorem InOrder.nodup {s : Dispatch} (h : InOrder s) : (s.submitted ++ (held s ++ s.deque)).Nodup := by
  rw [h]
  exact List.nodup_range

theorem Keeps.of_frames {s : Dispatch} (hs : Keeps s) {entered leaving : Bool} {frames : List Frame}
    (hframes : ∀ r, Frame.future r ∈ frames → Frame.future r ∈ s.frames) :
    Keeps { s with nestedEventLoopEntered := entered, leavingNestedEventLoop := leaving, frames := frames } :=
  ⟨hs.order, fun r hr => hs.known r (hr.imp id (Or.imp id (hframes r))), hs.distinct,
    fun r hr => ⟨(hs.fresh r hr).1, fun hin => (hs.fresh r hr).2 (hframes r hin)⟩⟩

theorem Keeps.of_order {s : Dispatch} (hs : Keeps s) {phase : Phase} {deque : List Nat} {entered : Bool}
    (horder : InOrder { s with phase := phase, deque := deque, nestedEventLoopEntered := entered }) :
    Keeps { s with phase := phase, deque := deque, nestedEventLoopEntered := entered } :=
  ⟨horder, hs.known, hs.distinct, hs.fresh⟩

theorem keeps_submit {s : Dispatch} (hs : Keeps s) {r : Nat} (hphase : s.phase = .submitting r) :
    Keeps { s with phase := .waiting r, submitted := s.submitted ++ [r], unstarted := s.unstarted ++ [r] } := by
  have horder : s.submitted ++ (held s ++ s.deque) = List.range s.invoked := hs.order
  have hnodup := hs.order.nodup
  rw [held, hphase] at horder hnodup
  have hnew : r ∉ s.submitted := by
    intro hr
    exact (List.nodup_append.mp hnodup).2.2 r hr r (List.mem_append_left _ (List.mem_singleton_self r)) rfl
  refine ⟨?_, ?_, ?_, ?_⟩
  · rw [InOrder, held]
    simp only [List.append_assoc, List.nil_append]
    exact horder
  · intro r' hr'
    rcases hr' with hunstarted | hbegun
    · rcases List.mem_append.mp hunstarted with hold | hthis
      · exact List.mem_append_left _ (hs.known r' (Or.inl hold))
      · exact List.mem_append_right _ hthis
    · exact List.mem_append_left _ (hs.known r' (Or.inr hbegun))
  · refine List.nodup_append.mpr ⟨hs.distinct, List.nodup_singleton r, ?_⟩
    intro x hx y hy heq
    rw [List.mem_singleton.mp hy] at heq
    exact hnew (hs.known r (Or.inl (heq ▸ hx)))
  · intro r' hr'
    rcases List.mem_append.mp hr' with hold | hthis
    · exact hs.fresh r' hold
    · rw [List.mem_singleton.mp hthis]
      exact ⟨fun hr => hnew (hs.known r (Or.inr (Or.inl hr))), fun hr => hnew (hs.known r (Or.inr (Or.inr hr)))⟩

theorem keeps_startFuture {s : Dispatch} (hs : Keeps s) {r : Nat} {unstarted : List Nat}
    (hunstarted : s.unstarted = r :: unstarted) :
    Keeps { s with unstarted := unstarted, frames := .future r :: s.frames } := by
  have hdistinct := hs.distinct
  have hknown := hs.known
  have hfresh := hs.fresh
  rw [hunstarted] at hdistinct hknown hfresh
  obtain ⟨hnotin, hrest⟩ := List.nodup_cons.mp hdistinct
  refine ⟨hs.order, ?_, hrest, ?_⟩
  · intro r' hr'
    rcases hr' with hin | hdone | hframe
    · exact hknown r' (Or.inl (List.mem_cons_of_mem _ hin))
    · exact hknown r' (Or.inr (Or.inl hdone))
    · rcases List.mem_cons.mp hframe with heq | hold
      · cases heq
        exact hknown r (Or.inl (List.mem_cons_self ..))
      · exact hknown r' (Or.inr (Or.inr hold))
  · intro r' hr'
    obtain ⟨hdone, hframe⟩ := hfresh r' (List.mem_cons_of_mem _ hr')
    refine ⟨hdone, ?_⟩
    intro hin
    rcases List.mem_cons.mp hin with heq | hold
    · cases heq
      exact hnotin hr'
    · exact hframe hold

theorem keeps_finish {s : Dispatch} (hs : Keeps s) {r : Nat} {frames : List Frame} (hframes : s.frames = .future r :: frames) :
    Keeps { s with done := r :: s.done, frames := frames } := by
  have hin : ∀ r', r' ∈ r :: s.done ∨ Frame.future r' ∈ frames → r' ∈ s.done ∨ Frame.future r' ∈ s.frames := by
    intro r' hr'
    rw [hframes]
    rcases hr' with hdone | hframe
    · rcases List.mem_cons.mp hdone with heq | hold
      · rw [heq]
        exact Or.inr (List.mem_cons_self ..)
      · exact Or.inl hold
    · exact Or.inr (List.mem_cons_of_mem _ hframe)
  refine ⟨hs.order, ?_, hs.distinct, ?_⟩
  · intro r' hr'
    exact hs.known r' (hr'.imp id (hin r'))
  · intro r' hr'
    obtain ⟨hdone, hframe⟩ := hs.fresh r' hr'
    have hnot : ¬ (r' ∈ s.done ∨ Frame.future r' ∈ s.frames) := fun h => h.elim hdone hframe
    exact ⟨fun h => hnot (hin r' (Or.inl h)), fun h => hnot (hin r' (Or.inr h))⟩

theorem keeps_step {a : Step} {s t : Dispatch} (hs : Keeps s) (h : step a s = some t) : Keeps t := by
  have horder : s.submitted ++ (held s ++ s.deque) = List.range s.invoked := hs.order
  cases takes_of_step h with
  | invokeLater =>
    refine ⟨?_, hs.known, hs.distinct, hs.fresh⟩
    change s.submitted ++ (held s ++ (s.deque ++ [s.invoked])) = List.range (s.invoked + 1)
    rw [List.range_succ, ← horder]
    simp only [List.append_assoc]
  | takeFirst hphase hdeque =>
    rw [held, hphase, hdeque] at horder
    exact hs.of_order horder
  | testLeaving hphase =>
    rw [held, hphase] at horder
    exact hs.of_order horder
  | test hphase =>
    rw [held, hphase] at horder
    exact hs.of_order horder
  | addFirst hphase =>
    rw [held, hphase] at horder
    exact hs.of_order horder
  | resume hphase =>
    rw [held, hphase] at horder
    exact hs.of_order horder
  | submit hphase => exact keeps_submit hs hphase
  | wake hphase =>
    rw [held, hphase] at horder
    exact hs.of_order horder
  | startFuture hloop hunstarted => exact keeps_startFuture hs hunstarted
  | startHandler => exact hs.of_frames fun r hr => (List.mem_cons.mp hr).resolve_left (by simp)
  | finishFuture hframes => exact keeps_finish hs hframes
  | finishHandler hframes =>
    refine hs.of_frames fun r hr => ?_
    rw [hframes]
    exact List.mem_cons_of_mem _ hr
  | notifyEntering => exact hs.of_frames fun r hr => (List.mem_cons.mp hr).resolve_left (by simp)
  | notifyLeaving => exact hs.of_frames fun r hr => future_mem_leaveInnermost.mp hr
  | notifyLeft hframes =>
    refine hs.of_frames fun r hr => ?_
    rw [hframes]
    exact List.mem_cons_of_mem _ hr

theorem Guards.of_phase {s : Dispatch} (hs : Guards s) {phase : Phase} {deque : List Nat}
    (hold : ∀ r, s.phase ≠ .waiting r) (hnew : ∀ r, phase ≠ .waiting r)
    (tested : s.leavingNestedEventLoop = true → ∀ r, phase ≠ .submitting r) :
    Guards { s with phase := phase, deque := deque } :=
  ⟨fun _ => hs.between hold, fun r hr => absurd hr (hnew r), hs.leaving, tested⟩

theorem guards_wake {s : Dispatch} (hkeeps : Keeps s) (hs : Guards s) {r : Nat} (hphase : s.phase = .waiting r)
    (hend : r ∈ s.done ∨ s.nestedEventLoopEntered = true) :
    Guards { s with phase := .idle, nestedEventLoopEntered := false } := by
  refine ⟨?_, fun r hr => (nomatch hr), hs.leaving, fun _ r hr => (nomatch hr)⟩
  intro _
  refine ⟨?_, rfl⟩
  rcases hs.waiting r hphase with hnone | ⟨hone, hflag⟩
  · exact hnone
  · -- a runnable that has not started is not done
    exfalso
    rcases hend with hdone | hentered
    · exact (hkeeps.fresh r (by rw [hone]; exact List.mem_singleton_self r)).1 hdone
    · rw [hflag] at hentered
      cases hentered

theorem guards_startFuture {s : Dispatch} (hs : Guards s) {r : Nat} {unstarted : List Nat}
    (hunstarted : s.unstarted = r :: unstarted) :
    Guards { s with unstarted := unstarted, frames := .future r :: s.frames } := by
  obtain ⟨r', hphase⟩ : ∃ r', s.phase = .waiting r' := by
    by_contra hno
    have hempty := (hs.between fun r' h => hno ⟨r', h⟩).1
    rw [hunstarted] at hempty
    cases hempty
  have hrest : unstarted = [] := by
    rcases hs.waiting r' hphase with hnone | ⟨hone, -⟩
    · rw [hunstarted] at hnone
      cases hnone
    · rw [hunstarted] at hone
      exact (List.cons.inj hone).2
  refine ⟨fun h => absurd hphase (h r'), fun _ _ => Or.inl hrest, ?_, hs.tested⟩
  intro hleaving
  exact hs.leaving ((List.mem_cons.mp hleaving).resolve_left (by simp))

theorem Guards.of_frames {s : Dispatch} (hs : Guards s) {done : List Nat} {frames : List Frame}
    (hframes : Frame.loop true ∈ frames → Frame.loop true ∈ s.frames) : Guards { s with done := done, frames := frames } :=
  ⟨hs.between, hs.waiting, fun hl => hs.leaving (hframes hl), hs.tested⟩

theorem guards_submit {s : Dispatch} (hs : Guards s) {r : Nat} (hphase : s.phase = .submitting r) :
    Guards { s with phase := .waiting r, submitted := s.submitted ++ [r], unstarted := s.unstarted ++ [r] } := by
  obtain ⟨hnone, hflag⟩ := hs.between (by simp [hphase])
  refine ⟨fun h => absurd rfl (h r), ?_, hs.leaving, ?_⟩
  · intro r' hr'
    cases hr'
    exact Or.inr ⟨by rw [hnone, List.nil_append], hflag⟩
  · intro _ r' hr'
    cases hr'

theorem guards_notifyEntering {s : Dispatch} (hs : Guards s) {r : Nat} (hphase : s.phase = .waiting r)
    (hstarted : r ∉ s.unstarted) : Guards { s with nestedEventLoopEntered := true, frames := .loop false :: s.frames } := by
  refine ⟨fun h => absurd hphase (h r), ?_, fun hl => hs.leaving ((List.mem_cons.mp hl).resolve_left (by simp)),
    hs.tested⟩
  intro r' hr'
  rcases hs.waiting r hphase with hnone | ⟨hone, -⟩
  · exact Or.inl hnone
  · rw [hone] at hstarted
    exact absurd (List.mem_singleton_self r) hstarted

theorem guards_step {a : Step} {s t : Dispatch} (hkeeps : Keeps s) (hs : Guards s) (horderly : Orderly a s)
    (h : step a s = some t) : Guards t := by
  cases takes_of_step h with
  | invokeLater => exact ⟨hs.between, hs.waiting, hs.leaving, hs.tested⟩
  | takeFirst hphase => exact hs.of_phase (by simp [hphase]) (by simp) (by simp)
  | testLeaving hphase => exact hs.of_phase (by simp [hphase]) (by simp) (by simp)
  | test hphase hstays => exact hs.of_phase (by simp [hphase]) (by simp) (by simp [hstays])
  | addFirst hphase => exact hs.of_phase (by simp [hphase]) (by simp) (by simp)
  | resume hphase => exact hs.of_phase (by simp [hphase]) (by simp) (by simp)
  | submit hphase => exact guards_submit hs hphase
  | wake hphase hend => exact guards_wake hkeeps hs hphase hend
  | startFuture hloop hunstarted => exact guards_startFuture hs hunstarted
  | startHandler => exact hs.of_frames fun hl => (List.mem_cons.mp hl).resolve_left (by simp)
  | finishFuture hframes =>
    refine hs.of_frames fun hl => ?_
    rw [hframes]
    exact List.mem_cons_of_mem _ hl
  | finishHandler hframes =>
    refine hs.of_frames fun hl => ?_
    rw [hframes]
    exact List.mem_cons_of_mem _ hl
  | notifyEntering =>
    obtain ⟨r, hphase, hstarted⟩ := horderly
    exact guards_notifyEntering hs hphase hstarted
  | notifyLeaving => exact ⟨hs.between, hs.waiting, fun _ => rfl, fun _ => horderly⟩
  | notifyLeft hframes =>
    have hnone : Frame.loop true ∉ s.frames.tail := horderly
    rw [hframes, List.tail_cons] at hnone
    refine ⟨hs.between, hs.waiting, fun hl => absurd hl hnone, ?_⟩
    intro hflag
    cases hflag

/-! ## Runs -/

theorem keeps_started : Keeps started where
  order := rfl
  known := by
    intro r hr
    rcases hr with h | h | h <;> exact absurd h List.not_mem_nil
  distinct := List.nodup_nil
  fresh := fun r hr => absurd hr List.not_mem_nil

theorem guards_started : Guards started where
  between := fun _ => ⟨rfl, rfl⟩
  waiting := fun _ hr => nomatch hr
  leaving := fun h => absurd h List.not_mem_nil
  tested := fun h => nomatch h

theorem Guards.oneByOne {s : Dispatch} (hs : Guards s) : OneByOne s := by
  rw [OneByOne]
  by_cases hphase : ∃ r, s.phase = .waiting r
  · obtain ⟨r, hr⟩ := hphase
    rcases hs.waiting r hr with hnone | ⟨hone, -⟩
    · rw [hnone]
      exact Nat.zero_le 1
    · rw [hone]
      exact Nat.le_refl 1
  · rw [(hs.between fun r hr => hphase ⟨r, hr⟩).1]
    exact Nat.zero_le 1

theorem Guards.withholds {s : Dispatch} (hs : Guards s) : Withholds s := by
  intro hleaving t h
  cases takes_of_step h with
  | submit hphase => exact hs.tested (hs.leaving hleaving) _ hphase

/-- The runnables are submitted in order and once in every run.  In a run with orderly
nested event loops they are also submitted one by one, and none while a loop is being
left. -/
theorem dispatch_orderly {as : List Step} {s : Dispatch} (run : execute step as started = some s) :
    InOrder s ∧ (Abides Orderly step as started → OneByOne s ∧ Withholds s) := by
  have hkeeps : ∀ (as : List Step) (s t : Dispatch), Keeps s → execute step as s = some t → Keeps t := by
    intro as s t hs hrun
    exact @execute_preserves _ _ step as s t Keeps (fun _ => True) (fun _ _ _ _ hs h => keeps_step hs h)
      (fun _ _ => trivial) hs hrun
  refine ⟨(hkeeps as started s keeps_started run).order, ?_⟩
  intro horderly
  have hboth : Keeps s ∧ Guards s := by
    refine @execute_invariant _ _ step Orderly as started s (fun s => Keeps s ∧ Guards s) ?_
      ⟨keeps_started, guards_started⟩ horderly run
    intro a s t hs ha h
    exact ⟨keeps_step hs.1 h, guards_step hs.1 hs.2 ha h⟩
  exact ⟨hboth.2.oneByOne, hboth.2.withholds⟩

/-- A runnable enters a nested event loop and leaves it. -/
theorem dispatch_orderly_nested :
    ∃ s, execute step [.invokeLater, .invokeLater, .takeFirst, .test, .submit, .startFuture, .notifyEntering, .wake,
        .takeFirst, .test, .submit, .startFuture, .notifyLeaving, .finish, .wake, .notifyLeft] started = some s ∧
      InOrder s ∧ OneByOne s ∧ Withholds s := by
  have hboth := @dispatch_orderly [.invokeLater, .invokeLater, .takeFirst, .test, .submit, .startFuture,
    .notifyEntering, .wake, .takeFirst, .test, .submit, .startFuture, .notifyLeaving, .finish, .wake, .notifyLeft] _ rfl
  exact ⟨_, rfl, hboth.1, hboth.2 (by decide)⟩

/-- Each condition on the nested event loops is needed.  An event handler enters a loop
when a runnable has been submitted and has not started: the wait for it ends, and the
next runnable is submitted.  A loop is asked to leave between the test and the
submission.  A loop is left when the loop around it has been asked to leave: the flag is
reset too early. -/
theorem dispatch_disorderly :
    (∃ s, execute step [.invokeLater, .invokeLater, .takeFirst, .test, .submit, .startHandler, .notifyEntering, .wake,
        .takeFirst, .test, .submit] started = some s ∧ s.unstarted = [0, 1] ∧ ¬ OneByOne s) ∧
      (∃ s, execute step [.invokeLater, .takeFirst, .test, .startHandler, .notifyEntering, .startHandler, .notifyLeaving]
        started = some s ∧ Leaving s ∧ ¬ Withholds s) ∧
      ∃ s, execute step [.invokeLater, .invokeLater, .takeFirst, .test, .submit, .startFuture, .notifyEntering,
        .startHandler, .notifyLeaving, .notifyEntering, .wake, .notifyLeft, .takeFirst, .test]
        started = some s ∧ Leaving s ∧ ¬ Withholds s := by
  refine ⟨⟨⟨2, [], .waiting 1, false, false, [0, 1], [0, 1], [], [.loop false, .handler]⟩, rfl, rfl, ?_⟩,
    ⟨⟨1, [], .submitting 0, true, true, [], [], [], [.handler, .loop true, .handler]⟩, rfl, ?_, ?_⟩,
    ⟨2, [], .submitting 1, false, false, [0], [], [], [.handler, .loop true, .future 0]⟩, rfl, ?_, ?_⟩
  · intro h
    exact absurd h (by simp [OneByOne])
  · exact List.mem_cons_of_mem _ (List.mem_cons_self ..)
  · intro h
    exact h (List.mem_cons_of_mem _ (List.mem_cons_self ..)) _ rfl
  · exact List.mem_cons_of_mem _ (List.mem_cons_self ..)
  · intro h
    exact h (List.mem_cons_of_mem _ (List.mem_cons_self ..)) _ rfl

end InvokeLaterDispatcher
end OpenJfx.Glass
