import OpenJfx.Lib.Run
import Mathlib.Data.List.Basic

/-! # Input events of a Linux device

`LinuxEventBuffer` and the two loops of `LinuxInputDevice` that share it: the reader
puts event lines into the buffer, and runs of the `EventProcessor` consume them on the
application thread.  Positions count lines.  The reader's synchronized block is one
step, which can be taken when there is room; an input processor that goes back to a mark
is not modelled. -/
set_option autoImplicit false
namespace OpenJfx.Glass
open OpenJfx.Lib

structure EventLine where
  type : BitVec 16
  code : BitVec 16
  value : BitVec 32
deriving DecidableEq, Repr

/-- `EV_SYN SYN_REPORT 0`; the source reads type and code as one integer. -/
def EventLine.isSync (event : EventLine) : Bool := event.type == 0 && event.code == 0 && event.value == 0

/-- `bb` has the lines in front of `bb.position()`. -/
structure LinuxEventBuffer where
  bb : List EventLine
  positionOfLastSync : Int
  currentPosition : Int
deriving DecidableEq, Repr

namespace LinuxEventBuffer

def eventBufferSize : Nat := 1000

def new : LinuxEventBuffer := ⟨[], 0, 0⟩

/-- `put`; none as long as it waits. -/
def put (event : EventLine) (b : LinuxEventBuffer) : Option (LinuxEventBuffer × Bool) :=
  if eventBufferSize - b.bb.length < 1 then none
  else some (⟨b.bb ++ [event], if event.isSync then b.bb.length else b.positionOfLastSync, b.currentPosition⟩, event.isSync)

def startIteration (b : LinuxEventBuffer) : LinuxEventBuffer := { b with currentPosition := 0 }

def hasNextEvent (b : LinuxEventBuffer) : Bool := b.currentPosition ≤ b.positionOfLastSync

/-- The current line; none if there is no such line in the buffer. -/
def currentEvent (b : LinuxEventBuffer) : Option EventLine :=
  if b.currentPosition < 0 then none else b.bb[b.currentPosition.toNat]?

/-- `nextEvent`; none when it throws. -/
def nextEvent (b : LinuxEventBuffer) : Option LinuxEventBuffer :=
  if b.currentPosition > b.positionOfLastSync then none
  else some { b with currentPosition := b.currentPosition + 1 }

def compact (b : LinuxEventBuffer) : LinuxEventBuffer :=
  ⟨b.bb.drop b.currentPosition.toNat, b.positionOfLastSync - b.currentPosition, b.currentPosition⟩

end LinuxEventBuffer

/-- `scheduled` is the flag of the processor, `queued` counts its runs in the queue of
the application thread, and `consumed` has what the input processor has read. -/
structure LinuxInputDevice where
  buffer : LinuxEventBuffer
  scheduled : Bool
  queued : Nat
  running : Bool
  consumed : List (Option EventLine)
deriving DecidableEq, Repr

namespace LinuxInputDevice

inductive Step where
  /-- The reader has read a line. -/
  | put (event : EventLine)
  /-- A run of the processor up to `processEvents`. -/
  | start
  /-- `processEvents` reads a line and goes on. -/
  | next
  /-- `processEvents` returns or throws, and the run ends. -/
  | finish
deriving DecidableEq, Repr

def step : Step → LinuxInputDevice → Option LinuxInputDevice
  | .put event, s => (s.buffer.put event).map fun (buffer, isSync) =>
      if isSync && !s.scheduled then { s with buffer := buffer, scheduled := true, queued := s.queued + 1 }
      else { s with buffer := buffer }
  | .start, s =>
      if s.running then none
      else match s.queued with
        | 0 => none
        | queued + 1 => some { s with buffer := s.buffer.startIteration, queued := queued, running := true }
  | .next, s =>
      if s.running && s.buffer.hasNextEvent then
        s.buffer.nextEvent.map fun buffer =>
          { s with buffer := buffer, consumed := s.consumed ++ [s.buffer.currentEvent] }
      else none
  | .finish, s =>
      if s.running then
        some { s with
          buffer := s.buffer.compact
          scheduled := s.buffer.hasNextEvent
          queued := if s.buffer.hasNextEvent then s.queued + 1 else s.queued
          running := false }
      else none

def new : LinuxInputDevice := ⟨LinuxEventBuffer.new, false, 0, false, []⟩

def puts : List Step → List EventLine
  | [] => []
  | .put event :: as => event :: puts as
  | .start :: as => puts as
  | .next :: as => puts as
  | .finish :: as => puts as

/-- The line at `j` ends a group. -/
def Ends (lines : List EventLine) (j : Nat) : Prop := ∃ event, lines[j]? = some event ∧ event.isSync = true

/-! ## The invariant -/

/-- `dropped` lines have left the buffer, and `current` lines of it are consumed. -/
structure Reads (lines : List EventLine) (dropped current : Nat) (s : LinuxInputDevice) : Prop where
  dropped_le : dropped ≤ lines.length
  bb : s.buffer.bb = lines.drop dropped
  consumed : s.consumed = (lines.take (dropped + current)).map some

/-- The last complete group ends at `last` in the buffer. -/
def LastSync (lines : List EventLine) (dropped last : Nat) (s : LinuxInputDevice) : Prop :=
  s.buffer.positionOfLastSync = last ∧ Ends lines (dropped + last) ∧ ∀ j, Ends lines j → j ≤ dropped + last

/-- Nothing is scheduled, or a run is queued, or a run is in progress. -/
inductive Stage (lines : List EventLine) (s : LinuxInputDevice) : Prop where
  | quiet (dropped : Nat) (reads : Reads lines dropped 0 s) (scheduled : s.scheduled = false) (queued : s.queued = 0)
      (running : s.running = false) (groups : ∀ j, Ends lines j → j < dropped)
      (complete : dropped = 0 ∨ Ends lines (dropped - 1))
  | queued (dropped last : Nat) (reads : Reads lines dropped 0 s) (scheduled : s.scheduled = true)
      (queued : s.queued = 1) (running : s.running = false) (sync : LastSync lines dropped last s)
  | running (dropped last current : Nat) (reads : Reads lines dropped current s) (scheduled : s.scheduled = true)
      (queued : s.queued = 0) (running : s.running = true) (sync : LastSync lines dropped last s)
      (position : s.buffer.currentPosition = current) (current_le : current ≤ last + 1)

theorem ends_append {lines : List EventLine} {event : EventLine} {j : Nat} :
    Ends (lines ++ [event]) j ↔ Ends lines j ∨ j = lines.length ∧ event.isSync = true := by
  rw [Ends, Ends]
  constructor
  · intro h
    obtain ⟨e, he, hsync⟩ := h
    rcases Nat.lt_trichotomy j lines.length with hlt | heq | hgt
    · rw [List.getElem?_append_left hlt] at he
      exact Or.inl ⟨e, he, hsync⟩
    · subst heq
      rw [List.getElem?_concat_length] at he
      cases he
      exact Or.inr ⟨rfl, hsync⟩
    · rw [List.getElem?_eq_none (by rw [List.length_append, List.length_singleton]; omega)] at he
      cases he
  · intro h
    rcases h with ⟨e, he, hsync⟩ | ⟨rfl, hsync⟩
    · exact ⟨e, by rw [List.getElem?_append_left (List.getElem?_eq_some_iff.mp he).1, he], hsync⟩
    · exact ⟨event, List.getElem?_concat_length, hsync⟩

theorem Ends.lt {lines : List EventLine} {j : Nat} (h : Ends lines j) : j < lines.length := by
  obtain ⟨e, he, -⟩ := h
  exact (List.getElem?_eq_some_iff.mp he).1

theorem Reads.put {lines : List EventLine} {dropped current : Nat} {s : LinuxInputDevice}
    (h : Reads lines dropped current s) (event : EventLine) {t : LinuxInputDevice}
    (hbb : t.buffer.bb = s.buffer.bb ++ [event]) (hconsumed : t.consumed = s.consumed)
    (hcurrent : dropped + current ≤ lines.length) : Reads (lines ++ [event]) dropped current t := by
  refine ⟨by rw [List.length_append]; exact Nat.le_trans h.dropped_le (Nat.le_add_right _ _), ?_, ?_⟩
  · rw [hbb, h.bb, List.drop_append_of_le_length h.dropped_le]
  · rw [hconsumed, h.consumed, List.take_append_of_le_length hcurrent]

theorem LastSync.put {lines : List EventLine} {dropped last : Nat} {s t : LinuxInputDevice} {event : EventLine}
    (h : LastSync lines dropped last s) (hle : dropped ≤ lines.length)
    (hposition : t.buffer.positionOfLastSync =
      if event.isSync then ((lines.length - dropped : Nat) : Int) else s.buffer.positionOfLastSync) :
    ∃ last', last ≤ last' ∧ LastSync (lines ++ [event]) dropped last' t := by
  obtain ⟨hlast, hends, hbefore⟩ := h
  have hlt := hends.lt
  by_cases hsync : event.isSync = true
  · rw [if_pos hsync] at hposition
    refine ⟨lines.length - dropped, by omega, hposition, ends_append.mpr (Or.inr ⟨by omega, hsync⟩), ?_⟩
    intro j hj
    rcases ends_append.mp hj with h | h
    · have := h.lt
      omega
    · omega
  · rw [if_neg hsync] at hposition
    refine ⟨last, Nat.le_refl last, hposition.trans hlast, ends_append.mpr (Or.inl hends), ?_⟩
    intro j hj
    rcases ends_append.mp hj with h | h
    · exact hbefore j h
    · exact absurd h.2 hsync

theorem put_cases {event : EventLine} {s t : LinuxInputDevice} (h : step (.put event) s = some t) :
    t.buffer.bb = s.buffer.bb ++ [event] ∧ t.consumed = s.consumed ∧ t.running = s.running ∧
      t.buffer.currentPosition = s.buffer.currentPosition ∧
      t.buffer.positionOfLastSync = (if event.isSync then (s.buffer.bb.length : Int) else s.buffer.positionOfLastSync) ∧
      (event.isSync = true → s.scheduled = false → t.scheduled = true ∧ t.queued = s.queued + 1) ∧
      (event.isSync = false ∨ s.scheduled = true → t.scheduled = s.scheduled ∧ t.queued = s.queued) := by
  rw [step, LinuxEventBuffer.put] at h
  split at h
  · cases h
  · rw [Option.map_some] at h
    have ht := Option.some.inj h
    dsimp only at ht
    subst ht
    cases hsync : event.isSync with
    | false => exact ⟨rfl, rfl, rfl, rfl, rfl, fun h => (nomatch h), fun _ => ⟨rfl, rfl⟩⟩
    | true =>
      cases hscheduled : s.scheduled with
      | false =>
        refine ⟨rfl, rfl, rfl, rfl, rfl, fun _ _ => ⟨rfl, rfl⟩, ?_⟩
        intro h
        rcases h with h | h
        · cases h
        · cases h
      | true => exact ⟨rfl, rfl, rfl, rfl, rfl, fun _ h => (nomatch h), fun _ => ⟨rfl, rfl⟩⟩

theorem stage_put {event : EventLine} {lines : List EventLine} {s t : LinuxInputDevice} (hs : Stage lines s)
    (h : step (.put event) s = some t) : Stage (lines ++ [event]) t := by
  obtain ⟨hbb, hconsumed, hrunning, hcurrent, hposition, hfirst, hlater⟩ := put_cases h
  cases hs with
  | quiet dropped reads scheduled queued running groups complete =>
    have hle := reads.dropped_le
    have hreads := reads.put event hbb hconsumed (by omega)
    have hlength : s.buffer.bb.length = lines.length - dropped := by rw [reads.bb, List.length_drop]
    by_cases hsync : event.isSync = true
    · -- the first group since the last run is complete
      obtain ⟨hscheduled, hqueued⟩ := hfirst hsync scheduled
      rw [if_pos hsync, hlength] at hposition
      refine .queued dropped (lines.length - dropped) hreads hscheduled (by omega) (hrunning.trans running)
        ⟨hposition, ends_append.mpr (Or.inr ⟨by omega, hsync⟩), ?_⟩
      intro j hj
      rcases ends_append.mp hj with h | h
      · have := h.lt
        omega
      · omega
    · obtain ⟨hscheduled, hqueued⟩ := hlater (Or.inl (by simpa using hsync))
      refine .quiet dropped hreads (hscheduled.trans scheduled) (hqueued.trans queued) (hrunning.trans running) ?_
        (complete.imp id fun h => ends_append.mpr (Or.inl h))
      intro j hj
      rcases ends_append.mp hj with h | h
      · exact groups j h
      · exact absurd h.2 hsync
  | queued dropped last reads scheduled queued running sync =>
    have hle := reads.dropped_le
    have hlength : s.buffer.bb.length = lines.length - dropped := by rw [reads.bb, List.length_drop]
    rw [hlength] at hposition
    obtain ⟨hscheduled, hqueued⟩ := hlater (Or.inr scheduled)
    obtain ⟨last', -, hsync⟩ := sync.put hle hposition
    exact .queued dropped last' (reads.put event hbb hconsumed (by omega)) (hscheduled.trans scheduled)
      (hqueued.trans queued) (hrunning.trans running) hsync
  | running dropped last current reads scheduled queued running sync position current_le =>
    have hle := reads.dropped_le
    have hlt := sync.2.1.lt
    have hlength : s.buffer.bb.length = lines.length - dropped := by rw [reads.bb, List.length_drop]
    rw [hlength] at hposition
    obtain ⟨hscheduled, hqueued⟩ := hlater (Or.inr scheduled)
    obtain ⟨last', hlast, hsync⟩ := sync.put hle hposition
    exact .running dropped last' current (reads.put event hbb hconsumed (by omega)) (hscheduled.trans scheduled)
      (hqueued.trans queued) (hrunning.trans running) hsync (hcurrent.trans position) (by omega)

theorem stage_start {lines : List EventLine} {s t : LinuxInputDevice} (hs : Stage lines s)
    (h : step .start s = some t) : Stage lines t := by
  rw [step] at h
  split at h
  · cases h
  · split at h
    · cases h
    · rename_i hrunning queued hqueued
      cases h
      cases hs with
      | quiet dropped reads scheduled queued' running groups complete =>
        rw [hqueued] at queued'
        cases queued'
      | queued dropped last reads scheduled queued' running sync =>
        exact .running dropped last 0 ⟨reads.dropped_le, reads.bb, reads.consumed⟩ scheduled
          (by dsimp only; omega) rfl sync rfl (by omega)
      | running dropped last current reads scheduled queued' running sync position current_le =>
        rw [hqueued] at queued'
        cases queued'

theorem Stage.of_running {lines : List EventLine} {s : LinuxInputDevice} (hs : Stage lines s) (h : s.running = true) :
    ∃ dropped last current, Reads lines dropped current s ∧ s.scheduled = true ∧ s.queued = 0 ∧
      LastSync lines dropped last s ∧ s.buffer.currentPosition = current ∧ current ≤ last + 1 := by
  cases hs with
  | quiet dropped reads scheduled queued running groups complete =>
    rw [h] at running
    cases running
  | queued dropped last reads scheduled queued running sync =>
    rw [h] at running
    cases running
  | running dropped last current reads scheduled queued running sync position current_le =>
    exact ⟨dropped, last, current, reads, scheduled, queued, sync, position, current_le⟩

theorem hasNextEvent_iff {lines : List EventLine} {dropped last current : Nat} {s : LinuxInputDevice}
    (sync : LastSync lines dropped last s) (position : s.buffer.currentPosition = current) :
    s.buffer.hasNextEvent = true ↔ current ≤ last := by
  rw [LinuxEventBuffer.hasNextEvent, position, sync.1, decide_eq_true_iff]
  omega

theorem stage_next {lines : List EventLine} {s t : LinuxInputDevice} (hs : Stage lines s)
    (h : step .next s = some t) : Stage lines t := by
  rw [step] at h
  split at h
  · rename_i hnext
    rw [Bool.and_eq_true] at hnext
    obtain ⟨hrunning, hmore⟩ := hnext
    obtain ⟨dropped, last, current, reads, scheduled, queued, sync, position, current_le⟩ := hs.of_running hrunning
    have hcurrent := (hasNextEvent_iff sync position).mp hmore
    have hlt := sync.2.1.lt
    rw [LinuxEventBuffer.nextEvent, if_neg (by rw [position, sync.1]; omega), Option.map_some] at h
    have ht := Option.some.inj h
    subst ht
    have hin : dropped + current < lines.length := by omega
    have hline : s.buffer.currentEvent = some lines[dropped + current] := by
      rw [LinuxEventBuffer.currentEvent, position, if_neg (by omega), Int.toNat_natCast, reads.bb, List.getElem?_drop,
        List.getElem?_eq_getElem hin]
    refine .running dropped last (current + 1) ⟨reads.dropped_le, reads.bb, ?_⟩ scheduled queued hrunning sync ?_ (by omega)
    · change s.consumed ++ [s.buffer.currentEvent] = _
      rw [reads.consumed, hline, ← Nat.add_assoc, List.take_succ_eq_append_getElem hin, List.map_append]
      rfl
    · change s.buffer.currentPosition + 1 = _
      rw [position]
      rfl
  · cases h

theorem stage_finish {lines : List EventLine} {s t : LinuxInputDevice} (hs : Stage lines s)
    (h : step .finish s = some t) : Stage lines t := by
  rw [step] at h
  split at h
  · rename_i hrunning
    cases h
    obtain ⟨dropped, last, current, reads, scheduled, queued, sync, position, current_le⟩ := hs.of_running hrunning
    obtain ⟨hlast, hends, hbefore⟩ := sync
    have hlt := hends.lt
    have hreads : Reads lines (dropped + current) 0 { s with
        buffer := s.buffer.compact, scheduled := s.buffer.hasNextEvent
        queued := if s.buffer.hasNextEvent then s.queued + 1 else s.queued, running := false } := by
      refine ⟨by omega, ?_, reads.consumed⟩
      change s.buffer.bb.drop s.buffer.currentPosition.toNat = _
      rw [position, Int.toNat_natCast, reads.bb, List.drop_drop]
    by_cases hmore : s.buffer.hasNextEvent = true
    · -- lines of a complete group are left
      have hcurrent := (hasNextEvent_iff ⟨hlast, hends, hbefore⟩ position).mp hmore
      refine .queued (dropped + current) (last - current) hreads hmore ?_ rfl ⟨?_, ?_, ?_⟩
      · change (if s.buffer.hasNextEvent = true then s.queued + 1 else s.queued) = 1
        rw [if_pos hmore, queued]
      · change s.buffer.positionOfLastSync - s.buffer.currentPosition = _
        rw [hlast, position]
        omega
      · rw [show dropped + current + (last - current) = dropped + last by omega]
        exact hends
      · intro j hj
        have := hbefore j hj
        omega
    · have hcurrent : ¬ current ≤ last := fun hle => hmore ((hasNextEvent_iff ⟨hlast, hends, hbefore⟩ position).mpr hle)
      refine .quiet (dropped + current) hreads (by simpa using hmore) ?_ rfl ?_ ?_
      · change (if s.buffer.hasNextEvent = true then s.queued + 1 else s.queued) = 0
        rw [if_neg hmore, queued]
      · intro j hj
        have := hbefore j hj
        omega
      · rw [show dropped + current - 1 = dropped + last by omega]
        exact Or.inr hends
  · cases h

/-! ## Runs -/

theorem stage_new : Stage [] new := by
  refine .quiet 0 ⟨Nat.le_refl 0, rfl, rfl⟩ rfl rfl rfl ?_ (Or.inl rfl)
  intro j hj
  exact absurd hj.lt (Nat.not_lt_zero j)

theorem stage_run {as : List Step} {lines : List EventLine} {s t : LinuxInputDevice} (hs : Stage lines s)
    (run : execute step as s = some t) : Stage (lines ++ puts as) t := by
  induction as generalizing lines s with
  | nil =>
    cases run
    rw [puts, List.append_nil]
    exact hs
  | cons a as ih =>
    obtain ⟨u, hstep, hrest⟩ := execute_cons.mp run
    cases a with
    | put event =>
      have h := ih (stage_put hs hstep) hrest
      rwa [List.append_assoc] at h
    | start => exact ih (stage_start hs hstep) hrest
    | next => exact ih (stage_next hs hstep) hrest
    | finish => exact ih (stage_finish hs hstep) hrest

/-- After every run the consumed lines are the first of the lines that were put; the group
of each consumed line has been put completely; and as long as a complete group is not
consumed a run of the processor is queued or in progress. -/
theorem events_delivered {as : List Step} {s : LinuxInputDevice} (run : execute step as new = some s) :
    (∃ n, s.consumed = ((puts as).take n).map some) ∧
      (∀ i < s.consumed.length, ∃ j ≥ i, Ends (puts as) j) ∧
      ((∃ j ≥ s.consumed.length, Ends (puts as) j) → 0 < s.queued ∨ s.running = true) := by
  have hstage : Stage (puts as) s := stage_run stage_new run
  have hlength : ∀ {dropped current : Nat}, Reads (puts as) dropped current s → dropped + current ≤ (puts as).length →
      s.consumed.length = dropped + current := by
    intro dropped current reads hle
    rw [reads.consumed, List.length_map, List.length_take, Nat.min_eq_left hle]
  cases hstage with
  | quiet dropped reads scheduled queued running groups complete =>
      have hconsumed := hlength reads reads.dropped_le
      refine ⟨⟨_, reads.consumed⟩, ?_, ?_⟩
      · intro i hi
        rcases complete with hzero | hends
        · omega
        · exact ⟨dropped - 1, by omega, hends⟩
      · intro hmore
        obtain ⟨j, hj, hends⟩ := hmore
        have := groups j hends
        omega
  | queued dropped last reads scheduled queued running sync =>
      have hconsumed := hlength reads reads.dropped_le
      refine ⟨⟨_, reads.consumed⟩, ?_, fun _ => Or.inl (by omega)⟩
      intro i hi
      exact ⟨dropped + last, by omega, sync.2.1⟩
  | running dropped last current reads scheduled queued running sync position current_le =>
      have hlt := sync.2.1.lt
      have hconsumed := hlength reads (by omega)
      refine ⟨⟨_, reads.consumed⟩, ?_, fun _ => Or.inr running⟩
      intro i hi
      exact ⟨dropped + last, by omega, sync.2.1⟩

/-- Two groups; the second one is put while the first is read. -/
theorem events_delivered_two :
    ∃ s, execute step [.put ⟨1, 30, 1⟩, .put ⟨0, 0, 0⟩, .start, .next, .put ⟨1, 30, 0⟩, .next, .put ⟨0, 0, 0⟩, .finish]
        new = some s ∧
      (∃ n, s.consumed = ((puts [.put ⟨1, 30, 1⟩, .put ⟨0, 0, 0⟩, .start, .next, .put ⟨1, 30, 0⟩, .next,
        .put ⟨0, 0, 0⟩, .finish]).take n).map some) ∧ (0 < s.queued ∨ s.running = true) := by
  have hall := @events_delivered [.put ⟨1, 30, 1⟩, .put ⟨0, 0, 0⟩, .start, .next, .put ⟨1, 30, 0⟩, .next,
    .put ⟨0, 0, 0⟩, .finish] _ rfl
  exact ⟨_, rfl, hall.1, hall.2.2 ⟨3, by decide, ⟨0, 0, 0⟩, rfl, rfl⟩⟩

end LinuxInputDevice
end OpenJfx.Glass
