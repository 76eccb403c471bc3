import OpenJfx.Animation.MasterTimer

/-! # Pulses are snapshots and the clock is continuous -/
set_option autoImplicit false
namespace OpenJfx.Animation

open OpenJfx.Lib

namespace MasterTimer
variable {α β : Type} (t : MasterTimer α β)

section Runnable

@[simp] theorem updateAnimationRunnable_receivers : t.updateAnimationRunnable.receivers = t.receivers := by
  unfold updateAnimationRunnable
  dsimp only
  split <;> rfl

@[simp] theorem updateAnimationRunnable_animationTimers :
    t.updateAnimationRunnable.animationTimers = t.animationTimers := by
  unfold updateAnimationRunnable
  dsimp only
  split <;> rfl

@[simp] theorem updateAnimationRunnable_frame : t.updateAnimationRunnable.frame = t.frame := by
  unfold updateAnimationRunnable
  dsimp only
  split <;> rfl

@[simp] theorem updateAnimationRunnable_nanos : t.updateAnimationRunnable.nanos = t.nanos := by
  unfold updateAnimationRunnable
  dsimp only
  split <;> rfl

@[simp] theorem updateAnimationRunnable_paused : t.updateAnimationRunnable.paused = t.paused := by
  unfold updateAnimationRunnable
  dsimp only
  split <;> rfl

end Runnable

structure SamePulse (t' t : MasterTimer α β) : Prop where
  receivers : t'.receivers = t.receivers
  animationTimers : t'.animationTimers = t.animationTimers
  frame : t'.frame = t.frame

theorem runnable_samePulse (c : Prop) [Decidable c] :
    SamePulse (if c then t.updateAnimationRunnable else t) t := by
  split
  · exact ⟨by simp, by simp, by simp⟩
  · exact ⟨rfl, rfl, rfl⟩

theorem pause_samePulse : SamePulse t.pause t := by
  unfold pause
  split <;> exact ⟨rfl, rfl, rfl⟩

theorem resume_samePulse : SamePulse t.resume t := by
  unfold resume
  split <;> exact ⟨rfl, rfl, rfl⟩

variable {t}

theorem registrations_eq {rs : List α} (h : t.receivers.Holds rs) : t.registrations = rs.map some := by
  obtain ⟨rest, hrest⟩ := h.starts.array
  rw [registrations, hrest, h.length]
  simp

theorem called_eq {s : ReceiverArray α} {snapshot : Nat} {rs : List α} (h : s.Starts snapshot rs)
    {i : Nat} (hi : i < rs.length) : called (s.array snapshot) i = .ok rs[i] := by
  obtain ⟨rest, hrest⟩ := h.array
  have hread : readAt (s.array snapshot) i = .ok (some rs[i]) := by
    rw [hrest, readAt_natCast _ _ (by simp; omega)]
    simp [List.getElem_append_left, hi]
  rw [called, hread]

section Clock

structure SameClock (t' t : MasterTimer α β) : Prop where
  nanos : t'.nanos = t.nanos
  paused : t'.paused = t.paused

theorem SameClock.trans {t' t'' : MasterTimer α β} (h : SameClock t'' t') (h' : SameClock t' t) :
    SameClock t'' t := ⟨h.nanos.trans h'.nanos, h.paused.trans h'.paused⟩

variable {t' : MasterTimer α β}

theorem runnable_sameClock (t : MasterTimer α β) (c : Prop) [Decidable c] :
    SameClock (if c then t.updateAnimationRunnable else t) t := by
  split
  · exact ⟨by simp, by simp⟩
  · exact ⟨rfl, rfl⟩

theorem addPulseReceiver_sameClock {target : α} (h : t.addPulseReceiver target = .ok t') : SameClock t' t := by
  unfold addPulseReceiver at h
  split at h
  next => cases h
  next receivers _ =>
    cases h
    exact (runnable_sameClock ({ t with receivers := receivers } : MasterTimer α β) (receivers.length = 1)).trans
      ⟨rfl, rfl⟩

theorem removePulseReceiver_sameClock [DecidableEq α] {target : α} (h : t.removePulseReceiver target = .ok t') : SameClock t' t := by
  unfold removePulseReceiver at h
  split at h
  next => cases h
  next receivers _ =>
    cases h
    exact (runnable_sameClock ({ t with receivers := receivers } : MasterTimer α β) (receivers.length = 0)).trans
      ⟨rfl, rfl⟩

theorem addAnimationTimer_sameClock {timer : β} (h : t.addAnimationTimer timer = .ok t') : SameClock t' t := by
  unfold addAnimationTimer at h
  split at h
  next => cases h
  next animationTimers _ =>
    cases h
    exact (runnable_sameClock ({ t with animationTimers := animationTimers } : MasterTimer α β) (animationTimers.length = 1)).trans
      ⟨rfl, rfl⟩

theorem removeAnimationTimer_sameClock [DecidableEq β] {timer : β} (h : t.removeAnimationTimer timer = .ok t') : SameClock t' t := by
  unfold removeAnimationTimer at h
  split at h
  next => cases h
  next animationTimers _ =>
    cases h
    exact (runnable_sameClock ({ t with animationTimers := animationTimers } : MasterTimer α β) (animationTimers.length = 0)).trans
      ⟨rfl, rfl⟩

theorem next_sameClock {call : Option (PulseCall α β)} (h : t.next = .ok (call, t')) : SameClock t' t := by
  unfold next at h
  split at h
  · cases h
    exact ⟨rfl, rfl⟩
  · split at h
    · split at h
      · cases h
      · cases h
        exact ⟨rfl, rfl⟩
    · cases h
      exact ⟨rfl, rfl⟩
  · split at h
    · split at h
      · cases h
      · cases h
        exact ⟨rfl, rfl⟩
    · cases h
      exact ⟨by rw [updateAnimationRunnable_nanos]; rfl, by simp⟩

theorem pause_nanos : t.pause.nanos = t.nanos := by
  unfold pause
  split
  · rfl
  · unfold nanos
    split
    · rfl
    · rfl

theorem resume_nanos : t.resume.nanos = t.nanos := by
  unfold resume
  split
  next paused =>
    simp only [nanos, paused, if_true, Bool.false_eq_true, if_false]
    split
    · rfl
    · omega
  next => rfl

theorem run_nanos : t.nanos ≤ t.run.nanos ∧ (t.paused = true → t.run = t) := by
  unfold run
  split
  next => exact ⟨le_rfl, fun _ => rfl⟩
  next awake =>
    refine ⟨?_, fun paused => absurd paused awake⟩
    unfold timePulseImpl nanos
    by_cases fixed : 0 < t.fixedPulseLength
    · simp only [fixed, decide_true, if_true]
      omega
    · simp only [fixed, decide_false, Bool.false_eq_true, if_false]
      exact le_rfl

end Clock

section Next
variable {now : Int} {snapshot n i : Nat}

theorem next_receivers_call {receiver : α} (frame : t.frame = some (.receivers now snapshot n i))
    (more : i < n) (hcall : called (t.receivers.array snapshot) i = .ok receiver) :
    t.next = .ok (some (.timePulse receiver now),
      { t with frame := some (.receivers now snapshot n (i + 1)) }) := by
  rw [next, frame]
  simp only [if_pos more, hcall]

theorem next_receivers_end (frame : t.frame = some (.receivers now snapshot n i)) (last : ¬i < n) :
    t.next = .ok (none, { t with
      receivers := { t.receivers with locked := false }
      frame := some (.animationTimers now t.animationTimers.current t.animationTimers.length 0)
      animationTimers := { t.animationTimers with locked := true } }) := by
  rw [next, frame]
  simp only [if_neg last]

theorem next_animationTimers_call {timer : β} (frame : t.frame = some (.animationTimers now snapshot n i))
    (more : i < n) (hcall : called (t.animationTimers.array snapshot) i = .ok timer) :
    t.next = .ok (some (.handle timer now),
      { t with frame := some (.animationTimers now snapshot n (i + 1)) }) := by
  rw [next, frame]
  simp only [if_pos more, hcall]

theorem next_animationTimers_end (frame : t.frame = some (.animationTimers now snapshot n i)) (last : ¬i < n) :
    t.next = .ok (none, { t with
      animationTimers := { t.animationTimers with locked := false }
      frame := none }.updateAnimationRunnable) := by
  rw [next, frame]
  simp only [if_neg last]

end Next

end MasterTimer

namespace Session
variable {α β : Type}

def Exact (pulse : PulseRecord α) : Prop := pulse.called.map some = pulse.registered

/-- The state of a pulse: its loop has called the first `i` receivers of the
snapshot, which no change reaches any more. -/
def InPulse (s : Session α β) : Option Frame → Prop
  | none => ∀ pulse ∈ s.pulses, Exact pulse
  | some (.receivers _ snapshot rLength i) =>
      ∃ rs, s.timer.receivers.Frozen snapshot rs ∧ rLength = rs.length ∧ i ≤ rs.length ∧
        ∃ earlier, s.pulses = ⟨rs.map some, rs.take i⟩ :: earlier ∧ ∀ pulse ∈ earlier, Exact pulse
  | some (.animationTimers _ snapshot aTLength _) =>
      (∃ ts, s.timer.animationTimers.Frozen snapshot ts ∧ aTLength = ts.length) ∧
        ∀ pulse ∈ s.pulses, Exact pulse

structure Kept (s : Session α β) : Prop where
  receivers : ∃ rs, s.timer.receivers.Holds rs
  animationTimers : ∃ ts, s.timer.animationTimers.Holds ts
  inPulse : s.InPulse s.timer.frame

theorem kept_create (fixedPulseLength nanoTime : Int) :
    (create fixedPulseLength nanoTime : Session α β).Kept :=
  ⟨⟨[], ReceiverArray.holds_empty⟩, ⟨[], ReceiverArray.holds_empty⟩, by simp [InPulse, create, MasterTimer.create]⟩

theorem InPulse.change {s : Session α β} {t : MasterTimer α β} {frame : Option Frame}
    (h : s.InPulse frame)
    (receivers : ∀ ref rs, s.timer.receivers.Frozen ref rs → t.receivers.Frozen ref rs)
    (animationTimers : ∀ ref ts, s.timer.animationTimers.Frozen ref ts → t.animationTimers.Frozen ref ts) :
    ({ s with timer := t } : Session α β).InPulse frame := by
  cases frame with
  | none => exact h
  | some frame =>
    cases frame with
    | receivers now snapshot rLength i =>
      obtain ⟨rs, frozen, rest⟩ := h
      exact ⟨rs, receivers _ _ frozen, rest⟩
    | animationTimers now snapshot aTLength i =>
      obtain ⟨⟨ts, frozen, length⟩, rest⟩ := h
      exact ⟨⟨ts, animationTimers _ _ frozen, length⟩, rest⟩

theorem Kept.samePulse {s : Session α β} {t : MasterTimer α β} (h : s.Kept)
    (same : MasterTimer.SamePulse t s.timer) : ({ s with timer := t } : Session α β).Kept := by
  constructor
  case receivers => rw [same.receivers]; exact h.receivers
  case animationTimers => rw [same.animationTimers]; exact h.animationTimers
  case inPulse =>
    rw [same.frame]
    exact h.inPulse.change (by rw [same.receivers]; exact fun _ _ => id)
      (by rw [same.animationTimers]; exact fun _ _ => id)

section Registration
variable {s : Session α β}

theorem addPulseReceiver_spec (h : s.Kept) {rs : List α} (held : s.timer.receivers.Holds rs) (target : α) :
    ∃ t, s.timer.addPulseReceiver target = .ok t ∧ t.receivers.Holds (rs ++ [target]) ∧
      ({ s with timer := t } : Session α β).Kept := by
  obtain ⟨receivers, hadd, added, frozen⟩ := ReceiverArray.add_spec held target
  unfold MasterTimer.addPulseReceiver
  rw [hadd]
  have kept : ({ s with timer := { s.timer with receivers := receivers } } : Session α β).Kept :=
    ⟨⟨_, added⟩, h.animationTimers, h.inPulse.change frozen (fun _ _ => id)⟩
  have same := MasterTimer.runnable_samePulse ({ s.timer with receivers := receivers } : MasterTimer α β)
    (receivers.length = 1)
  exact ⟨_, rfl, by rw [same.receivers]; exact added, kept.samePulse same⟩

theorem removePulseReceiver_spec [DecidableEq α] (h : s.Kept) {rs : List α} (held : s.timer.receivers.Holds rs) (target : α) :
    ∃ t, s.timer.removePulseReceiver target = .ok t ∧ t.receivers.Holds (rs.erase target) ∧
      ({ s with timer := t } : Session α β).Kept := by
  obtain ⟨receivers, hremove, removed, frozen⟩ := ReceiverArray.remove_spec held target
  unfold MasterTimer.removePulseReceiver
  rw [hremove]
  have kept : ({ s with timer := { s.timer with receivers := receivers } } : Session α β).Kept :=
    ⟨⟨_, removed⟩, h.animationTimers, h.inPulse.change frozen (fun _ _ => id)⟩
  have same := MasterTimer.runnable_samePulse ({ s.timer with receivers := receivers } : MasterTimer α β)
    (receivers.length = 0)
  exact ⟨_, rfl, by rw [same.receivers]; exact removed, kept.samePulse same⟩

theorem addAnimationTimer_spec (h : s.Kept) (timer : β) :
    ∃ t, s.timer.addAnimationTimer timer = .ok t ∧ ({ s with timer := t } : Session α β).Kept := by
  obtain ⟨ts, held⟩ := h.animationTimers
  obtain ⟨animationTimers, hadd, added, frozen⟩ := ReceiverArray.add_spec held timer
  unfold MasterTimer.addAnimationTimer
  rw [hadd]
  have kept : ({ s with timer := { s.timer with animationTimers := animationTimers } } : Session α β).Kept :=
    ⟨h.receivers, ⟨_, added⟩, h.inPulse.change (fun _ _ => id) frozen⟩
  have same := MasterTimer.runnable_samePulse ({ s.timer with animationTimers := animationTimers } : MasterTimer α β)
    (animationTimers.length = 1)
  exact ⟨_, rfl, kept.samePulse same⟩

theorem removeAnimationTimer_spec [DecidableEq β] (h : s.Kept) (timer : β) :
    ∃ t, s.timer.removeAnimationTimer timer = .ok t ∧ ({ s with timer := t } : Session α β).Kept := by
  obtain ⟨ts, held⟩ := h.animationTimers
  obtain ⟨animationTimers, hremove, removed, frozen⟩ := ReceiverArray.remove_spec held timer
  unfold MasterTimer.removeAnimationTimer
  rw [hremove]
  have kept : ({ s with timer := { s.timer with animationTimers := animationTimers } } : Session α β).Kept :=
    ⟨h.receivers, ⟨_, removed⟩, h.inPulse.change (fun _ _ => id) frozen⟩
  have same := MasterTimer.runnable_samePulse ({ s.timer with animationTimers := animationTimers } : MasterTimer α β)
    (animationTimers.length = 0)
  exact ⟨_, rfl, kept.samePulse same⟩

end Registration

/-! ## The loop of a pulse -/

theorem Kept.run {s : Session α β} (h : s.Kept) (idle : s.timer.frame = none) (awake : s.timer.paused = false) :
    (⟨s.timer.run, ⟨s.timer.registrations, []⟩ :: s.pulses⟩ : Session α β).Kept := by
  obtain ⟨rs, held⟩ := h.receivers
  have earlier := h.inPulse
  rw [idle] at earlier
  have hrun : s.timer.run = s.timer.timePulseImpl s.timer.nanos := by
    rw [MasterTimer.run, if_neg (by simp [awake])]
  have hreceivers : s.timer.run.receivers = { s.timer.receivers with locked := true } := by
    rw [hrun, MasterTimer.timePulseImpl]
    split <;> rfl
  have htimers : s.timer.run.animationTimers = s.timer.animationTimers := by
    rw [hrun, MasterTimer.timePulseImpl]
    split <;> rfl
  obtain ⟨now, hframe⟩ : ∃ now, s.timer.run.frame
      = some (.receivers now s.timer.receivers.current s.timer.receivers.length 0) := by
    rw [hrun, MasterTimer.timePulseImpl]
    split <;> exact ⟨_, rfl⟩
  constructor
  case receivers => exact ⟨rs, by rw [hreceivers]; exact ⟨held.starts, held.length⟩⟩
  case animationTimers => rw [htimers]; exact h.animationTimers
  case inPulse =>
    rw [hframe]
    refine ⟨rs, ?_, held.length, Nat.zero_le _, s.pulses, ?_, earlier⟩
    · show s.timer.run.receivers.Frozen _ _
      rw [hreceivers]
      exact ⟨held.starts, Or.inl rfl⟩
    · rw [MasterTimer.registrations_eq held]
      rfl

theorem Kept.next {s : Session α β} (h : s.Kept) :
    ∃ call t, s.timer.next = .ok (call, t) ∧ (⟨t, record call s.pulses⟩ : Session α β).Kept := by
  have inPulse := h.inPulse
  cases hframe : s.timer.frame with
  | none =>
    exact ⟨none, s.timer, by rw [MasterTimer.next, hframe], h⟩
  | some frame =>
    rw [hframe] at inPulse
    cases frame with
    | receivers now snapshot rLength i =>
      obtain ⟨rs, frozen, rfl, hi, earlier, hpulses, hexact⟩ := inPulse
      by_cases more : i < rs.length
      · have hcall := MasterTimer.called_eq frozen.starts more
        refine ⟨_, _, MasterTimer.next_receivers_call hframe more hcall, ?_⟩
        refine ⟨h.receivers, h.animationTimers, rs, frozen, rfl, more, earlier, ?_, hexact⟩
        simp only [record, hpulses]
        rw [List.take_succ_eq_append_getElem more]
      · refine ⟨_, _, MasterTimer.next_receivers_end hframe more, ?_⟩
        obtain ⟨rs', held⟩ := h.receivers
        obtain ⟨ts, heldTimers⟩ := h.animationTimers
        refine ⟨⟨rs', held.starts, held.length⟩, ⟨ts, heldTimers.starts, heldTimers.length⟩,
          ⟨ts, ⟨heldTimers.starts, Or.inl rfl⟩, heldTimers.length⟩, ?_⟩
        show ∀ pulse ∈ s.pulses, Exact pulse
        rw [hpulses]
        intro pulse hmem
        rcases List.mem_cons.mp hmem with rfl | hmem
        · show (rs.take i).map some = rs.map some
          rw [List.take_of_length_le (by omega)]
        · exact hexact pulse hmem
    | animationTimers now snapshot aTLength i =>
      obtain ⟨⟨ts, frozen, rfl⟩, hexact⟩ := inPulse
      by_cases more : i < ts.length
      · have hcall := MasterTimer.called_eq frozen.starts more
        refine ⟨_, _, MasterTimer.next_animationTimers_call hframe more hcall, ?_⟩
        exact ⟨h.receivers, h.animationTimers, ⟨ts, frozen, rfl⟩, hexact⟩
      · refine ⟨_, _, MasterTimer.next_animationTimers_end hframe more, ?_⟩
        obtain ⟨ts', heldTimers⟩ := h.animationTimers
        have kept : (⟨{ s.timer with
            animationTimers := { s.timer.animationTimers with locked := false }, frame := none },
            s.pulses⟩ : Session α β).Kept :=
          ⟨h.receivers, ⟨ts', heldTimers.starts, heldTimers.length⟩, hexact⟩
        exact kept.samePulse ⟨by simp, by simp, by simp⟩

/-- The turns that are left of a pulse in progress, when nothing is registered in between. -/
def turnsLeft (t : MasterTimer α β) : Nat :=
  match t.frame with
  | none => 0
  | some (.receivers _ _ rLength i) => rLength - i + 1 + (t.animationTimers.length + 1)
  | some (.animationTimers _ _ aTLength i) => aTLength - i + 1

/-- Every turn of a pulse in progress leaves one turn less. -/
theorem Kept.next_turnsLeft {s : Session α β} (h : s.Kept) {n : Nat} (hleft : turnsLeft s.timer = n + 1) :
    ∃ call t, s.timer.next = .ok (call, t) ∧ (⟨t, record call s.pulses⟩ : Session α β).Kept ∧ turnsLeft t = n := by
  obtain ⟨call, t, hnext, kept⟩ := h.next
  refine ⟨call, t, hnext, kept, ?_⟩
  have inPulse := h.inPulse
  rw [turnsLeft] at hleft
  cases hframe : s.timer.frame with
  | none =>
    rw [hframe] at hleft
    cases hleft
  | some frame =>
    rw [hframe] at inPulse hleft
    cases frame with
    | receivers now snapshot rLength i =>
      dsimp only at hleft
      obtain ⟨rs, frozen, rfl, -⟩ := inPulse
      by_cases more : i < rs.length
      · rw [MasterTimer.next_receivers_call hframe more (MasterTimer.called_eq frozen.starts more)] at hnext
        cases hnext
        change rs.length - (i + 1) + 1 + (s.timer.animationTimers.length + 1) = n
        omega
      · rw [MasterTimer.next_receivers_end hframe more] at hnext
        cases hnext
        change s.timer.animationTimers.length - 0 + 1 = n
        omega
    | animationTimers now snapshot aTLength i =>
      dsimp only at hleft
      obtain ⟨⟨ts, frozen, rfl⟩, -⟩ := inPulse
      by_cases more : i < ts.length
      · rw [MasterTimer.next_animationTimers_call hframe more (MasterTimer.called_eq frozen.starts more)] at hnext
        cases hnext
        change ts.length - (i + 1) + 1 = n
        omega
      · rw [MasterTimer.next_animationTimers_end hframe more] at hnext
        cases hnext
        rw [turnsLeft, MasterTimer.updateAnimationRunnable_frame]
        dsimp only
        omega

theorem frame_of_turnsLeft {t : MasterTimer α β} (h : turnsLeft t = 0) : t.frame = none := by
  rw [turnsLeft] at h
  split at h
  · assumption
  · cases h
  · cases h

/-! ## Runs -/

def Unnested : TimerEvent α β → Session α β → Prop
  | .run, s => s.timer.frame = none
  | _, _ => True

instance : ∀ (event : TimerEvent α β) (s : Session α β), Decidable (Unnested event s)
  | .run, s => inferInstanceAs (Decidable (s.timer.frame = none))
  | .addPulseReceiver _, _ => isTrue trivial
  | .removePulseReceiver _, _ => isTrue trivial
  | .addAnimationTimer _, _ => isTrue trivial
  | .removeAnimationTimer _, _ => isTrue trivial
  | .pause, _ => isTrue trivial
  | .resume, _ => isTrue trivial
  | .nanoTime _, _ => isTrue trivial
  | .next, _ => isTrue trivial

section Runs
variable [DecidableEq α] [DecidableEq β]

theorem step_kept (event : TimerEvent α β) (s : Session α β) (h : s.Kept) (unnested : Unnested event s) :
    ∃ s', step event s = .done s' ∧ s'.Kept := by
  cases event with
  | addPulseReceiver target =>
    obtain ⟨rs, held⟩ := h.receivers
    obtain ⟨t, hadd, -, kept⟩ := addPulseReceiver_spec h held target
    exact ⟨_, by simp only [step, change, hadd, Outcome.ofExcept_ok], kept⟩
  | removePulseReceiver target =>
    obtain ⟨rs, held⟩ := h.receivers
    obtain ⟨t, hremove, -, kept⟩ := removePulseReceiver_spec h held target
    exact ⟨_, by simp only [step, change, hremove, Outcome.ofExcept_ok], kept⟩
  | addAnimationTimer timer =>
    obtain ⟨t, hadd, kept⟩ := addAnimationTimer_spec h timer
    exact ⟨_, by simp only [step, change, hadd, Outcome.ofExcept_ok], kept⟩
  | removeAnimationTimer timer =>
    obtain ⟨t, hremove, kept⟩ := removeAnimationTimer_spec h timer
    exact ⟨_, by simp only [step, change, hremove, Outcome.ofExcept_ok], kept⟩
  | pause => exact ⟨_, rfl, h.samePulse (MasterTimer.pause_samePulse s.timer)⟩
  | resume => exact ⟨_, rfl, h.samePulse (MasterTimer.resume_samePulse s.timer)⟩
  | nanoTime now => exact ⟨_, rfl, h.samePulse ⟨rfl, rfl, rfl⟩⟩
  | run =>
    refine ⟨_, rfl, ?_⟩
    cases paused : s.timer.paused with
    | true =>
      have hrun : s.timer.run = s.timer := by rw [MasterTimer.run, if_pos paused]
      rw [if_pos rfl, hrun]
      exact h
    | false =>
      rw [if_neg (by decide)]
      exact h.run unnested paused
  | next =>
    obtain ⟨call, t, hnext, kept⟩ := h.next
    exact ⟨_, by simp only [step, hnext, Outcome.ofExcept_ok], kept⟩


/-- Left to itself, a pulse in progress ends. -/
theorem Kept.pulse_ends {s : Session α β} (h : s.Kept) :
    ∃ s', Outcome.run step (List.replicate (turnsLeft s.timer) .next) s = .done s' ∧ s'.timer.frame = none ∧ s'.Kept := by
  generalize hleft : turnsLeft s.timer = n
  induction n generalizing s with
  | zero => exact ⟨s, rfl, frame_of_turnsLeft hleft, h⟩
  | succ n ih =>
    obtain ⟨call, t, hnext, kept, ht⟩ := h.next_turnsLeft hleft
    obtain ⟨s', hrest, hend⟩ := ih kept ht
    refine ⟨s', ?_, hend⟩
    have hstep : step .next s = .done ⟨t, record call s.pulses⟩ := by simp only [step, hnext, Outcome.ofExcept_ok]
    rw [List.replicate_succ, Outcome.run, hstep]
    exact hrest

omit [DecidableEq α] [DecidableEq β] in
theorem change_eq_done {s s' : Session α β} {result : Except Exn (MasterTimer α β)}
    (h : s.change result = .done s') : ∃ t, result = .ok t ∧ s' = { s with timer := t } := by
  cases result with
  | error x => cases h
  | ok t =>
    cases h
    exact ⟨t, rfl, rfl⟩

def ClockForward : TimerEvent α β → Session α β → Prop
  | .nanoTime now, s => s.timer.nanoTime ≤ now
  | _, _ => True

theorem step_nanos {event : TimerEvent α β} {s s' : Session α β} (forward : ClockForward event s)
    (hstep : step event s = .done s') :
    s.timer.nanos ≤ s'.timer.nanos ∧
      (s.timer.paused = true → event ≠ .resume → s'.timer.nanos = s.timer.nanos ∧ s'.timer.paused = true) := by
  have same : ∀ t, MasterTimer.SameClock t s.timer → s.timer.nanos ≤ t.nanos ∧
      (s.timer.paused = true → event ≠ .resume → t.nanos = s.timer.nanos ∧ t.paused = true) := by
    intro t h
    exact ⟨le_of_eq h.nanos.symm, fun paused _ => ⟨h.nanos, h.paused.trans paused⟩⟩
  cases event with
  | addPulseReceiver target =>
    obtain ⟨t, hadd, rfl⟩ := change_eq_done hstep
    exact same t (MasterTimer.addPulseReceiver_sameClock hadd)
  | removePulseReceiver target =>
    obtain ⟨t, hremove, rfl⟩ := change_eq_done hstep
    exact same t (MasterTimer.removePulseReceiver_sameClock hremove)
  | addAnimationTimer timer =>
    obtain ⟨t, hadd, rfl⟩ := change_eq_done hstep
    exact same t (MasterTimer.addAnimationTimer_sameClock hadd)
  | removeAnimationTimer timer =>
    obtain ⟨t, hremove, rfl⟩ := change_eq_done hstep
    exact same t (MasterTimer.removeAnimationTimer_sameClock hremove)
  | pause =>
    cases hstep
    refine ⟨le_of_eq MasterTimer.pause_nanos.symm, fun paused _ => ⟨MasterTimer.pause_nanos, ?_⟩⟩
    show s.timer.pause.paused = true
    rw [MasterTimer.pause, if_pos paused]
    exact paused
  | resume =>
    cases hstep
    exact ⟨le_of_eq MasterTimer.resume_nanos.symm, fun _ other => absurd rfl other⟩
  | nanoTime now =>
    cases hstep
    change s.timer.nanoTime ≤ now at forward
    simp only [MasterTimer.nanos]
    cases paused : s.timer.paused with
    | true => simp
    | false =>
      simp only [Bool.false_eq_true, if_false, false_implies, and_true]
      split <;> omega
  | run =>
    cases hstep
    obtain ⟨later, still⟩ := s.timer.run_nanos
    refine ⟨later, fun paused _ => ?_⟩
    show s.timer.run.nanos = s.timer.nanos ∧ s.timer.run.paused = true
    rw [still paused]
    exact ⟨rfl, paused⟩
  | next =>
    simp only [step] at hstep
    cases hnext : s.timer.next with
    | error x => rw [hnext] at hstep; cases hstep
    | ok result =>
      rw [hnext] at hstep
      cases hstep
      exact same result.2 (MasterTimer.next_sameClock hnext)

theorem run_nanos (events : List (TimerEvent α β)) : ∀ s s' : Session α β,
    Outcome.Along ClockForward step events s → Outcome.run step events s = .done s' →
      s.timer.nanos ≤ s'.timer.nanos ∧
        (s.timer.paused = true → .resume ∉ events → s'.timer.nanos = s.timer.nanos) := by
  induction events with
  | nil =>
    intro s s' _ hrun
    cases hrun
    exact ⟨le_rfl, fun _ _ => rfl⟩
  | cons event rest ih =>
    intro s s' along hrun
    obtain ⟨u, hstep, hrest⟩ := Outcome.bind_eq_done hrun
    obtain ⟨first, firstPaused⟩ := step_nanos along.1 hstep
    obtain ⟨later, laterPaused⟩ := ih u s' (along.2 u hstep) hrest
    refine ⟨le_trans first later, fun paused noResume => ?_⟩
    obtain ⟨same, paused'⟩ := firstPaused paused (fun h => noResume (by simp [h]))
    rw [laterPaused paused' (fun h => noResume (List.mem_cons_of_mem _ h)), same]

/-- Every finished pulse has called the receivers registered when it started,
each once and in order; the pulse in progress has called the first `i`. -/
def Snapshots (s : Session α β) : Prop :=
  match s.timer.frame with
  | some (.receivers _ _ rLength i) =>
      ∃ pulse earlier, s.pulses = pulse :: earlier ∧ pulse.called.map some = pulse.registered.take i ∧
        (rLength = pulse.registered.length ∧ i ≤ rLength) ∧ ∀ pulse ∈ earlier, Exact pulse
  | _ => ∀ pulse ∈ s.pulses, Exact pulse

omit [DecidableEq α] [DecidableEq β] in
theorem Kept.snapshots {s : Session α β} (h : s.Kept) : s.Snapshots := by
  have inPulse := h.inPulse
  unfold Snapshots
  split
  next now snapshot rLength i frame =>
    rw [frame] at inPulse
    obtain ⟨rs, -, rfl, hi, earlier, hpulses, hexact⟩ := inPulse
    exact ⟨_, earlier, hpulses, by simp [List.map_take], ⟨by simp, hi⟩, hexact⟩
  next other =>
    cases frame : s.timer.frame with
    | none => rw [frame] at inPulse; exact inPulse
    | some f =>
      cases f with
      | receivers now snapshot rLength i => exact absurd frame (other now snapshot rLength i)
      | animationTimers now snapshot aTLength i => rw [frame] at inPulse; exact inPulse.2

omit [DecidableEq β] in
theorem map_some_erase (target : α) (rs : List α) :
    (rs.erase target).map some = (rs.map some).erase (some target) := by
  induction rs with
  | nil => rfl
  | cons r rs ih =>
    by_cases found : r = target
    · simp [found]
    · rw [List.erase_cons_tail (by simpa using found), List.map_cons, List.map_cons,
        List.erase_cons_tail (by simpa using found), ih]

/-- In every run, pulses are snapshots of the registrations and come to their end, a removal
deletes one registration, and the time goes on without steps. -/
theorem timer_run_contract (fixedPulseLength nanoTime : Int) (events : List (TimerEvent α β))
    (unnested : Outcome.Along Unnested step events (create fixedPulseLength nanoTime)) :
    ∃ s, Outcome.run step events (create fixedPulseLength nanoTime) = .done s ∧ s.Snapshots ∧
      (∃ s', Outcome.run step (List.replicate (turnsLeft s.timer) .next) s = .done s' ∧ s'.timer.frame = none ∧
        s'.Snapshots) ∧
      (∀ target, ∃ t, s.timer.addPulseReceiver target = .ok t ∧
        t.registrations = s.timer.registrations ++ [some target]) ∧
      (∀ target, ∃ t, s.timer.removePulseReceiver target = .ok t ∧
        t.registrations = s.timer.registrations.erase (some target)) ∧
      ∀ more s', Outcome.Along ClockForward step more s → Outcome.run step more s = .done s' →
        s.timer.nanos ≤ s'.timer.nanos ∧
          (s.timer.paused = true → .resume ∉ more → s'.timer.nanos = s.timer.nanos) := by
  obtain ⟨s, hrun, kept⟩ := Outcome.run_total Kept Unnested step step_kept events _
    (kept_create fixedPulseLength nanoTime) unnested
  obtain ⟨rs, held⟩ := kept.receivers
  obtain ⟨s', hpulse, hframe, kept'⟩ := kept.pulse_ends
  refine ⟨s, hrun, kept.snapshots, ⟨s', hpulse, hframe, kept'.snapshots⟩, ?_, ?_, fun more s' => run_nanos more s s'⟩
  · intro target
    obtain ⟨t, hadd, added, -⟩ := addPulseReceiver_spec kept held target
    refine ⟨t, hadd, ?_⟩
    rw [MasterTimer.registrations_eq added, MasterTimer.registrations_eq held]
    simp
  · intro target
    obtain ⟨t, hremove, removed, -⟩ := removePulseReceiver_spec kept held target
    refine ⟨t, hremove, ?_⟩
    rw [MasterTimer.registrations_eq removed, MasterTimer.registrations_eq held]
    exact map_some_erase target rs

/-- Three receivers; the first removes itself and the third and adds a fourth
while it is called, and the timer is paused in the pulse and resumed behind it. -/
theorem timer_run_contract_changing : ∃ s : Session Nat Nat,
    Outcome.run Session.step [.addPulseReceiver 1, .addPulseReceiver 2, .addPulseReceiver 3, .run, .next,
      .removePulseReceiver 1, .removePulseReceiver 3, .addPulseReceiver 4, .next, .pause, .nanoTime 50,
      .next, .next, .next, .resume] (create 0 10) = .done s ∧ s.Snapshots ∧
      (∃ s', Outcome.run step (List.replicate (turnsLeft s.timer) .next) s = .done s' ∧ s'.timer.frame = none ∧
        s'.Snapshots) ∧
      (∀ target, ∃ t, s.timer.addPulseReceiver target = .ok t ∧
        t.registrations = s.timer.registrations ++ [some target]) ∧
      (∀ target, ∃ t, s.timer.removePulseReceiver target = .ok t ∧
        t.registrations = s.timer.registrations.erase (some target)) ∧
      ∀ more s', Outcome.Along ClockForward step more s → Outcome.run step more s = .done s' →
        s.timer.nanos ≤ s'.timer.nanos ∧
          (s.timer.paused = true → .resume ∉ more → s'.timer.nanos = s.timer.nanos) :=
  timer_run_contract 0 10 _ (by decide +kernel)

end Runs

end Session
end OpenJfx.Animation
