import OpenJfx.Lib.Run
import Mathlib.Logic.Function.Basic
import Mathlib.Data.List.Perm.Basic

/-! # Coalesced updates of a `javafx.concurrent.Task`

Background threads call `updateMessage`, `updateTitle`, `updateValue` and
`updateProgress`; each has a pending slot that the first call fills and a runnable
of the event thread empties.  A step of a schedule is one `getAndSet` of a call, one
`runLater`, or one runnable. -/
set_option autoImplicit false
namespace OpenJfx.Concurrent
open OpenJfx.Lib

/-- What the updates use of the type `double`. -/
structure Doubles (D : Type) where
  zero : D
  minusOne : D
  isInfinite : D → Bool
  isNaN : D → Bool
  lt : D → D → Bool
  eq : D → D → Bool
  div : D → D → D

namespace Task

structure ProgressUpdate (D : Type) where
  workDone : D
  totalWork : D
deriving DecidableEq, Repr

/-- The properties that `_updateProgress` sets. -/
structure Progress (D : Type) where
  totalWork : D
  workDone : D
  progress : D
deriving DecidableEq, Repr

inductive Property where
  | message
  | title
  | value
  | progress
deriving DecidableEq, Repr

section Types
variable (V D : Type)

/-- The objects in the pending slot of a property. -/
def Ref : Property → Type
  | .message => String
  | .title => String
  | .value => V
  | .progress => ProgressUpdate D

/-- The value of a property; a null message is `none`. -/
def Shown : Property → Type
  | .message => Option String
  | .title => Option String
  | .value => Option V
  | .progress => Progress D

inductive Call where
  | updateMessage (message : Option String)
  | updateTitle (title : Option String)
  | updateValue (value : Option V)
  | updateProgress (workDone max : D)

/-- `slot` has the references `messageUpdate`, `titleUpdate`, `valueUpdate` and
`progressUpdate`; `calling` has the threads that are to call `runLater`, and `queue`
the runnables of the event thread. -/
structure Updates where
  slot : (p : Property) → Option (Ref V D p)
  shown : (p : Property) → Shown V D p
  queue : List Property
  calling : List (Nat × Property)

end Types

variable {V D : Type} (d : Doubles D)

/-- The object that `updateProgress` makes of its arguments. -/
def progressUpdate (workDone max : D) : ProgressUpdate D :=
  let workDone := if d.isInfinite workDone || d.isNaN workDone then d.minusOne else workDone
  let max := if d.isInfinite max || d.isNaN max then d.minusOne else max
  let workDone := if d.lt workDone d.zero then d.minusOne else workDone
  let max := if d.lt max d.zero then d.minusOne else max
  let workDone := if d.lt max workDone then max else workDone
  ⟨workDone, max⟩

/-- `_updateProgress`. -/
def setProgress (update : ProgressUpdate D) : Progress D :=
  ⟨update.totalWork, update.workDone,
    if d.eq update.workDone d.minusOne then d.minusOne else d.div update.workDone update.totalWork⟩

def Call.property : Call V D → Property
  | .updateMessage _ => .message
  | .updateTitle _ => .title
  | .updateValue _ => .value
  | .updateProgress _ _ => .progress

/-- The argument of `getAndSet`. -/
def Call.argument : (c : Call V D) → Option (Ref V D c.property)
  | .updateMessage message => message
  | .updateTitle title => title
  | .updateValue value => value
  | .updateProgress workDone max => some (progressUpdate d workDone max)

/-- What a runnable makes of the property when it takes `update` from the slot.
The runnable of the progress throws a `NullPointerException` when there is none. -/
def assign : (p : Property) → Option (Ref V D p) → Shown V D p → Shown V D p
  | .message, update, _ => update
  | .title, update, _ => update
  | .value, update, _ => update
  | .progress, some update, _ => setProgress d update
  | .progress, none, old => old

inductive Step (V D : Type) where
  | update (thread : Nat) (call : Call V D)
  | runLater (thread : Nat)
  | runnable

/-- `getAndSet` of a call; the thread that finds the slot empty has to call
`runLater`. -/
def update (thread : Nat) (call : Call V D) (s : Updates V D) : Updates V D :=
  { s with
    slot := Function.update s.slot call.property (call.argument d)
    calling := match s.slot call.property with
      | none => (thread, call.property) :: s.calling
      | some _ => s.calling }

def step : Step V D → Updates V D → Option (Updates V D)
  | .update thread call, s => if thread ∈ s.calling.map Prod.fst then none else some (update d thread call s)
  | .runLater thread, s => match s.calling.find? (fun c => c.1 == thread) with
      | none => none
      | some (_, p) => some { s with
          queue := s.queue ++ [p]
          calling := s.calling.eraseP (fun c => c.1 == thread) }
  | .runnable, s => match s.queue with
      | [] => none
      | p :: rest => some { s with
          slot := Function.update s.slot p none
          shown := Function.update s.shown p (assign d p (s.slot p) (s.shown p))
          queue := rest }

def new : Updates V D where
  slot _ := none
  shown p := match p with
    | .message => some ""
    | .title => some ""
    | .value => none
    | .progress => ⟨d.minusOne, d.minusOne, d.minusOne⟩
  queue := []
  calling := []

/-! ## Runnables that are still to come -/

def pending (p : Property) (s : Updates V D) : Nat := s.queue.count p + (s.calling.map Prod.snd).count p

def Quiescent (p : Property) (s : Updates V D) : Prop := p ∉ s.queue ∧ p ∉ s.calling.map Prod.snd

theorem quiescent_iff {p : Property} {s : Updates V D} : Quiescent p s ↔ pending p s = 0 := by
  rw [Quiescent, pending, ← List.count_eq_zero, ← List.count_eq_zero, Nat.add_eq_zero_iff]

theorem pending_pos {p : Property} {s : Updates V D} (h : p ∈ s.queue) : 0 < pending p s := by
  have := List.count_pos_iff.mpr h
  rw [pending]
  omega

theorem update_other (thread : Nat) {call : Call V D} {s : Updates V D} {p : Property} (h : p ≠ call.property) :
    (update d thread call s).slot p = s.slot p ∧ pending p (update d thread call s) = pending p s := by
  refine ⟨Function.update_of_ne h _ _, ?_⟩
  rw [pending, pending, update]
  dsimp only
  cases s.slot call.property with
  | some _ => rfl
  | none => rw [List.map_cons, List.count_cons_of_ne (Ne.symm h)]

theorem update_self (thread : Nat) (call : Call V D) (s : Updates V D) :
    (update d thread call s).slot call.property = call.argument d ∧
      (s.slot call.property = none → pending call.property (update d thread call s) = pending call.property s + 1) ∧
      (s.slot call.property ≠ none → pending call.property (update d thread call s) = pending call.property s) := by
  refine ⟨Function.update_self _ _ _, ?_, ?_⟩
  · intro hnone
    rw [pending, pending, update, hnone]
    dsimp only
    rw [List.map_cons, List.count_cons_self, Nat.add_assoc]
  · intro hsome
    obtain ⟨r, hr⟩ := Option.ne_none_iff_exists'.mp hsome
    rw [pending, pending, update, hr]

inductive Moves (s t : Updates V D) : Prop where
  | queued (slot : t.slot = s.slot) (shown : t.shown = s.shown) (pending : ∀ p, pending p t = pending p s)
      (queue : ∃ q, t.queue = s.queue ++ [q] ∧ 0 < Task.pending q s)
  | ran (q : Property) (slot : t.slot = Function.update s.slot q none)
      (shown : t.shown = Function.update s.shown q (assign d q (s.slot q) (s.shown q)))
      (pending : ∀ p, pending p s = Task.pending p t + if p = q then 1 else 0) (queue : s.queue = q :: t.queue)

theorem find_split {α : Type} {found : α → Bool} {xs : List α} {x : α} (h : xs.find? found = some x) :
    ∃ front back, xs = front ++ x :: back ∧ xs.eraseP found = front ++ back := by
  obtain ⟨y, front, back, hfront, hy, hsplit, herase⟩ :=
    List.exists_of_eraseP (List.mem_of_find?_eq_some h) (List.find?_some h)
  have hfirst : xs.find? found = some y := by
    rw [hsplit, List.find?_append, List.find?_eq_none.mpr hfront, Option.none_or, List.find?_cons_of_pos hy]
  have hxy : y = x := Option.some.inj (hfirst.symm.trans h)
  exact ⟨front, back, hxy ▸ hsplit, herase⟩

theorem runLater_moves {thread : Nat} {s t : Updates V D} (h : step d (.runLater thread) s = some t) : Moves d s t := by
  rw [step] at h
  cases hfind : s.calling.find? (fun c => c.1 == thread) with
  | none =>
    rw [hfind] at h
    cases h
  | some c =>
    rw [hfind] at h
    obtain ⟨thread', q⟩ := c
    cases h
    obtain ⟨front, back, hcalling, hrest⟩ := find_split hfind
    refine .queued rfl rfl ?_ ⟨q, rfl, ?_⟩
    · intro p
      rw [pending, pending]
      dsimp only
      rw [hrest, hcalling]
      simp only [List.map_append, List.map_cons, List.count_append, List.count_cons, List.count_nil]
      omega
    · rw [pending, hcalling, List.map_append, List.map_cons, List.count_append, List.count_cons_self]
      omega

theorem runnable_moves {s t : Updates V D} (h : step d .runnable s = some t) : Moves d s t := by
  rw [step] at h
  cases hqueue : s.queue with
  | nil =>
    rw [hqueue] at h
    cases h
  | cons q rest =>
    rw [hqueue] at h
    cases h
    refine .ran q rfl rfl ?_ hqueue
    intro p
    rw [pending, pending, hqueue, List.count_cons]
    dsimp only
    by_cases hpq : p = q
    · subst hpq
      simp only [beq_self_eq_true, if_true]
      omega
    · rw [if_neg (by simpa using Ne.symm hpq), if_neg hpq]
      omega

theorem update_called {thread : Nat} {call : Call V D} {s t : Updates V D} (h : step d (.update thread call) s = some t) :
    t = update d thread call s := by
  rw [step] at h
  by_cases hcalling : thread ∈ s.calling.map Prod.fst
  · rw [if_pos hcalling] at h
    cases h
  · rw [if_neg hcalling] at h
    exact (Option.some.inj h).symm

theorem step_cases {a : Step V D} {s t : Updates V D} (h : step d a s = some t) :
    (∃ thread call, a = .update thread call ∧ t = update d thread call s) ∨ Moves d s t := by
  cases a with
  | update thread call => exact Or.inl ⟨thread, call, rfl, update_called d h⟩
  | runLater thread => exact Or.inr (runLater_moves d h)
  | runnable => exact Or.inr (runnable_moves d h)

/-! ## Invariants -/

def Awaited (s : Updates V D) : Prop := ∀ p, s.slot p ≠ none → 0 < pending p s

/-- The slot of the progress is filled exactly as long as its one runnable is to come. -/
def Single (s : Updates V D) : Prop :=
  pending .progress s ≤ 1 ∧ (s.slot .progress ≠ none ↔ 0 < pending .progress s)

theorem awaited_step {a : Step V D} {s t : Updates V D} (hs : Awaited s) (h : step d a s = some t) : Awaited t := by
  intro p hp
  rcases step_cases d h with ⟨thread, call, rfl, rfl⟩ | hmoves
  · by_cases hpc : p = call.property
    · subst hpc
      obtain ⟨-, hnone, hsome⟩ := update_self d thread call s
      by_cases hslot : s.slot call.property = none
      · rw [hnone hslot]
        omega
      · rw [hsome hslot]
        exact hs _ hslot
    · obtain ⟨hslot, hpending⟩ := update_other d thread (s := s) hpc
      rw [hpending]
      rw [hslot] at hp
      exact hs p hp
  · cases hmoves with
    | queued slot shown pending queue =>
      rw [pending]
      rw [slot] at hp
      exact hs p hp
    | ran q slot shown pending queue =>
      rw [slot] at hp
      have hpq : p ≠ q := by
        intro heq
        subst heq
        exact hp (Function.update_self _ _ _)
      rw [Function.update_of_ne hpq] at hp
      have hcount := pending p
      rw [if_neg hpq] at hcount
      have := hs p hp
      omega

theorem single_step {a : Step V D} {s t : Updates V D} (hs : Single s) (h : step d a s = some t) : Single t := by
  obtain ⟨hone, hiff⟩ := hs
  rcases step_cases d h with ⟨thread, call, rfl, rfl⟩ | hmoves
  · by_cases hpc : Property.progress = call.property
    · obtain ⟨workDone, max, rfl⟩ : ∃ workDone max, call = .updateProgress workDone max := by
        cases call with
        | updateMessage message => cases hpc
        | updateTitle title => cases hpc
        | updateValue value => cases hpc
        | updateProgress workDone max => exact ⟨workDone, max, rfl⟩
      obtain ⟨hnew, hnone, hsome⟩ := update_self d thread (.updateProgress workDone max) s
      change (update d thread (.updateProgress workDone max) s).slot .progress = some (progressUpdate d workDone max) at hnew
      change s.slot .progress = none → pending .progress (update d thread (.updateProgress workDone max) s) =
        pending .progress s + 1 at hnone
      change s.slot .progress ≠ none → pending .progress (update d thread (.updateProgress workDone max) s) =
        pending .progress s at hsome
      have hfilled : (update d thread (.updateProgress workDone max) s).slot .progress ≠ none := by
        rw [hnew]
        exact Option.some_ne_none _
      by_cases hslot : s.slot .progress = none
      · have hzero : ¬ 0 < pending .progress s := fun hpos => hiff.mpr hpos hslot
        have hcount := hnone hslot
        exact ⟨by omega, iff_of_true hfilled (by omega)⟩
      · have hpos := hiff.mp hslot
        have hcount := hsome hslot
        exact ⟨by omega, iff_of_true hfilled (by omega)⟩
    · obtain ⟨hslot, hpending⟩ := update_other d thread (s := s) hpc
      rw [Single, hslot, hpending]
      exact ⟨hone, hiff⟩
  · cases hmoves with
    | queued slot shown pending queue =>
      rw [Single, slot, pending]
      exact ⟨hone, hiff⟩
    | ran q slot shown pending queue =>
      have hcount := pending .progress
      by_cases hpq : Property.progress = q
      · subst hpq
        rw [if_pos rfl] at hcount
        have hempty : t.slot .progress = none := by
          rw [slot]
          exact Function.update_self _ _ _
        exact ⟨by omega, iff_of_false (fun hne => hne hempty) (by omega)⟩
      · rw [if_neg hpq] at hcount
        rw [Single, slot, Function.update_of_ne hpq]
        exact ⟨by omega, by rw [hiff]; omega⟩

theorem awaited_new : Awaited (new d : Updates V D) := fun _ h => absurd rfl h

theorem single_new : Single (new d : Updates V D) :=
  ⟨Nat.zero_le 1, iff_of_false (fun h => h rfl) (Nat.lt_irrefl 0)⟩

/-! ## The last call -/

def Holds : (p : Property) → Option (Ref V D p) → Shown V D p → Prop
  | .message, argument, shown => shown = argument
  | .title, argument, shown => shown = argument
  | .value, argument, shown => shown = argument
  | .progress, argument, shown => ∃ update, argument = some update ∧ shown = setProgress d update

def Coalesces (call : Call V D) (s : Updates V D) : Prop :=
  call.argument d = none ∨ pending call.property s = 0 ∨
    pending call.property s = 1 ∧ s.slot call.property ≠ none

/-- What the runnables have done since the last call of the property: `n` of them
were to come, none has run, one has run, or more have. -/
inductive Since (p : Property) (argument : Option (Ref V D p)) (n : Nat) (s : Updates V D) : Prop where
  | waiting (slot : s.slot p = argument) (pending : pending p s = n)
  | taken (slot : s.slot p = none) (pending : pending p s + 1 = n)
      (shown : ∃ old, s.shown p = assign d p argument old)
  | emptied (slot : s.slot p = none) (pending : pending p s + 2 ≤ n)
      (shown : ∃ old, s.shown p = assign d p none old)

theorem since_step {p : Property} {argument : Option (Ref V D p)} {n : Nat} {a : Step V D} {s t : Updates V D}
    (other : ∀ thread call, a = .update thread call → p ≠ call.property) (hs : Since d p argument n s)
    (h : step d a s = some t) : Since d p argument n t := by
  rcases step_cases d h with ⟨thread, call, rfl, rfl⟩ | hmoves
  · obtain ⟨hslot, hpending⟩ := update_other d thread (s := s) (other thread call rfl)
    have hshown : (update d thread call s).shown = s.shown := rfl
    cases hs with
    | waiting slot pending => exact .waiting (hslot.trans slot) (hpending.trans pending)
    | taken slot pending shown => exact .taken (hslot.trans slot) (by rw [hpending, pending]) shown
    | emptied slot pending shown => exact .emptied (hslot.trans slot) (by rw [hpending]; exact pending) shown
  · cases hmoves with
    | queued slot shown pending queue =>
      cases hs with
      | waiting slot' pending' => exact .waiting (by rw [slot, slot']) (by rw [pending, pending'])
      | taken slot' pending' shown' => exact .taken (by rw [slot, slot']) (by rw [pending, pending']) (by rw [shown]; exact shown')
      | emptied slot' pending' shown' =>
        exact .emptied (by rw [slot, slot']) (by rw [pending]; exact pending') (by rw [shown]; exact shown')
    | ran q slot shown pending queue =>
      have hcount := pending p
      by_cases hpq : p = q
      · -- the runnable empties the slot
        subst hpq
        rw [if_pos rfl] at hcount
        have hempty : t.slot p = none := by
          rw [slot]
          exact Function.update_self _ _ _
        have hvalue : t.shown p = assign d p (s.slot p) (s.shown p) := by
          rw [shown]
          exact Function.update_self _ _ _
        cases hs with
        | waiting slot' pending' => exact .taken hempty (by omega) ⟨s.shown p, by rw [hvalue, slot']⟩
        | taken slot' pending' shown' => exact .emptied hempty (by omega) ⟨s.shown p, by rw [hvalue, slot']⟩
        | emptied slot' pending' shown' => exact .emptied hempty (by omega) ⟨s.shown p, by rw [hvalue, slot']⟩
      · rw [if_neg hpq] at hcount
        have hslot : t.slot p = s.slot p := by rw [slot, Function.update_of_ne hpq]
        have hvalue : t.shown p = s.shown p := by rw [shown, Function.update_of_ne hpq]
        cases hs with
        | waiting slot' pending' => exact .waiting (hslot.trans slot') (by omega)
        | taken slot' pending' shown' => exact .taken (hslot.trans slot') (by omega) (by rw [hvalue]; exact shown')
        | emptied slot' pending' shown' => exact .emptied (hslot.trans slot') (by omega) (by rw [hvalue]; exact shown')

theorem holds_assign (call : Call V D) (old : Shown V D call.property) :
    Holds d call.property (call.argument d) (assign d call.property (call.argument d) old) := by
  cases call with
  | updateMessage message => exact rfl
  | updateTitle title => exact rfl
  | updateValue value => exact rfl
  | updateProgress workDone max => exact ⟨_, rfl, rfl⟩

theorem holds_emptied (call : Call V D) (old : Shown V D call.property) (h : call.property ≠ .progress) :
    Holds d call.property (call.argument d) (assign d call.property none old) ↔ call.argument d = none := by
  cases call with
  | updateMessage message => exact eq_comm
  | updateTitle title => exact eq_comm
  | updateValue value => exact eq_comm
  | updateProgress workDone max => exact absurd rfl h

theorem coalesces_iff {call : Call V D} {s : Updates V D} {thread : Nat} (hs : Awaited s) :
    Coalesces d call s ↔ call.argument d = none ∨ pending call.property (update d thread call s) = 1 := by
  obtain ⟨-, hnone, hsome⟩ := update_self d thread call s
  rw [Coalesces]
  refine or_congr Iff.rfl ?_
  by_cases hslot : s.slot call.property = none
  · rw [hnone hslot]
    constructor
    · intro h
      rcases h with h | h
      · omega
      · exact absurd hslot h.2
    · intro h
      exact Or.inl (by omega)
  · have hpos := hs _ hslot
    rw [hsome hslot]
    constructor
    · intro h
      rcases h with h | h
      · omega
      · exact h.1
    · intro h
      exact Or.inr ⟨h, hslot⟩

theorem coalesces_progress {call : Call V D} {s : Updates V D} (hs : Single s) (h : call.property = .progress) :
    Coalesces d call s := by
  obtain ⟨hone, hiff⟩ := hs
  cases call with
  | updateMessage message => cases h
  | updateTitle title => cases h
  | updateValue value => cases h
  | updateProgress workDone max =>
    by_cases hzero : pending .progress s = 0
    · exact Or.inr (Or.inl hzero)
    · exact Or.inr (Or.inr ⟨show pending .progress s = 1 by omega, hiff.mpr (by omega)⟩)

def Spares (p : Property) : Step V D → Prop
  | .update _ call => p ≠ call.property
  | .runLater _ => True
  | .runnable => True

/-- `call` is the last call of its property in the schedule.  When nothing of the
property is queued or in progress any more, the property has the value of the call
exactly when the call coalesced with the calls before it; a call of
`updateProgress` always does, and no runnable of the progress finds an empty slot. -/
theorem last_update_iff {as bs : List (Step V D)} {thread : Nat} {call : Call V D} {s s' t : Updates V D}
    (before : execute (step d) as (new d) = some s) (called : step d (.update thread call) s = some s')
    (after : execute (step d) bs s' = some t) (last : ∀ a ∈ bs, Spares call.property a) :
    (Quiescent call.property t →
        (Holds d call.property (call.argument d) (t.shown call.property) ↔ Coalesces d call s)) ∧
      (call.property = .progress → Coalesces d call s) ∧
      (.progress ∈ t.queue → t.slot .progress ≠ none) := by
  have hinv : ∀ (cs : List (Step V D)) (u v : Updates V D), Awaited u ∧ Single u → execute (step d) cs u = some v →
      Awaited v ∧ Single v := by
    intro cs u v hu hrun
    refine @execute_preserves _ _ (step d) cs u v (fun u => Awaited u ∧ Single u) (fun _ => True) ?_ (fun _ _ => trivial) hu hrun
    intro a u v _ hu hstep
    exact ⟨awaited_step d hu.1 hstep, single_step d hu.2 hstep⟩
  obtain ⟨hawaited, hsingle⟩ := hinv as (new d) s ⟨awaited_new d, single_new d⟩ before
  have hs' : s' = update d thread call s := update_called d called
  obtain ⟨-, hend⟩ := hinv bs s' t ⟨awaited_step d hawaited called, single_step d hsingle called⟩ after
  refine ⟨?_, coalesces_progress d hsingle, ?_⟩
  · intro hquiet
    have hzero := quiescent_iff.mp hquiet
    have hsince : Since d call.property (call.argument d) (pending call.property s') t := by
      have hstart : Since d call.property (call.argument d) (pending call.property s') s' :=
        .waiting (by rw [hs']; exact (update_self d thread call s).1) rfl
      refine @execute_preserves _ _ (step d) bs s' t (Since d call.property (call.argument d) (pending call.property s'))
        (Spares call.property) ?_ last hstart after
      intro a u v hspares hu hstep
      refine since_step d ?_ hu hstep
      intro thread' call' heq
      subst heq
      exact hspares
    have hpos : 0 < pending call.property s' := by
      obtain ⟨-, hnone, hsome⟩ := update_self d thread call s
      rw [hs']
      by_cases hslot : s.slot call.property = none
      · rw [hnone hslot]
        omega
      · rw [hsome hslot]
        exact hawaited _ hslot
    have hfits := @coalesces_iff V D d call s thread hawaited
    rw [← hs'] at hfits
    cases hsince with
    | waiting slot pending => omega
    | taken slot pending shown =>
        obtain ⟨old, hold⟩ := shown
        rw [hold]
        exact iff_of_true (holds_assign d call old) (hfits.mpr (Or.inr (by omega)))
    | emptied slot pending shown =>
        obtain ⟨old, hold⟩ := shown
        have hprogress : call.property ≠ .progress := by
          intro heq
          have hone := (hfits.mp (coalesces_progress d hsingle heq))
          rcases hone with hnull | hone
          · cases call with
            | updateMessage message => cases heq
            | updateTitle title => cases heq
            | updateValue value => cases heq
            | updateProgress workDone max => cases hnull
          · omega
        rw [hold, holds_emptied d call old hprogress, hfits]
        constructor
        · intro hnull
          exact Or.inl hnull
        · intro h
          rcases h with hnull | hone
          · exact hnull
          · omega
  · intro hqueued
    exact hend.2.mpr (pending_pos hqueued)

/-- Integers in place of the numbers. -/
def integers : Doubles Int := ⟨0, -1, fun _ => false, fun _ => false, (· < ·), (· == ·), (· / ·)⟩

/-- Two threads set the message before the runnable of the first one is queued: one runnable
does for both. -/
theorem last_update_iff_message :
    ∃ s s' t : Updates Unit Int,
      execute (step integers) [.update 0 (.updateMessage (some "a"))] (new integers) = some s ∧
      step integers (.update 1 (.updateMessage (some "b"))) s = some s' ∧
      execute (step integers) [.runLater 0, .runnable] s' = some t ∧ Quiescent .message t ∧
      (t.shown .message = some "b" ↔ Coalesces integers (.updateMessage (some "b")) s) := by
  refine ⟨_, _, _, rfl, rfl, rfl, ⟨List.not_mem_nil, List.not_mem_nil⟩, ?_⟩
  refine (@last_update_iff Unit Int integers [.update 0 (.updateMessage (some "a"))] [.runLater 0, .runnable] 1
    (.updateMessage (some "b")) _ _ _ rfl rfl rfl ?_).1 ⟨List.not_mem_nil, List.not_mem_nil⟩
  intro a ha
  rcases List.mem_pair.mp ha with rfl | rfl
  · trivial
  · trivial

/-- `updateMessage(null)` and then `updateMessage("a")`: the null leaves the slot
empty, so that both calls queue a runnable, and the second one sets the message to
null. -/
theorem null_update_overwrites :
    ∃ t : Updates Unit Int,
      execute (step integers) [.update 0 (.updateMessage none), .runLater 0, .update 0 (.updateMessage (some "a")),
        .runLater 0, .runnable, .runnable] (new integers) = some t ∧
      Quiescent .message t ∧ t.shown .message = none ∧ ¬ Holds integers .message (some "a") (t.shown .message) := by
  refine ⟨_, rfl, ⟨?_, ?_⟩, rfl, ?_⟩
  · exact List.not_mem_nil
  · exact List.not_mem_nil
  · intro h
    cases h

end Task
end OpenJfx.Concurrent
