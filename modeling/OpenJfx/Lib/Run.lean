import Mathlib.Init

/-! # Runs of a machine

`exec` makes a list of steps, `Guarded` says that a condition on the step and on
the state before it holds at every step of the run.  In a schedule the steps are those of
several parties, and a party may be unable to take its step: what holds after every schedule
holds for every interleaving of the parties. -/
set_option autoImplicit false
namespace OpenJfx.Lib

section Run
variable {α σ : Type}

def exec (step : α → σ → σ) : List α → σ → σ
  | [], s => s
  | a :: rest, s => exec step rest (step a s)

def Guarded (guard : α → σ → Prop) (step : α → σ → σ) : List α → σ → Prop
  | [], _ => True
  | a :: rest, s => guard a s ∧ Guarded guard step rest (step a s)

instance decidableGuarded (guard : α → σ → Prop) [∀ a s, Decidable (guard a s)] (step : α → σ → σ) :
    ∀ (as : List α) (s : σ), Decidable (Guarded guard step as s)
  | [], _ => isTrue trivial
  | a :: rest, s =>
      have := decidableGuarded guard step rest (step a s)
      inferInstanceAs (Decidable (guard a s ∧ Guarded guard step rest (step a s)))

theorem exec_append (step : α → σ → σ) (as bs : List α) (s : σ) :
    exec step (as ++ bs) s = exec step bs (exec step as s) := by
  induction as generalizing s with
  | nil => rfl
  | cons a rest ih => exact ih (step a s)

theorem exec_invariant {inv : σ → Prop} {guard : α → σ → Prop} {step : α → σ → σ}
    (preserved : ∀ a s, inv s → guard a s → inv (step a s)) {as : List α} {s : σ} (hs : inv s)
    (guarded : Guarded guard step as s) : inv (exec step as s) := by
  induction as generalizing s with
  | nil => exact hs
  | cons a rest ih => exact ih (preserved a s hs guarded.1) guarded.2

theorem guarded_and {guard guard' : α → σ → Prop} {step : α → σ → σ} {as : List α} {s : σ} :
    Guarded (fun a s => guard a s ∧ guard' a s) step as s ↔ Guarded guard step as s ∧ Guarded guard' step as s := by
  induction as generalizing s with
  | nil => exact (and_self_iff).symm
  | cons a rest ih =>
    change (_ ∧ _) ∧ Guarded _ _ _ _ ↔ (_ ∧ _) ∧ _ ∧ _
    rw [ih, and_and_and_comm]

/-- Guards that agree under the invariant hold of the same runs. -/
theorem guarded_iff_of_invariant (inv : σ → Prop) {guard guard' : α → σ → Prop} {step : α → σ → σ} {as : List α}
    {s : σ} (preserved : ∀ a s, inv s → guard a s → inv (step a s))
    (agree : ∀ a s, inv s → (guard a s ↔ guard' a s)) (hs : inv s) :
    Guarded guard step as s ↔ Guarded guard' step as s := by
  induction as generalizing s with
  | nil => exact Iff.rfl
  | cons a rest ih =>
    constructor
    · rintro ⟨hguard, hrest⟩
      exact ⟨(agree a s hs).mp hguard, (ih (preserved a s hs hguard)).mp hrest⟩
    · rintro ⟨hguard', hrest⟩
      have hguard := (agree a s hs).mpr hguard'
      exact ⟨hguard, (ih (preserved a s hs hguard)).mpr hrest⟩

end Run

/-! ## Schedules -/

section Schedule
variable {α σ : Type}

def execute (step : α → σ → Option σ) : List α → σ → Option σ
  | [], s => some s
  | a :: as, s => (step a s).bind (execute step as)

/-- `guard` holds at every step of a schedule. -/
def Abides (guard : α → σ → Prop) (step : α → σ → Option σ) : List α → σ → Prop
  | [], _ => True
  | a :: as, s => guard a s ∧ ∀ t, step a s = some t → Abides guard step as t

instance decidableAbides (guard : α → σ → Prop) [∀ a s, Decidable (guard a s)] (step : α → σ → Option σ) :
    ∀ (as : List α) (s : σ), Decidable (Abides guard step as s)
  | [], _ => isTrue trivial
  | a :: as, s =>
      have := decidableAbides guard step as
      inferInstanceAs (Decidable (guard a s ∧ ∀ t ∈ step a s, Abides guard step as t))

variable {step : α → σ → Option σ} {guard : α → σ → Prop} {as bs : List α} {a : α} {s t : σ}

theorem execute_cons : execute step (a :: as) s = some t ↔ ∃ u, step a s = some u ∧ execute step as u = some t :=
  Option.bind_eq_some_iff

theorem execute_append : execute step (as ++ bs) s = (execute step as s).bind (execute step bs) := by
  induction as generalizing s with
  | nil => rfl
  | cons a as ih =>
    rw [List.cons_append, execute, execute, Option.bind_assoc]
    exact congrArg (step a s).bind (funext fun t => ih)

theorem Abides.of_append (h : Abides guard step (as ++ bs) s) : Abides guard step as s := by
  induction as generalizing s with
  | nil => trivial
  | cons a as ih => exact ⟨h.1, fun t ht => ih (h.2 t ht)⟩

theorem Abides.after_append (h : Abides guard step (as ++ bs) s) (hrun : execute step as s = some t) :
    Abides guard step bs t := by
  induction as generalizing s with
  | nil =>
    cases hrun
    exact h
  | cons a as ih =>
    obtain ⟨u, hstep, hrest⟩ := execute_cons.mp hrun
    exact ih (h.2 u hstep) hrest

theorem execute_invariant {inv : σ → Prop} (preserved : ∀ a s t, inv s → guard a s → step a s = some t → inv t)
    (hs : inv s) (habides : Abides guard step as s) (hrun : execute step as s = some t) : inv t := by
  induction as generalizing s with
  | nil =>
    cases hrun
    exact hs
  | cons a as ih =>
    obtain ⟨u, hstep, hrest⟩ := execute_cons.mp hrun
    exact ih (preserved a s u hs habides.1 hstep) (habides.2 u hstep) hrest

theorem abides_iff_of_invariant (inv : σ → Prop) {allowed : α → Prop} {guard' : α → σ → Prop}
    (preserved : ∀ a s t, allowed a → inv s → guard a s → step a s = some t → inv t)
    (agree : ∀ a s, allowed a → inv s → (guard a s ↔ guard' a s)) (hall : ∀ a ∈ as, allowed a) (hs : inv s) :
    Abides guard step as s ↔ Abides guard' step as s := by
  induction as generalizing s with
  | nil => exact Iff.rfl
  | cons a as ih =>
    have ha := hall a List.mem_cons_self
    have hagree := agree a s ha hs
    have hrest : guard a s → ∀ t, step a s = some t → (Abides guard step as t ↔ Abides guard' step as t) :=
      fun hguard t hstep => ih (fun b hb => hall b (List.mem_cons_of_mem a hb)) (preserved a s t ha hs hguard hstep)
    constructor
    · rintro ⟨hguard, htail⟩
      exact ⟨hagree.mp hguard, fun t hstep => (hrest hguard t hstep).mp (htail t hstep)⟩
    · rintro ⟨hguard', htail⟩
      have hguard := hagree.mpr hguard'
      exact ⟨hguard, fun t hstep => (hrest hguard t hstep).mpr (htail t hstep)⟩

/-- The invariant rule for steps that need no guard; `allowed` restricts the steps
of the schedule. -/
theorem execute_preserves {inv : σ → Prop} {allowed : α → Prop}
    (preserved : ∀ a s t, allowed a → inv s → step a s = some t → inv t) (hall : ∀ a ∈ as, allowed a) (hs : inv s)
    (hrun : execute step as s = some t) : inv t := by
  induction as generalizing s with
  | nil =>
    cases hrun
    exact hs
  | cons a as ih =>
    obtain ⟨u, hstep, hrest⟩ := execute_cons.mp hrun
    exact ih (fun b hb => hall b (List.mem_cons_of_mem _ hb))
      (preserved a s u (hall a (List.mem_cons_self ..)) hs hstep) hrest

end Schedule

end OpenJfx.Lib
