import Mathlib.Init

/-! # Calls that may throw after a partial effect

An exception in an imperative program does not roll back the stores made before
it.  An `Outcome` therefore carries the state in both cases: `done` after a
normal return, `thrown` with the state in which the exception left the object.
`run` executes a list of calls and stops at the first exception; `Along` says
that a guard holds in front of every call of the run. -/
set_option autoImplicit false
namespace OpenJfx.Lib

inductive Outcome (ε σ : Type) where
  | done (state : σ)
  | thrown (error : ε) (state : σ)
deriving DecidableEq, Repr

namespace Outcome
variable {ε σ τ α : Type}

def state : Outcome ε σ → σ
  | .done s => s
  | .thrown _ s => s

def bind (o : Outcome ε σ) (next : σ → Outcome ε σ) : Outcome ε σ :=
  match o with
  | .done s => next s
  | .thrown x s => .thrown x s

def map (g : σ → τ) : Outcome ε σ → Outcome ε τ
  | .done s => .done (g s)
  | .thrown x s => .thrown x (g s)

/-- A computation on local data only: when it throws, the object is still in
the state `s` it had before. -/
def ofExcept (s : σ) (g : α → σ) : Except ε α → Outcome ε σ
  | .ok a => .done (g a)
  | .error x => .thrown x s

@[simp] theorem bind_done (s : σ) (next : σ → Outcome ε σ) : (done s).bind next = next s := rfl

@[simp] theorem bind_thrown (x : ε) (s : σ) (next : σ → Outcome ε σ) :
    (thrown x s).bind next = thrown x s := rfl

@[simp] theorem map_done (g : σ → τ) (s : σ) : (done s : Outcome ε σ).map g = done (g s) := rfl

@[simp] theorem map_thrown (g : σ → τ) (x : ε) (s : σ) :
    (thrown x s).map g = thrown x (g s) := rfl

@[simp] theorem state_done (s : σ) : (done s : Outcome ε σ).state = s := rfl

@[simp] theorem ofExcept_ok (s : σ) (g : α → σ) (a : α) :
    (ofExcept s g (.ok a : Except ε α)) = .done (g a) := rfl

@[simp] theorem bind_pure (o : Outcome ε σ) : o.bind done = o := by
  cases o with
  | done s => rfl
  | thrown x s => rfl

theorem bind_assoc (o : Outcome ε σ) (f g : σ → Outcome ε σ) : (o.bind f).bind g = o.bind fun s => (f s).bind g := by
  cases o with
  | done s => rfl
  | thrown x s => rfl

theorem bind_eq_done {o : Outcome ε σ} {next : σ → Outcome ε σ} {t : σ}
    (h : o.bind next = done t) : ∃ s, o = done s ∧ next s = done t := by
  cases o with
  | done s => exact ⟨s, rfl, h⟩
  | thrown x s => cases h

theorem map_eq_done {o : Outcome ε σ} {g : σ → τ} {t : τ}
    (h : o.map g = done t) : ∃ s, o = done s ∧ g s = t := by
  cases o with
  | done s => exact ⟨s, rfl, by simpa using h⟩
  | thrown x s => cases h

def run (step : α → σ → Outcome ε σ) : List α → σ → Outcome ε σ
  | [], s => .done s
  | a :: rest, s => (step a s).bind (run step rest)

/-- `guard` holds in front of every call of the run that starts in `s`. -/
def Along (guard : α → σ → Prop) (step : α → σ → Outcome ε σ) : List α → σ → Prop
  | [], _ => True
  | a :: rest, s => guard a s ∧ ∀ t, step a s = .done t → Along guard step rest t

instance decidableAlong (guard : α → σ → Prop) [∀ a s, Decidable (guard a s)]
    (step : α → σ → Outcome ε σ) : ∀ (as : List α) (s : σ), Decidable (Along guard step as s)
  | [], _ => isTrue trivial
  | a :: rest, s =>
      match h : step a s with
      | .done t =>
          have := decidableAlong guard step rest t
          decidable_of_iff (guard a s ∧ Along guard step rest t) (by
            simp only [Along, h, done.injEq]
            constructor
            · rintro ⟨hg, hrest⟩
              exact ⟨hg, fun u hu => hu ▸ hrest⟩
            · rintro ⟨hg, hrest⟩
              exact ⟨hg, hrest t rfl⟩)
      | .thrown _ _ => decidable_of_iff (guard a s) (by simp [Along, h])

@[simp] theorem run_nil (step : α → σ → Outcome ε σ) (s : σ) : run step [] s = .done s := rfl

@[simp] theorem run_cons (step : α → σ → Outcome ε σ) (a : α) (rest : List α) (s : σ) :
    run step (a :: rest) s = (step a s).bind (run step rest) := rfl

theorem run_append (step : α → σ → Outcome ε σ) (as bs : List α) (s : σ) :
    run step (as ++ bs) s = (run step as s).bind (run step bs) := by
  induction as generalizing s with
  | nil => rfl
  | cons a rest ih =>
    simp only [List.cons_append, run_cons]
    cases step a s with
    | done t => simpa using ih t
    | thrown x t => rfl

theorem run_map {β : Type} (step : α → σ → Outcome ε σ) (f : β → α) (bs : List β) (s : σ) :
    run step (bs.map f) s = run (fun b => step (f b)) bs s := by
  induction bs generalizing s with
  | nil => rfl
  | cons b rest ih =>
    rw [List.map_cons, run_cons, run_cons]
    exact congrArg (Outcome.bind _) (funext ih)

theorem run_skip {step : α → σ → Outcome ε σ} {as : List α} {s : σ} (h : ∀ a ∈ as, step a s = .done s) :
    run step as s = .done s := by
  induction as with
  | nil => rfl
  | cons a rest ih =>
    rw [run_cons, h a (by simp), bind_done]
    exact ih fun b hb => h b (by simp [hb])

/-- The invariant rule for runs that must not throw: a guarded step from an
invariant state returns normally to an invariant state. -/
theorem run_total (inv : σ → Prop) (guard : α → σ → Prop) (step : α → σ → Outcome ε σ)
    (preserved : ∀ a s, inv s → guard a s → ∃ t, step a s = .done t ∧ inv t) :
    ∀ (as : List α) (s : σ), inv s → Along guard step as s →
      ∃ t, run step as s = .done t ∧ inv t := by
  intro as
  induction as with
  | nil => intro s hs _; exact ⟨s, rfl, hs⟩
  | cons a rest ih =>
    intro s hs along
    obtain ⟨t, hstep, ht⟩ := preserved a s hs along.1
    obtain ⟨u, hrun, hu⟩ := ih t ht (along.2 t hstep)
    exact ⟨u, by simp [hstep, hrun], hu⟩

/-- The invariant rule for partial correctness: whenever the run returns
normally, its final state is invariant. -/
theorem run_partial (inv : σ → Prop) (guard : α → σ → Prop) (step : α → σ → Outcome ε σ)
    (preserved : ∀ a s t, inv s → guard a s → step a s = .done t → inv t) :
    ∀ (as : List α) (s t : σ), inv s → Along guard step as s →
      run step as s = .done t → inv t := by
  intro as
  induction as with
  | nil =>
    intro s t hs _ h
    cases h
    exact hs
  | cons a rest ih =>
    intro s t hs along h
    obtain ⟨u, hstep, hrun⟩ := bind_eq_done h
    exact ih u t (preserved a s u hs along.1 hstep) (along.2 u hstep) hrun

theorem Along.of_append {guard : α → σ → Prop} {step : α → σ → Outcome ε σ} {as bs : List α} {s : σ}
    (h : Along guard step (as ++ bs) s) : Along guard step as s := by
  induction as generalizing s with
  | nil => trivial
  | cons a rest ih => exact ⟨h.1, fun t ht => ih (h.2 t ht)⟩

theorem Along.and {guard guard' : α → σ → Prop} {step : α → σ → Outcome ε σ} {as : List α} {s : σ}
    (h : Along guard step as s) (h' : ∀ a ∈ as, ∀ s, guard' a s) : Along (fun a s => guard a s ∧ guard' a s) step as s := by
  induction as generalizing s with
  | nil => trivial
  | cons a rest ih =>
    exact ⟨⟨h.1, h' a (by simp) s⟩, fun t ht => ih (h.2 t ht) fun b hb => h' b (by simp [hb])⟩

/-! ## Postconditions -/

/-- The postcondition `post` of a call.  With `mayThrow` an exception is left
out of account, without it there must be none. -/
def Ends (mayThrow : Prop) (post : σ → Prop) : Outcome ε σ → Prop
  | .done s => post s
  | .thrown _ _ => mayThrow

section Ends
variable {mayThrow : Prop} {post : σ → Prop} {o : Outcome ε σ}

@[simp] theorem ends_done {s : σ} : Ends mayThrow post (done s : Outcome ε σ) ↔ post s := Iff.rfl

@[simp] theorem ends_thrown {x : ε} {s : σ} : Ends mayThrow post (thrown x s) ↔ mayThrow := Iff.rfl

theorem Ends.mono {post' : σ → Prop} (h : Ends mayThrow post o) (imp : ∀ s, post s → post' s) :
    Ends mayThrow post' o := by
  cases o with
  | done s => exact imp s h
  | thrown x s => exact h

theorem Ends.bind {next : σ → Outcome ε σ} (h : Ends mayThrow (fun s => Ends mayThrow post (next s)) o) :
    Ends mayThrow post (o.bind next) := by
  cases o with
  | done s => exact h
  | thrown x s => exact h

theorem Ends.map {g : σ → τ} {post' : τ → Prop} (h : Ends mayThrow (fun s => post' (g s)) o) :
    Ends mayThrow post' (o.map g) := by
  cases o with
  | done s => exact h
  | thrown x s => exact h

theorem ends_true : Ends True post o ↔ ∀ s, o = .done s → post s := by
  cases o with
  | done s => simp [Ends]
  | thrown x s => simp [Ends]

theorem ends_false : Ends False post o ↔ ∃ s, o = .done s ∧ post s := by
  cases o with
  | done s => simp [Ends]
  | thrown x s => simp [Ends]

theorem Ends.run {inv : σ → Prop} {step : α → σ → Outcome ε σ} {as : List α}
    (preserved : ∀ a ∈ as, ∀ s, inv s → Ends mayThrow inv (step a s)) {s : σ} (hs : inv s) :
    Ends mayThrow inv (run step as s) := by
  induction as generalizing s with
  | nil => exact hs
  | cons a rest ih =>
    apply Ends.bind
    apply (preserved a (by simp) s hs).mono
    intro t ht
    exact ih (fun b hb => preserved b (by simp [hb])) ht

end Ends

end Outcome
end OpenJfx.Lib
