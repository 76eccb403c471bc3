import OpenJfx.Glass.LookaheadTouchFilter

/-! # `TouchInput` and `TouchInputSupport`

What the views are told of the touch states that are set.  The runnables that are posted run
in their order. -/
set_option autoImplicit false
namespace OpenJfx.Glass
open OpenJfx.Lib

/-- The windows when a state is set. -/
structure Screen (W V : Type) where
  getWindowForLocation : Int → Int → Option W
  getView : W → Option V
  getX : W → Int
  getY : W → Int

inductive TouchEvent where
  | pressed
  | moved
  | released
  | still
deriving DecidableEq, Repr

namespace TouchState
variable {W : Type}

def assignPrimaryID (s : TouchState W) : TouchState W :=
  match s.points with
  | [] => { s with primaryID := -1 }
  | first :: _ =>
    if s.primaryID ≤ 0 then { s with primaryID := first.id }
    else if s.points.any fun p => p.id = s.primaryID then s
    else { s with primaryID := first.id }

/-- The state with the window that `getWindow` caches and returns. -/
def getWindow (location : Int → Int → Option W) (recalculateCache : Bool) (fallback : Option W) (s : TouchState W) :
    TouchState W :=
  if recalculateCache then
    if s.primaryID ≥ 0 then
      match getPointForID s.primaryID s.points with
      | some p => { s with window := location p.x p.y }
      | none => { s with window := fallback }
    else { s with window := fallback }
  else { s with window := s.window.or fallback }

def equalsSorted [DecidableEq W] (ts s : TouchState W) : Bool :=
  ts.points.length = s.points.length && ts.primaryID = s.primaryID && ts.window = s.window && ts.points = s.points

end TouchState

/-! ## The events of a change -/

def countEvents (state newState : List Point) : Nat :=
  newState.foldl (fun count p => if (getPointForID p.id state).isNone then count + 1 else count) state.length

/-- The event for a point of the old state. -/
def update (newState : List Point) (oldPoint : Point) : TouchEvent × Point :=
  match getPointForID oldPoint.id newState with
  | some newPoint => (if newPoint.x = oldPoint.x ∧ newPoint.y = oldPoint.y then .still else .moved, newPoint)
  | none => (.released, oldPoint)

def newPoints (state newState : List Point) : List Point := newState.filter fun p => (getPointForID p.id state).isNone

def allEvents (state newState : List Point) : List (TouchEvent × Point) :=
  state.map (update newState) ++ (newPoints state newState).map (TouchEvent.pressed, ·)

/-- The events that are posted; a single one is not put into arrays. -/
def changeEvents (state newState : List Point) : List (TouchEvent × Point) :=
  match countEvents state newState with
  | 0 => []
  | 1 =>
    match state with
    | [oldPoint] => [update newState oldPoint]
    | _ => newState.head?.toList.map (TouchEvent.pressed, ·)
  | _ => allEvents state newState

theorem allEvents_released (state : List Point) : allEvents state [] = state.map (TouchEvent.released, ·) := List.append_nil _

theorem allEvents_pressed (newState : List Point) : allEvents [] newState = newState.map (TouchEvent.pressed, ·) := by
  have hall : newPoints [] newState = newState := List.filter_eq_self.mpr fun _ _ => rfl
  rw [allEvents, hall]
  rfl

theorem countEvents_eq (state newState : List Point) : countEvents state newState = (allEvents state newState).length := by
  have hloop : ∀ (ps : List Point) (count : Nat),
      ps.foldl (fun count p => if (getPointForID p.id state).isNone then count + 1 else count) count =
        count + (newPoints state ps).length := by
    intro ps
    induction ps with
    | nil => simp [newPoints]
    | cons p ps ih =>
      intro count
      rw [List.foldl_cons, ih]
      by_cases hp : (getPointForID p.id state).isNone
      · simp [newPoints, hp]
        omega
      · simp [newPoints, hp]
  rw [countEvents, hloop]
  simp [allEvents]

theorem changeEvents_eq (state newState : List Point) : changeEvents state newState = allEvents state newState := by
  have hcount := countEvents_eq state newState
  unfold changeEvents
  split
  · rename_i hzero
    exact (List.length_eq_zero_iff.mp (hcount.symm.trans hzero)).symm
  · rename_i hone
    rw [hone] at hcount
    cases state with
    | nil =>
      rw [allEvents_pressed] at hcount ⊢
      obtain ⟨p, rfl⟩ := List.length_eq_one_iff.mp (by simpa using hcount.symm)
      rfl
    | cons oldPoint rest =>
      have hrest : rest = [] ∧ newPoints (oldPoint :: rest) newState = [] := by
        simp only [allEvents, List.length_append, List.length_map, List.length_cons] at hcount
        exact ⟨List.length_eq_zero_iff.mp (by omega), List.length_eq_zero_iff.mp (by omega)⟩
      obtain ⟨rfl, hnone⟩ := hrest
      rw [allEvents, hnone]
      rfl
  · rfl

/-! ## The calls of the views -/

structure Post (W V : Type) where
  window : W
  view : V
  events : List (TouchEvent × Point)

inductive ViewCall (V : Type) where
  | notifyBeginTouchEvent (view : V) (touchEventCount : Nat)
  | notifyNextTouchEvent (view : V) (state : TouchEvent) (id x y xAbs yAbs : Int)
  | notifyEndTouchEvent (view : V)
  | touchCountChanged (view : Option V)

/-- `TouchInputSupport` that does not filter coordinates. -/
structure TouchInputSupport (V : Type) where
  touchCount : Int
  curTouchCount : Int
  curView : Option V

namespace TouchInputSupport
variable {W V : Type}

def notifyBeginTouchEvent (view : V) (t : TouchInputSupport V) : TouchInputSupport V :=
  { t with curTouchCount := t.touchCount, curView := some view }

def notifyNextTouchEvent (state : TouchEvent) (t : TouchInputSupport V) : TouchInputSupport V :=
  match state with
  | .released => { t with touchCount := t.touchCount - 1 }
  | .pressed => { t with touchCount := t.touchCount + 1 }
  | _ => t

def notifyEndTouchEvent (view : V) (t : TouchInputSupport V) : List (ViewCall V) :=
  .notifyEndTouchEvent view ::
    if t.curTouchCount ≠ 0 ∧ t.touchCount ≠ 0 ∧ t.curTouchCount ≠ t.touchCount then [.touchCountChanged t.curView] else []

def run (screen : Screen W V) (post : Post W V) (t : TouchInputSupport V) : TouchInputSupport V × List (ViewCall V) :=
  let t := post.events.foldl (fun t e => t.notifyNextTouchEvent e.1) (t.notifyBeginTouchEvent post.view)
  (t, .notifyBeginTouchEvent post.view post.events.length ::
    (post.events.map fun e => .notifyNextTouchEvent post.view e.1 e.2.id (wrapInt (e.2.x - screen.getX post.window))
      (wrapInt (e.2.y - screen.getY post.window)) e.2.x e.2.y) ++ t.notifyEndTouchEvent post.view)

end TouchInputSupport

/-- `calls` are those made so far. -/
structure TouchInput (W V : Type) where
  state : TouchState W
  touches : TouchInputSupport V
  calls : List (ViewCall V)

namespace TouchInput
variable {W V : Type} [DecidableEq W] [DecidableEq V]

def new : TouchInput W V := ⟨⟨[], -1, none⟩, ⟨0, 0, none⟩, []⟩

/-- Nothing is posted without a view. -/
def post (screen : Screen W V) (window : Option W) (events : List (TouchEvent × Point)) : List (Post W V) :=
  (window.bind fun w => (screen.getView w).map fun view => ⟨w, view, events⟩).toList

/-- `postTouchEvent` of one event for all points. -/
def postAll (screen : Screen W V) (state : TouchState W) (eventType : TouchEvent) : List (Post W V) :=
  post screen state.window (state.points.map (eventType, ·))

/-- `postTouchEvent` inside of a view. -/
def postChange (screen : Screen W V) (state newState : TouchState W) : List (Post W V) :=
  post screen newState.window (changeEvents state.points newState.points)

/-- What `setState` posts for a state that is sorted and has its window. -/
def posts (screen : Screen W V) (state newState : TouchState W) : List (Post W V) :=
  if newState.equalsSorted state then []
  else if newState.window.bind screen.getView ≠ state.window.bind screen.getView then
    postAll screen state .released ++ postAll screen newState .pressed
  else postChange screen state newState

def deliver (screen : Screen W V) (s : TouchInput W V) (post : Post W V) : TouchInput W V :=
  let ran := s.touches.run screen post
  { s with touches := ran.1, calls := s.calls ++ ran.2 }

def setState (unspecified : List Point → Option (List Point)) (call : Screen W V × TouchState W) (s : TouchInput W V) :
    Option (TouchInput W V) :=
  (call.2.sortPointsByID unspecified).map fun sorted =>
    let newState := sorted.assignPrimaryID.getWindow call.1.getWindowForLocation (s.state.points.length == 0) s.state.window
    { (posts call.1 s.state newState).foldl (deliver call.1) s with state := newState }

end TouchInput

/-! ## What the views know -/

/-- The places of the points that are down, by their ids. -/
abbrev Known := Int → Option (Int × Int)

/-- The event fits to what is known of its point. -/
def TouchEvent.fits (p : Point) (known : Option (Int × Int)) : TouchEvent → Bool
  | .pressed => known = none
  | .moved => known ≠ none && known ≠ some (p.x, p.y)
  | .still => known = some (p.x, p.y)
  | .released => known = some (p.x, p.y)

def TouchEvent.leaves (p : Point) (e : TouchEvent) : Option (Int × Int) :=
  if e = .released then none else some (p.x, p.y)

/-- A view that follows the events; one that does not fit is not understood. -/
def see (known : Known) (e : TouchEvent × Point) : Option Known :=
  if e.1.fits e.2 (known e.2.id) then some (Function.update known e.2.id (e.1.leaves e.2)) else none

def watch {V : Type} [DecidableEq V] (known : V → Known) : ViewCall V → Option (V → Known)
  | .notifyNextTouchEvent view state id _ _ xAbs yAbs =>
    (see (known view) (state, ⟨id, xAbs, yAbs⟩)).map (Function.update known view)
  | _ => some known

/-- Exactly the points are known. -/
structure Shows (known : Known) (points : List Point) : Prop where
  down : ∀ p ∈ points, known p.id = some (p.x, p.y)
  up : ∀ id, (∀ p ∈ points, p.id ≠ id) → known id = none

structure Identified (points : List Point) : Prop where
  nodup : (points.map Point.id).Nodup
  int : ∀ p ∈ points, 0 ≤ p.id ∧ p.id < 2 ^ 31

section See
variable {known : Known} {points state newState : List Point}

theorem see_all {es : List (TouchEvent × Point)} (hids : (es.map fun e => e.2.id).Nodup)
    (hfits : ∀ e ∈ es, e.1.fits e.2 (known e.2.id)) :
    ∃ known', es.foldlM see known = some known' ∧ (∀ e ∈ es, known' e.2.id = e.1.leaves e.2) ∧
      ∀ id, (∀ e ∈ es, e.2.id ≠ id) → known' id = known id := by
  induction es generalizing known with
  | nil => exact ⟨known, rfl, by simp, fun _ _ => rfl⟩
  | cons e es ih =>
    rw [List.map_cons, List.nodup_cons] at hids
    have hother : ∀ e' ∈ es, e'.2.id ≠ e.2.id := fun e' he' heq =>
      hids.1 (List.mem_map.mpr ⟨e', he', heq⟩)
    obtain ⟨known', hrun, hevents, hrest⟩ := @ih (Function.update known e.2.id (e.1.leaves e.2)) hids.2 (by
      intro e' he'
      rw [Function.update_of_ne (hother e' he')]
      exact hfits e' (List.mem_cons_of_mem _ he'))
    refine ⟨known', ?_, ?_, ?_⟩
    · rw [List.foldlM_cons, see, if_pos (hfits e List.mem_cons_self)]
      exact hrun
    · intro e' he'
      rcases List.mem_cons.mp he' with rfl | he'
      · rw [hrest _ hother, Function.update_self]
      · exact hevents e' he'
    · intro id hid
      rw [hrest id fun e' he' => hid e' (List.mem_cons_of_mem _ he'),
        Function.update_of_ne (hid e List.mem_cons_self).symm]

theorem getPointForID_some {id : Int} (hid : 0 ≤ id) {p : Point} (h : getPointForID id points = some p) :
    p ∈ points ∧ p.id = id := by
  have hne : id ≠ -1 := by omega
  have hp := List.find?_some h
  exact ⟨List.mem_of_find?_eq_some h, by simpa [hne] using hp⟩

theorem getPointForID_eq_none {id : Int} (hid : 0 ≤ id) : getPointForID id points = none ↔ ∀ p ∈ points, p.id ≠ id := by
  have hne : id ≠ -1 := by omega
  rw [getPointForID, List.find?_eq_none]
  simp [hne]

theorem Identified.getPointForID (h : Identified points) {p : Point} (hp : p ∈ points) :
    getPointForID p.id points = some p := by
  have hpos := (h.int p hp).1
  cases hfound : OpenJfx.Glass.getPointForID p.id points with
  | none => exact absurd rfl ((getPointForID_eq_none hpos).mp hfound p hp)
  | some q =>
    obtain ⟨hq, hid⟩ := getPointForID_some hpos hfound
    rw [List.inj_on_of_nodup_map h.nodup hq hp hid]

theorem update_id (hold : Identified state) {p : Point} (hp : p ∈ state) : (update newState p).2.id = p.id := by
  rw [update]
  split
  · rename_i q hq
    exact (getPointForID_some (hold.int p hp).1 hq).2
  · rfl

theorem mem_newPoints {p : Point} (hnew : Identified newState) :
    p ∈ newPoints state newState ↔ p ∈ newState ∧ ∀ q ∈ state, q.id ≠ p.id := by
  rw [newPoints, List.mem_filter, Option.isNone_iff_eq_none]
  exact and_congr_right fun hp => getPointForID_eq_none (hnew.int p hp).1

theorem allEvents_ids (hold : Identified state) :
    (allEvents state newState).map (fun e => e.2.id) = state.map Point.id ++ (newPoints state newState).map Point.id := by
  rw [allEvents, List.map_append, List.map_map, List.map_map]
  exact congrArg (· ++ _) (List.map_congr_left fun p hp => update_id hold hp)

theorem allEvents_nodup (hold : Identified state) (hnew : Identified newState) :
    (state.map Point.id ++ (newPoints state newState).map Point.id).Nodup := by
  refine List.nodup_append'.mpr ⟨hold.nodup, hnew.nodup.sublist (List.filter_sublist.map _), ?_⟩
  intro id hin hnewid
  obtain ⟨q, hq, rfl⟩ := List.mem_map.mp hin
  obtain ⟨p, hp, heq⟩ := List.mem_map.mp hnewid
  exact ((mem_newPoints hnew).mp hp).2 q hq heq.symm

theorem see_change (hold : Identified state) (hnew : Identified newState) (h : Shows known state) :
    ∃ known', (allEvents state newState).foldlM see known = some known' ∧ Shows known' newState := by
  obtain ⟨known', hrun, hevents, hrest⟩ := @see_all known (allEvents state newState)
    (by rw [allEvents_ids hold]; exact allEvents_nodup hold hnew) (by
      intro e he
      rcases List.mem_append.mp he with he | he
      · obtain ⟨p, hp, rfl⟩ := List.mem_map.mp he
        rw [update_id hold hp, h.down p hp, update]
        split
        · split
          · rename_i hsame
            simp [TouchEvent.fits, hsame]
          · rename_i q _ hmoved
            have hne : some (p.x, p.y) ≠ some (q.x, q.y) := fun heq => by
              obtain ⟨hx, hy⟩ := Prod.mk.inj (Option.some.inj heq)
              exact hmoved ⟨hx.symm, hy.symm⟩
            exact Bool.and_eq_true_iff.mpr ⟨rfl, decide_eq_true hne⟩
        · simp [TouchEvent.fits]
      · obtain ⟨p, hp, rfl⟩ := List.mem_map.mp he
        simpa [TouchEvent.fits] using h.up p.id ((mem_newPoints hnew).mp hp).2)
  have hupdate : ∀ p ∈ state, known' p.id = (update newState p).1.leaves (update newState p).2 := fun p hp => by
    rw [← hevents _ (List.mem_append_left _ (List.mem_map_of_mem hp)), update_id hold hp]
  refine ⟨known', hrun, fun p hp => ?_, fun id hid => ?_⟩
  · by_cases hthere : ∀ q ∈ state, q.id ≠ p.id
    · exact hevents (.pressed, p) (List.mem_append_right _ (List.mem_map_of_mem ((mem_newPoints hnew).mpr ⟨hp, hthere⟩)))
    · push Not at hthere
      obtain ⟨q, hq, hid⟩ := hthere
      rw [← hid, hupdate q hq, update, hid, hnew.getPointForID hp]
      simp only [TouchEvent.leaves]
      split <;> simp
  · by_cases hthere : ∀ q ∈ state, q.id ≠ id
    · rw [hrest id ?_, h.up id hthere]
      intro e he
      rcases List.mem_append.mp he with he | he
      · obtain ⟨q, hq, rfl⟩ := List.mem_map.mp he
        rw [update_id hold hq]
        exact hthere q hq
      · obtain ⟨p, hp, rfl⟩ := List.mem_map.mp he
        exact hid p ((mem_newPoints hnew).mp hp).1
    · push Not at hthere
      obtain ⟨q, hq, rfl⟩ := hthere
      rw [hupdate q hq, update, (getPointForID_eq_none (hold.int q hq).1).mpr hid]
      rfl

theorem Identified.perm (h : Identified points) {points' : List Point} (hperm : points'.Perm points) : Identified points' :=
  ⟨(hperm.map Point.id).nodup_iff.mpr h.nodup, fun p hp => h.int p (hperm.subset hp)⟩

theorem Identified.sorts {W : Type} {s : TouchState W} (h : Identified s.points)
    (unspecified : List Point → Option (List Point)) :
    s.sortPointsByID unspecified = some (LookaheadTouchFilter.sortedByID s) := by
  have hcompare : ∀ p ∈ s.points, ∀ q ∈ s.points, pointIdComparator p q = p.id - q.id := fun p hp q hq => by
    have hpid := h.int p hp
    have hqid := h.int q hq
    exact Int.bmod_eq_of_le (by omega) (by omega)
  have horder : JavaSort.IsOrder pointIdComparator s.points := by
    refine ⟨fun p hp q hq => ?_, fun p hp q hq r hr hpq hqr => ?_⟩
    · rw [hcompare p hp q hq, hcompare q hq p hp, ← Int.sign_neg, Int.neg_sub]
    · rw [hcompare _ ‹_› _ ‹_›] at hpq hqr ⊢
      omega
  rw [LookaheadTouchFilter.sort_of_isOrder horder, LookaheadTouchFilter.sortedByComparator_eq fun p hp q hq => ?_]
  have hpid := h.int p hp
  have hqid := h.int q hq
  omega

end See

/-! ## Runs -/

/-- The touch points that are pressed by events less those that are released. -/
def balance (events : List (TouchEvent × Point)) : Int :=
  events.countP (fun e => e.1 = .pressed) - events.countP fun e => e.1 = .released

theorem mem_newPoints_ids {state newState : List Point} (hnew : Identified newState) {id : Int} :
    id ∈ (newPoints state newState).map Point.id ↔ id ∈ newState.map Point.id ∧ id ∉ state.map Point.id := by
  constructor
  · intro h
    obtain ⟨p, hp, rfl⟩ := List.mem_map.mp h
    have hp := (mem_newPoints hnew).mp hp
    exact ⟨List.mem_map_of_mem hp.1, by simpa using hp.2⟩
  · rintro ⟨h, hno⟩
    obtain ⟨p, hp, rfl⟩ := List.mem_map.mp h
    exact List.mem_map_of_mem ((mem_newPoints hnew).mpr ⟨hp, by simpa using hno⟩)

theorem balance_allEvents {state newState : List Point} (hold : Identified state) (hnew : Identified newState) :
    balance (allEvents state newState) = newState.length - state.length := by
  have hperm : (state.map Point.id ++ (newPoints state newState).map Point.id).Perm
      (newState.map Point.id ++ (newPoints newState state).map Point.id) := by
    refine (List.perm_ext_iff_of_nodup (allEvents_nodup hold hnew) (allEvents_nodup hnew hold)).mpr fun id => ?_
    rw [List.mem_append, List.mem_append, mem_newPoints_ids hnew, mem_newPoints_ids hold]
    tauto
  have hlength := hperm.length_eq
  simp only [List.length_append, List.length_map] at hlength
  have hpressed : ∀ p, decide ((update newState p).1 = .pressed) = false := fun p => by
    rw [update]
    split
    · split <;> rfl
    · rfl
  have hreleased : ∀ p : Point,
      decide ((update newState p).1 = .released) = (getPointForID p.id newState).isNone := fun p => by
    rw [update]
    cases getPointForID p.id newState with
    | none => rfl
    | some q =>
      dsimp only
      split <;> rfl
  have hgone : state.countP (fun p => (getPointForID p.id newState).isNone) = (newPoints newState state).length :=
    List.countP_eq_length_filter
  simp [balance, allEvents, List.countP_map, Function.comp_def, hpressed, hreleased, hgone]
  omega

theorem foldl_touchCount {V : Type} (events : List (TouchEvent × Point)) (t : TouchInputSupport V) :
    (events.foldl (fun t e => t.notifyNextTouchEvent e.1) t).touchCount = t.touchCount + balance events := by
  induction events generalizing t with
  | nil => simp [balance]
  | cons e events ih =>
    rw [List.foldl_cons, ih]
    obtain ⟨e, p⟩ := e
    cases e <;> simp [balance, TouchInputSupport.notifyNextTouchEvent] <;> omega

theorem foldlM_next {W V : Type} [DecidableEq V] (view : V) (screen : Screen W V) (window : W) {events : List (TouchEvent × Point)}
    {known : V → Known} {known' : Known} (h : events.foldlM see (known view) = some known') :
    (events.map fun e => ViewCall.notifyNextTouchEvent view e.1 e.2.id (wrapInt (e.2.x - screen.getX window))
      (wrapInt (e.2.y - screen.getY window)) e.2.x e.2.y).foldlM watch known =
        some (Function.update known view known') := by
  induction events generalizing known with
  | nil =>
    cases h
    rw [Function.update_eq_self]
    rfl
  | cons e events ih =>
    rw [List.foldlM_cons] at h
    obtain ⟨next, hsee, hrest⟩ := Option.bind_eq_some_iff.mp h
    have hcall := @ih (Function.update known view next) (by rwa [Function.update_self])
    rw [Function.update_idem] at hcall
    rw [List.map_cons, List.foldlM_cons, watch, hsee]
    exact hcall

namespace TouchInput
variable {W V : Type} [DecidableEq V] {screen : Screen W V} {s : TouchInput W V} {shown : V → List Point}

/-- From the calls made so far every view knows the points that are shown on it. -/
def Told (shown : V → List Point) (s : TouchInput W V) : Prop :=
  ∃ known, s.calls.foldlM watch (fun _ _ => none) = some known ∧ ∀ v, Shows (known v) (shown v)

theorem Told.congr (h : Told shown s) {shown' : V → List Point} {t : TouchInput W V} (hcalls : t.calls = s.calls)
    (hshown : ∀ v, shown' v = shown v) : Told shown' t := by
  rw [Told, hcalls, funext hshown]
  exact h

theorem Told.post (h : Told shown s) {window : Option W} {events : List (TouchEvent × Point)} {points : List Point}
    (hsee : ∀ v, window.bind screen.getView = some v → ∀ known, Shows known (shown v) →
      ∃ known', events.foldlM see known = some known' ∧ Shows known' points) :
    Told (fun v => if window.bind screen.getView = some v then points else shown v)
        ((post screen window events).foldl (deliver screen) s) ∧
      ((post screen window events).foldl (deliver screen) s).touches.touchCount = s.touches.touchCount +
        if (window.bind screen.getView).isSome then balance events else 0 := by
  cases hview : window.bind screen.getView with
  | none =>
    have hnone : TouchInput.post screen window events = [] := by
      cases window with
      | none => rfl
      | some w =>
        change screen.getView w = none at hview
        simp [TouchInput.post, hview]
    rw [hnone]
    exact ⟨by simpa using h, by simp⟩
  | some view =>
    obtain ⟨w, rfl, hw⟩ := Option.bind_eq_some_iff.mp hview
    have hpost : TouchInput.post screen (some w) events = [⟨w, view, events⟩] := by simp [TouchInput.post, hw]
    obtain ⟨known, hknown, hshows⟩ := h
    obtain ⟨known', hrun, hshows'⟩ := hsee view hview (known view) (hshows view)
    rw [hpost]
    refine ⟨⟨Function.update known view known', ?_, fun v => ?_⟩, ?_⟩
    · have hnext := foldlM_next view screen w hrun
      simp only [List.foldl_cons, List.foldl_nil, deliver, TouchInputSupport.run, List.foldlM_append, hknown,
        Option.bind_eq_bind, Option.bind_some, List.foldlM_cons, hnext, TouchInputSupport.notifyEndTouchEvent, watch]
      split <;> rfl
    · by_cases hv : view = v
      · subst hv
        simpa using hshows'
      · rw [Function.update_of_ne (Ne.symm hv)]
        simpa [hv] using hshows v
    · exact foldl_touchCount events _

/-- The views know the touch state, and `touchCount` is the number of its points on a view. -/
structure Mirrored (getView : W → Option V) (s : TouchInput W V) : Prop where
  identified : Identified s.state.points
  told : Told (fun v => if s.state.window.bind getView = some v then s.state.points else []) s
  touchCount : s.touches.touchCount = if (s.state.window.bind getView).isSome then (s.state.points.length : Int) else 0

theorem new_mirrored {getView : W → Option V} : Mirrored getView new :=
  ⟨⟨List.nodup_nil, by simp [new]⟩, ⟨_, rfl, fun _ => ⟨by simp [new], fun _ _ => rfl⟩⟩, rfl⟩

variable [DecidableEq W]

theorem posts_mirrored (h : Mirrored screen.getView s) {newState : TouchState W} (hnew : Identified newState.points) :
    Mirrored screen.getView { (posts screen s.state newState).foldl (deliver screen) s with state := newState } := by
  obtain ⟨hold, htold, hcount⟩ := h
  rw [posts]
  split
  · rename_i hsame
    simp only [TouchState.equalsSorted, Bool.and_eq_true, decide_eq_true_eq] at hsame
    refine ⟨hnew, ?_, ?_⟩
    · rw [hsame.1.2, hsame.2]
      exact htold
    · rw [hsame.1.2, hsame.2]
      exact hcount
  · have hnil : Identified [] := ⟨List.nodup_nil, by simp⟩
    split
    · -- the points are released on the old view and pressed on the new one
      rw [List.foldl_append, postAll, postAll, ← allEvents_released, ← allEvents_pressed]
      obtain ⟨htold, hreleased⟩ := htold.post fun v hv known hshows => by
        rw [if_pos hv] at hshows
        exact see_change hold hnil hshows
      have hempty : Told (fun _ => []) _ := htold.congr rfl fun v => by
        by_cases hv : s.state.window.bind screen.getView = some v <;> simp [hv]
      obtain ⟨htold, hpressed⟩ := hempty.post fun v _ known hshows => see_change hnil hnew hshows
      refine ⟨hnew, htold.congr rfl fun _ => rfl, hpressed.trans ?_⟩
      rw [hreleased, hcount, balance_allEvents hold hnil, balance_allEvents hnil hnew]
      split <;> split <;> simp
    · rename_i hviews
      rw [not_not] at hviews
      rw [postChange, changeEvents_eq]
      obtain ⟨htold, hchanged⟩ := htold.post fun v hv known hshows => by
        rw [if_pos (hviews.symm.trans hv)] at hshows
        exact see_change hold hnew hshows
      refine ⟨hnew, ?_, hchanged.trans ?_⟩
      · refine htold.congr rfl fun v => ?_
        rw [hviews]
        split <;> rfl
      · rw [hcount, balance_allEvents hold hnew, hviews]
        split <;> simp

/-! ## The state that is set -/

/-- The point that decides on the window of a state: the one with the primary id if that is above 0,
else the first one. -/
def deciding (state : TouchState W) : Option Point :=
  (state.points.find? fun p => 0 < state.primaryID ∧ p.id = state.primaryID).or state.points.head?

/-- The points and the window after a call: the points are those of the call by their ids; without points
before, the window is looked up at the deciding point, else it is kept. -/
def settled (before : List Point × Option W) (call : Screen W V × TouchState W) : List Point × Option W :=
  let newState := LookaheadTouchFilter.sortedByID call.2
  (newState.points,
    if before.1.length = 0 then
      match deciding newState with
      | some p => call.1.getWindowForLocation p.x p.y
      | none => before.2
    else newState.window.or before.2)

omit [DecidableEq W] in
theorem assignPrimaryID_points (state : TouchState W) : state.assignPrimaryID.points = state.points := by
  unfold TouchState.assignPrimaryID
  repeat' split
  all_goals rfl

omit [DecidableEq W] in
theorem assignPrimaryID_window (state : TouchState W) : state.assignPrimaryID.window = state.window := by
  unfold TouchState.assignPrimaryID
  repeat' split
  all_goals rfl

omit [DecidableEq W] in
theorem getWindow_points (location : Int → Int → Option W) (recalculateCache : Bool) (fallback : Option W)
    (state : TouchState W) : (state.getWindow location recalculateCache fallback).points = state.points := by
  unfold TouchState.getWindow
  repeat' split
  all_goals rfl

omit [DecidableEq W] in
/-- The new primary id is that of the deciding point. -/
theorem assignPrimaryID_deciding {state : TouchState W} (h : Identified state.points) :
    deciding state = none ∧ state.assignPrimaryID.primaryID = -1 ∨
      ∃ p, deciding state = some p ∧ 0 ≤ state.assignPrimaryID.primaryID ∧
        getPointForID state.assignPrimaryID.primaryID state.points = some p := by
  obtain ⟨points, primaryID, window⟩ := state
  cases points with
  | nil => exact Or.inl ⟨rfl, rfl⟩
  | cons first rest =>
    refine Or.inr ?_
    have hfirst : first ∈ first :: rest := List.mem_cons_self
    have hassigned : 0 ≤ first.id ∧ getPointForID first.id (first :: rest) = some first :=
      ⟨(h.int first hfirst).1, h.getPointForID hfirst⟩
    rw [TouchState.assignPrimaryID, deciding]
    dsimp only
    by_cases hnone : primaryID ≤ 0
    · have hfind : ((first :: rest).find? fun p => 0 < primaryID ∧ p.id = primaryID) = none := by
        rw [List.find?_eq_none]
        simp only [decide_eq_true_eq]
        omega
      rw [if_pos hnone, hfind]
      exact ⟨first, rfl, hassigned⟩
    · rw [if_neg hnone]
      have hpositive : 0 < primaryID := by omega
      have hfind : ((first :: rest).find? fun p => 0 < primaryID ∧ p.id = primaryID) =
          getPointForID primaryID (first :: rest) := by
        have hne : primaryID ≠ -1 := by omega
        simp only [getPointForID, hpositive, hne, true_and, decide_false, Bool.false_or]
      rw [hfind]
      cases hfound : getPointForID primaryID (first :: rest) with
      | none =>
        have hother : ¬ ((first :: rest).any fun p => p.id = primaryID) = true := by
          rw [List.any_eq_true]
          rintro ⟨p, hp, hid⟩
          exact (getPointForID_eq_none (by omega)).mp hfound p hp (of_decide_eq_true hid)
        rw [if_neg hother]
        exact ⟨first, rfl, hassigned⟩
      | some p =>
        obtain ⟨hp, hid⟩ := getPointForID_some (by omega) hfound
        rw [if_pos (List.any_eq_true.mpr ⟨p, hp, decide_eq_true hid⟩)]
        exact ⟨p, rfl, le_of_lt hpositive, hfound⟩

theorem setState_mirrored {getView : W → Option V} (h : Mirrored getView s) {call : Screen W V × TouchState W}
    (hview : call.1.getView = getView) (hids : Identified call.2.points)
    (unspecified : List Point → Option (List Point)) :
    ∃ t, setState unspecified call s = some t ∧ Mirrored getView t ∧
      (t.state.points, t.state.window) = settled (s.state.points, s.state.window) call := by
  subst hview
  have hsorted : Identified (LookaheadTouchFilter.sortedByID call.2).points := hids.perm (List.mergeSort_perm _ _)
  rw [setState, hids.sorts]
  refine ⟨_, rfl, posts_mirrored h ?_, Prod.ext ?_ ?_⟩
  · rwa [getWindow_points, assignPrimaryID_points]
  · exact (getWindow_points _ _ _ _).trans (assignPrimaryID_points _)
  · by_cases hempty : s.state.points.length = 0
    · simp only [settled, hempty, TouchState.getWindow, beq_self_eq_true, if_true, assignPrimaryID_points]
      rcases assignPrimaryID_deciding hsorted with ⟨hnone, hid⟩ | ⟨p, hp, hid, hfound⟩
      · rw [hnone, hid]
        rfl
      · rw [hp, if_pos hid, hfound]
    · have hkept : (s.state.points.length == 0) = false := by simpa using hempty
      simp only [settled, hempty, hkept, TouchState.getWindow, if_false, Bool.false_eq_true, assignPrimaryID_window]

theorem execute_mirrored {getView : W → Option V} {calls : List (Screen W V × TouchState W)} (h : Mirrored getView s)
    (hviews : ∀ c ∈ calls, c.1.getView = getView) (hids : ∀ c ∈ calls, Identified c.2.points)
    (unspecified : List Point → Option (List Point)) :
    ∃ t, execute (setState unspecified) calls s = some t ∧ Mirrored getView t ∧
      (t.state.points, t.state.window) = calls.foldl settled (s.state.points, s.state.window) := by
  induction calls generalizing s with
  | nil => exact ⟨s, rfl, h, rfl⟩
  | cons call calls ih =>
    obtain ⟨u, hset, hu, hsettled⟩ := setState_mirrored h (hviews call List.mem_cons_self)
      (hids call List.mem_cons_self) unspecified
    obtain ⟨t, hrest, ht, hfold⟩ := ih hu (fun c hc => hviews c (List.mem_cons_of_mem _ hc))
      fun c hc => hids c (List.mem_cons_of_mem _ hc)
    rw [hsettled] at hfold
    exact ⟨t, execute_cons.mpr ⟨u, hset, hrest⟩, ht, hfold⟩

/-- As long as the windows keep their views: in every run all events fit to what the view knows, every view
knows exactly the points that are on it, and `touchCount` is their number.  The points are those of the last
call, and the window is the one that the calls settle on. -/
theorem run_mirrored {getView : W → Option V} {calls : List (Screen W V × TouchState W)}
    (hviews : ∀ c ∈ calls, c.1.getView = getView) (hids : ∀ c ∈ calls, Identified c.2.points)
    (unspecified : List Point → Option (List Point)) :
    ∃ t, execute (setState unspecified) calls new = some t ∧ Mirrored getView t ∧
      (t.state.points, t.state.window) = calls.foldl settled ([], none) :=
  execute_mirrored new_mirrored hviews hids unspecified

/-- Two points are pressed; then one of them moves and the other one is released. -/
theorem run_mirrored_released :
    ∃ t, execute (setState fun _ => none)
        [(⟨fun _ _ => some (), some, fun _ => 0, fun _ => 0⟩, ⟨[⟨5, 1, 1⟩, ⟨3, 2, 2⟩], -1, none⟩),
          (⟨fun _ _ => none, some, fun _ => 0, fun _ => 0⟩, ⟨[⟨5, 1, 4⟩], 3, none⟩)] new = some t ∧
      Mirrored (some : Unit → Option Unit) t ∧ (t.state.points, t.state.window) = ([⟨5, 1, 4⟩], some ()) := by
  have hsettled : ([(⟨fun _ _ => some (), some, fun _ => 0, fun _ => 0⟩, ⟨[⟨5, 1, 1⟩, ⟨3, 2, 2⟩], -1, none⟩),
      (⟨fun _ _ => none, some, fun _ => 0, fun _ => 0⟩, ⟨[⟨5, 1, 4⟩], 3, none⟩)] :
        List (Screen Unit Unit × TouchState Unit)).foldl settled ([], none) = ([⟨5, 1, 4⟩], some ()) := by
    simp [settled, deciding, LookaheadTouchFilter.sortedByID, List.mergeSort]
  rw [← hsettled]
  refine run_mirrored (fun c hc => ?_) (fun c hc => ?_) _
  · rcases List.mem_pair.mp hc with rfl | rfl <;> rfl
  · rcases List.mem_pair.mp hc with rfl | rfl <;> exact ⟨by decide, by decide⟩

end TouchInput

end OpenJfx.Glass
