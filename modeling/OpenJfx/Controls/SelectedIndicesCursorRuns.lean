import OpenJfx.Controls.SelectedIndicesCursor

/-! # Runs that keep the cursor

All reads of a run are right as long as removals spare the cursor: a `clear` that
is reported moves it by the iteration of the listener, a range that is taken out
unreported leaves it where it was. -/
set_option autoImplicit false
namespace OpenJfx.Controls

open OpenJfx.Lib OpenJfx.Collections

namespace SelectedIndicesList

/-- The cursor stands in front of a position, or nothing is selected. -/
def Sound (s : SelectedIndicesList) : Prop :=
  s.bitset.bits = [] ∨ ∃ k, k ≤ s.bitset.bits.length ∧ Before s k

/-- With the second row read last, `clear` does not take out the first one; a
range has its bounds in order, and a range that is taken out, which is never
reported, has no row up to the one last read, or all rows. -/
def KeepsCursor : AccessCall → SelectedIndicesList → Prop
  | .clear index, s => s.lastGetIndex = 1 → index ∈ s.bitset.bits → s.lastGetValue ≤ index
  | .setRange index stop isSet, s => 0 ≤ index ∧ index ≤ stop ∧
      (isSet = false → (∀ z ∈ s.bitset.bits, index ≤ z → z < stop → s.lastGetValue < z) ∨
        (s.bitset.clearRange index stop).bits = [])
  | _, _ => True

/-- The rows and the cursor are the same. -/
structure SameView (s t : SelectedIndicesList) : Prop where
  bitset : t.bitset = s.bitset
  index : t.lastGetIndex = s.lastGetIndex
  value : t.lastGetValue = s.lastGetValue

section Sound
variable {s t : SelectedIndicesList}

theorem Sound.of_view (h : Sound s) (view : SameView s t) : Sound t := by
  rcases h with hnil | ⟨k, hk, before⟩
  · exact Or.inl (by rw [view.bitset, hnil])
  · refine Or.inr ⟨k, by rw [view.bitset]; exact hk, ?_, ?_⟩
    · rw [view.index]
      exact before.index
    · rw [view.value, view.bitset]
      exact before.value

/-- Rows and cursor of a state that counts right. -/
theorem Sound.counts (h : Sound s) {i : Nat} (hi : i < s.bitset.bits.length) : s.CursorCounts i := by
  rcases h with hnil | ⟨k, hk, before⟩
  · rw [hnil] at hi
    cases hi
  have hindex := before.index
  have hvalue := before.value
  cases k with
  | zero =>
    rw [if_pos rfl] at hvalue
    refine ⟨fun hforward _ => ?_, fun hback _ => by omega⟩
    have hnone : s.bitset.bits.countP (fun z => decide (z ≤ s.lastGetValue)) = 0 := by
      apply List.countP_eq_zero.mpr
      intro z hz
      have := s.bitset.nonneg z hz
      simp
      omega
    rw [hnone]
    omega
  | succ k =>
    rw [if_neg (by omega), Nat.add_sub_cancel, List.getElem?_eq_getElem (by omega), Option.getD_some] at hvalue
    constructor
    · intro hforward _
      have hnext := @nextSetBit_after s.bitset k (by omega)
      rw [show k + 1 = i by omega, List.getElem?_eq_getElem hi, Option.getD_some] at hnext
      rw [hvalue, (nextSetBit_eq_iff hi _).mp hnext]
    · intro hback _
      rw [hvalue, countP_below (by omega)]
      omega

theorem sound_withCursor {k : Nat} (hk : k < s.bitset.bits.length) : Sound (s.withCursor k s.bitset.bits[k]) :=
  Or.inr ⟨k + 1, hk, before_withCursor hk⟩

/-- Rows behind the cursor can go. -/
theorem Sound.removed (h : Sound s) {bitset : JavaBitSet} {p : Int → Bool}
    (hbits : bitset.bits = s.bitset.bits.filter p)
    (keeps : (∀ z ∈ s.bitset.bits, p z = false → s.lastGetValue < z) ∨ bitset.bits = []) :
    Sound { s with bitset := bitset } := by
  rcases keeps with keeps | hnil
  · rcases h with hnil | ⟨k, hk, before⟩
    · exact Or.inl (by show bitset.bits = []; rw [hbits, hnil]; rfl)
    · have hvalue := before.value
      have hfront : (s.bitset.bits.take k).filter p = s.bitset.bits.take k := by
        apply List.filter_eq_self.mpr
        intro z hz
        by_contra hp
        have hlt := keeps z (List.mem_of_mem_take hz) (by simpa using hp)
        obtain ⟨q, hq, rfl⟩ := List.getElem_of_mem hz
        rw [List.length_take] at hq
        rw [if_neg (by omega), List.getElem?_eq_getElem (by omega), Option.getD_some] at hvalue
        rw [List.getElem_take, hvalue] at hlt
        have sorted := s.bitset.increasing
        rw [List.pairwise_iff_getElem] at sorted
        by_cases last : q = k - 1
        · subst last
          omega
        · have := sorted q (k - 1) (by omega) (by omega) (by omega)
          omega
      have hcut : bitset.bits = s.bitset.bits.take k ++ (s.bitset.bits.drop k).filter p := by
        rw [hbits, ← hfront, ← List.filter_append, List.take_append_drop]
      have hlength : (s.bitset.bits.take k).length = k := by rw [List.length_take]; omega
      refine Or.inr ⟨k, ?_, before.index, ?_⟩
      · show k ≤ bitset.bits.length
        rw [hcut, List.length_append, hlength]
        omega
      · show s.lastGetValue = if k = 0 then -1 else bitset.bits[k - 1]?.getD (-1)
        rw [hvalue]
        by_cases first : k = 0
        · rw [if_pos first, if_pos first]
        · rw [if_neg first, if_neg first, hcut, List.getElem?_append_left (by omega), List.getElem?_take_of_lt (by omega)]
  · exact Or.inl hnil

/-! ## One call -/

/-- A report leaves rows and cursor alone, also if it throws. -/
theorem report_view (call : ListChangeBuilder Int → Outcome Exn (ListChangeBuilder Int)) (s : SelectedIndicesList) :
    SameView s (s.report call).state := by
  unfold report
  by_cases atomic : s.isAtomic = true
  · rw [if_pos atomic]
    exact ⟨rfl, rfl, rfl⟩
  · rw [if_neg atomic]
    cases call s.builder with
    | done b => exact ⟨rfl, rfl, rfl⟩
    | thrown x b => exact ⟨rfl, rfl, rfl⟩

theorem sound_bind {o : Outcome Exn SelectedIndicesList}
    {next : SelectedIndicesList → Outcome Exn SelectedIndicesList} (first : Sound o.state)
    (rest : ∀ t, Sound t → Sound (next t).state) : Sound (o.bind next).state := by
  cases o with
  | done t => exact rest t first
  | thrown x t => exact first

theorem Sound.report (h : Sound s) (call : ListChangeBuilder Int → Outcome Exn (ListChangeBuilder Int)) :
    Sound (s.report call).state := h.of_view (report_view call s)

theorem Sound.report_bind (h : Sound s) {call : ListChangeBuilder Int → Outcome Exn (ListChangeBuilder Int)}
    {next : SelectedIndicesList → Outcome Exn SelectedIndicesList} (rest : ∀ t, SameView s t → Sound (next t).state) :
    Sound ((s.report call).bind next).state := by
  have view := report_view call s
  cases hcall : s.report call with
  | done t =>
    rw [hcall] at view
    exact rest t view
  | thrown x t =>
    rw [hcall] at view
    exact h.of_view view

theorem indexOfLoop_sound (obj : Int) (rest k : Nat) (counted : k + rest = s.bitset.bits.length) (before : Before s k) :
    ∃ index i v, indexOfLoop obj rest k s = .ok (index, s.withCursor i v) ∧ Sound (s.withCursor i v) := by
  induction rest generalizing k s with
  | zero => exact ⟨-1, s.lastGetIndex, s.lastGetValue, rfl, Or.inr ⟨k, by show k ≤ s.bitset.bits.length; omega, before⟩⟩
  | succ rest ih =>
    have hk : k < s.bitset.bits.length := by omega
    unfold indexOfLoop
    rw [get_spec hk before]
    dsimp only
    by_cases here : s.bitset.bits[k] = obj
    · rw [if_pos here]
      exact ⟨_, _, _, rfl, sound_withCursor hk⟩
    · rw [if_neg here]
      obtain ⟨index, i, v, hloop, sound⟩ := @ih (s.withCursor k s.bitset.bits[k]) (k + 1)
        (by show k + 1 + rest = s.bitset.bits.length; omega) (before_withCursor hk)
      exact ⟨index, i, v, hloop, sound⟩

/-- Looking for a row, whether it is selected or not, sets the cursor anew. -/
theorem positionOf_sound (s : SelectedIndicesList) (obj : Int)
    (next : Int → SelectedIndicesList → Outcome Exn SelectedIndicesList) :
    ∃ index i v, s.positionOf obj next = next index (s.withCursor i v) ∧ Sound (s.withCursor i v) := by
  obtain ⟨index, i, v, hloop, sound⟩ := @indexOfLoop_sound s.reset obj s.size 0
    (by show 0 + s.bitset.bits.length = s.bitset.bits.length; omega) ⟨rfl, rfl⟩
  refine ⟨index, i, v, ?_, sound⟩
  unfold positionOf indexOf
  rw [show ((0 : Int)) = ((0 : Nat) : Int) from rfl, hloop]
  rfl

theorem sound_positionOf (obj : Int) (next : Int → SelectedIndicesList → Outcome Exn SelectedIndicesList)
    (rest : ∀ index t, Sound t → Sound (next index t).state) : Sound (s.positionOf obj next).state := by
  obtain ⟨index, i, v, hcall, sound⟩ := positionOf_sound s obj next
  rw [hcall]
  exact rest index _ sound

theorem Sound.set (h : Sound s) (itemCount index : Int) : Sound (s.set itemCount index).state := by
  unfold SelectedIndicesList.set
  by_cases nothing : isValidIndex itemCount index = false ∨ s.isSelected index = true
  · rw [if_pos nothing]
    exact h
  · rw [if_neg nothing]
    refine h.report_bind fun t _ => ?_
    refine sound_positionOf index _ fun indicesIndex u hu => ?_
    exact hu.report_bind fun v view => (hu.of_view view).report _

theorem Sound.run_set (h : Sound s) (itemCount : Int) (rows : List Int) :
    Sound (Outcome.run (SelectedIndicesList.set itemCount) rows s).state := by
  induction rows generalizing s with
  | nil => exact h
  | cons row rows ih => exact sound_bind (h.set itemCount row) fun t ht => ih ht

theorem Sound.groupLoop (h : Sound s) (size : Nat) (rows : List Int) (pos : Nat) (start stop endValue : Int) :
    Sound (SelectedIndicesList.groupLoop size rows pos start stop endValue s).state := by
  induction rows generalizing s pos start stop endValue with
  | nil => exact h
  | cons row rows ih =>
    unfold SelectedIndicesList.groupLoop
    dsimp only
    by_cases gap : endValue ≠ row - 1
    · rw [if_pos gap]
      exact h.report_bind fun t view => ih (h.of_view view) _ _ _ _
    · rw [if_neg gap]
      by_cases last : pos + 1 = size
      · rw [if_pos last]
        exact h.report_bind fun t view => ih (h.of_view view) _ _ _ _
      · rw [if_neg last]
        exact ih h _ _ _ _

theorem Sound.setAll (h : Sound s) (itemCount index : Int) (indices : List Int) :
    Sound (s.setAll itemCount index indices).state := by
  unfold SelectedIndicesList.setAll
  by_cases single : indices = []
  · rw [if_pos single]
    exact h.set itemCount index
  rw [if_neg single]
  dsimp only
  have started : Sound s.startAtomic := h.of_view ⟨rfl, rfl, rfl⟩
  refine sound_bind (started.run_set itemCount _) fun t ht => ?_
  have stopped : Sound t.stopAtomic := ht.of_view ⟨rfl, rfl, rfl⟩
  rcases s.sortedNewIndices itemCount (index :: indices) with _ | ⟨startValue, _ | ⟨second, rest⟩⟩
  · exact stopped
  · refine stopped.report_bind fun u view => ?_
    have hu := stopped.of_view view
    exact hu.report_bind fun v view => (hu.of_view view).report _
  · refine stopped.report_bind fun u _ => ?_
    refine sound_positionOf startValue _ fun start v hv => ?_
    exact sound_bind (hv.groupLoop _ _ _ _ _ _) fun w hw => hw.report _

theorem bits_foldr_clear (bitset : JavaBitSet) (rows : List Int) :
    (rows.foldr (fun i b => b.clear i) bitset).bits = bitset.bits.filter fun z => decide (z ∉ rows) := by
  induction rows with
  | nil => simp
  | cons row rows ih =>
    show (rows.foldr (fun i b => b.clear i) bitset).bits.filter (fun z => decide (z ≠ row)) = _
    rw [ih, List.filter_filter]
    apply List.filter_congr
    intro z _
    simp [List.mem_cons]

theorem Sound.setRange (h : Sound s) {index stop : Int} {isSet : Bool}
    (keeps : KeepsCursor (.setRange index stop isSet) s) : Sound (s.setRange index stop isSet).state := by
  obtain ⟨low, order, spares⟩ := keeps
  unfold SelectedIndicesList.setRange
  refine h.report_bind fun t view => ?_
  have ht := h.of_view view
  refine sound_bind ?_ fun u hu => hu.report _
  rw [if_neg (by omega)]
  cases isSet with
  | true =>
    rw [if_pos rfl]
    exact sound_positionOf index _ fun indicesIndex u hu => hu.report _
  | false =>
    rw [if_neg Bool.false_ne_true]
    have hbits := bits_foldr_clear t.bitset (intRange index stop)
    refine ht.removed hbits ?_
    rcases spares rfl with spares | hnil
    · refine Or.inl fun z hz hp => ?_
      rw [view.bitset] at hz
      rw [view.value]
      have hrange : z ∈ intRange index stop := by simpa using hp
      exact spares z hz (mem_intRange.mp hrange).1 (mem_intRange.mp hrange).2
    · refine Or.inr ?_
      rw [view.bitset]
      exact hnil

theorem clear_spec (outside : Outside s) {index : Int} (selected : index ∈ s.bitset.bits) :
    ∃ b, s.clear index = .done { s with bitset := s.bitset.clear index, builder := b } ∧
      s.builder.fired.length < b.fired.length := by
  have hindex := s.bitset.nonneg index selected
  have hbegin : s.beginChange = .done { s with builder := s.builder.beginChange } := by
    unfold beginChange
    rw [report_outside outside.notAtomic]
    rfl
  obtain ⟨b₁, hremove, records₁⟩ := (records_beginChange outside.idle).nextRemove (recordRemove_first index index)
  obtain ⟨b₂, hend, hfired, -⟩ := records₁.endChange_single
  refine ⟨b₂, ?_, ?_⟩
  · unfold clear
    rw [if_neg (by omega), if_neg (by simp [JavaBitSet.get, selected]), hbegin, Outcome.bind_done]
    dsimp only
    rw [SelectedIndicesList.nextRemove, @report_outside { s with bitset := s.bitset.clear index, builder := _ } outside.notAtomic,
      hremove]
    show SelectedIndicesList.endChange { s with bitset := s.bitset.clear index, builder := b₁ } = _
    rw [endChange, @report_outside { s with bitset := s.bitset.clear index, builder := b₁ } outside.notAtomic, hend]
    rfl
  · rw [hfired, List.length_append]
    simp

/-- After `clear` an iterator starts right, unless it steps back over the row
taken out. -/
theorem Sound.counts_zero (h : Sound s) {index : Int} (selected : index ∈ s.bitset.bits)
    (keeps : KeepsCursor (.clear index) s) {b : ListChangeBuilder Int} :
    CursorCounts { s with bitset := s.bitset.clear index, builder := b } 0 := by
  have hbits : (s.bitset.clear index).bits = s.bitset.bits.filter fun z => decide (z ≠ index) := rfl
  rcases h with hnil | ⟨k, hk, before⟩
  · rw [hnil] at selected
    cases selected
  have hindex := before.index
  have hvalue := before.value
  constructor
  · intro hforward _
    change (0 : Int) = s.lastGetIndex + 1 at hforward
    rw [if_pos (by omega)] at hvalue
    have hnone : (s.bitset.clear index).bits.countP (fun z => decide (z ≤ s.lastGetValue)) = 0 := by
      apply List.countP_eq_zero.mpr
      intro z hz
      have := (s.bitset.clear index).nonneg z hz
      simp
      omega
    exact congrArg _ hnone
  · intro hback _
    change (0 : Int) = s.lastGetIndex - 1 at hback
    have hspared := keeps (by omega) selected
    have hsecond : 1 < s.bitset.bits.length := by omega
    rw [if_neg (by omega), show k - 1 = 1 by omega, List.getElem?_eq_getElem hsecond, Option.getD_some] at hvalue
    have hone : (s.bitset.clear index).bits.countP (fun z => decide (z < s.lastGetValue)) = 1 := by
      rw [hbits, List.countP_filter, ← countP_below hsecond, hvalue]
      apply List.countP_congr
      intro z _
      simp only [Bool.and_eq_true, decide_eq_true_eq]
      omega
    exact congrArg _ hone

theorem Sound.clearAll (h : Sound s) : Sound s.clearAll.state := by
  unfold SelectedIndicesList.clearAll
  refine h.report_bind fun t _ => ?_
  have removed : Sound { t with bitset := t.bitset.clearAll } := Or.inl rfl
  exact removed.report_bind fun u view => (removed.of_view view).report _

theorem Sound.get (h : Sound s) (index : Int) : Sound (s.afterRead (s.get index)) := by
  by_cases outside : index < 0 ∨ (s.size : Int) ≤ index
  · have hget : s.get index = .error .indexOutOfBounds := if_pos outside
    rw [hget]
    exact h
  · obtain ⟨i, rfl⟩ : ∃ i : Nat, index = i := ⟨index.toNat, by omega⟩
    have hi : i < s.bitset.bits.length := by
      have inside : ¬ (s.bitset.bits.length : Int) ≤ i := fun hle => outside (Or.inr hle)
      omega
    rw [get_of_counts hi (h.counts hi)]
    exact sound_withCursor hi

theorem Sound.iterate (h : Sound s) : Sound (s.afterRead s.iterate) := by
  by_cases hi : 0 < s.bitset.bits.length
  · obtain ⟨s', hiterate, hbits, before⟩ := iterate_of_counts hi (h.counts hi)
    rw [hiterate]
    rw [← hbits] at before
    exact Or.inr ⟨_, le_rfl, before⟩
  · have hsize : s.size = 0 := by
      show s.bitset.bits.length = 0
      omega
    unfold SelectedIndicesList.iterate
    rw [hsize]
    exact h

theorem Sound.notified {s' : SelectedIndicesList} (h : Sound s') : Sound (s.notified s') := by
  unfold SelectedIndicesList.notified
  split
  · exact h.iterate
  · exact h

theorem Sound.clear (h : Sound s) (outside : Outside s) {index : Int} (keeps : KeepsCursor (.clear index) s) :
    Sound (access (.clear index) s) := by
  by_cases selected : index ∈ s.bitset.bits
  · obtain ⟨b, hclear, hfired⟩ := clear_spec outside selected
    have hcounts := @Sound.counts_zero _ h _ selected keeps b
    show Sound (s.notified (s.clear index).state)
    rw [hclear, Outcome.state_done]
    unfold SelectedIndicesList.notified
    rw [if_pos hfired]
    by_cases some : 0 < (s.bitset.clear index).bits.length
    · obtain ⟨s', hiterate, hbits, before⟩ := @iterate_of_counts { s with bitset := s.bitset.clear index, builder := b }
        some hcounts
      rw [hiterate]
      rw [← hbits] at before
      exact Or.inr ⟨_, le_rfl, before⟩
    · exact Sound.iterate (Or.inl (List.length_eq_zero_iff.mp (by
        show (s.bitset.clear index).bits.length = 0
        omega)))
  · have hclear : (s.clear index).state = s := by
      unfold SelectedIndicesList.clear
      split
      · rfl
      · rw [if_pos (by simp [JavaBitSet.get, selected])]
        rfl
    show Sound (s.notified (s.clear index).state)
    rw [hclear]
    exact h.notified

theorem Sound.accessed (h : Sound s) (outside : Outside s) {call : AccessCall} (keeps : KeepsCursor call s) :
    Sound (access call s) := by
  cases call with
  | set itemCount index => exact (h.set itemCount index).notified
  | setAll itemCount index indices => exact (h.setAll itemCount index indices).notified
  | setRange index stop isSet => exact (h.setRange keeps).notified
  | clear index => exact h.clear outside keeps
  | clearAll => exact h.clearAll.notified
  | get index => exact h.get index
  | iterate => exact h.iterate

/-! ## Outside of a change -/

theorem Outside.of_leaves {rows : Int → Prop} {o : Outcome Exn SelectedIndicesList} (outside : Outside s)
    (leaves : Leaves s rows o) : Outside o.state := by
  obtain ⟨s', hdone, hidle, hcount, -⟩ := leaves
  rw [hdone]
  exact ⟨hcount.trans outside.notAtomic, hidle⟩

theorem Outside.set (outside : Outside s) (itemCount index : Int) : Outside (s.set itemCount index).state := by
  by_cases valid : isValidIndex itemCount index = true
  · simp only [isValidIndex, Bool.and_eq_true, decide_eq_true_eq] at valid
    exact outside.of_leaves (set_leaves outside.idle valid.1 valid.2)
  · unfold SelectedIndicesList.set
    rw [if_pos (Or.inl (by simpa using valid))]
    exact outside

theorem Outside.setRange (outside : Outside s) {index stop : Int} (low : 0 ≤ index) (order : index ≤ stop)
    (isSet : Bool) : Outside (s.setRange index stop isSet).state := by
  obtain ⟨s₁, hbegin, -, recording⟩ := beginChange_spec outside
  unfold SelectedIndicesList.setRange
  rw [hbegin, Outcome.bind_done]
  dsimp only
  rw [if_neg (by omega)]
  cases isSet with
  | true =>
    rw [if_pos rfl]
    obtain ⟨indicesIndex, i, v, hcall, -⟩ := positionOf_sound { s₁ with bitset := s₁.bitset.setRange index stop } index
      fun indicesIndex s => s.nextAdd indicesIndex (indicesIndex + (stop - index))
    obtain ⟨s', hend, -, -, outside'⟩ := nextAdd_endChange ((recording.withBits (s₁.bitset.setRange index stop)).withCursor i v)
      indicesIndex (indicesIndex + (stop - index))
    rw [hcall, hend]
    exact outside'
  | false =>
    rw [if_neg Bool.false_ne_true, Outcome.bind_done]
    obtain ⟨b, hend, -, idle⟩ := (recording.withBits (s₁.bitset.clearRange index stop)).records.endChange_empty
    rw [endChange, @report_outside { s₁ with bitset := s₁.bitset.clearRange index stop } recording.notAtomic, hend]
    exact ⟨recording.notAtomic, idle⟩

theorem Outside.clear (outside : Outside s) (index : Int) : Outside (s.clear index).state := by
  by_cases low : 0 ≤ index
  · exact outside.of_leaves (clear_leaves outside.idle low)
  · unfold SelectedIndicesList.clear
    rw [if_pos (by omega)]
    exact outside

/-- A read moves the cursor only. -/
theorem get_cursor {index value : Int} {s' : SelectedIndicesList} (h : s.get index = .ok (value, s')) :
    ∃ i v, s' = s.withCursor i v := by
  unfold SelectedIndicesList.get at h
  dsimp only at h
  split at h
  · cases h
  split at h
  · cases h
    exact ⟨_, _, rfl⟩
  split at h
  · cases h
    exact ⟨_, _, rfl⟩
  · cases h
    exact ⟨_, _, rfl⟩

theorem iterateLoop_cursor {rest : Nat} {pos : Int} {values : List Int} {s' : SelectedIndicesList}
    (h : iterateLoop rest pos s = .ok (values, s')) : ∃ i v, s' = s.withCursor i v := by
  induction rest generalizing pos values s with
  | zero =>
    cases h
    exact ⟨s'.lastGetIndex, s'.lastGetValue, rfl⟩
  | succ rest ih =>
    unfold iterateLoop at h
    cases hget : s.get pos with
    | error x => rw [hget] at h; cases h
    | ok read =>
      obtain ⟨value, s₁⟩ := read
      obtain ⟨i, v, rfl⟩ := get_cursor hget
      rw [hget] at h
      dsimp only at h
      cases hrest : iterateLoop rest (pos + 1) (s.withCursor i v) with
      | error x => rw [hrest] at h; cases h
      | ok result =>
        obtain ⟨values', s₂⟩ := result
        rw [hrest] at h
        cases h
        obtain ⟨i', v', rfl⟩ := ih hrest
        exact ⟨i', v', rfl⟩

theorem Outside.iterate (outside : Outside s) : Outside (s.afterRead s.iterate) := by
  cases hiterate : s.iterate with
  | error x => exact outside
  | ok result =>
    obtain ⟨values, s'⟩ := result
    obtain ⟨i, v, rfl⟩ := iterateLoop_cursor hiterate
    exact ⟨outside.notAtomic, outside.idle⟩

theorem Outside.notified {s' : SelectedIndicesList} (outside : Outside s') : Outside (s.notified s') := by
  unfold SelectedIndicesList.notified
  split
  · exact outside.iterate
  · exact outside

theorem Outside.accessed (outside : Outside s) {call : AccessCall} (keeps : KeepsCursor call s) :
    Outside (access call s) := by
  cases call with
  | set itemCount index => exact (outside.set itemCount index).notified
  | setAll itemCount index indices =>
    refine Outside.notified ?_
    by_cases single : indices = []
    · unfold SelectedIndicesList.setAll
      rw [if_pos single]
      exact outside.set itemCount index
    · exact outside.of_leaves (setAll_leaves outside indices single)
  | setRange index stop isSet => exact (outside.setRange keeps.1 keeps.2.1 isSet).notified
  | clear index => exact (outside.clear index).notified
  | clearAll => exact (outside.of_leaves (clearAll_leaves outside.idle)).notified
  | get index =>
    show Outside (s.afterRead (s.get index))
    cases hget : s.get index with
    | error x => exact outside
    | ok read =>
      obtain ⟨value, s'⟩ := read
      obtain ⟨i, v, rfl⟩ := get_cursor hget
      exact ⟨outside.notAtomic, outside.idle⟩
  | iterate => exact outside.iterate

/-- While the cursor is sound every read is right. -/
theorem Sound.readsRight (h : Sound s) (call : AccessCall) : ReadsRight call s := by
  rw [readsRight_iff]
  cases call with
  | get index =>
    intro low high
    obtain ⟨i, rfl⟩ : ∃ i : Nat, index = i := ⟨index.toNat, by omega⟩
    exact h.counts (by exact_mod_cast high)
  | iterate => exact fun hi => h.counts hi
  | set itemCount index => trivial
  | setAll itemCount index indices => trivial
  | setRange index stop isSet => trivial
  | clear index => trivial
  | clearAll => trivial

theorem sound_create : Sound create := Or.inr ⟨0, Nat.le_refl 0, rfl, rfl⟩

theorem outside_create : Outside create := ⟨rfl, rfl, rfl, rfl, rfl⟩

theorem Sound.reads_along (h : Sound s) (outside : Outside s) {calls : List AccessCall}
    (keeps : Guarded KeepsCursor access calls s) : Guarded ReadsRight access calls s := by
  induction calls generalizing s with
  | nil => trivial
  | cons call calls ih =>
    exact ⟨h.readsRight call, ih (h.accessed outside keeps.1) (outside.accessed keeps.1) keeps.2⟩

/-- Every read of a run is right in which the removals spare the cursor; sets
never disturb it. -/
theorem random_access_of_keeps {calls : List AccessCall} (keeps : Guarded KeepsCursor access calls create) :
    Guarded ReadsRight access calls create := sound_create.reads_along outside_create keeps

end Sound

end SelectedIndicesList
end OpenJfx.Controls
