import OpenJfx.Controls.SelectedIndicesCalls
import OpenJfx.Lib.Run

/-! # Random access to the selected indices

`get` keeps the position and the value it last read and steps from there; the
removal of rows does not reset them.  The list of the selected items listens from
the start and reads all rows at every change, which moves the cursor too.  The
exact condition under which every read of a run shows the selected row at its
position. -/
set_option autoImplicit false
namespace OpenJfx.Controls

open OpenJfx.Lib OpenJfx.Collections

namespace SelectedIndicesList

/-- An iterator from `pos` on, with the number of positions left. -/
def iterateLoop : Nat → Int → SelectedIndicesList → Except Exn (List Int × SelectedIndicesList)
  | 0, _, s => .ok ([], s)
  | rest + 1, pos, s =>
      match s.get pos with
      | .error x => .error x
      | .ok (value, s) =>
          match iterateLoop rest (pos + 1) s with
          | .error x => .error x
          | .ok (values, s) => .ok (value :: values, s)

def iterate (s : SelectedIndicesList) : Except Exn (List Int × SelectedIndicesList) := iterateLoop s.size 0 s

/-- A call on the list; the model has `itemCount` items. -/
inductive AccessCall where
  | set (itemCount index : Int)
  | setAll (itemCount index : Int) (indices : List Int)
  | setRange (index stop : Int) (isSet : Bool)
  | clear (index : Int)
  | clearAll
  | get (index : Int)
  | iterate
deriving DecidableEq, Repr

/-- The list after a read; a read that throws leaves it alone. -/
def afterRead {α : Type} (s : SelectedIndicesList) : Except Exn (α × SelectedIndicesList) → SelectedIndicesList
  | .ok (_, s') => s'
  | .error _ => s

/-- The listener of `SelectedItemsReadOnlyObservableList`, when the call has fired:
it goes through all rows to renew `itemsRefList`.  Firing is the last thing that
a call does. -/
def notified (s s' : SelectedIndicesList) : SelectedIndicesList :=
  if s.builder.fired.length < s'.builder.fired.length then s'.afterRead s'.iterate else s'

/-- The list after the call, whether it returns or throws. -/
def access : AccessCall → SelectedIndicesList → SelectedIndicesList
  | .set itemCount index, s => s.notified (s.set itemCount index).state
  | .setAll itemCount index indices, s => s.notified (s.setAll itemCount index indices).state
  | .setRange index stop isSet, s => s.notified (s.setRange index stop isSet).state
  | .clear index, s => s.notified (s.clear index).state
  | .clearAll, s => s.notified s.clearAll.state
  | .get index, s => s.afterRead (s.get index)
  | .iterate, s => s.afterRead s.iterate

/-- `get(i)` returns the `i`-th smallest selected row; an iterator returns all of
them in increasing order. -/
def ReadsRight : AccessCall → SelectedIndicesList → Prop
  | .get index, s => 0 ≤ index → index < s.size →
      (s.get index).map Prod.fst = .ok (s.bitset.bits[index.toNat]?.getD (-1))
  | .iterate, s => s.iterate.map Prod.fst = .ok s.bitset.bits
  | _, _ => True

/-- Where `get` steps forward, as many selected rows go up to the value last
read as lie in front of the position; where it steps back, one more than in
front of the position lies below that value. -/
def CursorCounts (s : SelectedIndicesList) (index : Int) : Prop :=
  (index = s.lastGetIndex + 1 → s.lastGetValue < s.size →
    (s.bitset.bits.countP fun z => decide (z ≤ s.lastGetValue) : Int) = index) ∧
  (index = s.lastGetIndex - 1 → 0 < s.lastGetValue →
    (s.bitset.bits.countP fun z => decide (z < s.lastGetValue) : Int) = index + 1)

def CursorFits : AccessCall → SelectedIndicesList → Prop
  | .get index, s => 0 ≤ index → index < s.size → s.CursorCounts index
  | .iterate, s => 0 < s.size → s.CursorCounts 0
  | _, _ => True

/-! ## Steps of the cursor -/

section Steps
variable {s : SelectedIndicesList} {i : Nat}

theorem bits_getElem_inj (bitset : JavaBitSet) {i j : Nat} (hi : i < bitset.bits.length)
    (hj : j < bitset.bits.length) :
    bitset.bits[i] = bitset.bits[j] ↔ i = j := by
  have distinct : bitset.bits.Nodup := bitset.increasing.imp fun hlt => by omega
  exact distinct.getElem_inj_iff

theorem nextSetBit_eq_iff {bitset : JavaBitSet} (hi : i < bitset.bits.length) (v : Int) :
    bitset.nextSetBit (v + 1) = bitset.bits[i] ↔ bitset.bits.countP (fun z => decide (z ≤ v)) = i := by
  obtain ⟨front, back, cut, hfront, hback, hcount⟩ := exists_cut_behind bitset.increasing v
  have hnext : bitset.nextSetBit (v + 1) = back.head?.getD (-1) :=
    nextSetBit_eq cut (fun b hb => by have := hfront b hb; omega) (fun b hb => by have := hback b hb; omega)
  have hlength : bitset.bits.length = front.length + back.length := by rw [cut, List.length_append]
  rw [hnext, hcount]
  cases back with
  | nil =>
    have hnonneg := bitset.nonneg bitset.bits[i] (List.getElem_mem hi)
    simp at hlength
    constructor
    · intro h
      change -1 = bitset.bits[i] at h
      omega
    · intro h
      omega
  | cons b back =>
    have hin : front.length < bitset.bits.length := by
      rw [hlength, List.length_cons]
      omega
    have hb : bitset.bits[front.length] = b := by simp [cut]
    show b = bitset.bits[i] ↔ _
    rw [← hb]
    exact bits_getElem_inj bitset hin hi

theorem previousSetBit_eq_iff {bitset : JavaBitSet} (hi : i < bitset.bits.length) (v : Int) :
    bitset.previousSetBit (v - 1) = bitset.bits[i] ↔ bitset.bits.countP (fun z => decide (z < v)) = i + 1 := by
  obtain ⟨front, back, cut, hfront, hback, hcount⟩ := exists_cut_behind bitset.increasing (v - 1)
  have hbelow : bitset.bits.countP (fun z => decide (z < v)) = front.length := by
    rw [← hcount]
    exact List.countP_congr fun z _ => by simp only [decide_eq_true_eq]; omega
  have hfilter : bitset.bits.filter (fun b => decide (b ≤ v - 1)) = front := by
    have hnone : back.filter (fun b => decide (b ≤ v - 1)) = [] :=
      List.filter_eq_nil_iff.mpr fun b hb => by have := hback b hb; simp; omega
    rw [cut, List.filter_append, List.filter_eq_self.mpr fun b hb => by simpa using hfront b hb, hnone, List.append_nil]
  have hprevious : bitset.previousSetBit (v - 1) = front.getLast?.getD (-1) := by
    unfold JavaBitSet.previousSetBit
    rw [hfilter]
  have hlength : bitset.bits.length = front.length + back.length := by rw [cut, List.length_append]
  rw [hprevious, hbelow]
  rcases List.eq_nil_or_concat' front with rfl | ⟨init, b, rfl⟩
  · have hnonneg := bitset.nonneg bitset.bits[i] (List.getElem_mem hi)
    constructor
    · intro h
      change -1 = bitset.bits[i] at h
      omega
    · intro h
      cases h
  · simp only [List.length_append, List.length_singleton] at hlength ⊢
    have hin : init.length < bitset.bits.length := by omega
    have hb : bitset.bits[init.length] = b := by simp [cut]
    rw [List.getLast?_concat, Option.getD_some, ← hb, bits_getElem_inj bitset hin hi]
    omega

theorem countP_below (hi : i < s.bitset.bits.length) :
    s.bitset.bits.countP (fun z => decide (z < s.bitset.bits[i])) = i := by
  have sorted := s.bitset.increasing
  rw [List.pairwise_iff_getElem] at sorted
  generalize hv : s.bitset.bits[i] = v
  rw [← List.take_append_drop i s.bitset.bits, List.countP_append, List.countP_eq_length.mpr, List.countP_eq_zero.mpr,
    List.length_take]
  · omega
  · intro z hz
    obtain ⟨q, hq, rfl⟩ := List.getElem_of_mem hz
    rw [List.length_drop] at hq
    rw [List.getElem_drop, decide_eq_true_eq, ← hv]
    by_cases first : q = 0
    · subst first
      simp
    · have := sorted i (i + q) hi (by omega) (by omega)
      omega
  · intro z hz
    obtain ⟨q, hq, rfl⟩ := List.getElem_of_mem hz
    rw [List.length_take] at hq
    rw [List.getElem_take, decide_eq_true_eq, ← hv]
    exact sorted q i (by omega) hi (by omega)

theorem get_of_counts (hi : i < s.bitset.bits.length) (counts : s.CursorCounts i) :
    s.get i = .ok (s.bitset.bits[i], s.withCursor i s.bitset.bits[i]) := by
  obtain ⟨forward, back⟩ := counts
  unfold get
  dsimp only
  rw [if_neg (by show ¬ ((i : Int) < 0 ∨ (s.bitset.bits.length : Int) ≤ i); omega)]
  by_cases ahead : (i : Int) = s.lastGetIndex + 1 ∧ s.lastGetValue < s.size
  · have hvalue := (nextSetBit_eq_iff hi s.lastGetValue).mpr (by exact_mod_cast forward ahead.1 ahead.2)
    rw [if_pos ahead, hvalue, ← ahead.1]
    rfl
  rw [if_neg ahead]
  by_cases behind : (i : Int) = s.lastGetIndex - 1 ∧ 0 < s.lastGetValue
  · have hvalue := (previousSetBit_eq_iff hi s.lastGetValue).mpr (by exact_mod_cast back behind.1 behind.2)
    rw [if_pos behind, hvalue, ← behind.1]
    rfl
  · have hscan := @scan_spec s.bitset i hi (s.size + 1) 0 (by omega) (by show i < s.bitset.bits.length + 1 + 0; omega)
    rw [if_neg behind, nextSetBit_zero]
    rw [Nat.cast_zero] at hscan
    rw [hscan]
    rfl

theorem get_right_iff (hi : i < s.bitset.bits.length) :
    (s.get i).map Prod.fst = .ok s.bitset.bits[i] ↔ s.CursorCounts i := by
  constructor
  · intro right
    unfold get at right
    dsimp only at right
    rw [if_neg (by show ¬ ((i : Int) < 0 ∨ (s.bitset.bits.length : Int) ≤ i); omega)] at right
    constructor
    · intro hindex hvalue
      rw [if_pos ⟨hindex, hvalue⟩] at right
      have hcount := (nextSetBit_eq_iff hi s.lastGetValue).mp (Except.ok.inj right)
      exact_mod_cast hcount
    · intro hindex hvalue
      rw [if_neg (by omega), if_pos ⟨hindex, hvalue⟩] at right
      have hcount := (previousSetBit_eq_iff hi s.lastGetValue).mp (Except.ok.inj right)
      exact_mod_cast hcount
  · intro counts
    rw [get_of_counts hi counts]
    rfl

theorem before_withCursor {k : Nat} (hk : k < s.bitset.bits.length) :
    Before (s.withCursor k s.bitset.bits[k]) (k + 1) := by
  refine ⟨by show (k : Int) = ((k + 1 : Nat) : Int) - 1; omega, ?_⟩
  show s.bitset.bits[k] = _
  rw [if_neg (by omega), Nat.add_sub_cancel]
  show _ = s.bitset.bits[k]?.getD (-1)
  rw [List.getElem?_eq_getElem hk, Option.getD_some]

theorem iterateLoop_spec (rest k : Nat) (before : Before s k) (counted : k + rest = s.bitset.bits.length) :
    ∃ s', iterateLoop rest k s = .ok (s.bitset.bits.drop k, s') ∧ s'.bitset = s.bitset ∧
      Before s' s.bitset.bits.length := by
  induction rest generalizing k s with
  | zero =>
    refine ⟨s, ?_, rfl, ?_⟩
    · rw [iterateLoop, List.drop_eq_nil_of_le (by omega)]
    · rw [← counted]
      exact before
  | succ rest ih =>
    have hk : k < s.bitset.bits.length := by omega
    obtain ⟨s', hloop, hbits, hafter⟩ := ih (k + 1) (before_withCursor hk)
      (by show k + 1 + rest = s.bitset.bits.length; omega)
    refine ⟨s', ?_, hbits, hafter⟩
    rw [iterateLoop, get_spec hk before]
    dsimp only
    rw [show (k : Int) + 1 = ((k + 1 : Nat) : Int) by omega]
    change (match iterateLoop rest ((k + 1 : Nat) : Int) (s.withCursor k s.bitset.bits[k]) with
      | .error x => .error x
      | .ok (values, s'') => .ok (s.bitset.bits[k] :: values, s'')) = Except.ok (s.bitset.bits.drop k, s')
    rw [hloop, List.drop_eq_getElem_cons hk]
    rfl

theorem iterate_of_counts (hi : 0 < s.bitset.bits.length) (counts : s.CursorCounts 0) :
    ∃ s', s.iterate = .ok (s.bitset.bits, s') ∧ s'.bitset = s.bitset ∧ Before s' s.bitset.bits.length := by
  obtain ⟨n, hn⟩ : ∃ n, s.bitset.bits.length = n + 1 := ⟨s.bitset.bits.length - 1, by omega⟩
  have hget : s.get 0 = .ok (s.bitset.bits[0], s.withCursor 0 s.bitset.bits[0]) := get_of_counts hi counts
  obtain ⟨s', hloop, hbits, hafter⟩ := @iterateLoop_spec (s.withCursor 0 s.bitset.bits[0]) n 1 (before_withCursor hi)
    (by show 1 + n = s.bitset.bits.length; omega)
  refine ⟨s', ?_, hbits, hafter⟩
  unfold iterate
  rw [show s.size = n + 1 from hn, iterateLoop, hget]
  dsimp only
  change iterateLoop n (0 + 1) (s.withCursor 0 s.bitset.bits[0]) = _ at hloop
  rw [hloop]
  show Except.ok (s.bitset.bits[0] :: s.bitset.bits.drop 1, s') = Except.ok (s.bitset.bits, s')
  rw [← List.drop_eq_getElem_cons hi, List.drop_zero]

theorem iterate_right_iff : s.iterate.map Prod.fst = .ok s.bitset.bits ↔ (0 < s.size → s.CursorCounts 0) := by
  unfold iterate
  cases hsize : s.size with
  | zero =>
    have hnil : s.bitset.bits = [] := List.length_eq_zero_iff.mp hsize
    rw [hnil]
    exact iff_of_true rfl fun h => absurd h (Nat.lt_irrefl 0)
  | succ n =>
    have hlength : s.bitset.bits.length = n + 1 := hsize
    have hi : 0 < s.bitset.bits.length := by omega
    constructor
    · intro right _
      refine (get_right_iff hi).mp ?_
      rw [iterateLoop] at right
      cases hget : s.get 0 with
      | error x => rw [hget] at right; cases right
      | ok read =>
        obtain ⟨value, s₁⟩ := read
        rw [hget] at right
        dsimp only at right
        cases hrest : iterateLoop n (0 + 1) s₁ with
        | error x => rw [hrest] at right; cases right
        | ok result =>
          obtain ⟨values, s₂⟩ := result
          rw [hrest] at right
          have hbits : value :: values = s.bitset.bits := Except.ok.inj right
          have hvalue : s.bitset.bits[0] = value := by simp [← hbits]
          show Except.ok value = Except.ok s.bitset.bits[0]
          rw [hvalue]
    · intro counts
      obtain ⟨s', hiterate, -⟩ := iterate_of_counts hi (counts (Nat.succ_pos n))
      unfold iterate at hiterate
      rw [hsize] at hiterate
      rw [hiterate]
      rfl

theorem readsRight_iff (call : AccessCall) (s : SelectedIndicesList) : ReadsRight call s ↔ CursorFits call s := by
  cases call with
  | get index =>
    have hread : 0 ≤ index → index < s.size → ((s.get index).map Prod.fst
        = .ok (s.bitset.bits[index.toNat]?.getD (-1)) ↔ s.CursorCounts index) := by
      intro low high
      obtain ⟨i, rfl⟩ : ∃ i : Nat, index = i := ⟨index.toNat, by omega⟩
      have hi : i < s.bitset.bits.length := by exact_mod_cast high
      rw [Int.toNat_natCast, List.getElem?_eq_getElem hi, Option.getD_some]
      exact get_right_iff hi
    exact ⟨fun h low high => (hread low high).mp (h low high), fun h low high => (hread low high).mpr (h low high)⟩
  | iterate => exact iterate_right_iff
  | set itemCount index => exact Iff.rfl
  | setAll itemCount index indices => exact Iff.rfl
  | setRange index stop isSet => exact Iff.rfl
  | clear index => exact Iff.rfl
  | clearAll => exact Iff.rfl

/-- In every run of calls, from any state on, all reads are right exactly when the
cursor fits at each of them. -/
theorem random_access_iff (calls : List AccessCall) (s : SelectedIndicesList) :
    Guarded ReadsRight access calls s ↔ Guarded CursorFits access calls s := by
  induction calls generalizing s with
  | nil => exact Iff.rfl
  | cons call calls ih => exact and_congr (readsRight_iff call s) (ih (access call s))

def oddRows : List AccessCall := [.set 10 1, .set 10 3, .set 10 5]

/-- After `get(1)` the row 1 is removed: every iterator, the one of the listener
included, starts with a step back from the row 3, to no row. -/
theorem not_random_access :
    (exec access (oddRows ++ [.get 1, .clear 1]) .create).bitset.bits = [3, 5] ∧
      (exec access (oddRows ++ [.get 1, .clear 1]) .create).iterate.map Prod.fst = .ok [-1, 3] ∧
      ¬ ∀ calls, Guarded ReadsRight access calls .create := by
  refine ⟨by decide +kernel, by decide +kernel, ?_⟩
  intro right
  obtain ⟨-, -, -, -, -, hiterate, -⟩ := right [.set 10 1, .set 10 3, .set 10 5, .get 1, .clear 1, .iterate]
  change (exec access (oddRows ++ [.get 1, .clear 1]) .create).iterate.map Prod.fst
    = .ok (exec access (oddRows ++ [.get 1, .clear 1]) .create).bitset.bits at hiterate
  exact absurd hiterate (by decide +kernel)

end Steps

end SelectedIndicesList
end OpenJfx.Controls
