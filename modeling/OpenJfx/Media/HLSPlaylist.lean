import OpenJfx.Lib.Run
import Mathlib.Data.List.Nodup
import Mathlib.Data.List.Range

/-! # Live playlists of `HLSConnectionHolder`

The playlist thread loads snapshots of a live playlist into `mediaFiles`, and one
consumer calls `getNextMediaFile`.  A snapshot is a window of the segments of a stream.
A step of a schedule is `setSequenceNumber` of an update, one `addMediaFile`, or a step
of the consumer between two accesses of what it shares.  There is no seek, no close and
no switch of the bitrate, and a media file is returned without the base URI that is put
in front of it. -/
set_option autoImplicit false
namespace OpenJfx.Media
open OpenJfx.Lib

/-- The segments of a live stream. -/
structure Stream (U : Type) where
  uri : Nat → U
  discontinuity : Nat → Bool
  injective : Function.Injective uri

namespace Stream
variable {U : Type}

/-- The entries of a playlist for the segments in `[start, stop)`. -/
def entries (stream : Stream U) (start stop : Nat) : List (U × Bool) :=
  (List.range' start (stop - start)).map fun j => (stream.uri j, stream.discontinuity j)

/-- The media files of the segments in `[start, stop)`. -/
def files (stream : Stream U) (start stop : Nat) : List U := (List.range' start (stop - start)).map stream.uri

variable (stream : Stream U) {start stop : Nat}

@[simp] theorem files_length : (stream.files start stop).length = stop - start := by
  rw [files, List.length_map, List.length_range']

theorem getElem?_files {i : Nat} (h : i < stop - start) : (stream.files start stop)[i]? = some (stream.uri (start + i)) := by
  rw [files, List.getElem?_map, List.getElem?_range' h, Nat.one_mul]
  rfl

theorem mem_files {j : Nat} : stream.uri j ∈ stream.files start stop ↔ start ≤ j ∧ j < stop := by
  rw [files, List.mem_map]
  constructor
  · intro h
    obtain ⟨k, hk, heq⟩ := h
    rw [stream.injective heq, List.mem_range'_1] at hk
    omega
  · intro h
    exact ⟨j, List.mem_range'_1.mpr (by omega), rfl⟩

theorem drop_files {n : Nat} (h : n ≤ stop - start) : (stream.files start stop).drop n = stream.files (start + n) stop := by
  refine List.ext_getElem? fun i => ?_
  rw [List.getElem?_drop]
  by_cases hi : i < stop - (start + n)
  · rw [getElem?_files stream (by omega), getElem?_files stream hi, Nat.add_assoc]
  · rw [List.getElem?_eq_none (by rw [files_length]; omega), List.getElem?_eq_none (by rw [files_length]; omega)]

theorem files_append (h : start ≤ stop) : stream.files start stop ++ [stream.uri stop] = stream.files start (stop + 1) := by
  rw [files, files, Nat.succ_sub h, List.range'_concat, List.map_append, Nat.one_mul, Nat.add_sub_cancel' h]
  rfl

theorem files_self : stream.files start start = [] := by
  rw [files, Nat.sub_self]
  rfl

theorem entries_cons (h : start < stop) :
    stream.entries start stop = (stream.uri start, stream.discontinuity start) :: stream.entries (start + 1) stop := by
  rw [entries, entries, show stop - start = stop - (start + 1) + 1 by omega, List.range'_succ, List.map_cons]

theorem entries_eq_nil : stream.entries start stop = [] ↔ stop ≤ start := by
  rw [entries, List.map_eq_nil_iff, List.range'_eq_nil_iff]
  omega

theorem idxOf?_files [DecidableEq U] {j : Nat} (h1 : start ≤ j) (h2 : j < stop) :
    (stream.files start stop).idxOf? (stream.uri j) = some (j - start) := by
  rw [List.idxOf?, List.findIdx?_eq_some_iff_getElem]
  have hlength : j - start < (stream.files start stop).length := by
    rw [files_length]
    omega
  have hget : ∀ i, (hi : i < (stream.files start stop).length) → (stream.files start stop)[i] = stream.uri (start + i) := by
    intro i hi
    rw [files_length] at hi
    have := getElem?_files stream hi
    exact (List.getElem?_eq_some_iff.mp this).2
  refine ⟨hlength, ?_, ?_⟩
  · rw [hget _ hlength, beq_iff_eq, Nat.add_sub_cancel' h1]
  · intro i hi
    rw [hget i (by omega), beq_iff_eq]
    intro heq
    have := stream.injective heq
    omega

end Stream

/-- Where the consumer is in `getNextMediaFile`. -/
inductive Consumer where
  | idle
  /-- In front of `liveSemaphore.acquire()`. -/
  | waiting
  /-- In front of `isLiveWaiting = false`. -/
  | acquired
  /-- In front of the second synchronized block. -/
  | ready
deriving DecidableEq, Repr

/-- `permits` are those of `liveSemaphore`, `todo` has the entries that an update is
still to add, `snapshot` the window loaded last, and `returned` what the consumer got. -/
structure Playlist (U : Type) where
  mediaFiles : List U
  mediaFilesDiscontinuities : List Bool
  mediaFileIndex : Int
  sequenceNumber : Int
  sequenceNumberStart : Int
  sequenceNumberUpdated : Bool
  forceDiscontinuity : Bool
  isLiveWaiting : Bool
  permits : Nat
  consumer : Consumer
  todo : List (U × Bool)
  snapshot : Option (Nat × Nat)
  returned : List (Option U)
deriving DecidableEq, Repr

namespace Playlist
variable {U : Type} [DecidableEq U]

def new : Playlist U := ⟨[], [], -1, -1, -1, false, false, false, 0, .idle, [], none, []⟩

def setSequenceNumber (value : Int) (s : Playlist U) : Playlist U × Bool :=
  if s.sequenceNumberStart = -1 then ({ s with sequenceNumberStart := value }, true)
  else if s.sequenceNumber ≠ value then ({ s with sequenceNumberUpdated := true, sequenceNumber := value }, true)
  else (s, false)

def removeFiles : Nat → Playlist U → Playlist U
  | 0, s => s
  | n + 1, s => removeFiles n { s with
      mediaFiles := s.mediaFiles.drop 1
      mediaFilesDiscontinuities := s.mediaFilesDiscontinuities.drop 1
      forceDiscontinuity := if s.mediaFileIndex = -1 then true else s.forceDiscontinuity
      mediaFileIndex := if s.mediaFileIndex ≥ 0 then s.mediaFileIndex - 1 else s.mediaFileIndex }

/-- The files in front of the first one of a new window are removed. -/
def trimFiles (uri : U) (s : Playlist U) : Playlist U :=
  if s.sequenceNumberUpdated then
    { (match s.mediaFiles.idxOf? uri with
        | some index => removeFiles index s
        | none => s) with sequenceNumberUpdated := false }
  else s

def addMediaFile (uri : U) (isDiscontinuity : Bool) (s : Playlist U) : Playlist U :=
  let s := trimFiles uri s
  if uri ∈ s.mediaFiles then s
  else { s with
    mediaFiles := s.mediaFiles ++ [uri]
    mediaFilesDiscontinuities := s.mediaFilesDiscontinuities ++ [isDiscontinuity]
    permits := if s.isLiveWaiting then s.permits + 1 else s.permits }

/-- A window that does not move back and overlaps the one before. -/
def follows (start stop : Nat) : Option (Nat × Nat) → Bool
  | none => start < stop
  | some (start', stop') => start' ≤ start && stop' ≤ stop && start < stop' && start < stop

inductive Step where
  /-- `update` up to the loop that adds the files of the window. -/
  | update (start stop : Nat)
  | addMediaFile
  /-- The first synchronized block of `getNextMediaFile`. -/
  | getNextMediaFile
  | acquire
  | awake
  /-- The second synchronized block. -/
  | take
deriving DecidableEq, Repr

variable (stream : Stream U)

def step : Step → Playlist U → Option (Playlist U)
  | .update start stop, s =>
      if s.todo = [] ∧ follows start stop s.snapshot = true then
        let (s, changed) := setSequenceNumber start s
        some { s with
          snapshot := some (start, stop)
          todo := if changed then stream.entries start stop else [] }
      else none
  | .addMediaFile, s => match s.todo with
      | [] => none
      | (uri, isDiscontinuity) :: todo => some (addMediaFile uri isDiscontinuity { s with todo := todo })
  | .getNextMediaFile, s => match s.consumer with
      | .idle =>
          let waits : Bool := s.mediaFileIndex + 1 ≥ s.mediaFiles.length
          some { s with isLiveWaiting := waits, consumer := if waits then .waiting else .ready }
      | _ => none
  | .acquire, s => match s.consumer, s.permits with
      | .waiting, permits + 1 => some { s with permits := permits, consumer := .acquired }
      | _, _ => none
  | .awake, s => match s.consumer with
      | .acquired => some { s with isLiveWaiting := false, consumer := .ready }
      | _ => none
  | .take, s => match s.consumer with
      | .ready =>
          let index := s.mediaFileIndex + 1
          some { s with
            mediaFileIndex := index
            consumer := .idle
            returned := s.returned ++ [if index < s.mediaFiles.length then s.mediaFiles[index.toNat]? else none] }
      | _ => none

/-! ## What is delivered -/

/-- The segments that have been returned are `taken`, in this order; every segment of a
loaded window is stored, and behind the play position as long as no later segment has been
returned; and a consumer that waits is woken as soon as there is a segment for it. -/
structure Delivered (taken : List Nat) (s : Playlist U) : Prop where
  returned : s.returned = taken.map fun m => some (stream.uri m)
  increasing : taken.Pairwise (· < ·)
  available : s.todo = [] → ∀ start stop, s.snapshot = some (start, stop) → ∀ j, start ≤ j → j < stop →
    ∃ i : Nat, s.mediaFiles[i]? = some (stream.uri j) ∧ ((∀ m ∈ taken, m < j) → s.mediaFileIndex < i)
  woken : s.consumer = .waiting → s.mediaFileIndex + 1 < s.mediaFiles.length → 0 < s.permits

/-- The consumer takes a segment, and those it skips have left the window. -/
def Skips (taken : List Nat) (s t : Playlist U) : Prop :=
  ∃ m, t.returned = s.returned ++ [some (stream.uri m)] ∧
    ∀ j < m, (∀ k ∈ taken, k < j) → ∀ start stop, s.snapshot = some (start, stop) → j < start

/-- A window is loaded under a new media sequence number, unless it has no new segment;
and when a segment is stored as the consumer waits, the consumer has not been woken for
another one. -/
def Paced (a : Step) (s : Playlist U) : Prop := match a with
  | .update start stop => s.sequenceNumber = start → s.sequenceNumberStart ≠ -1 →
      ∀ start' stop', s.snapshot = some (start', stop') → stop = stop'
  | .addMediaFile => s.isLiveWaiting = true → (∀ entry ∈ s.todo.head?, entry.1 ∉ s.mediaFiles) →
      s.permits = 0 ∧ s.consumer ≠ .acquired
  | _ => True

instance : ∀ (a : Step) (s : Playlist U), Decidable (Paced a s)
  | .update start stop, s => decidable_of_iff
      (s.sequenceNumber = start → s.sequenceNumberStart ≠ -1 → ∀ window ∈ s.snapshot, stop = window.2)
      ⟨fun h hnumber hstart start' stop' hs => h hnumber hstart (start', stop') hs,
        fun h hnumber hstart window hs => h hnumber hstart window.1 window.2 hs⟩
  | .addMediaFile, s => inferInstanceAs (Decidable (s.isLiveWaiting = true →
      (∀ entry ∈ s.todo.head?, entry.1 ∉ s.mediaFiles) → s.permits = 0 ∧ s.consumer ≠ .acquired))
  | .getNextMediaFile, _ | .acquire, _ | .awake, _ | .take, _ => isTrue trivial

/-! ## The invariant -/

/-- The segments in `[first, last)` are stored, and `played` of them are in front of the
next one. -/
structure Stored (first last played : Nat) (s : Playlist U) : Prop where
  files : s.mediaFiles = stream.files first last
  le : first ≤ last
  index : s.mediaFileIndex + 1 = played
  played_le : played ≤ last - first

structure Played (taken : List Nat) (first played : Nat) (s : Playlist U) : Prop where
  returned : s.returned = taken.map fun m => some (stream.uri m)
  increasing : taken.Pairwise (· < ·)
  below : ∀ m ∈ taken, m < first + played
  last : 0 < played → first + played - 1 ∈ taken

/-- A consumer that is woken finds a segment, of `count` stored ones. -/
inductive Calls (played count : Nat) (s : Playlist U) : Prop where
  | idle (consumer : s.consumer = .idle) (waiting : s.isLiveWaiting = false) (permits : s.permits = 0)
  | waiting (consumer : s.consumer = .waiting) (waiting : s.isLiveWaiting = true)
      (permits : s.permits = 0 ∧ played = count ∨ s.permits = 1 ∧ played < count)
  | acquired (consumer : s.consumer = .acquired) (waiting : s.isLiveWaiting = true) (permits : s.permits = 0)
      (more : played < count)
  | ready (consumer : s.consumer = .ready) (waiting : s.isLiveWaiting = false) (permits : s.permits = 0)
      (more : played < count)

/-- Nothing is loaded, or the old files are still to be removed, or the segments from
`next` on are still to be added. -/
inductive Loading (first last : Nat) (s : Playlist U) : Prop where
  | fresh (snapshot : s.snapshot = none) (todo : s.todo = []) (numbers : s.sequenceNumberStart = -1 ∧ s.sequenceNumber = -1)
      (updated : s.sequenceNumberUpdated = false) (empty : first = 0 ∧ last = 0)
  | turning (start stop : Nat) (snapshot : s.snapshot = some (start, stop)) (todo : s.todo = stream.entries start stop)
      (updated : s.sequenceNumberUpdated = true) (window : first ≤ start ∧ start < last ∧ last ≤ stop)
      (numbers : s.sequenceNumberStart ≠ -1 ∧ s.sequenceNumber = start)
  | adding (stop next : Nat) (snapshot : s.snapshot = some (first, stop)) (todo : s.todo = stream.entries next stop)
      (updated : s.sequenceNumberUpdated = false) (window : first ≤ next ∧ next ≤ last ∧ last ≤ stop ∧ first < stop)
      (numbers : s.sequenceNumberStart ≠ -1 ∧ (s.sequenceNumber = -1 ∨ s.sequenceNumber = first))

/-- The invariant of runs in which updates are paced. -/
structure Live (first last played : Nat) (taken : List Nat) (s : Playlist U) : Prop where
  stored : Stored stream first last played s
  plays : Played stream taken first played s
  calls : Calls played (last - first) s
  loading : Loading stream first last s

omit [DecidableEq U] in
theorem removeFiles_spec (n : Nat) {s : Playlist U} {played : Nat} (h : s.mediaFileIndex + 1 = played) :
    (removeFiles n s).mediaFiles = s.mediaFiles.drop n ∧
      (removeFiles n s).mediaFileIndex + 1 = ((played - n : Nat) : Int) ∧
      (removeFiles n s).returned = s.returned ∧ (removeFiles n s).isLiveWaiting = s.isLiveWaiting ∧
      (removeFiles n s).permits = s.permits ∧ (removeFiles n s).consumer = s.consumer ∧
      (removeFiles n s).todo = s.todo ∧ (removeFiles n s).snapshot = s.snapshot ∧
      (removeFiles n s).sequenceNumber = s.sequenceNumber ∧
      (removeFiles n s).sequenceNumberStart = s.sequenceNumberStart := by
  induction n generalizing s played with
  | zero => exact ⟨rfl, by rw [Nat.sub_zero]; exact h, rfl, rfl, rfl, rfl, rfl, rfl, rfl, rfl⟩
  | succ n ih =>
    rw [removeFiles]
    have hnext : (if s.mediaFileIndex ≥ 0 then s.mediaFileIndex - 1 else s.mediaFileIndex) + 1 = ((played - 1 : Nat) : Int) := by
      split
      · omega
      · omega
    obtain ⟨hfiles, hindex, hrest⟩ := @ih { s with
      mediaFiles := s.mediaFiles.drop 1
      mediaFilesDiscontinuities := s.mediaFilesDiscontinuities.drop 1
      forceDiscontinuity := if s.mediaFileIndex = -1 then true else s.forceDiscontinuity
      mediaFileIndex := if s.mediaFileIndex ≥ 0 then s.mediaFileIndex - 1 else s.mediaFileIndex } (played - 1) hnext
    refine ⟨?_, ?_, hrest⟩
    · rw [hfiles, List.drop_drop, Nat.add_comm]
    · rw [hindex]
      omega

/-! ## Steps of the playlist thread -/

omit [DecidableEq U] in
theorem Calls.congr {played count : Nat} {s t : Playlist U} (h : Calls played count s) (hconsumer : t.consumer = s.consumer)
    (hwaiting : t.isLiveWaiting = s.isLiveWaiting) (hpermits : t.permits = s.permits) : Calls played count t := by
  cases h with
  | idle consumer waiting permits => exact .idle (hconsumer.trans consumer) (hwaiting.trans waiting) (hpermits.trans permits)
  | waiting consumer waiting permits =>
    exact .waiting (hconsumer.trans consumer) (hwaiting.trans waiting) (by rw [hpermits]; exact permits)
  | acquired consumer waiting permits more =>
    exact .acquired (hconsumer.trans consumer) (hwaiting.trans waiting) (hpermits.trans permits) more
  | ready consumer waiting permits more =>
    exact .ready (hconsumer.trans consumer) (hwaiting.trans waiting) (hpermits.trans permits) more

theorem live_update {start stop first last played : Nat} {taken : List Nat} {s t : Playlist U}
    (hs : Live stream first last played taken s) (hpaced : Paced (.update start stop) s)
    (h : step stream (.update start stop) s = some t) :
    ∃ first last, Live stream first last played taken t := by
  rw [step] at h
  split at h
  · rename_i henabled
    obtain ⟨htodo, hfollows⟩ := henabled
    obtain ⟨hstored, hplays, hcalls, hloading⟩ := hs
    cases hloading with
    | fresh snapshot todo numbers updated empty =>
      obtain ⟨rfl, rfl⟩ := empty
      rw [snapshot] at hfollows
      have hlt : start < stop := by simpa [follows] using hfollows
      rw [setSequenceNumber, if_pos numbers.1] at h
      cases h
      have hplayed : played = 0 := by
        have := hstored.played_le
        omega
      subst hplayed
      refine ⟨start, start, ⟨?_, Nat.le_refl start, hstored.index, Nat.zero_le _⟩,
        ⟨hplays.returned, hplays.increasing, ?_, fun hpos => absurd hpos (Nat.lt_irrefl 0)⟩, ?_, ?_⟩
      · change s.mediaFiles = _
        rw [hstored.files, Stream.files_self, Stream.files_self]
      · intro m hm
        exact absurd (hplays.below m hm) (Nat.not_lt_zero m)
      · rw [Nat.sub_self]
        exact hcalls.congr rfl rfl rfl
      · refine .adding stop start rfl rfl updated ⟨Nat.le_refl _, Nat.le_refl _, by omega, hlt⟩ ⟨?_, ?_⟩
        · dsimp only
          omega
        · exact Or.inl numbers.2
    | turning start' stop' snapshot todo updated window numbers =>
      rw [todo, Stream.entries_eq_nil] at htodo
      omega
    | adding stop' next snapshot todo updated window numbers =>
      rw [todo, Stream.entries_eq_nil] at htodo
      have hlast : last = stop' := by omega
      subst hlast
      rw [snapshot] at hfollows
      have hwindow : first ≤ start ∧ last ≤ stop ∧ start < last ∧ start < stop := by
        simpa [follows, and_assoc] using hfollows
      rw [setSequenceNumber, if_neg numbers.1] at h
      by_cases hsame : s.sequenceNumber = start
      · -- the window has not grown, and is not loaded again
        rw [if_neg (not_not.mpr hsame)] at h
        cases h
        have hstop : stop = last := hpaced hsame numbers.1 first last snapshot
        have hstart : start = first := by
          rcases numbers.2 with hnone | hfirst
          · omega
          · omega
        subst hstop hstart
        refine ⟨start, stop, ⟨hstored.files, hstored.le, hstored.index, hstored.played_le⟩,
          ⟨hplays.returned, hplays.increasing, hplays.below, hplays.last⟩, hcalls.congr rfl rfl rfl, ?_⟩
        refine .adding stop stop rfl ?_ updated ⟨by omega, by omega, by omega, by omega⟩ numbers
        exact (stream.entries_eq_nil.mpr (Nat.le_refl stop)).symm
      · rw [if_pos hsame] at h
        cases h
        refine ⟨first, last, ⟨hstored.files, hstored.le, hstored.index, hstored.played_le⟩,
          ⟨hplays.returned, hplays.increasing, hplays.below, hplays.last⟩, hcalls.congr rfl rfl rfl, ?_⟩
        exact .turning start stop rfl rfl rfl ⟨hwindow.1, hwindow.2.2.1, hwindow.2.1⟩ ⟨numbers.1, rfl⟩
  · cases h

theorem live_turn {start stop first last played : Nat} {taken : List Nat} {s : Playlist U} {isDiscontinuity : Bool}
    (hs : Live stream first last played taken s) (snapshot : s.snapshot = some (start, stop))
    (updated : s.sequenceNumberUpdated = true) (window : first ≤ start ∧ start < last ∧ last ≤ stop)
    (numbers : s.sequenceNumberStart ≠ -1 ∧ s.sequenceNumber = start) :
    Live stream start last (played - (start - first)) taken
      (addMediaFile (stream.uri start) isDiscontinuity { s with todo := stream.entries (start + 1) stop }) := by
  obtain ⟨hstored, hplays, hcalls, -⟩ := hs
  have hindex : s.mediaFiles.idxOf? (stream.uri start) = some (start - first) := by
    rw [hstored.files]
    exact stream.idxOf?_files window.1 window.2.1
  obtain ⟨hfiles, hposition, hreturned, hwaiting, hpermits, hconsumer, htodo, hsnapshot, hnumber, hnumberStart⟩ :=
    @removeFiles_spec U (start - first) { s with todo := stream.entries (start + 1) stop } played hstored.index
  have htrim : trimFiles (stream.uri start) { s with todo := stream.entries (start + 1) stop } =
      { removeFiles (start - first) { s with todo := stream.entries (start + 1) stop } with sequenceNumberUpdated := false } := by
    rw [trimFiles]
    dsimp only
    rw [if_pos updated, hindex]
  have hdropped : (removeFiles (start - first) { s with todo := stream.entries (start + 1) stop }).mediaFiles =
      stream.files start last := by
    rw [hfiles]
    dsimp only
    rw [hstored.files, stream.drop_files (by omega), Nat.add_sub_cancel' window.1]
  have hadd : addMediaFile (stream.uri start) isDiscontinuity { s with todo := stream.entries (start + 1) stop } =
      { removeFiles (start - first) { s with todo := stream.entries (start + 1) stop } with sequenceNumberUpdated := false } := by
    rw [addMediaFile, htrim]
    dsimp only
    rw [hdropped, if_pos (stream.mem_files.mpr ⟨Nat.le_refl start, window.2.1⟩)]
  rw [hadd]
  have hle := hstored.played_le
  refine ⟨⟨hdropped, by omega, hposition, by omega⟩, ⟨hreturned.trans hplays.returned, hplays.increasing, ?_, ?_⟩, ?_, ?_⟩
  · intro m hm
    have := hplays.below m hm
    omega
  · intro hpos
    rw [show start + (played - (start - first)) - 1 = first + played - 1 by omega]
    exact hplays.last (by omega)
  · have hmoved : Calls (played - (start - first)) (last - start) s := by
      cases hcalls with
      | idle consumer waiting permits => exact .idle consumer waiting permits
      | waiting consumer waiting permits => exact .waiting consumer waiting (by omega)
      | acquired consumer waiting permits more => exact .acquired consumer waiting permits (by omega)
      | ready consumer waiting permits more => exact .ready consumer waiting permits (by omega)
    exact hmoved.congr hconsumer hwaiting hpermits
  · exact .adding stop (start + 1) (hsnapshot.trans snapshot) htodo rfl ⟨by omega, by omega, by omega, by omega⟩
      ⟨by dsimp only; rw [hnumberStart]; exact numbers.1, Or.inr (hnumber.trans numbers.2)⟩

theorem live_add {first last played : Nat} {taken : List Nat} {s t : Playlist U}
    (hs : Live stream first last played taken s) (hpaced : Paced .addMediaFile s)
    (h : step stream .addMediaFile s = some t) : ∃ first last played, Live stream first last played taken t := by
  have hall := hs
  obtain ⟨hstored, hplays, hcalls, hloading⟩ := hs
  rw [step] at h
  cases hloading with
  | fresh snapshot todo numbers updated empty =>
    rw [todo] at h
    cases h
  | turning start stop snapshot todo updated window numbers =>
    rw [todo, stream.entries_cons (by omega)] at h
    cases h
    exact ⟨_, _, _, live_turn stream hall snapshot updated window numbers⟩
  | adding stop next snapshot todo updated window numbers =>
    obtain ⟨hfirst, hnext, hlast, hwindow⟩ := window
    by_cases hdone : stop ≤ next
    · rw [todo, stream.entries_eq_nil.mpr hdone] at h
      cases h
    · rw [todo, stream.entries_cons (by omega)] at h
      cases h
      have htrim : trimFiles (stream.uri next) { s with todo := stream.entries (next + 1) stop } =
          { s with todo := stream.entries (next + 1) stop } := by
        rw [trimFiles]
        dsimp only
        rw [updated, if_neg Bool.false_ne_true]
      rw [addMediaFile, htrim]
      dsimp only
      by_cases hin : stream.uri next ∈ s.mediaFiles
      · rw [if_pos hin]
        have hlt : next < last := by
          rw [hstored.files] at hin
          exact (stream.mem_files.mp hin).2
        exact ⟨first, last, played, ⟨hstored.files, hstored.le, hstored.index, hstored.played_le⟩,
          ⟨hplays.returned, hplays.increasing, hplays.below, hplays.last⟩, hcalls.congr rfl rfl rfl,
          .adding stop (next + 1) snapshot rfl updated ⟨by omega, by omega, by omega, by omega⟩ numbers⟩
      · -- the segment behind the stored ones is added
        rw [if_neg hin]
        have hend : next = last := by
          by_contra hne
          refine hin ?_
          rw [hstored.files]
          exact stream.mem_files.mpr ⟨hfirst, by omega⟩
        subst hend
        have hle := hstored.played_le
        refine ⟨first, next + 1, played, ⟨?_, by omega, hstored.index, by omega⟩,
          ⟨hplays.returned, hplays.increasing, hplays.below, hplays.last⟩, ?_,
          .adding stop (next + 1) snapshot rfl updated ⟨by omega, by omega, by omega, by omega⟩ numbers⟩
        · dsimp only
          rw [hstored.files, stream.files_append hfirst]
        · have hfresh : ∀ entry ∈ s.todo.head?, entry.1 ∉ s.mediaFiles := by
            intro entry hentry
            rw [todo, stream.entries_cons (by omega), List.head?_cons, Option.mem_some_iff] at hentry
            rw [← hentry]
            exact hin
          cases hcalls with
          | idle consumer waiting permits =>
            refine .idle consumer waiting ?_
            dsimp only
            rw [waiting, if_neg Bool.false_ne_true, permits]
          | waiting consumer waiting permits =>
            obtain ⟨hzero, -⟩ := hpaced waiting hfresh
            refine .waiting consumer waiting (Or.inr ⟨?_, by omega⟩)
            dsimp only
            rw [if_pos waiting, hzero]
          | acquired consumer waiting permits more => exact absurd consumer (hpaced waiting hfresh).2
          | ready consumer waiting permits more =>
            refine .ready consumer waiting ?_ (by omega)
            dsimp only
            rw [waiting, if_neg Bool.false_ne_true, permits]

/-! ## Steps of the consumer -/

omit [DecidableEq U] in
theorem Loading.congr {first last : Nat} {s t : Playlist U} (h : Loading stream first last s)
    (hsnapshot : t.snapshot = s.snapshot) (htodo : t.todo = s.todo)
    (hupdated : t.sequenceNumberUpdated = s.sequenceNumberUpdated) (hnumber : t.sequenceNumber = s.sequenceNumber)
    (hstart : t.sequenceNumberStart = s.sequenceNumberStart) : Loading stream first last t := by
  cases h with
  | fresh snapshot todo numbers updated empty =>
    exact .fresh (hsnapshot.trans snapshot) (htodo.trans todo) (by rw [hnumber, hstart]; exact numbers)
      (hupdated.trans updated) empty
  | turning start stop snapshot todo updated window numbers =>
    exact .turning start stop (hsnapshot.trans snapshot) (htodo.trans todo) (hupdated.trans updated) window
      (by rw [hnumber, hstart]; exact numbers)
  | adding stop next snapshot todo updated window numbers =>
    exact .adding stop next (hsnapshot.trans snapshot) (htodo.trans todo) (hupdated.trans updated) window
      (by rw [hnumber, hstart]; exact numbers)

theorem live_call {first last played : Nat} {taken : List Nat} {s t : Playlist U}
    (hs : Live stream first last played taken s) (h : step stream .getNextMediaFile s = some t) :
    Live stream first last played taken t := by
  obtain ⟨hstored, hplays, hcalls, hloading⟩ := hs
  rw [step] at h
  split at h
  · rename_i hidle
    cases h
    have hpermits : s.permits = 0 := by
      cases hcalls with
      | idle consumer waiting permits => exact permits
      | waiting consumer waiting permits => rw [hidle] at consumer; cases consumer
      | acquired consumer waiting permits more => rw [hidle] at consumer; cases consumer
      | ready consumer waiting permits more => exact permits
    have hlength : s.mediaFiles.length = last - first := by rw [hstored.files, Stream.files_length]
    have hle := hstored.played_le
    have hwaits : decide (s.mediaFileIndex + 1 ≥ (s.mediaFiles.length : Int)) = decide (last - first ≤ played) := by
      rw [hstored.index, hlength]
      exact decide_eq_decide.mpr (by omega)
    rw [hwaits]
    refine ⟨⟨hstored.files, hstored.le, hstored.index, hle⟩,
      ⟨hplays.returned, hplays.increasing, hplays.below, hplays.last⟩, ?_, hloading.congr stream rfl rfl rfl rfl rfl⟩
    by_cases hmore : last - first ≤ played
    · rw [decide_eq_true hmore]
      exact .waiting rfl rfl (Or.inl ⟨hpermits, by omega⟩)
    · rw [decide_eq_false hmore]
      exact .ready rfl rfl hpermits (by omega)
  · cases h

theorem live_acquire {first last played : Nat} {taken : List Nat} {s t : Playlist U}
    (hs : Live stream first last played taken s) (h : step stream .acquire s = some t) :
    Live stream first last played taken t := by
  obtain ⟨hstored, hplays, hcalls, hloading⟩ := hs
  rw [step] at h
  split at h
  · rename_i permits hconsumer hpermits
    cases h
    refine ⟨⟨hstored.files, hstored.le, hstored.index, hstored.played_le⟩,
      ⟨hplays.returned, hplays.increasing, hplays.below, hplays.last⟩, ?_, hloading.congr stream rfl rfl rfl rfl rfl⟩
    cases hcalls with
    | idle consumer waiting permits' => rw [hconsumer] at consumer; cases consumer
    | waiting consumer waiting permits' => exact .acquired rfl waiting (by dsimp only; omega) (by omega)
    | acquired consumer waiting permits' more => rw [hconsumer] at consumer; cases consumer
    | ready consumer waiting permits' more => rw [hconsumer] at consumer; cases consumer
  · cases h

theorem live_awake {first last played : Nat} {taken : List Nat} {s t : Playlist U}
    (hs : Live stream first last played taken s) (h : step stream .awake s = some t) :
    Live stream first last played taken t := by
  obtain ⟨hstored, hplays, hcalls, hloading⟩ := hs
  rw [step] at h
  split at h
  · rename_i hconsumer
    cases h
    refine ⟨⟨hstored.files, hstored.le, hstored.index, hstored.played_le⟩,
      ⟨hplays.returned, hplays.increasing, hplays.below, hplays.last⟩, ?_, hloading.congr stream rfl rfl rfl rfl rfl⟩
    cases hcalls with
    | idle consumer waiting permits => rw [hconsumer] at consumer; cases consumer
    | waiting consumer waiting permits => rw [hconsumer] at consumer; cases consumer
    | acquired consumer waiting permits more => exact .ready rfl rfl permits more
    | ready consumer waiting permits more => rw [hconsumer] at consumer; cases consumer
  · cases h

theorem live_take {first last played : Nat} {taken : List Nat} {s t : Playlist U}
    (hs : Live stream first last played taken s) (h : step stream .take s = some t) :
    Live stream first last (played + 1) (taken ++ [first + played]) t ∧
      t.returned = s.returned ++ [some (stream.uri (first + played))] := by
  obtain ⟨hstored, hplays, hcalls, hloading⟩ := hs
  rw [step] at h
  split at h
  · rename_i hconsumer
    cases h
    have hready : s.isLiveWaiting = false ∧ s.permits = 0 ∧ played < last - first := by
      cases hcalls with
      | idle consumer waiting permits => rw [hconsumer] at consumer; cases consumer
      | waiting consumer waiting permits => rw [hconsumer] at consumer; cases consumer
      | acquired consumer waiting permits more => rw [hconsumer] at consumer; cases consumer
      | ready consumer waiting permits more => exact ⟨waiting, permits, more⟩
    have hvalue : (if s.mediaFileIndex + 1 < (s.mediaFiles.length : Int) then s.mediaFiles[(s.mediaFileIndex + 1).toNat]?
        else none) = some (stream.uri (first + played)) := by
      rw [hstored.index, hstored.files, Stream.files_length, if_pos (by omega), Int.toNat_natCast,
        stream.getElem?_files hready.2.2]
    dsimp only
    rw [hvalue]
    refine ⟨⟨⟨hstored.files, hstored.le, ?_, by omega⟩, ⟨?_, ?_, ?_, ?_⟩, .idle rfl hready.1 hready.2.1,
      hloading.congr stream rfl rfl rfl rfl rfl⟩, rfl⟩
    · dsimp only
      rw [hstored.index]
      rfl
    · dsimp only
      rw [hplays.returned, List.map_append]
      rfl
    · refine List.pairwise_append.mpr ⟨hplays.increasing, List.pairwise_singleton _ _, ?_⟩
      intro m hm k hk
      rw [List.mem_singleton.mp hk]
      exact hplays.below m hm
    · intro m hm
      rcases List.mem_append.mp hm with hold | hnew
      · have := hplays.below m hold
        omega
      · rw [List.mem_singleton.mp hnew]
        omega
    · intro _
      exact List.mem_append_right _ (List.mem_singleton.mpr (by omega))
  · cases h

/-! ## Runs -/

omit [DecidableEq U] in
theorem live_new : Live stream 0 0 0 [] (new : Playlist U) :=
  ⟨⟨stream.files_self.symm, Nat.le_refl 0, rfl, Nat.le_refl 0⟩,
    ⟨rfl, List.Pairwise.nil, fun _ hm => absurd hm List.not_mem_nil, fun hpos => absurd hpos (Nat.lt_irrefl 0)⟩,
    .idle rfl rfl rfl, .fresh rfl rfl ⟨rfl, rfl⟩ rfl ⟨rfl, rfl⟩⟩

theorem live_step (a : Step) {s t : Playlist U} (hs : ∃ first last played taken, Live stream first last played taken s)
    (hpaced : Paced a s) (h : step stream a s = some t) :
    ∃ first last played taken, Live stream first last played taken t := by
  obtain ⟨first, last, played, taken, hs⟩ := hs
  cases a with
  | update start stop =>
    obtain ⟨first', last', hlive⟩ := live_update stream hs hpaced h
    exact ⟨first', last', _, taken, hlive⟩
  | addMediaFile =>
    obtain ⟨first', last', played', hlive⟩ := live_add stream hs hpaced h
    exact ⟨first', last', played', taken, hlive⟩
  | getNextMediaFile => exact ⟨first, last, played, taken, live_call stream hs h⟩
  | acquire => exact ⟨first, last, played, taken, live_acquire stream hs h⟩
  | awake => exact ⟨first, last, played, taken, live_awake stream hs h⟩
  | take => exact ⟨first, last, _, _, (live_take stream hs h).1⟩

omit [DecidableEq U] in
theorem Calls.woken {first last played : Nat} {s : Playlist U} (h : Calls played (last - first) s)
    (hstored : Stored stream first last played s) (hwaiting : s.consumer = .waiting)
    (hmore : s.mediaFileIndex + 1 < s.mediaFiles.length) : 0 < s.permits := by
  rw [hstored.index, hstored.files, Stream.files_length] at hmore
  cases h with
  | idle consumer waiting permits =>
    rw [hwaiting] at consumer
    cases consumer
  | waiting consumer waiting permits => omega
  | acquired consumer waiting permits more =>
    rw [hwaiting] at consumer
    cases consumer
  | ready consumer waiting permits more =>
    rw [hwaiting] at consumer
    cases consumer

omit [DecidableEq U] in
theorem Live.delivered {first last played : Nat} {taken : List Nat} {s : Playlist U}
    (hs : Live stream first last played taken s) : Delivered stream taken s := by
  obtain ⟨hstored, hplays, hcalls, hloading⟩ := hs
  refine ⟨hplays.returned, hplays.increasing, ?_, hcalls.woken stream hstored⟩
  intro hdone start stop hsnapshot j hstart hstop
  cases hloading with
  | fresh snapshot todo numbers updated empty =>
    rw [snapshot] at hsnapshot
    cases hsnapshot
  | turning start' stop' snapshot todo updated window numbers =>
    rw [todo, Stream.entries_eq_nil] at hdone
    omega
  | adding stop' next snapshot todo updated window numbers =>
    rw [snapshot] at hsnapshot
    cases hsnapshot
    rw [todo, Stream.entries_eq_nil] at hdone
    have hlast : last = stop := by omega
    subst hlast
    refine ⟨j - first, ?_, ?_⟩
    · rw [hstored.files, stream.getElem?_files (by omega), Nat.add_sub_cancel' hstart]
    · intro hnew
      have hindex := hstored.index
      by_cases hplayed : played = 0
      · omega
      · have := hnew _ (hplays.last (by omega))
        omega

theorem Live.skips {first last played : Nat} {taken : List Nat} {s t : Playlist U}
    (hs : Live stream first last played taken s) (h : step stream .take s = some t) : Skips stream taken s t := by
  refine ⟨first + played, (live_take stream hs h).2, ?_⟩
  obtain ⟨-, hplays, -, hloading⟩ := hs
  intro j hj hnew start stop hsnapshot
  have hplayed : played = 0 := by
    by_contra hne
    have := hnew _ (hplays.last (by omega))
    omega
  cases hloading with
  | fresh snapshot todo numbers updated empty =>
    rw [snapshot] at hsnapshot
    cases hsnapshot
  | turning start' stop' snapshot todo updated window numbers =>
    rw [snapshot] at hsnapshot
    cases hsnapshot
    omega
  | adding stop' next snapshot todo updated window numbers =>
    rw [snapshot] at hsnapshot
    cases hsnapshot
    omega

/-- In a run whose updates are paced the segments are delivered in order, and the consumer
is never told that there are no more. -/
theorem delivered_in_order {as : List Step} {s : Playlist U} (hpaced : Abides Paced (step stream) as new)
    (hrun : execute (step stream) as new = some s) :
    ∃ taken, Delivered stream taken s ∧ ∀ t, step stream .take s = some t → Skips stream taken s t := by
  obtain ⟨first, last, played, taken, hlive⟩ := execute_invariant (fun a u v hu hguard hstep => live_step stream a hu hguard hstep)
    ⟨0, 0, 0, [], live_new stream⟩ hpaced hrun
  exact ⟨taken, hlive.delivered stream, fun t ht => hlive.skips stream ht⟩

end Playlist

def numbered : Stream Nat := ⟨id, fun _ => false, Function.injective_id⟩

namespace Playlist

/-- The window moves by one segment while the consumer waits. -/
theorem delivered_in_order_moved :
    ∃ s, execute (step numbered) [.update 0 1, .addMediaFile, .getNextMediaFile, .take, .getNextMediaFile, .update 0 2,
        .addMediaFile, .addMediaFile, .acquire, .awake] new = some s ∧
      ∃ taken, Delivered numbered taken s ∧ ∀ t, step numbered .take s = some t → Skips numbered taken s t := by
  refine ⟨_, rfl, ?_⟩
  exact @delivered_in_order Nat _ numbered [.update 0 1, .addMediaFile, .getNextMediaFile, .take, .getNextMediaFile,
    .update 0 2, .addMediaFile, .addMediaFile, .acquire, .awake] _ (by decide) rfl

/-- A window that grows twice at its end: the last segment is not loaded.  And two segments
that are added while the consumer waits: a later call returns null. -/
theorem grown_window_missed_and_null_returned :
    (∃ s : Playlist Nat, execute (step numbered) [.update 0 1, .addMediaFile, .update 0 2, .addMediaFile, .addMediaFile,
        .update 0 3] new = some s ∧ s.todo = [] ∧ s.snapshot = some (0, 3) ∧ numbered.uri 2 ∉ s.mediaFiles) ∧
    ∃ s : Playlist Nat, execute (step numbered) [.update 0 1, .addMediaFile, .getNextMediaFile, .take, .getNextMediaFile,
        .update 0 3, .addMediaFile, .addMediaFile, .addMediaFile, .acquire, .awake, .take, .getNextMediaFile, .take,
        .getNextMediaFile, .acquire, .awake, .take] new = some s ∧
      s.returned = [some 0, some 1, some 2, none] := by
  constructor
  · exact ⟨_, rfl, rfl, rfl, by decide⟩
  · exact ⟨_, rfl, rfl⟩

end Playlist
end OpenJfx.Media
