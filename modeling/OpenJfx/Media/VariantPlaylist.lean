import OpenJfx.Lib.Java

/-! # `VariantPlaylist`

A playlist is known by the entry it was loaded from.  `load` says what comes of a location:
`none` when it is no valid URI, else the extension of the media files, if there is one. -/
set_option autoImplicit false
namespace OpenJfx.Media

/-- What `addPlaylistInfo` is called with. -/
structure VariantEntry (L : Type) where
  location : L
  bitrate : Int
deriving DecidableEq, Repr

structure VariantPlaylist (L E : Type) where
  infoIndex : Int
  playlistsLocations : List L
  playlistsBitrates : List Int
  playlists : List (VariantEntry L)
  mediaFileExtension : Option E

namespace VariantPlaylist
section Loading
variable {L E : Type} [DecidableEq E]

def new : VariantPlaylist L E := ⟨-1, [], [], [], none⟩

def addPlaylistInfo (entry : VariantEntry L) (v : VariantPlaylist L E) : VariantPlaylist L E :=
  { v with
    playlistsLocations := v.playlistsLocations ++ [entry.location]
    playlistsBitrates := v.playlistsBitrates ++ [entry.bitrate] }

def addPlaylist (playlist : VariantEntry L) (extension : Option E) (v : VariantPlaylist L E) : VariantPlaylist L E :=
  match v.mediaFileExtension with
  | none => { v with mediaFileExtension := extension, playlists := v.playlists ++ [playlist] }
  | some mediaFileExtension =>
      if some mediaFileExtension ≠ extension then
        { v with
          playlistsLocations := v.playlistsLocations.eraseIdx v.infoIndex.toNat
          playlistsBitrates := v.playlistsBitrates.eraseIdx v.infoIndex.toNat
          infoIndex := v.infoIndex - 1 }
      else { v with playlists := v.playlists ++ [playlist] }

/-- `hasNext` moves the index on. -/
def next (v : VariantPlaylist L E) : VariantPlaylist L E := { v with infoIndex := v.infoIndex + 1 }

def info (v : VariantPlaylist L E) : Option (VariantEntry L) :=
  match v.playlistsLocations[v.infoIndex.toNat]?, v.playlistsBitrates[v.infoIndex.toNat]? with
  | some location, some bitrate => some ⟨location, bitrate⟩
  | _, _ => none

/-- The loop of `stateInit` that loads the playlists; `turns` bounds its turns. -/
def update (load : L → Option (Option E)) : Nat → VariantPlaylist L E → VariantPlaylist L E
  | 0, v => v
  | turns + 1, v =>
      match v.next.info with
      | none => v.next
      | some entry => match load entry.location with
          | none => update load turns v.next
          | some extension => update load turns (v.next.addPlaylist entry extension)

/-- `stateInit` for a variant playlist. -/
def stateInit (load : L → Option (Option E)) (entries : List (VariantEntry L)) : VariantPlaylist L E :=
  update load (entries.length + 1) (entries.foldl (fun v entry => v.addPlaylistInfo entry) new)

end Loading

/-- The first loop of `getPlaylistBasedOnBitrate`, from the bitrate at index `i` on. -/
def pickBelow (bitrate : Int) : Int → Int → Int → List Int → Int × Int
  | _, playlistIndex, playlistBitrate, [] => (playlistIndex, playlistBitrate)
  | i, playlistIndex, playlistBitrate, b :: rest =>
      if b < bitrate then
        if playlistIndex ≠ -1 then
          if b > playlistBitrate then pickBelow bitrate (i + 1) i b rest
          else pickBelow bitrate (i + 1) playlistIndex playlistBitrate rest
        else pickBelow bitrate (i + 1) i playlistBitrate rest
      else pickBelow bitrate (i + 1) playlistIndex playlistBitrate rest

/-- The second loop. -/
def pickLowest : Int → Int → Int → List Int → Int
  | _, playlistIndex, _, [] => playlistIndex
  | i, playlistIndex, playlistBitrate, b :: rest =>
      if b < playlistBitrate ∨ playlistIndex = -1 then pickLowest (i + 1) i b rest
      else pickLowest (i + 1) playlistIndex playlistBitrate rest

def pick (bitrate : Int) (bitrates : List Int) : Int :=
  let below := pickBelow bitrate 0 (-1) 0 bitrates
  if below.1 = -1 then pickLowest 0 (-1) below.2 bitrates else below.1

section Loading
variable {L E : Type} [DecidableEq E]

def getPlaylistBasedOnBitrate (bitrate : Int) (v : VariantPlaylist L E) : Option (VariantEntry L) :=
  let playlistIndex := pick bitrate v.playlistsBitrates
  if playlistIndex < 0 ∨ playlistIndex ≥ v.playlists.length then none else v.playlists[playlistIndex.toNat]?

/-! ## What is loaded -/

/-- The extension of the first playlist that can be loaded, unless one is known already. -/
def extensionOf (load : L → Option (Option E)) (known : Option E) (entries : List (VariantEntry L)) : Option E :=
  known.or (entries.findSome? fun entry => (load entry.location).join)

/-- The entry has a valid URI and the extension `x`. -/
def Usable (load : L → Option (Option E)) (x : Option E) (entry : VariantEntry L) : Prop :=
  load entry.location ≠ none ∧ load entry.location = some x

def Invalid (load : L → Option (Option E)) (entry : VariantEntry L) : Prop := load entry.location = none

instance (load : L → Option (Option E)) (x : Option E) (entry : VariantEntry L) : Decidable (Usable load x entry) :=
  inferInstanceAs (Decidable (_ ∧ _))

instance (load : L → Option (Option E)) (entry : VariantEntry L) : Decidable (Invalid load entry) :=
  inferInstanceAs (Decidable (_ = _))

def usable (load : L → Option (Option E)) (x : Option E) (entries : List (VariantEntry L)) : List (VariantEntry L) :=
  entries.filter fun entry => decide (Usable load x entry)

/-- The entries that stay in the lists of the locations and bitrates. -/
def kept (load : L → Option (Option E)) (x : Option E) (entries : List (VariantEntry L)) : List (VariantEntry L) :=
  entries.filter fun entry => decide (Usable load x entry ∨ Invalid load entry)

omit [DecidableEq E] in
theorem addPlaylistInfo_spec (entries : List (VariantEntry L)) (v : VariantPlaylist L E) :
    entries.foldl (fun v entry => v.addPlaylistInfo entry) v =
      { v with
        playlistsLocations := v.playlistsLocations ++ entries.map VariantEntry.location
        playlistsBitrates := v.playlistsBitrates ++ entries.map VariantEntry.bitrate } := by
  induction entries generalizing v with
  | nil => simp
  | cons entry entries ih =>
    rw [List.foldl_cons, ih, addPlaylistInfo]
    simp

/-- The playlist in the turn for `rest`, when `done` is what the turns before have left. -/
def At (known : Option E) (done rest playlists : List (VariantEntry L)) : VariantPlaylist L E :=
  ⟨done.length, (done ++ rest).map VariantEntry.location, (done ++ rest).map VariantEntry.bitrate, playlists, known⟩

def Between (known : Option E) (done rest playlists : List (VariantEntry L)) : VariantPlaylist L E :=
  { At known done rest playlists with infoIndex := (done.length : Int) - 1 }

omit [DecidableEq E] in
theorem next_between (known : Option E) (done rest playlists : List (VariantEntry L)) :
    (Between known done rest playlists).next = At known done rest playlists := by
  rw [next, Between, At]
  simp

omit [DecidableEq E] in
theorem at_cons (known : Option E) (done rest playlists : List (VariantEntry L)) (entry : VariantEntry L) :
    At known done (entry :: rest) playlists = Between known (done ++ [entry]) rest playlists := by
  simp [At, Between]

omit [DecidableEq E] in
theorem info_at (known : Option E) (done rest playlists : List (VariantEntry L)) :
    (At known done rest playlists).info = rest.head? := by
  rw [info, At]
  dsimp only
  rw [Int.toNat_natCast, List.getElem?_map, List.getElem?_map, List.getElem?_append_right (Nat.le_refl _), Nat.sub_self]
  cases rest with
  | nil => rfl
  | cons entry rest => rfl

theorem update_spec {load : L → Option (Option E)} {rest : List (VariantEntry L)}
    (hextension : ∀ entry ∈ rest, load entry.location ≠ some none) (known : Option E) (done playlists : List (VariantEntry L))
    {turns : Nat} (hturns : rest.length < turns) :
    ∃ v, update load turns (Between known done rest playlists) = v ∧
      v.playlistsBitrates = (done ++ kept load (extensionOf load known rest) rest).map VariantEntry.bitrate ∧
      v.playlists = playlists ++ usable load (extensionOf load known rest) rest := by
  induction rest generalizing known done playlists turns with
  | nil =>
    obtain ⟨turns, rfl⟩ : ∃ n, turns = n + 1 := ⟨turns - 1, by omega⟩
    rw [update, next_between, info_at]
    exact ⟨_, rfl, rfl, (List.append_nil _).symm⟩
  | cons entry rest ih =>
    obtain ⟨turns, rfl⟩ : ∃ n, turns = n + 1 := ⟨turns - 1, by omega⟩
    rw [List.length_cons] at hturns
    have hrest := fun e he => hextension e (List.mem_cons_of_mem _ he)
    rw [update, next_between, info_at, List.head?_cons]
    dsimp only
    cases hload : load entry.location with
    | none =>
      dsimp only
      obtain ⟨v, hv, hbitrates, hplaylists⟩ := ih hrest known (done ++ [entry]) playlists (by omega : rest.length < turns)
      have htarget : extensionOf load known (entry :: rest) = extensionOf load known rest := by
        simp [extensionOf, hload]
      refine ⟨v, by rw [← hv, at_cons], ?_, ?_⟩
      · rw [hbitrates, htarget, List.append_assoc, kept, kept, List.filter_cons_of_pos (by simp [Invalid, hload])]
        rfl
      · rw [hplaylists, htarget, usable, usable, List.filter_cons_of_neg (by simp [Usable, hload])]
    | some extension =>
      dsimp only
      obtain ⟨x, rfl⟩ : ∃ x, extension = some x := by
        cases extension with
        | none => exact absurd hload (hextension entry (List.mem_cons_self ..))
        | some x => exact ⟨x, rfl⟩
      have htaken : ∀ y, y = x → extensionOf load (some y) rest = extensionOf load known (entry :: rest) →
          ∃ v, update load turns (Between (some y) (done ++ [entry]) rest (playlists ++ [entry])) = v ∧
            v.playlistsBitrates = (done ++ kept load (extensionOf load known (entry :: rest)) (entry :: rest)).map
              VariantEntry.bitrate ∧
            v.playlists = playlists ++ usable load (extensionOf load known (entry :: rest)) (entry :: rest) := by
        intro y hy htarget
        obtain ⟨v, hv, hbitrates, hplaylists⟩ :=
          ih hrest (some y) (done ++ [entry]) (playlists ++ [entry]) (by omega : rest.length < turns)
        have hx : extensionOf load known (entry :: rest) = some x := by
          rw [← htarget, hy]
          rfl
        refine ⟨v, hv, ?_, ?_⟩
        · rw [hbitrates, htarget, List.append_assoc, hx, kept, kept,
            List.filter_cons_of_pos (by simp [Usable, hload])]
          rfl
        · rw [hplaylists, htarget, List.append_assoc, hx, usable, usable,
            List.filter_cons_of_pos (by simp [Usable, hload])]
          rfl
      cases known with
      | none =>
        obtain ⟨v, hv, hresult⟩ := htaken x rfl (by simp [extensionOf, hload])
        refine ⟨v, ?_, hresult⟩
        rw [← hv, at_cons]
        rfl
      | some y =>
        by_cases hsame : y = x
        · obtain ⟨v, hv, hresult⟩ := htaken y hsame rfl
          refine ⟨v, ?_, hresult⟩
          rw [← hv, at_cons, addPlaylist]
          simp [Between, At, hsame]
        · obtain ⟨v, hv, hbitrates, hplaylists⟩ := ih hrest (some y) done playlists (by omega : rest.length < turns)
          have herase : ∀ {β : Type} (g : VariantEntry L → β),
              ((done ++ entry :: rest).map g).eraseIdx done.length = (done ++ rest).map g := by
            intro β g
            rw [List.map_append, List.eraseIdx_append_of_length_le (by simp), List.length_map, Nat.sub_self,
              List.map_append]
            rfl
          refine ⟨v, ?_, ?_, ?_⟩
          · rw [← hv, addPlaylist]
            simp only [At, Between, ne_eq, Option.some.injEq, hsame, not_false_eq_true, if_true, Int.toNat_natCast,
              herase]
          · have hdrop : ¬ (Usable load (some y) entry ∨ Invalid load entry) := by
              simp [Usable, Invalid, hload, Ne.symm hsame]
            rw [hbitrates, kept, kept]
            change _ = ((done ++ List.filter _ (entry :: rest)).map _)
            rw [List.filter_cons_of_neg (by rw [decide_eq_true_eq]; exact hdrop)]
            rfl
          · have hdrop : ¬ Usable load (some y) entry := by
              simp [Usable, hload, Ne.symm hsame]
            rw [hplaylists, usable, usable, List.filter_cons_of_neg (by rw [decide_eq_true_eq]; exact hdrop)]
            rfl

theorem stateInit_spec {load : L → Option (Option E)} {entries : List (VariantEntry L)}
    (hextension : ∀ entry ∈ entries, load entry.location ≠ some none) :
    (stateInit load entries).playlistsBitrates =
        (kept load (extensionOf load none entries) entries).map VariantEntry.bitrate ∧
      (stateInit load entries).playlists = usable load (extensionOf load none entries) entries := by
  obtain ⟨v, hv, hbitrates, hplaylists⟩ := update_spec hextension none [] [] (Nat.lt_succ_self entries.length)
  rw [stateInit, addPlaylistInfo_spec]
  change (update load (entries.length + 1) (Between none [] entries [])).playlistsBitrates = _ ∧
    (update load (entries.length + 1) (Between none [] entries [])).playlists = _
  rw [hv]
  exact ⟨hbitrates, hplaylists⟩

end Loading

/-! ## What is picked -/

theorem pickBelow_taken {bitrate i playlistIndex playlistBitrate : Int} {bitrates : List Int} (hi : 0 ≤ i)
    (hindex : playlistIndex ≠ -1) :
    (pickBelow bitrate i playlistIndex playlistBitrate bitrates = (playlistIndex, playlistBitrate) ∧
      ∀ b ∈ bitrates, b < bitrate → b ≤ playlistBitrate) ∨
    ∃ front r back, bitrates = front ++ r :: back ∧ playlistBitrate < r ∧ r < bitrate ∧
      pickBelow bitrate i playlistIndex playlistBitrate bitrates = (i + front.length, r) ∧
      ∀ b ∈ bitrates, b < bitrate → b ≤ r := by
  induction bitrates generalizing i playlistIndex playlistBitrate with
  | nil => exact Or.inl ⟨rfl, fun _ h => absurd h List.not_mem_nil⟩
  | cons b rest ih =>
    have hskip : (b < bitrate → b ≤ playlistBitrate) →
        pickBelow bitrate i playlistIndex playlistBitrate (b :: rest) =
          pickBelow bitrate (i + 1) playlistIndex playlistBitrate rest := by
      intro hle
      by_cases hbelow : b < bitrate
      · rw [pickBelow, if_pos hbelow, if_pos hindex, if_neg (by omega)]
      · rw [pickBelow, if_neg hbelow]
    by_cases htake : b < bitrate ∧ playlistBitrate < b
    · have hpick : pickBelow bitrate i playlistIndex playlistBitrate (b :: rest) = pickBelow bitrate (i + 1) i b rest := by
        rw [pickBelow, if_pos htake.1, if_pos hindex, if_pos htake.2]
      rw [hpick]
      refine Or.inr ?_
      rcases @ih (i + 1) i b (by omega) (by omega) with ⟨hpicked, hall⟩ | ⟨front, r, back, hsplit, hlt, hbelow, hpicked, hall⟩
      · refine ⟨[], b, rest, rfl, htake.2, htake.1, by rw [hpicked]; simp, fun x hx hxlt => ?_⟩
        rcases List.mem_cons.mp hx with rfl | hlater
        · exact Int.le_refl _
        · exact hall x hlater hxlt
      · refine ⟨b :: front, r, back, by rw [hsplit]; rfl, by omega, hbelow, ?_, fun x hx hxlt => ?_⟩
        · rw [hpicked, List.length_cons]
          congr 1
          push_cast
          omega
        · rcases List.mem_cons.mp hx with rfl | hlater
          · omega
          · exact hall x hlater hxlt
    · rw [hskip (by omega)]
      rcases @ih (i + 1) playlistIndex playlistBitrate (by omega) hindex with
        ⟨hpicked, hall⟩ | ⟨front, r, back, hsplit, hlt, hbelow, hpicked, hall⟩
      · refine Or.inl ⟨hpicked, fun x hx hxlt => ?_⟩
        rcases List.mem_cons.mp hx with rfl | hlater
        · omega
        · exact hall x hlater hxlt
      · refine Or.inr ⟨b :: front, r, back, by rw [hsplit]; rfl, hlt, hbelow, ?_, fun x hx hxlt => ?_⟩
        · rw [hpicked, List.length_cons]
          congr 1
          push_cast
          omega
        · rcases List.mem_cons.mp hx with rfl | hlater
          · omega
          · exact hall x hlater hxlt

theorem pickBelow_first {bitrate : Int} (front : List Int) {first : Int} (back : List Int) (i : Int)
    (hfront : ∀ b ∈ front, bitrate ≤ b) (hfirst : first < bitrate) :
    pickBelow bitrate i (-1) 0 (front ++ first :: back) =
      pickBelow bitrate (i + front.length + 1) (i + front.length) 0 back := by
  induction front generalizing i with
  | nil =>
    rw [List.nil_append, pickBelow, if_pos hfirst, if_neg (by simp)]
    simp
  | cons b front ih =>
    have hb := hfront b (List.mem_cons_self ..)
    rw [List.cons_append, pickBelow, if_neg (by omega), ih (i + 1) fun x hx => hfront x (List.mem_cons_of_mem _ hx),
      List.length_cons]
    congr 1
    · push_cast
      omega
    · push_cast
      omega

theorem pickBelow_none {bitrate : Int} {bitrates : List Int} (i : Int) (h : ∀ b ∈ bitrates, bitrate ≤ b) :
    pickBelow bitrate i (-1) 0 bitrates = (-1, 0) := by
  induction bitrates generalizing i with
  | nil => rfl
  | cons b rest ih =>
    have hb := h b (List.mem_cons_self ..)
    rw [pickBelow, if_neg (by omega)]
    exact ih (i + 1) fun x hx => h x (List.mem_cons_of_mem _ hx)

theorem pickLowest_taken {i playlistIndex playlistBitrate : Int} {bitrates : List Int} (hi : 0 ≤ i)
    (hindex : playlistIndex ≠ -1) :
    (pickLowest i playlistIndex playlistBitrate bitrates = playlistIndex ∧ ∀ b ∈ bitrates, playlistBitrate ≤ b) ∨
    ∃ front r back, bitrates = front ++ r :: back ∧ r < playlistBitrate ∧
      pickLowest i playlistIndex playlistBitrate bitrates = i + front.length ∧ ∀ b ∈ bitrates, r ≤ b := by
  induction bitrates generalizing i playlistIndex playlistBitrate with
  | nil => exact Or.inl ⟨rfl, fun _ h => absurd h List.not_mem_nil⟩
  | cons b rest ih =>
    by_cases htake : b < playlistBitrate
    · rw [pickLowest, if_pos (Or.inl htake)]
      refine Or.inr ?_
      rcases @ih (i + 1) i b (by omega) (by omega) with ⟨hpicked, hall⟩ | ⟨front, r, back, hsplit, hlt, hpicked, hall⟩
      · refine ⟨[], b, rest, rfl, htake, by rw [hpicked]; simp, fun x hx => ?_⟩
        rcases List.mem_cons.mp hx with rfl | hlater
        · exact Int.le_refl _
        · exact hall x hlater
      · refine ⟨b :: front, r, back, by rw [hsplit]; rfl, by omega, ?_, fun x hx => ?_⟩
        · rw [hpicked, List.length_cons]
          push_cast
          omega
        · rcases List.mem_cons.mp hx with rfl | hlater
          · omega
          · exact hall x hlater
    · rw [pickLowest, if_neg (by omega)]
      rcases @ih (i + 1) playlistIndex playlistBitrate (by omega) hindex with
        ⟨hpicked, hall⟩ | ⟨front, r, back, hsplit, hlt, hpicked, hall⟩
      · refine Or.inl ⟨hpicked, fun x hx => ?_⟩
        rcases List.mem_cons.mp hx with rfl | hlater
        · omega
        · exact hall x hlater
      · refine Or.inr ⟨b :: front, r, back, by rw [hsplit]; rfl, hlt, ?_, fun x hx => ?_⟩
        · rw [hpicked, List.length_cons]
          push_cast
          omega
        · rcases List.mem_cons.mp hx with rfl | hlater
          · omega
          · exact hall x hlater

theorem pick_lowest {bitrate : Int} {bitrates : List Int} (hne : bitrates ≠ []) (h : ∀ b ∈ bitrates, bitrate ≤ b) :
    ∃ front r back, bitrates = front ++ r :: back ∧ pick bitrate bitrates = front.length ∧ ∀ b ∈ bitrates, r ≤ b := by
  obtain ⟨first, rest, rfl⟩ := List.exists_cons_of_ne_nil hne
  rw [pick, pickBelow_none 0 h]
  dsimp only
  rw [if_pos rfl, pickLowest, if_pos (Or.inr rfl)]
  rcases @pickLowest_taken (0 + 1) 0 first rest (by decide) (by decide) with
    ⟨hpicked, hall⟩ | ⟨front, r, back, hsplit, hlt, hpicked, hall⟩
  · refine ⟨[], first, rest, rfl, by rw [hpicked]; rfl, fun b hb => ?_⟩
    rcases List.mem_cons.mp hb with rfl | hlater
    · exact Int.le_refl _
    · exact hall b hlater
  · refine ⟨first :: front, r, back, by rw [hsplit]; rfl, ?_, fun b hb => ?_⟩
    · rw [hpicked, List.length_cons]
      push_cast
      omega
    · rcases List.mem_cons.mp hb with rfl | hlater
      · omega
      · exact hall b hlater

theorem pick_below {bitrate first : Int} {front back : List Int} (hpositive : ∀ b ∈ back, 1 ≤ b)
    (hfront : ∀ b ∈ front, bitrate ≤ b) (hfirst : first < bitrate) :
    ((∀ b ∈ back, bitrate ≤ b) ∧ pick bitrate (front ++ first :: back) = front.length) ∨
    ∃ front' r back', back = front' ++ r :: back' ∧ r < bitrate ∧ (∀ b ∈ back, b < bitrate → b ≤ r) ∧
      pick bitrate (front ++ first :: back) = front.length + 1 + front'.length := by
  rw [pick, pickBelow_first front back 0 hfront hfirst]
  rcases @pickBelow_taken bitrate (0 + front.length + 1) (0 + front.length) 0 back (by omega) (by omega) with
    ⟨hpicked, hall⟩ | ⟨front', r, back', hsplit, hlt, hbelow, hpicked, hall⟩
  · rw [hpicked]
    dsimp only
    rw [if_neg (by omega)]
    refine Or.inl ⟨fun b hb => ?_, by omega⟩
    by_contra hless
    have := hall b hb (by omega)
    have := hpositive b hb
    omega
  · rw [hpicked]
    dsimp only
    rw [if_neg (by omega)]
    exact Or.inr ⟨front', r, back', hsplit, hbelow, hall, by omega⟩

/-! ## The playlist that is returned -/

section Loading
variable {L E : Type} [DecidableEq E]

/-- The entries whose playlists can be used. -/
def usableOf (load : L → Option (Option E)) (entries : List (VariantEntry L)) : List (VariantEntry L) :=
  usable load (extensionOf load none entries) entries

/-- The bitrate of `entry` is the largest one below `bitrate`, or, if none is below, the smallest one. -/
def Best (us : List (VariantEntry L)) (bitrate : Int) (entry : VariantEntry L) : Prop :=
  ((∃ u ∈ us, u.bitrate < bitrate) → entry.bitrate < bitrate ∧ ∀ u ∈ us, u.bitrate < bitrate → u.bitrate ≤ entry.bitrate) ∧
  ((∀ u ∈ us, bitrate ≤ u.bitrate) → ∀ u ∈ us, entry.bitrate ≤ u.bitrate)

/-- What is returned for `bitrate` is the documented playlist, or nothing where none can be used. -/
def Right (load : L → Option (Option E)) (entries : List (VariantEntry L)) (bitrate : Int) : Prop :=
  (usableOf load entries = [] → getPlaylistBasedOnBitrate bitrate (stateInit load entries) = none) ∧
  (usableOf load entries ≠ [] → ∃ entry ∈ usableOf load entries,
    getPlaylistBasedOnBitrate bitrate (stateInit load entries) = some entry ∧ Best (usableOf load entries) bitrate entry)

/-- At least two are below `bitrate`, and the first one of these is larger than all the others. -/
def FirstLargest (bitrate : Int) (us : List (VariantEntry L)) : Prop :=
  ∃ front first back, us = front ++ first :: back ∧ (∀ u ∈ front, bitrate ≤ u.bitrate) ∧ first.bitrate < bitrate ∧
    (∃ u ∈ back, u.bitrate < bitrate) ∧ ∀ u ∈ back, u.bitrate < bitrate → u.bitrate < first.bitrate

omit [DecidableEq E] in
theorem getPlaylistBasedOnBitrate_at {bitrate : Int} {v : VariantPlaylist L E} {front back : List (VariantEntry L)}
    {entry : VariantEntry L} (hplaylists : v.playlists = front ++ entry :: back)
    (hpick : pick bitrate v.playlistsBitrates = front.length) :
    getPlaylistBasedOnBitrate bitrate v = some entry := by
  rw [getPlaylistBasedOnBitrate, hpick, hplaylists, if_neg]
  · simp
  · simp

theorem map_split {us : List (VariantEntry L)} {front back : List Int} {r : Int}
    (h : us.map VariantEntry.bitrate = front ++ r :: back) :
    ∃ us₁ u us₂, us = us₁ ++ u :: us₂ ∧ us₁.map VariantEntry.bitrate = front ∧ u.bitrate = r ∧
      us₂.map VariantEntry.bitrate = back := by
  obtain ⟨us₁, rest, hus, hfront, hrest⟩ := List.map_eq_append_iff.mp h
  obtain ⟨u, us₂, rfl, hr, hback⟩ := List.map_eq_cons_iff.mp hrest
  exact ⟨us₁, u, us₂, hus, hfront, hr, hback⟩

theorem first_below {bitrate : Int} {us : List (VariantEntry L)} (h : ∃ u ∈ us, u.bitrate < bitrate) :
    ∃ front first back, us = front ++ first :: back ∧ (∀ u ∈ front, bitrate ≤ u.bitrate) ∧ first.bitrate < bitrate := by
  induction us with
  | nil => simp at h
  | cons u us ih =>
    by_cases hu : u.bitrate < bitrate
    · exact ⟨[], u, us, rfl, by simp, hu⟩
    · obtain ⟨v, hv, hlt⟩ := h
      have hlater : v ∈ us := by
        rcases List.mem_cons.mp hv with rfl | hlater
        · exact absurd hlt hu
        · exact hlater
      obtain ⟨front, first, back, hsplit, hfront, hfirst⟩ := ih ⟨v, hlater, hlt⟩
      refine ⟨u :: front, first, back, by rw [hsplit]; rfl, fun x hx => ?_, hfirst⟩
      rcases List.mem_cons.mp hx with rfl | hx
      · omega
      · exact hfront x hx

omit [DecidableEq E] in
/-- Where the lists are parallel, the playlist of an entry below `bitrate` is returned: the first such one when there is
no other, else the first one of the largest behind it. -/
theorem returned_below {bitrate : Int} {v : VariantPlaylist L E} {front back : List (VariantEntry L)}
    {first : VariantEntry L} (hplaylists : v.playlists = front ++ first :: back)
    (hbitrates : v.playlistsBitrates = v.playlists.map VariantEntry.bitrate) (hpositive : ∀ u ∈ back, 1 ≤ u.bitrate)
    (hfront : ∀ u ∈ front, bitrate ≤ u.bitrate) (hfirst : first.bitrate < bitrate) :
    ((∀ u ∈ back, bitrate ≤ u.bitrate) ∧ getPlaylistBasedOnBitrate bitrate v = some first) ∨
    ∃ entry ∈ back, entry.bitrate < bitrate ∧ (∀ u ∈ back, u.bitrate < bitrate → u.bitrate ≤ entry.bitrate) ∧
      getPlaylistBasedOnBitrate bitrate v = some entry := by
  have hlist : v.playlistsBitrates =
      front.map VariantEntry.bitrate ++ first.bitrate :: back.map VariantEntry.bitrate := by
    rw [hbitrates, hplaylists, List.map_append, List.map_cons]
  rcases @pick_below bitrate first.bitrate (front.map VariantEntry.bitrate) (back.map VariantEntry.bitrate)
    (by simpa using hpositive) (by simpa using hfront) hfirst with ⟨hall, hpick⟩ | ⟨front', r, back', hsplit, hlt, hall, hpick⟩
  · refine Or.inl ⟨by simpa using hall, getPlaylistBasedOnBitrate_at hplaylists ?_⟩
    rw [hlist, hpick, List.length_map]
  · obtain ⟨us₁, u, us₂, rfl, hfront', hr, -⟩ := map_split hsplit
    refine Or.inr ⟨u, by simp, by rw [hr]; exact hlt, fun x hx hxlt => ?_, ?_⟩
    · rw [hr]
      exact hall x.bitrate (List.mem_map_of_mem hx) hxlt
    · refine @getPlaylistBasedOnBitrate_at L E bitrate v (front ++ first :: us₁) us₂ u ?_ ?_
      · rw [hplaylists]
        simp
      · rw [hlist, hpick, ← hfront']
        simp
        omega

omit [DecidableEq E] in
theorem returned_lowest {bitrate : Int} {v : VariantPlaylist L E} (hne : v.playlists ≠ [])
    (hbitrates : v.playlistsBitrates = v.playlists.map VariantEntry.bitrate)
    (hall : ∀ u ∈ v.playlists, bitrate ≤ u.bitrate) :
    ∃ entry ∈ v.playlists, getPlaylistBasedOnBitrate bitrate v = some entry ∧
      ∀ u ∈ v.playlists, entry.bitrate ≤ u.bitrate := by
  obtain ⟨front, r, back, hsplit, hpick, hlowest⟩ :=
    @pick_lowest bitrate (v.playlists.map VariantEntry.bitrate) (by simpa using hne) (by simpa using hall)
  obtain ⟨us₁, u, us₂, hus, hfront, hr, -⟩ := map_split hsplit
  refine ⟨u, by rw [hus]; simp, getPlaylistBasedOnBitrate_at hus ?_, fun x hx => ?_⟩
  · rw [hbitrates, hpick, ← hfront, List.length_map]
  · rw [hr]
    exact hlowest x.bitrate (List.mem_map_of_mem hx)

theorem right_iff {load : L → Option (Option E)} {entries : List (VariantEntry L)} {bitrate : Int}
    (hdeclared : ∀ entry ∈ entries, 1 ≤ entry.bitrate ∧ load entry.location ≠ some none)
    (hvalid : ∀ entry ∈ entries, load entry.location ≠ none) :
    Right load entries bitrate ↔ ¬ FirstLargest bitrate (usableOf load entries) := by
  obtain ⟨hbitrates, hplaylists⟩ := stateInit_spec fun e he => (hdeclared e he).2
  have hkept : kept load (extensionOf load none entries) entries = usableOf load entries := by
    refine List.filter_congr fun e he => ?_
    simp [Invalid, hvalid e he]
  rw [hkept] at hbitrates
  change (stateInit load entries).playlistsBitrates = (usableOf load entries).map _ at hbitrates
  change (stateInit load entries).playlists = usableOf load entries at hplaylists
  rw [← hplaylists] at hbitrates
  have hpositive : ∀ u ∈ usableOf load entries, 1 ≤ u.bitrate := fun u hu =>
    (hdeclared u (List.mem_of_mem_filter hu)).1
  constructor
  · rintro hright ⟨front, first, back, hsplit, hfront, hfirst, ⟨w, hw, hwlt⟩, hlargest⟩
    obtain ⟨entry, -, hentry, hbest, -⟩ := hright.2 (by rw [hsplit]; simp)
    have hge : first.bitrate ≤ entry.bitrate :=
      (hbest ⟨first, by rw [hsplit]; simp, hfirst⟩).2 first (by rw [hsplit]; simp) hfirst
    rcases returned_below (hplaylists.trans hsplit) hbitrates
      (fun u hu => hpositive u (by rw [hsplit]; simp [hu])) hfront hfirst with ⟨hall, -⟩ | ⟨r, hr, hrlt, -, hreturned⟩
    · exact absurd hwlt (by have := hall w hw; omega)
    · have hsame : r = entry := Option.some.inj (hreturned.symm.trans hentry)
      have hless := hlargest r hr hrlt
      rw [hsame] at hless
      omega
  · intro hnot
    refine ⟨fun hempty => ?_, fun hne => ?_⟩
    · rw [getPlaylistBasedOnBitrate, hbitrates, hplaylists, hempty]
      rfl
    · by_cases hbelow : ∃ u ∈ usableOf load entries, u.bitrate < bitrate
      · obtain ⟨front, first, back, hsplit, hfront, hfirst⟩ := first_below hbelow
        have hmem : ∀ u ∈ usableOf load entries, u.bitrate < bitrate → u = first ∨ u ∈ back := by
          intro u hu hult
          rw [hsplit] at hu
          rcases List.mem_append.mp hu with hu | hu
          · exact absurd hult (by have := hfront u hu; omega)
          · exact List.mem_cons.mp hu
        have hsome : ∀ e, e.bitrate < bitrate →
            (∀ u ∈ usableOf load entries, u.bitrate < bitrate → u.bitrate ≤ e.bitrate) →
            Best (usableOf load entries) bitrate e := by
          intro e helt hlargest
          obtain ⟨w, hw, hwlt⟩ := hbelow
          exact ⟨fun _ => ⟨helt, hlargest⟩, fun hall => absurd (hall w hw) (by omega)⟩
        rcases returned_below (hplaylists.trans hsplit) hbitrates
          (fun u hu => hpositive u (by rw [hsplit]; simp [hu])) hfront hfirst with
          ⟨hall, hreturned⟩ | ⟨r, hr, hrlt, hrmax, hreturned⟩
        · refine ⟨first, by rw [hsplit]; simp, hreturned, hsome first hfirst fun u hu hult => ?_⟩
          rcases hmem u hu hult with rfl | hback
          · exact Int.le_refl _
          · exact absurd hult (by have := hall u hback; omega)
        · have hfirstle : first.bitrate ≤ r.bitrate := by
            by_contra hgt
            refine hnot ⟨front, first, back, hsplit, hfront, hfirst, ⟨r, hr, hrlt⟩, fun u hu hult => ?_⟩
            have := hrmax u hu hult
            omega
          refine ⟨r, by rw [hsplit]; simp [hr], hreturned, hsome r hrlt fun u hu hult => ?_⟩
          rcases hmem u hu hult with rfl | hback
          · exact hfirstle
          · exact hrmax u hback hult
      · have hall : ∀ u ∈ usableOf load entries, bitrate ≤ u.bitrate := by
          intro u hu
          by_contra hlt
          exact hbelow ⟨u, hu, by omega⟩
        obtain ⟨entry, hentry, hreturned, hlowest⟩ :=
          returned_lowest (by rw [hplaylists]; exact hne) hbitrates (by rw [hplaylists]; exact hall)
        rw [hplaylists] at hentry hlowest
        exact ⟨entry, hentry, hreturned, fun h => absurd h hbelow, fun _ => hlowest⟩

theorem usable_length_lt {load : L → Option (Option E)} {entries : List (VariantEntry L)}
    (hinvalid : ∃ entry ∈ entries, load entry.location = none) :
    (usableOf load entries).length < (kept load (extensionOf load none entries) entries).length := by
  obtain ⟨entry, hentry, hnone⟩ := hinvalid
  have hfilter : usableOf load entries = (kept load (extensionOf load none entries) entries).filter fun e =>
      decide (Usable load (extensionOf load none entries) e) := by
    rw [usableOf, usable, kept, List.filter_filter]
    refine List.filter_congr fun e _ => ?_
    by_cases husable : Usable load (extensionOf load none entries) e
    · simp [husable]
    · simp [husable]
  rw [hfilter, List.length_filter_lt_length_iff_exists]
  refine ⟨entry, List.mem_filter.mpr ⟨hentry, ?_⟩, ?_⟩
  · simp [Invalid, hnone]
  · simp [Usable, hnone]

theorem last_of_split {front early back : List Int} {last r : Int} (h : front ++ [last] = early ++ r :: back) :
    (back = [] ∧ last = r ∧ front = early) ∨ last ∈ back := by
  rcases List.eq_nil_or_concat' back with rfl | ⟨back, x, rfl⟩
  · obtain ⟨hfront, hlast⟩ := List.append_inj' h rfl
    exact Or.inl ⟨rfl, List.cons.inj hlast |>.1, hfront⟩
  · have hends : front ++ [last] = (early ++ r :: back) ++ [x] := by
      rw [h]
      simp
    obtain ⟨-, hlast⟩ := List.append_inj' hends rfl
    rw [(List.cons.inj hlast).1]
    exact Or.inr (by simp)

theorem pick_last {front : List Int} {last : Int} (hpositive : ∀ b ∈ front ++ [last], 1 ≤ b)
    (hdistinct : (front ++ [last]).Nodup) : pick (last + 1) (front ++ [last]) = front.length := by
  obtain ⟨early, first, back, h, hearly, hfirst⟩ : ∃ early first back, front ++ [last] = early ++ first :: back ∧
      (∀ b ∈ early, last + 1 ≤ b) ∧ first < last + 1 := by
    obtain ⟨early, first, back, h, hearly, hfirst⟩ := @first_below Unit (last + 1)
      ((front ++ [last]).map fun b => ⟨(), b⟩) ⟨⟨(), last⟩, by simp, by simp⟩
    refine ⟨early.map VariantEntry.bitrate, first.bitrate, back.map VariantEntry.bitrate, ?_, by simpa using hearly, hfirst⟩
    have hmap := congrArg (List.map VariantEntry.bitrate) h
    rw [List.map_map] at hmap
    rw [← List.map_cons, ← List.map_append, ← hmap]
    exact (List.map_id _).symm
  have hback : ∀ b ∈ back, 1 ≤ b := fun b hb => hpositive b (by rw [h]; simp [hb])
  rcases pick_below hback hearly hfirst with ⟨hall, hpick⟩ | ⟨front', r, back', hsplit, hlt, hall, hpick⟩
  · rw [h, hpick]
    rcases last_of_split h with ⟨-, -, rfl⟩ | hmem
    · rfl
    · have := hall last hmem
      omega
  · have hfound : front ++ [last] = (early ++ first :: front') ++ r :: back' := by
      rw [h, hsplit]
      simp
    rw [h, hpick]
    rcases last_of_split hfound with ⟨-, -, rfl⟩ | hmem
    · simp
      omega
    · have hr : r = last := by
        have := hall last (by rw [hsplit]; simp [hmem]) (by omega)
        omega
      rw [hfound, hr, List.nodup_append, List.nodup_cons] at hdistinct
      exact absurd hmem hdistinct.2.1.1

theorem shifted_wrong {load : L → Option (Option E)} {entries : List (VariantEntry L)}
    (hdeclared : ∀ entry ∈ entries, 1 ≤ entry.bitrate ∧ load entry.location ≠ some none)
    (hinvalid : ∃ entry ∈ entries, load entry.location = none) (husable : usableOf load entries ≠ [])
    (hdistinct : (entries.map VariantEntry.bitrate).Nodup) :
    ∃ entry ∈ entries, ¬ Right load entries (entry.bitrate + 1) := by
  obtain ⟨hbitrates, hplaylists⟩ := stateInit_spec fun e he => (hdeclared e he).2
  have hless := usable_length_lt hinvalid
  have hsub : (kept load (extensionOf load none entries) entries).Sublist entries := List.filter_sublist
  generalize kept load (extensionOf load none entries) entries = ks at *
  rcases List.eq_nil_or_concat ks with rfl | ⟨front, last, rfl⟩
  · simp at hless
  · refine ⟨last, hsub.subset (by simp), fun hright => ?_⟩
    have hpick : pick (last.bitrate + 1) (stateInit load entries).playlistsBitrates = front.length := by
      have hnodup := hdistinct.sublist (hsub.map VariantEntry.bitrate)
      rw [List.concat_eq_append, List.map_append] at hnodup
      rw [hbitrates, List.concat_eq_append, List.map_append]
      have hpicked := @pick_last (front.map VariantEntry.bitrate) last.bitrate (fun b hb => ?_) hnodup
      · rw [List.length_map] at hpicked
        exact hpicked
      · obtain ⟨e, he, rfl⟩ : ∃ e ∈ front ++ [last], e.bitrate = b := by simpa [eq_comm] using hb
        exact (hdeclared e (hsub.subset (by simpa using he))).1
    obtain ⟨entry, -, hreturned, -⟩ := hright.2 husable
    rw [getPlaylistBasedOnBitrate, hpick, if_pos] at hreturned
    · cases hreturned
    · refine Or.inr ?_
      rw [hplaylists]
      change ((usableOf load entries).length : Int) ≤ _
      simp at hless
      omega

/-- The documented playlist is returned, where all locations are valid, unless the first of several below the bitrate is
larger than the others.  With an invalid location it is not returned for some bitrate, if no bitrate occurs twice. -/
theorem right_iff_not_first_largest (load : L → Option (Option E)) (entries : List (VariantEntry L))
    (hdeclared : ∀ entry ∈ entries, 1 ≤ entry.bitrate ∧ load entry.location ≠ some none) :
    ((∀ entry ∈ entries, load entry.location ≠ none) →
      ∀ bitrate, Right load entries bitrate ↔ ¬ FirstLargest bitrate (usableOf load entries)) ∧
    ((∃ entry ∈ entries, load entry.location = none) → usableOf load entries ≠ [] →
      (entries.map VariantEntry.bitrate).Nodup → ∃ entry ∈ entries, ¬ Right load entries (entry.bitrate + 1)) :=
  ⟨fun hvalid _ => right_iff hdeclared hvalid, shifted_wrong hdeclared⟩

/-- The locations of the examples: one is no valid URI, the others have the extension of their last letter. -/
def sampleLoad : Nat → Option (Option Nat)
  | 0 => none
  | n => some (some (n % 2))

def sample : List (VariantEntry Nat) := [⟨1, 200⟩, ⟨2, 500⟩, ⟨3, 800⟩]

theorem right_iff_not_first_largest_three : Right sampleLoad sample 1000 := by
  refine (((right_iff_not_first_largest sampleLoad sample (by decide)).1 (by decide)) 1000).mpr ?_
  have husable : usableOf sampleLoad sample = [⟨1, 200⟩, ⟨3, 800⟩] := by decide
  rw [husable]
  rintro ⟨front, first, back, hsplit, hfront, -, ⟨w, hw, -⟩, hlargest⟩
  rcases front with _ | ⟨u, front⟩
  · obtain ⟨rfl, rfl⟩ := List.cons.inj hsplit
    exact absurd (hlargest ⟨3, 800⟩ (by simp) (by decide)) (by decide)
  · obtain ⟨rfl, -⟩ := List.cons.inj hsplit
    exact absurd (hfront ⟨1, 200⟩ (by simp)) (by decide)

/-- Of 800 and 200 the smaller one is picked for 1000. -/
theorem smaller_picked : ¬ Right sampleLoad [⟨1, 800⟩, ⟨3, 200⟩] 1000 := by
  rintro ⟨-, hright⟩
  obtain ⟨entry, -, hentry, hbest, -⟩ := hright (by decide)
  have hpicked : getPlaylistBasedOnBitrate 1000 (stateInit sampleLoad [⟨1, 800⟩, ⟨3, 200⟩]) = some ⟨3, 200⟩ := by decide
  obtain rfl : ⟨3, 200⟩ = entry := Option.some.inj (hpicked.symm.trans hentry)
  have hle := (hbest ⟨⟨1, 800⟩, by decide, by decide⟩).2 ⟨1, 800⟩ (by decide) (by decide)
  exact absurd hle (by decide)

end Loading
end VariantPlaylist
end OpenJfx.Media
