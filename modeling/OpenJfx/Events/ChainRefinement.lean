import OpenJfx.Events.EventDispatchChain

/-! # A chain behaves like an immutable list

`Denotes` ties the arrays to a list, through the positions of its dispatchers.
What a program may do to the arrays of a chain it was handed is `Extends`: the
reserved slots stay, and so do their links except the one of the current tail.
An outer list never reads that link, because its own tail is behind it or is
the same node. -/
set_option autoImplicit false
namespace OpenJfx.Events
open OpenJfx.Lib
variable {D E : Type}

namespace DispatchChain

structure Denotes (c : DispatchChain D) (path : List Nat) (ds : List D) : Prop where
  capacity : c.reservedCount ≤ c.dispatchers.length
  parallel : c.nextLinks.length = c.dispatchers.length
  count : path.length = c.activeCount
  head : ∀ p, path.head? = some p → p = c.headIndex
  inside : ∀ p ∈ path, p < c.reservedCount
  threaded : Threaded c.nextLinks c.tailIndex path
  slots : path.map (fun p => c.dispatchers[p]?) = ds.map (fun d => some (some d))

structure Extends (c c' : DispatchChain D) : Prop where
  reserved : c.reservedCount ≤ c'.reservedCount
  slots : ∀ i, i < c.reservedCount → c'.dispatchers[i]? = c.dispatchers[i]?
  links : ∀ i, i < c.reservedCount → c.activeCount = 0 ∨ i ≠ c.tailIndex →
    c'.nextLinks[i]? = c.nextLinks[i]?
  tail : c'.activeCount = 0 ∨ c.reservedCount ≤ c'.tailIndex ∨
    0 < c.activeCount ∧ c'.tailIndex = c.tailIndex

theorem Extends.refl (c : DispatchChain D) : Extends c c := by
  refine ⟨le_rfl, fun _ _ => rfl, fun _ _ _ => rfl, ?_⟩
  rcases Nat.eq_zero_or_pos c.activeCount with h | h
  · exact Or.inl h
  · exact Or.inr (Or.inr ⟨h, rfl⟩)

theorem Extends.trans {c c' c'' : DispatchChain D} (h : Extends c c') (h' : Extends c' c'') :
    Extends c c'' := by
  refine ⟨h.reserved.trans h'.reserved, ?_, ?_, ?_⟩
  · intro i hi
    rw [h'.slots i (hi.trans_le h.reserved), h.slots i hi]
  · intro i hi hfree
    -- the link of `i` is not the one that the second program may overwrite
    have hfree' : c'.activeCount = 0 ∨ i ≠ c'.tailIndex := by
      rcases h.tail with hzero | hbehind | ⟨hpos, hsame⟩
      · exact Or.inl hzero
      · exact Or.inr (by omega)
      · refine Or.inr ?_
        rw [hsame]
        rcases hfree with hzero | hne
        · omega
        · exact hne
    rw [h'.links i (hi.trans_le h.reserved) hfree', h.links i hi hfree]
  · rcases h'.tail with hzero | hbehind | ⟨hpos, hsame⟩
    · exact Or.inl hzero
    · exact Or.inr (Or.inl (h.reserved.trans hbehind))
    · rw [hsame]
      rcases h.tail with hzero | hrest
      · omega
      · exact Or.inr hrest

/-! ## What a chain denotes -/

theorem Denotes.length_eq {c : DispatchChain D} {path : List Nat} {ds : List D} (h : Denotes c path ds) :
    ds.length = c.activeCount := by
  rw [← h.count]
  simpa using (congrArg List.length h.slots).symm

theorem Denotes.follow {c : DispatchChain D} {tail : Nat} {path : List Nat} {ds : List D}
    (parallel : c.nextLinks.length = c.dispatchers.length)
    (threaded : Threaded c.nextLinks tail path)
    (slots : path.map (fun p => c.dispatchers[p]?) = ds.map (fun d => some (some d))) {index : Nat}
    (head : ∀ p, path.head? = some p → p = index) : c.follow path.length index = some ds := by
  induction path generalizing ds index with
  | nil =>
    cases ds with
    | nil => rfl
    | cons d ds => cases slots
  | cons p rest ih =>
    have hp : p = index := head p rfl
    subst hp
    cases ds with
    | nil => cases slots
    | cons d ds =>
      rw [List.map_cons, List.map_cons, List.cons.injEq] at slots
      obtain ⟨hslot, hrest⟩ := slots
      have hlt : p < c.nextLinks.length := by
        rw [parallel]
        exact (List.getElem?_eq_some_iff.mp hslot).1
      obtain ⟨next, hnext⟩ : ∃ next, c.nextLinks[p]? = some next :=
        ⟨_, List.getElem?_eq_getElem hlt⟩
      have hfollow : c.follow rest.length next = some ds := by
        apply ih threaded.rest hrest
        intro q hq
        cases rest with
        | nil => cases hq
        | cons r rest =>
          have hlink := threaded.1
          rw [hnext] at hlink
          cases hq
          exact (Option.some.inj hlink).symm
      rw [List.length_cons, DispatchChain.follow, hslot, hnext]
      change (do let rest ← c.follow rest.length next; some (d :: rest)) = _
      rw [hfollow]
      rfl

theorem Denotes.denoted {c : DispatchChain D} {path : List Nat} {ds : List D} (h : Denotes c path ds) :
    c.denoted = some ds := by
  rw [DispatchChain.denoted, ← h.count]
  exact Denotes.follow h.parallel h.threaded h.slots h.head

theorem denotes_new : Denotes (new : DispatchChain D) [] [] :=
  ⟨le_rfl, rfl, rfl, (fun _ h => nomatch h), (fun _ h => nomatch h), trivial, rfl⟩

/-! ## The operations -/

theorem Denotes.reset {c : DispatchChain D} {path : List Nat} {ds : List D} (h : Denotes c path ds) :
    Denotes c.reset [] [] := by
  refine ⟨Nat.zero_le _, ?_, rfl, (fun _ h => nomatch h), (fun _ h => nomatch h), trivial, rfl⟩
  have hcapacity := h.capacity
  change c.nextLinks.length =
    (List.replicate c.reservedCount none ++ c.dispatchers.drop c.reservedCount).length
  rw [h.parallel, List.length_append, List.length_replicate, List.length_drop]
  omega

theorem lt_capacity (n : Nat) :
    n < (n + 1 + capacityGrowthFactor - 1) / capacityGrowthFactor * capacityGrowthFactor := by
  rw [capacityGrowthFactor]
  omega

theorem ensureCapacity_succ (c : DispatchChain D) :
    c.ensureCapacity (c.reservedCount + 1) =
      { c with
        dispatchers := grow none ((c.reservedCount + 1 + capacityGrowthFactor - 1) /
          capacityGrowthFactor * capacityGrowthFactor) c.reservedCount c.dispatchers
        nextLinks := grow 0 ((c.reservedCount + 1 + capacityGrowthFactor - 1) /
          capacityGrowthFactor * capacityGrowthFactor) c.reservedCount c.nextLinks } := by
  have hpos := lt_capacity c.reservedCount
  rw [ensureCapacity]
  exact if_neg (by omega)

theorem Denotes.congr {c c' : DispatchChain D} {path : List Nat} {ds : List D} (h : Denotes c path ds)
    (capacity : c'.reservedCount ≤ c'.dispatchers.length)
    (parallel : c'.nextLinks.length = c'.dispatchers.length)
    (reserved : c'.reservedCount = c.reservedCount) (active : c'.activeCount = c.activeCount)
    (head : c'.headIndex = c.headIndex) (tail : c'.tailIndex = c.tailIndex)
    (slots : ∀ i, i < c.reservedCount → c'.dispatchers[i]? = c.dispatchers[i]?)
    (links : ∀ i ∈ path, i ≠ c.tailIndex → c'.nextLinks[i]? = c.nextLinks[i]?) :
    Denotes c' path ds where
  capacity := capacity
  parallel := parallel
  count := by rw [active, h.count]
  head := by rw [head]; exact h.head
  inside := by rw [reserved]; exact h.inside
  threaded := by rw [tail]; exact h.threaded.congr links
  slots := by
    rw [← h.slots]
    apply List.map_congr_left
    intro p hp
    exact slots p (h.inside p hp)

theorem Denotes.ensureCapacity {c : DispatchChain D} {path : List Nat} {ds : List D}
    (h : Denotes c path ds) :
    let c' := c.ensureCapacity (c.reservedCount + 1)
    Denotes c' path ds ∧ Extends c c' ∧ c'.reservedCount < c'.dispatchers.length := by
  have hcapacity := h.capacity
  have hlinks : c.reservedCount ≤ c.nextLinks.length := by rw [h.parallel]; exact hcapacity
  have hlt := lt_capacity c.reservedCount
  rw [ensureCapacity_succ]
  generalize (c.reservedCount + 1 + capacityGrowthFactor - 1) / capacityGrowthFactor *
    capacityGrowthFactor = newCapacity at hlt ⊢
  have hlength : (grow none newCapacity c.reservedCount c.dispatchers).length =
      max c.dispatchers.length newCapacity := grow_length hcapacity hlt.le
  refine ⟨h.congr ?_ ?_ rfl rfl rfl rfl ?_ ?_, ⟨le_rfl, ?_, ?_, ?_⟩, ?_⟩
  · change c.reservedCount ≤ (grow none newCapacity c.reservedCount c.dispatchers).length
    omega
  · change (grow 0 newCapacity c.reservedCount c.nextLinks).length =
      (grow none newCapacity c.reservedCount c.dispatchers).length
    rw [hlength, grow_length hlinks hlt.le, h.parallel]
  · intro i hi
    exact getElem?_grow hcapacity hi
  · intro i hi _
    exact getElem?_grow hlinks (h.inside i hi)
  · intro i hi
    exact getElem?_grow hcapacity hi
  · intro i hi _
    exact getElem?_grow hlinks hi
  · exact (Extends.refl c).tail
  · change c.reservedCount < (grow none newCapacity c.reservedCount c.dispatchers).length
    omega

theorem Denotes.active_eq_zero {c : DispatchChain D} {path : List Nat} {ds : List D}
    (h : Denotes c path ds) (hzero : c.activeCount = 0) : path = [] ∧ ds = [] := by
  have hpath : path.length = 0 := by rw [h.count, hzero]
  have hds : ds.length = 0 := by rw [h.length_eq, hzero]
  exact ⟨List.length_eq_zero_iff.mp hpath, List.length_eq_zero_iff.mp hds⟩

theorem Denotes.ne_nil {c : DispatchChain D} {path : List Nat} {ds : List D}
    (h : Denotes c path ds) (hpos : c.activeCount ≠ 0) : path ≠ [] := by
  intro hnil
  have hcount := h.count
  rw [hnil] at hcount
  exact hpos hcount.symm

theorem Denotes.slots_set {c : DispatchChain D} {path : List Nat} {ds : List D}
    (h : Denotes c path ds) (slot : Option D) :
    path.map (fun p => (c.dispatchers.set c.reservedCount slot)[p]?) =
      ds.map (fun d => some (some d)) := by
  rw [← h.slots]
  apply List.map_congr_left
  intro p hp
  have := h.inside p hp
  exact List.getElem?_set_ne (by omega)

theorem Denotes.insertFirst {c : DispatchChain D} {path : List Nat} {ds : List D} (d : D)
    (h : Denotes c path ds) (room : c.reservedCount < c.dispatchers.length) :
    ∃ c', c.insertFirst d = .ok c' ∧ Denotes c' [c.reservedCount] [d] ∧ Extends c c' := by
  refine ⟨_, by rw [DispatchChain.insertFirst, writeAt_natCast _ _ _ room]; rfl, ?_, ?_⟩
  · refine ⟨?_, ?_, rfl, ?_, ?_, rfl, ?_⟩
    · rw [List.length_set]
      exact room
    · rw [List.length_set]
      exact h.parallel
    · intro p hp
      cases hp
      rfl
    · intro p hp
      rw [List.mem_singleton.mp hp]
      exact Nat.lt_succ_self _
    · rw [List.map_singleton, List.map_singleton, List.getElem?_set_self room]
  · refine ⟨Nat.le_succ _, ?_, fun _ _ _ => rfl, Or.inr (Or.inl le_rfl)⟩
    intro i hi
    exact List.getElem?_set_ne (by omega)

theorem Denotes.append {c : DispatchChain D} {path : List Nat} {ds : List D} (d : D)
    (h : Denotes c path ds) :
    ∃ c' path', c.append d = .ok c' ∧ Denotes c' path' (ds ++ [d]) ∧ Extends c c' := by
  obtain ⟨hroom, hgrown, room⟩ := h.ensureCapacity
  rw [DispatchChain.append]
  generalize c.ensureCapacity (c.reservedCount + 1) = c₁ at hroom hgrown room ⊢
  by_cases hzero : c₁.activeCount = 0
  · obtain ⟨c', heq, hdenotes, hextends⟩ := hroom.insertFirst d room
    refine ⟨c', [c₁.reservedCount], (if_pos hzero).trans heq, ?_, hgrown.trans hextends⟩
    rw [(hroom.active_eq_zero hzero).2]
    exact hdenotes
  · have hne := hroom.ne_nil hzero
    have htail : c₁.tailIndex < c₁.nextLinks.length := by
      rw [hroom.parallel]
      exact (hroom.inside _ (hroom.threaded.tail_mem hne)).trans room
    refine ⟨_, path ++ [c₁.reservedCount], (if_neg hzero).trans (by
      rw [writeAt_natCast _ _ _ room, writeAt_natCast _ _ _ htail]; rfl), ?_, hgrown.trans ?_⟩
    · refine ⟨?_, ?_, ?_, ?_, ?_, ?_, ?_⟩
      · rw [List.length_set]
        exact room
      · rw [List.length_set, List.length_set]
        exact hroom.parallel
      · rw [List.length_append, hroom.count]
        rfl
      · intro p hp
        rw [List.head?_append_of_ne_nil _ hne] at hp
        exact hroom.head p hp
      · intro p hp
        rcases List.mem_append.mp hp with hp | hp
        · exact Nat.lt_succ_of_lt (hroom.inside p hp)
        · rw [List.mem_singleton.mp hp]
          exact Nat.lt_succ_self _
      · apply hroom.threaded.append hne
        · intro hmem
          exact absurd (hroom.inside _ hmem) (lt_irrefl _)
        · intro p _ hp
          exact List.getElem?_set_ne (fun heq => hp heq.symm)
        · exact List.getElem?_set_self htail
      · rw [List.map_append, List.map_append, hroom.slots_set, List.map_singleton, List.map_singleton,
          List.getElem?_set_self room]
    · refine ⟨Nat.le_succ _, ?_, ?_, Or.inr (Or.inl le_rfl)⟩
      · intro i hi
        exact List.getElem?_set_ne (by omega)
      · intro i hi hfree
        rcases hfree with h0 | hi
        · exact absurd h0 hzero
        · exact List.getElem?_set_ne (fun heq => hi heq.symm)

theorem Denotes.prepend {c : DispatchChain D} {path : List Nat} {ds : List D} (d : D)
    (h : Denotes c path ds) :
    ∃ c' path', c.prepend d = .ok c' ∧ Denotes c' path' (d :: ds) ∧ Extends c c' := by
  obtain ⟨hroom, hgrown, room⟩ := h.ensureCapacity
  rw [DispatchChain.prepend]
  generalize c.ensureCapacity (c.reservedCount + 1) = c₁ at hroom hgrown room ⊢
  by_cases hzero : c₁.activeCount = 0
  · obtain ⟨c', heq, hdenotes, hextends⟩ := hroom.insertFirst d room
    refine ⟨c', [c₁.reservedCount], (if_pos hzero).trans heq, ?_, hgrown.trans hextends⟩
    rw [(hroom.active_eq_zero hzero).2]
    exact hdenotes
  · have hne := hroom.ne_nil hzero
    have hlink : c₁.reservedCount < c₁.nextLinks.length := by
      rw [hroom.parallel]
      exact room
    have hsame : ∀ i, i < c₁.reservedCount →
        (c₁.nextLinks.set c₁.reservedCount c₁.headIndex)[i]? = c₁.nextLinks[i]? := by
      intro i hi
      exact List.getElem?_set_ne (by omega)
    refine ⟨_, c₁.reservedCount :: path, (if_neg hzero).trans (by
      rw [writeAt_natCast _ _ _ room, writeAt_natCast _ _ _ hlink]; rfl), ?_, hgrown.trans ?_⟩
    · refine ⟨?_, ?_, ?_, ?_, ?_, ?_, ?_⟩
      · rw [List.length_set]
        exact room
      · rw [List.length_set, List.length_set]
        exact hroom.parallel
      · rw [List.length_cons, hroom.count]
      · intro p hp
        cases hp
        rfl
      · intro p hp
        rcases List.mem_cons.mp hp with rfl | hp
        · exact Nat.lt_succ_self _
        · exact Nat.lt_succ_of_lt (hroom.inside p hp)
      · obtain ⟨p, rest, rfl⟩ := List.exists_cons_of_ne_nil hne
        have htail := hroom.inside _ (hroom.threaded.tail_mem hne)
        refine ⟨?_, htail.ne', hroom.threaded.congr (fun i hi _ => hsame i (hroom.inside i hi))⟩
        rw [List.getElem?_set_self hlink, hroom.head p rfl]
      · rw [List.map_cons, List.map_cons, hroom.slots_set, List.getElem?_set_self room]
    · refine ⟨Nat.le_succ _, ?_, fun i hi _ => hsame i hi,
        Or.inr (Or.inr ⟨Nat.pos_of_ne_zero hzero, rfl⟩)⟩
      intro i hi
      exact List.getElem?_set_ne (by omega)

theorem Denotes.advance {c : DispatchChain D} {p next : Nat} {path : List Nat} {d : D} {ds : List D}
    (h : Denotes c (p :: path) (d :: ds)) (hnext : c.nextLinks[p]? = some next) :
    Denotes { c with headIndex := next, activeCount := c.activeCount - 1 } path ds := by
  refine ⟨h.capacity, h.parallel, ?_, ?_, ?_, h.threaded.rest, ?_⟩
  · change path.length = c.activeCount - 1
    rw [← h.count]
    rfl
  · intro q hq
    cases path with
    | nil => cases hq
    | cons r path =>
      have hlink := h.threaded.1
      rw [hnext] at hlink
      cases hq
      exact (Option.some.inj hlink).symm
  · intro q hq
    exact h.inside q (List.mem_cons_of_mem _ hq)
  · have hslots := h.slots
    rw [List.map_cons, List.map_cons, List.cons.injEq] at hslots
    exact hslots.2

theorem Denotes.dispatchEvent {c : DispatchChain D} {path : List Nat} {d : D} {ds : List D} {event : E}
    {answer : Option E} {log : List (Entry D E)}
    {call : D → E → DispatchChain D → Except Exn (Option E × DispatchChain D × List (Entry D E))}
    (h : Denotes c path (d :: ds))
    (hcall : ∀ c₁ path₁, Denotes c₁ path₁ ds → ∃ c₂ path₂ ds₂,
      call d event c₁ = .ok (answer, c₂, log) ∧ Denotes c₂ path₂ ds₂ ∧ Extends c₁ c₂) :
    ∃ c', c.dispatchEvent event call = .ok (answer, c', log) ∧ Denotes c' path (d :: ds) ∧
      Extends c c' := by
  obtain ⟨p, path, rfl⟩ : ∃ p rest, path = p :: rest := by
    cases path with
    | nil => cases h.slots
    | cons p rest => exact ⟨p, rest, rfl⟩
  have hhead : p = c.headIndex := h.head p rfl
  have hpos : c.activeCount ≠ 0 := by
    rw [← h.count]
    exact Nat.succ_ne_zero _
  have hslot : c.dispatchers[c.headIndex]? = some (some d) := by
    have hslots := h.slots
    rw [List.map_cons, List.map_cons, List.cons.injEq] at hslots
    rw [← hhead]
    exact hslots.1
  obtain ⟨hlt, hget⟩ := List.getElem?_eq_some_iff.mp hslot
  have hlt' : c.headIndex < c.nextLinks.length := by rw [h.parallel]; exact hlt
  have hnext : c.nextLinks[p]? = some c.nextLinks[c.headIndex] := by
    rw [hhead]
    exact List.getElem?_eq_getElem hlt'
  obtain ⟨c₂, path₂, ds₂, heq, hdenotes, hextends⟩ := hcall _ path (h.advance hnext)
  have hreserved : c.reservedCount ≤ c₂.dispatchers.length := hextends.reserved.trans hdenotes.capacity
  -- the links in front of the caller's tail are none of the call's business
  have hlinks : ∀ i, i < c.reservedCount → i ≠ c.tailIndex → c₂.nextLinks[i]? = c.nextLinks[i]? :=
    fun i hi hne => hextends.links i hi (Or.inr hne)
  refine ⟨{ c₂ with
      headIndex := c.headIndex
      tailIndex := c.tailIndex
      activeCount := c.activeCount
      reservedCount := c.reservedCount }, ?_,
    h.congr hreserved hdenotes.parallel rfl rfl rfl rfl hextends.slots
      (fun i hi hne => hlinks i (h.inside i hi) hne), ⟨le_rfl, hextends.slots, ?_, ?_⟩⟩
  · rw [DispatchChain.dispatchEvent, if_neg hpos, readAt_natCast _ _ hlt, readAt_natCast _ _ hlt', hget]
    change (call d event _ >>= fun r => _) = _
    rw [heq]
    rfl
  · intro i hi hfree
    rcases hfree with hzero | hne
    · exact absurd hzero hpos
    · exact hlinks i hi hne
  · exact Or.inr (Or.inr ⟨Nat.pos_of_ne_zero hpos, rfl⟩)

end DispatchChain

/-! ## Programs -/

open DispatchChain

theorem Script.run_refines (actions : Script D E) {c : DispatchChain D} {path : List Nat} {ds : List D}
    (h : Denotes c path ds) :
    ∃ c' path', actions.run c = .ok (c', (actions.onList ds).2) ∧
      Denotes c' path' (actions.onList ds).1 ∧ Extends c c' := by
  induction actions generalizing c path ds with
  | done => exact ⟨c, path, rfl, h, Extends.refl c⟩
  | append d rest ih =>
    obtain ⟨c₁, path₁, heq, hdenotes, hextends⟩ := h.append d
    obtain ⟨c₂, path₂, hrun, hlast, hmore⟩ := ih hdenotes
    refine ⟨c₂, path₂, ?_, hlast, hextends.trans hmore⟩
    rw [Script.run, heq]
    exact hrun
  | prepend d rest ih =>
    obtain ⟨c₁, path₁, heq, hdenotes, hextends⟩ := h.prepend d
    obtain ⟨c₂, path₂, hrun, hlast, hmore⟩ := ih hdenotes
    refine ⟨c₂, path₂, ?_, hlast, hextends.trans hmore⟩
    rw [Script.run, heq]
    exact hrun
  | dispatch event body answer rest ihBody ihRest =>
    cases ds with
    | nil =>
      have hzero : c.activeCount = 0 := h.length_eq.symm
      obtain ⟨c₂, path₂, hrun, hlast, hmore⟩ := ihRest h
      refine ⟨c₂, path₂, ?_, hlast, hmore⟩
      rw [Script.run, DispatchChain.dispatchEvent, if_pos hzero]
      change (rest.run c >>= fun r => _) = _
      rw [hrun]
      change Except.ok (c₂, [] ++ Entry.returned (some event) c.denoted :: (rest.onList []).2) = _
      rw [h.denoted]
      rfl
    | cons d ds =>
      have hcall : ∀ c₁ path₁, Denotes c₁ path₁ ds → ∃ c₂ path₂ ds₂,
          answering body.run answer d event c₁ =
            .ok (answer, c₂, .called d event (some ds) :: (body.onList ds).2) ∧
          Denotes c₂ path₂ ds₂ ∧ Extends c₁ c₂ := by
        intro c₁ path₁ h₁
        obtain ⟨c₂, path₂, hrun, hdenotes, hbody⟩ := ihBody h₁
        refine ⟨c₂, path₂, _, ?_, hdenotes, hbody⟩
        rw [answering, hrun, h₁.denoted]
        rfl
      obtain ⟨popped, heq, hpopped, hextends⟩ := h.dispatchEvent hcall
      obtain ⟨c₂, path₂, hrun, hlast, hmore⟩ := ihRest hpopped
      refine ⟨c₂, path₂, ?_, hlast, hextends.trans hmore⟩
      rw [Script.run, heq]
      change (rest.run popped >>= fun r => _) = _
      rw [hrun, hpopped.denoted]
      rfl

theorem runTurns_refines (turns : List (Turn D E)) {c : DispatchChain D} {path : List Nat} {ds : List D}
    (h : Denotes c path ds) :
    ∃ c' path', runTurns turns c = .ok (c', (turnsOnList turns ds).2) ∧
      Denotes c' path' (turnsOnList turns ds).1 := by
  induction turns generalizing c path ds with
  | nil => exact ⟨c, path, rfl, h⟩
  | cons turn turns ih =>
    obtain ⟨c₁, path₁, heq, hdenotes⟩ : ∃ c₁ path₁, turn.run c = .ok (c₁, (turn.onList ds).2) ∧
        Denotes c₁ path₁ (turn.onList ds).1 := by
      cases turn with
      | reset => exact ⟨c.reset, [], rfl, h.reset⟩
      | script actions =>
        obtain ⟨c₁, path₁, hrun, hdenotes, -⟩ := actions.run_refines h
        exact ⟨c₁, path₁, hrun, hdenotes⟩
    obtain ⟨c₂, path₂, hrun, hlast⟩ := ih hdenotes
    refine ⟨c₂, path₂, ?_, hlast⟩
    rw [runTurns, heq]
    change (runTurns turns c₁ >>= fun r => _) = _
    rw [hrun]
    rfl

/-- Whatever is done with a new chain, and whatever the dispatchers do with it
during their calls: no call throws, every dispatcher is called with a chain that
denotes the rest of the list, and the chain denotes the same list as before when
the call is over. -/
theorem chain_refines_list (turns : List (Turn D E)) :
    ∃ c, runTurns turns DispatchChain.new = .ok (c, (turnsOnList turns []).2) ∧
      c.denoted = some (turnsOnList turns []).1 := by
  obtain ⟨c, path, hrun, hdenotes⟩ := runTurns_refines turns denotes_new
  exact ⟨c, hrun, hdenotes.denoted⟩

end OpenJfx.Events
