import OpenJfx.Network.CookieLookup

/-! # The orders of cookies

Both comparators cut the difference of two times down to an `int`.  They are right about
cookies whose differences keep their signs. -/
set_option autoImplicit false
namespace OpenJfx.Network
open OpenJfx.Lib

/-! ## The comparators -/

namespace ExtendedTime

def Earlier (time other : ExtendedTime) : Prop :=
  time.baseTime < other.baseTime ∨ time.baseTime = other.baseTime ∧ time.subtime < other.subtime

def ComparesLexicographically (time other : ExtendedTime) : Prop :=
  (time.compareTo other < 0 ↔ time.Earlier other) ∧ (0 < time.compareTo other ↔ other.Earlier time)

end ExtendedTime

/-- The sign of `d` is that of its low 32 bits. -/
def Narrows (d : Int) : Prop := (0 < d → 0 < d % 2 ^ 32 ∧ d % 2 ^ 32 < 2 ^ 31) ∧ (d < 0 → 2 ^ 31 ≤ d % 2 ^ 32)

theorem bmod_pos_iff (d : Int) : 0 < d.bmod (2 ^ 32) ↔ 0 < d % 2 ^ 32 ∧ d % 2 ^ 32 < 2 ^ 31 := by
  rw [Int.bmod_def]
  split <;> omega

theorem bmod_neg_iff (d : Int) : d.bmod (2 ^ 32) < 0 ↔ 2 ^ 31 ≤ d % 2 ^ 32 := by
  rw [Int.bmod_def]
  split <;> omega

theorem narrows_iff (d : Int) : Narrows d ↔ (d.bmod (2 ^ 32) < 0 ↔ d < 0) ∧ (0 < d.bmod (2 ^ 32) ↔ 0 < d) := by
  rw [bmod_pos_iff, bmod_neg_iff, Narrows]
  omega

namespace ExtendedTime

/-- The difference of the base times keeps its sign, or its low 32 bits are 0 and the subtimes
are in the order of the base times. -/
def Told (time other : ExtendedTime) : Prop :=
  Narrows (time.baseTime - other.baseTime) ∨
    (time.baseTime - other.baseTime) % 2 ^ 32 = 0 ∧
      (time.baseTime < other.baseTime → time.subtime < other.subtime) ∧
      (other.baseTime < time.baseTime → other.subtime < time.subtime)

/-- A subtime is an `int` and not negative. -/
def Counts (time : ExtendedTime) : Prop := 0 ≤ time.subtime ∧ time.subtime < 2 ^ 31

theorem compares_iff {time other : ExtendedTime} (ht : time.Counts) (ho : other.Counts) :
    time.ComparesLexicographically other ↔ time.Told other := by
  obtain ⟨ht0, ht1⟩ := ht
  obtain ⟨ho0, ho1⟩ := ho
  have hsub : (time.subtime - other.subtime).bmod (2 ^ 32) = time.subtime - other.subtime :=
    Int.bmod_eq_of_le (by omega) (by omega)
  have hzero : (time.baseTime - other.baseTime).bmod (2 ^ 32) = 0 ↔ (time.baseTime - other.baseTime) % 2 ^ 32 = 0 := by
    have hpos := bmod_pos_iff (time.baseTime - other.baseTime)
    have hneg := bmod_neg_iff (time.baseTime - other.baseTime)
    omega
  rw [ComparesLexicographically, compareTo, hsub, Told, Earlier, Earlier]
  by_cases hd : (time.baseTime - other.baseTime).bmod (2 ^ 32) = 0
  · rw [if_neg (not_not_intro hd)]
    have hlow := hzero.mp hd
    simp only [Narrows]
    omega
  · rw [if_pos hd, narrows_iff]
    have hlow := mt hzero.mpr hd
    omega

end ExtendedTime

namespace CookieStore

/-- `c1` has the longer path, or was created earlier than `c2`. -/
def Listed (c1 c2 : Cookie) : Prop :=
  c2.path.length < c1.path.length ∨ c1.path.length = c2.path.length ∧ ¬ c2.creationTime.Earlier c1.creationTime

instance (time other : ExtendedTime) : Decidable (time.Earlier other) := inferInstanceAs (Decidable (_ ∨ _))

instance (c1 c2 : Cookie) : Decidable (Listed c1 c2) := inferInstanceAs (Decidable (_ ∨ _))

theorem Listed.trans {c1 c2 c3 : Cookie} (h12 : Listed c1 c2) (h23 : Listed c2 c3) : Listed c1 c3 := by
  rw [Listed, ExtendedTime.Earlier] at h12 h23 ⊢
  omega

theorem Listed.total (c1 c2 : Cookie) : Listed c1 c2 ∨ Listed c2 c1 := by
  rw [Listed, Listed, ExtendedTime.Earlier, ExtendedTime.Earlier]
  omega

/-- `RemovalComparator` answers as the order of the access times does. -/
def ComparesAccess (c1 c2 : Cookie) : Prop :=
  (removalCompare c1 c2 < 0 ↔ c1.lastAccessTime < c2.lastAccessTime) ∧
    (0 < removalCompare c1 c2 ↔ c2.lastAccessTime < c1.lastAccessTime)

theorem comparesAccess_iff (c1 c2 : Cookie) :
    ComparesAccess c1 c2 ↔ Narrows (c1.lastAccessTime - c2.lastAccessTime) := by
  rw [narrows_iff, ComparesAccess, removalCompare]
  omega

/-! ## `get` -/

section Get
variable {cookies : List Cookie} (h : ∀ c1 ∈ cookies, ∀ c2 ∈ cookies, c1.creationTime.ComparesLexicographically c2.creationTime)
include h

theorem getCompare_le_iff {c1 c2 : Cookie} (h1 : c1 ∈ cookies) (h2 : c2 ∈ cookies) : getCompare c1 c2 ≤ 0 ↔ Listed c1 c2 := by
  have htime := (h c1 h1 c2 h2).2
  rw [getCompare, Listed, ← htime]
  split <;> omega

theorem getCompare_lt_iff {c1 c2 : Cookie} (h1 : c1 ∈ cookies) (h2 : c2 ∈ cookies) : getCompare c1 c2 < 0 ↔ ¬ Listed c2 c1 := by
  have htime := (h c1 h1 c2 h2).1
  rw [getCompare, Listed, ← htime]
  split <;> omega

theorem isOrder_of_compares : IsOrder getCompare cookies := by
  refine ⟨fun x hx y hy => ?_, fun x hx y hy z hz hxy hyz => ?_⟩
  · have hxy : getCompare y x ≤ 0 ↔ ¬ getCompare x y < 0 := by
      rw [getCompare_le_iff h hy hx, getCompare_lt_iff h hx hy, not_not]
    have hyx : getCompare x y ≤ 0 ↔ ¬ getCompare y x < 0 := by
      rw [getCompare_le_iff h hx hy, getCompare_lt_iff h hy hx, not_not]
    rcases Int.lt_trichotomy (getCompare x y) 0 with hneg | hzero | hpos
    · rw [Int.sign_eq_neg_one_of_neg hneg, Int.sign_eq_one_of_pos (by omega)]
    · rw [hzero, show getCompare y x = 0 by omega]
      rfl
    · rw [Int.sign_eq_one_of_pos hpos, Int.sign_eq_neg_one_of_neg (by omega)]
      rfl
  · rw [getCompare_le_iff h hx hy] at hxy
    rw [getCompare_le_iff h hy hz] at hyz
    rw [getCompare_le_iff h hx hz]
    exact hxy.trans hyz

end Get

theorem sort_of_compares (env : Environment) {cookies : List Cookie}
    (h : ∀ c1 ∈ cookies, ∀ c2 ∈ cookies, c1.creationTime.ComparesLexicographically c2.creationTime) :
    ∃ result, sort env cookies = some result ∧ result.Pairwise Listed := by
  have hsame : cookies.mergeSort (fun c1 c2 => decide (getCompare c1 c2 ≤ 0)) =
      cookies.mergeSort fun c1 c2 => decide (Listed c1 c2) := by
    have hmap := @List.map_mergeSort _ _ (fun c1 c2 => decide (getCompare c1 c2 ≤ 0)) (fun c1 c2 => decide (Listed c1 c2)) id
      cookies fun c1 h1 c2 h2 => decide_eq_decide.mpr (getCompare_le_iff h h1 h2)
    rw [List.map_id, List.map_id] at hmap
    exact hmap
  refine ⟨_, by rw [sort, if_pos (isOrder_of_compares h), hsame], ?_⟩
  have hsorted := @List.pairwise_mergeSort _ (fun c1 c2 => decide (Listed c1 c2))
    (fun c1 c2 c3 h12 h23 => decide_eq_true ((of_decide_eq_true h12).trans (of_decide_eq_true h23)))
    (fun c1 c2 => by
      rw [Bool.or_eq_true, decide_eq_true_eq, decide_eq_true_eq]
      exact Listed.total c1 c2) cookies
  exact hsorted.imp fun hle => of_decide_eq_true hle

/-! ## `purge()` -/

/-- The cookies that the second loop of `purge()` removes, one after the other. -/
def evicted (queue : List Cookie) (s : CookieStore) : List Cookie :=
  if s.totalCount > TOTAL_COUNT_LOWER_THRESHOLD then
    match queue with
    | [] => []
    | first :: rest =>
        (PriorityQueue.poll removalCompare first rest).1 ::
          evicted (PriorityQueue.poll removalCompare first rest).2
            (removeCookie (PriorityQueue.poll removalCompare first rest).1 s)
  else []
termination_by queue.length
decreasing_by
  rw [(PriorityQueue.poll_perm removalCompare first rest).length_eq, List.length_cons]
  exact Nat.lt_succ_self _

theorem evicted_subset (queue : List Cookie) (s : CookieStore) : ∀ c ∈ evicted queue s, c ∈ queue := by
  fun_induction evict queue s with
  | case1 s hmany =>
    rw [evicted, if_pos hmany]
    exact fun c hc => hc
  | case2 s hmany first rest ih =>
    rw [evicted, if_pos hmany]
    intro c hc
    rcases List.mem_cons.mp hc with rfl | hlater
    · exact List.mem_cons_self ..
    · exact List.mem_cons_of_mem _ ((PriorityQueue.poll_perm removalCompare first rest).subset (ih c hlater))
  | case3 queue s hfew =>
    rw [evicted.eq_def, if_neg hfew]
    exact fun c hc => absurd hc List.not_mem_nil

/-- The loop removes these cookies, and returns. -/
theorem evict_eq (queue : List Cookie) (s : CookieStore) {t : CookieStore} (h : evict queue s = some t) :
    t = (evicted queue s).foldl (fun u c => removeCookie c u) s := by
  fun_induction evict queue s with
  | case1 s hmany => cases h
  | case2 s hmany first rest ih =>
    rw [evicted, if_pos hmany, List.foldl_cons]
    exact ih h
  | case3 queue s hfew =>
    cases h
    rw [evicted.eq_def, if_neg hfew]
    rfl

theorem compares_of_access {cookies : List Cookie} (h : ∀ c1 ∈ cookies, ∀ c2 ∈ cookies, ComparesAccess c1 c2) :
    PriorityQueue.Compares removalCompare Cookie.lastAccessTime (· ∈ cookies) := by
  intro c1 c2 h1 h2
  obtain ⟨hlt, hgt⟩ := h c1 h1 c2 h2
  rcases Int.lt_trichotomy (removalCompare c1 c2) 0 with hneg | hzero | hpos
  · rw [Int.sign_eq_neg_one_of_neg hneg, Int.sign_eq_neg_one_of_neg (by omega)]
  · rw [hzero, show c1.lastAccessTime - c2.lastAccessTime = 0 by omega]
  · rw [Int.sign_eq_one_of_pos hpos, Int.sign_eq_one_of_pos (by omega)]

theorem evicted_sorted {cookies : List Cookie} (h : ∀ c1 ∈ cookies, ∀ c2 ∈ cookies, ComparesAccess c1 c2)
    (queue : List Cookie) (s : CookieStore) (hmem : ∀ c ∈ queue, c ∈ cookies)
    (hheap : PriorityQueue.IsHeap Cookie.lastAccessTime queue) :
    (evicted queue s).Pairwise fun c1 c2 => c1.lastAccessTime ≤ c2.lastAccessTime := by
  fun_induction evict queue s with
  | case1 s hmany =>
    rw [evicted, if_pos hmany]
    exact List.Pairwise.nil
  | case2 s hmany first rest ih =>
    have hpoll := PriorityQueue.poll_perm removalCompare first rest
    rw [evicted, if_pos hmany]
    refine List.pairwise_cons.mpr ⟨fun c hc => ?_, ?_⟩
    · exact hheap.first_le c (hpoll.subset (evicted_subset _ _ c hc))
    · exact ih (fun c hc => hmem c (List.mem_cons_of_mem _ (hpoll.subset hc)))
        (PriorityQueue.poll_heap (compares_of_access h) hmem hheap)
  | case3 queue s hfew =>
    rw [evicted.eq_def, if_neg hfew]
    exact List.Pairwise.nil

/-- No cookie that is left was accessed before one that has been removed. -/
theorem evicted_oldest {cookies : List Cookie} (h : ∀ c1 ∈ cookies, ∀ c2 ∈ cookies, ComparesAccess c1 c2)
    (queue : List Cookie) (s : CookieStore) (hs : Exact s) (hstored : s.stored.Perm queue) (hmem : ∀ c ∈ queue, c ∈ cookies)
    (hheap : PriorityQueue.IsHeap Cookie.lastAccessTime queue) {t : CookieStore} (ht : evict queue s = some t) :
    ∀ c ∈ evicted queue s, ∀ c' ∈ t.stored, c.lastAccessTime ≤ c'.lastAccessTime := by
  fun_induction evict queue s with
  | case1 s hmany => cases ht
  | case2 s hmany first rest ih =>
    have hpoll := PriorityQueue.poll_perm removalCompare first rest
    obtain ⟨hthins, hleft, -⟩ := removeCookie_spec hs hstored
    rw [evicted, if_pos hmany]
    intro c hc c' hc'
    rcases List.mem_cons.mp hc with rfl | hlater
    · obtain ⟨u, hevict, hthins', -⟩ := evict_spec _ _ hthins.exact (hleft.trans hpoll.symm)
      cases ht.symm.trans hevict
      exact hheap.first_le c' (hleft.subset (hthins'.stored hthins.exact c' hc'))
    · exact ih hthins.exact (hleft.trans hpoll.symm) (fun c hc => hmem c (List.mem_cons_of_mem _ (hpoll.subset hc)))
        (PriorityQueue.poll_heap (compares_of_access h) hmem hheap) ht c hlater c' hc'
  | case3 queue s hfew =>
    rw [evicted.eq_def, if_neg hfew]
    exact fun c hc => absurd hc List.not_mem_nil

theorem foldl_sweep_heap {cookies : List Cookie} (h : ∀ c1 ∈ cookies, ∀ c2 ∈ cookies, ComparesAccess c1 c2)
    (env : Environment) (buckets : List Bucket) (search : Search)
    (hbuckets : ∀ bucket ∈ buckets, ∀ c ∈ bucket.cookies, c ∈ cookies) (hmem : ∀ c ∈ search.result, c ∈ cookies)
    (hheap : PriorityQueue.IsHeap Cookie.lastAccessTime search.result) :
    (∀ c ∈ (buckets.foldl (sweep env) search).result, c ∈ cookies) ∧
      PriorityQueue.IsHeap Cookie.lastAccessTime (buckets.foldl (sweep env) search).result := by
  have hoffers : ∀ (kept queue : List Cookie), (∀ c ∈ kept, c ∈ cookies) → (∀ c ∈ queue, c ∈ cookies) →
      PriorityQueue.IsHeap Cookie.lastAccessTime queue →
      (∀ c ∈ kept.foldl (fun queue cookie => PriorityQueue.offer removalCompare cookie queue) queue, c ∈ cookies) ∧
        PriorityQueue.IsHeap Cookie.lastAccessTime
          (kept.foldl (fun queue cookie => PriorityQueue.offer removalCompare cookie queue) queue) := by
    intro kept
    induction kept with
    | nil => exact fun queue _ hqueue hheap => ⟨hqueue, hheap⟩
    | cons cookie rest ih =>
      intro queue hkept hqueue hheap
      have hcookie := hkept cookie (List.mem_cons_self ..)
      refine ih _ (fun c hc => hkept c (List.mem_cons_of_mem _ hc)) (fun c hc => ?_)
        (PriorityQueue.offer_heap (compares_of_access h) hcookie hqueue hheap)
      rcases List.mem_cons.mp ((PriorityQueue.offer_perm removalCompare cookie queue).subset hc) with rfl | hold
      · exact hcookie
      · exact hqueue c hold
  induction buckets generalizing search with
  | nil => exact ⟨hmem, hheap⟩
  | cons bucket rest ih =>
    rw [List.foldl_cons]
    have hkept : ∀ c ∈ expire env.clock search.reads bucket.cookies, c ∈ cookies := fun c hc =>
      hbuckets bucket (List.mem_cons_self ..) c ((expire_sublist _ _ _).subset hc)
    obtain ⟨hmem', hheap'⟩ := hoffers _ _ hkept hmem hheap
    exact ih _ (fun b hb => hbuckets b (List.mem_cons_of_mem _ hb)) hmem' hheap'

/-- The second loop has removed some of the cookies of `u`, one after another: each was
accessed no later than the next one, and than every cookie that is left. -/
structure Removes (removed : List Cookie) (u t : CookieStore) : Prop where
  removal : t = removed.foldl (fun v c => removeCookie c v) u
  stored : ∀ c ∈ removed, c ∈ u.stored
  sorted : removed.Pairwise fun c1 c2 => c1.lastAccessTime ≤ c2.lastAccessTime
  oldest : ∀ c ∈ removed, ∀ c' ∈ t.stored, c.lastAccessTime ≤ c'.lastAccessTime

theorem purge_sorted {s t : CookieStore} {cookies : List Cookie} (hs : Exact s)
    (h : ∀ c1 ∈ cookies, ∀ c2 ∈ cookies, ComparesAccess c1 c2) (hmem : ∀ c ∈ s.stored, c ∈ cookies) (env : Environment)
    (reads : Nat) (ht : purge env reads s = some t) :
    Removes (evicted (swept env reads s).result (swept env reads s).store) (swept env reads s).store t := by
  obtain ⟨hthins, hqueue⟩ := swept_spec hs env reads
  obtain ⟨hresult, hheap⟩ := foldl_sweep_heap h env (iterate env s.buckets) ⟨s, [], reads⟩
    (fun bucket hbucket c hc => hmem c (List.mem_flatMap.mpr ⟨bucket, (iterate_perm env s.buckets).subset hbucket, hc⟩))
    (fun _ hc => absurd hc List.not_mem_nil) (fun i _ hlt => absurd hlt (Nat.not_lt_zero i))
  exact ⟨evict_eq _ _ ht, fun c hc => hqueue.symm.subset (evicted_subset _ _ c hc), evicted_sorted h _ _ hresult hheap,
    evicted_oldest h _ _ hthins.exact hqueue hresult hheap ht⟩

/-! ## Runs -/

/-- The comparators, the look-ups, and the purges of a `put` of `cookie` follow the times. -/
structure Lawful (tables : Characters) (s : CookieStore) (cookie : Cookie) : Prop where
  creation : ∀ c1 ∈ cookie :: s.stored, ∀ c2 ∈ cookie :: s.stored,
    c1.creationTime.ComparesLexicographically c2.creationTime
  access : ∀ c1 ∈ cookie :: s.stored, ∀ c2 ∈ cookie :: s.stored, ComparesAccess c1 c2
  get : ∀ env query, ∃ cookies, (getFor tables env query s).2 = some cookies ∧ cookies.Pairwise Listed
  purge : ∀ env, PutsNew env cookie s → (filled env cookie s).1.totalCount > TOTAL_COUNT_UPPER_THRESHOLD →
    ∃ t, put env cookie s = some t ∧
      Removes (evicted (swept env (filled env cookie s).2 (filled env cookie s).1).result
        (swept env (filled env cookie s).2 (filled env cookie s).1).store)
        (swept env (filled env cookie s).2 (filled env cookie s).1).store t

theorem lookup_mem (tables : Characters) (env : Environment) (query : Query) {s : CookieStore} (hs : Exact s) :
    ∀ c ∈ (lookup tables env query s).result, c ∈ s.stored := by
  have hfold : ∀ (domains : List Text) (search : Search), Exact search.store →
      (∀ d, ∀ c ∈ search.store.cookiesOf d, c ∈ s.stored) → (∀ c ∈ search.result, c ∈ s.stored) →
      ∀ c ∈ (domains.foldl (find tables env query) search).result, c ∈ s.stored := by
    intro domains
    induction domains with
    | nil => exact fun _ _ _ hresult => hresult
    | cons domain rest ih =>
      intro search hexact hstore hresult
      obtain ⟨hthins, -, hfound, -⟩ := find_spec tables env query hexact domain
      refine ih _ hthins.exact (fun d c hc => hstore d c ((hthins.sublist d).subset hc)) ?_
      intro c hc
      rw [hfound] at hc
      rcases List.mem_append.mp hc with hold | hnew
      · exact hresult c hold
      · exact hstore domain c ((expire_sublist _ _ _).subset (List.mem_filter.mp hnew).1)
  refine hfold _ ⟨s, [], 0⟩ hs (fun d c hc => ?_) fun _ hc => absurd hc List.not_mem_nil
  rw [hs.mem_stored, hs.home_cookiesOf hc]
  exact hc

theorem Sized.lawful {tables : Characters} {s : CookieStore} {cookie : Cookie} (hs : Sized s)
    (hcreation : ∀ c1 ∈ cookie :: s.stored, ∀ c2 ∈ cookie :: s.stored,
      c1.creationTime.ComparesLexicographically c2.creationTime)
    (haccess : ∀ c1 ∈ cookie :: s.stored, ∀ c2 ∈ cookie :: s.stored, ComparesAccess c1 c2) : Lawful tables s cookie := by
  refine ⟨hcreation, haccess, fun env query => ?_, fun env hnew hfull => ?_⟩
  · have hmem := lookup_mem tables env query hs.exact
    obtain ⟨result, hsort, hsorted⟩ := sort_of_compares env fun c1 h1 c2 h2 =>
      hcreation c1 (List.mem_cons_of_mem _ (hmem c1 h1)) c2 (List.mem_cons_of_mem _ (hmem c2 h2))
    rw [getFor, hsort]
    exact ⟨_, rfl, List.pairwise_map.mpr hsorted⟩
  · obtain ⟨hexact, -, hadds⟩ := filled_spec hs env hnew.2 _ rfl _ rfl
    obtain ⟨t, hput, -, -⟩ := put_spec hs env cookie
    have hpurge := hput
    rw [put_eq hnew, if_pos hfull] at hpurge
    refine ⟨t, hput, purge_sorted hexact haccess (fun c hc => ?_) env _ hpurge⟩
    rcases hadds c.domain c (hexact.mem_stored.mp hc) with rfl | ⟨hold, -⟩
    · exact List.mem_cons_self ..
    · exact List.mem_cons_of_mem _ (hs.exact.mem_stored.mpr hold)

/-- After every run: the orders are lawful exactly if the differences of the times keep their
signs as an `int`. -/
theorem orders_lawful_iff {tables : Characters} {as : List Action} {s : CookieStore}
    (hrun : execute (step tables) as new = some s) (cookie : Cookie)
    (hcounts : ∀ c ∈ cookie :: s.stored, c.creationTime.Counts) :
    Lawful tables s cookie ↔ ∀ c1 ∈ cookie :: s.stored, ∀ c2 ∈ cookie :: s.stored,
      c1.creationTime.Told c2.creationTime ∧ Narrows (c1.lastAccessTime - c2.lastAccessTime) := by
  have hs : Sized s := execute_preserves (fun a _ _ (_ : True) hu hstep => hu.step a hstep) (fun _ _ => trivial) Sized.new hrun
  have hcreation : ∀ c1 ∈ cookie :: s.stored, ∀ c2 ∈ cookie :: s.stored,
      (c1.creationTime.ComparesLexicographically c2.creationTime ↔ c1.creationTime.Told c2.creationTime) :=
    fun c1 h1 c2 h2 => ExtendedTime.compares_iff (hcounts c1 h1) (hcounts c2 h2)
  constructor
  · intro h c1 h1 c2 h2
    exact ⟨(hcreation c1 h1 c2 h2).mp (h.creation c1 h1 c2 h2), (comparesAccess_iff c1 c2).mp (h.access c1 h1 c2 h2)⟩
  · intro h
    exact hs.lawful (fun c1 h1 c2 h2 => (hcreation c1 h1 c2 h2).mpr (h c1 h1 c2 h2).1)
      fun c1 h1 c2 h2 => (comparesAccess_iff c1 c2).mpr (h c1 h1 c2 h2).2

/-- A cookie of the host `a.b` that is created at a time and lives for 50 days. -/
def cookieAt (name : Char) (time : Int) : Cookie :=
  ⟨[name], [], time + 4320000000, ['a', '.', 'b'], ['/'], ⟨time, 0⟩, time, true, true, false, false⟩

def stillAt (time : Int) : Environment := ⟨fun _ => time, id, fun _ => none⟩

theorem orders_lawful_iff_hour :
    Lawful .ascii ⟨[⟨['a', '.', 'b'], [cookieAt 'm' 0]⟩], 1⟩ (cookieAt 'n' 3600000) := by
  have hstored : ∀ c ∈ cookieAt 'n' 3600000 :: CookieStore.stored ⟨[⟨['a', '.', 'b'], [cookieAt 'm' 0]⟩], 1⟩,
      c = cookieAt 'n' 3600000 ∨ c = cookieAt 'm' 0 := by
    intro c hc
    simpa [stored] using hc
  refine (orders_lawful_iff (show execute (step .ascii) [.put (stillAt 0) (cookieAt 'm' 0)] new = some _ from rfl)
    (cookieAt 'n' 3600000) ?_).mpr ?_
  · intro c hc
    rcases hstored c hc with rfl | rfl
    · exact ⟨by decide, by decide⟩
    · exact ⟨by decide, by decide⟩
  · intro c1 h1 c2 h2
    rcases hstored c1 h1 with rfl | rfl
    · rcases hstored c2 h2 with rfl | rfl
      · simp [cookieAt, ExtendedTime.Told, Narrows]
      · simp [cookieAt, ExtendedTime.Told, Narrows]
    · rcases hstored c2 h2 with rfl | rfl
      · simp [cookieAt, ExtendedTime.Told, Narrows]
      · simp [cookieAt, ExtendedTime.Told, Narrows]

/-- A month later the new cookie is listed before the old one. -/
theorem month_reversed :
    ∃ s, execute (step .ascii) [.put (stillAt 0) (cookieAt 'm' 0), .put (stillAt 2592000000) (cookieAt 'n' 2592000000)] new =
        some s ∧
      (getFor .ascii (stillAt 2592000000) ⟨['a', '.', 'b'], some ['/'], false, true⟩ s).2 =
        some [cookieAt 'n' 2592000000, setLastAccessTime 2592000000 (cookieAt 'm' 0)] ∧
      (cookieAt 'm' 0).creationTime.Earlier (cookieAt 'n' 2592000000).creationTime ∧
      removalCompare (cookieAt 'n' 2592000000) (cookieAt 'm' 0) < 0 ∧
      ¬ Lawful .ascii s (cookieAt 'n' 2592000000) := by
  refine ⟨⟨[⟨['a', '.', 'b'], [cookieAt 'm' 0, cookieAt 'n' 2592000000]⟩], 2⟩, rfl, ?_, by decide, by decide, fun h => ?_⟩
  · have hresult : (lookup .ascii (stillAt 2592000000) ⟨['a', '.', 'b'], some ['/'], false, true⟩
        ⟨[⟨['a', '.', 'b'], [cookieAt 'm' 0, cookieAt 'n' 2592000000]⟩], 2⟩).result =
        [cookieAt 'm' 0, cookieAt 'n' 2592000000] := by decide
    have hsort : [cookieAt 'm' 0, cookieAt 'n' 2592000000].mergeSort (fun c1 c2 => decide (getCompare c1 c2 ≤ 0)) =
        [cookieAt 'n' 2592000000, cookieAt 'm' 0] := by
      simp [List.mergeSort, show ¬ getCompare (cookieAt 'm' 0) (cookieAt 'n' 2592000000) ≤ 0 by decide]
    rw [getFor, hresult, sort, if_pos (by decide), hsort]
    rfl
  · have hcompare := (h.creation (cookieAt 'n' 2592000000) (List.mem_cons_self ..) (cookieAt 'm' 0) (by decide)).1
    exact absurd (hcompare.mp (by decide)) (by decide)

end CookieStore
end OpenJfx.Network
