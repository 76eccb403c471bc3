import OpenJfx.Lib.Run
import OpenJfx.Network.CookieAccounting

/-! # The look-up of `CookieStore`

A look-up visits the buckets that are named by the tails of the host.  It finds what a filter
over all buckets finds, when hosts and domains are in lower case. -/
set_option autoImplicit false
namespace OpenJfx.Network
open OpenJfx.Lib

namespace CookieStore

/-! ## The visited domains -/

theorem mem_tails {domain text : Text} : domain ∈ tails text ↔ ∃ front, text = front ++ '.' :: domain := by
  induction text with
  | nil =>
    rw [tails]
    constructor
    · intro h
      cases h
    · intro h
      obtain ⟨front, hfront⟩ := h
      cases front with
      | nil => cases hfront
      | cons c front => cases hfront
  | cons c rest ih =>
    rw [tails]
    constructor
    · intro h
      by_cases hpoint : c = '.'
      · rw [if_pos hpoint, List.mem_cons] at h
        rcases h with hhere | hlater
        · exact ⟨[], by rw [hhere, hpoint, List.nil_append]⟩
        · obtain ⟨front, hfront⟩ := ih.mp hlater
          exact ⟨c :: front, by rw [hfront, List.cons_append]⟩
      · rw [if_neg hpoint] at h
        obtain ⟨front, hfront⟩ := ih.mp h
        exact ⟨c :: front, by rw [hfront, List.cons_append]⟩
    · intro h
      obtain ⟨front, hfront⟩ := h
      cases front with
      | nil =>
        rw [List.nil_append, List.cons.injEq] at hfront
        rw [if_pos hfront.1, hfront.2]
        exact List.mem_cons_self ..
      | cons c' front =>
        rw [List.cons_append, List.cons.injEq] at hfront
        have hlater := ih.mpr ⟨front, hfront.2⟩
        split
        · exact List.mem_cons_of_mem _ hlater
        · exact hlater

theorem tails_shorten (text : Text) : (text :: tails text).Pairwise fun a b => b.length < a.length := by
  induction text with
  | nil => exact List.pairwise_singleton _ _
  | cons c rest ih =>
    obtain ⟨hhead, htail⟩ := List.pairwise_cons.mp ih
    rw [tails]
    split
    · refine List.pairwise_cons.mpr ⟨?_, ih⟩
      intro b hb
      rcases List.mem_cons.mp hb with rfl | hlater
      · exact Nat.lt_succ_self _
      · exact Nat.lt_succ_of_lt (hhead b hlater)
    · exact List.pairwise_cons.mpr ⟨fun b hb => Nat.lt_succ_of_lt (hhead b hb), htail⟩

theorem mem_takeWhile_length {texts : List Text} (h : texts.Pairwise fun a b => b.length < a.length) {text : Text}
    (htext : text ∈ texts) (hlength : text.length > 0) : text ∈ texts.takeWhile fun t => t.length > 0 := by
  induction texts with
  | nil => cases htext
  | cons first rest ih =>
    obtain ⟨hhead, htail⟩ := List.pairwise_cons.mp h
    rcases List.mem_cons.mp htext with heq | hlater
    · rw [List.takeWhile_cons_of_pos (by rw [← heq]; exact decide_eq_true hlength), heq]
      exact List.mem_cons_self ..
    · have hshorter := hhead text hlater
      rw [List.takeWhile_cons_of_pos (by rw [decide_eq_true_eq]; omega)]
      exact List.mem_cons_of_mem _ (ih htail hlater)

theorem mem_domains {host domain : Text} (hdomain : domain ≠ [])
    (h : host = domain ∨ ∃ front, host = front ++ '.' :: domain) : domain ∈ domains host := by
  refine mem_takeWhile_length (tails_shorten host) ?_ (List.length_pos_iff.mpr hdomain)
  rcases h with heq | hfront
  · rw [heq]
    exact List.mem_cons_self ..
  · exact List.mem_cons_of_mem _ (mem_tails.mpr hfront)

theorem domains_nodup (host : Text) : (domains host).Nodup := by
  refine List.Nodup.sublist (List.takeWhile_sublist _) ?_
  refine (tails_shorten host).imp ?_
  intro a b hlt heq
  rw [heq] at hlt
  exact Nat.lt_irrefl _ hlt

/-! ## What is found -/

/-- The cookies that a filter over all buckets finds at a time. -/
def plainFilter (tables : Characters) (query : Query) (time : Int) (s : CookieStore) : List Cookie :=
  s.stored.filter fun cookie => selects tables query cookie && !cookie.hasExpired time

theorem hasExpired_mono {cookie : Cookie} {early late : Int} (h : early ≤ late) (hexpired : cookie.hasExpired early = true) :
    cookie.hasExpired late = true := by
  rw [Cookie.hasExpired, decide_eq_true_eq] at hexpired ⊢
  omega

theorem filter_sublist_expire {clock : Nat → Int} {late : Int} (cookies : List Cookie) (reads : Nat)
    (h : ∀ i < cookies.length, clock (reads + i) ≤ late) :
    (cookies.filter fun cookie => !cookie.hasExpired late).Sublist (expire clock reads cookies) := by
  induction cookies generalizing reads with
  | nil => exact List.Sublist.refl _
  | cons cookie rest ih =>
    have hrest := ih (reads + 1) fun i hi => by
      have := h (i + 1) (Nat.succ_lt_succ hi)
      rw [show reads + 1 + i = reads + (i + 1) by omega]
      exact this
    have hnow := h 0 (Nat.succ_pos _)
    rw [Nat.add_zero] at hnow
    rw [List.filter_cons, expire]
    by_cases hexpired : cookie.hasExpired (clock reads) = true
    · rw [if_pos hexpired, hasExpired_mono hnow hexpired, if_neg (by decide)]
      exact hrest
    · rw [if_neg hexpired]
      split
      · exact hrest.cons_cons _
      · exact hrest.cons _

theorem expire_sublist_filter {clock : Nat → Int} {early : Int} (cookies : List Cookie) (reads : Nat)
    (h : ∀ i < cookies.length, early ≤ clock (reads + i)) :
    (expire clock reads cookies).Sublist (cookies.filter fun cookie => !cookie.hasExpired early) := by
  induction cookies generalizing reads with
  | nil => exact List.Sublist.refl _
  | cons cookie rest ih =>
    have hrest := ih (reads + 1) fun i hi => by
      have := h (i + 1) (Nat.succ_lt_succ hi)
      rw [show reads + 1 + i = reads + (i + 1) by omega]
      exact this
    have hnow := h 0 (Nat.succ_pos _)
    rw [Nat.add_zero] at hnow
    rw [List.filter_cons, expire]
    by_cases hexpired : cookie.hasExpired (clock reads) = true
    · rw [if_pos hexpired]
      split
      · exact hrest.cons _
      · exact hrest
    · have hfresh : cookie.hasExpired early = false := by
        rw [Bool.eq_false_iff]
        intro hearly
        exact hexpired (hasExpired_mono hnow hearly)
      rw [if_neg hexpired, hfresh, if_pos (by decide)]
      exact hrest.cons_cons _

theorem find_spec (tables : Characters) (env : Environment) (query : Query) {search : Search} (hs : Exact search.store)
    (domain : Text) :
    Thins search.store (find tables env query search domain).store ∧
      (∀ d ≠ domain, (find tables env query search domain).store.cookiesOf d = search.store.cookiesOf d) ∧
      (find tables env query search domain).result = search.result ++
        (expire env.clock search.reads (search.store.cookiesOf domain)).filter (selects tables query) ∧
      (find tables env query search domain).reads = search.reads + (search.store.cookiesOf domain).length := by
  rw [find]
  cases hbucket : search.store.bucketOf domain with
  | none =>
    rw [cookiesOf_none hbucket]
    exact ⟨Thins.refl hs, fun _ _ => rfl, (List.append_nil _).symm, rfl⟩
  | some bucket =>
    dsimp only
    rw [cookiesOf_some hbucket]
    refine ⟨hs.expire env.clock search.reads (cookiesOf_some hbucket), ?_, rfl, rfl⟩
    intro d hne
    rw [cookiesOf_setCookies, if_neg hne]

/-- The cookies of some domains that a query selects at a time. -/
def filterDomains (tables : Characters) (query : Query) (time : Int) (s : CookieStore) (domains : List Text) : List Cookie :=
  domains.flatMap fun domain => (s.cookiesOf domain).filter fun cookie =>
    selects tables query cookie && !cookie.hasExpired time

theorem foldl_find_spec {tables : Characters} {env : Environment} (hclock : Monotone env.clock) (query : Query)
    {s : CookieStore} (domains : List Text) (search : Search) (hs : Exact search.store) (hnodup : domains.Nodup)
    (hsame : ∀ domain ∈ domains, search.store.cookiesOf domain = s.cookiesOf domain) :
    Thins search.store (domains.foldl (find tables env query) search).store ∧
      search.reads ≤ (domains.foldl (find tables env query) search).reads ∧
      ∃ found, (domains.foldl (find tables env query) search).result = search.result ++ found ∧
        (filterDomains tables query (env.clock (domains.foldl (find tables env query) search).reads) s domains).Sublist found ∧
        found.Sublist (filterDomains tables query (env.clock 0) s domains) := by
  induction domains generalizing search with
  | nil => exact ⟨Thins.refl hs, Nat.le_refl _, [], (List.append_nil _).symm, List.Sublist.refl _, List.Sublist.refl _⟩
  | cons domain rest ih =>
    obtain ⟨hfresh, hrest⟩ := List.nodup_cons.mp hnodup
    obtain ⟨hthins, hothers, hresult, hreads⟩ := find_spec tables env query hs domain
    have hhere := hsame domain (List.mem_cons_self ..)
    rw [hhere] at hresult hreads
    rw [List.foldl_cons]
    obtain ⟨hthins', hlonger, found, hfound, hlower, hupper⟩ := ih (find tables env query search domain) hthins.exact hrest
      (by
        intro d hd
        rw [hothers d fun heq => hfresh (heq ▸ hd)]
        exact hsame d (List.mem_cons_of_mem _ hd))
    have hlate : ∀ i < (s.cookiesOf domain).length, env.clock (search.reads + i) ≤
        env.clock (rest.foldl (find tables env query) (find tables env query search domain)).reads :=
      fun i hi => hclock (by omega)
    have hearly : ∀ i < (s.cookiesOf domain).length, env.clock 0 ≤ env.clock (search.reads + i) :=
      fun i _ => hclock (Nat.zero_le _)
    refine ⟨hthins.trans hthins', by omega,
      (expire env.clock search.reads (s.cookiesOf domain)).filter (selects tables query) ++ found, ?_, ?_, ?_⟩
    · rw [hfound, hresult, List.append_assoc]
    · rw [filterDomains, List.flatMap_cons]
      refine List.Sublist.append ?_ hlower
      rw [← List.filter_filter]
      exact (filter_sublist_expire (s.cookiesOf domain) search.reads hlate).filter _
    · rw [filterDomains, List.flatMap_cons]
      refine List.Sublist.append ?_ hupper
      rw [← List.filter_filter]
      exact (expire_sublist_filter (s.cookiesOf domain) search.reads hearly).filter _

/-- The cookies have domains in lower case. -/
def Canonical (s : CookieStore) : Prop := ∀ cookie ∈ s.stored, cookie.domain ≠ [] ∧ IsLower cookie.domain

theorem domain_of_selects {tables : Characters} {query : Query} {cookie : Cookie} (hhost : IsLower query.hostname)
    (hdomain : cookie.domain ≠ []) (hlower : IsLower cookie.domain) (h : selects tables query cookie = true) :
    cookie.domain ∈ domains query.hostname := by
  rw [selects, Bool.and_assoc, Bool.and_assoc, Bool.and_eq_true] at h
  refine mem_domains hdomain ?_
  by_cases honly : cookie.hostOnly = true
  · rw [if_pos honly] at h
    exact Or.inl (Characters.equalsIgnoreCase_lower hhost hlower h.1)
  · rw [if_neg honly, Cookie.domainMatches_iff] at h
    rcases h.1 with heq | ⟨hfront, -⟩
    · exact Or.inl heq
    · exact Or.inr hfront

theorem filterDomains_perm {tables : Characters} {query : Query} {s : CookieStore} (hs : Exact s) (hcanonical : Canonical s)
    (hhost : IsLower query.hostname) (time : Int) :
    (filterDomains tables query time s (domains query.hostname)).Perm (plainFilter tables query time s) := by
  have hcollect : ∀ domain, (s.cookiesOf domain).filter (fun cookie => selects tables query cookie && !cookie.hasExpired time) =
      KeyedList.collect Bucket.domain (fun bucket => bucket.cookies.filter fun cookie =>
        selects tables query cookie && !cookie.hasExpired time) domain s.buckets := by
    intro domain
    rw [KeyedList.collect]
    cases hbucket : s.bucketOf domain with
    | none =>
      rw [cookiesOf_none hbucket]
      rw [bucketOf] at hbucket
      rw [hbucket]
      rfl
    | some bucket =>
      rw [cookiesOf_some hbucket]
      rw [bucketOf] at hbucket
      rw [hbucket]
  rw [filterDomains, List.flatMap_congr fun domain _ => hcollect domain, plainFilter, stored, List.filter_flatMap]
  refine KeyedList.flatMap_collect_perm (domains_nodup query.hostname) hs.domains ?_
  intro bucket hbucket hyields
  obtain ⟨cookie, hcookie⟩ := List.exists_mem_of_ne_nil _ hyields
  obtain ⟨hmem, hselected⟩ := List.mem_filter.mp hcookie
  obtain ⟨hdomain, hlower⟩ := hcanonical cookie (List.mem_flatMap.mpr ⟨bucket, hbucket, hmem⟩)
  rw [← hs.home bucket hbucket cookie hmem]
  exact domain_of_selects hhost hdomain hlower (Bool.and_eq_true_iff.mp hselected).1

/-! ## Accesses -/

def accessed (keys : List CookieKey) (currentTime : Int) (cookie : Cookie) : Cookie :=
  if cookie.key ∈ keys then setLastAccessTime currentTime cookie else cookie

theorem accessed_key (keys : List CookieKey) (currentTime : Int) (cookie : Cookie) :
    (accessed keys currentTime cookie).key = cookie.key := by
  rw [accessed]
  split
  · rfl
  · rfl

theorem cookiesOf_touch (keys : List CookieKey) (currentTime : Int) (s : CookieStore) (domain : Text) :
    (touch keys currentTime s).cookiesOf domain = (s.cookiesOf domain).map (accessed keys currentTime) := by
  have hget : KeyedList.get Bucket.domain domain (touch keys currentTime s).buckets =
      (KeyedList.get Bucket.domain domain s.buckets).map fun bucket =>
        { bucket with cookies := bucket.cookies.map (accessed keys currentTime) } := by
    rw [KeyedList.get, touch, List.find?_map]
    rfl
  rw [cookiesOf, KeyedList.collect, hget, cookiesOf, KeyedList.collect]
  cases KeyedList.get Bucket.domain domain s.buckets with
  | none => rfl
  | some bucket => rfl

theorem Exact.touch {s : CookieStore} (hs : Exact s) (keys : List CookieKey) (currentTime : Int) :
    Exact (touch keys currentTime s) := by
  have hmem : ∀ bucket ∈ (CookieStore.touch keys currentTime s).buckets,
      ∃ old ∈ s.buckets, bucket.domain = old.domain ∧ bucket.cookies = old.cookies.map (accessed keys currentTime) := by
    intro bucket hbucket
    obtain ⟨old, hold, rfl⟩ := List.mem_map.mp hbucket
    exact ⟨old, hold, rfl, rfl⟩
  refine ⟨?_, ?_, ?_, ?_⟩
  · have hdomains : (CookieStore.touch keys currentTime s).buckets.map Bucket.domain = s.buckets.map Bucket.domain := by
      rw [CookieStore.touch, List.map_map]
      rfl
    rw [KeyedList.Distinct, hdomains]
    exact hs.domains
  · intro bucket hbucket cookie hcookie
    obtain ⟨old, hold, hdomain, hcookies⟩ := hmem bucket hbucket
    rw [hcookies] at hcookie
    obtain ⟨c, hc, rfl⟩ := List.mem_map.mp hcookie
    rw [hdomain, ← hs.home old hold c hc]
    exact congrArg CookieKey.domain (accessed_key keys currentTime c)
  · intro bucket hbucket
    obtain ⟨old, hold, -, hcookies⟩ := hmem bucket hbucket
    have hkeys : (old.cookies.map (accessed keys currentTime)).map Cookie.key = old.cookies.map Cookie.key := by
      rw [List.map_map]
      exact List.map_congr_left fun c _ => accessed_key keys currentTime c
    rw [KeyedList.Distinct, hcookies, hkeys]
    exact hs.keys old hold
  · have hstored : (CookieStore.touch keys currentTime s).stored = s.stored.map (accessed keys currentTime) := by
      rw [stored, stored, CookieStore.touch, List.flatMap_map, List.map_flatMap]
      rfl
    rw [hstored, List.length_map]
    exact hs.count

theorem lookup_spec (tables : Characters) (env : Environment) (query : Query) {s : CookieStore} (hs : Exact s) :
    Thins s (lookup tables env query s).store := by
  have hfold : ∀ (domains : List Text) (search : Search), Exact search.store →
      Thins search.store (domains.foldl (find tables env query) search).store := by
    intro domains
    induction domains with
    | nil => exact fun search h => Thins.refl h
    | cons domain rest ih =>
      intro search h
      have hthins := (find_spec tables env query h domain).1
      exact hthins.trans (ih (find tables env query search domain) hthins.exact)
  exact hfold _ ⟨s, [], 0⟩ hs

theorem getFor_store (tables : Characters) (env : Environment) (query : Query) {s : CookieStore} (hs : Sized s) :
    Sized (getFor tables env query s).1 ∧ ∀ domain, ∀ cookie ∈ (getFor tables env query s).1.cookiesOf domain,
      ∃ old ∈ s.cookiesOf domain, ∃ keys time, cookie = accessed keys time old := by
  have hthins := lookup_spec tables env query hs.exact
  have hsized := hs.thin hthins
  rw [getFor]
  cases hsort : sort env (lookup tables env query s).result with
  | none =>
    refine ⟨hsized, fun domain cookie hcookie => ⟨cookie, (hthins.sublist domain).subset hcookie, [], 0, ?_⟩⟩
    rw [accessed, if_neg List.not_mem_nil]
  | some result =>
    refine ⟨⟨hsized.exact.touch _ _, fun domain => ?_, hsized.total⟩, fun domain cookie hcookie => ?_⟩
    · rw [cookiesOf_touch, List.length_map]
      exact hsized.bucket domain
    · rw [cookiesOf_touch] at hcookie
      obtain ⟨old, hold, rfl⟩ := List.mem_map.mp hcookie
      exact ⟨old, (hthins.sublist domain).subset hold, _, _, rfl⟩

theorem sort_perm {env : Environment} {xs ys : List Cookie} (h : sort env xs = some ys) : ys.Perm xs := by
  rw [sort] at h
  split at h
  · cases h
    exact List.mergeSort_perm _ _
  · have := (Option.filter_eq_some_iff.mp h).2
    exact decide_eq_true_eq.mp this

/-- The creation times are less than 2^31 milliseconds apart. -/
def Near (c1 c2 : Cookie) : Prop :=
  (c1.creationTime.baseTime - c2.creationTime.baseTime).natAbs < 2 ^ 31 ∧
    (c1.creationTime.subtime - c2.creationTime.subtime).natAbs < 2 ^ 31

theorem getCompare_of_near {c1 c2 : Cookie} (h : Near c1 c2) : getCompare c1 c2 =
    if (c2.path.length : Int) - c1.path.length ≠ 0 then (c2.path.length : Int) - c1.path.length
    else if c1.creationTime.baseTime - c2.creationTime.baseTime ≠ 0 then
      c1.creationTime.baseTime - c2.creationTime.baseTime
    else c1.creationTime.subtime - c2.creationTime.subtime := by
  obtain ⟨hbase, hsub⟩ := h
  rw [getCompare, ExtendedTime.compareTo, Int.bmod_eq_of_le (by omega) (by omega), Int.bmod_eq_of_le (by omega) (by omega)]

theorem isOrder_of_near {xs : List Cookie} (h : ∀ c1 ∈ xs, ∀ c2 ∈ xs, Near c1 c2) : IsOrder getCompare xs := by
  constructor
  · intro x hx y hy
    rw [getCompare_of_near (h x hx y hy), getCompare_of_near (h y hy x hx), ← Int.sign_neg]
    congr 1
    split_ifs
    all_goals omega
  · intro x hx y hy z hz
    rw [getCompare_of_near (h x hx y hy), getCompare_of_near (h y hy z hz), getCompare_of_near (h x hx z hz)]
    split_ifs
    all_goals omega

/-- A look-up returns what the filter selects at the beginning of the call and still at its
end, and nothing that it does not select at the beginning. -/
def Answers (tables : Characters) (env : Environment) (query : Query) (s : CookieStore) : Prop :=
  ((∀ c1 ∈ plainFilter tables query (env.clock 0) s, ∀ c2 ∈ plainFilter tables query (env.clock 0) s, Near c1 c2) →
    (getFor tables env query s).2 ≠ none) ∧
  ∀ cookies, (getFor tables env query s).2 = some cookies →
    ∃ found, cookies = found.map (setLastAccessTime (env.clock (lookup tables env query s).reads)) ∧
      (plainFilter tables query (env.clock (lookup tables env query s).reads) s).Subperm found ∧
      found.Subperm (plainFilter tables query (env.clock 0) s) ∧
      (env.clock (lookup tables env query s).reads = env.clock 0 → found.Perm (plainFilter tables query (env.clock 0) s))

theorem getFor_answers {tables : Characters} {env : Environment} (hclock : Monotone env.clock) {query : Query}
    {s : CookieStore} (hs : Exact s) (hcanonical : Canonical s) (hhost : IsLower query.hostname) :
    Answers tables env query s := by
  obtain ⟨-, -, found, hfound, hlower, hupper⟩ := @foldl_find_spec tables env hclock query s (domains query.hostname)
    ⟨s, [], 0⟩ hs (domains_nodup query.hostname) fun _ _ => rfl
  rw [← lookup, List.nil_append] at hfound
  rw [← lookup] at hlower
  have hlate := (filterDomains_perm hs hcanonical hhost (env.clock (lookup tables env query s).reads)).symm.subperm.trans
    hlower.subperm
  have hearly := hupper.subperm.trans (filterDomains_perm hs hcanonical hhost (env.clock 0)).subperm
  rw [Answers, getFor, hfound]
  constructor
  · intro hnear
    have horder : IsOrder getCompare found :=
      isOrder_of_near fun c1 h1 c2 h2 => hnear c1 (hearly.subset h1) c2 (hearly.subset h2)
    rw [sort, if_pos horder]
    intro h
    cases h
  · intro cookies hcookies
    cases hsort : sort env found with
    | none =>
      rw [hsort] at hcookies
      cases hcookies
    | some result =>
      rw [hsort] at hcookies
      cases hcookies
      have hperm := sort_perm hsort
      refine ⟨result, rfl, hlate.trans hperm.symm.subperm, hperm.subperm.trans hearly, ?_⟩
      intro hstill
      rw [hstill] at hlate
      exact hperm.trans (hearly.antisymm hlate)

/-! ## Runs -/

inductive Action where
  | put (env : Environment) (cookie : Cookie)
  | get (env : Environment) (cookie : Cookie)
  | getFor (env : Environment) (query : Query)

def step (tables : Characters) : Action → CookieStore → Option CookieStore
  | .put env cookie, s => put env cookie s
  | .get env cookie, s => some (get env cookie.key s).1
  | .getFor env query, s => some (getFor tables env query s).1

theorem Sized.new : Sized new :=
  ⟨⟨List.nodup_nil, fun _ h => absurd h List.not_mem_nil, fun _ h => absurd h List.not_mem_nil, rfl⟩,
    fun _ => Nat.zero_le _, by decide⟩

theorem Sized.step {tables : Characters} (a : Action) {s t : CookieStore} (hs : Sized s) (h : step tables a s = some t) :
    Sized t := by
  cases a with
  | put env cookie =>
    obtain ⟨u, hput, hu, -⟩ := put_spec hs env cookie
    rw [CookieStore.step, hput] at h
    cases h
    exact hu
  | get env cookie =>
    cases h
    exact hs.thin (get_spec hs.exact env cookie.key).1
  | getFor env query =>
    cases h
    exact (getFor_store tables env query hs).1

/-- The domain of a cookie that is put is in lower case. -/
def PutsCanonical : Action → Prop
  | .put _ cookie => cookie.domain ≠ [] ∧ IsLower cookie.domain
  | _ => True

theorem Canonical.step {tables : Characters} (a : Action) {s t : CookieStore} (hs : Sized s) (hcanonical : Canonical s)
    (ha : PutsCanonical a) (h : step tables a s = some t) : Canonical t := by
  have ht := hs.step a h
  intro cookie hcookie
  rw [ht.exact.mem_stored] at hcookie
  have hold : ∀ c ∈ s.cookiesOf cookie.domain, c.domain ≠ [] ∧ IsLower c.domain := by
    intro c hc
    refine hcanonical c (hs.exact.mem_stored.mpr ?_)
    rw [hs.exact.home_cookiesOf hc]
    exact hc
  cases a with
  | put env new =>
    obtain ⟨u, hput, -, hadds⟩ := put_spec hs env new
    rw [CookieStore.step, hput] at h
    cases h
    rcases hadds cookie.domain cookie hcookie with rfl | ⟨hmem, -⟩
    · exact ha
    · exact hold cookie hmem
  | get env key =>
    cases h
    exact hold cookie (((get_spec hs.exact env key.key).1.sublist cookie.domain).subset hcookie)
  | getFor env query =>
    cases h
    obtain ⟨old, hmem, keys, time, heq⟩ := (getFor_store tables env query hs).2 cookie.domain cookie hcookie
    have hdomain : cookie.domain = old.domain := by
      rw [heq]
      exact congrArg CookieKey.domain (accessed_key keys time old)
    rw [hdomain]
    exact hold old hmem

/-- The counters after every run, and the look-ups after the runs that `CookieManager` makes:
its hosts and domains are in lower case. -/
theorem lookups_complete {tables : Characters} {as : List Action} {s : CookieStore}
    (hrun : execute (step tables) as new = some s) :
    (s.totalCount = s.stored.length ∧ (∀ bucket ∈ s.buckets, bucket.cookies.length ≤ MAX_BUCKET_SIZE) ∧
      s.totalCount ≤ TOTAL_COUNT_UPPER_THRESHOLD ∧ (s.stored.map Cookie.key).Nodup) ∧
    (∀ env cookie, put env cookie s ≠ none) ∧
    ((∀ a ∈ as, PutsCanonical a) → ∀ env query, Monotone env.clock → IsLower query.hostname → Answers tables env query s) := by
  have hs : Sized s := execute_preserves (fun a _ _ (_ : True) hu hstep => hu.step a hstep) (fun _ _ => trivial) Sized.new hrun
  refine ⟨⟨hs.exact.count, ?_, hs.total, hs.exact.stored_distinct⟩, ?_, ?_⟩
  · intro bucket hbucket
    rw [← hs.exact.cookiesOf_domain hbucket]
    exact hs.bucket bucket.domain
  · intro env cookie hnone
    obtain ⟨t, hput, -⟩ := put_spec hs env cookie
    rw [hput] at hnone
    cases hnone
  · intro hputs env query hclock hhost
    have hboth : Sized s ∧ Canonical s := @execute_preserves _ _ (step tables) _ _ _ (fun u => Sized u ∧ Canonical u)
      PutsCanonical (fun a u v ha hu hstep => ⟨hu.1.step a hstep, hu.2.step a hu.1 ha hstep⟩) hputs
      ⟨Sized.new, fun _ h => absurd h List.not_mem_nil⟩ hrun
    exact getFor_answers hclock hs.exact hboth.2 hhost

/-- A clock that stands still, and a sort that throws an exception when it may. -/
def still : Environment := ⟨fun _ => 0, id, fun _ => none⟩

def hostOnlyCookie : Cookie := ⟨['n'], ['v'], 9, ['a', '.', 'b'], ['/'], ⟨0, 0⟩, 0, true, true, false, false⟩

def secondCookie : Cookie := { hostOnlyCookie with name := ['m'] }

def twoCookies : CookieStore := ⟨[⟨['a', '.', 'b'], [hostOnlyCookie, secondCookie]⟩], 2⟩

theorem lookups_complete_two :
    execute (step .ascii) [.put still hostOnlyCookie, .put still secondCookie] new = some twoCookies ∧
      twoCookies.totalCount = twoCookies.stored.length ∧
      Answers .ascii still ⟨['a', '.', 'b'], some ['/'], false, true⟩ twoCookies := by
  have hrun : execute (step .ascii) [.put still hostOnlyCookie, .put still secondCookie] new = some twoCookies := rfl
  obtain ⟨hcounts, -, hanswers⟩ := lookups_complete hrun
  refine ⟨hrun, hcounts.1, hanswers ?_ still _ (fun _ _ _ => Int.le_refl _) (by decide)⟩
  intro a ha
  rcases List.mem_cons.mp ha with rfl | ha
  · exact ⟨by decide, by decide⟩
  · rw [List.mem_singleton.mp ha]
    exact ⟨by decide, by decide⟩

/-- A clock on which 9 ms have passed at the first reading, and 10 ms at all others. -/
def passing : Environment := ⟨fun i => if i = 0 then 9 else 10, id, fun _ => none⟩

/-- Two cookies expire when 9 ms are over, between the two readings of the clock: one of
them is returned, though at every time the filter selects both or none.  The host `A.b`
equals the domain `a.b` ignoring the case, but its bucket is not the one of `a.b`. -/
theorem expiry_splits_lookup :
    execute (step .ascii) [.put still hostOnlyCookie, .put still secondCookie] new = some twoCookies ∧
    (getFor .ascii passing ⟨['a', '.', 'b'], some ['/'], false, true⟩ twoCookies).2 =
      some [setLastAccessTime 10 hostOnlyCookie] ∧
    (∀ time, plainFilter .ascii ⟨['a', '.', 'b'], some ['/'], false, true⟩ time twoCookies =
      if time > 9 then [] else [hostOnlyCookie, secondCookie]) ∧
    (getFor .ascii still ⟨['A', '.', 'b'], some ['/'], false, true⟩ twoCookies).2 = some [] ∧
    plainFilter .ascii ⟨['A', '.', 'b'], some ['/'], false, true⟩ 0 twoCookies = [hostOnlyCookie, secondCookie] := by
  refine ⟨rfl, ?_, ?_, ?_, by decide⟩
  · have hresult : (lookup .ascii passing ⟨['a', '.', 'b'], some ['/'], false, true⟩ twoCookies).result =
        [hostOnlyCookie] := by decide
    rw [getFor, hresult, sort, if_pos (by decide), List.mergeSort_singleton]
    rfl
  · intro time
    have hselects : ∀ cookie ∈ twoCookies.stored,
        selects .ascii ⟨['a', '.', 'b'], some ['/'], false, true⟩ cookie = true ∧ cookie.expiryTime = 9 := by decide
    have hfilter : plainFilter .ascii ⟨['a', '.', 'b'], some ['/'], false, true⟩ time twoCookies =
        twoCookies.stored.filter fun _ => !decide (time > 9) := by
      refine List.filter_congr ?_
      intro cookie hcookie
      obtain ⟨hselected, hexpiry⟩ := hselects cookie hcookie
      rw [hselected, Bool.true_and, Cookie.hasExpired, hexpiry]
    rw [hfilter]
    split
    · rename_i hlate
      simp [hlate]
    · rename_i hearly
      simp only [hearly, decide_false, Bool.not_false, List.filter_true]
      rfl
  · have hresult : (lookup .ascii still ⟨['A', '.', 'b'], some ['/'], false, true⟩ twoCookies).result = [] := by decide
    rw [getFor, hresult, sort, if_pos (by decide), List.mergeSort_nil]
    rfl

end CookieStore
end OpenJfx.Network
