import OpenJfx.Network.CookieManager

/-! # Where cookies get

A cookie is set by a `put` from some host, and it is returned to that host, or to the hosts in
its domain when the domain is no public suffix. -/
set_option autoImplicit false
namespace OpenJfx.Network
open OpenJfx.Lib

def PathMatches (path cookiePath : Text) : Prop :=
  path = cookiePath ∨ ∃ rest, path = cookiePath ++ rest ∧ (['/'] <:+ cookiePath ∨ ['/'] <+: rest)

theorem pathMatches_iff {path cookiePath : Text} :
    Cookie.pathMatches (some path) cookiePath = true ↔ PathMatches path cookiePath := by
  rw [Cookie.pathMatches, Bool.and_eq_true, List.isPrefixOf_iff_prefix, Bool.or_eq_true, Bool.or_eq_true,
    decide_eq_true_eq, decide_eq_true_eq, List.isSuffixOf_iff_suffix]
  constructor
  · intro h
    obtain ⟨⟨rest, hrest⟩, hcases⟩ := h
    rcases hcases with (hlength | hslash) | hnext
    · rw [← hrest, List.length_append] at hlength
      have hnil : rest = [] := List.length_eq_zero_iff.mp (by omega)
      rw [← hrest, hnil, List.append_nil]
      exact Or.inl rfl
    · exact Or.inr ⟨rest, hrest.symm, Or.inl hslash⟩
    · refine Or.inr ⟨rest, hrest.symm, Or.inr ?_⟩
      rw [← hrest, List.getElem?_append_right (Nat.le_refl _), Nat.sub_self] at hnext
      cases rest with
      | nil => cases hnext
      | cons c rest =>
        rw [List.getElem?_cons_zero, Option.some_inj] at hnext
        exact ⟨rest, by rw [hnext, List.singleton_append]⟩
  · intro h
    rcases h with heq | ⟨rest, hrest, hcases⟩
    · rw [heq]
      exact ⟨List.prefix_refl _, Or.inl (Or.inl rfl)⟩
    · refine ⟨⟨rest, hrest.symm⟩, ?_⟩
      rcases hcases with hslash | ⟨rest', hnext⟩
      · exact Or.inl (Or.inr hslash)
      · refine Or.inr ?_
        rw [hrest, List.getElem?_append_right (Nat.le_refl _), Nat.sub_self, ← hnext, List.singleton_append,
          List.getElem?_cons_zero]

namespace CookieStore

theorem mem_lookup {tables : Characters} {env : Environment} {query : Query} {s : CookieStore} (hs : Exact s) {cookie : Cookie}
    (h : cookie ∈ (lookup tables env query s).result) : cookie ∈ s.stored ∧ selects tables query cookie = true := by
  have hfold : ∀ (domains : List Text) (search : Search), Thins s search.store →
      (∀ c ∈ search.result, c ∈ s.stored ∧ selects tables query c = true) →
      ∀ c ∈ (domains.foldl (find tables env query) search).result, c ∈ s.stored ∧ selects tables query c = true := by
    intro domains
    induction domains with
    | nil => exact fun search _ hresult => hresult
    | cons domain rest ih =>
      intro search hthins hresult
      obtain ⟨hfound, -, heq, -⟩ := find_spec tables env query hthins.exact domain
      refine ih (find tables env query search domain) (hthins.trans hfound) ?_
      intro c hc
      rw [heq] at hc
      rcases List.mem_append.mp hc with hold | hnew
      · exact hresult c hold
      · obtain ⟨hkept, hselected⟩ := List.mem_filter.mp hnew
        have hmem := (hthins.sublist domain).subset ((expire_sublist _ _ _).subset hkept)
        refine ⟨hs.mem_stored.mpr ?_, hselected⟩
        rw [hs.home_cookiesOf hmem]
        exact hmem
  exact hfold _ ⟨s, [], 0⟩ (Thins.refl hs) (fun _ hc => absurd hc List.not_mem_nil) cookie h

theorem mem_getFor {tables : Characters} {env : Environment} {query : Query} {s : CookieStore} (hs : Exact s)
    {cookies : List Cookie} (h : (getFor tables env query s).2 = some cookies) {cookie : Cookie} (hcookie : cookie ∈ cookies) :
    ∃ old ∈ s.stored, selects tables query old = true ∧ ∃ time, cookie = setLastAccessTime time old := by
  rw [getFor] at h
  cases hsort : sort env (lookup tables env query s).result with
  | none =>
    rw [hsort] at h
    cases h
  | some result =>
    rw [hsort] at h
    cases h
    obtain ⟨old, hold, rfl⟩ := List.mem_map.mp hcookie
    obtain ⟨hstored, hselected⟩ := mem_lookup hs ((sort_perm hsort).subset hold)
    exact ⟨old, hstored, hselected, _, rfl⟩

theorem Exact.eq_of_key {s : CookieStore} (hs : Exact s) {c c' : Cookie} (hc : c ∈ s.stored) (hc' : c' ∈ s.stored)
    (h : c.key = c'.key) : c = c' := List.inj_on_of_nodup_map hs.stored_distinct hc hc' h

theorem Adds.stored {cookie : Cookie} {s t : CookieStore} (hs : Exact s) (ht : Exact t) (h : Adds cookie s t) :
    ∀ c ∈ t.stored, c = cookie ∨ c ∈ s.stored := by
  intro c hc
  rcases h c.domain c (ht.mem_stored.mp hc) with heq | ⟨hold, -⟩
  · exact Or.inl heq
  · exact Or.inr (hs.mem_stored.mpr hold)

/-! ### What a call leaves -/

theorem mem_stored_setCookies {s : CookieStore} (hs : Exact s) {domain : Text} {cookies : List Cookie} {count : Int}
    (ht : Exact ⟨s.setCookies domain cookies, count⟩) {c : Cookie} (hc : c ∈ s.stored)
    (hkept : c ∈ s.cookiesOf domain → c ∈ cookies) : c ∈ (⟨s.setCookies domain cookies, count⟩ : CookieStore).stored := by
  have hmem := hs.mem_stored.mp hc
  rw [ht.mem_stored, cookiesOf_setCookies]
  split
  · rename_i hdomain
    rw [hdomain] at hmem
    exact hkept hmem
  · exact hmem

/-- A look-up removes at most the cookie of its key, when it has expired. -/
theorem get_keeps {s : CookieStore} (hs : Exact s) (env : Environment) {key : CookieKey} {c : Cookie} (hc : c ∈ s.stored)
    (hfresh : c.hasExpired (env.clock 0) = false) : c ∈ (s.get env key).1.stored := by
  obtain ⟨hthins, -, -⟩ := get_spec hs env key
  revert hthins
  rw [get]
  cases hbucket : s.bucketOf key.domain with
  | none => exact fun _ => hc
  | some bucket =>
    dsimp only
    rw [← cookiesOf_some hbucket]
    cases hget : KeyedList.get Cookie.key key (s.cookiesOf key.domain) with
    | none => exact fun _ => hc
    | some storedCookie =>
      obtain ⟨hstored, hkey⟩ := KeyedList.get_mem hget
      dsimp only
      split
      · rename_i hexpired
        intro hthins
        refine mem_stored_setCookies hs hthins.exact hc ?_
        intro hmem
        refine KeyedList.mem_remove hmem ?_
        intro hsame
        rw [List.inj_on_of_nodup_map (hs.keys_cookiesOf key.domain) hmem hstored (hsame.trans hkey.symm), hexpired] at hfresh
        cases hfresh
      · exact fun _ => hc

/-- A cookie that `put` adds finds its bucket or the store full. -/
def Evicts (env : Environment) (cookie : Cookie) (s : CookieStore) : Prop :=
  PutsNew env cookie s ∧
    (MAX_BUCKET_SIZE ≤ (s.cookiesOf cookie.domain).length ∨ TOTAL_COUNT_UPPER_THRESHOLD ≤ s.totalCount)

theorem filled_of_room {env : Environment} {cookie : Cookie} {s : CookieStore}
    (hroom : (s.cookiesOf cookie.domain).length < MAX_BUCKET_SIZE) :
    (filled env cookie s).1 = ⟨s.setCookies cookie.domain (s.cookiesOf cookie.domain ++ [cookie]), s.totalCount + 1⟩ := by
  have hlength : ¬(s.cookiesOf cookie.domain ++ [cookie]).length > MAX_BUCKET_SIZE := by
    rw [List.length_append, List.length_singleton]
    omega
  rw [filled]
  dsimp only
  rw [if_neg hlength]

/-- Without an eviction a `put` leaves the cookies with other keys. -/
theorem put_keeps {s t : CookieStore} (hs : Sized s) {env : Environment} {cookie : Cookie} (hput : put env cookie s = some t)
    {c : Cookie} (hc : c ∈ s.stored) (hkey : c.key ≠ cookie.key) : c ∈ t.stored ∨ Evicts env cookie s := by
  obtain ⟨u, hu, ht, -⟩ := put_spec hs env cookie
  cases hput.symm.trans hu
  cases hget : KeyedList.get Cookie.key cookie.key (s.cookiesOf cookie.domain) with
  | none =>
    cases hexpired : cookie.hasExpired (env.clock 0) with
    | true =>
      rw [put, putInto, bucket_cookies, hexpired, hget] at hput
      cases hput
      exact Or.inl (mem_stored_setCookies hs.exact ht.exact hc id)
    | false =>
      have hnew : PutsNew env cookie s := ⟨hexpired, hget⟩
      by_cases hfull : MAX_BUCKET_SIZE ≤ (s.cookiesOf cookie.domain).length ∨ TOTAL_COUNT_UPPER_THRESHOLD ≤ s.totalCount
      · exact Or.inr ⟨hnew, hfull⟩
      · rw [not_or, Nat.not_le, Int.not_le] at hfull
        have hcount : ¬s.totalCount + 1 > TOTAL_COUNT_UPPER_THRESHOLD := by omega
        rw [put_eq hnew, filled_of_room hfull.1, if_neg hcount] at hput
        cases hput
        exact Or.inl (mem_stored_setCookies hs.exact ht.exact hc (fun hmem => List.mem_append_left _ hmem))
  | some old =>
    cases hexpired : cookie.hasExpired (env.clock 0) with
    | true =>
      rw [put, putInto, bucket_cookies, hexpired, hget] at hput
      cases hput
      exact Or.inl (mem_stored_setCookies hs.exact ht.exact hc (fun hmem => KeyedList.mem_remove hmem hkey))
    | false =>
      rw [put, putInto, bucket_cookies, hexpired, hget] at hput
      cases hput
      exact Or.inl (mem_stored_setCookies hs.exact ht.exact hc (fun hmem => KeyedList.mem_update hmem hkey))

end CookieStore

namespace CookieManager
variable (platform : Platform)

/-- A put that is not HTTP leaves an HttpOnly cookie that has not expired and puts no
other one in its place, unless the cookie is evicted. -/
def Spares (time : Int) (evicted : Cookie → Prop) (s t : CookieStore) : Prop :=
  ∀ c ∈ s.stored, c.httpOnly = true → c.hasExpired time = false →
    (c ∈ t.stored ∨ evicted c) ∧ ∀ c' ∈ t.stored, c'.key = c.key → c' = c

theorem Spares.refl {s : CookieStore} (hs : s.Exact) (time : Int) (evicted : Cookie → Prop) : Spares time evicted s s :=
  fun _ hc _ _ => ⟨Or.inl hc, fun _ hc' hkey => hs.eq_of_key hc' hc hkey⟩

/-- The cookie is one that a new cookie may drive out, which is put after a look-up. -/
def DrivenOut (env env' : Environment) (cookie : Cookie) (s : CookieStore) (c : Cookie) : Prop :=
  c.key ≠ cookie.key ∧ CookieStore.Evicts env' cookie (s.get env cookie.key).1

theorem store_spec (env env' : Environment) (http : Bool) (cookie : Cookie) {s : CookieStore} (hs : s.Sized) :
    ∃ t, store env env' http cookie s = some t ∧ t.Sized ∧
      (∀ c ∈ t.stored, c ∈ s.stored ∨ ∃ time, c = { cookie with creationTime := time }) ∧
      (http = false → Spares (env.clock 0) (DrivenOut env env' cookie s) s t) := by
  obtain ⟨hthins, hsome, hnone⟩ := CookieStore.get_spec hs.exact env cookie.key
  have hkeeps := fun c hc hfresh => @CookieStore.get_keeps s hs.exact env cookie.key c hc hfresh
  rw [store]
  cases hget : s.get env cookie.key with
  | mk u old =>
    rw [hget] at hthins hsome hnone hkeeps
    cases old with
    | some oldCookie =>
      obtain ⟨rfl, hmem, hkey⟩ := hsome oldCookie rfl
      have hstored : oldCookie ∈ u.stored := by
        refine hs.exact.mem_stored.mpr ?_
        rw [hs.exact.home_cookiesOf hmem]
        exact hmem
      dsimp only
      by_cases hblocked : (oldCookie.httpOnly && !http) = true
      · rw [if_pos hblocked]
        exact ⟨u, rfl, hs, fun c hc => Or.inl hc, fun _ => Spares.refl hs.exact _ _⟩
      · rw [if_neg hblocked]
        obtain ⟨t, hput, ht, hadds⟩ := CookieStore.put_spec hs env' { cookie with creationTime := oldCookie.creationTime }
        have hall := hadds.stored hs.exact ht.exact
        refine ⟨t, hput, ht, ?_, ?_⟩
        · intro c hc
          rcases hall c hc with heq | hold
          · exact Or.inr ⟨_, heq⟩
          · exact Or.inl hold
        · intro hhttp c hc honly _
          have hother : c.key ≠ cookie.key := by
            intro hsame
            rw [← hs.exact.eq_of_key hc hstored (hsame.trans hkey.symm), honly, hhttp] at hblocked
            exact hblocked rfl
          refine ⟨?_, ?_⟩
          · rcases CookieStore.put_keeps hs hput hc hother with hkept | hevicts
            · exact Or.inl hkept
            · exact Or.inr ⟨hother, by rw [hget]; exact hevicts⟩
          · intro c' hc' hsame
            rcases hall c' hc' with heq | hold
            · exact absurd (hsame.symm.trans (congrArg Cookie.key heq)) hother
            · exact hs.exact.eq_of_key hold hc hsame
    | none =>
      have hexpired := hnone rfl
      obtain ⟨t, hput, ht, hadds⟩ := CookieStore.put_spec (hs.thin hthins) env' cookie
      have hall := hadds.stored hthins.exact ht.exact
      refine ⟨t, hput, ht, ?_, ?_⟩
      · intro c hc
        rcases hall c hc with heq | hold
        · exact Or.inr ⟨cookie.creationTime, heq⟩
        · exact Or.inl (hthins.stored hs.exact c hold)
      · intro _ c hc _ hfresh
        have hother : c.key ≠ cookie.key := by
          intro hsame
          have hdomain : c.domain = cookie.key.domain := congrArg CookieKey.domain hsame
          have hmem := hs.exact.mem_stored.mp hc
          rw [hdomain] at hmem
          rw [hexpired c hmem hsame] at hfresh
          cases hfresh
        refine ⟨?_, ?_⟩
        · rcases CookieStore.put_keeps (hs.thin hthins) hput (hkeeps c hc hfresh) hother with hkept | hevicts
          · exact Or.inl hkept
          · exact Or.inr ⟨hother, by rw [hget]; exact hevicts⟩
        · intro c' hc' hsame
          rcases hall c' hc' with heq | hold
          · exact absurd (hsame.symm.trans (congrArg Cookie.key heq)) hother
          · exact hs.exact.eq_of_key (hthins.stored hs.exact c' hold) hc hsame

/-- The cookie is what a put from the host `host` makes of a header. -/
def SetFrom (uri : URI) (host value : Text) (c : Cookie) : Prop :=
  ∃ currentTime cookie, Cookie.parse platform.tables platform.parseDate value currentTime = some cookie ∧
    c.name = cookie.name ∧ c.value = cookie.value ∧ c.expiryTime = cookie.expiryTime ∧
    c.path = cookie.path.getD (Cookie.defaultPath uri.path) ∧ c.secureOnly = cookie.secureOnly ∧
    c.httpOnly = cookie.httpOnly ∧
    (c.hostOnly = true ∧ c.domain = host ∨
      c.hostOnly = false ∧ isPublicSuffix platform.rules c.domain = false ∧ Cookie.Under host c.domain)

theorem domainFor_spec {host domain : Text} {cookie : Cookie.Parsed} {hostOnly : Bool}
    (h : domainFor platform host cookie = some (domain, hostOnly)) :
    hostOnly = true ∧ domain = host ∨
      hostOnly = false ∧ isPublicSuffix platform.rules domain = false ∧ Cookie.Under host domain := by
  rw [domainFor] at h
  by_cases hpublic : isPublicSuffix platform.rules cookie.domain = true
  · rw [hpublic, if_pos rfl, Bool.true_and] at h
    split at h
    · cases h
    · cases h
      exact Or.inl ⟨rfl, rfl⟩
  · rw [Bool.not_eq_true] at hpublic
    rw [hpublic, Bool.false_and, if_neg Bool.false_ne_true, if_neg Bool.false_ne_true] at h
    dsimp only at h
    by_cases hlength : cookie.domain.length > 0
    · rw [if_pos hlength] at h
      by_cases hmatches : Cookie.domainMatches host cookie.domain = true
      · rw [if_pos hmatches] at h
        cases h
        exact Or.inr ⟨rfl, hpublic, Cookie.domainMatches_iff.mp hmatches⟩
      · rw [if_neg hmatches] at h
        cases h
    · rw [if_neg hlength] at h
      cases h
      exact Or.inl ⟨rfl, rfl⟩

/-- The cookie is one that the cookie put from `uri` may drive out. -/
def Evicted (env env' : Environment) (uri : URI) (cookie : Cookie.Parsed) (s : CookieStore) (c : Cookie) : Prop :=
  ∃ host domain hostOnly, uri.host = some host ∧
    domainFor platform (platform.tables.lowerCase host) cookie = some (domain, hostOnly) ∧
    DrivenOut env env' (complete uri domain hostOnly cookie) s c

theorem putCookie_spec (env env' : Environment) {uri : URI} {value : Text} {currentTime : ExtendedTime}
    {cookie : Cookie.Parsed} {s : CookieStore} (hs : s.Sized)
    (hparse : Cookie.parse platform.tables platform.parseDate value currentTime = some cookie) :
    ∃ t, putCookie platform env env' uri cookie s = some t ∧ t.Sized ∧
      (∀ c ∈ t.stored, c ∈ s.stored ∨
        ∃ host, uri.host = some host ∧ SetFrom platform uri (platform.tables.lowerCase host) value c) ∧
      (httpApi platform uri = false → Spares (env.clock 0) (Evicted platform env env' uri cookie s) s t) := by
  have hsame : ∃ t, some s = some t ∧ t.Sized ∧
      (∀ c ∈ t.stored, c ∈ s.stored ∨
        ∃ host, uri.host = some host ∧ SetFrom platform uri (platform.tables.lowerCase host) value c) ∧
      (httpApi platform uri = false → Spares (env.clock 0) (Evicted platform env env' uri cookie s) s t) :=
    ⟨s, rfl, hs, fun c hc => Or.inl hc, fun _ => Spares.refl hs.exact _ _⟩
  rw [putCookie]
  cases hhost : uri.host with
  | none =>
    rw [hhost] at hsame
    exact hsame
  | some host =>
    rw [hhost] at hsame
    dsimp only
    split
    · exact hsame
    · cases hdomain : domainFor platform (platform.tables.lowerCase host) cookie with
      | none => exact hsame
      | some target =>
        obtain ⟨domain, hostOnly⟩ := target
        dsimp only
        split
        · exact hsame
        · obtain ⟨t, hstore, ht, hall, hspares⟩ :=
            store_spec env env' (httpApi platform uri) (complete uri domain hostOnly cookie) hs
          refine ⟨t, hstore, ht, ?_, ?_⟩
          · intro c hc
            rcases hall c hc with hold | ⟨time, rfl⟩
            · exact Or.inl hold
            · exact Or.inr ⟨host, rfl, currentTime, cookie, hparse, rfl, rfl, rfl, rfl, rfl, rfl,
                domainFor_spec platform hdomain⟩
          · intro hhttp c hc honly hfresh
            obtain ⟨hkept, hothers⟩ := hspares hhttp c hc honly hfresh
            exact ⟨hkept.imp_right fun hout => ⟨host, domain, hostOnly, hhost, hdomain, hout⟩, hothers⟩

/-! ## Runs -/

theorem putValues_spec (env : Nat → Environment) {uri : URI} {origin : Cookie → Prop} (values : List Text)
    (hvalues : ∀ value ∈ values, ∀ host, uri.host = some host → ∀ c,
      SetFrom platform uri (platform.tables.lowerCase host) value c → origin c)
    (currentTime : ExtendedTime) (progress : Progress) (hs : progress.store.Sized) (horigin : ∀ c ∈ progress.store.stored, origin c) :
    ∃ t, putValues platform env uri values currentTime progress = some t ∧ t.store.Sized ∧ ∀ c ∈ t.store.stored, origin c := by
  induction values generalizing currentTime progress with
  | nil => exact ⟨progress, rfl, hs, horigin⟩
  | cons value rest ih =>
    have hrest := ih fun v hv => hvalues v (List.mem_cons_of_mem _ hv)
    rw [putValues]
    cases hparse : Cookie.parse platform.tables platform.parseDate value currentTime with
    | none => exact hrest currentTime progress hs horigin
    | some cookie =>
      obtain ⟨t, hput, ht, hall, -⟩ :=
        putCookie_spec platform (env progress.calls) (env (progress.calls + 1)) hs hparse
      dsimp only
      rw [hput]
      refine hrest currentTime.incrementSubtime ⟨t, progress.calls + 2⟩ ht ?_
      intro c hc
      rcases hall c hc with hold | ⟨host, hhost, hset⟩
      · exact horigin c hold
      · exact hvalues value (List.mem_cons_self ..) host hhost c hset

theorem put_spec (env : Nat → Environment) {uri : URI} {origin : Cookie → Prop}
    (responseHeaders : List (Option Text × List Text))
    (hheaders : ∀ key values, (key, values) ∈ responseHeaders → isSetCookie platform key = true → ∀ value ∈ values,
      ∀ host, uri.host = some host → ∀ c, SetFrom platform uri (platform.tables.lowerCase host) value c → origin c)
    (progress : Progress) (hs : progress.store.Sized) (horigin : ∀ c ∈ progress.store.stored, origin c) :
    ∃ t, put platform env uri responseHeaders progress = some t ∧ t.store.Sized ∧ ∀ c ∈ t.store.stored, origin c := by
  induction responseHeaders generalizing progress with
  | nil => exact ⟨progress, rfl, hs, horigin⟩
  | cons header rest ih =>
    obtain ⟨key, values⟩ := header
    have hrest := ih fun k vs hmem => hheaders k vs (List.mem_cons_of_mem _ hmem)
    rw [put]
    by_cases hkey : isSetCookie platform key = true
    · rw [if_pos hkey]
      obtain ⟨t, hput, ht, hall⟩ := putValues_spec platform env values.reverse
        (fun value hvalue => hheaders key values (List.mem_cons_self ..) hkey value (List.mem_reverse.mp hvalue))
        ⟨(env progress.calls).clock 0, 0⟩ ⟨progress.store, progress.calls + 1⟩ hs horigin
      rw [hput]
      exact hrest t ht hall
    · rw [if_neg hkey]
      exact hrest progress hs horigin

/-- A put of the run has set the cookie from the host. -/
def SetBy (as : List Action) (host : Text) (c : Cookie) : Prop :=
  ∃ env uri responseHeaders key values value, Action.put env uri responseHeaders ∈ as ∧ uri.host = some host ∧
    (key, values) ∈ responseHeaders ∧ isSetCookie platform key = true ∧ value ∈ values ∧
    SetFrom platform uri (platform.tables.lowerCase host) value c

/-- Every stored cookie has been set. -/
structure Traced (as : List Action) (s : CookieStore) : Prop where
  sized : s.Sized
  set : ∀ c ∈ s.stored, ∃ host, SetBy platform as host c

variable {platform}

theorem SetBy.access {as : List Action} {host : Text} {c : Cookie} (h : SetBy platform as host c) (keys : List CookieKey)
    (time : Int) : SetBy platform as host (CookieStore.accessed keys time c) := by
  rw [CookieStore.accessed]
  split
  · exact h
  · exact h

theorem Traced.step {as : List Action} {a : Action} {s t : CookieStore} (ha : a ∈ as) (hs : Traced platform as s)
    (h : step platform a s = some t) : Traced platform as t := by
  cases a with
  | put env uri responseHeaders =>
    obtain ⟨u, hput, hu, hall⟩ := put_spec platform env responseHeaders
      (fun key values hmem hkey value hvalue host hhost c hset =>
        (⟨host, env, uri, responseHeaders, key, values, value, ha, hhost, hmem, hkey, hvalue, hset⟩ :
          ∃ host, SetBy platform as host c)) ⟨s, 0⟩ hs.sized hs.set
    rw [CookieManager.step, hput] at h
    cases h
    exact ⟨hu, hall⟩
  | get env uri =>
    cases h
    rw [get, cookieList]
    cases uri.host with
    | none => exact hs
    | some host =>
      dsimp only
      split
      · exact hs
      · obtain ⟨hsized, hall⟩ := CookieStore.getFor_store platform.tables env
          ⟨platform.tables.lowerCase host, uri.path, secureProtocol platform uri, httpApi platform uri⟩ hs.sized
        refine ⟨hsized, fun c hc => ?_⟩
        obtain ⟨old, hmem, keys, time, rfl⟩ := hall c.domain c (hsized.exact.mem_stored.mp hc)
        have hold : old ∈ s.stored := by
          refine hs.sized.exact.mem_stored.mpr ?_
          rw [hs.sized.exact.home_cookiesOf hmem]
          exact hmem
        obtain ⟨H, hset⟩ := hs.set old hold
        exact ⟨H, hset.access keys time⟩

def InLowerCase : Action → Prop
  | .put _ uri _ => ∀ host, uri.host = some host → IsLower host
  | .get _ uri => ∀ host, uri.host = some host → IsLower host

/-- The host may see the cookie that was set from `H`. -/
def Reaches (H host : Text) (c : Cookie) : Prop :=
  c.hostOnly = true ∧ host = H ∨
    isPublicSuffix platform.rules c.domain = false ∧ Cookie.Under H c.domain ∧ Cookie.Under host c.domain

theorem reaches_of_selects {as : List Action} (hlower : ∀ a ∈ as, InLowerCase a) {H host : Text} {query : Query} {c : Cookie}
    (hset : SetBy platform as H c) (hhost : IsLower host) (hquery : query.hostname = host)
    (h : CookieStore.selects platform.tables query c = true) : @Reaches platform H host c := by
  obtain ⟨env, uri, responseHeaders, key, values, value, hmem, hH, -, -, -, -, -, -, -, -, -, -, -, -, horigin⟩ := hset
  have hHlower : IsLower H := hlower _ hmem H hH
  rw [platform.tables.lowerCase_lower H hHlower] at horigin
  rw [CookieStore.selects, Bool.and_assoc, Bool.and_assoc, Bool.and_eq_true, hquery] at h
  rcases horigin with ⟨honly, hdomain⟩ | ⟨honly, hpublic, hunder⟩
  · rw [honly, if_pos rfl, hdomain] at h
    exact Or.inl ⟨honly, Characters.equalsIgnoreCase_lower hhost hHlower h.1⟩
  · rw [honly, if_neg Bool.false_ne_true, Cookie.domainMatches_iff] at h
    exact Or.inr ⟨hpublic, hunder, h.1⟩

/-- After every run a cookie is returned to hosts that it may reach, for paths that match,
and in protocols that it allows; and a put that is not HTTP neither changes nor replaces an
HttpOnly cookie that has not expired, and leaves it unless it is evicted.  Every store in the course of a `put` is one after a run:
the run with fewer headers. -/
theorem cookies_reach {as : List Action} {s : CookieStore} (hlower : ∀ a ∈ as, InLowerCase a)
    (hrun : execute (step platform) as CookieStore.new = some s) :
    (∀ env uri host cookies, uri.host = some host → IsLower host → (cookieList platform env uri s).2 = some cookies →
      ∀ c ∈ cookies, ∃ H, SetBy platform as H c ∧ @Reaches platform H host c ∧
        (∃ path, uri.path = some path ∧ PathMatches path c.path) ∧
        (c.secureOnly = true → secureProtocol platform uri = true) ∧ (c.httpOnly = true → httpApi platform uri = true)) ∧
    ∀ env env' uri value currentTime cookie,
      Cookie.parse platform.tables platform.parseDate value currentTime = some cookie → httpApi platform uri = false →
      ∃ t, putCookie platform env env' uri cookie s = some t ∧
        Spares (env.clock 0) (Evicted platform env env' uri cookie s) s t := by
  have hs : Traced platform as s := execute_preserves (fun a _ _ (ha : a ∈ as) hu hstep => hu.step ha hstep) (fun a ha => ha)
    ⟨CookieStore.Sized.new, fun _ h => absurd h List.not_mem_nil⟩ hrun
  constructor
  · intro env uri host cookies hhost hhostLower hcookies c hc
    rw [cookieList, hhost] at hcookies
    dsimp only at hcookies
    split at hcookies
    · cases hcookies
      cases hc
    · rw [platform.tables.lowerCase_lower host hhostLower] at hcookies
      obtain ⟨old, hold, hselected, time, rfl⟩ := CookieStore.mem_getFor hs.sized.exact hcookies hc
      obtain ⟨H, hset⟩ := hs.set old hold
      have hreaches := reaches_of_selects hlower hset hhostLower rfl hselected
      rw [CookieStore.selects, Bool.and_eq_true, Bool.and_eq_true, Bool.and_eq_true, Bool.or_eq_true, Bool.or_eq_true,
        Bool.not_eq_true', Bool.not_eq_true'] at hselected
      obtain ⟨⟨⟨-, hpath⟩, hsecure⟩, hhttp⟩ := hselected
      refine ⟨H, hset, hreaches, ?_, ?_, ?_⟩
      · cases hpathOf : uri.path with
        | none =>
            rw [hpathOf] at hpath
            cases hpath
        | some path =>
            rw [hpathOf] at hpath
            exact ⟨path, rfl, pathMatches_iff.mp hpath⟩
      · intro honly
        rcases hsecure with hnot | hprotocol
        · change old.secureOnly = true at honly
          rw [honly] at hnot
          cases hnot
        · exact hprotocol
      · intro honly
        rcases hhttp with hnot | hapi
        · change old.httpOnly = true at honly
          rw [honly] at hnot
          cases hnot
        · exact hapi
  · intro env env' uri value currentTime cookie hparse hhttp
    obtain ⟨t, hput, -, -, hspares⟩ := putCookie_spec platform env env' hs.sized hparse
    exact ⟨t, hput, hspares hhttp⟩

/-- A platform on which `b` is a public suffix. -/
def suffixed : Platform := ⟨.ascii, fun domain => if domain = ['b'] then some .simple else none, fun _ => none⟩

def site (host : Text) : URI := ⟨some ['h', 't', 't', 'p'], some host, some ['/']⟩

def domainCookie : List (Option Text × List Text) :=
  [(some ['s', 'e', 't', '-', 'c', 'o', 'o', 'k', 'i', 'e'],
    [['n', '=', 'v', ';', 'd', 'o', 'm', 'a', 'i', 'n', '=', 'a', '.', 'b']])]

/-- The host `x.a.b` sets a cookie for `a.b`, and `y.a.b` asks for it. -/
theorem cookies_reach_domain :
    ∃ s, execute (step suffixed) [.put (fun _ => CookieStore.still) (site ['x', '.', 'a', '.', 'b']) domainCookie]
        CookieStore.new = some s ∧ s.totalCount = 1 ∧
      ∀ cookies, (cookieList suffixed CookieStore.still (site ['y', '.', 'a', '.', 'b']) s).2 = some cookies → ∀ c ∈ cookies,
        ∃ H, SetBy suffixed [.put (fun _ => CookieStore.still) (site ['x', '.', 'a', '.', 'b']) domainCookie] H c ∧
          @Reaches suffixed H ['y', '.', 'a', '.', 'b'] c := by
  refine ⟨⟨[⟨['a', '.', 'b'], [⟨['n'], ['v'], Cookie.maxValue, ['a', '.', 'b'], ['/'], ⟨0, 0⟩, 0, false, false, false,
    false⟩]⟩], 1⟩, rfl, rfl, ?_⟩
  intro cookies hcookies c hc
  have hlower : ∀ a ∈ [Action.put (fun _ => CookieStore.still) (site ['x', '.', 'a', '.', 'b']) domainCookie],
      InLowerCase a := by
    intro a ha
    rw [List.mem_singleton.mp ha]
    intro host hhost
    cases hhost
    decide
  obtain ⟨H, hset, hreaches, -⟩ := (@cookies_reach suffixed _ _ hlower rfl).1 CookieStore.still (site ['y', '.', 'a', '.', 'b'])
    ['y', '.', 'a', '.', 'b'] cookies rfl (by decide) hcookies c hc
  exact ⟨H, hset, hreaches⟩

end CookieManager
end OpenJfx.Network
