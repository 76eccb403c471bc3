import OpenJfx.Network.CookieStore
import Mathlib.Data.List.Sort

/-! # The counters of `CookieStore`

Every operation replaces the cookies of some buckets.  Those that only remove cookies thin
the store: what is left of a bucket is a sublist of it. -/
set_option autoImplicit false
namespace OpenJfx.Network
open OpenJfx.Lib

namespace CookieStore

def stored (s : CookieStore) : List Cookie := s.buckets.flatMap Bucket.cookies

def cookiesOf (domain : Text) (s : CookieStore) : List Cookie := KeyedList.collect Bucket.domain Bucket.cookies domain s.buckets

/-- The buckets have different domains, the cookies of a bucket have its domain and different
keys, and `totalCount` counts them. -/
structure Exact (s : CookieStore) : Prop where
  domains : KeyedList.Distinct Bucket.domain s.buckets
  home : ∀ bucket ∈ s.buckets, ∀ cookie ∈ bucket.cookies, cookie.domain = bucket.domain
  keys : ∀ bucket ∈ s.buckets, KeyedList.Distinct Cookie.key bucket.cookies
  count : s.totalCount = s.stored.length

variable {s t : CookieStore} {domain : Text} {cookies : List Cookie}

theorem cookiesOf_some {bucket : Bucket} (h : s.bucketOf domain = some bucket) : s.cookiesOf domain = bucket.cookies := by
  rw [cookiesOf, KeyedList.collect]
  rw [bucketOf] at h
  rw [h]

theorem cookiesOf_none (h : s.bucketOf domain = none) : s.cookiesOf domain = [] := by
  rw [cookiesOf, KeyedList.collect]
  rw [bucketOf] at h
  rw [h]

theorem bucket_cookies (domain : Text) (s : CookieStore) :
    ((s.bucketOf domain).getD ⟨domain, []⟩).cookies = s.cookiesOf domain := by
  cases hbucket : s.bucketOf domain with
  | none => rw [cookiesOf_none hbucket, Option.getD_none]
  | some bucket => rw [cookiesOf_some hbucket, Option.getD_some]

theorem Exact.cookiesOf_domain (hs : Exact s) {bucket : Bucket} (h : bucket ∈ s.buckets) :
    s.cookiesOf bucket.domain = bucket.cookies := cookiesOf_some (KeyedList.get_of_mem hs.domains h)

theorem Exact.home_cookiesOf (hs : Exact s) {cookie : Cookie} (h : cookie ∈ s.cookiesOf domain) : cookie.domain = domain := by
  cases hbucket : s.bucketOf domain with
  | none =>
    rw [cookiesOf_none hbucket] at h
    cases h
  | some bucket =>
    obtain ⟨hmem, hdomain⟩ := KeyedList.get_mem hbucket
    rw [cookiesOf_some hbucket] at h
    rw [← hdomain]
    exact hs.home bucket hmem cookie h

theorem Exact.keys_cookiesOf (hs : Exact s) (domain : Text) : KeyedList.Distinct Cookie.key (s.cookiesOf domain) := by
  cases hbucket : s.bucketOf domain with
  | none =>
    rw [cookiesOf_none hbucket]
    exact List.nodup_nil
  | some bucket =>
    rw [cookiesOf_some hbucket]
    exact hs.keys bucket (KeyedList.get_mem hbucket).1

theorem Exact.mem_stored (hs : Exact s) {cookie : Cookie} : cookie ∈ s.stored ↔ cookie ∈ s.cookiesOf cookie.domain := by
  rw [stored, List.mem_flatMap]
  constructor
  · intro h
    obtain ⟨bucket, hmem, hcookie⟩ := h
    rw [hs.home bucket hmem cookie hcookie, hs.cookiesOf_domain hmem]
    exact hcookie
  · intro h
    cases hbucket : s.bucketOf cookie.domain with
    | none =>
      rw [cookiesOf_none hbucket] at h
      cases h
    | some bucket =>
      rw [cookiesOf_some hbucket] at h
      exact ⟨bucket, (KeyedList.get_mem hbucket).1, h⟩

theorem Exact.stored_distinct (hs : Exact s) : KeyedList.Distinct Cookie.key s.stored := by
  rw [KeyedList.Distinct, stored, List.map_flatMap]
  refine List.nodup_flatMap.mpr ⟨fun bucket hbucket => hs.keys bucket hbucket, ?_⟩
  have hpairwise : s.buckets.Pairwise fun b b' => b.domain ≠ b'.domain := List.pairwise_map.mp hs.domains
  refine hpairwise.imp_of_mem ?_
  intro b b' hb hb' hne key hkey hkey'
  obtain ⟨c, hc, rfl⟩ := List.mem_map.mp hkey
  obtain ⟨c', hc', heq⟩ := List.mem_map.mp hkey'
  refine hne ?_
  rw [← hs.home b hb c hc, ← hs.home b' hb' c' hc']
  exact (congrArg CookieKey.domain heq).symm

/-! ## Replacing the cookies of a bucket -/

theorem cookiesOf_setCookies (domain domain' : Text) (cookies : List Cookie) (count : Int) (s : CookieStore) :
    (⟨s.setCookies domain cookies, count⟩ : CookieStore).cookiesOf domain' =
      if domain' = domain then cookies else s.cookiesOf domain' := by
  rw [cookiesOf, KeyedList.collect, setCookies]
  dsimp only
  by_cases hsame : domain' = domain
  · have hself := @KeyedList.get_update_self Text Bucket _ Bucket.domain _ domain ⟨domain, []⟩
      (fun bucket => { bucket with cookies := cookies }) (fun _ => rfl) rfl s.buckets
    rw [hsame, hself, if_pos rfl]
  · have hother := @KeyedList.get_update_other Text Bucket _ Bucket.domain _ domain domain' ⟨domain, []⟩
      (fun bucket => { bucket with cookies := cookies }) (fun _ => rfl) rfl (Ne.symm hsame) s.buckets
    rw [hother, if_neg hsame]
    rfl

theorem stored_setCookies (hs : Exact s) (domain : Text) (cookies : List Cookie) (count : Int) :
    ∃ others : List Cookie, s.stored.Perm (others ++ s.cookiesOf domain) ∧
      (⟨s.setCookies domain cookies, count⟩ : CookieStore).stored.Perm (others ++ cookies) := by
  cases hbucket : s.bucketOf domain with
  | none =>
    refine ⟨s.stored, ?_, ?_⟩
    · rw [cookiesOf_none hbucket, List.append_nil]
    · rw [bucketOf] at hbucket
      rw [stored, setCookies, KeyedList.update_of_none hbucket, List.flatMap_append, List.flatMap_singleton]
      exact List.Perm.refl _
  | some bucket =>
    rw [cookiesOf_some hbucket]
    obtain ⟨before, behind, hsplit, hdomain, hothers⟩ := KeyedList.get_split hs.domains hbucket
    refine ⟨before.flatMap Bucket.cookies ++ behind.flatMap Bucket.cookies, ?_, ?_⟩
    · rw [stored, hsplit, List.flatMap_append, List.flatMap_cons, List.append_assoc]
      exact List.perm_append_comm.append_left _
    · rw [stored, setCookies, hsplit,
        KeyedList.update_of_split hdomain fun w hw => hothers w (List.mem_append_left _ hw),
        List.flatMap_append, List.flatMap_cons, List.append_assoc]
      exact List.perm_append_comm.append_left _

theorem Exact.replace (hs : Exact s) {count : Int} (hhome : ∀ cookie ∈ cookies, cookie.domain = domain)
    (hkeys : KeyedList.Distinct Cookie.key cookies)
    (hcount : count = s.totalCount - (s.cookiesOf domain).length + cookies.length) :
    Exact ⟨s.setCookies domain cookies, count⟩ := by
  have hmem : ∀ bucket ∈ s.setCookies domain cookies,
      bucket.domain = domain ∧ bucket.cookies = cookies ∨ bucket ∈ s.buckets := by
    intro bucket hbucket
    cases hold : s.bucketOf domain with
    | none =>
      rw [bucketOf] at hold
      rw [setCookies, KeyedList.update_of_none hold, List.mem_append, List.mem_singleton] at hbucket
      rcases hbucket with hbefore | hnew
      · exact Or.inr hbefore
      · subst hnew
        exact Or.inl ⟨rfl, rfl⟩
    | some old =>
      obtain ⟨before, behind, hsplit, hdomain, hothers⟩ := KeyedList.get_split hs.domains hold
      rw [setCookies, hsplit, KeyedList.update_of_split hdomain fun w hw => hothers w (List.mem_append_left _ hw),
        List.mem_append, List.mem_cons] at hbucket
      rw [hsplit, List.mem_append, List.mem_cons]
      rcases hbucket with hbefore | hnew | hbehind
      · exact Or.inr (Or.inl hbefore)
      · subst hnew
        exact Or.inl ⟨hdomain, rfl⟩
      · exact Or.inr (Or.inr (Or.inr hbehind))
  refine ⟨hs.domains.update rfl fun _ h => h, ?_, ?_, ?_⟩
  · intro bucket hbucket cookie hcookie
    rcases hmem bucket hbucket with ⟨hdomain, hcookies⟩ | hold
    · rw [hdomain]
      rw [hcookies] at hcookie
      exact hhome cookie hcookie
    · exact hs.home bucket hold cookie hcookie
  · intro bucket hbucket
    rcases hmem bucket hbucket with ⟨-, hcookies⟩ | hold
    · rw [hcookies]
      exact hkeys
    · exact hs.keys bucket hold
  · obtain ⟨others, hbefore, hbehind⟩ := stored_setCookies hs domain cookies count
    have hlength := hbefore.length_eq
    have hlength' := hbehind.length_eq
    have hold := hs.count
    rw [List.length_append] at hlength hlength'
    dsimp only
    rw [hlength', hcount]
    omega

/-- Nothing is added to any bucket. -/
structure Thins (s t : CookieStore) : Prop where
  exact : Exact t
  sublist : ∀ domain, (t.cookiesOf domain).Sublist (s.cookiesOf domain)
  count : t.totalCount ≤ s.totalCount

theorem Thins.refl (hs : Exact s) : Thins s s := ⟨hs, fun _ => List.Sublist.refl _, Int.le_refl _⟩

theorem Thins.trans {u : CookieStore} (h : Thins s t) (h' : Thins t u) : Thins s u :=
  ⟨h'.exact, fun domain => (h'.sublist domain).trans (h.sublist domain), Int.le_trans h'.count h.count⟩

theorem Thins.stored (hs : Exact s) (h : Thins s t) : ∀ c ∈ t.stored, c ∈ s.stored :=
  fun c hc => hs.mem_stored.mpr ((h.sublist c.domain).subset (h.exact.mem_stored.mp hc))

theorem Exact.thin (hs : Exact s) {count : Int} (hsub : cookies.Sublist (s.cookiesOf domain))
    (hcount : count = s.totalCount - (s.cookiesOf domain).length + cookies.length) :
    Thins s ⟨s.setCookies domain cookies, count⟩ := by
  refine ⟨hs.replace (fun cookie hcookie => hs.home_cookiesOf (hsub.subset hcookie))
    ((hs.keys_cookiesOf domain).sublist hsub) hcount, ?_, ?_⟩
  · intro domain'
    rw [cookiesOf_setCookies]
    split
    · rename_i hsame
      rw [hsame]
      exact hsub
    · exact List.Sublist.refl _
  · have := hsub.length_le
    dsimp only
    omega

/-! ## The loops -/

theorem expire_sublist (clock : Nat → Int) (reads : Nat) (cookies : List Cookie) :
    (expire clock reads cookies).Sublist cookies := by
  induction cookies generalizing reads with
  | nil => exact List.Sublist.refl _
  | cons cookie rest ih =>
    rw [expire]
    split
    · exact (ih (reads + 1)).cons _
    · exact (ih (reads + 1)).cons_cons _

theorem Exact.expire (hs : Exact s) (clock : Nat → Int) (reads : Nat) (h : s.cookiesOf domain = cookies) :
    Thins s ⟨s.setCookies domain (expire clock reads cookies),
      s.totalCount - (cookies.length - (expire clock reads cookies).length)⟩ := by
  refine hs.thin ?_ ?_
  · rw [h]
    exact expire_sublist clock reads cookies
  · rw [h]
    omega

theorem remove_spec (hs : Exact s) {key : CookieKey} {cookie : Cookie}
    (h : KeyedList.get Cookie.key key (s.cookiesOf domain) = some cookie) :
    Thins s ⟨s.setCookies domain (KeyedList.remove Cookie.key key (s.cookiesOf domain)), s.totalCount - 1⟩ := by
  obtain ⟨before, behind, hsplit, hkey, hothers⟩ := KeyedList.get_split (hs.keys_cookiesOf domain) h
  have hremove : KeyedList.remove Cookie.key key (s.cookiesOf domain) = before ++ behind := by
    rw [hsplit]
    exact KeyedList.remove_of_split hkey hothers
  refine hs.thin ?_ ?_
  · rw [hremove, hsplit]
    exact (List.sublist_cons_self _ _).append_left before
  · rw [hremove, hsplit, List.length_append, List.length_append, List.length_cons]
    omega

theorem get_spec (hs : Exact s) (env : Environment) (key : CookieKey) :
    Thins s (get env key s).1 ∧
      (∀ cookie, (get env key s).2 = some cookie →
        (get env key s).1 = s ∧ cookie ∈ s.cookiesOf key.domain ∧ cookie.key = key) ∧
      ((get env key s).2 = none → ∀ cookie ∈ s.cookiesOf key.domain, cookie.key = key → cookie.hasExpired (env.clock 0) = true) := by
  rw [get]
  cases hbucket : s.bucketOf key.domain with
  | none =>
    dsimp only
    refine ⟨Thins.refl hs, fun _ h => (by cases h), fun _ cookie hcookie => ?_⟩
    rw [cookiesOf_none hbucket] at hcookie
    cases hcookie
  | some bucket =>
    dsimp only
    have hcookies := cookiesOf_some hbucket
    rw [← hcookies]
    cases hget : KeyedList.get Cookie.key key (s.cookiesOf key.domain) with
    | none =>
      dsimp only
      refine ⟨Thins.refl hs, fun _ h => (by cases h), fun _ cookie hcookie hkey => ?_⟩
      exact absurd hkey (KeyedList.get_eq_none.mp hget cookie hcookie)
    | some storedCookie =>
      obtain ⟨hmem, hkey⟩ := KeyedList.get_mem hget
      dsimp only
      by_cases hexpired : storedCookie.hasExpired (env.clock 0) = true
      · rw [if_pos hexpired]
        refine ⟨remove_spec hs hget, fun _ h => (by cases h), fun _ cookie hcookie hkey' => ?_⟩
        rw [← hkey] at hkey'
        rw [List.inj_on_of_nodup_map (hs.keys_cookiesOf key.domain) hcookie hmem hkey']
        exact hexpired
      · rw [if_neg hexpired]
        refine ⟨Thins.refl hs, ?_, fun h => (by cases h)⟩
        intro cookie heq
        cases heq
        exact ⟨rfl, hmem, hkey⟩

theorem earliest_mem {cookies : List Cookie} (h : cookies ≠ []) : ∃ cookie ∈ cookies, earliest cookies = some cookie := by
  have hfold : ∀ (rest : List Cookie) (first : Cookie), ∃ cookie, (cookie = first ∨ cookie ∈ rest) ∧
      earliest (first :: rest) = some cookie := by
    intro rest
    induction rest with
    | nil => exact fun first => ⟨first, Or.inl rfl, rfl⟩
    | cons c rest ih =>
      intro first
      by_cases hless : c.lastAccessTime < first.lastAccessTime
      · obtain ⟨cookie, hcookie, heq⟩ := ih c
        refine ⟨cookie, Or.inr ?_, by simpa [earliest, hless] using heq⟩
        rcases hcookie with rfl | hrest
        · exact List.mem_cons_self ..
        · exact List.mem_cons_of_mem _ hrest
      · obtain ⟨cookie, hcookie, heq⟩ := ih first
        refine ⟨cookie, ?_, by simpa [earliest, hless] using heq⟩
        rcases hcookie with hfirst | hrest
        · exact Or.inl hfirst
        · exact Or.inr (List.mem_cons_of_mem _ hrest)
  cases cookies with
  | nil => exact absurd rfl h
  | cons first rest =>
    obtain ⟨cookie, hcookie, heq⟩ := hfold rest first
    refine ⟨cookie, ?_, heq⟩
    rcases hcookie with rfl | hrest
    · exact List.mem_cons_self ..
    · exact List.mem_cons_of_mem _ hrest

theorem purgeBucket_spec (hs : Exact s) (env : Environment) (reads : Nat) {bucket : Bucket}
    (h : s.cookiesOf bucket.domain = bucket.cookies) (hsize : bucket.cookies.length ≤ MAX_BUCKET_SIZE + 1) :
    Thins s (purgeBucket env reads bucket s) ∧
      ((purgeBucket env reads bucket s).cookiesOf bucket.domain).length ≤ MAX_BUCKET_SIZE := by
  have hsub := expire_sublist env.clock reads bucket.cookies
  have hlength := hsub.length_le
  rw [purgeBucket]
  by_cases hmany : (expire env.clock reads bucket.cookies).length > MAX_BUCKET_SIZE
  · rw [if_pos hmany]
    obtain ⟨cookie, hmem, hearliest⟩ := @earliest_mem (expire env.clock reads bucket.cookies) (by
      intro hnil
      rw [hnil] at hmany
      exact absurd hmany (Nat.not_lt_zero _))
    rw [hearliest]
    dsimp only
    have hdistinct : KeyedList.Distinct Cookie.key (expire env.clock reads bucket.cookies) := by
      have := hs.keys_cookiesOf bucket.domain
      rw [h] at this
      exact this.sublist hsub
    obtain ⟨before, behind, hsplit, hkey, hothers⟩ := KeyedList.get_split hdistinct (KeyedList.get_of_mem hdistinct hmem)
    have hremove := KeyedList.remove_of_split hkey hothers
    rw [← hsplit] at hremove
    rw [hsplit, List.length_append, List.length_cons] at hlength hmany
    refine ⟨hs.thin ?_ ?_, ?_⟩
    · rw [hremove, h]
      refine List.Sublist.trans ?_ hsub
      rw [hsplit]
      exact (List.sublist_cons_self _ _).append_left before
    · rw [hremove, h, hsplit, List.length_append, List.length_append, List.length_cons]
      omega
    · rw [cookiesOf_setCookies, if_pos rfl, hremove, List.length_append]
      omega
  · rw [if_neg hmany]
    refine ⟨hs.expire env.clock reads h, ?_⟩
    rw [cookiesOf_setCookies, if_pos rfl]
    exact Nat.not_lt.mp hmany

/-! ## `purge()` -/

theorem sweep_spec {search : Search} (env : Environment) {bucket : Bucket} {rest : List Bucket} (hs : Exact search.store)
    (hbucket : search.store.cookiesOf bucket.domain = bucket.cookies)
    (hstored : search.store.stored.Perm (search.result ++ (bucket :: rest).flatMap Bucket.cookies)) :
    Thins search.store (sweep env search bucket).store ∧
      (sweep env search bucket).store.stored.Perm ((sweep env search bucket).result ++ rest.flatMap Bucket.cookies) ∧
      ∀ domain ≠ bucket.domain, (sweep env search bucket).store.cookiesOf domain = search.store.cookiesOf domain := by
  rw [sweep]
  dsimp only
  refine ⟨hs.expire env.clock search.reads hbucket, ?_, ?_⟩
  · obtain ⟨others, hbefore, hbehind⟩ := stored_setCookies hs bucket.domain (expire env.clock search.reads bucket.cookies)
      (search.store.totalCount - (bucket.cookies.length - (expire env.clock search.reads bucket.cookies).length))
    refine hbehind.trans ?_
    rw [hbucket] at hbefore
    have hothers : others.Perm (search.result ++ rest.flatMap Bucket.cookies) := by
      refine (List.perm_append_right_iff bucket.cookies).mp (hbefore.symm.trans (hstored.trans ?_))
      rw [List.flatMap_cons, List.append_assoc]
      exact List.perm_append_comm.append_left _
    have hqueue := PriorityQueue.foldl_offer_perm removalCompare (expire env.clock search.reads bucket.cookies) search.result
    refine (hothers.append_right _).trans (List.Perm.trans ?_ (hqueue.symm.append_right _))
    rw [List.append_assoc, List.append_assoc]
    exact List.perm_append_comm.append_left _
  · intro domain hne
    rw [cookiesOf_setCookies, if_neg hne]

theorem foldl_sweep_spec (env : Environment) (buckets : List Bucket) (search : Search) (hs : Exact search.store)
    (hdistinct : KeyedList.Distinct Bucket.domain buckets)
    (hbuckets : ∀ bucket ∈ buckets, search.store.cookiesOf bucket.domain = bucket.cookies)
    (hstored : search.store.stored.Perm (search.result ++ buckets.flatMap Bucket.cookies)) :
    Thins search.store (buckets.foldl (sweep env) search).store ∧
      (buckets.foldl (sweep env) search).store.stored.Perm (buckets.foldl (sweep env) search).result := by
  induction buckets generalizing search with
  | nil =>
    rw [List.flatMap_nil, List.append_nil] at hstored
    exact ⟨Thins.refl hs, hstored⟩
  | cons bucket rest ih =>
    obtain ⟨hfresh, hrest⟩ := List.nodup_cons.mp hdistinct
    obtain ⟨hthins, hstored', hothers⟩ := sweep_spec env hs (hbuckets bucket (List.mem_cons_self ..)) hstored
    rw [List.foldl_cons]
    obtain ⟨hthins', hall⟩ := ih (sweep env search bucket) hthins.exact hrest (by
      intro b hb
      rw [hothers b.domain fun heq => hfresh (List.mem_map.mpr ⟨b, hb, heq⟩)]
      exact hbuckets b (List.mem_cons_of_mem _ hb)) hstored'
    exact ⟨hthins.trans hthins', hall⟩

theorem removeCookie_spec (hs : Exact s) {cookie : Cookie} {queue : List Cookie} (hstored : s.stored.Perm (cookie :: queue)) :
    Thins s (removeCookie cookie s) ∧ (removeCookie cookie s).stored.Perm queue ∧
      (removeCookie cookie s).totalCount = s.totalCount - 1 := by
  have hmem : cookie ∈ s.cookiesOf cookie.domain :=
    hs.mem_stored.mp (hstored.symm.subset (List.mem_cons_self ..))
  rw [removeCookie]
  cases hbucket : s.bucketOf cookie.domain with
  | none =>
    rw [cookiesOf_none hbucket] at hmem
    cases hmem
  | some bucket =>
    dsimp only
    rw [← cookiesOf_some hbucket]
    have hget := KeyedList.get_of_mem (hs.keys_cookiesOf cookie.domain) hmem
    obtain ⟨before, behind, hsplit, hkey, hothers⟩ := KeyedList.get_split (hs.keys_cookiesOf cookie.domain) hget
    have hremove : KeyedList.remove Cookie.key cookie.key (s.cookiesOf cookie.domain) = before ++ behind := by
      rw [hsplit]
      exact KeyedList.remove_of_split hkey hothers
    refine ⟨remove_spec hs hget, ?_, rfl⟩
    obtain ⟨rest, hbefore, hbehind⟩ := stored_setCookies hs cookie.domain
      (KeyedList.remove Cookie.key cookie.key (s.cookiesOf cookie.domain)) (s.totalCount - 1)
    rw [hremove] at hbehind ⊢
    rw [hsplit] at hbefore
    refine hbehind.trans ?_
    have hmiddle : (rest ++ (before ++ cookie :: behind)).Perm (cookie :: (rest ++ (before ++ behind))) := by
      rw [← List.append_assoc, ← List.append_assoc]
      exact List.perm_middle
    exact List.Perm.cons_inv ((hmiddle.symm.trans hbefore.symm).trans hstored)

theorem evict_spec (queue : List Cookie) (s : CookieStore) (hs : Exact s) (hstored : s.stored.Perm queue) :
    ∃ t, evict queue s = some t ∧ Thins s t ∧ t.totalCount ≤ TOTAL_COUNT_LOWER_THRESHOLD := by
  fun_induction evict queue s with
  | case1 s hmany =>
    have hnil : s.stored = [] := List.perm_nil.mp hstored
    rw [hs.count, hnil] at hmany
    exact absurd hmany (by decide)
  | case2 s hmany first rest ih =>
    have hpoll := PriorityQueue.poll_perm removalCompare first rest
    obtain ⟨hthins, hleft, -⟩ := removeCookie_spec hs hstored
    obtain ⟨t, hevict, hthins', hcount⟩ := ih hthins.exact (hleft.trans hpoll.symm)
    exact ⟨t, hevict, hthins.trans hthins', hcount⟩
  | case3 queue s hfew => exact ⟨s, rfl, Thins.refl hs, Int.not_lt.mp hfew⟩

theorem iterate_perm (env : Environment) (buckets : List Bucket) : (iterate env buckets).Perm buckets := by
  rw [iterate]
  split
  · rename_i h
    exact h
  · exact List.Perm.refl _

/-- The first loop of `purge()`. -/
def swept (env : Environment) (reads : Nat) (s : CookieStore) : Search :=
  (iterate env s.buckets).foldl (sweep env) ⟨s, [], reads⟩

theorem swept_spec (hs : Exact s) (env : Environment) (reads : Nat) :
    Thins s (swept env reads s).store ∧ (swept env reads s).store.stored.Perm (swept env reads s).result := by
  have hperm := iterate_perm env s.buckets
  exact foldl_sweep_spec env (iterate env s.buckets) ⟨s, [], reads⟩ hs
    ((hperm.map Bucket.domain).nodup_iff.mpr hs.domains)
    (fun bucket hbucket => hs.cookiesOf_domain (hperm.subset hbucket))
    (hperm.symm.flatMap_right Bucket.cookies)

theorem purge_spec (hs : Exact s) (env : Environment) (reads : Nat) :
    ∃ t, purge env reads s = some t ∧ Thins s t ∧ t.totalCount ≤ TOTAL_COUNT_LOWER_THRESHOLD := by
  obtain ⟨hthins, hqueue⟩ := swept_spec hs env reads
  obtain ⟨t, hevict, hthins', hcount⟩ := evict_spec _ _ hthins.exact hqueue
  exact ⟨t, hevict, hthins.trans hthins', hcount⟩

/-! ## `put` -/

/-- The counters of a store with the limits of its buckets. -/
structure Sized (s : CookieStore) : Prop where
  exact : Exact s
  bucket : ∀ domain, (s.cookiesOf domain).length ≤ MAX_BUCKET_SIZE
  total : s.totalCount ≤ TOTAL_COUNT_UPPER_THRESHOLD

theorem Sized.thin (hs : Sized s) (h : Thins s t) : Sized t :=
  ⟨h.exact, fun domain => Nat.le_trans (h.sublist domain).length_le (hs.bucket domain), Int.le_trans h.count hs.total⟩

/-- Apart from `cookie` nothing is stored that was not stored before, and under the key of
`cookie` nothing else. -/
def Adds (cookie : Cookie) (s t : CookieStore) : Prop :=
  ∀ domain, ∀ c ∈ t.cookiesOf domain, c = cookie ∨ c ∈ s.cookiesOf domain ∧ c.key ≠ cookie.key

theorem Adds.thin {cookie : Cookie} {u : CookieStore} (h : Adds cookie s t) (h' : Thins t u) : Adds cookie s u :=
  fun domain c hc => h domain c ((h'.sublist domain).subset hc)

theorem adds_setCookies (hs : Exact s) {cookie : Cookie} {count : Int}
    (h : ∀ c ∈ cookies, c = cookie ∨ c ∈ s.cookiesOf cookie.domain ∧ c.key ≠ cookie.key) :
    Adds cookie s ⟨s.setCookies cookie.domain cookies, count⟩ := by
  intro domain c hc
  rw [cookiesOf_setCookies] at hc
  by_cases hsame : domain = cookie.domain
  · rw [if_pos hsame] at hc
    rw [hsame]
    exact h c hc
  · rw [if_neg hsame] at hc
    refine Or.inr ⟨hc, fun hkey => hsame ?_⟩
    rw [← hs.home_cookiesOf hc]
    exact congrArg CookieKey.domain hkey

theorem Exact.distinct_update (hs : Exact s) (cookie : Cookie) :
    KeyedList.Distinct Cookie.key
      (KeyedList.update Cookie.key cookie.key cookie (fun _ => cookie) (s.cookiesOf cookie.domain)) :=
  (hs.keys_cookiesOf cookie.domain).update rfl fun _ _ => rfl

theorem filled_spec (hs : Sized s) (env : Environment) {cookie : Cookie}
    (hnone : KeyedList.get Cookie.key cookie.key (s.cookiesOf cookie.domain) = none) (u : CookieStore)
    (hu : u = ⟨s.setCookies cookie.domain (s.cookiesOf cookie.domain ++ [cookie]), s.totalCount + 1⟩) (v : CookieStore)
    (hv : v = if (s.cookiesOf cookie.domain ++ [cookie]).length > MAX_BUCKET_SIZE then
      purgeBucket env 1 ⟨cookie.domain, s.cookiesOf cookie.domain ++ [cookie]⟩ u else u) :
    Exact v ∧ (∀ domain, (v.cookiesOf domain).length ≤ MAX_BUCKET_SIZE) ∧ Adds cookie s v := by
  have hfresh := KeyedList.get_eq_none.mp hnone
  have hbucket := hs.bucket cookie.domain
  have hlength : (s.cookiesOf cookie.domain ++ [cookie]).length = (s.cookiesOf cookie.domain).length + 1 := by
    rw [List.length_append, List.length_singleton]
  have huExact : Exact u := by
    rw [hu]
    refine hs.exact.replace ?_ ?_ (by rw [hlength]; omega)
    · intro c hc
      rcases List.mem_append.mp hc with hold | hnew
      · exact hs.exact.home_cookiesOf hold
      · rw [List.mem_singleton.mp hnew]
    · have hdistinct := hs.exact.distinct_update cookie
      rw [KeyedList.update_of_none hnone] at hdistinct
      exact hdistinct
  have hadds : Adds cookie s u := by
    rw [hu]
    refine adds_setCookies hs.exact ?_
    intro c hc
    rcases List.mem_append.mp hc with hold | hnew
    · exact Or.inr ⟨hold, hfresh c hold⟩
    · exact Or.inl (List.mem_singleton.mp hnew)
  have hcookies : u.cookiesOf cookie.domain = s.cookiesOf cookie.domain ++ [cookie] := by
    rw [hu, cookiesOf_setCookies, if_pos rfl]
  have hothers : ∀ domain ≠ cookie.domain, (u.cookiesOf domain).length ≤ MAX_BUCKET_SIZE := by
    intro domain hne
    rw [hu, cookiesOf_setCookies, if_neg hne]
    exact hs.bucket domain
  rw [hv]
  by_cases hmany : (s.cookiesOf cookie.domain ++ [cookie]).length > MAX_BUCKET_SIZE
  · rw [if_pos hmany]
    obtain ⟨hthins, hsize⟩ := @purgeBucket_spec u huExact env 1 ⟨cookie.domain, s.cookiesOf cookie.domain ++ [cookie]⟩
      hcookies (by dsimp only; omega)
    refine ⟨hthins.exact, fun domain => ?_, hadds.thin hthins⟩
    by_cases hsame : domain = cookie.domain
    · rw [hsame]
      exact hsize
    · exact Nat.le_trans (hthins.sublist domain).length_le (hothers domain hsame)
  · rw [if_neg hmany]
    refine ⟨huExact, fun domain => ?_, hadds⟩
    by_cases hsame : domain = cookie.domain
    · rw [hsame, hcookies]
      exact Nat.not_lt.mp hmany
    · exact hothers domain hsame

theorem put_new (hs : Sized s) (env : Environment) {cookie : Cookie}
    (hnone : KeyedList.get Cookie.key cookie.key (s.cookiesOf cookie.domain) = none) (u : CookieStore)
    (hu : u = ⟨s.setCookies cookie.domain (s.cookiesOf cookie.domain ++ [cookie]), s.totalCount + 1⟩) (v : CookieStore)
    (hv : v = if (s.cookiesOf cookie.domain ++ [cookie]).length > MAX_BUCKET_SIZE then
      purgeBucket env 1 ⟨cookie.domain, s.cookiesOf cookie.domain ++ [cookie]⟩ u else u) (reads : Nat) :
    ∃ t, (if v.totalCount > TOTAL_COUNT_UPPER_THRESHOLD then purge env reads v else some v) = some t ∧ Sized t ∧
      Adds cookie s t := by
  obtain ⟨hexact, hsizes, hadds⟩ := filled_spec hs env hnone u hu v hv
  by_cases hfull : v.totalCount > TOTAL_COUNT_UPPER_THRESHOLD
  · rw [if_pos hfull]
    obtain ⟨t, hpurge, hthins, hcount⟩ := purge_spec hexact env reads
    refine ⟨t, hpurge, ⟨hthins.exact, ?_, ?_⟩, hadds.thin hthins⟩
    · intro domain
      exact Nat.le_trans (hthins.sublist domain).length_le (hsizes domain)
    · exact Int.le_trans hcount (by decide)
  · rw [if_neg hfull]
    exact ⟨v, rfl, ⟨hexact, hsizes, Int.not_lt.mp hfull⟩, hadds⟩

/-- The store in which `put` calls `purge()`, and the readings of the clock before. -/
def filled (env : Environment) (cookie : Cookie) (s : CookieStore) : CookieStore × Nat :=
  let cookies := s.cookiesOf cookie.domain ++ [cookie]
  let u : CookieStore := ⟨s.setCookies cookie.domain cookies, s.totalCount + 1⟩
  (if cookies.length > MAX_BUCKET_SIZE then purgeBucket env 1 ⟨cookie.domain, cookies⟩ u else u,
    if cookies.length > MAX_BUCKET_SIZE then 1 + cookies.length else 1)

def PutsNew (env : Environment) (cookie : Cookie) (s : CookieStore) : Prop :=
  cookie.hasExpired (env.clock 0) = false ∧ KeyedList.get Cookie.key cookie.key (s.cookiesOf cookie.domain) = none

theorem put_eq {env : Environment} {cookie : Cookie} (h : PutsNew env cookie s) :
    put env cookie s = if (filled env cookie s).1.totalCount > TOTAL_COUNT_UPPER_THRESHOLD then
      purge env (filled env cookie s).2 (filled env cookie s).1 else some (filled env cookie s).1 := by
  rw [put, putInto, bucket_cookies, h.1, h.2]
  rfl

theorem put_spec (hs : Sized s) (env : Environment) (cookie : Cookie) :
    ∃ t, put env cookie s = some t ∧ Sized t ∧ Adds cookie s t := by
  rw [put, putInto, bucket_cookies]
  cases hget : KeyedList.get Cookie.key cookie.key (s.cookiesOf cookie.domain) with
  | none =>
    have hfresh := KeyedList.get_eq_none.mp hget
    cases cookie.hasExpired (env.clock 0) with
    | true =>
      have hthins : Thins s ⟨s.setCookies cookie.domain (s.cookiesOf cookie.domain), s.totalCount⟩ :=
        hs.exact.thin (List.Sublist.refl _) (by omega)
      exact ⟨_, rfl, hs.thin hthins, adds_setCookies hs.exact fun c hc => Or.inr ⟨hc, hfresh c hc⟩⟩
    | false => exact put_new hs env hget _ rfl _ rfl _
  | some old =>
    obtain ⟨before, behind, hsplit, hkey, hothers⟩ := KeyedList.get_split (hs.exact.keys_cookiesOf cookie.domain) hget
    cases cookie.hasExpired (env.clock 0) with
    | true =>
      have hremove : KeyedList.remove Cookie.key cookie.key (s.cookiesOf cookie.domain) = before ++ behind := by
        rw [hsplit]
        exact KeyedList.remove_of_split hkey hothers
      refine ⟨_, rfl, hs.thin (remove_spec hs.exact hget), adds_setCookies hs.exact ?_⟩
      intro c hc
      rw [hremove] at hc
      rw [hsplit]
      refine Or.inr ⟨?_, hothers c hc⟩
      rcases List.mem_append.mp hc with hbefore | hbehind
      · exact List.mem_append_left _ hbefore
      · exact List.mem_append_right _ (List.mem_cons_of_mem _ hbehind)
    | false =>
      have hupdate : KeyedList.update Cookie.key cookie.key cookie (fun _ => cookie) (s.cookiesOf cookie.domain) =
          before ++ cookie :: behind := by
        rw [hsplit]
        exact KeyedList.update_of_split hkey fun w hw => hothers w (List.mem_append_left _ hw)
      have hlength : (before ++ cookie :: behind).length = (s.cookiesOf cookie.domain).length := by
        rw [hsplit, List.length_append, List.length_append, List.length_cons, List.length_cons]
      have hmem : ∀ c ∈ before ++ cookie :: behind, c = cookie ∨ c ∈ s.cookiesOf cookie.domain ∧ c.key ≠ cookie.key := by
        intro c hc
        rw [List.mem_append, List.mem_cons] at hc
        rw [hsplit, List.mem_append, List.mem_cons]
        rcases hc with hbefore | rfl | hbehind
        · exact Or.inr ⟨Or.inl hbefore, hothers c (List.mem_append_left _ hbefore)⟩
        · exact Or.inl rfl
        · exact Or.inr ⟨Or.inr (Or.inr hbehind), hothers c (List.mem_append_right _ hbehind)⟩
      have hexact : Exact ⟨s.setCookies cookie.domain (before ++ cookie :: behind), s.totalCount⟩ := by
        refine hs.exact.replace ?_ ?_ (by rw [hlength]; omega)
        · intro c hc
          rcases hmem c hc with rfl | ⟨hold, -⟩
          · rfl
          · exact hs.exact.home_cookiesOf hold
        · have hdistinct := hs.exact.distinct_update cookie
          rw [hupdate] at hdistinct
          exact hdistinct
      dsimp only
      rw [hupdate]
      refine ⟨_, rfl, ⟨hexact, ?_, hs.total⟩, adds_setCookies hs.exact hmem⟩
      intro domain
      rw [cookiesOf_setCookies]
      split
      · rw [hlength]
        exact hs.bucket cookie.domain
      · exact hs.bucket domain

end CookieStore
end OpenJfx.Network
