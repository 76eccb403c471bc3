import OpenJfx.Lib.KeyedList
import OpenJfx.Lib.PriorityQueue
import OpenJfx.Network.Cookie

/-! # `CookieStore`

A bucket lists its cookies in the order of its linked map.  Whenever a cookie is asked
whether it has expired the clock is read anew.  The iteration order of the map of the buckets
is its own business, and so is what `Collections.sort` does with a comparator that is no
order on the list. -/
set_option autoImplicit false
namespace OpenJfx.Network
open OpenJfx.Lib

structure Bucket where
  domain : Text
  cookies : List Cookie
deriving DecidableEq, Repr

/-- What a call finds: the readings of the clock, an order of the buckets, and the outcome of
a sort that is not specified, where `none` is an exception. -/
structure Environment where
  clock : Nat → Int
  iteration : List Bucket → List Bucket
  unspecified : List Cookie → Option (List Cookie)

structure Query where
  hostname : Text
  path : Option Text
  secureProtocol : Bool
  httpApi : Bool

structure CookieStore where
  buckets : List Bucket
  totalCount : Int
deriving DecidableEq, Repr

namespace CookieStore

def MAX_BUCKET_SIZE : Nat := 50
def TOTAL_COUNT_LOWER_THRESHOLD : Int := 3000
def TOTAL_COUNT_UPPER_THRESHOLD : Int := 4000

def new : CookieStore := ⟨[], 0⟩

def bucketOf (domain : Text) (s : CookieStore) : Option Bucket := KeyedList.get Bucket.domain domain s.buckets

/-- The bucket of a domain gets other cookies. -/
def setCookies (domain : Text) (cookies : List Cookie) (s : CookieStore) : List Bucket :=
  KeyedList.update Bucket.domain domain ⟨domain, []⟩ (fun bucket => { bucket with cookies := cookies }) s.buckets

/-- The cookies that a loop over a bucket leaves, whose first reading of the clock is `reads`. -/
def expire (clock : Nat → Int) : Nat → List Cookie → List Cookie
  | _, [] => []
  | reads, cookie :: rest =>
      if cookie.hasExpired (clock reads) then expire clock (reads + 1) rest
      else cookie :: expire clock (reads + 1) rest

def get (env : Environment) (key : CookieKey) (s : CookieStore) : CookieStore × Option Cookie :=
  match s.bucketOf key.domain with
  | none => (s, none)
  | some bucket => match KeyedList.get Cookie.key key bucket.cookies with
      | none => (s, none)
      | some storedCookie =>
          if storedCookie.hasExpired (env.clock 0) then
            (⟨s.setCookies key.domain (KeyedList.remove Cookie.key key bucket.cookies), s.totalCount - 1⟩, none)
          else (s, some storedCookie)

/-- The tests of `find`. -/
def selects (tables : Characters) (query : Query) (cookie : Cookie) : Bool :=
  (if cookie.hostOnly then tables.equalsIgnoreCase query.hostname cookie.domain
    else Cookie.domainMatches query.hostname cookie.domain) &&
  Cookie.pathMatches query.path cookie.path &&
  (!cookie.secureOnly || query.secureProtocol) &&
  (!cookie.httpOnly || query.httpApi)

def tails : Text → List Text
  | [] => []
  | c :: rest => if c = '.' then rest :: tails rest else tails rest

/-- The values that `domain` takes in the loop of `get`. -/
def domains (hostname : Text) : List Text := (hostname :: tails hostname).takeWhile fun domain => domain.length > 0

/-- The loop of `get` so far. -/
structure Search where
  store : CookieStore
  result : List Cookie
  reads : Nat

/-- `find` on the bucket of a domain. -/
def find (tables : Characters) (env : Environment) (query : Query) (search : Search) (domain : Text) : Search :=
  match search.store.bucketOf domain with
  | none => search
  | some bucket =>
      let kept := expire env.clock search.reads bucket.cookies
      ⟨⟨search.store.setCookies domain kept, search.store.totalCount - (bucket.cookies.length - kept.length)⟩,
        search.result ++ kept.filter (selects tables query), search.reads + bucket.cookies.length⟩

/-- `GetComparator`. -/
def getCompare (c1 c2 : Cookie) : Int :=
  let d : Int := c2.path.length - c1.path.length
  if d ≠ 0 then d else c1.creationTime.compareTo c2.creationTime

/-- The contract of a comparator, for the elements of a list. -/
def IsOrder {α : Type} (compare : α → α → Int) (xs : List α) : Prop :=
  (∀ x ∈ xs, ∀ y ∈ xs, (compare x y).sign = -(compare y x).sign) ∧
    ∀ x ∈ xs, ∀ y ∈ xs, ∀ z ∈ xs, compare x y ≤ 0 → compare y z ≤ 0 → compare x z ≤ 0

instance {α : Type} (compare : α → α → Int) (xs : List α) : Decidable (IsOrder compare xs) :=
  inferInstanceAs (Decidable (_ ∧ _))

/-- `Collections.sort`. -/
def sort (env : Environment) (xs : List Cookie) : Option (List Cookie) :=
  if IsOrder getCompare xs then some (xs.mergeSort fun c1 c2 => getCompare c1 c2 ≤ 0)
  else (env.unspecified xs).filter fun ys => ys.Perm xs

def setLastAccessTime (currentTime : Int) (cookie : Cookie) : Cookie := { cookie with lastAccessTime := currentTime }

/-- The cookies with some keys have been accessed. -/
def touch (keys : List CookieKey) (currentTime : Int) (s : CookieStore) : CookieStore :=
  { s with buckets := s.buckets.map fun bucket => { bucket with
      cookies := bucket.cookies.map fun cookie =>
        if cookie.key ∈ keys then setLastAccessTime currentTime cookie else cookie } }

/-- The loop of `get(String, String, boolean, boolean)`. -/
def lookup (tables : Characters) (env : Environment) (query : Query) (s : CookieStore) : Search :=
  (domains query.hostname).foldl (find tables env query) ⟨s, [], 0⟩

/-- `get(String, String, boolean, boolean)`. -/
def getFor (tables : Characters) (env : Environment) (query : Query) (s : CookieStore) :
    CookieStore × Option (List Cookie) :=
  let search := lookup tables env query s
  match sort env search.result with
  | none => (search.store, none)
  | some result =>
      (touch (result.map Cookie.key) (env.clock search.reads) search.store,
        some (result.map (setLastAccessTime (env.clock search.reads))))

def earliest (cookies : List Cookie) : Option Cookie :=
  cookies.foldl (fun earliestCookie cookie => match earliestCookie with
    | none => some cookie
    | some earliest => if cookie.lastAccessTime < earliest.lastAccessTime then some cookie else some earliest) none

/-- `purge(Map)`. -/
def purgeBucket (env : Environment) (reads : Nat) (bucket : Bucket) (s : CookieStore) : CookieStore :=
  let kept := expire env.clock reads bucket.cookies
  let totalCount := s.totalCount - (bucket.cookies.length - kept.length)
  if kept.length > MAX_BUCKET_SIZE then
    match earliest kept with
    | none => ⟨s.setCookies bucket.domain kept, totalCount - 1⟩
    | some earliestCookie =>
        ⟨s.setCookies bucket.domain (KeyedList.remove Cookie.key earliestCookie.key kept), totalCount - 1⟩
  else ⟨s.setCookies bucket.domain kept, totalCount⟩

/-- `RemovalComparator`; the difference is cut down to an `int`. -/
def removalCompare (c1 c2 : Cookie) : Int := (c1.lastAccessTime - c2.lastAccessTime).bmod (2 ^ 32)

/-- The first loop of `purge()` at a bucket; `result` is the removal queue. -/
def sweep (env : Environment) (search : Search) (bucket : Bucket) : Search :=
  let kept := expire env.clock search.reads bucket.cookies
  ⟨⟨search.store.setCookies bucket.domain kept, search.store.totalCount - (bucket.cookies.length - kept.length)⟩,
    kept.foldl (fun queue cookie => PriorityQueue.offer removalCompare cookie queue) search.result,
    search.reads + bucket.cookies.length⟩

def removeCookie (cookie : Cookie) (s : CookieStore) : CookieStore := match s.bucketOf cookie.domain with
  | none => s
  | some bucket =>
      ⟨s.setCookies cookie.domain (KeyedList.remove Cookie.key cookie.key bucket.cookies), s.totalCount - 1⟩

/-- The second loop of `purge()`; there is no result when the queue gets empty. -/
def evict (queue : List Cookie) (s : CookieStore) : Option CookieStore :=
  if s.totalCount > TOTAL_COUNT_LOWER_THRESHOLD then
    match queue with
    | [] => none
    | first :: rest =>
        evict (PriorityQueue.poll removalCompare first rest).2
          (removeCookie (PriorityQueue.poll removalCompare first rest).1 s)
  else some s
termination_by queue.length
decreasing_by
  rw [(PriorityQueue.poll_perm removalCompare first rest).length_eq, List.length_cons]
  exact Nat.lt_succ_self _

/-- The order in which the buckets are visited. -/
def iterate (env : Environment) (buckets : List Bucket) : List Bucket :=
  if (env.iteration buckets).Perm buckets then env.iteration buckets else buckets

def purge (env : Environment) (reads : Nat) (s : CookieStore) : Option CookieStore :=
  let search := (iterate env s.buckets).foldl (sweep env) ⟨s, [], reads⟩
  evict search.result search.store

/-- `put` once the bucket of the domain is there. -/
def putInto (env : Environment) (cookie : Cookie) (bucket : Bucket) (s : CookieStore) : Option CookieStore :=
  match cookie.hasExpired (env.clock 0), KeyedList.get Cookie.key cookie.key bucket.cookies with
  | true, some _ =>
      some ⟨s.setCookies cookie.domain (KeyedList.remove Cookie.key cookie.key bucket.cookies), s.totalCount - 1⟩
  | true, none => some ⟨s.setCookies cookie.domain bucket.cookies, s.totalCount⟩
  | false, some _ =>
      some ⟨s.setCookies cookie.domain (KeyedList.update Cookie.key cookie.key cookie (fun _ => cookie) bucket.cookies),
        s.totalCount⟩
  | false, none =>
      let cookies := bucket.cookies ++ [cookie]
      let s : CookieStore := ⟨s.setCookies cookie.domain cookies, s.totalCount + 1⟩
      let s := if cookies.length > MAX_BUCKET_SIZE then purgeBucket env 1 ⟨cookie.domain, cookies⟩ s else s
      let reads := if cookies.length > MAX_BUCKET_SIZE then 1 + cookies.length else 1
      if s.totalCount > TOTAL_COUNT_UPPER_THRESHOLD then purge env reads s else some s

def put (env : Environment) (cookie : Cookie) (s : CookieStore) : Option CookieStore :=
  putInto env cookie ((s.bucketOf cookie.domain).getD ⟨cookie.domain, []⟩) s

end CookieStore
end OpenJfx.Network
