import OpenJfx.Network.CookieLookup

/-! # `CookieManager`

Which cookies reach which hosts.  The store is locked for each cookie that is put, so that
every cookie has its own calls of the store. -/
set_option autoImplicit false
namespace OpenJfx.Network
open OpenJfx.Lib

/-- The parts of a URI that are asked for. -/
structure URI where
  scheme : Option Text
  host : Option Text
  path : Option Text

/-- The platform: the character tables, the rules of the public suffixes and the parser of
dates. -/
structure Platform where
  tables : Characters
  rules : Text → Option Rule
  parseDate : Text → Option Int

namespace CookieManager
variable (platform : Platform)

def hasScheme (names : List Text) (uri : URI) : Bool := match uri.scheme with
  | none => false
  | some scheme => names.any fun name => platform.tables.equalsIgnoreCase name scheme

def secureProtocol (uri : URI) : Bool := hasScheme platform ["https".toList, "javascripts".toList] uri

def httpApi (uri : URI) : Bool := hasScheme platform ["http".toList, "https".toList] uri

def cookieList (env : Environment) (uri : URI) (store : CookieStore) : CookieStore × Option (List Cookie) :=
  match uri.host with
  | none => (store, some [])
  | some host =>
      if host.length = 0 then (store, some [])
      else store.getFor platform.tables env
        ⟨platform.tables.lowerCase host, uri.path, secureProtocol platform uri, httpApi platform uri⟩

def cookieString (cookies : List Cookie) : Option Text :=
  let sb := cookies.foldl (fun sb cookie =>
    (if sb.length > 0 then sb ++ "; ".toList else sb) ++ cookie.name ++ ['='] ++ cookie.value) []
  if sb.length > 0 then some sb else none

/-- `get`; without a result an exception has been thrown. -/
def get (env : Environment) (uri : URI) (store : CookieStore) : CookieStore × Option (Option Text) :=
  ((cookieList platform env uri store).1, (cookieList platform env uri store).2.map cookieString)

/-- The domain that a cookie gets, and whether it is host-only; `none` when it is ignored. -/
def domainFor (host : Text) (cookie : Cookie.Parsed) : Option (Text × Bool) :=
  if isPublicSuffix platform.rules cookie.domain && cookie.domain ≠ host then none
  else
    let domain := if isPublicSuffix platform.rules cookie.domain then [] else cookie.domain
    if domain.length > 0 then
      if Cookie.domainMatches host domain then some (domain, false) else none
    else some (host, true)

def complete (uri : URI) (domain : Text) (hostOnly : Bool) (cookie : Cookie.Parsed) : Cookie where
  name := cookie.name
  value := cookie.value
  expiryTime := cookie.expiryTime
  domain := domain
  path := cookie.path.getD (Cookie.defaultPath uri.path)
  creationTime := cookie.creationTime
  lastAccessTime := cookie.creationTime.baseTime
  persistent := cookie.persistent
  hostOnly := hostOnly
  secureOnly := cookie.secureOnly
  httpOnly := cookie.httpOnly

/-- The synchronized block; its two calls of the store find `env` and `env'`. -/
def store (env env' : Environment) (httpApi : Bool) (cookie : Cookie) (s : CookieStore) : Option CookieStore :=
  match s.get env cookie.key with
  | (s, some oldCookie) =>
      if oldCookie.httpOnly && !httpApi then some s
      else s.put env' { cookie with creationTime := oldCookie.creationTime }
  | (s, none) => s.put env' cookie

/-- `put(URI, Cookie)`. -/
def putCookie (env env' : Environment) (uri : URI) (cookie : Cookie.Parsed) (s : CookieStore) : Option CookieStore :=
  match uri.host with
  | none => some s
  | some host =>
      if host.length = 0 then some s
      else match domainFor platform (platform.tables.lowerCase host) cookie with
        | none => some s
        | some (domain, hostOnly) =>
            if cookie.httpOnly && !httpApi platform uri then some s
            else store env env' (httpApi platform uri) (complete uri domain hostOnly cookie) s

/-- The store, and how many calls have been made. -/
structure Progress where
  store : CookieStore
  calls : Nat

def putValues (env : Nat → Environment) (uri : URI) : List Text → ExtendedTime → Progress → Option Progress
  | [], _, progress => some progress
  | value :: rest, currentTime, progress =>
      match Cookie.parse platform.tables platform.parseDate value currentTime with
      | none => putValues env uri rest currentTime progress
      | some cookie =>
          match putCookie platform (env progress.calls) (env (progress.calls + 1)) uri cookie progress.store with
          | none => none
          | some s => putValues env uri rest currentTime.incrementSubtime ⟨s, progress.calls + 2⟩

def isSetCookie (key : Option Text) : Bool := match key with
  | none => false
  | some key => platform.tables.equalsIgnoreCase "Set-Cookie".toList key

/-- `put(URI, Map)`; the values are processed in reverse order. -/
def put (env : Nat → Environment) (uri : URI) : List (Option Text × List Text) → Progress → Option Progress
  | [], progress => some progress
  | (key, values) :: rest, progress =>
      if isSetCookie platform key then
        match putValues platform env uri values.reverse ⟨(env progress.calls).clock 0, 0⟩
          ⟨progress.store, progress.calls + 1⟩ with
        | none => none
        | some progress => put env uri rest progress
      else put env uri rest progress

inductive Action where
  | put (env : Nat → Environment) (uri : URI) (responseHeaders : List (Option Text × List Text))
  | get (env : Environment) (uri : URI)

def step : Action → CookieStore → Option CookieStore
  | .put env uri responseHeaders, s => (put platform env uri responseHeaders ⟨s, 0⟩).map Progress.store
  | .get env uri, s => some (get platform env uri s).1

end CookieManager
end OpenJfx.Network
