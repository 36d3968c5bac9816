import Mathlib.Data.List.Sublists
import OhMyClaw.Lib.RustStr
import OhMyClaw.Lib.Steps
import OhMyClaw.Lib.Utf8

/-!
# Who gets at the daemon

Every request passes `requireToken` before it is routed.  A login exchanges the token for a session cookie;
the table of login sessions drops a session only when somebody comes with it too late.

    served_iff     a handler of the daemon's API serves exactly the requests that present a credential, where a
                   token is configured
    login_lasts    a cookie from a login is good for the whole of its lifetime, whatever else arrives

Preflight requests, which the CORS layer answers by itself, are left out, and so is what the handlers do.
-/

namespace OhMyClaw.Auth

/-! ## Routes -/

/-- `get` stands for HEAD as well, which goes to the handler of GET. -/
inductive HttpMethod where
  | get | post | other
deriving DecidableEq, Repr

inductive Handler where
  | createResponse | cancelResponse
  | sessionsList | sessionsHistory | sessionsReset | sessionsCompact
  | chatSend | chatResume | chatAbort | command | approvalReply | userReply
  | sessionsStatus | eventsStream
  | login | health | index | serveAsset
deriving DecidableEq, Repr

/-- The handlers that talk to the daemon. -/
def Handler.api : Handler → Bool
  | .login | .health | .index | .serveAsset => false
  | _ => true

inductive Segment where
  | text (s : String)
  /-- `:id`, any text but the empty one. -/
  | param
deriving DecidableEq, Repr

structure Route where
  pattern : List Segment
  method : HttpMethod
  handler : Handler
deriving DecidableEq, Repr

open Segment in
def apiRoutes : List Route :=
  [{ pattern := [text "", text "v1", text "responses"], method := .post, handler := .createResponse },
   { pattern := [text "", text "v1", text "responses", param, text "cancel"], method := .post,
     handler := .cancelResponse },
   { pattern := [text "", text "api", text "v1", text "sessions"], method := .get, handler := .sessionsList },
   { pattern := [text "", text "api", text "v1", text "sessions", param, text "history"], method := .get,
     handler := .sessionsHistory },
   { pattern := [text "", text "api", text "v1", text "sessions", param, text "reset"], method := .post,
     handler := .sessionsReset },
   { pattern := [text "", text "api", text "v1", text "sessions", param, text "compact"], method := .post,
     handler := .sessionsCompact },
   { pattern := [text "", text "api", text "v1", text "chat", text "send"], method := .post, handler := .chatSend },
   { pattern := [text "", text "api", text "v1", text "chat", text "resume"], method := .get,
     handler := .chatResume },
   { pattern := [text "", text "api", text "v1", text "chat", text "abort"], method := .post, handler := .chatAbort },
   { pattern := [text "", text "api", text "v1", text "command"], method := .post, handler := .command },
   { pattern := [text "", text "api", text "v1", text "approval", text "reply"], method := .post,
     handler := .approvalReply },
   { pattern := [text "", text "api", text "v1", text "user", text "reply"], method := .post, handler := .userReply },
   { pattern := [text "", text "api", text "v1", text "status"], method := .get, handler := .sessionsStatus },
   { pattern := [text "", text "api", text "v1", text "events"], method := .get, handler := .eventsStream }]

def openRoutes : List Route :=
  [{ pattern := [.text "", .text "auth", .text "login"], method := .post, handler := .login },
   { pattern := [.text "", .text "health"], method := .get, handler := .health }]

def indexRoute : Route := { pattern := [.text "", .text ""], method := .get, handler := .index }

/-- The routes; those of the web UI if it is served. -/
def routes (webUi : Bool) : List Route :=
  apiRoutes ++ openRoutes ++ if webUi then [indexRoute] else []

def Segment.fits : Segment → List Char → Bool
  | .text s, part => part = s.toList
  | .param, part => part ≠ []

def fits : List Segment → List (List Char) → Bool
  | [], [] => true
  | s :: ss, part :: parts => s.fits part && fits ss parts
  | _, _ => false

inductive Routed where
  | handler (h : Handler)
  | methodNotAllowed
  | notFound
deriving DecidableEq, Repr

/-- A path belongs to one route; what belongs to none is an asset of the web UI. -/
def route (webUi : Bool) (method : HttpMethod) (path : String) : Routed :=
  match (routes webUi).find? fun r => fits r.pattern (path.toList.splitOn '/') with
  | some r => if r.method = method then .handler r.handler else .methodNotAllowed
  | none => if webUi then if method = .get then .handler .serveAsset else .methodNotAllowed else .notFound

/-! ## Credentials -/

/-- What is read of a request.  A header is absent (`none`) also when it is not plain text; `loginToken` is the
token in the body of a login, if the body has one. -/
structure HttpRequest where
  method : HttpMethod
  path : String
  query : Option String
  authorization : Option String
  cookie : Option String
  loginToken : Option String
deriving DecidableEq, Repr

def loginCookie : String := "oc_session"

def tokenQueryRoute : String := "/api/v1/events"

/-- The value of one part of the header, if it is a cookie of the name. -/
def cookieValue (name part : List Char) : Option (List Char) :=
  match RustStr.splitOnce '=' (RustStr.trim part) with
  | some (k, v) => if k = name then some v else none
  | none => none

/-- The first cookie of the name. -/
def extractCookie (raw name : List Char) : Option (List Char) := (raw.splitOn ';').findSome? (cookieValue name)

def hexValue (b : UInt8) : Option UInt8 :=
  if 0x30 ≤ b ∧ b ≤ 0x39 then some (b - 0x30)
  else if 0x41 ≤ b ∧ b ≤ 0x46 then some (b - 0x37)
  else if 0x61 ≤ b ∧ b ≤ 0x66 then some (b - 0x57)
  else none

/-- `%` and two hexadecimal digits are a byte; any other `%` is itself. -/
def percentDecode : List UInt8 → List UInt8
  | 0x25 :: a :: b :: bs =>
    match hexValue a, hexValue b with
    | some high, some low => (16 * high + low) :: percentDecode bs
    | _, _ => 0x25 :: percentDecode (a :: b :: bs)
  | b :: bs => b :: percentDecode bs
  | [] => []

/-- A component of a query: a plus is a blank. -/
def decodeComponent (bytes : List UInt8) : List Char :=
  Utf8.fromUtf8Lossy (percentDecode (bytes.map fun b => if b = 0x2B then 0x20 else b))

/-- The names and values of a query, in order. -/
def queryPairs (query : List Char) : List (List Char × List Char) :=
  (((Utf8.encode query).splitOn 0x26).filter (· ≠ [])).map fun part =>
    (decodeComponent (part.takeWhile (· ≠ 0x3D)), decodeComponent ((part.dropWhile (· ≠ 0x3D)).drop 1))

/-- The token in the query, which one route alone accepts. -/
def queryToken (r : HttpRequest) : Option (List Char) :=
  if r.path = tokenQueryRoute then
    r.query.bind fun q => (queryPairs q.toList).findSome? fun p => if p.1 = "token".toList then some p.2 else none
  else none

def headerToken (r : HttpRequest) : Option (List Char) :=
  r.authorization.bind fun v => RustStr.stripPrefix v.toList "Bearer ".toList

def sessionCookie (r : HttpRequest) : Option (List Char) :=
  r.cookie.bind fun raw => extractCookie raw.toList loginCookie.toList

/-- Only the paths of the two APIs are guarded. -/
def guarded (path : String) : Bool :=
  RustStr.startsWith path.toList "/api/v1".toList || RustStr.startsWith path.toList "/v1".toList

/-! ## The server -/

structure Config where
  token : Option String
  loginTtl : Nat
  webUi : Bool
deriving DecidableEq, Repr

/-- `LOGIN_TTL`, in seconds. -/
def loginTtlSecs : Nat := 12 * 60 * 60

/-- History: a login that succeeded. -/
structure Login where
  sid : List Char
  time : Nat
  token : String
deriving DecidableEq, Repr

structure Server where
  now : Nat
  loginSessions : List (List Char × Nat)
  logins : List Login
deriving DecidableEq, Repr

def Server.new : Server := { now := 0, loginSessions := [], logins := [] }

def Server.valid (cfg : Config) (s : Server) (sid : List Char) : Bool :=
  match s.loginSessions.find? (·.1 = sid) with
  | some (_, created) => s.now - created < cfg.loginTtl
  | none => false

def Server.remove (s : Server) (sid : List Char) : Server :=
  { s with loginSessions := s.loginSessions.filter (·.1 ≠ sid) }

/-- Whether the cookie is good.  One that is not is dropped from the table. -/
def cookieSession (cfg : Config) (s : Server) (r : HttpRequest) : Bool × Server :=
  match sessionCookie r with
  | none => (false, s)
  | some sid => (s.valid cfg sid, if s.valid cfg sid then s else s.remove sid)

/-- Whether the request is let through. -/
def requireToken (cfg : Config) (s : Server) (r : HttpRequest) : Bool × Server :=
  match cfg.token with
  | none => (true, s)
  | some expected =>
    if guarded r.path then
      let (cookie, s) := cookieSession cfg s r
      (cookie || headerToken r = some expected.toList || queryToken r = some expected.toList, s)
    else (true, s)

inductive HttpResponse where
  | unauthorized
  /-- The handler takes over. -/
  | served (h : Handler)
  | methodNotAllowed
  | notFound
  | badRequest
  | noTokenConfigured
  | invalidToken
  | loggedIn (sid : List Char)
deriving DecidableEq, Repr

/-- A login; `sid` is the session id that is drawn for it. -/
def login (cfg : Config) (s : Server) (r : HttpRequest) (sid : List Char) : HttpResponse × Server :=
  match r.loginToken with
  | none => (.badRequest, s)
  | some token =>
    match cfg.token with
    | none => (.noTokenConfigured, s)
    | some expected =>
      if token = expected then
        (.loggedIn sid, { s with
          loginSessions := (sid, s.now) :: s.loginSessions.filter (·.1 ≠ sid)
          logins := s.logins ++ [{ sid, time := s.now, token }] })
      else (.invalidToken, s)

def respond (cfg : Config) (s : Server) (r : HttpRequest) (sid : List Char) : HttpResponse × Server :=
  match requireToken cfg s r with
  | (false, s) => (.unauthorized, s)
  | (true, s) =>
    match route cfg.webUi r.method r.path with
    | .handler .login => login cfg s r sid
    | .handler h => (.served h, s)
    | .methodNotAllowed => (.methodNotAllowed, s)
    | .notFound => (.notFound, s)

inductive Act where
  | wait (d : Nat)
  | request (r : HttpRequest) (sid : List Char)
deriving DecidableEq, Repr

/-- No session id is drawn twice. -/
def step (cfg : Config) (s : Server) : Act → Option Server
  | .wait d => some { s with now := s.now + d }
  | .request r sid => if sid ∈ s.logins.map (·.sid) then none else some (respond cfg s r sid).2

/-! ## Startup -/

inductive IpAddr where
  | v4 (a b c d : UInt8)
  | v6 (segments : List UInt16)
deriving DecidableEq, Repr

def IpAddr.isLoopback : IpAddr → Bool
  | .v4 a _ _ _ => a = 127
  | .v6 segments => segments = [0, 0, 0, 0, 0, 0, 0, 1]

/-- Whether the server may be bound to the address. -/
def checkBindRequiresToken (ip : IpAddr) (token : Option String) : Bool :=
  ip.isLoopback || token.any fun t => RustStr.trim t.toList ≠ []

/-! ## What a request presents -/

/-- The request has the token with it, or the cookie of a login that is not too long ago. -/
def Presents (cfg : Config) (s : Server) (r : HttpRequest) (expected : String) : Prop :=
  headerToken r = some expected.toList ∨ queryToken r = some expected.toList ∨
    ∃ l ∈ s.logins, sessionCookie r = some l.sid ∧ s.now - l.time < cfg.loginTtl

structure Inv (cfg : Config) (s : Server) : Prop where
  drawn : (s.logins.map (·.sid)).Nodup
  past : ∀ l ∈ s.logins, l.time ≤ s.now
  tokens : ∀ l ∈ s.logins, cfg.token = some l.token
  known : ∀ p ∈ s.loginSessions, ∃ l ∈ s.logins, l.sid = p.1 ∧ l.time = p.2
  kept : ∀ l ∈ s.logins, s.now - l.time < cfg.loginTtl → (l.sid, l.time) ∈ s.loginSessions

section Requests

variable {cfg : Config} {s s' : Server} {r : HttpRequest}

theorem inv_new (cfg : Config) : Inv cfg .new := by
  constructor <;> simp [Server.new]

theorem Inv.eq_of_sid (h : Inv cfg s) {l l' : Login} (hl : l ∈ s.logins) (hl' : l' ∈ s.logins) (hsid : l.sid = l'.sid) :
    l = l' :=
  List.inj_on_of_nodup_map h.drawn hl hl' hsid

/-- What the table has under a session id is its login. -/
theorem Inv.find_eq_some (h : Inv cfg s) {l : Login} (hl : l ∈ s.logins) {p : List Char × Nat}
    (hfind : s.loginSessions.find? (·.1 = l.sid) = some p) : p = (l.sid, l.time) := by
  have hkey : p.1 = l.sid := by simpa using List.find?_some hfind
  obtain ⟨l', hl', hsid, htime⟩ := h.known p (List.mem_of_find?_eq_some hfind)
  obtain rfl := h.eq_of_sid hl' hl (hsid.trans hkey)
  exact Prod.ext hkey htime.symm

/-- A session is good exactly for the lifetime of its login. -/
theorem Inv.valid_iff (h : Inv cfg s) {sid : List Char} :
    s.valid cfg sid = true ↔ ∃ l ∈ s.logins, l.sid = sid ∧ s.now - l.time < cfg.loginTtl := by
  unfold Server.valid
  constructor
  · intro hvalid
    cases hfind : s.loginSessions.find? (·.1 = sid) with
    | none => simp [hfind] at hvalid
    | some p =>
      have hkey : p.1 = sid := by simpa using List.find?_some hfind
      obtain ⟨l, hl, hsid, htime⟩ := h.known p (List.mem_of_find?_eq_some hfind)
      refine ⟨l, hl, hsid.trans hkey, ?_⟩
      rw [htime]
      simpa [hfind] using hvalid
  · rintro ⟨l, hl, rfl, hage⟩
    cases hfind : s.loginSessions.find? (·.1 = l.sid) with
    | none =>
      have hnone := List.find?_eq_none.1 hfind _ (h.kept l hl hage)
      simp at hnone
    | some p =>
      rw [h.find_eq_some hl hfind]
      simpa using hage

theorem cookieSession_fst (h : Inv cfg s) : (cookieSession cfg s r).1 = true ↔
    ∃ l ∈ s.logins, sessionCookie r = some l.sid ∧ s.now - l.time < cfg.loginTtl := by
  unfold cookieSession
  cases sessionCookie r with
  | none => simp
  | some sid =>
    rw [h.valid_iff]
    simp [eq_comm]

theorem cookieSession_rest (cfg : Config) (s : Server) (r : HttpRequest) :
    (cookieSession cfg s r).2.now = s.now ∧ (cookieSession cfg s r).2.logins = s.logins := by
  unfold cookieSession
  split
  · exact ⟨rfl, rfl⟩
  · split
    · exact ⟨rfl, rfl⟩
    · exact ⟨rfl, rfl⟩

/-- A session that is not good may be dropped. -/
theorem Inv.remove (h : Inv cfg s) {sid : List Char} (hinvalid : s.valid cfg sid ≠ true) : Inv cfg (s.remove sid) := by
  refine ⟨h.drawn, h.past, h.tokens, fun p hp => h.known p (List.mem_filter.1 hp).1, fun l hl hage => ?_⟩
  have hne : l.sid ≠ sid := fun hsid => hinvalid (h.valid_iff.2 ⟨l, hl, hsid, hage⟩)
  exact List.mem_filter.2 ⟨h.kept l hl hage, by simpa using hne⟩

theorem inv_cookieSession (h : Inv cfg s) : Inv cfg (cookieSession cfg s r).2 := by
  unfold cookieSession
  split
  · exact h
  · split
    · exact h
    · next hinvalid => exact h.remove hinvalid

theorem requireToken_rest (cfg : Config) (s : Server) (r : HttpRequest) :
    (requireToken cfg s r).2.now = s.now ∧ (requireToken cfg s r).2.logins = s.logins := by
  unfold requireToken
  split
  · exact ⟨rfl, rfl⟩
  · split
    · exact cookieSession_rest cfg s r
    · exact ⟨rfl, rfl⟩

theorem inv_requireToken (h : Inv cfg s) : Inv cfg (requireToken cfg s r).2 := by
  unfold requireToken
  split
  · exact h
  · split
    · exact inv_cookieSession h
    · exact h

theorem requireToken_fst (h : Inv cfg s) : (requireToken cfg s r).1 = true ↔
    (guarded r.path = true → ∀ expected, cfg.token = some expected → Presents cfg s r expected) := by
  unfold requireToken
  cases htoken : cfg.token with
  | none => simp
  | some expected =>
    dsimp only
    split
    · next hguarded =>
      have hcookie := cookieSession_fst (r := r) h
      simp only [Bool.or_eq_true, decide_eq_true_eq, hcookie, hguarded, forall_const, Option.some.injEq, forall_eq',
        Presents]
      rw [or_assoc, or_comm, or_assoc]
    · next hopen => simp [hopen]

/-- A login puts its session into the table. -/
theorem Inv.login (h : Inv cfg s) {sid : List Char} {token : String} (hsid : sid ∉ s.logins.map (·.sid))
    (htoken : cfg.token = some token) :
    Inv cfg { s with
      loginSessions := (sid, s.now) :: s.loginSessions.filter (·.1 ≠ sid)
      logins := s.logins ++ [{ sid, time := s.now, token }] } where
  drawn := by
    rw [List.map_append]
    exact List.Nodup.append h.drawn (List.nodup_singleton sid) (by simpa using hsid)
  past l hl := by
    rcases List.mem_append.1 hl with hl | hl
    · exact h.past l hl
    · obtain rfl := List.mem_singleton.1 hl
      exact Nat.le_refl _
  tokens l hl := by
    rcases List.mem_append.1 hl with hl | hl
    · exact h.tokens l hl
    · obtain rfl := List.mem_singleton.1 hl
      exact htoken
  known p hp := by
    rcases List.mem_cons.1 hp with rfl | hp
    · exact ⟨_, List.mem_append_right _ (List.mem_singleton.2 rfl), rfl, rfl⟩
    · obtain ⟨l, hl, hlp⟩ := h.known p (List.mem_filter.1 hp).1
      exact ⟨l, List.mem_append_left _ hl, hlp⟩
  kept l hl hage := by
    rcases List.mem_append.1 hl with hl | hl
    · have hne : l.sid ≠ sid := fun heq => hsid (List.mem_map.2 ⟨l, hl, heq⟩)
      exact List.mem_cons_of_mem _ (List.mem_filter.2 ⟨h.kept l hl hage, by simpa using hne⟩)
    · obtain rfl := List.mem_singleton.1 hl
      exact List.mem_cons_self

theorem inv_respond (h : Inv cfg s) {sid : List Char} (hsid : sid ∉ s.logins.map (·.sid)) :
    Inv cfg (respond cfg s r sid).2 := by
  have hinv := inv_requireToken (r := r) h
  have hrest := requireToken_rest cfg s r
  unfold respond
  split
  · next s₁ hreq =>
    rw [hreq] at hinv
    exact hinv
  · next s₁ hreq =>
    rw [hreq] at hinv hrest
    split
    · unfold Auth.login
      split
      · exact hinv
      · split
        · exact hinv
        · next expected htoken =>
          split
          · next heq => exact hinv.login (by rwa [hrest.2]) (heq ▸ htoken)
          · exact hinv
    · exact hinv
    · exact hinv
    · exact hinv

theorem inv_step {a : Act} (h : Inv cfg s) (hstep : step cfg s a = some s') : Inv cfg s' := by
  cases a with
  | wait d =>
    obtain rfl := Option.some.inj hstep
    refine ⟨h.drawn, fun l hl => Nat.le_add_right_of_le (h.past l hl), h.tokens, h.known, fun l hl hage => ?_⟩
    exact h.kept l hl (by have : s.now + d - l.time < cfg.loginTtl := hage; omega)
  | request r sid =>
    simp only [step] at hstep
    split at hstep
    · cases hstep
    · next hsid =>
      obtain rfl := Option.some.inj hstep
      exact inv_respond h hsid

theorem inv_run {acts : List Act} (hrun : Steps.exec (step cfg) .new acts = some s) : Inv cfg s :=
  Steps.exec_invariant (fun _ _ _ => inv_step) (inv_new cfg) hrun

end Requests

/-! ## Routing -/

theorem fits_prefix {segments front : List Segment} {parts : List (List Char)} (h : fits (front ++ segments) parts = true) :
    ∃ parts₁ parts₂, parts = parts₁ ++ parts₂ ∧ fits front parts₁ = true := by
  induction front generalizing parts with
  | nil => exact ⟨[], parts, rfl, rfl⟩
  | cons seg front ih =>
    cases parts with
    | nil => simp [fits] at h
    | cons part parts =>
      simp only [List.cons_append, fits, Bool.and_eq_true] at h
      obtain ⟨parts₁, parts₂, rfl, hfits⟩ := ih h.2
      exact ⟨part :: parts₁, parts₂, rfl, by simp [fits, h.1, hfits]⟩

theorem fits_texts {texts : List String} {parts : List (List Char)} (h : fits (texts.map Segment.text) parts = true) :
    parts = texts.map String.toList := by
  induction texts generalizing parts with
  | nil =>
    cases parts with
    | nil => rfl
    | cons part parts => simp [fits] at h
  | cons s texts ih =>
    cases parts with
    | nil => simp [fits] at h
    | cons part parts =>
      simp only [List.map_cons, fits, Segment.fits, Bool.and_eq_true, decide_eq_true_eq] at h
      rw [ih h.2, h.1, List.map_cons]

theorem intercalate_prefix {α : Type} (sep : List α) {xs : List (List α)} (hxs : xs ≠ []) (ys : List (List α)) :
    sep.intercalate xs <+: sep.intercalate (xs ++ ys) := by
  induction xs with
  | nil => exact absurd rfl hxs
  | cons x xs ih =>
    cases xs with
    | nil =>
      cases ys with
      | nil => exact List.prefix_rfl
      | cons y ys =>
        rw [List.singleton_append, List.intercalate_singleton, List.intercalate_cons_cons, List.append_assoc]
        exact List.prefix_append _ _
    | cons x' xs =>
      have hrest := ih (List.cons_ne_nil _ _)
      rw [List.cons_append, List.cons_append, List.intercalate_cons_cons, List.intercalate_cons_cons]
      exact (List.prefix_append_right_inj _).2 hrest

/-- A path that fits a pattern starts with the texts the pattern starts with. -/
theorem startsWith_of_fits {texts : List String} (htexts : texts ≠ []) {segments : List Segment} {path : String}
    (h : fits (texts.map Segment.text ++ segments) (path.toList.splitOn '/') = true) :
    ['/'].intercalate (texts.map String.toList) <+: path.toList := by
  obtain ⟨parts₁, parts₂, hparts, hfits⟩ := fits_prefix h
  rw [fits_texts hfits] at hparts
  have hpath : ['/'].intercalate (path.toList.splitOn '/') = path.toList := List.intercalate_splitOn '/'
  rw [← hpath, hparts]
  exact intercalate_prefix _ (by simpa using htexts) _

/-- The routes of the two APIs are guarded. -/
theorem guarded_of_api {webUi : Bool} {method : HttpMethod} {path : String} {h : Handler} (hapi : h.api = true)
    (hroute : route webUi method path = .handler h) : guarded path = true := by
  have htable : ∀ r ∈ routes webUi, r.handler.api = true →
      r.pattern = [.text "", .text "v1"] ++ r.pattern.drop 2 ∨
        r.pattern = [.text "", .text "api", .text "v1"] ++ r.pattern.drop 3 := by
    cases webUi <;> decide
  unfold route at hroute
  split at hroute
  · next r hfind =>
    have hfits : fits r.pattern (path.toList.splitOn '/') = true := by simpa using List.find?_some hfind
    have hr : r.handler = h := by
      split at hroute
      · exact Routed.handler.inj hroute
      · cases hroute
    unfold guarded
    rw [Bool.or_eq_true, RustStr.startsWith_iff, RustStr.startsWith_iff]
    rcases htable r (List.mem_of_find?_eq_some hfind) (hr ▸ hapi) with hpattern | hpattern
    · rw [hpattern] at hfits
      exact Or.inr (@startsWith_of_fits ["", "v1"] (by simp) _ _ hfits)
    · rw [hpattern] at hfits
      exact Or.inl (@startsWith_of_fits ["", "api", "v1"] (by simp) _ _ hfits)
  · split at hroute
    · split at hroute
      · obtain rfl := Routed.handler.inj hroute
        cases hapi
      · cases hroute
    · cases hroute

/-! ## Who is served -/

def testConfig : Config := { token := some "s3cret", loginTtl := loginTtlSecs, webUi := true }

def testRequest : HttpRequest :=
  { method := .get, path := "/api/v1/sessions", query := none, authorization := none, cookie := none, loginToken := none }

def testLogin : HttpRequest :=
  { testRequest with method := .post, path := "/auth/login", loginToken := some "s3cret" }

/-- After the login, at a moment. -/
def loggedIn (now : Nat) : Server :=
  { now, loginSessions := [("0190".toList, 0)], logins := [{ sid := "0190".toList, time := 0, token := "s3cret" }] }

theorem testLogin_run : step testConfig .new (.request testLogin "0190".toList) = some (loggedIn 0) := by
  decide +kernel

/-- In every state the requests lead to, a handler of the daemon's API serves a request exactly if it is routed there
and presents a credential; the cookies that count are those of logins with the token; and a server on an address
others reach has a token. -/
theorem served_iff (cfg : Config) {acts : List Act} {s : Server} (hrun : Steps.exec (step cfg) .new acts = some s) :
    (∀ r sid (h : Handler), h.api = true → ((respond cfg s r sid).1 = .served h ↔
      route cfg.webUi r.method r.path = .handler h ∧ ∀ expected, cfg.token = some expected → Presents cfg s r expected)) ∧
    (∀ l ∈ s.logins, cfg.token = some l.token ∧ l.time ≤ s.now) ∧
    ∀ ip : IpAddr, checkBindRequiresToken ip cfg.token = true → ip.isLoopback = false →
      ∃ expected, cfg.token = some expected ∧ RustStr.trim expected.toList ≠ [] := by
  have hinv := inv_run hrun
  refine ⟨fun r sid h hapi => ?_, fun l hl => ⟨hinv.tokens l hl, hinv.past l hl⟩, fun ip hbind hip => ?_⟩
  · have hfst := requireToken_fst (r := r) hinv
    unfold respond
    split
    · next s₁ hreq =>
      -- refused: a path with such a handler is guarded, and no credential was presented
      rw [hreq] at hfst
      constructor
      · intro hserved
        cases hserved
      · rintro ⟨hroute, hpresents⟩
        have := hfst.2 fun _ => hpresents
        cases this
    · next s₁ hreq =>
      rw [hreq] at hfst
      have hpass := hfst.1 rfl
      cases hroute : route cfg.webUi r.method r.path with
      | handler h' =>
        have hlogin : (login cfg s₁ r sid).1 ≠ .served h := by
          unfold login
          split
          · simp
          · split
            · simp
            · split <;> simp
        cases h' with
        | login =>
          constructor
          · exact fun hserved => absurd hserved hlogin
          · rintro ⟨hh, -⟩
            obtain rfl := Routed.handler.inj hh
            cases hapi
        | _ =>
          constructor
          · intro hserved
            obtain rfl := HttpResponse.served.inj hserved
            exact ⟨rfl, hpass (guarded_of_api hapi hroute)⟩
          · rintro ⟨hh, -⟩
            obtain rfl := Routed.handler.inj hh
            rfl
      | methodNotAllowed => simp
      | notFound => simp
  · unfold checkBindRequiresToken at hbind
    rw [hip, Bool.false_or] at hbind
    cases htoken : cfg.token with
    | none => simp [htoken] at hbind
    | some expected =>
      rw [htoken] at hbind
      exact ⟨expected, rfl, by simpa using hbind⟩

theorem served_iff_sample :
    (respond testConfig (loggedIn 0) { testRequest with cookie := some "oc_session=0190" } []).1 =
      .served .sessionsList := by
  have hrun : Steps.exec (step testConfig) .new [.request testLogin "0190".toList] = some (loggedIn 0) := by
    rw [Steps.exec_cons_some testLogin_run, Steps.exec_nil]
  refine ((served_iff testConfig hrun).1 _ _ .sessionsList rfl).2 ⟨by decide +kernel, fun expected _ => ?_⟩
  exact Or.inr (Or.inr ⟨_, List.mem_singleton.2 rfl, by decide +kernel, by decide +kernel⟩)

/-! ## Cookies -/

/-- A cookie that reads as it was written. -/
structure PlainCookie (p : List Char × List Char) : Prop where
  name : ∀ c ∈ p.1, RustStr.isWhitespace c = false ∧ c ≠ ';' ∧ c ≠ '='
  value : ∀ c ∈ p.2, RustStr.isWhitespace c = false ∧ c ≠ ';'

/-- The header a browser makes of its cookies. -/
def cookieHeader (cookies : List (List Char × List Char)) : List Char :=
  "; ".toList.intercalate (cookies.map fun p => p.1 ++ '=' :: p.2)

theorem PlainCookie.text {p : List Char × List Char} (h : PlainCookie p) :
    ∀ c ∈ p.1 ++ '=' :: p.2, RustStr.isWhitespace c = false ∧ c ≠ ';' := by
  intro c hc
  rcases List.mem_append.1 hc with hc | hc
  · exact ⟨(h.name c hc).1, (h.name c hc).2.1⟩
  · rcases List.mem_cons.1 hc with rfl | hc
    · exact ⟨by decide, by decide⟩
    · exact h.value c hc

/-- A blank behind each separator is one in front of the next part. -/
theorem intercalate_blank (x : List Char) (xs : List (List Char)) :
    "; ".toList.intercalate (x :: xs) = [';'].intercalate (x :: xs.map (' ' :: ·)) := by
  induction xs generalizing x with
  | nil => simp
  | cons y ys ih =>
    rw [List.intercalate_cons_cons, ih, List.map_cons, List.intercalate_cons_cons,
      List.intercalate_cons_cons_left]
    simp

theorem PlainCookie.trim {p : List Char × List Char} (h : PlainCookie p) :
    RustStr.trim (p.1 ++ '=' :: p.2) = p.1 ++ '=' :: p.2 := by
  have htext (c : Char) (hc : c ∈ p.1 ++ '=' :: p.2) : RustStr.isWhitespace c = false := (h.text c hc).1
  have hstart := RustStr.trimStart_word (by simp) htext []
  rw [List.append_nil] at hstart
  rw [RustStr.trim, hstart, RustStr.trimEnd_word htext]

theorem cookieValue_plain {p : List Char × List Char} (h : PlainCookie p) (name : List Char) :
    cookieValue name (p.1 ++ '=' :: p.2) = if p.1 = name then some p.2 else none := by
  have hsplit : RustStr.splitOnce '=' (p.1 ++ '=' :: p.2) = some p :=
    RustStr.splitOnce_eq_some.2 ⟨rfl, fun hc => (h.name _ hc).2.2 rfl⟩
  rw [cookieValue, h.trim, hsplit]

theorem cookieValue_blank (name part : List Char) : cookieValue name (' ' :: part) = cookieValue name part := by
  have htrim : RustStr.trim (' ' :: part) = RustStr.trim part := rfl
  rw [cookieValue, htrim, cookieValue]

theorem extractCookie_header {cookies : List (List Char × List Char)} (h : ∀ p ∈ cookies, PlainCookie p)
    (name : List Char) : extractCookie (cookieHeader cookies) name =
      cookies.findSome? fun p => if p.1 = name then some p.2 else none := by
  have hparts (ps : List (List Char × List Char)) (hps : ∀ p ∈ ps, PlainCookie p) :
      (ps.map fun p => p.1 ++ '=' :: p.2).findSome? (cookieValue name) =
        ps.findSome? fun p => if p.1 = name then some p.2 else none := by
    induction ps with
    | nil => rfl
    | cons p ps ih =>
      rw [List.map_cons, List.findSome?_cons, cookieValue_plain (hps p List.mem_cons_self),
        ih fun q hq => hps q (List.mem_cons_of_mem _ hq), List.findSome?_cons]
  have hblank : cookieValue name ∘ (' ' :: ·) = cookieValue name := funext (cookieValue_blank name)
  unfold extractCookie cookieHeader
  cases cookies with
  | nil => rfl
  | cons p cookies =>
    have hsep : ∀ part ∈ (p.1 ++ '=' :: p.2) :: (cookies.map fun p => p.1 ++ '=' :: p.2).map (' ' :: ·), ';' ∉ part := by
      intro part hpart hc
      rcases List.mem_cons.1 hpart with rfl | hpart
      · exact ((h p List.mem_cons_self).text _ hc).2 rfl
      · obtain ⟨text, htext, rfl⟩ := List.mem_map.1 hpart
        obtain ⟨q, hq, rfl⟩ := List.mem_map.1 htext
        have hc : ';' ∈ q.1 ++ '=' :: q.2 := (List.mem_cons.1 hc).resolve_left (by decide)
        exact ((h q (List.mem_cons_of_mem _ hq)).text _ hc).2 rfl
    rw [List.map_cons, intercalate_blank, List.splitOn_intercalate ';' hsep (List.cons_ne_nil _ _), List.findSome?_cons,
      List.findSome?_map, hblank, ← List.findSome?_cons]
    exact hparts _ h

/-- A session that was handed out is remembered with its time. -/
theorem login_remembered {cfg : Config} {s : Server} {r : HttpRequest} {sid : List Char}
    (h : (respond cfg s r sid).1 = .loggedIn sid) :
    (respond cfg s r sid).2.now = s.now ∧ ∃ l ∈ (respond cfg s r sid).2.logins, l.sid = sid ∧ l.time = s.now := by
  have hrest := requireToken_rest cfg s r
  unfold respond at h ⊢
  split at h
  · cases h
  · next s₁ hreq =>
    rw [hreq] at hrest
    split at h
    · unfold login at h ⊢
      split at h
      · cases h
      · split at h
        · cases h
        · split at h
          · next heq =>
            rw [if_pos heq]
            exact ⟨hrest.1, _, List.mem_append_right _ (List.mem_singleton.2 rfl), rfl, hrest.1⟩
          · cases h
    · cases h
    · cases h
    · cases h

/-- A login is never forgotten. -/
theorem logins_step {cfg : Config} {s s' : Server} {a : Act} {l : Login} (hl : l ∈ s.logins)
    (hstep : step cfg s a = some s') : l ∈ s'.logins := by
  cases a with
  | wait d =>
    obtain rfl := Option.some.inj hstep
    exact hl
  | request r sid =>
    simp only [step] at hstep
    split at hstep
    · cases hstep
    · obtain rfl := Option.some.inj hstep
      have hrest := (requireToken_rest cfg s r).2
      unfold respond
      split
      · next s₁ hreq =>
        rw [hreq] at hrest
        exact hrest ▸ hl
      · next s₁ hreq =>
        rw [hreq] at hrest
        have hl₁ : l ∈ s₁.logins := hrest ▸ hl
        split
        · unfold login
          split
          · exact hl₁
          · split
            · exact hl₁
            · split
              · exact List.mem_append_left _ hl₁
              · exact hl₁
        · exact hl₁
        · exact hl₁
        · exact hl₁

/-- A cookie handed out by a login lets every request through that comes with it before its lifetime is over,
whatever other cookies come with it and whatever else has arrived. -/
theorem login_lasts (cfg : Config) {acts acts' : List Act} {s s₁ s₂ : Server} {r r' : HttpRequest} {sid : List Char}
    {cookies : List (List Char × List Char)} (hrun : Steps.exec (step cfg) .new acts = some s)
    (hlogin : step cfg s (.request r sid) = some s₁) (hreply : (respond cfg s r sid).1 = .loggedIn sid)
    (hrun' : Steps.exec (step cfg) s₁ acts' = some s₂) (hage : s₂.now - s₁.now < cfg.loginTtl)
    (hplain : ∀ p ∈ cookies, PlainCookie p) (hcookie : r'.cookie = some (String.ofList (cookieHeader cookies)))
    (hfirst : cookies.find? (·.1 = loginCookie.toList) = some (loginCookie.toList, sid)) :
    (requireToken cfg s₂ r').1 = true := by
  have hinv := inv_run hrun
  have hinv₂ : Inv cfg s₂ := Steps.exec_invariant (fun _ _ _ => inv_step) (inv_step hinv hlogin) hrun'
  have hs₁ : (respond cfg s r sid).2 = s₁ := by
    simp only [step] at hlogin
    split at hlogin
    · cases hlogin
    · exact Option.some.inj hlogin
  obtain ⟨hnow, l, hl, hsid, htime⟩ := login_remembered hreply
  rw [hs₁] at hnow hl
  have hl₂ : l ∈ s₂.logins :=
    Steps.exec_invariant (I := fun s => l ∈ s.logins) (fun _ _ _ h hs => logins_step h hs) hl hrun'
  rw [requireToken_fst hinv₂]
  refine fun _ expected _ => Or.inr (Or.inr ⟨l, hl₂, ?_, by omega⟩)
  rw [sessionCookie, hcookie, Option.bind_some, String.toList_ofList, extractCookie_header hplain, hsid]
  obtain ⟨-, front, behind, rfl, hfront⟩ := List.find?_eq_some_iff_append.1 hfirst
  refine List.findSome?_eq_some_iff.2 ⟨front, _, behind, rfl, by simp, fun p hp => ?_⟩
  have := hfront p hp
  simp only [Bool.not_eq_true', decide_eq_false_iff_not] at this
  rw [if_neg this]

/-- A second before the session is over, with another cookie. -/
theorem login_lasts_sample :
    (requireToken testConfig (loggedIn 43199) { testRequest with cookie := some "theme=dark; oc_session=0190" }).1 =
      true := by
  have hplain : ∀ p ∈ [("theme".toList, "dark".toList), (loginCookie.toList, "0190".toList)], PlainCookie p := by
    simp only [List.forall_mem_cons, List.not_mem_nil, false_imp_iff, implies_true, and_true]
    exact ⟨⟨List.forall_iff_forall_mem.1 (by decide +kernel), List.forall_iff_forall_mem.1 (by decide +kernel)⟩,
      ⟨List.forall_iff_forall_mem.1 (by decide +kernel), List.forall_iff_forall_mem.1 (by decide +kernel)⟩⟩
  exact @login_lasts testConfig [] [.wait 43199] .new (loggedIn 0) (loggedIn 43199) testLogin _ "0190".toList _ rfl
    testLogin_run (by decide +kernel) rfl (by decide) hplain (by decide +kernel) (by decide +kernel)

end OhMyClaw.Auth
