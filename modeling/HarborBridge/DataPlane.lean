import HarborBridge.BridgeConfig

/-! The HTTP handler of the data plane (package dataplane, handler.go). -/
namespace HarborBridge

open GoStrings DnsNames Rfc3339

structure Claims where
  subject : GoString
  issuer : GoString
  audience : List GoString
  deriving DecidableEq

inductive ValidateErr where
  | signingKeysUnavailable
  | invalid
  deriving DecidableEq

structure HandlerConfig where
  bridgeNamespace : GoString
  forceLocalValidation : Bool
  audience : GoString
  robotUsername : Option (GoString → GoString → Except RobotNameErr GoString)

structure Request where
  method : GoString
  path : GoString
  authorization : GoString
  /-- The outcome of decoding the body, if there is one: the image, or none on an error. -/
  body : Option (Option GoString)

structure Response where
  username : GoString
  password : GoString
  expiresInSecs : Int
  cacheKeyType : GoString
  deriving DecidableEq

inductive Reply where
  | error (status : Nat) (message : GoString)
  | ok (response : Response)
  deriving DecidableEq

/-- The handler with what it reads: the decision of the limiter, the validator, the cached
objects and the clock. -/
structure Handler where
  config : HandlerConfig
  allow : Bool
  validate : GoString → Except ValidateErr Claims
  harborAccesses : Except ApiErr (List HarborAccess)
  getSecret : GoString → GoString → Except ApiErr Secret
  now : Int

def credentialsPath : GoString := lit "/v1/credentials"

def cacheKeyTypeRegistry : GoString := lit "Registry"

/-- The token subject of a ServiceAccount. -/
def serviceAccountSubject (saNamespace saName : GoString) : GoString :=
  lit "system:serviceaccount:" ++ saNamespace ++ 58 :: saName

def harborAccessSubject (ha : HarborAccess) : GoString :=
  serviceAccountSubject ha.spec.serviceAccountRef.ns ha.spec.serviceAccountRef.name

/-- The first audience of the token that the HarborAccess names. -/
def matchedAudience (claims : Claims) (ha : HarborAccess) : Option GoString :=
  claims.audience.find? fun aud => aud ≠ [] ∧ aud = ha.spec.trustPolicy.audience

/-- The checks of a listed HarborAccess before its audience is looked up in the token. -/
def eligible (config : HandlerConfig) (claims : Claims) (ha : HarborAccess) : Bool :=
  ha.spec.trustPolicy.audience ≠ [] ∧ ha.spec.trustPolicy.issuer ≠ [] ∧
    ha.spec.trustPolicy.audience = config.audience ∧
    harborAccessSubject ha = claims.subject ∧
    ha.spec.trustPolicy.issuer = claims.issuer

def keyLE (a b : HarborAccess) : Prop :=
  if b.key.ns ≠ a.key.ns then ¬ b.key.ns < a.key.ns else ¬ b.key.name < a.key.name

instance : DecidableRel keyLE := fun a b => by
  unfold keyLE
  infer_instance

structure Found where
  matched : Option (HarborAccess × GoString)
  deleting : Option HarborAccess

def matchesOf (config : HandlerConfig) (claims : Claims) (items : List HarborAccess) :
    List (HarborAccess × GoString) :=
  items.filterMap fun ha =>
    if eligible config claims ha then (matchedAudience claims ha).map fun aud => (ha, aud)
    else none

def findHarborAccess (config : HandlerConfig) (items : List HarborAccess) (claims : Claims) :
    Found :=
  -- the List call selects by the index on the subject
  let ms := matchesOf config claims (items.filter fun ha => harborAccessSubject ha = claims.subject)
  let byName (ms : List (HarborAccess × GoString)) := ms.insertionSort fun a b => keyLE a.1 b.1
  match byName (ms.filter fun m => !m.1.deleting) with
  | m :: _ => ⟨some m, none⟩
  | [] => ⟨none, (byName (ms.filter fun m => m.1.deleting)).head?.map (·.1)⟩

/-- How long kubelet may cache the credentials. -/
def cacheDuration (tokenTTL : Int) (notBefore : Option Int) (now : Int) : Int :=
  let ttl := if tokenTTL ≤ 0 then hour else tokenTTL
  match notBefore with
  | none => ttl
  | some nb =>
    let remaining := timeSub nb now
    if remaining ≤ 0 then 0
    else if remaining < ttl then remaining - remaining % second
    else ttl

structure RobotCreds where
  username : GoString
  password : GoString
  rotationNotBefore : Option Int

inductive ReadSecretErr where
  | ownerMismatch
  | api (e : ApiErr)
  | incomplete
  deriving DecidableEq

def readRobotSecret (h : Handler) (ha : HarborAccess) : Except ReadSecretErr RobotCreds :=
  match h.getSecret h.config.bridgeNamespace (RobotSecret.name ha.key.ns ha.key.name) with
  | .error e => .error (.api e)
  | .ok secret =>
    if RobotSecret.isManaged secret = false then .error .ownerMismatch
    else if RobotSecret.stampedForOther secret ha.key.ns ha.key.name then .error .ownerMismatch
    else
      match RobotSecret.credentials secret with
      | none => .error .incomplete
      | some (username, password) =>
        .ok ⟨username, password, RobotSecret.rotationNotBefore secret⟩

/-- The username that the robot Secret of a HarborAccess must hold (the method
`robotUsername`), none on an error. -/
def expectedUsername (config : HandlerConfig) (ha : HarborAccess) : Option GoString :=
  config.robotUsername.bind fun f =>
    (f ha.spec.serviceAccountRef.ns ha.spec.serviceAccountRef.name).toOption

/-- The part of `ServeHTTP` after the token was validated. -/
def serveClaims (h : Handler) (claims : Claims) : Reply :=
  match h.harborAccesses with
  | .error _ => .error 500 (lit "internal error")
  | .ok items =>
    match findHarborAccess h.config items claims with
    | ⟨none, some _⟩ =>
      .error 403 (lit "the HarborAccess for the requesting service account is being deleted")
    | ⟨none, none⟩ =>
      .error 403 (lit "no matching HarborAccess for the requesting service account and audience")
    | ⟨some (matched, _), _⟩ =>
      if matched.spec.tokenTTL.hasErr then
        .error 403 (lit "the matching HarborAccess has an invalid spec; see its Ready condition")
      else
        match readRobotSecret h matched with
        | .error .ownerMismatch => .error 403 (lit "credential Secret ownership mismatch")
        | .error (.api .notFound) => .error 503 (lit "credentials not yet available; retry")
        | .error _ => .error 500 (lit "internal error")
        | .ok creds =>
          match expectedUsername h.config matched with
          | none => .error 500 (lit "internal error")
          | some want =>
            if creds.username ≠ want then .error 503 (lit "credentials not yet available; retry")
            else
              let ttl := cacheDuration matched.spec.tokenTTL.duration creds.rotationNotBefore h.now
              .ok ⟨creds.username, creds.password, ttl / second, cacheKeyTypeRegistry⟩

def serveHTTP (h : Handler) (r : Request) : Reply :=
  if r.method ≠ lit "POST" then .error 405 (lit "method not allowed")
  else if r.path ≠ credentialsPath then .error 404 (lit "404 page not found")
  else if h.allow = false then .error 429 (lit "too many requests")
  else if h.config.forceLocalValidation = false then
    .error 501
      (lit "alternative validation path not yet implemented; set forceLocalValidation=true")
  else
    match cutPrefix r.authorization (lit "Bearer ") with
    | none => .error 401 (lit "missing Bearer credential")
    | some [] => .error 401 (lit "missing Bearer credential")
    | some rawToken =>
      if r.body = some none then .error 400 (lit "invalid JSON body")
      else
        match h.validate rawToken with
        | .error .signingKeysUnavailable =>
          .error 503 (lit "token signing keys unavailable; retry")
        | .error .invalid => .error 401 (lit "invalid token")
        | .ok claims => serveClaims h claims

end HarborBridge
