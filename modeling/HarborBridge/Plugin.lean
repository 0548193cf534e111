import HarborBridge.DataPlane

/-! The plugin that kubelet runs (package main of plugin/): main.go and the reply handling of
bridge_client.go. -/
namespace HarborBridge.Plugin

open GoStrings Rfc3339

def credentialProviderAPIVersion : GoString := lit "credentialprovider.kubelet.k8s.io/v1"

def requestKind : GoString := lit "CredentialProviderRequest"

def responseKind : GoString := lit "CredentialProviderResponse"

def cacheKeyTypeImage : GoString := lit "Image"

structure CredentialProviderRequest where
  apiVersion : GoString
  kind : GoString
  image : GoString
  serviceAccountToken : GoString
  deriving DecidableEq

structure AuthConfig where
  username : GoString
  password : GoString
  deriving DecidableEq

structure CredentialProviderResponse where
  apiVersion : GoString
  kind : GoString
  cacheKeyType : GoString
  /-- In nanoseconds. -/
  cacheDuration : Int
  auth : List (GoString × AuthConfig)
  deriving DecidableEq

/-- The reply as it is decoded; `expires_in` may be missing. -/
structure BridgeResponse where
  username : GoString
  password : GoString
  expiresInSecs : Option Int
  cacheKeyType : GoString
  deriving DecidableEq

inductive FetchErr where
  | refused (status : Nat)
  | unavailable
  | undecodable
  | incomplete
  | unexpected (status : Nat)
  deriving DecidableEq

inductive RunErr where
  | undecodable
  | unsupported (apiVersion kind : GoString)
  | emptyImage
  | emptyToken
  | fetch (e : FetchErr)
  | noHost (image : GoString)
  | cacheKeyType (got : GoString)
  | noExpiresIn
  deriving DecidableEq

/-! ## Replies of the bridge -/

/-- The outcome of a request: none on an error of the transport, otherwise the status and the
decoded body. -/
abbrev Received := Option (Nat × Option BridgeResponse)

/-- What the plugin decodes from the body of a 200. -/
def decoded (r : Response) : BridgeResponse :=
  ⟨r.username, r.password, some r.expiresInSecs, r.cacheKeyType⟩

/-- A reply of the bridge as the plugin receives it. -/
def receive : Reply → Received
  | .error status _ => some (status, none)
  | .ok r => some (200, some (decoded r))

def checkReply (status : Nat) (body : Option BridgeResponse) : Except FetchErr BridgeResponse :=
  if status = 200 then
    match body with
    | none => .error .undecodable
    | some out =>
      if out.username = [] ∨ out.password = [] then .error .incomplete
      else if out.cacheKeyType = [] then .error .incomplete
      else if out.expiresInSecs = none then .error .incomplete
      else .ok out
  else if status = 401 ∨ status = 403 then .error (.refused status)
  else if status = 503 then .error .unavailable
  else .error (.unexpected status)

/-- The request is sent once more after a 503. -/
def fetch (first second : Received) : Except FetchErr BridgeResponse :=
  match first with
  | none => .error .unavailable
  | some (503, _) =>
    match second with
    | none => .error .unavailable
    | some (status, body) => checkReply status body
  | some (status, body) => checkReply status body

/-! ## Answers to kubelet -/

def imageHost (image : GoString) : GoString :=
  match cut image 47 with
  | some (host, _) => host
  | none => []

def maxCacheDuration : Int := 24 * hour

def cacheKeyTypes : List GoString := [lit "Image", lit "Registry", lit "Global"]

def writeOKResponse (r : BridgeResponse) (image : GoString) :
    Except RunErr CredentialProviderResponse :=
  let host := imageHost image
  if host = [] then .error (.noHost image)
  else if r.cacheKeyType ∉ cacheKeyTypes then .error (.cacheKeyType r.cacheKeyType)
  else
    match r.expiresInSecs with
    | none => .error .noExpiresIn
    | some expires =>
      let secs := if expires < 0 then 0 else expires
      let dur := if maxCacheDuration / second < secs then maxCacheDuration else secs * second
      .ok ⟨credentialProviderAPIVersion, responseKind, r.cacheKeyType, dur,
        [(host, ⟨r.username, r.password⟩)]⟩

def refusedResponse : CredentialProviderResponse :=
  ⟨credentialProviderAPIVersion, responseKind, cacheKeyTypeImage, 0, []⟩

/-- The request is none when it cannot be decoded. -/
def run (req : Option CredentialProviderRequest)
    (fetch : GoString → GoString → Except FetchErr BridgeResponse) :
    Except RunErr CredentialProviderResponse :=
  match req with
  | none => .error .undecodable
  | some req =>
    if req.apiVersion ≠ credentialProviderAPIVersion ∨ req.kind ≠ requestKind then
      .error (.unsupported req.apiVersion req.kind)
    else if req.image = [] then .error .emptyImage
    else if req.serviceAccountToken = [] then .error .emptyToken
    else
      match fetch req.image req.serviceAccountToken with
      | .error (.refused _) => .ok refusedResponse
      | .error e => .error (.fetch e)
      | .ok resp => writeOKResponse resp req.image

/-! ## The cache duration -/

/-- The duration that the plugin passes on is the one of the reply, from 0 to a day. -/
theorem writeOKResponse_cacheDuration {r : BridgeResponse} {image : GoString}
    {out : CredentialProviderResponse} (h : writeOKResponse r image = .ok out) :
    ∃ expires, r.expiresInSecs = some expires ∧ 0 ≤ out.cacheDuration ∧
      out.cacheDuration ≤ max 0 (expires * second) := by
  unfold writeOKResponse at h
  dsimp only at h
  cases hexpires : r.expiresInSecs with
  | none =>
    rw [hexpires] at h
    split_ifs at h
  | some expires =>
    rw [hexpires] at h
    refine ⟨expires, rfl, ?_⟩
    by_cases hhost : imageHost image = []
    · rw [if_pos hhost] at h
      cases h
    by_cases hkey : r.cacheKeyType ∉ cacheKeyTypes
    · rw [if_neg hhost, if_pos hkey] at h
      cases h
    rw [if_neg hhost, if_neg hkey] at h
    obtain rfl := Except.ok.inj h
    dsimp only
    unfold maxCacheDuration hour minute second
    split_ifs <;> omega

/-- What the plugin writes for kubelet when the bridge has answered with `resp`, at once or after
a 503. -/
def Passes (resp : Response) (out : CredentialProviderResponse) : Prop :=
  ∃ req first second, (first = receive (.ok resp) ∨
      (∃ body, first = some (503, body)) ∧ second = receive (.ok resp)) ∧
    run req (fun _ _ => fetch first second) = .ok out

theorem checkReply_decoded (resp : Response) :
    checkReply 200 (some (decoded resp)) = .error .incomplete ∨
      checkReply 200 (some (decoded resp)) = .ok (decoded resp) := by
  unfold checkReply
  rw [if_pos rfl]
  dsimp only
  split_ifs
  · exact .inl rfl
  · exact .inl rfl
  · exact .inl rfl
  · exact .inr rfl

/-- Whatever kubelet asks for, the plugin passes on what it decodes. -/
theorem Passes.written {resp : Response} {out : CredentialProviderResponse} (h : Passes resp out) :
    ∃ image, writeOKResponse (decoded resp) image = .ok out := by
  obtain ⟨req, first, second, hreply, hrun⟩ := h
  have hfetch : fetch first second = checkReply 200 (some (decoded resp)) := by
    rcases hreply with rfl | ⟨⟨body, rfl⟩, rfl⟩ <;> rfl
  cases req with
  | none => cases hrun
  | some req =>
    unfold run at hrun
    rw [hfetch] at hrun
    dsimp only at hrun
    rcases checkReply_decoded resp with hcheck | hcheck <;> rw [hcheck] at hrun <;> split_ifs at hrun
    exact ⟨req.image, hrun⟩

end HarborBridge.Plugin
