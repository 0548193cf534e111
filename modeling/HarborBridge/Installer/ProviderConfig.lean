import HarborBridge.Installer.Library

/-!
# Credential-provider configs

Package main of the installer, providerconfig.go: the rendered entry and its checks, the merge
into a cloud's config and the composition of the chart-owned one.
-/

namespace HarborBridge.Installer

open GoStrings Document

def credentialProviderConfigAPIVersion : GoString := lit "kubelet.config.k8s.io/v1"

def bridgeEndpointEnv : GoString := lit "HARBOR_BRIDGE_ENDPOINT"

def credentialProviderAPIVersion : GoString := lit "credentialprovider.kubelet.k8s.io/v1"

def credentialProviderAPIVersions : List GoString :=
  [credentialProviderAPIVersion, lit "credentialprovider.kubelet.k8s.io/v1beta1",
    lit "credentialprovider.kubelet.k8s.io/v1alpha1"]

def nameKey : GoString := lit "name"

def providersKey : GoString := lit "providers"

def apiVersionKey : GoString := lit "apiVersion"

inductive DocumentError where
  | parse
  | apiVersion
  | providersNotList
  | noName
  /-- A provider of this name that is not a bridge's. -/
  | foreignProvider
  | noProvider
  | marshal
  /-- `errNoRoundTrip`. -/
  | noRoundTrip
  deriving DecidableEq

/-- The providers of a config, none when the field is missing or null. -/
def providerList (cfg : Fields) : Except DocumentError (List Value) :=
  match Fields.get cfg providersKey with
  | none | some .null => .ok []
  | some (.list l) => .ok l
  | some _ => .error .providersNotList

/-- The entry of the map's name, if it is a map of that name. -/
def named (name : GoString) (p : Value) : Option Fields :=
  p.asMap.filter fun m => decide (Fields.get m nameKey = some (.str name))

def renderedProvider (L : Library) (rendered name : GoString) : Except DocumentError Fields := do
  let some cfg := L.readYaml rendered | .error .parse
  let providers ← providerList cfg
  match providers.findSome? (named name) with
  | some entry => .ok entry
  | none => .error .noProvider

/-- The items of a list field, none when it is no list. -/
def listField (m : Fields) (key : GoString) : List Value := ((Fields.get m key).bind Value.asList).getD []

/-! ## The rendered entry -/

inductive EntryProblem where
  | apiVersion
  | noImages
  | imageNotString
  | image (pattern : GoString)
  | durationNotString
  | duration (text : GoString)
  | negativeDuration (text : GoString)
  | endpointUrl (value : GoString)
  | endpointScheme (value : GoString)
  | endpointHost (value : GoString)
  | endpointMissing
  | tokenApiVersion
  | audience
  | requireServiceAccount
  | cacheType
  deriving DecidableEq

def bridgeEndpointProblem (L : Library) (entry : Fields) : Option EntryProblem :=
  let set := (listField entry (lit "env")).find? fun e =>
    decide (((e.asMap).getD []).get nameKey = some (.str bridgeEndpointEnv))
  match set with
  | none => some .endpointMissing
  | some e =>
    let value := (((e.asMap).getD []).string (lit "value")).getD []
    match L.parseUrl value with
    | none => some (.endpointUrl value)
    | some u =>
      if u.scheme ≠ lit "https" then some (.endpointScheme value)
      else if u.host = [] then some (.endpointHost value)
      else none

def imageProblems (L : Library) (images : List Value) : List EntryProblem :=
  (if images.isEmpty then [.noImages] else []) ++ images.filterMap fun img =>
    match img.asString with
    | none => some .imageNotString
    | some s => if (L.parseUrl (lit "https://" ++ s)).isNone then some (.image s) else none

def durationProblems (L : Library) (entry : Fields) : List EntryProblem :=
  match entry.string (lit "defaultCacheDuration") with
  | none => [.durationNotString]
  | some d =>
    match L.parseDuration d with
    | none => [.duration d]
    | some dur => if dur < 0 then [.negativeDuration d] else []

def tokenProblems (apiVersion : GoString) (entry : Fields) : List EntryProblem :=
  match entry.get (lit "tokenAttributes") with
  | none => []
  | some raw =>
    let ta := raw.asMap.getD []
    let cacheType := (ta.string (lit "cacheType")).getD []
    (if apiVersion ≠ credentialProviderAPIVersion then [.tokenApiVersion] else []) ++
    (if (ta.string (lit "serviceAccountTokenAudience")).getD [] = [] then [.audience] else []) ++
    (if ((ta.get (lit "requireServiceAccount")).bind Value.asBool).isNone then [.requireServiceAccount]
      else []) ++
    (if cacheType ≠ lit "ServiceAccount" ∧ cacheType ≠ lit "Token" then [.cacheType] else [])

/-- What kubelet or the plugin would refuse in the entry. -/
def validateEntry (L : Library) (entry : Fields) : List EntryProblem :=
  let apiVersion := (entry.string apiVersionKey).getD []
  (if apiVersion ∈ credentialProviderAPIVersions then [] else [.apiVersion]) ++
  imageProblems L (listField entry (lit "matchImages")) ++ durationProblems L entry ++
  (bridgeEndpointProblem L entry).toList ++ tokenProblems apiVersion entry

/-! ## The merge into a cloud's config -/

def isBridgeProvider (entry : Fields) : Bool :=
  (listField entry (lit "env")).any fun e =>
    match e.asMap with
    | some m => decide (Fields.get m nameKey = some (.str bridgeEndpointEnv))
    | none => false

/-- Whether the first byte that is no space is a brace. -/
def isJSON (doc : GoString) : Bool :=
  match doc.dropWhile fun b => decide (b ∈ [32, 9, 13, 10]) with
  | 123 :: _ => true
  | _ => false

def marshalMatching (L : Library) (cfg : Fields) (asJSON : Bool) : Option GoString :=
  if asJSON then (L.writeJson cfg).map (· ++ [10]) else L.writeYaml cfg

def checkRoundTrip (L : Library) (out : GoString) (want : Fields) (asJSON : Bool) : Bool :=
  decide (L.readYaml out = some want) && (!asJSON || decide (L.readJson out = some want))

/-- The document with its API version checked, and its providers. -/
def readConfig (L : Library) (doc : GoString) : Except DocumentError (Fields × List Value) := do
  let some cfg := L.readYaml doc | .error .parse
  if cfg.string apiVersionKey ≠ some credentialProviderConfigAPIVersion then .error .apiVersion
  let providers ← providerList cfg
  .ok (cfg, providers)

def entryName (entry : Fields) : Except DocumentError GoString :=
  match entry.string nameKey with
  | some name => if name = [] then .error .noName else .ok name
  | none => .error .noName

theorem string_of_entryName {entry : Fields} {name : GoString} (h : entryName entry = .ok name) :
    entry.string nameKey = some name := by
  unfold entryName at h
  split at h
  · split_ifs at h
    cases h
    assumption
  · cases h

/-- The loop of `mergeProvider`: the entry in the place of the first provider of its name, or
none when there is no such provider. -/
def replaceProvider (name : GoString) (entry : Fields) : List Value → Except DocumentError (Option (List Value))
  | [] => .ok none
  | p :: rest =>
    match named name p with
    | some m => if isBridgeProvider m then .ok (some (.map entry :: rest)) else .error .foreignProvider
    | none => do
      let replaced ← replaceProvider name entry rest
      .ok (replaced.map (p :: ·))

/-- The config with the entry, and whether it changed. -/
def mergeProvider (L : Library) (existing : GoString) (entry : Fields) :
    Except DocumentError (GoString × Bool) := do
  let (orig, providers) ← readConfig L existing
  let name ← entryName entry
  let replaced ← replaceProvider name entry providers
  let cfg := orig.set providersKey (.list (replaced.getD (providers ++ [.map entry])))
  if orig = cfg then .ok (existing, false)
  else do
    let asJSON := isJSON existing
    let some out := marshalMatching L cfg asJSON | .error .marshal
    if checkRoundTrip L out cfg asJSON then .ok (out, true) else .error .noRoundTrip

/-! ## The chart-owned config -/

/-- The providers a chart-owned config keeps, and the names among them. -/
structure Kept where
  kept : List Value
  seen : List GoString

/-- The loop of `composeOwnConfig`; `seen` are the names kept so far. -/
def composeFrom (name : GoString) (entry : Fields) (sibling : Fields → Bool) :
    (seen : List GoString) → List Value → Kept
  | seen, [] => ⟨[], seen⟩
  | seen, p :: rest =>
    match p.asMap with
    | none => composeFrom name entry sibling seen rest
    | some m =>
      let pname := (m.string nameKey).getD []
      if pname = name ∧ name ∉ seen then
        let after := composeFrom name entry sibling (name :: seen) rest
        { after with kept := .map entry :: after.kept }
      else if pname ≠ name ∧ pname ∉ seen ∧ sibling m = true then
        let after := composeFrom name entry sibling (pname :: seen) rest
        { after with kept := p :: after.kept }
      else composeFrom name entry sibling seen rest

def composeProviders (name : GoString) (entry : Fields) (sibling : Fields → Bool) (providers : List Value) :
    List Value :=
  let k := composeFrom name entry sibling [] providers
  if name ∈ k.seen then k.kept else k.kept ++ [.map entry]

def composeOwnConfig (L : Library) (existing rendered : GoString) (entry : Fields)
    (sibling : Fields → Bool) : Except DocumentError GoString := do
  let (cur, providers) ← readConfig L existing
  let name ← entryName entry
  let kept := composeProviders name entry sibling providers
  if kept.length = 1 then .ok rendered
  else do
    let some doc := L.readYaml rendered | .error .parse
    let doc := doc.set providersKey (.list kept)
    if cur = doc then .ok existing
    else do
      let some out := L.writeYaml doc | .error .marshal
      if checkRoundTrip L out doc false then .ok out else .error .noRoundTrip

/-- The content of a chart-owned config after the install. A file that is no config is replaced,
as installers always did. -/
def chartOwnedConfig (L : Library) (existing rendered : GoString) (entry : Fields)
    (sibling : Fields → Bool) : Except DocumentError GoString :=
  match composeOwnConfig L existing rendered entry sibling with
  | .error .noRoundTrip => .error .noRoundTrip
  | .error _ => .ok rendered
  | .ok out => .ok out

/-! ## Reading other installs' entries -/

inductive StartProblem where
  /-- The provider at this place. -/
  | noName (i : Nat)
  | refusedName (name : GoString)
  | twice (name : GoString)
  | noBinary (name : GoString)
  deriving DecidableEq

/-- The loop of `kubeletStartProblems`; `i` is the place of the provider, `seen` are the names
before it. -/
def startProblemsFrom (own : GoString) (hasBinary : GoString → Bool) :
    (i : Nat) → (seen : List GoString) → List Value → List StartProblem
  | _, _, [] => []
  | i, seen, p :: rest =>
    match (p.asMap.getD []).string nameKey with
    | none => .noName (i + 1) :: startProblemsFrom own hasBinary (i + 1) seen rest
    | some name =>
      (if name = [] ∨ name = lit "." ∨ name = lit ".." ∨ 47 ∈ name ∨ 32 ∈ name then [.refusedName name]
        else if name ∈ seen then [.twice name]
        else if name ≠ own ∧ hasBinary name = false then [.noBinary name]
        else []) ++ startProblemsFrom own hasBinary (i + 1) (name :: seen) rest

def kubeletStartProblems (L : Library) (doc own : GoString) (hasBinary : GoString → Bool) :
    Except DocumentError (List StartProblem) := do
  let some cfg := L.readYaml doc | .error .parse
  let providers ← providerList cfg
  .ok (startProblemsFrom own hasBinary 0 [] providers)

/-- The names of the bridge entries that are not of this name and that `counts` accepts, every
one without it. -/
def otherBridgeProviders (L : Library) (doc name : GoString) (counts : Option (Fields → Bool)) :
    List GoString :=
  match L.readYaml doc with
  | none => []
  | some cfg =>
    match providerList cfg with
    | .error _ => []
    | .ok providers => providers.filterMap fun p =>
      match p.asMap with
      | none => none
      | some m =>
        if Fields.get m nameKey ≠ some (.str name) ∧ isBridgeProvider m = true ∧
            ((counts.map fun c => c m).getD true) = true then some (L.sprint (Fields.get m nameKey))
        else none

/-! ## The node's address -/

def nodeIPPlaceholder : GoString := lit "$(NODE_IP)"

def containsText (s t : GoString) : Bool := s.tails.any fun r => hasPrefix r t

/-- bytes.ReplaceAll of a text that is not empty; `skip` bytes of it are still to be passed. -/
def replaceAllFrom (old new : GoString) : (skip : Nat) → GoString → GoString
  | _, [] => []
  | skip + 1, _ :: s => replaceAllFrom old new skip s
  | 0, b :: s =>
    if hasPrefix (b :: s) old then new ++ replaceAllFrom old new (old.length - 1) s
    else b :: replaceAllFrom old new 0 s

def replaceAll (s old new : GoString) : GoString := replaceAllFrom old new 0 s

inductive NodeIPError where
  | notSet
  | notAddress
  | bracketed
  deriving DecidableEq

def substituteNodeIP (L : Library) (rendered nodeIP : GoString) : Except NodeIPError GoString :=
  if !containsText rendered nodeIPPlaceholder then .ok rendered
  else if nodeIP = [] then .error .notSet
  else
    match L.parseAddr nodeIP with
    | none => .error .notAddress
    | some addr =>
      let bracketed := 91 :: (nodeIPPlaceholder ++ [93])
      if addr.zone ≠ [] then .error .notAddress
      else if addr.is4 then
        if containsText rendered bracketed then .error .bracketed
        else .ok (replaceAll rendered nodeIPPlaceholder addr.text)
      else
        let host := 91 :: (addr.text ++ [93])
        .ok (replaceAll (replaceAll rendered bracketed host) nodeIPPlaceholder host)

end HarborBridge.Installer
