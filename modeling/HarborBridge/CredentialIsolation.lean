import HarborBridge.DataPlane

/-! Whose credentials the data plane hands out. -/
namespace HarborBridge

open GoStrings DnsNames Rfc3339

theorem mem_matchesOf (config : HandlerConfig) (claims : Claims) (items : List HarborAccess)
    (m : HarborAccess × GoString) :
    m ∈ matchesOf config claims items ↔ m.1 ∈ items ∧ eligible config claims m.1 = true ∧
      matchedAudience claims m.1 = some m.2 := by
  unfold matchesOf
  rw [List.mem_filterMap]
  constructor
  · rintro ⟨ha, hmem, hm⟩
    split_ifs at hm with he
    obtain ⟨aud, haud, rfl⟩ := Option.map_eq_some_iff.mp hm
    exact ⟨hmem, he, haud⟩
  · rintro ⟨hmem, he, haud⟩
    exact ⟨m.1, hmem, by rw [if_pos he, haud]; rfl⟩

/-- The HarborAccess that is selected is one of the listed ones, is not being deleted and
passes the checks. -/
theorem findHarborAccess_matched (config : HandlerConfig) (items : List HarborAccess)
    (claims : Claims) (ha : HarborAccess) (aud : GoString)
    (h : (findHarborAccess config items claims).matched = some (ha, aud)) :
    ha ∈ items ∧ ha.deleting = false ∧ eligible config claims ha = true ∧
      matchedAudience claims ha = some aud := by
  unfold findHarborAccess at h
  dsimp only at h
  split at h
  · next m rest hsort =>
    obtain rfl := Option.some.inj h
    have hmem := (List.mem_insertionSort _).mp (hsort ▸ List.mem_cons_self)
    rw [List.mem_filter, mem_matchesOf, List.mem_filter] at hmem
    obtain ⟨⟨⟨hitem, _⟩, he, haud⟩, hdel⟩ := hmem
    exact ⟨hitem, by simpa using hdel, he, haud⟩
  · cases h

/-- Everything that a 200 response says about what the handler read. -/
structure Served (h : Handler) (claims : Claims) (ha : HarborAccess) (secret : Secret)
    (resp : Response) : Prop where
  listed : ∃ items, h.harborAccesses = .ok items ∧
    ∃ aud, (findHarborAccess h.config items claims).matched = some (ha, aud)
  ttl : ha.spec.tokenTTL.hasErr = false
  read : h.getSecret h.config.bridgeNamespace (RobotSecret.name ha.key.ns ha.key.name) = .ok secret
  managed : RobotSecret.isManaged secret = true
  stamped : RobotSecret.stampedForOther secret ha.key.ns ha.key.name = false
  credentials : RobotSecret.credentials secret = some (resp.username, resp.password)
  username : expectedUsername h.config ha = some resp.username
  expires : resp.expiresInSecs = cacheDuration ha.spec.tokenTTL.duration
    (RobotSecret.rotationNotBefore secret) h.now / second
  cacheKey : resp.cacheKeyType = cacheKeyTypeRegistry

theorem readRobotSecret_ok (h : Handler) (ha : HarborAccess) (creds : RobotCreds)
    (hread : readRobotSecret h ha = .ok creds) :
    ∃ secret, h.getSecret h.config.bridgeNamespace (RobotSecret.name ha.key.ns ha.key.name) =
        .ok secret ∧
      RobotSecret.isManaged secret = true ∧
      RobotSecret.stampedForOther secret ha.key.ns ha.key.name = false ∧
      RobotSecret.credentials secret = some (creds.username, creds.password) ∧
      creds.rotationNotBefore = RobotSecret.rotationNotBefore secret := by
  unfold readRobotSecret at hread
  split at hread
  · cases hread
  · next secret hget =>
    split_ifs at hread with hmanaged hstamped
    split at hread
    · cases hread
    · next username password hcreds =>
      obtain rfl := Except.ok.inj hread
      exact ⟨secret, hget, by simpa using hmanaged, by simpa using hstamped, hcreds, rfl⟩

theorem serveClaims_ok (h : Handler) (claims : Claims) (resp : Response)
    (hok : serveClaims h claims = .ok resp) : ∃ ha secret, Served h claims ha secret resp := by
  unfold serveClaims at hok
  split at hok
  · cases hok
  · next items hitems =>
    split at hok
    · cases hok
    · cases hok
    · next matched aud deleting hfound =>
      split_ifs at hok with httl
      split at hok
      · cases hok
      · cases hok
      · cases hok
      · next creds hread =>
        obtain ⟨secret, hget, hmanaged, hstamped, hcreds, hnb⟩ := readRobotSecret_ok h matched creds hread
        split at hok
        · cases hok
        · next want hwant =>
          split_ifs at hok with huser
          obtain rfl := Reply.ok.inj hok
          rw [not_not] at huser
          exact ⟨matched, secret, ⟨items, hitems, aud, by rw [hfound]⟩, by simpa using httl, hget,
            hmanaged, hstamped, hcreds, by rw [huser]; exact hwant, by rw [hnb], rfl⟩

theorem serveHTTP_ok (h : Handler) (r : Request) (resp : Response)
    (hok : serveHTTP h r = .ok resp) :
    ∃ rawToken claims, cutPrefix r.authorization (lit "Bearer ") = some rawToken ∧
      h.validate rawToken = .ok claims ∧ ∃ ha secret, Served h claims ha secret resp := by
  unfold serveHTTP at hok
  split_ifs at hok
  · split at hok <;> cases hok
  · split at hok
    · cases hok
    · cases hok
    · next rawToken _ htoken =>
      split at hok
      · cases hok
      · cases hok
      · next claims hclaims =>
        exact ⟨rawToken, claims, htoken, hclaims, serveClaims_ok h claims resp hok⟩

/-- A HarborAccess that a token is served from: it matches the claims and is current. -/
structure Matches (config : HandlerConfig) (claims : Claims) (ha : HarborAccess) : Prop where
  current : ha.deleting = false
  ttl : ha.spec.tokenTTL.hasErr = false
  audience : ha.spec.trustPolicy.audience = config.audience
  audience_mem : ha.spec.trustPolicy.audience ∈ claims.audience
  issuer : ha.spec.trustPolicy.issuer = claims.issuer
  subject : harborAccessSubject ha = claims.subject

theorem Served.matches_ {h : Handler} {claims : Claims} {ha : HarborAccess} {secret : Secret}
    {resp : Response} (hs : Served h claims ha secret resp) : Matches h.config claims ha := by
  obtain ⟨items, _, aud, hfound⟩ := hs.listed
  obtain ⟨_, hdel, he, haud⟩ := findHarborAccess_matched h.config items claims ha aud hfound
  simp only [eligible, decide_eq_true_eq] at he
  have hmem := List.mem_of_find?_eq_some haud
  have hsome := List.find?_some haud
  simp only [decide_eq_true_eq] at hsome
  exact ⟨hdel, hs.ttl, he.2.2.1, hsome.2 ▸ hmem, he.2.2.2.2, he.2.2.2.1⟩

/-- The subject of a token names at most one ServiceAccount, because a namespace has no
colon and a name has none either. -/
theorem serviceAccountSubject_injective (ns name ns' name' : GoString) (hns : 58 ∉ ns)
    (hname : 58 ∉ name) (h : serviceAccountSubject ns name = serviceAccountSubject ns' name') :
    ns = ns' ∧ name = name' := by
  unfold serviceAccountSubject at h
  rw [List.append_assoc, List.append_assoc] at h
  have hrest := List.append_cancel_left h
  -- there is one colon on the left, so the one in the middle is the only one on the right
  have hns' : 58 ∉ ns' := by
    have hcount := congrArg (List.count 58) hrest
    simp only [List.count_append, List.count_cons_self, List.count_eq_zero_of_not_mem hns,
      List.count_eq_zero_of_not_mem hname] at hcount
    exact List.count_eq_zero.mp (by omega)
  have hcut := congrArg (cut · 58) hrest
  simpa [cut_append, hns, hns'] using hcut

/-- The handler of a bridge: its usernames come from the bridge's configuration. -/
def Wired (c : Config) (h : Handler) : Prop := h.config.robotUsername = some (robotUsername c)

theorem Served.robotName {c : Config} {h : Handler} {claims : Claims} {ha : HarborAccess}
    {secret : Secret} {resp : Response} (hw : Wired c h) (hs : Served h claims ha secret resp) :
    ∃ name, HarborBridge.robotName c.clusterName ha.spec.serviceAccountRef.ns
        ha.spec.serviceAccountRef.name = .ok name ∧ resp.username = c.harborRobotPrefix ++ name := by
  have huser := hs.username
  unfold Wired at hw
  simp only [expectedUsername, hw, Option.bind_some, robotUsername] at huser
  cases hname : HarborBridge.robotName c.clusterName ha.spec.serviceAccountRef.ns
      ha.spec.serviceAccountRef.name with
  | error e => simp [hname, bind, Except.bind, Except.toOption] at huser
  | ok name =>
    simp only [hname, bind, Except.bind, Except.toOption, Option.some.injEq] at huser
    exact ⟨name, rfl, huser.symm⟩

/-- The labels of a HarborAccess's robot Secret. -/
structure StampedFor (ha : HarborAccess) (secret : Secret) : Prop where
  managed : RobotSecret.isManaged secret = true
  ns : secret.labels.get RobotSecret.labelHarborAccessNamespace = ha.key.ns
  name : secret.labels.get RobotSecret.labelHarborAccessName = ha.key.name

theorem Served.stampedFor {h : Handler} {claims : Claims} {ha : HarborAccess} {secret : Secret}
    {resp : Response} (hs : Served h claims ha secret resp) : StampedFor ha secret := by
  have hstamped := hs.stamped
  simp only [RobotSecret.stampedForOther, hs.managed, Bool.true_and, Bool.or_eq_false_iff,
    bne_eq_false_iff_eq] at hstamped
  exact ⟨hs.managed, hstamped.1, hstamped.2⟩

/-- A serviceAccountRef as the CRD admits it, in a namespace that is short enough for the
cut of a truncated robot name to fall inside the ServiceAccount name. -/
structure AdmittedRef (c : Config) (ref : ServiceAccountRef) : Prop where
  ns : DnsLabel ref.ns
  name : DnsLabel ref.name
  cut : CutInName c.clusterName ref.ns

/-- The digests of the full robot names of two ServiceAccounts do not collide. -/
def DigestsDiffer (c : Config) (ref ref' : ServiceAccountRef) : Prop :=
  hashOf (fullRobotName c.clusterName ref.ns ref.name) =
      hashOf (fullRobotName c.clusterName ref'.ns ref'.name) →
    fullRobotName c.clusterName ref.ns ref.name = fullRobotName c.clusterName ref'.ns ref'.name

/-- Responses with the same username belong to tokens of the same subject. -/
theorem Served.subject_eq {c : Config} {h h' : Handler} {claims claims' : Claims}
    {ha ha' : HarborAccess} {secret secret' : Secret} {resp resp' : Response}
    (hw : Wired c h) (hw' : Wired c h')
    (hs : Served h claims ha secret resp) (hs' : Served h' claims' ha' secret' resp')
    (hadm : AdmittedRef c ha.spec.serviceAccountRef)
    (hadm' : AdmittedRef c ha'.spec.serviceAccountRef)
    (hdigest : DigestsDiffer c ha.spec.serviceAccountRef ha'.spec.serviceAccountRef)
    (husername : resp.username = resp'.username) : claims.subject = claims'.subject := by
  obtain ⟨name, hname, huser⟩ := hs.robotName hw
  obtain ⟨name', hname', huser'⟩ := hs'.robotName hw'
  rw [huser, huser'] at husername
  obtain rfl := List.append_cancel_left husername
  rw [robotName_eq_ok] at hname hname'
  obtain ⟨hns, hsa⟩ := robotNameUnchecked_injective c.clusterName _ _ _ _ name hadm.ns hadm.name
    hadm'.ns hadm'.name hadm.cut hadm'.cut (fun _ _ => hdigest) hname.1 hname'.1
  rw [← hs.matches_.subject, ← hs'.matches_.subject, harborAccessSubject, harborAccessSubject,
    hns, hsa]

/-! ## Objects of one bridge, for runs on given inputs -/

def sampleSecret (ha : HarborAccess) (username password : GoString) : Secret where
  ns := lit "bridge"
  name := RobotSecret.name ha.key.ns ha.key.name
  uid := lit "2"
  resourceVersion := 2
  labels := RobotSecret.labels (lit "prod") ha.key.ns ha.key.name
  annotations := ∅
  data := (Finmap.singleton RobotSecret.keyUsername username).insert RobotSecret.keyPassword password

/-- The handler of the bridge when the one HarborAccess is `ha`, asked with a token of its
ServiceAccount. -/
def sampleHandler (ha : HarborAccess) (username : GoString) : Handler where
  config := ⟨lit "bridge", true, lit "harbor", some (robotUsername sampleConfig)⟩
  allow := true
  validate _ := .ok ⟨harborAccessSubject ha, lit "https://issuer", [lit "harbor"]⟩
  harborAccesses := .ok [ha]
  getSecret _ _ := .ok (sampleSecret ha username (lit "secret"))
  now := 0

def sampleRequest : Request where
  method := lit "POST"
  path := credentialsPath
  authorization := lit "Bearer token"
  body := none

/-- A 200 response comes from the robot Secret of a HarborAccess that matches the token, and
its username is the robot of the token's ServiceAccount. Tokens of different subjects get
different usernames. -/
theorem credentials_isolated (c : Config) :
    (∀ (h : Handler) (r : Request) (resp : Response), Wired c h → serveHTTP h r = .ok resp →
      ∃ rawToken claims items ha secret,
        cutPrefix r.authorization (lit "Bearer ") = some rawToken ∧
        h.validate rawToken = .ok claims ∧
        h.harborAccesses = .ok items ∧ ha ∈ items ∧ Matches h.config claims ha ∧
        h.getSecret h.config.bridgeNamespace (RobotSecret.name ha.key.ns ha.key.name) =
          .ok secret ∧
        StampedFor ha secret ∧
        secret.data.get RobotSecret.keyPassword = resp.password ∧
        (∃ name, robotName c.clusterName ha.spec.serviceAccountRef.ns
            ha.spec.serviceAccountRef.name = .ok name ∧
          resp.username = c.harborRobotPrefix ++ name) ∧
        ∀ ns name, 58 ∉ ns → 58 ∉ name → claims.subject = serviceAccountSubject ns name →
          ∃ robot, robotName c.clusterName ns name = .ok robot ∧
            resp.username = c.harborRobotPrefix ++ robot) ∧
    (∀ (h h' : Handler) (r r' : Request) (resp resp' : Response) (rawToken rawToken' : GoString)
      (claims claims' : Claims) (items items' : List HarborAccess),
      Wired c h → Wired c h' →
      h.harborAccesses = .ok items → h'.harborAccesses = .ok items' →
      (∀ ha ∈ items, AdmittedRef c ha.spec.serviceAccountRef) →
      (∀ ha ∈ items', AdmittedRef c ha.spec.serviceAccountRef) →
      (∀ ha ∈ items, ∀ ha' ∈ items',
        DigestsDiffer c ha.spec.serviceAccountRef ha'.spec.serviceAccountRef) →
      cutPrefix r.authorization (lit "Bearer ") = some rawToken →
      cutPrefix r'.authorization (lit "Bearer ") = some rawToken' →
      h.validate rawToken = .ok claims → h'.validate rawToken' = .ok claims' →
      claims.subject ≠ claims'.subject →
      serveHTTP h r = .ok resp → serveHTTP h' r' = .ok resp' →
      resp.username ≠ resp'.username) := by
  constructor
  · intro h r resp hw hok
    obtain ⟨rawToken, claims, htoken, hclaims, ha, secret, hs⟩ := serveHTTP_ok h r resp hok
    obtain ⟨items, hitems, aud, hfound⟩ := hs.listed
    have hmem := (findHarborAccess_matched h.config items claims ha aud hfound).1
    have hname := hs.robotName hw
    refine ⟨rawToken, claims, items, ha, secret, htoken, hclaims, hitems, hmem, hs.matches_,
      hs.read, hs.stampedFor, ?_, hname, ?_⟩
    · have hcreds := hs.credentials
      unfold RobotSecret.credentials at hcreds
      dsimp only at hcreds
      split_ifs at hcreds
      exact congrArg Prod.snd (Option.some.inj hcreds)
    · intro ns name hns hname' hsubject
      have heq : serviceAccountSubject ns name = harborAccessSubject ha := by
        rw [← hsubject, hs.matches_.subject]
      obtain ⟨rfl, rfl⟩ := serviceAccountSubject_injective _ _ _ _ hns hname' heq
      exact hname
  · intro h h' r r' resp resp' rawToken rawToken' claims claims' items items' hw hw' hitems hitems'
      hadm hadm' hdigest htoken htoken' hclaims hclaims' hsubject hok hok' husername
    obtain ⟨_, claims₁, htoken₁, hclaims₁, ha, secret, hs⟩ := serveHTTP_ok h r resp hok
    obtain ⟨_, claims₂, htoken₂, hclaims₂, ha', secret', hs'⟩ := serveHTTP_ok h' r' resp' hok'
    obtain rfl := Option.some.inj (htoken.symm.trans htoken₁)
    obtain rfl := Option.some.inj (htoken'.symm.trans htoken₂)
    obtain rfl := Except.ok.inj (hclaims.symm.trans hclaims₁)
    obtain rfl := Except.ok.inj (hclaims'.symm.trans hclaims₂)
    have hlisted : ha ∈ items := by
      obtain ⟨items₁, hitems₁, aud, hfound⟩ := hs.listed
      obtain rfl := Except.ok.inj (hitems.symm.trans hitems₁)
      exact (findHarborAccess_matched _ _ _ _ _ hfound).1
    have hlisted' : ha' ∈ items' := by
      obtain ⟨items₂, hitems₂, aud, hfound⟩ := hs'.listed
      obtain rfl := Except.ok.inj (hitems'.symm.trans hitems₂)
      exact (findHarborAccess_matched _ _ _ _ _ hfound).1
    exact hsubject (hs.subject_eq hw hw' hs' (hadm ha hlisted) (hadm' ha' hlisted')
      (hdigest ha hlisted ha' hlisted') husername)

/-- The ServiceAccounts team/a and team/b are answered, with different usernames. -/
theorem credentials_isolated_two_accounts :
    let a := sampleAccess sampleKey ⟨lit "team", lit "a"⟩
    let b := sampleAccess sampleKey ⟨lit "team", lit "b"⟩
    ∃ resp resp',
      serveHTTP (sampleHandler a (lit "robot$bridge-prod.team.a")) sampleRequest = .ok resp ∧
      serveHTTP (sampleHandler b (lit "robot$bridge-prod.team.b")) sampleRequest = .ok resp' ∧
      resp.username ≠ resp'.username := by
  intro a b
  have ha : AdmittedRef sampleConfig a.spec.serviceAccountRef := ⟨by decide, by decide, by decide⟩
  have hb : AdmittedRef sampleConfig b.spec.serviceAccountRef := ⟨by decide, by decide, by decide⟩
  have hne : hashOf (fullRobotName (lit "prod") (lit "team") (lit "a")) ≠
      hashOf (fullRobotName (lit "prod") (lit "team") (lit "b")) := by decide +kernel
  have hdigest : DigestsDiffer sampleConfig a.spec.serviceAccountRef b.spec.serviceAccountRef :=
    fun heq => absurd heq hne
  have hok : serveHTTP (sampleHandler a (lit "robot$bridge-prod.team.a")) sampleRequest =
      .ok ⟨lit "robot$bridge-prod.team.a", lit "secret", 3600, cacheKeyTypeRegistry⟩ := by
    decide +kernel
  have hok' : serveHTTP (sampleHandler b (lit "robot$bridge-prod.team.b")) sampleRequest =
      .ok ⟨lit "robot$bridge-prod.team.b", lit "secret", 3600, cacheKeyTypeRegistry⟩ := by
    decide +kernel
  exact ⟨_, _, hok, hok', (credentials_isolated sampleConfig).2
    (sampleHandler a (lit "robot$bridge-prod.team.a"))
    (sampleHandler b (lit "robot$bridge-prod.team.b")) sampleRequest sampleRequest _ _ (lit "token")
    (lit "token") _ _ [a] [b] rfl rfl rfl rfl
    (List.forall_mem_singleton.mpr ha) (List.forall_mem_singleton.mpr hb)
    (List.forall_mem_singleton.mpr (List.forall_mem_singleton.mpr hdigest))
    (by decide) (by decide) rfl rfl (by decide) hok hok'⟩

/-- A ServiceAccount in a namespace that the CRD admits although no namespace is so long. -/
def longRef : ServiceAccountRef := ⟨List.replicate 220 97, List.replicate 20 98⟩

/-- The ServiceAccount whose natural robot name is the truncated one of `longRef`. -/
def collidingRef : ServiceAccountRef := ⟨List.replicate 211 97, lit "188a4f21b04f6934"⟩

def collidingUsername : GoString :=
  lit "robot$bridge-prod." ++ List.replicate 211 97 ++ lit ".188a4f21b04f6934"

/-- Without the bound on the namespace, tokens of different subjects can get the same
username: the truncated name of one ServiceAccount is the natural name of another. -/
theorem username_shared_with_long_namespace :
    ∃ (h h' : Handler) (r : Request) (resp resp' : Response) (rawToken : GoString)
      (claims claims' : Claims) (ha ha' : HarborAccess),
      Wired sampleConfig h ∧ Wired sampleConfig h' ∧
      h.harborAccesses = .ok [ha] ∧ h'.harborAccesses = .ok [ha'] ∧
      (∀ ref ∈ [ha.spec.serviceAccountRef, ha'.spec.serviceAccountRef],
        DnsLabel ref.ns ∧ ref.ns.length ≤ 253 ∧ DnsLabel ref.name ∧ ref.name.length ≤ 253) ∧
      DigestsDiffer sampleConfig ha.spec.serviceAccountRef ha'.spec.serviceAccountRef ∧
      cutPrefix r.authorization (lit "Bearer ") = some rawToken ∧
      h.validate rawToken = .ok claims ∧ h'.validate rawToken = .ok claims' ∧
      claims.subject ≠ claims'.subject ∧
      serveHTTP h r = .ok resp ∧ serveHTTP h' r = .ok resp' ∧ resp.username = resp'.username := by
  have hdigest : DigestsDiffer sampleConfig longRef collidingRef := by
    have hne : hashOf (fullRobotName (lit "prod") longRef.ns longRef.name) ≠
        hashOf (fullRobotName (lit "prod") collidingRef.ns collidingRef.name) := by decide +kernel
    exact fun heq => absurd heq hne
  refine ⟨sampleHandler (sampleAccess sampleKey longRef) collidingUsername,
    sampleHandler (sampleAccess sampleKey collidingRef) collidingUsername, sampleRequest,
    ⟨collidingUsername, lit "secret", 3600, cacheKeyTypeRegistry⟩,
    ⟨collidingUsername, lit "secret", 3600, cacheKeyTypeRegistry⟩, lit "token", _, _,
    sampleAccess sampleKey longRef, sampleAccess sampleKey collidingRef,
    rfl, rfl, rfl, rfl, ?_, hdigest, by decide, rfl, rfl, by decide +kernel, by decide +kernel,
    by decide +kernel, rfl⟩
  decide +kernel

end HarborBridge
