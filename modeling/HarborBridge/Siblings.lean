import HarborBridge.Selection
import HarborBridge.Site

/-! Several HarborAccess objects for one ServiceAccount: which of them the data plane serves a
token from, and which of them has the robot. -/
namespace HarborBridge

open GoStrings Interaction

/-! ## The owner of the robot -/

/-- LoadFromEnv requires an issuer and an audience. -/
def Config.Loaded (c : Config) : Prop := c.oidcIssuer ≠ [] ∧ c.audience ≠ []

/-- A request with a token that the validator accepts with these claims. -/
structure Presents (validate : GoString → Except ValidateErr Claims) (r : Request)
    (claims : Claims) : Prop where
  method : r.method = lit "POST"
  path : r.path = credentialsPath
  token : ∃ b rawToken, cutPrefix r.authorization (lit "Bearer ") = some (b :: rawToken) ∧
    validate (b :: rawToken) = .ok claims
  body : r.body ≠ some none

theorem serveHTTP_presents {h : Handler} {r : Request} {claims : Claims} (hallow : h.allow = true)
    (hlocal : h.config.forceLocalValidation = true) (hr : Presents h.validate r claims) :
    serveHTTP h r = serveClaims h claims := by
  obtain ⟨b, rawToken, htoken, hvalid⟩ := hr.token
  unfold serveHTTP
  rw [if_neg (not_not.mpr hr.method), if_neg (not_not.mpr hr.path), hallow, hlocal,
    if_neg (by decide), if_neg (by decide), htoken]
  dsimp only
  rw [if_neg hr.body, hvalid]

/-- The tokens of the ServiceAccount of a HarborAccess that the bridge serves. -/
structure TokenFor (c : Config) (ha : HarborAccess) (claims : Claims) : Prop where
  subject : claims.subject = harborAccessSubject ha
  issuer : claims.issuer = c.oidcIssuer
  audience : c.audience ∈ claims.audience

/-- Harbor holds the enabled robot of a ServiceAccount, its description names this
HarborAccess, which the reconciler accepts, and the Secret of the HarborAccess has the
robot's credentials. -/
structure Owns (c : Config) (w : Site) (owner : HarborAccess) (r : StoredRobot) (robot : Robot) :
    Prop where
  listed : owner ∈ w.accesses
  current : owner.deleting = false
  accepted : admission c owner = .ok robot.name
  stored : r ∈ w.harbor.robots
  enabled : r.disable = false
  view : fromHarborRobot c.harborRobotPrefix (w.harbor.report r) = some robot
  wire : robot.wireName = c.harborRobotPrefix ++ robot.name
  cluster : robotBelongsToCluster robot.description c.clusterName = true
  names : parseRobotDescription robot.description = some (owner.key.ns, owner.key.name)
  secret : ∃ secret, w.secret c.ns (RobotSecret.name owner.key.ns owner.key.name) = some secret ∧
    RobotSecret.isManaged secret = true ∧
    RobotSecret.stampedForOther secret owner.key.ns owner.key.name = false ∧
    RobotSecret.credentials secret = some (robot.wireName, r.password)

/-- The Secret of a HarborAccess that the reconciler accepts holds a password for the name of its
robot. -/
structure Provided (c : Config) (w : Site) (owner : HarborAccess) (name password : GoString) : Prop where
  listed : owner ∈ w.accesses
  current : owner.deleting = false
  accepted : admission c owner = .ok name
  secret : ∃ secret, w.secret c.ns (RobotSecret.name owner.key.ns owner.key.name) = some secret ∧
    RobotSecret.isManaged secret = true ∧
    RobotSecret.stampedForOther secret owner.key.ns owner.key.name = false ∧
    RobotSecret.credentials secret = some (c.harborRobotPrefix ++ name, password)

theorem Owns.provided {c : Config} {w : Site} {owner : HarborAccess} {r : StoredRobot} {robot : Robot}
    (ho : Owns c w owner r robot) : Provided c w owner robot.name r.password :=
  ⟨ho.listed, ho.current, ho.accepted, ho.wire ▸ ho.secret⟩

theorem Provided.candidate {c : Config} (hc : c.Loaded) {w : Site} {owner : HarborAccess}
    {name password : GoString} (hp : Provided c w owner name password) {claims : Claims}
    (ht : TokenFor c owner claims) (validate : GoString → Except ValidateErr Claims) :
    Candidate (w.handler c validate).config claims owner := by
  obtain ⟨hissuer, haudience, -, -⟩ := admission_ok hp.accepted
  refine ⟨hp.current, ?_, haudience ▸ ht.audience⟩
  simp only [eligible, decide_eq_true_eq]
  refine ⟨haudience ▸ hc.2, hissuer ▸ hc.1, haudience, ht.subject.symm, ?_⟩
  rw [hissuer, ht.issuer]

/-- A token that is matched with the HarborAccess gets the credentials. -/
theorem Provided.serveClaims {c : Config} {w : Site} {owner : HarborAccess} {name password : GoString}
    (hp : Provided c w owner name password) {claims : Claims} {aud : GoString}
    {validate : GoString → Except ValidateErr Claims}
    (hfound : (findHarborAccess (w.handler c validate).config w.accesses claims).matched =
      some (owner, aud)) :
    ∃ expires, serveClaims (w.handler c validate) claims =
      .ok ⟨c.harborRobotPrefix ++ name, password, expires, cacheKeyTypeRegistry⟩ := by
  obtain ⟨-, -, httl, hname⟩ := admission_ok hp.accepted
  obtain ⟨secret, hsecret, hmanaged, hstamped, hcreds⟩ := hp.secret
  have hread : readRobotSecret (w.handler c validate) owner =
      .ok ⟨c.harborRobotPrefix ++ name, password, RobotSecret.rotationNotBefore secret⟩ := by
    have hget : (w.handler c validate).getSecret (w.handler c validate).config.bridgeNamespace
        (RobotSecret.name owner.key.ns owner.key.name) = .ok secret := by
      change Kube.found (w.secret c.ns _) = _
      rw [hsecret]
      rfl
    rw [readRobotSecret, hget]
    dsimp only
    rw [if_neg (by simp [hmanaged]), if_neg (by simp [hstamped]), hcreds]
  have husername : expectedUsername (w.handler c validate).config owner =
      some (c.harborRobotPrefix ++ name) := by
    change (robotUsername c owner.spec.serviceAccountRef.ns
      owner.spec.serviceAccountRef.name).toOption = _
    rw [robotUsername, hname]
    rfl
  have hlist : (w.handler c validate).harborAccesses = .ok w.accesses := rfl
  unfold HarborBridge.serveClaims
  rw [hlist]
  dsimp only
  split
  · next hf => cases hfound.symm.trans (congrArg Found.matched hf)
  · next hf => cases hfound.symm.trans (congrArg Found.matched hf)
  · next matched aud' deleting hf =>
    obtain ⟨rfl, rfl⟩ := Prod.mk.inj (Option.some.inj (hfound.symm.trans (congrArg Found.matched hf)))
    rw [if_neg (by simp [httl]), hread]
    dsimp only
    rw [husername]
    dsimp only
    rw [if_neg (not_not.mpr rfl)]
    exact ⟨_, rfl⟩

/-- The data plane selects the HarborAccess that owns the robot exactly if none of the others
that match the token comes before it by namespace and name. Then the token is answered with
the robot's credentials. -/
theorem owner_selected_iff_least (c : Config) (hc : c.Loaded) (w : Site)
    (hkeys : ∀ a ∈ w.accesses, ∀ b ∈ w.accesses, a.key.ns = b.key.ns → a.key.name = b.key.name →
      a = b)
    (owner : HarborAccess) (r : StoredRobot) (robot : Robot) (ho : Owns c w owner r robot)
    (validate : GoString → Except ValidateErr Claims) (request : Request) (claims : Claims)
    (hr : Presents validate request claims) (ht : TokenFor c owner claims) :
    ((∃ aud, (findHarborAccess (w.handler c validate).config w.accesses claims).matched =
        some (owner, aud)) ↔
      ∀ ha ∈ w.accesses, Candidate (w.handler c validate).config claims ha → keyLE owner ha) ∧
    ((∀ ha ∈ w.accesses, Candidate (w.handler c validate).config claims ha → keyLE owner ha) →
      ∃ expires, serveHTTP (w.handler c validate) request =
        .ok ⟨robot.wireName, r.password, expires, cacheKeyTypeRegistry⟩) := by
  have hcandidate := ho.provided.candidate hc ht validate
  have hselected : (∀ ha ∈ w.accesses, Candidate (w.handler c validate).config claims ha →
      keyLE owner ha) → ∃ aud, (findHarborAccess (w.handler c validate).config w.accesses
        claims).matched = some (owner, aud) := by
    intro hleast
    obtain ⟨ha, aud, hfound⟩ := findHarborAccess_some _ _ _ owner ho.listed hcandidate
    obtain ⟨hmem, hcurrent, he, haud⟩ := findHarborAccess_matched _ _ _ ha aud hfound
    have hle := findHarborAccess_least _ _ _ ha aud hfound owner ho.listed hcandidate
    have hge := hleast ha hmem ⟨hcurrent, he, (matchedAudience_isSome he).mp ⟨aud, haud⟩⟩
    obtain ⟨hns, hname⟩ := keyLE_antisymm hge hle
    rw [hkeys owner ho.listed ha hmem hns hname]
    exact ⟨aud, hfound⟩
  refine ⟨⟨?_, hselected⟩, fun hleast => ?_⟩
  · rintro ⟨aud, hfound⟩
    exact findHarborAccess_least _ _ _ owner aud hfound
  · obtain ⟨aud, hfound⟩ := hselected hleast
    rw [serveHTTP_presents (h := w.handler c validate) rfl rfl hr, ho.wire]
    exact ho.provided.serveClaims hfound

/-! ## Two HarborAccess objects for one ServiceAccount -/

def firstKey : ObjectKey :=
  { sampleKey with name := lit "b", name_valid := by decide, name_length := by decide }

def furtherKey : ObjectKey :=
  { sampleKey with name := lit "a", name_valid := by decide, name_length := by decide }

def siblingSite : Site where
  harbor := emptyHarbor
  accesses := [sampleAccess firstKey ⟨lit "team", lit "app"⟩,
    sampleAccess furtherKey ⟨lit "team", lit "app"⟩]
  secrets := []
  revision := 1
  clock := 0

def reconciled (key : ObjectKey) (w : Site) : Site := ((reconcile sampleConfig key).exec Site.serve w).2

def siblingClaims : Claims :=
  ⟨lit "system:serviceaccount:team:app", lit "https://issuer", [lit "harbor"]⟩

/-- The first HarborAccess got the robot, and a further one, which comes before it by name,
takes it out of service: the token is matched with the further one, which has no Secret. -/
theorem further_access_takes_out_of_service :
    ∃ owner r robot, owner.key = firstKey ∧
      Owns sampleConfig (reconciled furtherKey (reconciled firstKey siblingSite)) owner r robot ∧
      Presents (fun _ => .ok siblingClaims) sampleRequest siblingClaims ∧
      TokenFor sampleConfig owner siblingClaims ∧
      serveHTTP ((reconciled furtherKey (reconciled firstKey siblingSite)).handler sampleConfig
        fun _ => .ok siblingClaims) sampleRequest =
          .error 503 (lit "credentials not yet available; retry") := by
  refine ⟨_, _, _, ?_, ⟨List.mem_cons_self, rfl, ?_, List.mem_cons_self, rfl, rfl, ?_, ?_, ?_,
    ⟨_, rfl, ?_, ?_, ?_⟩⟩, ⟨rfl, rfl, ⟨116, lit "oken", by decide, rfl⟩, by decide⟩,
    ⟨?_, rfl, List.mem_cons_self⟩, ?_⟩
  all_goals decide +kernel

/-- Reconciled in the other order, the robot belongs to the one that comes first by name, and
the further HarborAccess changes nothing. -/
theorem owner_selected_iff_least_sibling :
    ∃ owner r robot expires, owner.key = furtherKey ∧
      Owns sampleConfig (reconciled firstKey (reconciled furtherKey siblingSite)) owner r robot ∧
      serveHTTP ((reconciled firstKey (reconciled furtherKey siblingSite)).handler sampleConfig
        fun _ => .ok siblingClaims) sampleRequest =
          .ok ⟨robot.wireName, r.password, expires, cacheKeyTypeRegistry⟩ := by
  have howner : ∃ owner r robot, owner.key = furtherKey ∧
      Owns sampleConfig (reconciled firstKey (reconciled furtherKey siblingSite)) owner r robot ∧
      TokenFor sampleConfig owner siblingClaims ∧
      ∀ ha ∈ (reconciled firstKey (reconciled furtherKey siblingSite)).accesses, keyLE owner ha := by
    refine ⟨_, _, _, ?_, ⟨List.mem_cons_of_mem _ List.mem_cons_self, rfl, ?_, List.mem_cons_self,
      rfl, rfl, ?_, ?_, ?_, ⟨_, rfl, ?_, ?_, ?_⟩⟩, ⟨?_, rfl, List.mem_cons_self⟩, ?_⟩
    all_goals decide +kernel
  obtain ⟨owner, r, robot, hkey, howns, htoken, hleast⟩ := howner
  have hpresents : Presents (fun _ => .ok siblingClaims) sampleRequest siblingClaims :=
    ⟨rfl, rfl, ⟨116, lit "oken", by decide, rfl⟩, by decide⟩
  obtain ⟨expires, hserve⟩ := (owner_selected_iff_least sampleConfig ⟨by decide, by decide⟩ _
    (by decide +kernel) owner r robot howns _ sampleRequest siblingClaims hpresents htoken).2
    fun ha hmem _ => hleast ha hmem
  exact ⟨owner, r, robot, expires, hkey, howns, hserve⟩

end HarborBridge
