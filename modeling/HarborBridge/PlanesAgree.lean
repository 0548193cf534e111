import HarborBridge.CrowdPass
import HarborBridge.Siblings
import HarborBridge.PasswordTrust

/-! After a pass that ends in Ready, the data plane hands out the robot's name and the password
that Harbor accepts. -/
namespace HarborBridge

open GoStrings Interaction

/-- The data plane finds what a pass has left. -/
theorem Crowd.Served.provided {c : Config} {w : Site} {ha ha' : HarborAccess} {name : GoString}
    {r : StoredRobot}
    (h : Crowd.Served c ha name w ha' r) (hmem : ha' ∈ w.accesses) (hdeleting : ha.deleting = false)
    (hadmitted : admission c ha = .ok name) (heditable : r.editable = true) (t : Int) :
    Provided c { w with clock := t } ha' name r.password := by
  refine ⟨hmem, h.object.deleting.trans hdeleting,
    (Site.admission_congr h.object.key h.object.spec).trans hadmitted, ?_⟩
  rw [h.object.key, ← h.named heditable]
  exact h.secret

namespace Site

variable {c : Config} {w : Site} {ha : HarborAccess} {name : GoString}

/-- While nobody else changes passwords or Secrets, the password that a pass keeps is accepted in
every state that the passes and sweeps of the bridge reach. -/
theorem keptPasswordAccepted_of_safe {σ : Custody} (hsafe : Custody.Safe c ha.key σ)
    (hharbor : w.harbor = σ.harbor) (hclock : σ.clock ≤ w.clock)
    (hsecret : w.secret c.ns (RobotSecret.name ha.key.ns ha.key.name) = σ.vault.secret) :
    KeptPasswordAccepted c ha w := by
  intro s r robot now hs hv hnow hreason
  rw [hharbor] at hv
  exact hsafe.accepts hv.1 hv.2 (hclock.trans hnow) (hsecret.symm.trans hs) hreason

/-- The only HarborAccess for a ServiceAccount and the audience is the one that is selected. -/
theorem findHarborAccess_only (hc : c.Loaded) {password : GoString}
    (hp : Provided c w ha name password)
    (honly : ∀ other ∈ w.accesses, harborAccessSubject other = harborAccessSubject ha →
      other.spec.trustPolicy.audience = ha.spec.trustPolicy.audience → other = ha)
    (validate : GoString → Except ValidateErr Claims) {claims : Claims} (ht : TokenFor c ha claims) :
    ∃ aud, (findHarborAccess (w.handler c validate).config w.accesses claims).matched =
      some (ha, aud) := by
  obtain ⟨other, aud, hfound⟩ :=
    findHarborAccess_some _ _ _ ha hp.listed (hp.candidate hc ht validate)
  obtain ⟨hmem, -, heligible, -⟩ := findHarborAccess_matched _ _ _ other aud hfound
  simp only [eligible, decide_eq_true_eq] at heligible
  obtain ⟨-, -, haudience, hsubject, -⟩ := heligible
  have haudience' := (admission_ok hp.accepted).2.1
  obtain rfl := honly other hmem (hsubject.trans ht.subject) (haudience.trans haudience'.symm)
  exact ⟨aud, hfound⟩

/-- After a pass that ends in Ready every token of the ServiceAccount is answered with the name of
the robot and the password that Harbor accepts for it. Others act while the pass runs, and calls
fail; the robots that the pass was shown stay as they are, and so does the Secret once the pass has
read or written it for the last time. -/
theorem ready_access_is_served (c : Config) (hc : c.Loaded) (w : Site) (ha : HarborAccess)
    (name : GoString) (hversion : ha.resourceVersion ≤ w.revision) (hversioned : w.Versioned)
    (hcopy : ∀ l, w.access ha.key.ns ha.key.name = some l →
      l.resourceVersion = ha.resourceVersion → l = ha)
    (hdeleting : ha.deleting = false) (hadmitted : admission c ha = .ok name)
    (hprefixed : w.harbor.robotNamePrefix = c.harborRobotPrefix) :
    (reconcileNormal c ha).Wp (Crowd.setting c ha name) (fun res w' => w'.disturbed = false →
      ∀ ha', EndsReady ha.key res w'.site ha' →
      (∀ other ∈ w'.site.accesses, harborAccessSubject other = harborAccessSubject ha →
        other.spec.trustPolicy.audience = ha.spec.trustPolicy.audience → other = ha') →
      ∃ r ref, r ∈ w'.site.harbor.robots ∧ r.disable = false ∧ ha'.status.robot = some ref ∧
        ref.id = r.id ∧ ref.name = w'.site.harbor.wireName r ∧ (r.editable = true →
        robotUsername c ha.spec.serviceAccountRef.ns ha.spec.serviceAccountRef.name =
          .ok (w'.site.harbor.wireName r) ∧
        ∀ t validate request claims, Presents validate request claims → TokenFor c ha claims →
          ∃ expires, serveHTTP (({ w'.site with clock := t } : Site).handler c validate) request =
            .ok ⟨w'.site.harbor.wireName r, r.password, expires, cacheKeyTypeRegistry⟩))
      ⟨w, [], false⟩ := by
  refine Prog.wp_mono (fun res w' h hd ha' hready honly => ?_) _ _
    (Crowd.wp_reconcileNormal ⟨hprefixed, hversioned, hversion, hcopy⟩ hadmitted)
  obtain ⟨r, hserved⟩ := h hd ha' hready
  obtain ⟨ref, href, hid, hname⟩ := hserved.recorded
  refine ⟨r, ref, hserved.mem, hserved.enabled, href, hid, hname, fun heditable => ?_⟩
  rw [hserved.named heditable]
  have hspec : harborAccessSubject ha' = harborAccessSubject ha := by
    unfold harborAccessSubject
    rw [hserved.object.spec]
  refine ⟨?_, fun t validate request claims hpresents htoken => ?_⟩
  · rw [robotUsername, (admission_ok hadmitted).2.2.2]
    rfl
  · have hprovided := hserved.provided (List.mem_of_find?_eq_some hready.stored) hdeleting hadmitted
      heditable t
    have htoken' : TokenFor c ha' claims := ⟨htoken.subject.trans hspec.symm, htoken.issuer, htoken.audience⟩
    obtain ⟨aud, hfound⟩ := findHarborAccess_only hc hprovided (fun other hmem hsubject haudience =>
      honly other hmem (hsubject.trans hspec) (haudience.trans (by rw [hserved.object.spec]))) validate
      htoken'
    rw [serveHTTP_presents (h := ({ w'.site with clock := t } : Site).handler c validate) rfl rfl hpresents]
    exact hprovided.serveClaims hfound

/-! ## A request after a pass -/

theorem sampleRequest_presents : Presents (fun _ => .ok siblingClaims) sampleRequest siblingClaims :=
  ⟨rfl, rfl, ⟨116, lit "oken", by decide, rfl⟩, by decide⟩

theorem siblingClaims_token : TokenFor sampleConfig newAccess siblingClaims :=
  ⟨by decide, by decide, by decide⟩

/-- Someone else, another replica perhaps, creates the robot just before the pass does. No Secret is
there when the pass reads the clock. -/
def rivalServe (w : Crowd) (call : Call) : Answer call × Crowd :=
  let v : Crowd := match call with
    | .harbor (.createRobot body) =>
      { w with site := { w.site with harbor := (w.site.harbor.serve (.createRobot body)).2 } }
    | .now => { w with site := { w.site with secrets := [] }, disturbed := true }
    | _ => w
  ((v.site.serve call).1, Crowd.told sampleConfig (lit "bridge-prod.team.app")
    { v with site := (v.site.serve call).2 } call (v.site.serve call).1)

theorem others_refl (c : Config) (key : ObjectKey) (w : Crowd) : Crowd.Others c key w w :=
  ⟨rfl, rfl, fun _ hr _ => hr, le_rfl, id, fun _ hl => .inl hl, fun _ hs => .inl hs, fun hd => ⟨hd, rfl⟩⟩

theorem rivalServe_sem (w : Crowd) (call : Call) :
    (Crowd.setting sampleConfig newAccess (lit "bridge-prod.team.app")).sem w call (rivalServe w call).1
      (rivalServe w call).2 := by
  refine ⟨_, _, ?_, serve_faulty _ call, ?_, rfl⟩
  · split
    · next body =>
      have he := (w.site.harbor.serve_faulty (.createRobot body)).effect
      exact ⟨rfl, he.robotNamePrefix, fun r hr _ => he.keeps hr trivial, le_rfl, id, fun _ hl => .inl hl,
        fun _ hs => .inl hs, fun hd => ⟨hd, rfl⟩⟩
    · exact ⟨rfl, rfl, fun _ hr _ => hr, le_rfl, fun _ => nofun, fun _ hl => .inl hl, nofun, nofun⟩
    · exact others_refl _ _ w
  · rintro rfl s r robot now hs
    cases hs

/-- The pass over `newAccess` that finds the name taken when it creates the robot. -/
def rivalPass : Except PassErr Result × Crowd :=
  (reconcileNormal sampleConfig newAccess).exec rivalServe ⟨newSite emptyHarbor newAccess, [], false⟩

/-- The robot that the pass has adopted after Harbor answered that the name is taken. Its password
is the second one that Harbor has issued. -/
theorem ready_access_is_served_adopted : ∃ ha r ref expires,
    EndsReady newAccess.key rivalPass.1 rivalPass.2.site ha ∧ rivalPass.2.disturbed = false ∧
    r ∈ rivalPass.2.site.harbor.robots ∧ r.disable = false ∧ ha.status.robot = some ref ∧
    ref.id = r.id ∧ rivalPass.2.site.harbor.issued.length = 2 ∧
    serveHTTP (rivalPass.2.site.handler sampleConfig fun _ => .ok siblingClaims) sampleRequest =
      .ok ⟨rivalPass.2.site.harbor.wireName r, r.password, expires, cacheKeyTypeRegistry⟩ := by
  obtain ⟨ha, hready⟩ := endsReady_of_eval newAccess.key (rivalPass.1, rivalPass.2.site)
    (show rivalPass.1 = .ok ⟨3596 * Rfc3339.second⟩ by decide +kernel) (by decide +kernel)
  have honly : ∀ other ∈ rivalPass.2.site.accesses, other = ha := by
    have hone : rivalPass.2.site.accesses.map some =
        [rivalPass.2.site.access newAccess.key.ns newAccess.key.name] := by decide +kernel
    intro other hmem
    have hother := List.mem_map_of_mem (f := some) hmem
    rw [hone, hready.stored] at hother
    exact Option.some.inj (List.mem_singleton.mp hother)
  have heditable : ∀ r ∈ rivalPass.2.site.harbor.robots, r.editable = true := by decide +kernel
  have hundisturbed : rivalPass.2.disturbed = false := by decide +kernel
  have hcopy : ∀ l, (newSite emptyHarbor newAccess).access newAccess.key.ns newAccess.key.name = some l →
      l.resourceVersion = newAccess.resourceVersion → l = newAccess :=
    fun l hl _ => (Option.some.inj hl).symm
  have hwp := Prog.wp_exec rivalServe rivalServe_sem _ _ _ (ready_access_is_served sampleConfig
    ⟨by decide, by decide⟩ (newSite emptyHarbor newAccess) newAccess (lit "bridge-prod.team.app")
    (by decide) nofun hcopy rfl rfl rfl)
  obtain ⟨r, ref, hmem, henabled, href, hid, -, hserved⟩ :=
    hwp hundisturbed ha hready fun other hmem _ _ => honly other hmem
  obtain ⟨-, hanswer⟩ := hserved (heditable r hmem)
  obtain ⟨expires, hreply⟩ := hanswer rivalPass.2.site.clock _ sampleRequest siblingClaims
    sampleRequest_presents siblingClaims_token
  exact ⟨ha, r, ref, expires, hready, hundisturbed, hmem, henabled, href, hid, by decide +kernel, hreply⟩

/-- The password of the robot was changed in Harbor, and the Secret has the old one. -/
def changedPass : Except PassErr Result × Site := keepingPass (lit "q") (lit "1970-01-02T00:00:00Z")

/-- Someone does something just before the pass writes the status. -/
def meddledServe (meddle : Site → Site) (w : Site) (call : Call) : Answer call × Site :=
  let v := match call with
    | .updateStatus _ => meddle w
    | _ => w
  v.serve call

def meddledPass (meddle : Site → Site) : Except PassErr Result × Site :=
  (reconcileNormal sampleConfig newAccess).exec (meddledServe meddle) (newSite emptyHarbor newAccess)

/-- The Secret that the pass has written is deleted. -/
def emptiedPass : Except PassErr Result × Site := meddledPass fun w => { w with secrets := [], revision := w.revision + 1 }

/-- The robot that the pass has created is disabled. -/
def disabledPass : Except PassErr Result × Site :=
  meddledPass fun w => { w with harbor := w.harbor.update 1 ⟨1, lit "robot$bridge-prod.team.app", [], -1, true, []⟩ }

/-- A pass does not find out that the password of the robot was changed in Harbor before it, nor that
someone deletes the Secret or disables the robot after it has written the one and created the other.
It ends in Ready, and tokens are answered with the old password, not at all, or with the password of
a disabled robot. -/
theorem credentials_fail_after_ready :
    sampleConfig.Loaded ∧ admission sampleConfig newAccess = .ok (lit "bridge-prod.team.app") ∧
    ((∃ ha, EndsReady newAccess.key changedPass.1 changedPass.2 ha) ∧
      changedPass.2.harbor.robotNamePrefix = sampleConfig.harborRobotPrefix ∧
      changedPass.2.accesses.length = 1 ∧
      changedPass.2.harbor.robots.map (fun r => (r.editable, r.password)) = [(true, lit "q")] ∧
      serveHTTP (changedPass.2.handler sampleConfig fun _ => .ok siblingClaims) sampleRequest =
        .ok ⟨lit "robot$bridge-prod.team.app", lit "p", 3600, cacheKeyTypeRegistry⟩) ∧
    ((∃ ha, EndsReady newAccess.key emptiedPass.1 emptiedPass.2 ha) ∧
      emptiedPass.2.harbor.robotNamePrefix = sampleConfig.harborRobotPrefix ∧
      emptiedPass.2.accesses.length = 1 ∧
      emptiedPass.2.harbor.robots.map (fun r => (r.editable, r.disable)) = [(true, false)] ∧
      serveHTTP (emptiedPass.2.handler sampleConfig fun _ => .ok siblingClaims) sampleRequest =
        .error 503 (lit "credentials not yet available; retry")) ∧
    (∃ ha, EndsReady newAccess.key disabledPass.1 disabledPass.2 ha) ∧
      disabledPass.2.harbor.robotNamePrefix = sampleConfig.harborRobotPrefix ∧
      disabledPass.2.accesses.length = 1 ∧
      disabledPass.2.harbor.robots.map (fun r => (r.editable, r.disable)) = [(true, true)] ∧
      ∃ password, serveHTTP (disabledPass.2.handler sampleConfig fun _ => .ok siblingClaims)
        sampleRequest = .ok ⟨lit "robot$bridge-prod.team.app", password, 3600, cacheKeyTypeRegistry⟩ := by
  refine ⟨⟨by decide, by decide⟩, by decide, ⟨endsReady_of_eval _ changedPass
      (show changedPass.1 = .ok ⟨3596 * Rfc3339.second⟩ by decide +kernel) (by decide +kernel), ?_, ?_, ?_, ?_⟩,
    ⟨endsReady_of_eval _ emptiedPass
      (show emptiedPass.1 = .ok ⟨3596 * Rfc3339.second⟩ by decide +kernel) (by decide +kernel), ?_, ?_, ?_, ?_⟩,
    endsReady_of_eval _ disabledPass
      (show disabledPass.1 = .ok ⟨3596 * Rfc3339.second⟩ by decide +kernel) (by decide +kernel), ?_, ?_, ?_,
    lit "p", ?_⟩
  all_goals decide +kernel

end Site

end HarborBridge
