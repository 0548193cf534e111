import HarborBridge.Converge

/-! Ready means that Harbor and the Secret are as the spec asks for, and then the next pass
writes nothing. -/
namespace HarborBridge

open GoStrings Interaction

/-- The Ready condition is true. -/
def HarborAccess.IsReady (ha : HarborAccess) : Prop :=
  ∃ cond ∈ ha.status.conditions, cond.type = .ready ∧ cond.status = true

instance (ha : HarborAccess) : Decidable ha.IsReady :=
  inferInstanceAs (Decidable (∃ cond ∈ ha.status.conditions, _))

/-- A call that changes neither Harbor nor a Secret. -/
def Call.SparesCredentials : Call → Prop
  | .harbor (.listRobot _ _) => True
  | .harbor _ => False
  | .createSecret _ => False
  | .updateSecret _ => False
  | .deleteSecret _ => False
  | _ => True

theorem mem_setStatusCondition {conditions : List Condition} {new cond : Condition}
    (h : cond ∈ setStatusCondition conditions new) (htype : cond.type = new.type) : cond = new := by
  unfold setStatusCondition at h
  split_ifs at h with hany
  · obtain ⟨d, -, rfl⟩ := List.mem_map.mp h
    split_ifs with hd
    · rfl
    · rw [if_neg hd] at htype
      exact absurd htype hd
  · rcases List.mem_append.mp h with hmem | hnew
    · exact absurd (List.any_eq_true.mpr ⟨cond, hmem, decide_eq_true htype⟩) hany
    · exact List.mem_singleton.mp hnew

theorem not_isReady_withCondition (ha : HarborAccess) (reason : Reason) :
    ¬ (withCondition ha .ready false reason).IsReady := by
  rintro ⟨cond, hmem, htype, hstatus⟩
  rw [mem_setStatusCondition hmem htype] at hstatus
  cases hstatus

namespace Site

variable {c : Config} {w : Site} {ha : HarborAccess} {name : GoString}

/-! ## Writes of the HarborAccess -/

theorem access_putAccess {key : ObjectKey} {new : Option HarborAccess} {ha' : HarborAccess}
    (h : (w.putAccess key new).access key.ns key.name = some ha') : new = some ha' := by
  have hkey := List.find?_some h
  have hkey := of_decide_eq_true hkey
  rcases mem_putAccess (List.mem_of_find?_eq_some h) with hnew | ⟨-, hne⟩
  · exact hnew
  · exact absurd ((ObjectKey.ext_iff' _ _).mpr hkey) hne

theorem writeAccess_ok {copy new : HarborAccess} {change : HarborAccess → HarborAccess} {w' : Site}
    (h : w.writeAccess copy change = (.ok new, w')) :
    ∃ l, w.access copy.key.ns copy.key.name = some l ∧ l.resourceVersion = copy.resourceVersion ∧
      w'.harbor = w.harbor ∧ w'.secrets = w.secrets ∧ w'.clock = w.clock ∧
      w'.revision = w.revision + 1 ∧
      new = { change l with key := l.key, resourceVersion := w.revision + 1 } ∧
      ∀ ha', w'.access copy.key.ns copy.key.name = some ha' → ha' = new := by
  unfold writeAccess at h
  cases hl : w.access copy.key.ns copy.key.name with
  | none =>
    rw [hl] at h
    cases h
  | some l =>
    rw [hl] at h
    dsimp only at h
    by_cases hversion : l.resourceVersion = copy.resourceVersion
    · rw [if_pos hversion] at h
      obtain ⟨hnew, rfl⟩ := Prod.mk.inj h
      have hnew := Except.ok.inj hnew
      have hkey := List.find?_some hl
      have hkey := of_decide_eq_true hkey
      refine ⟨l, rfl, hversion, rfl, rfl, rfl, rfl, hnew.symm, fun ha' hha' => ?_⟩
      rw [← hkey.1, ← hkey.2] at hha'
      have hput := access_putAccess hha'
      split_ifs at hput
      exact (Option.some.inj hput).symm.trans hnew
    · rw [if_neg hversion] at h
      cases h

theorem wp_updateStatus {may : Call → Prop} (copy : HarborAccess) (hmay : may (.updateStatus copy)) :
    (Kube.updateStatus copy).Wp (quiet may) (fun res w' => w'.harbor = w.harbor ∧
      w'.secrets = w.secrets ∧ ∀ new, res = .ok new →
        ∃ l, w.access copy.key.ns copy.key.name = some l ∧ w'.clock = w.clock ∧
          ∀ ha', w'.access copy.key.ns copy.key.name = some ha' →
            ha' = { l with status := copy.status, resourceVersion := w.revision + 1 }) w := by
  refine wp_kube nofun nofun hmay ?_
  cases hserve : w.writeAccess copy fun l => { l with status := copy.status } with
  | mk res w' =>
    have hserve' : w.serve (.updateStatus copy) = (res, w') := hserve
    rw [hserve']
    cases res with
    | error e =>
      have hsame : w' = w := by
        unfold writeAccess at hserve
        split at hserve
        · exact (Prod.mk.inj hserve).2.symm
        · split at hserve
          · cases (Prod.mk.inj hserve).1
          · exact (Prod.mk.inj hserve).2.symm
      rw [hsame]
      exact ⟨rfl, rfl, nofun⟩
    | ok new =>
      obtain ⟨l, hl, -, hharbor, hsecrets, hclock, -, rfl, hafter⟩ := writeAccess_ok hserve
      exact ⟨hharbor, hsecrets, fun _ _ => ⟨l, hl, hclock, hafter⟩⟩

/-! ## What a pass that ends in Ready leaves -/

structure AtRest (c : Config) (ha : HarborAccess) (name : GoString) (w : Site) (r : StoredRobot)
    (robot : Robot) (s : Secret) (password : GoString) (promise : Int) : Prop where
  converged : Converged c ha name w r robot s password promise
  promised : RobotSecret.rotationNotBefore s = some promise
  finalizer : c.finalizer ∈ ha.finalizers
  observed : ha.status.observedGeneration = ha.generation
  recorded : ∃ ref, ha.status.robot = some ref ∧ ref.id = robot.id

theorem lookup_of_union_self {m m' : StringMap} (h : m ∪ m' = m') {k v : GoString}
    (hk : m.lookup k = some v) : m'.lookup k = some v := by
  rw [← h, Finmap.lookup_union_left (Finmap.mem_of_lookup_eq_some hk), hk]

/-- The labels name this cluster and this HarborAccess. -/
theorem stamped_of_labels {s : Secret} {key : ObjectKey}
    (h : RobotSecret.labels c.clusterName key.ns key.name ∪ s.labels = s.labels) :
    RobotSecret.isManaged s = true ∧ s.labels.get RobotSecret.labelCluster = c.clusterName ∧
    s.labels.get RobotSecret.labelHarborAccessNamespace = key.ns ∧
    s.labels.get RobotSecret.labelHarborAccessName = key.name := by
  obtain ⟨hmanaged, hcluster, hns, hname⟩ := RobotSecret.lookup_labels c.clusterName key.ns key.name
  rw [← h]
  refine ⟨?_, RobotSecret.get_union_of_lookup _ _ _ _ hcluster,
    RobotSecret.get_union_of_lookup _ _ _ _ hns, RobotSecret.get_union_of_lookup _ _ _ _ hname⟩
  rw [RobotSecret.isManaged, ← h, RobotSecret.get_union_of_lookup _ _ _ _ hmanaged]
  exact beq_self_eq_true _

namespace Converged

variable {r : StoredRobot} {robot : Robot} {s : Secret} {password : GoString} {nb : Int}
  (h : Converged c ha name w r robot s password nb)
include h

theorem lookup_annotations :
    s.annotations.lookup RobotSecret.annotationRobotID = some (RobotSecret.formatRobotID robot.id) ∧
    s.annotations.lookup RobotSecret.annotationRotationNotBefore =
      some (RobotSecret.formatRotationNotBefore nb) := by
  refine ⟨lookup_of_union_self h.annotations ?_, lookup_of_union_self h.annotations ?_⟩
  · rw [robotAnnotations, Finmap.lookup_insert_of_ne _ (by decide), Finmap.lookup_singleton_eq]
  · rw [robotAnnotations, Finmap.lookup_insert]

theorem rotationNotBefore_eq (hnb : RobotSecret.Representable nb) :
    RobotSecret.rotationNotBefore s = some (RobotSecret.roundUp nb) := by
  rw [RobotSecret.rotationNotBefore, h.lookup_annotations.2, Option.bind_some,
    RobotSecret.parse_formatRotationNotBefore nb hnb]

theorem robotID_eq : RobotSecret.robotID s = some robot.id := by
  rw [RobotSecret.robotID, h.lookup_annotations.1, h.chosen.views.id]
  obtain ⟨hpos, hlt⟩ := w.harbor.bounds r h.chosen.views.1
  have := w.harbor.nextId_le
  exact parseInt_formatInt r.id ⟨by omega, by omega⟩

theorem roundUp : Converged c ha name w r robot s password (RobotSecret.roundUp nb) := by
  refine { h with annotations := ?_ }
  have hsame := h.annotations
  unfold robotAnnotations at hsame ⊢
  rwa [RobotSecret.formatRotationNotBefore_roundUp]

theorem stamped : RobotSecret.isManaged s = true ∧
    s.labels.get RobotSecret.labelCluster = c.clusterName ∧
    s.labels.get RobotSecret.labelHarborAccessNamespace = ha.key.ns ∧
    s.labels.get RobotSecret.labelHarborAccessName = ha.key.name := stamped_of_labels h.labels

theorem secretConflict_eq : secretConflict c ha (some s) name = none := by
  obtain ⟨hmanaged, -, hns, hname⟩ := h.stamped
  simp [secretConflict, RobotSecret.stampedForOther, hmanaged, hns, hname]

theorem congr {ha' : HarborAccess} (hkey : ha'.key = ha.key) (hspec : ha'.spec = ha.spec) {w' : Site}
    (hharbor : w'.harbor = w.harbor) (hsecrets : w'.secrets = w.secrets) :
    Converged c ha' name w' r robot s password nb := by
  have hsecret : w'.secret = w.secret := by
    unfold Site.secret
    rw [hsecrets]
  refine ⟨hharbor ▸ h.chosen, ⟨?_, ?_, h.aligned.expiresAt⟩, h.enabled, ?_, ?_, h.annotations,
    h.credentials⟩
  · rw [hspec, h.aligned.grants]
  · rw [hkey, h.aligned.description]
  · rw [hsecret, hkey, h.secret]
  · rw [hkey, h.labels]

end Converged

namespace AtRest

variable {r : StoredRobot} {robot : Robot} {s : Secret} {password : GoString} {promise : Int}
  (h : AtRest c ha name w r robot s password promise)
include h

theorem rotationReason_eq {now : Int} (hnow : now < promise + rotationSafetyMargin) :
    rotationReason ha (some s) robot now = none := by
  have hid : recordsOtherRobot ha s robot = false := by
    rw [recordsOtherRobot, h.converged.robotID_eq]
    exact bne_self_eq_false _
  simp only [rotationReason, h.converged.credentials, hid, h.promised]
  simp [hnow]

theorem renew_eq {now : Int} (hnow : now < promise + rotationSafetyMargin) :
    renew c ha (some s) name robot false now = pure ⟨robot, some s, [], none⟩ := by
  unfold renew alignRobot rotate
  dsimp only
  rw [h.rotationReason_eq hnow, h.converged.enabled, h.converged.aligned.grants,
    h.converged.aligned.description, h.converged.aligned.expiresAt, if_neg Bool.false_ne_true,
    Bool.false_and, if_neg Bool.false_ne_true, if_neg (by simp)]
  rfl

theorem rotationNotBefore_eq (now : Int) : rotationNotBefore ha (some s) now none = promise := by
  rw [rotationNotBefore, Option.bind_some, h.promised]

theorem writeRobotSecret_eq :
    writeRobotSecret c ha (some s) robot [] promise = pure (.ok ()) := by
  unfold writeRobotSecret putRobotSecret updatedRobotSecret
  simp only [h.converged.labels, h.converged.annotations, and_self, if_true]

theorem mayBeStale_eq : mayBeStale ha robot false = false := by
  obtain ⟨ref, href, hid⟩ := h.recorded
  simp [mayBeStale, h.observed, href, hid]

theorem cleanUp_eq : cleanUp c ha robot false = pure () := by
  rw [cleanUp, h.mayBeStale_eq]
  rfl

end AtRest

/-! ## The next pass -/

/-- Nobody else acts, no call fails, and the clock stays before an instant. -/
def before (deadline : Int) (may : Call → Prop) : Setting Call Answer Site where
  sem w call r w' := w.Serves call r w' ∧ w'.clock < deadline
  may _ call := may call

theorem wp_before {α : Type} {deadline : Int} {may : Call → Prop} {p : BridgeProg α}
    {Q : α → Site → Prop} (hp : p.Wp (quiet may) Q w) : p.Wp (before deadline may) Q w :=
  Prog.wp_weaken (S := before deadline may) (T := quiet may) (fun _ _ hm => hm)
    (fun _ _ _ _ hs => hs.1) hp

structure SameCredentials (w w' : Site) : Prop where
  harbor : w'.harbor = w.harbor
  secrets : w'.secrets = w.secrets

variable {r : StoredRobot} {robot : Robot} {s : Secret} {password : GoString} {promise : Int}

theorem wp_ensureRobot_again (hc : w.harbor.Chosen c name r robot) (description : GoString)
    (perms : List ProjectPermission) :
    (ensureRobot c ha name description perms).run.Wp (quiet Call.SparesCredentials)
      (fun res w' => w' = w ∧ ∀ out, res = .ok out → out = (robot, false)) w := by
  unfold ensureRobot
  refine wp_lift (wp_quiet_onHarbor (Harbor.wp_serving
    (Client.wp_getByName_faulty w.harbor (fun _ _ => trivial) name))) fun res w₁ hget => ?_
  obtain ⟨h₁, rfl, rfl, hfound, hmissing⟩ := hget
  split
  · next existing =>
    obtain ⟨r', hc'⟩ := hfound existing rfl
    obtain ⟨-, rfl⟩ := hc.unique hc'
    unfold ensureRobot.adopt
    split_ifs
    · exact ⟨rfl, nofun⟩
    · split
      · split_ifs
        · exact ⟨rfl, fun out hout => (Except.ok.inj hout).symm⟩
        · exact ⟨rfl, nofun⟩
      · exact ⟨rfl, fun out hout => (Except.ok.inj hout).symm⟩
  · exact absurd hc.named (hmissing rfl r robot hc.views)
  · exact ⟨rfl, nofun⟩

theorem wp_converge_again (h : AtRest c ha name w r robot s password promise) :
    (converge c ha (some s) name).run.Wp
      (before (promise + rotationSafetyMargin) Call.SparesCredentials)
      (fun _ w' => SameCredentials w w') w := by
  unfold converge
  refine Prog.wp_run_seq (wp_before (wp_ensureRobot_again h.converged.chosen _ _))
    (fun out w₁ hout => ?_) fun _ w₁ hout => ?_
  swap
  · rw [hout.1]
    exact ⟨rfl, rfl⟩
  obtain ⟨rfl, hout⟩ := hout
  obtain rfl := hout out rfl
  refine wp_lift (P := fun t w' => w' = { w₁ with clock := t } ∧ t < promise + rotationSafetyMargin)
    ⟨trivial, fun t w' hs => ?_⟩ fun t w' hw' => ?_
  · obtain ⟨hs, hlt⟩ := hs
    have hserves : w₁.Serves .now t w' := hs
    cases hserves with
    | now _ hle => exact ⟨rfl, hlt⟩
    | kube _ _ hnow => exact absurd rfl hnow
  · obtain ⟨rfl, hlt⟩ := hw'
    dsimp only
    refine Prog.wp_run_seq (P := fun res w' => res = .ok ⟨robot, some s, [], none⟩ ∧
      SameCredentials w₁ w') (by rw [h.renew_eq hlt]; exact ⟨rfl, rfl, rfl⟩) (fun hand w₂ hhand => ?_)
      fun _ _ hhand => nomatch hhand.1
    obtain ⟨hhand, hsame⟩ := hhand
    obtain rfl := Except.ok.inj hhand
    rw [h.rotationNotBefore_eq, h.writeRobotSecret_eq, h.cleanUp_eq, if_neg (by rw [h.converged.enabled]; decide)]
    exact hsame

theorem admission_congr {ha' : HarborAccess} (hkey : ha'.key = ha.key) (hspec : ha'.spec = ha.spec) :
    admission c ha' = admission c ha := by
  unfold admission
  rw [hkey, hspec]

theorem wp_readRobotSecret {may : Call → Prop}
    (hmay : may (.readSecret c.ns (RobotSecret.name ha.key.ns ha.key.name))) :
    (getRobotSecret c ha).Wp (quiet may) (fun res w' =>
      res = .ok (w.secret c.ns (RobotSecret.name ha.key.ns ha.key.name)) ∧ w' = w) w := by
  refine wp_kube_bind nofun nofun hmay ?_
  simp only [serve]
  cases w.secret c.ns (RobotSecret.name ha.key.ns ha.key.name) with
  | none => exact ⟨rfl, rfl⟩
  | some s => exact ⟨rfl, rfl⟩

/-- A pass over a state at rest writes neither to Harbor nor a Secret. -/
theorem wp_reconcileNormal_again (h : AtRest c ha name w r robot s password promise)
    (hadmitted : admission c ha = .ok name) :
    (reconcileNormal c ha).Wp (before (promise + rotationSafetyMargin) Call.SparesCredentials)
      (fun _ w' => SameCredentials w w') w := by
  unfold reconcileNormal
  rw [hadmitted]
  dsimp only
  split_ifs
  · exact ⟨rfl, rfl⟩
  · refine Prog.wp_seq (wp_before (wp_readRobotSecret trivial)) fun res w₁ hread => ?_
    obtain ⟨rfl, rfl⟩ := hread
    rw [h.converged.secret]
    dsimp only
    rw [h.converged.secretConflict_eq, if_neg (by decide), ensureFinalizer, if_pos (List.contains_iff_mem.mpr h.finalizer)]
    refine Prog.wp_seq (P := fun res w' => res = .ok ha ∧ w' = w₁) ⟨rfl, rfl⟩ fun res w₂ hfinal => ?_
    obtain ⟨rfl, rfl⟩ := hfinal
    refine Prog.wp_seq (wp_converge_again h) fun res w₃ hsame => ?_
    have hstatus : ∀ copy, (Kube.updateStatus copy).Wp
        (before (promise + rotationSafetyMargin) Call.SparesCredentials)
        (fun _ w' => SameCredentials w₂ w') w₃ := fun copy =>
      wp_before (Prog.wp_mono (fun _ _ hupdate => ⟨hupdate.1.trans hsame.harbor,
        hupdate.2.1.trans hsame.secrets⟩) _ _ (wp_updateStatus copy trivial))
    split
    · refine Prog.wp_seq (hstatus _) fun res w₄ hsame => ?_
      cases res <;> exact hsame
    · refine Prog.wp_seq (hstatus _) fun res w₄ hsame => ?_
      cases res <;> exact hsame
    · refine Prog.wp_seq (hstatus _) fun res w₄ hsame => ?_
      cases res <;> exact hsame

/-! ## The first pass -/

/-- The pass has come to `markReady`: it succeeds and the stored HarborAccess is Ready. -/
structure EndsReady (key : ObjectKey) (res : Except PassErr Result) (w : Site) (ha : HarborAccess) :
    Prop where
  ok : ∃ result, res = .ok result
  stored : w.access key.ns key.name = some ha
  ready : ha.IsReady

structure SameObject (ha ha' : HarborAccess) : Prop where
  key : ha'.key = ha.key
  spec : ha'.spec = ha.spec
  generation : ha'.generation = ha.generation
  deleting : ha'.deleting = ha.deleting

theorem wp_ensureFinalizer {may : Call → Prop} (hmay : PassCalls may)
    (hha : w.access ha.key.ns ha.key.name = some ha) :
    (ensureFinalizer c ha).Wp (quiet may) (fun res w' => ∀ ha₁, res = .ok ha₁ →
      SameObject ha ha₁ ∧ ha₁.status = ha.status ∧ c.finalizer ∈ ha₁.finalizers ∧
      SameCredentials w w' ∧ w'.clock = w.clock ∧
      ∀ ha', w'.access ha.key.ns ha.key.name = some ha' → ha' = ha₁) w := by
  unfold ensureFinalizer
  split_ifs with hcontains
  · intro ha₁ hres
    obtain rfl := Except.ok.inj hres
    exact ⟨⟨rfl, rfl, rfl, rfl⟩, rfl, List.contains_iff_mem.mp hcontains, ⟨rfl, rfl⟩, rfl,
      fun ha' hha' => Option.some.inj (hha'.symm.trans hha)⟩
  · refine wp_kube nofun nofun (hmay _ nofun) fun ha₁ hres => ?_
    have hwrite : w.writeAccess ha (fun l => { l with finalizers := ha.finalizers ++ [c.finalizer] }) =
        (.ok ha₁, (w.serve (.patchFinalizers ha (ha.finalizers ++ [c.finalizer]))).2) :=
      Prod.ext hres rfl
    obtain ⟨l, hl, -, hharbor, hsecrets, hclock, -, rfl, hafter⟩ := writeAccess_ok hwrite
    obtain rfl := Option.some.inj (hl.symm.trans hha)
    exact ⟨⟨rfl, rfl, rfl, rfl⟩, rfl, List.mem_append_right _ (List.mem_singleton_self _),
      ⟨hharbor, hsecrets⟩, hclock, hafter⟩

theorem wp_ensureFinalizer_ok {may : Call → Prop} (hmay : PassCalls may)
    (hha : w.access ha.key.ns ha.key.name = some ha) :
    (ensureFinalizer c ha).Wp (quiet may) (fun res _ => ∃ ha₁, res = .ok ha₁) w := by
  unfold ensureFinalizer
  split_ifs
  · exact ⟨ha, rfl⟩
  · refine wp_kube nofun nofun (hmay _ nofun) ?_
    -- the copy is of the version that is stored
    change ∃ ha₁, (w.writeAccess ha _).1 = .ok ha₁
    unfold writeAccess
    rw [hha]
    dsimp only
    rw [if_pos rfl]
    exact ⟨_, rfl⟩

/-- A pass that reports that the HarborAccess is not ready does not end in Ready. -/
theorem wp_markNotReady {may : Call → Prop} (hmay : ∀ copy, may (.updateStatus copy)) (reason : Reason) :
    (markNotReadyWithRequeue ha reason).Wp (quiet may)
      (fun res w' => ∀ ha', ¬ EndsReady ha.key res w' ha') w := by
  refine Prog.wp_seq (wp_updateStatus _ (hmay _)) fun res w' h => ?_
  cases res with
  | error e => exact fun ha' hready => nomatch hready.ok
  | ok new =>
    rintro ha' hready
    obtain ⟨l, -, -, hafter⟩ := h.2.2 new rfl
    have hstatus := hready.ready
    rw [hafter ha' hready.stored] at hstatus
    exact not_isReady_withCondition ha reason hstatus

theorem wp_markTransientError {may : Call → Prop} (hmay : ∀ copy, may (.updateStatus copy))
    (cause : PassErr) :
    (markTransientError ha cause).Wp (quiet may) (fun res w' => ∀ ha', ¬ EndsReady ha.key res w' ha') w := by
  refine Prog.wp_seq (wp_updateStatus _ (hmay _)) fun res w' h => ?_
  cases res <;> exact fun ha' hready => nomatch hready.ok

structure Renderable (ha : HarborAccess) (secret : Option Secret) : Prop where
  promised : ∀ s nb, secret = some s → RobotSecret.rotationNotBefore s = some nb →
    RobotSecret.Representable nb
  recorded : ∀ t, ha.status.robot.bind (·.lastRotated) = some t →
    RobotSecret.Representable (t + passwordRotationInterval)

theorem PromiseFrom.representable {secret : Option Secret} {now nb : Int}
    (h : PromiseFrom ha secret now nb) (hr : Renderable ha secret)
    (hnow : RobotSecret.Representable (now + passwordRotationInterval)) :
    RobotSecret.Representable nb := by
  cases h with
  | rotated => exact hnow
  | promised s nb hs hnb => exact hr.promised s nb hs hnb
  | recorded t ht => exact hr.recorded t ht

theorem PromiseFrom.congr {ha' : HarborAccess} (hstatus : ha'.status = ha.status)
    {secret : Option Secret} {now nb : Int} (h : PromiseFrom ha' secret now nb) :
    PromiseFrom ha secret now nb := by
  cases h with
  | rotated => exact .rotated
  | promised s nb hs hnb => exact .promised s nb hs hnb
  | recorded t ht => exact .recorded t (hstatus ▸ ht)

theorem readyStatus_records (ha : HarborAccess) (robot : Robot) (rotatedAt : Option Int) :
    (readyStatus ha robot rotatedAt).status.observedGeneration = ha.generation ∧
    ∃ ref, (readyStatus ha robot rotatedAt).status.robot = some ref ∧ ref.id = robot.id :=
  ⟨rfl, _, rfl, rfl⟩

theorem wp_reconcileNormal {may : Call → Prop} (hmay : ∀ call, may call)
    (hha : w.access ha.key.ns ha.key.name = some ha) (hadmitted : admission c ha = .ok name)
    (hcrd : CrdPermissions ha.spec.permissions)
    (hprefixed : w.harbor.robotNamePrefix = c.harborRobotPrefix) :
    (reconcileNormal c ha).Wp (quiet may) (fun res w' => ∀ ha', EndsReady ha.key res w' ha' →
      SameObject ha ha' ∧ ∃ r robot s password nb,
        Converged c ha name w' r robot s password nb ∧ c.finalizer ∈ ha'.finalizers ∧
        ha'.status.observedGeneration = ha'.generation ∧
        (∃ ref, ha'.status.robot = some ref ∧ ref.id = robot.id) ∧
        PromiseFrom ha (w.secret c.ns (RobotSecret.name ha.key.ns ha.key.name)) w'.clock nb) w := by
  unfold reconcileNormal
  rw [hadmitted]
  dsimp only
  split_ifs
  · exact fun ha' hready => nomatch hready.ok
  refine Prog.wp_seq (wp_readRobotSecret (hmay _)) fun res w₁ hread => ?_
  obtain ⟨rfl, rfl⟩ := hread
  dsimp only
  split_ifs
  · exact Prog.wp_mono (fun _ _ h ha' hready => absurd hready (h ha')) _ _
      (wp_markNotReady (fun _ => hmay _) _)
  refine Prog.wp_seq (wp_ensureFinalizer (fun _ _ => hmay _) hha) fun res w₂ hfinal => ?_
  cases res with
  | error e => exact fun ha' hready => nomatch hready.ok
  | ok ha₁ =>
  obtain ⟨hobject, hstatus, hfinalizer, hsame, hclock, hstored⟩ := hfinal ha₁ rfl
  have hsecret : w₂.secret c.ns (RobotSecret.name ha₁.key.ns ha₁.key.name) =
      w₁.secret c.ns (RobotSecret.name ha.key.ns ha.key.name) := by
    unfold Site.secret
    rw [hsame.secrets, hobject.key]
  have hname := (robotName_eq_ok _ _ _ _).mp (admission_ok hadmitted).2.2.2
  have hne : name ≠ [] := by
    rintro rfl
    exact absurd hname.2 (by decide)
  refine Prog.wp_seq (wp_converge (fun _ _ => hmay _) (hsame.harbor ▸ hprefixed) hname.2
    hne (hobject.spec ▸ hcrd) hsecret) fun res w₃ h => ?_
  obtain ⟨haccesses, hconverged⟩ := h
  split
  · next ready =>
    obtain ⟨r, robot, s, password, nb, hconverged, hrobot, hpromise⟩ := hconverged ready rfl
    refine Prog.wp_seq (wp_updateStatus _ (hmay _)) fun res w₄ h => ?_
    cases res with
    | error e => exact fun ha' hready => nomatch hready.ok
    | ok new =>
      rintro ha' hready
      obtain ⟨hharbor₄, hsecrets₄, hnew⟩ := h
      obtain ⟨l, hl, hclock₄, hafter⟩ := hnew new rfl
      have hl : w₃.access ha₁.key.ns ha₁.key.name = some l := hl
      have hafter : ∀ ha', w₄.access ha₁.key.ns ha₁.key.name = some ha' → ha' = _ := hafter
      rw [Site.access, haccesses, hobject.key] at hl
      obtain rfl := hstored l hl
      obtain rfl := hafter ha' (hobject.key ▸ hready.stored)
      rw [hclock₄]
      obtain ⟨hobserved, href⟩ := readyStatus_records l ready.robot ready.rotatedAt
      refine ⟨⟨hobject.key, hobject.spec, hobject.generation, hobject.deleting⟩, r, robot, s, password, nb, ?_, hfinalizer,
        hobserved, ?_, hpromise.congr hstatus⟩
      · exact hconverged.congr hobject.key.symm hobject.spec.symm hharbor₄ hsecrets₄
      · exact href.imp fun ref h => ⟨h.1, h.2.trans hrobot.id⟩
  · exact Prog.wp_mono (fun _ _ h ha' hready => absurd (hobject.key ▸ hready) (h ha')) _ _
      (wp_markNotReady (fun _ => hmay _) _)
  · exact Prog.wp_mono (fun _ _ h ha' hready => absurd (hobject.key ▸ hready) (h ha')) _ _
      (wp_markTransientError (fun _ => hmay _) _)

/-- Harbor's robot at the name has exactly the grants of the spec and nothing foreign, the
description of the HarborAccess, is enabled and never expires, and the Secret is stamped for
the cluster and the HarborAccess and holds the robot's name, its id and a promise. -/
structure InLine (c : Config) (ha : HarborAccess) (name : GoString) (w : Site) (r : StoredRobot)
    (robot : Robot) (s : Secret) (promise : Int) : Prop where
  chosen : w.harbor.Chosen c name r robot
  foreign : robot.foreignAccess = false
  grants : ∀ project action,
    Grants robot.permissions project action ↔ Grants ha.spec.permissions project action
  description : r.description = robotDescription c.clusterName ha.key.ns ha.key.name
  enabled : r.disable = false
  expiresAt : r.expiresAt = harborNeverExpires
  secret : w.secret c.ns (RobotSecret.name ha.key.ns ha.key.name) = some s
  managed : RobotSecret.isManaged s = true
  cluster : s.labels.get RobotSecret.labelCluster = c.clusterName
  owner : s.labels.get RobotSecret.labelHarborAccessNamespace = ha.key.ns ∧
    s.labels.get RobotSecret.labelHarborAccessName = ha.key.name
  username : ∃ password, RobotSecret.credentials s = some (w.harbor.wireName r, password)
  robotID : RobotSecret.robotID s = some r.id
  promised : RobotSecret.rotationNotBefore s = some promise

theorem Converged.inLine (h : Converged c ha name w r robot s password promise)
    (hpromise : RobotSecret.rotationNotBefore s = some promise) :
    InLine c ha name w r robot s promise := by
  obtain ⟨hid, hwire, hdescription, hdisabled, hexpires, -⟩ :=
    fromHarborRobot_some _ _ _ h.chosen.views.2
  obtain ⟨hforeign, hgrants⟩ := grants_of_permissionsMatch h.aligned.grants
  obtain ⟨hmanaged, hcluster, howner⟩ := h.stamped
  exact ⟨h.chosen, hforeign, hgrants, hdescription.symm.trans h.aligned.description,
    hdisabled.symm.trans h.enabled, hexpires.symm.trans h.aligned.expiresAt, h.secret, hmanaged,
    hcluster, howner, ⟨password, h.credentials.trans (by rw [hwire]; rfl)⟩, h.robotID_eq.trans (congrArg some hid), hpromise⟩

/-- A pass that ends in Ready has brought Harbor and the Secret in line with the spec. A second
pass before the password may be rotated again writes neither to Harbor nor a Secret. -/
theorem ready_is_a_fixed_point (c : Config) (w : Site) (ha : HarborAccess) (name : GoString)
    (hha : w.access ha.key.ns ha.key.name = some ha) (hadmitted : admission c ha = .ok name)
    (hcrd : CrdPermissions ha.spec.permissions)
    (hprefixed : w.harbor.robotNamePrefix = c.harborRobotPrefix)
    (hinstants : Renderable ha (w.secret c.ns (RobotSecret.name ha.key.ns ha.key.name))) :
    (reconcileNormal c ha).Wp (quiet fun _ => True) (fun res w' => ∀ ha', EndsReady ha.key res w' ha' →
      RobotSecret.Representable (w'.clock + passwordRotationInterval) →
      ∃ r robot s promise, InLine c ha name w' r robot s promise ∧
        (reconcileNormal c ha').Wp (before (promise + rotationSafetyMargin) Call.SparesCredentials)
          (fun _ w'' => SameCredentials w' w'') w') w := by
  refine Prog.wp_mono (fun res w' h ha' hready hnow => ?_) _ _
    (wp_reconcileNormal (fun _ => trivial) hha hadmitted hcrd hprefixed)
  obtain ⟨hobject, r, robot, s, password, nb, hconverged, hfinalizer, hobserved, hrecorded,
    hpromise⟩ := h ha' hready
  have hpromised := hconverged.rotationNotBefore_eq (hpromise.representable hinstants hnow)
  have hrest : AtRest c ha' name w' r robot s password (RobotSecret.roundUp nb) :=
    ⟨hconverged.roundUp.congr hobject.key hobject.spec rfl rfl, hpromised, hfinalizer, hobserved,
      hrecorded⟩
  exact ⟨r, robot, s, _, hconverged.roundUp.inLine hpromised, wp_reconcileNormal_again hrest
    ((admission_congr hobject.key hobject.spec).trans hadmitted)⟩

/-! ## Passes over a new HarborAccess -/

theorem clock_serve (w : Site) (call : Call) : (w.serve call).2.clock = w.clock := by
  cases call with
  | patchFinalizers | updateStatus =>
    simp only [serve, writeAccess]
    split <;> (try split) <;> rfl
  | createSecret | updateSecret | deleteSecret =>
    simp only [serve, createSecret, updateSecret, deleteSecret]
    split <;> (try split) <;> rfl
  | _ => rfl

/-- A run against the servers, whose clock stands still. -/
theorem wp_exec_before {α : Type} {deadline : Int} {may : Call → Prop} (Q : α → Site → Prop)
    (p : BridgeProg α) (hid : w.harbor.nextId + p.calls serve w ≤ 2 ^ 63) (hclock : w.clock < deadline)
    (hp : p.Wp (before deadline may) Q w) : Q (p.exec serve w).1 (p.exec serve w).2 := by
  refine Prog.wp_exec_within serve (fun n w => w.harbor.nextId + n ≤ 2 ^ 63 ∧ w.clock < deadline)
    (fun n w call h => ?_) Q p w ⟨hid, hclock⟩ hp
  obtain ⟨hid, hclock⟩ := h
  push_cast at hid
  have hlt : w.harbor.nextId < 2 ^ 63 := by omega
  have hserves := w.serve_serves hlt call
  have hnext := hserves.nextId_le
  rw [← clock_serve w call] at hclock
  exact ⟨⟨hserves, hclock⟩, by omega, hclock⟩

theorem endsReady_of_eval (key : ObjectKey) (out : Except PassErr Result × Site) {requeueAfter : Int}
    (hok : out.1 = .ok ⟨requeueAfter⟩)
    (hready : (out.2.access key.ns key.name).any (fun ha => decide ha.IsReady) = true) :
    ∃ ha, EndsReady key out.1 out.2 ha := by
  cases hstored : out.2.access key.ns key.name with
  | none =>
    rw [hstored] at hready
    cases hready
  | some ha =>
    rw [hstored] at hready
    exact ⟨ha, ⟨_, hok⟩, hstored, of_decide_eq_true hready⟩

def newSite (h : Harbor) (ha : HarborAccess) : Site := ⟨h, [ha], [], 1, 0⟩

def passOver (c : Config) (ha : HarborAccess) (w : Site) : Except PassErr Result × Site :=
  (reconcileNormal c ha).exec serve w

def newAccess : HarborAccess := sampleAccess sampleKey ⟨lit "team", lit "app"⟩

def firstPass : Except PassErr Result × Site :=
  passOver sampleConfig newAccess (newSite emptyHarbor newAccess)

theorem firstPass_ready : ∃ ha, EndsReady newAccess.key firstPass.1 firstPass.2 ha :=
  endsReady_of_eval _ firstPass (show firstPass.1 = .ok ⟨3596 * Rfc3339.second⟩ by decide +kernel)
    (by decide +kernel)

theorem firstPass_promise : firstPass.2.clock = 0 ∧ (firstPass.2.secret sampleConfig.ns
    (RobotSecret.name newAccess.key.ns newAccess.key.name)).bind RobotSecret.rotationNotBefore =
      some (86400 * Rfc3339.second) := by decide +kernel

theorem firstPass_calls : (firstPass.2.access newAccess.key.ns newAccess.key.name).map
    (fun ha => firstPass.2.harbor.nextId + (reconcileNormal sampleConfig ha).calls serve firstPass.2) =
      some 6 := by decide +kernel

/-- The pass creates the robot, and the next one writes nothing. -/
theorem ready_is_a_fixed_point_created : ∃ ha r robot s promise,
    EndsReady newAccess.key firstPass.1 firstPass.2 ha ∧
    InLine sampleConfig newAccess (lit "bridge-prod.team.app") firstPass.2 r robot s promise ∧
    SameCredentials firstPass.2 (passOver sampleConfig ha firstPass.2).2 := by
  obtain ⟨ha, hready⟩ := firstPass_ready
  obtain ⟨hclock, hpromise⟩ := firstPass_promise
  have hinstants : Renderable newAccess ((newSite emptyHarbor newAccess).secret sampleConfig.ns
      (RobotSecret.name newAccess.key.ns newAccess.key.name)) := ⟨nofun, nofun⟩
  have hwp : ∀ ha', EndsReady newAccess.key firstPass.1 firstPass.2 ha' →
      RobotSecret.Representable (firstPass.2.clock + passwordRotationInterval) →
      ∃ r robot s promise,
        InLine sampleConfig newAccess (lit "bridge-prod.team.app") firstPass.2 r robot s promise ∧
        (reconcileNormal sampleConfig ha').Wp
          (before (promise + rotationSafetyMargin) Call.SparesCredentials)
          (fun _ w'' => SameCredentials firstPass.2 w'') firstPass.2 :=
    wp_exec _ _ _ (by decide +kernel) (ready_is_a_fixed_point sampleConfig
      (newSite emptyHarbor newAccess) newAccess (lit "bridge-prod.team.app") rfl rfl (by decide) rfl
      hinstants)
  obtain ⟨r, robot, s, promise, hline, hagain⟩ := hwp ha hready (by rw [hclock]; decide)
  have hcalls := firstPass_calls
  rw [hready.stored, Option.map_some] at hcalls
  rw [hline.secret, Option.bind_some, hline.promised] at hpromise
  refine ⟨ha, r, robot, s, promise, hready, hline, wp_exec_before _ _ ?_ ?_ hagain⟩
  · rw [Option.some.inj hcalls]
    decide
  · rw [hclock, Option.some.inj hpromise]
    decide

/-- A prefix with which the robot names of the cluster begin. -/
def unprefixedConfig : Config := { sampleConfig with harborRobotPrefix := lit "bridge-prod." }

def unprefixedAccess : HarborAccess := sampleAccess sampleKey ⟨lit "bridge-prod", lit "app"⟩

/-- The first pass over `unprefixedAccess`, in a Harbor that puts nothing before the names. -/
def unprefixedPass : Except PassErr Result × Site :=
  passOver unprefixedConfig unprefixedAccess
    (newSite { emptyHarbor with robotNamePrefix := [] } unprefixedAccess)

def alignedHarbor (password : GoString) : Harbor where
  robotNamePrefix := lit "robot$"
  honoursFilter := true
  robots := [⟨1, lit "bridge-prod.team.app", true, robotDescription (lit "prod") (lit "team") (lit "app"),
    false, -1, toHarborPermissions [⟨lit "library", lit "pull"⟩], password⟩]
  nextId := 2
  issued := [password]
  sorted := by simp
  bounds := by simp
  nextId_pos := by decide
  nextId_le := by decide
  password_issued := by simp

def alignedSecret (promise : GoString) : Secret where
  ns := lit "bridge"
  name := lit "robot-team.app"
  uid := lit "2"
  resourceVersion := 1
  labels := RobotSecret.labels (lit "prod") (lit "team") (lit "app")
  annotations := (Finmap.singleton RobotSecret.annotationRobotID (lit "1")).insert
    RobotSecret.annotationRotationNotBefore promise
  data := (Finmap.singleton RobotSecret.keyUsername (lit "robot$bridge-prod.team.app")).insert
    RobotSecret.keyPassword (lit "p")

def keepingPass (password promise : GoString) : Except PassErr Result × Site :=
  passOver sampleConfig newAccess
    { newSite (alignedHarbor password) newAccess with secrets := [alignedSecret promise] }

/-- A promise in the year 10000 of UTC. -/
def farPass : Except PassErr Result × Site :=
  keepingPass (lit "p") (lit "9999-12-31T23:59:59-01:00")

/-- A pass ends in Ready although the Secret does not hold the name of the robot, where Harbor's
prefix is not the configured one, and although it holds no promise that can be read, where the
promise that the pass found is rendered with five digits for the year. -/
theorem ready_without_name_or_promise :
    admission unprefixedConfig unprefixedAccess = .ok (lit "bridge-prod.bridge-prod.app") ∧
    CrdPermissions unprefixedAccess.spec.permissions ∧
    (∃ ha, EndsReady unprefixedAccess.key unprefixedPass.1 unprefixedPass.2 ha) ∧
    unprefixedPass.2.harbor.robots.map unprefixedPass.2.harbor.wireName =
      [lit "bridge-prod.bridge-prod.app"] ∧
    (unprefixedPass.2.secret unprefixedConfig.ns
        (RobotSecret.name unprefixedAccess.key.ns unprefixedAccess.key.name)).bind RobotSecret.credentials =
      some (lit "bridge-prod.bridge-prod.bridge-prod.app", lit "p") ∧
    admission sampleConfig newAccess = .ok (lit "bridge-prod.team.app") ∧
    CrdPermissions newAccess.spec.permissions ∧
    (∃ ha, EndsReady newAccess.key farPass.1 farPass.2 ha) ∧
    (farPass.2.secret sampleConfig.ns
        (RobotSecret.name newAccess.key.ns newAccess.key.name)).map RobotSecret.rotationNotBefore =
      some none := by
  refine ⟨by decide, by decide, endsReady_of_eval _ unprefixedPass
    (show unprefixedPass.1 = .ok ⟨3596 * Rfc3339.second⟩ by decide +kernel) (by decide +kernel),
    by decide +kernel, by decide +kernel, by decide, by decide, endsReady_of_eval _ farPass
    (show farPass.1 = .ok ⟨3596 * Rfc3339.second⟩ by decide +kernel) (by decide +kernel),
    by decide +kernel⟩

end Site

end HarborBridge
