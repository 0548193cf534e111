import HarborBridge.Grants
import HarborBridge.Undisturbed

/-! A pass over an accepted HarborAccess, in which no call fails and nobody else acts. -/
namespace HarborBridge

open GoStrings Interaction

/-! ## The robot of a name, while Harbor changes -/

namespace Harbor

variable {c : Config} {h : Harbor} {name : GoString} {r : StoredRobot} {robot : Robot}

theorem Chosen.modify (hc : h.Chosen c name r robot) (f : StoredRobot → StoredRobot)
    (hf : ∀ r, (f r).id = r.id) (passwords : List GoString)
    (hp : ∀ r, (f r).password = r.password ∨ (f r).password ∈ passwords)
    (hname : ∀ r, (f r).name = r.name) (hedit : ∀ r, (f r).editable = r.editable) :
    ∃ robot', (h.modify r.id f hf passwords hp).Chosen c name (f r) robot' ∧
      robot'.wireName = robot.wireName := by
  have hwire : ∀ s, (h.modify r.id f hf passwords hp).wireName (f s) = h.wireName s := by
    intro s
    unfold wireName
    rw [hname, hedit]
    rfl
  have hread : (fromHarborRobot c.harborRobotPrefix
      ((h.modify r.id f hf passwords hp).report (f r))).isSome =
      (fromHarborRobot c.harborRobotPrefix (h.report r)).isSome :=
    fromHarborRobot_isSome_congr (hedit r) (hwire r)
  rw [hc.views.2] at hread
  obtain ⟨robot', hrobot'⟩ := Option.isSome_iff_exists.mp hread
  have hview' := fromHarborRobot_some _ _ _ hrobot'
  have hview := fromHarborRobot_some _ _ _ hc.views.2
  have hmem : f r ∈ (h.modify r.id f hf passwords hp).robots :=
    List.mem_map.mpr ⟨r, hc.views.1, if_pos rfl⟩
  have hsame : robot'.wireName = robot.wireName := by
    rw [hview'.2.1, hview.2.1]
    exact hwire r
  refine ⟨robot', ⟨⟨hmem, hrobot'⟩, ?_, fun s robot'' hv hsname => ?_⟩, hsame⟩
  · rw [← hc.named, hview'.2.2.2.2.2, hview.2.2.2.2.2]
    exact congrArg (trimPrefix · c.harborRobotPrefix) (hwire r)
  -- the robot itself, or another one, which has not changed
  have hmatch : h.matching (some name) (f r) = h.matching (some name) r := by
    unfold matching
    rw [hname]
  obtain ⟨s₀, hs₀, hs⟩ := List.mem_map.mp hv.1
  have hmatching : ∀ s, (h.modify r.id f hf passwords hp).matching (some name) s =
      h.matching (some name) s := fun s => rfl
  simp only [hmatching, hmatch, hf]
  by_cases hid : s₀.id = r.id
  · obtain rfl : s₀ = r := eq_of_id hs₀ hc.views.1 hid
    rw [if_pos rfl] at hs
    subst hs
    rw [hmatch, hf]
    exact ⟨fun hm => ⟨hm, le_rfl⟩, fun _ => le_rfl⟩
  · rw [if_neg hid] at hs
    subst hs
    exact hc.first s₀ robot'' (hv.congr hs₀ rfl) hsname

theorem Chosen.refresh (hc : h.Chosen c name r robot) (password : GoString) :
    (h.refresh r.id password).Chosen c name { r with password := password } robot := by
  obtain ⟨robot', hc', -⟩ := hc.modify (fun r => { r with password := password }) (fun _ => rfl)
    [password] (fun _ => .inr List.mem_cons_self) (fun _ => rfl) fun _ => rfl
  obtain rfl : robot = robot' := Option.some.inj (hc.views.2.symm.trans hc'.views.2)
  exact hc'

theorem Chosen.update (hc : h.Chosen c name r robot) (body : RobotUpdate) :
    ∃ robot', (h.update r.id body).Chosen c name (updated body r) robot' ∧
      robot'.id = robot.id ∧ robot'.wireName = robot.wireName := by
  obtain ⟨robot', hc', hwire⟩ := hc.modify (updated body) (fun _ => rfl) [] (fun _ => .inl rfl)
    (fun _ => rfl) fun _ => rfl
  exact ⟨robot', hc', hc'.views.id.trans hc.views.id.symm, hwire⟩

theorem Chosen.delete (hc : h.Chosen c name r robot) (id : Int) (hid : r.id ≠ id) :
    (h.delete id).Chosen c name r robot := by
  refine ⟨hc.views.congr (mem_delete.mpr ⟨hc.views.1, hid⟩) rfl, hc.named, fun s robot' hv hname => ?_⟩
  exact hc.first s robot' (hv.congr (mem_delete.mp hv.1).1 rfl) hname

theorem chosen_create (body : RobotCreate) (password : GoString) (hid : h.nextId < 2 ^ 63)
    (hprefixed : h.robotNamePrefix = c.harborRobotPrefix) (hregex : robotNameRegex body.name = true)
    (hfree : ∀ r robot, h.Views c r robot → robot.name ≠ body.name) :
    ∃ robot, (h.create body password hid).Chosen c body.name (h.created body password) robot := by
  have hwire : (h.create body password hid).wireName (h.created body password) =
      c.harborRobotPrefix ++ body.name := by
    rw [← hprefixed]
    rfl
  obtain ⟨robot, hrobot⟩ := exists_fromHarborRobot hregex
    ((h.create body password hid).report (h.created body password)) hwire
  have hname : robot.name = body.name := by
    rw [(fromHarborRobot_some _ _ _ hrobot).2.2.2.2.2]
    exact (congrArg (trimPrefix · c.harborRobotPrefix) hwire).trans (trimPrefix_append _ _)
  refine ⟨robot, ⟨(mem_create hid).mpr (.inr rfl), hrobot⟩, hname, fun s robot' hv hsname => ?_⟩
  rcases (mem_create hid).mp hv.1 with hold | rfl
  · exact absurd hsname (hfree s robot' (hv.congr hold rfl))
  · exact ⟨fun hm => ⟨hm, le_rfl⟩, fun _ => le_rfl⟩

end Harbor

/-! ## The steps of the pass -/

structure Aligned (c : Config) (ha : HarborAccess) (robot : Robot) : Prop where
  grants : permissionsMatch robot ha.spec.permissions = true
  description : robot.description = robotDescription c.clusterName ha.key.ns ha.key.name
  expiresAt : robot.expiresAt = harborNeverExpires

structure SameRobot (robot robot' : Robot) : Prop where
  id : robot.id = robot'.id
  wireName : robot.wireName = robot'.wireName
  disabled : robot.disabled = robot'.disabled

namespace Site

variable {c : Config} {w : Site} {may : Call → Prop} {ha : HarborAccess} {name : GoString}

inductive Ensured (c : Config) (ha : HarborAccess) (name : GoString) (h : Harbor) (robot : Robot) :
    Bool → Harbor → Prop where
  | found (r : StoredRobot) (hc : h.Chosen c name r robot) : Ensured c ha name h robot false h
  | new (h' : Harbor) (r : StoredRobot) (robot' : Robot) (hc : h'.Chosen c name r robot')
      (haligned : Aligned c ha robot') (hsame : SameRobot robot robot')
      (hpassword : r.password = robot.secret) (hne : robot.secret ≠ []) :
      Ensured c ha name h robot true h'

/-- The pass may make every call other than a status update. -/
def PassCalls (may : Call → Prop) : Prop := ∀ call, (∀ copy, call ≠ .updateStatus copy) → may call

theorem PassCalls.harbor (hmay : PassCalls may) (call : HarborCall) : may (.harbor call) :=
  hmay _ nofun

theorem ensured_new {h : Harbor} {robot robot' : Robot} {hid : h.nextId < 2 ^ 63}
    (hcrd : CrdPermissions ha.spec.permissions)
    (hc : (h.create ⟨name, robotDescription c.clusterName ha.key.ns ha.key.name,
      robotDurationNeverExpires, toHarborPermissions ha.spec.permissions⟩ robot.secret hid).Chosen
      c name (h.created ⟨name, robotDescription c.clusterName ha.key.ns ha.key.name,
        robotDurationNeverExpires, toHarborPermissions ha.spec.permissions⟩ robot.secret) robot')
    (hprefixed : h.robotNamePrefix = c.harborRobotPrefix) (hrid : robot.id = h.nextId)
    (hrwire : robot.wireName = c.harborRobotPrefix ++ name) (hne : robot.secret ≠ [])
    (hdisabled : robot.disabled = false) :
    Ensured c ha name h robot true (h.create ⟨name, robotDescription c.clusterName ha.key.ns
      ha.key.name, robotDurationNeverExpires, toHarborPermissions ha.spec.permissions⟩
      robot.secret hid) := by
  obtain ⟨hid', hwire', hdescription', hdisabled', hexpires', -⟩ :=
    fromHarborRobot_some _ _ _ hc.views.2
  refine .new _ _ robot' hc ⟨hcrd.nonblank.permissionsMatch_written hc.views.2 rfl, hdescription', hexpires'⟩
    ⟨hrid.trans hid'.symm, ?_, hdisabled.trans hdisabled'.symm⟩ rfl hne
  rw [hrwire, hwire', ← hprefixed]
  rfl

theorem wp_ensureRobot (hmay : PassCalls may) (hprefixed : w.harbor.robotNamePrefix = c.harborRobotPrefix)
    (hregex : robotNameRegex name = true) (hne : name ≠ []) (hcrd : CrdPermissions ha.spec.permissions) :
    (ensureRobot c ha name (robotDescription c.clusterName ha.key.ns ha.key.name)
      ha.spec.permissions).run.Wp (quiet may) (fun res w' => ∃ h', w' = { w with harbor := h' } ∧
        ∀ robot created, res = .ok (robot, created) →
          Ensured c ha name w.harbor robot created h') w := by
  have hadopt : ∀ robot r, w.harbor.Chosen c name r robot →
      (ensureRobot.adopt c ha robot).run.Wp (quiet may) (fun res w' =>
        ∃ h', w' = { w with harbor := h' } ∧ ∀ robot created, res = .ok (robot, created) →
          Ensured c ha name w.harbor robot created h') w := by
    intro robot r hc
    have hok : ∃ h', w = { w with harbor := h' } ∧ ∀ robot' created,
        (Except.ok (robot, false) : Except Ended _) = .ok (robot', created) →
          Ensured c ha name w.harbor robot' created h' := by
      refine ⟨w.harbor, rfl, fun robot' created hres => ?_⟩
      obtain ⟨rfl, rfl⟩ := Prod.mk.inj (Except.ok.inj hres)
      exact .found r hc
    unfold ensureRobot.adopt
    split_ifs
    · exact ⟨w.harbor, rfl, nofun⟩
    · split
      · split_ifs
        · exact hok
        · exact ⟨w.harbor, rfl, nofun⟩
      · exact hok
  have hlist : ∀ filter idFrom, may (.harbor (.listRobot filter idFrom)) := fun _ _ => hmay.harbor _
  unfold ensureRobot
  refine wp_lift (wp_quiet_onHarbor (Harbor.wp_serving (Client.wp_getByName_faulty w.harbor hlist name)))
    fun res w₁ hget => ?_
  obtain ⟨h₁, rfl, rfl, hfound, hmissing⟩ := hget
  split
  · next existing =>
    obtain ⟨r, hc⟩ := hfound existing rfl
    exact hadopt existing r hc
  · have hfree := hmissing rfl
    refine wp_lift (wp_quiet_onHarbor (Prog.wp_and _ _ (Harbor.wp_serving
      (Client.wp_create_faulty w.harbor name _ _ (hmay.harbor _) (fun _ => hmay.harbor _) hne))
      (Client.wp_create_taken w.harbor name _ _ (hmay.harbor _) fun _ => hmay.harbor _)))
      fun res w₂ hcreate => ?_
    obtain ⟨h₂, rfl, hcreate, htaken⟩ := hcreate
    cases res with
    | ok robot =>
      refine ⟨h₂, rfl, fun robot' created hres => ?_⟩
      obtain ⟨rfl, rfl⟩ := Prod.mk.inj (Except.ok.inj hres)
      obtain ⟨hid, rfl, hrid, -, hrwire, hsecret, hrdisabled, -⟩ := hcreate robot rfl
      obtain ⟨robot', hc⟩ := Harbor.chosen_create ⟨name, robotDescription c.clusterName
        ha.key.ns ha.key.name, robotDurationNeverExpires, toHarborPermissions ha.spec.permissions⟩
        robot.secret hid hprefixed hregex hfree
      exact ensured_new hcrd hc hprefixed hrid hrwire hsecret hrdisabled
    | error e =>
      dsimp only
      split_ifs
      · exact ⟨h₂, rfl, nofun⟩
      · next hexists =>
        -- nothing has changed, so a second lookup does not find a robot either
        obtain rfl := htaken e rfl (by simpa using hexists)
        refine wp_attempt_seq (wp_quiet_onHarbor (Harbor.wp_serving
          (Client.wp_getByName_faulty w.harbor hlist name))) (fun existing w₃ hget => ?_)
          fun _ w₃ hget => ?_
        · obtain ⟨h₃, rfl, rfl, hfound, -⟩ := hget
          obtain ⟨r, hc⟩ := hfound existing rfl
          exact absurd hc.named (hfree r existing hc.views)
        · obtain ⟨h₃, rfl, -⟩ := hget
          exact ⟨h₃, rfl, nofun⟩
  · exact ⟨w.harbor, rfl, nofun⟩

theorem aligned_update {h : Harbor} {r : StoredRobot} {robot robot' : Robot}
    (hcrd : CrdPermissions ha.spec.permissions)
    (hc : (h.update r.id (Client.updateBody robot (robotDescription c.clusterName ha.key.ns ha.key.name)
      ha.spec.permissions)).Chosen c name (Harbor.updated (Client.updateBody robot
        (robotDescription c.clusterName ha.key.ns ha.key.name) ha.spec.permissions) r) robot')
    (hid : robot'.id = robot.id) (hwire : robot'.wireName = robot.wireName) :
    Aligned c ha robot' ∧ SameRobot robot robot' := by
  obtain ⟨-, -, hdescription, hdisabled, hexpires, -⟩ := fromHarborRobot_some _ _ _ hc.views.2
  exact ⟨⟨hcrd.nonblank.permissionsMatch_written hc.views.2 rfl, hdescription, hexpires⟩,
    hid.symm, hwire.symm, hdisabled.symm⟩

theorem wp_quiet_update (hmay : PassCalls may) {r : StoredRobot} {robot : Robot}
    (hc : w.harbor.Chosen c name r robot) (hcrd : CrdPermissions ha.spec.permissions)
    (current : Robot) (hid : current.id = robot.id) (hwire : current.wireName = robot.wireName) :
    (onHarbor (Client.update current (robotDescription c.clusterName ha.key.ns ha.key.name)
      ha.spec.permissions)).Wp (quiet may) (fun res w' => ∃ h', w' = { w with harbor := h' } ∧
        (res = .ok () → ∃ r' robot', h'.Chosen c name r' robot' ∧ Aligned c ha robot' ∧
          SameRobot current robot' ∧ r'.id = r.id ∧ r'.password = r.password)) w := by
  refine Prog.wp_mono (fun res w' h => ?_) _ _ (wp_quiet_onHarbor (Harbor.wp_serving
    (Client.wp_update_faulty w.harbor current _ _ (hmay.harbor _))))
  obtain ⟨h', rfl, hupdate⟩ := h
  refine ⟨h', rfl, fun hres => ?_⟩
  obtain rfl := hupdate hres
  have hcr : current.id = r.id := hid.trans hc.views.id
  rw [hcr]
  obtain ⟨robot', hc', hid', hwire'⟩ := hc.update (Client.updateBody current
    (robotDescription c.clusterName ha.key.ns ha.key.name) ha.spec.permissions)
  obtain ⟨haligned, hsame⟩ := aligned_update hcrd hc' (hid'.trans hid.symm) (hwire'.trans hwire.symm)
  exact ⟨_, robot', hc', haligned, hsame, rfl, rfl⟩

theorem wp_quiet_refresh (hmay : PassCalls may) {r : StoredRobot} {robot : Robot}
    (hc : w.harbor.Chosen c name r robot) :
    (onHarbor (Client.refreshSecret robot.id)).Wp (quiet may) (fun res w' =>
      ∃ h', w' = { w with harbor := h' } ∧ ∀ password, res = .ok password → password ≠ [] ∧
        h'.Chosen c name { r with password := password } robot) w := by
  refine Prog.wp_mono (fun res w' h => ?_) _ _ (wp_quiet_onHarbor (Harbor.wp_serving
    (Client.wp_refreshSecret_faulty w.harbor robot.id (hmay.harbor _))))
  obtain ⟨h', rfl, hrefresh⟩ := h
  refine ⟨h', rfl, fun password hres => ?_⟩
  obtain ⟨hne, -, rfl⟩ := hrefresh password hres
  rw [hc.views.id]
  exact ⟨hne, hc.refresh password⟩

structure Renewed (c : Config) (ha : HarborAccess) (name : GoString) (found : Option Secret)
    (now : Int) (hand : InHand) (w : Site) (r : StoredRobot) (robot : Robot) : Prop where
  chosen : w.harbor.Chosen c name r robot
  aligned : Aligned c ha robot
  same : SameRobot hand.robot robot
  secret : w.secret c.ns (RobotSecret.name ha.key.ns ha.key.name) = hand.secret
  password : hand.password ≠ [] ∧ hand.rotatedAt = some now ∧ r.password = hand.password ∨
    hand.password = [] ∧ hand.rotatedAt = none ∧ hand.secret = found ∧
      rotationReason ha found robot now = none

structure Frame (w w' : Site) : Prop where
  accesses : w'.accesses = w.accesses
  clock : w'.clock = w.clock

theorem Frame.refl (w : Site) : Frame w w := ⟨rfl, rfl⟩

theorem Frame.trans {w' w'' : Site} (h : Frame w w') (h' : Frame w' w'') : Frame w w'' :=
  ⟨h'.accesses.trans h.accesses, h'.clock.trans h.clock⟩

theorem rotationReason_congr {secret : Option Secret} {robot robot' : Robot} {now : Int}
    (h : SameRobot robot robot') :
    rotationReason ha secret robot now = rotationReason ha secret robot' now := by
  unfold rotationReason recordsOtherRobot
  rw [h.id, h.wireName]

theorem wp_rotate (hmay : PassCalls may) {secret : Option Secret} {now : Int}
    {r : StoredRobot} {robot robot' : Robot} (hc : w.harbor.Chosen c name r robot')
    (haligned : Aligned c ha robot') (hsame : SameRobot robot robot')
    (hsecret : w.secret c.ns (RobotSecret.name ha.key.ns ha.key.name) = secret) :
    (rotate ha secret robot name now).run.Wp (quiet may) (fun res w' => Frame w w' ∧
      ∀ hand, res = .ok hand → ∃ r robot, Renewed c ha name secret now hand w' r robot) w := by
  unfold rotate
  cases hreason : rotationReason ha secret robot now with
  | none =>
    refine ⟨.refl w, fun hand hres => ?_⟩
    obtain rfl := Except.ok.inj hres
    refine ⟨r, robot', hc, haligned, hsame, hsecret, .inr ⟨rfl, rfl, rfl, ?_⟩⟩
    rw [← rotationReason_congr hsame, hreason]
  | some why =>
    refine wp_lift (P := fun _ w' => w' = w) (wp_kube nofun nofun (hmay _ nofun) rfl) fun _ w' h => ?_
    obtain rfl := h
    rw [hsame.id]
    refine wp_attempt_seq (wp_quiet_refresh hmay hc) (fun password w'' h => ?_) fun _ w'' h => ?_
    · obtain ⟨h', rfl, hrefresh⟩ := h
      obtain ⟨hne, hc'⟩ := hrefresh password rfl
      refine ⟨⟨rfl, rfl⟩, fun hand hres => ?_⟩
      obtain rfl := Except.ok.inj hres
      exact ⟨_, robot', hc', haligned, hsame, hsecret, .inl ⟨hne, rfl, rfl⟩⟩
    · obtain ⟨h', rfl, -⟩ := h
      exact ⟨⟨rfl, rfl⟩, nofun⟩

theorem wp_alignRobot (hmay : PassCalls may) {r : StoredRobot} {robot : Robot}
    (hc : w.harbor.Chosen c name r robot) (hcrd : CrdPermissions ha.spec.permissions) :
    (alignRobot robot (robotDescription c.clusterName ha.key.ns ha.key.name)
      ha.spec.permissions).run.Wp (quiet may) (fun res w' => ∃ h', w' = { w with harbor := h' } ∧
        (res = .ok () → ∃ r' robot', h'.Chosen c name r' robot' ∧ Aligned c ha robot' ∧
          SameRobot robot robot' ∧ r'.id = r.id ∧ r'.password = r.password)) w := by
  unfold alignRobot
  split_ifs with hdiffers
  · refine wp_attempt (wp_quiet_update hmay hc hcrd robot rfl rfl) (fun _ w' h => ?_) fun _ w' h => ?_
    · obtain ⟨h', rfl, hok⟩ := h
      exact ⟨h', rfl, fun _ => hok rfl⟩
    · obtain ⟨h', rfl, -⟩ := h
      exact ⟨h', rfl, nofun⟩
  · rw [not_or, not_or, not_not, not_not, Bool.not_eq_false] at hdiffers
    obtain ⟨hgrants, hdescription, hexpires⟩ := hdiffers
    exact ⟨w.harbor, rfl, fun _ => ⟨r, robot, hc, ⟨hgrants, hdescription, hexpires⟩,
      ⟨rfl, rfl, rfl⟩, rfl, rfl⟩⟩

theorem wp_enable (hmay : PassCalls may) {found : Option Secret} {now : Int} {r : StoredRobot} {robot : Robot}
    (hc : w.harbor.Chosen c name r robot) (hcrd : CrdPermissions ha.spec.permissions)
    (hsecret : w.secret c.ns (RobotSecret.name ha.key.ns ha.key.name) = none) :
    (enable robot (robotDescription c.clusterName ha.key.ns ha.key.name) ha.spec.permissions
      now).run.Wp (quiet may) (fun res w' => Frame w w' ∧
        ∀ hand, res = .ok hand → ∃ r robot, Renewed c ha name found now hand w' r robot) w := by
  unfold enable
  refine wp_attempt_seq (wp_quiet_refresh hmay hc) (fun password w₁ h => ?_) fun _ w₁ h => ?_
  · obtain ⟨h₁, rfl, hrefresh⟩ := h
    obtain ⟨hne, hc₁⟩ := hrefresh password rfl
    refine wp_attempt_seq (wp_quiet_update (w := { w with harbor := h₁ }) hmay hc₁ hcrd
      { robot with disabled := false } rfl rfl) (fun _ w₂ h => ?_) fun _ w₂ h => ?_
    · obtain ⟨h₂, rfl, hupdate⟩ := h
      obtain ⟨r', robot', hc₂, haligned, hsame, -, hpassword⟩ := hupdate rfl
      refine ⟨⟨rfl, rfl⟩, fun hand hres => ?_⟩
      obtain rfl := Except.ok.inj hres
      exact ⟨r', robot', hc₂, haligned, ⟨hsame.id, hsame.wireName, hsame.disabled⟩, hsecret,
        .inl ⟨hne, rfl, hpassword⟩⟩
    · obtain ⟨h₂, rfl, -⟩ := h
      exact ⟨⟨rfl, rfl⟩, nofun⟩
  · obtain ⟨h₁, rfl, -⟩ := h
    exact ⟨⟨rfl, rfl⟩, nofun⟩

/-! ## Secrets -/

theorem secret_name {ns name : GoString} {s : Secret} (h : w.secret ns name = some s) :
    s.ns = ns ∧ s.name = name := by
  have hfound := List.find?_some h
  exact of_decide_eq_true hfound

theorem secret_putSecret_none (w : Site) (ns name : GoString) :
    (w.putSecret ns name none).secret ns name = none := by
  refine List.find?_eq_none.mpr fun s hs hname => ?_
  obtain ⟨t, -, hts⟩ := List.mem_filterMap.mp hs
  split_ifs at hts with ht
  obtain rfl := Option.some.inj hts
  exact ht (of_decide_eq_true hname)

theorem secret_putSecret_some {ns name : GoString} {s : Secret} (h : w.secret ns name = some s)
    (new : Secret) (hns : new.ns = ns) (hname : new.name = name) :
    (w.putSecret ns name (some new)).secret ns name = some new := by
  have hex : ∃ t, (w.putSecret ns name (some new)).secret ns name = some t := by
    refine Option.isSome_iff_exists.mp (List.find?_isSome.mpr ⟨new, ?_, decide_eq_true ⟨hns, hname⟩⟩)
    exact List.mem_filterMap.mpr ⟨s, List.mem_of_find?_eq_some h, if_pos (secret_name h)⟩
  obtain ⟨t, ht⟩ := hex
  rw [ht]
  obtain ⟨u, hu, hut⟩ := List.mem_filterMap.mp (List.mem_of_find?_eq_some ht)
  split_ifs at hut with hune
  · exact hut.symm
  · obtain rfl := Option.some.inj hut
    exact absurd (secret_name ht) hune

theorem createSecret_of_free (s : Secret) (hfree : w.secret s.ns s.name = none) :
    ∃ w', w.createSecret s = (.ok (), w') ∧ Frame w w' ∧ w'.harbor = w.harbor ∧
      w'.secret s.ns s.name = some
        { s with uid := formatNat (w.revision + 1), resourceVersion := w.revision + 1 } := by
  unfold createSecret
  rw [hfree]
  refine ⟨_, rfl, ⟨rfl, rfl⟩, rfl, ?_⟩
  unfold secret at hfree ⊢
  rw [List.find?_append, hfree, Option.none_or]
  exact List.find?_cons_of_pos (decide_eq_true ⟨rfl, rfl⟩)

/-- A Secret that is written from the version that is there. -/
theorem updateSecret_of_current (s : Secret) {old : Secret} (hthere : w.secret s.ns s.name = some old)
    (hversion : old.resourceVersion = s.resourceVersion) :
    ∃ w', w.updateSecret s = (.ok (), w') ∧ Frame w w' ∧ w'.harbor = w.harbor ∧
      w'.secret s.ns s.name = some { s with uid := old.uid, resourceVersion := w.revision + 1 } := by
  unfold updateSecret
  rw [hthere]
  dsimp only
  rw [if_pos hversion]
  exact ⟨_, rfl, ⟨rfl, rfl⟩, rfl, secret_putSecret_some hthere _ rfl rfl⟩

theorem wp_quiet_deleteSecret (hmay : PassCalls may) {s : Secret}
    (hsecret : w.secret c.ns (RobotSecret.name ha.key.ns ha.key.name) = some s) :
    (HarborBridge.deleteSecret s).Wp (quiet may) (fun _ w' => Frame w w' ∧ w'.harbor = w.harbor ∧
      w'.secret c.ns (RobotSecret.name ha.key.ns ha.key.name) = none) w := by
  obtain ⟨hns, hname⟩ := secret_name hsecret
  refine wp_kube_bind nofun nofun (hmay _ nofun) ?_
  have hserve : w.serve (.deleteSecret s) = (.ok (), w.putSecret c.ns
      (RobotSecret.name ha.key.ns ha.key.name) none) := by
    simp only [serve, deleteSecret]
    rw [hns, hname, hsecret]
    exact if_pos rfl
  rw [hserve]
  exact ⟨⟨rfl, rfl⟩, rfl, secret_putSecret_none _ _ _⟩

theorem wp_resume (hmay : PassCalls may) {found : Option Secret} {now : Int} {secret : Option Secret}
    {r : StoredRobot} {robot : Robot} (hc : w.harbor.Chosen c name r robot)
    (hcrd : CrdPermissions ha.spec.permissions)
    (hsecret : w.secret c.ns (RobotSecret.name ha.key.ns ha.key.name) = secret) :
    (resume secret robot (robotDescription c.clusterName ha.key.ns ha.key.name) ha.spec.permissions
      now).run.Wp (quiet may) (fun res w' => Frame w w' ∧
        ∀ hand, res = .ok hand → ∃ r robot, Renewed c ha name found now hand w' r robot) w := by
  cases secret with
  | none => exact wp_enable hmay hc hcrd hsecret
  | some s =>
    refine wp_attempt_seq (wp_quiet_deleteSecret hmay hsecret) (fun _ w₁ h => ?_)
      fun _ w₁ h => ⟨h.1, nofun⟩
    obtain ⟨hframe, hharbor, hnone⟩ := h
    refine Prog.wp_mono (fun _ _ h => ⟨hframe.trans h.1, h.2⟩) _ _
      (wp_enable hmay (hharbor ▸ hc) hcrd hnone)

/-- The robot has what the spec asks for, and the pass has a password for the Secret or need
not write one. -/
theorem wp_renew (hmay : PassCalls may) {h₀ : Harbor} {now : Int} {secret : Option Secret}
    {robot : Robot} {created : Bool} (hensured : Ensured c ha name h₀ robot created w.harbor)
    (hcrd : CrdPermissions ha.spec.permissions)
    (hsecret : w.secret c.ns (RobotSecret.name ha.key.ns ha.key.name) = secret) :
    (renew c ha secret name robot created now).run.Wp (quiet may) (fun res w' => Frame w w' ∧
      ∀ hand, res = .ok hand → ∃ r robot, Renewed c ha name secret now hand w' r robot) w := by
  unfold renew
  dsimp only
  cases hensured with
  | new _ r robot' hc haligned hsame hpassword hne =>
    refine ⟨.refl w, fun hand hres => ?_⟩
    obtain rfl := Except.ok.inj hres
    exact ⟨r, robot', hc, haligned, hsame, hsecret, .inl ⟨hne, rfl, hpassword⟩⟩
  | found r hc =>
    rw [if_neg Bool.false_ne_true]
    split_ifs
    · exact wp_resume hmay hc hcrd hsecret
    · refine Prog.wp_run_seq (wp_alignRobot hmay hc hcrd) (fun _ w₁ h => ?_) fun _ w₁ h => ?_
      · obtain ⟨h₁, rfl, haligned⟩ := h
        obtain ⟨r', robot', hc', haligned', hsame, -⟩ := haligned rfl
        exact Prog.wp_mono (fun _ _ h => ⟨⟨h.1.accesses, h.1.clock⟩, h.2⟩) _ _
          (wp_rotate (w := { w with harbor := h₁ }) hmay hc' haligned' hsame hsecret)
      · obtain ⟨h₁, rfl, -⟩ := h
        exact ⟨⟨rfl, rfl⟩, nofun⟩

structure Stored (c : Config) (ha : HarborAccess) (existing : Option Secret) (robot : Robot)
    (password : GoString) (nb : Int) (s : Secret) : Prop where
  labels : RobotSecret.labels c.clusterName ha.key.ns ha.key.name ∪ s.labels = s.labels
  annotations : robotAnnotations robot nb ∪ s.annotations = s.annotations
  data : password ≠ [] ∧ s.data = robotData robot password ∨
    password = [] ∧ ∃ old, existing = some old ∧ s.data = old.data

theorem Stored.congr {existing : Option Secret} {robot robot' : Robot} {password : GoString} {nb : Int}
    {s : Secret} (h : Stored c ha existing robot password nb s) (hsame : SameRobot robot robot') :
    Stored c ha existing robot' password nb s := by
  have hannotations := h.annotations
  have hdata := h.data
  unfold robotAnnotations at hannotations
  unfold robotData at hdata
  rw [hsame.id] at hannotations
  rw [hsame.wireName] at hdata
  exact ⟨h.labels, hannotations, hdata⟩

theorem union_union_self (m m' : StringMap) : m ∪ (m ∪ m') = m ∪ m' := by
  refine Finmap.ext_lookup fun k => ?_
  by_cases hk : k ∈ m
  · rw [Finmap.lookup_union_left hk, Finmap.lookup_union_left hk]
  · rw [Finmap.lookup_union_right hk]

theorem union_self (m : StringMap) : m ∪ m = m := by
  refine Finmap.ext_lookup fun k => ?_
  by_cases hk : k ∈ m
  · rw [Finmap.lookup_union_left hk]
  · rw [Finmap.lookup_union_right hk]

theorem stored_new {robot : Robot} {password : GoString} {nb : Int} (hne : password ≠ [])
    (existing : Option Secret) (uid : GoString) (revision : Nat) :
    Stored c ha existing robot password nb { newRobotSecret c ha robot password nb with
      uid := uid, resourceVersion := revision } :=
  ⟨union_self _, union_self _, .inl ⟨hne, rfl⟩⟩

theorem stored_updated {old : Secret} {robot : Robot} {password : GoString} {nb : Int}
    (uid : GoString) (revision : Nat) :
    Stored c ha (some old) robot password nb { updatedRobotSecret c ha old robot password nb with
      uid := uid, resourceVersion := revision } := by
  refine ⟨union_union_self _ _, union_union_self _ _, ?_⟩
  unfold updatedRobotSecret
  dsimp only
  split_ifs with hnil
  · exact .inr ⟨hnil, old, rfl, rfl⟩
  · exact .inl ⟨hnil, rfl⟩

/-- A write of the robot Secret succeeds, as long as there is something to write. -/
theorem wp_putRobotSecret (hmay : PassCalls may) {existing : Option Secret} {robot : Robot}
    {password : GoString} {nb : Int}
    (hsecret : w.secret c.ns (RobotSecret.name ha.key.ns ha.key.name) = existing) :
    (putRobotSecret c ha existing robot password nb).Wp (quiet may) (fun res w' => Frame w w' ∧
      w'.harbor = w.harbor ∧ (password ≠ [] → res = .ok ()) ∧ (res = .ok () →
        ∃ s, w'.secret c.ns (RobotSecret.name ha.key.ns ha.key.name) = some s ∧
          Stored c ha existing robot password nb s)) w := by
  unfold putRobotSecret
  cases existing with
  | none =>
    dsimp only
    split_ifs with hnil
    · exact ⟨.refl w, rfl, fun hne => absurd hnil hne, nofun⟩
    · refine wp_kube_bind nofun nofun (hmay _ nofun) ?_
      obtain ⟨w', hserve, hframe, hharbor, hstored⟩ :=
        createSecret_of_free (newRobotSecret c ha robot password nb) hsecret
      have hserve : w.serve (.createSecret (newRobotSecret c ha robot password nb)) = (.ok (), w') :=
        hserve
      rw [hserve]
      exact ⟨hframe, hharbor, fun _ => rfl, fun _ => ⟨_, hstored, stored_new hnil none _ _⟩⟩
  | some old =>
    obtain ⟨hns, hname⟩ := secret_name hsecret
    dsimp only
    split_ifs with hsame
    · obtain ⟨hlabels, hannotations, hnil⟩ := hsame
      refine ⟨.refl w, rfl, fun hne => absurd hnil hne, fun _ => ⟨old, hsecret, hlabels, hannotations, ?_⟩⟩
      exact .inr ⟨hnil, old, rfl, rfl⟩
    · refine wp_kube_bind nofun nofun (hmay _ nofun) ?_
      have hthere : w.secret (updatedRobotSecret c ha old robot password nb).ns
          (updatedRobotSecret c ha old robot password nb).name = some old := by
        change w.secret old.ns old.name = some old
        rw [hns, hname, hsecret]
      obtain ⟨w', hserve, hframe, hharbor, hstored⟩ := updateSecret_of_current _ hthere rfl
      have hserve : w.serve (.updateSecret (updatedRobotSecret c ha old robot password nb)) =
          (.ok (), w') := hserve
      rw [hserve]
      refine ⟨hframe, hharbor, fun _ => rfl, fun _ => ⟨_, ?_, stored_updated old.uid (w.revision + 1)⟩⟩
      rw [← hns, ← hname]
      exact hstored

theorem wp_writeRobotSecret (hmay : PassCalls may) {existing : Option Secret} {robot : Robot}
    {password : GoString} {nb : Int}
    (hsecret : w.secret c.ns (RobotSecret.name ha.key.ns ha.key.name) = existing) :
    (writeRobotSecret c ha existing robot password nb).Wp (quiet may) (fun res w' => Frame w w' ∧
      w'.harbor = w.harbor ∧ (res = .ok () →
        ∃ s, w'.secret c.ns (RobotSecret.name ha.key.ns ha.key.name) = some s ∧
          Stored c ha existing robot password nb s)) w := by
  unfold writeRobotSecret
  split_ifs with hnil
  · subst hnil
    exact Prog.wp_mono (fun _ _ h => ⟨h.1, h.2.1, h.2.2.2⟩) _ _ (wp_putRobotSecret hmay hsecret)
  · -- the first attempt succeeds
    refine Prog.wp_seq (P := fun out w' => out.2 = .ok () ∧ Frame w w' ∧ w'.harbor = w.harbor ∧
      ∃ s, w'.secret c.ns (RobotSecret.name ha.key.ns ha.key.name) = some s ∧
        Stored c ha existing robot password nb s) ?_ fun out w' h => ?_
    · refine Prog.wp_seq (wp_putRobotSecret hmay hsecret) fun res w' h => ?_
      obtain ⟨hframe, hharbor, hok, hstored⟩ := h
      obtain rfl := hok hnil
      exact ⟨rfl, hframe, hharbor, hstored rfl⟩
    · obtain ⟨next, res⟩ := out
      obtain ⟨hok, hframe, hharbor, hstored⟩ := h
      dsimp only at hok
      subst hok
      exact ⟨hframe, hharbor, fun _ => hstored⟩

/-! ## Other robots -/

theorem wp_deleteStale (hmay : PassCalls may) {r : StoredRobot} {robot : Robot} (keepID : Int)
    (hkeep : r.id = keepID) (robots : List Robot) (hc : w.harbor.Chosen c name r robot) :
    (deleteStale c ha keepID robots).Wp (quiet may) (fun _ w' =>
      ∃ h', w' = { w with harbor := h' } ∧ h'.Chosen c name r robot) w := by
  induction robots generalizing w with
  | nil => exact ⟨w.harbor, rfl, hc⟩
  | cons stale robots ih =>
    unfold deleteStale
    cases misnamedOf c ha stale with
    | some e => exact ⟨w.harbor, rfl, hc⟩
    | none =>
      dsimp only
      split_ifs with hskip
      · exact ih hc
      · rw [not_or] at hskip
        refine Prog.wp_seq (wp_quiet_onHarbor (Client.wp_delete_serving w.harbor stale.id
          (hmay.harbor _))) fun res w' h => ?_
        obtain ⟨h', rfl, rfl⟩ := h
        have hc' := hc.delete stale.id fun hid => hskip.1 (hid.symm.trans hkeep)
        cases res with
        | error e => exact ⟨_, rfl, hc'⟩
        | ok _ => exact ih (w := { w with harbor := w.harbor.delete stale.id }) hc'

theorem wp_cleanUp (hmay : PassCalls may) {r : StoredRobot} {robot hand : Robot} {created : Bool}
    (hid : hand.id = robot.id) (hc : w.harbor.Chosen c name r robot) :
    (cleanUp c ha hand created).run.Wp (quiet may) (fun _ w' =>
      ∃ h', w' = { w with harbor := h' } ∧ h'.Chosen c name r robot) w := by
  unfold cleanUp
  split_ifs
  · have hstale : (deleteStaleRobots c ha hand.id).Wp (quiet may) (fun _ w' =>
        ∃ h', w' = { w with harbor := h' } ∧ h'.Chosen c name r robot) w := by
      refine Prog.wp_seq (wp_quiet_onHarbor (Harbor.wp_serving
        (Client.wp_list_faulty w.harbor (fun _ _ => hmay.harbor _) none))) fun res w' h => ?_
      obtain ⟨h', rfl, rfl, -⟩ := h
      cases res with
      | error e => exact ⟨w.harbor, rfl, hc⟩
      | ok robots => exact wp_deleteStale hmay hand.id (hc.views.id.symm.trans hid.symm) robots hc
    exact wp_attempt hstale (fun _ _ h => h) fun _ _ h => h
  · exact ⟨w.harbor, rfl, hc⟩

/-! ## The pass up to the status -/

structure Converged (c : Config) (ha : HarborAccess) (name : GoString) (w : Site) (r : StoredRobot)
    (robot : Robot) (s : Secret) (password : GoString) (nb : Int) : Prop where
  chosen : w.harbor.Chosen c name r robot
  aligned : Aligned c ha robot
  enabled : robot.disabled = false
  secret : w.secret c.ns (RobotSecret.name ha.key.ns ha.key.name) = some s
  labels : RobotSecret.labels c.clusterName ha.key.ns ha.key.name ∪ s.labels = s.labels
  annotations : robotAnnotations robot nb ∪ s.annotations = s.annotations
  credentials : RobotSecret.credentials s = some (robot.wireName, password)

/-- The promise that the pass writes is a new one, or comes from the Secret or the status. -/
inductive PromiseFrom (ha : HarborAccess) (secret : Option Secret) (now : Int) : Int → Prop where
  | rotated : PromiseFrom ha secret now (now + passwordRotationInterval)
  | promised (s : Secret) (nb : Int) (hs : secret = some s) (hnb : RobotSecret.rotationNotBefore s = some nb) :
      PromiseFrom ha secret now nb
  | recorded (t : Int) (ht : ha.status.robot.bind (·.lastRotated) = some t) :
      PromiseFrom ha secret now (t + passwordRotationInterval)

theorem ne_nil_of_trimPrefix {s robotPrefix : GoString} (h : trimPrefix s robotPrefix = name)
    (hne : name ≠ []) : s ≠ [] := by
  rintro rfl
  unfold trimPrefix at h
  cases hcut : cutPrefix [] robotPrefix with
  | none =>
    rw [hcut] at h
    exact hne h.symm
  | some rest =>
    rw [hcut] at h
    have hnil := (cutPrefix_eq_some _ _ _).mp hcut
    exact hne (h.symm.trans (List.append_eq_nil_iff.mp hnil.symm).2)

theorem trimPrefix_wireName {h : Harbor} {r : StoredRobot} {robot : Robot} (hv : h.Views c r robot) :
    trimPrefix robot.wireName c.harborRobotPrefix = robot.name := by
  obtain ⟨-, hwire, -, -, -, hname⟩ := fromHarborRobot_some _ _ _ hv.2
  rw [hname, hwire]

theorem wireName_ne_nil {h : Harbor} {r : StoredRobot} {robot : Robot}
    (hc : h.Chosen c name r robot) (hne : name ≠ []) : robot.wireName ≠ [] :=
  ne_nil_of_trimPrefix ((trimPrefix_wireName hc.views).trans hc.named) hne

/-- A Secret that the pass need not rotate holds the robot's name and a password. -/
theorem credentials_of_rotationReason {secret : Option Secret} {robot : Robot} {now : Int}
    (h : rotationReason ha secret robot now = none) :
    ∃ s password, secret = some s ∧ RobotSecret.credentials s = some (robot.wireName, password) := by
  unfold rotationReason at h
  cases secret with
  | none => cases h
  | some s =>
    dsimp only at h
    cases hcred : RobotSecret.credentials s with
    | none =>
      rw [hcred] at h
      cases h
    | some cred =>
      obtain ⟨username, password⟩ := cred
      rw [hcred] at h
      dsimp only at h
      split_ifs at h with hname
      rw [not_ne_iff.mp hname] at hcred
      exact ⟨s, password, rfl, hcred⟩

theorem promiseFrom_kept {secret : Option Secret} {robot : Robot} {now : Int}
    (h : rotationReason ha secret robot now = none) :
    PromiseFrom ha secret now (rotationNotBefore ha secret now none) := by
  obtain ⟨s, password, rfl, hcred⟩ := credentials_of_rotationReason h
  unfold rotationNotBefore
  dsimp only [Option.bind_some]
  cases hnb : RobotSecret.rotationNotBefore s with
  | some nb => exact .promised s nb rfl hnb
  | none =>
    cases ht : ha.status.robot.bind (·.lastRotated) with
    | some t => exact .recorded t ht
    | none =>
      simp only [rotationReason, hcred, hnb, ht] at h
      split_ifs at h

theorem credentials_of_data {s s' : Secret} (h : s.data = s'.data) :
    RobotSecret.credentials s = RobotSecret.credentials s' := by
  unfold RobotSecret.credentials
  rw [h]

theorem credentials_robotData {s : Secret} {robot : Robot} {password : GoString}
    (h : s.data = robotData robot password) (hwire : robot.wireName ≠ []) (hne : password ≠ []) :
    RobotSecret.credentials s = some (robot.wireName, password) := by
  have huser : s.data.get RobotSecret.keyUsername = robot.wireName := by
    rw [h, robotData, RobotSecret.get_insert_of_ne _ _ _ _ (by decide)]
    simp [StringMap.get]
  have hpassword : s.data.get RobotSecret.keyPassword = password := by
    rw [h, robotData, RobotSecret.get_insert]
  unfold RobotSecret.credentials
  rw [huser, hpassword]
  exact if_neg (not_or.mpr ⟨hwire, hne⟩)

theorem wp_clockNow (hmay : PassCalls may) :
    clockNow.Wp (quiet may) (fun t w' => w' = { w with clock := t }) w := by
  refine ⟨hmay _ nofun, fun r w' hs => ?_⟩
  have hserves : w.Serves .now r w' := hs
  cases hserves with
  | now t hle => rfl
  | kube _ _ hnow => exact absurd rfl hnow

/-- A pass that comes to an end has brought the robot and the Secret in line. -/
theorem wp_converge (hmay : PassCalls may) {secret : Option Secret}
    (hprefixed : w.harbor.robotNamePrefix = c.harborRobotPrefix) (hregex : robotNameRegex name = true)
    (hne : name ≠ []) (hcrd : CrdPermissions ha.spec.permissions)
    (hsecret : w.secret c.ns (RobotSecret.name ha.key.ns ha.key.name) = secret) :
    (converge c ha secret name).run.Wp (quiet may) (fun res w' => w'.accesses = w.accesses ∧
      ∀ ready, res = .ok ready → ∃ r robot s password nb,
        Converged c ha name w' r robot s password nb ∧ SameRobot ready.robot robot ∧
        PromiseFrom ha secret w'.clock nb) w := by
  unfold converge
  refine Prog.wp_run_seq (wp_ensureRobot hmay hprefixed hregex hne hcrd) (fun out w₁ h => ?_)
    fun _ w₁ h => ?_
  swap
  · obtain ⟨h₁, rfl, -⟩ := h
    exact ⟨rfl, nofun⟩
  obtain ⟨robot₀, created⟩ := out
  obtain ⟨h₁, rfl, hensured⟩ := h
  have hensured := hensured robot₀ created rfl
  refine wp_lift (wp_clockNow hmay) fun now w₂ h => ?_
  subst h
  refine Prog.wp_run_seq (wp_renew (w := { w with harbor := h₁, clock := now }) hmay hensured hcrd hsecret)
    (fun hand w₃ h => ?_) fun _ w₃ h => ⟨h.1.accesses, nofun⟩
  obtain ⟨hframe₃, hrenewed⟩ := h
  obtain ⟨r, robot, hrenewed⟩ := hrenewed hand rfl
  dsimp only
  refine wp_attempt_seq (wp_writeRobotSecret hmay hrenewed.secret) (fun _ w₄ h => ?_)
    fun _ w₄ h => ⟨h.1.accesses.trans hframe₃.accesses, nofun⟩
  obtain ⟨hframe₄, hharbor₄, hstored⟩ := h
  obtain ⟨s, hs, hstored⟩ := hstored rfl
  have hc₄ : w₄.harbor.Chosen c name r robot := hharbor₄ ▸ hrenewed.chosen
  have haccesses₄ : w₄.accesses = w.accesses := hframe₄.accesses.trans hframe₃.accesses
  have hclock₄ : w₄.clock = now := hframe₄.clock.trans hframe₃.clock
  refine Prog.wp_run_seq (wp_cleanUp hmay hrenewed.same.id hc₄) (fun _ w₅ h => ?_) fun _ w₅ h => ?_
  swap
  · obtain ⟨h₅, rfl, -⟩ := h
    exact ⟨haccesses₄, nofun⟩
  obtain ⟨h₅, rfl, hc₅⟩ := h
  split_ifs with hdisabled
  · exact ⟨haccesses₄, nofun⟩
  refine ⟨haccesses₄, fun ready hready => ?_⟩
  obtain rfl := Except.ok.inj hready
  have hstored := hstored.congr hrenewed.same
  have henabled : robot.disabled = false := hrenewed.same.disabled ▸ Bool.eq_false_of_not_eq_true hdisabled
  have hsame : SameRobot hand.robot robot := hrenewed.same
  rcases hrenewed.password with ⟨hpassword, hrotated, -⟩ | ⟨hpassword, hrotated, hkept, hreason⟩
  · rcases hstored.data with ⟨-, hdata⟩ | ⟨hnil, -⟩
    · refine ⟨r, robot, s, hand.password, _, ⟨hc₅, hrenewed.aligned, henabled, hs, hstored.labels,
        hstored.annotations, credentials_robotData hdata (wireName_ne_nil hc₅ hne) hpassword⟩, hsame, ?_⟩
      rw [hrotated, rotationNotBefore]
      exact hclock₄ ▸ .rotated
    · exact absurd hnil hpassword
  · rcases hstored.data with ⟨hne, -⟩ | ⟨-, old, hold, hdata⟩
    · exact absurd hpassword hne
    · rw [hkept] at hold
      subst hold
      obtain ⟨_, password, hsome, hcred⟩ := credentials_of_rotationReason hreason
      obtain rfl := Option.some.inj hsome
      refine ⟨r, robot, s, password, _, ⟨hc₅, hrenewed.aligned, henabled, hs, hstored.labels,
        hstored.annotations, (credentials_of_data hdata).trans hcred⟩, hsame, ?_⟩
      rw [hrotated, hkept]
      exact hclock₄.symm ▸ promiseFrom_kept hreason

end Site

end HarborBridge
