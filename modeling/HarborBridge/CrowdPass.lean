import HarborBridge.Crowd

/-! The steps of a pass while others act and calls fail, and what a pass that ends in Ready
leaves. -/
namespace HarborBridge

open GoStrings Interaction

namespace Crowd

variable {c : Config} {ha : HarborAccess} {name : GoString} {w v w' : Crowd}

/-! ## The robot -/

section

variable {α : Type}

theorem held_of_page {filter : Option GoString} {idFrom : Int} {payload : List (Option HarborRobot)}
    (hs : (setting c ha name).sem w (.harbor (.listRobot filter idFrom)) (Except.ok payload) w')
    {x : HarborRobot} (hx : x ∈ payload.filterMap id) {robot : Robot}
    (hfrom : fromHarborRobot c.harborRobotPrefix x = some robot) (hname : robot.name = name) :
    ∃ r, Held c name robot r w' ∧ w'.site.harbor.Views c r robot := by
  obtain ⟨v, site, -, hf, -, rfl⟩ := hs
  obtain ⟨h, rfl, hserved⟩ := hf.of_harbor
  obtain ⟨rfl, rfl⟩ := hserved.of_listRobot
  obtain ⟨r, hr, -, rfl⟩ := Harbor.page_report _ _ _ _ hx
  have hv : v.site.harbor.Views c r robot := ⟨hr, hfrom⟩
  obtain ⟨hid, hwire, -, hdisabled, -⟩ := fromHarborRobot_some _ _ _ hfrom
  refine ⟨r, ⟨hr, ?_, hid, hwire, hdisabled, (Site.trimPrefix_wireName hv).trans hname⟩, hv⟩
  refine List.mem_append_left _ (List.mem_map.mpr ⟨_, List.mem_filter.mpr ⟨hx, ?_⟩, rfl⟩)
  rw [hfrom]
  exact decide_eq_true hname

/-- A robot of the name that a listing returns is in Harbor. -/
theorem wp_list (filter : Option GoString) :
    (Client.list c.harborRobotPrefix filter).Wp (harborPart (setting c ha name)) (fun res w' =>
      ∀ robots, res = .ok robots → ∀ robot ∈ robots, robot.name = name →
        ∃ r, Held c name robot r w' ∧ w'.site.harbor.Views c r robot) w := by
  refine Prog.wp_mono (fun _ _ h => h.2) _ _ (Client.wp_list_seen c.harborRobotPrefix
    (fun robot w => robot.name = name → ∃ r, Held c name robot r w ∧ w.site.harbor.Views c r robot)
    (fun _ => True) filter (fun _ _ => trivial) (fun w idFrom res w' hs => ⟨fun _ => trivial, ?_⟩)
    (fun w idFrom payload w' x robot hs hx hfrom => held_of_page hs hx hfrom) w trivial)
  intro robot hseen hname
  obtain ⟨r, hheld, hv⟩ := hseen hname
  have hheld' : Held c name robot r w' := hheld.step hs fun request heq => by cases heq; trivial
  exact ⟨r, hheld', hv.congr hheld'.mem (sem_robotNamePrefix hs)⟩

theorem wp_getByName :
    (Client.getByName c.harborRobotPrefix name).Wp (harborPart (setting c ha name)) (fun res w' =>
      ∀ robot, res = .ok robot → ∃ r, Held c name robot r w' ∧ w'.site.harbor.Views c r robot) w := by
  have hmatch : ∀ robots (v : Crowd), (∀ robot ∈ robots, robot.name = name →
      ∃ r, Held c name robot r v ∧ v.site.harbor.Views c r robot) → ∀ robot,
      Client.matchName robots name = some robot →
      ∃ r, Held c name robot r v ∧ v.site.harbor.Views c r robot := by
    intro robots v hseen robot hmatch
    obtain ⟨hmem, hname⟩ := Client.matchName_eq_some robots name robot hmatch
    exact hseen robot hmem hname
  refine Prog.wp_seq (wp_list (some name)) fun res w₁ h₁ => ?_
  cases res with
  | error e => exact nofun
  | ok robots =>
    dsimp only
    split
    · next robot hfound =>
      intro robot' hres
      obtain rfl := Except.ok.inj hres
      exact hmatch robots w₁ (h₁ robots rfl) robot hfound
    · refine Prog.wp_seq (Prog.wp_trivial (fun _ _ => trivial) _ w₁) fun res w₂ _ => ?_
      cases res with
      | some e => exact nofun
      | none =>
        refine Prog.wp_seq (wp_list none) fun res w₃ h₃ => ?_
        cases res with
        | error e => exact nofun
        | ok robots =>
          dsimp only
          split
          · next robot hfound =>
            intro robot' hres
            obtain rfl := Except.ok.inj hres
            exact hmatch robots w₃ (h₃ robots rfl) robot hfound
          · exact nofun

theorem wp_create (hprefixed : w.site.harbor.robotNamePrefix = c.harborRobotPrefix)
    (description : GoString) (perms : List ProjectPermission) :
    (Client.create c.harborRobotPrefix name description perms).Wp (harborPart (setting c ha name))
      (fun res w' => ∀ robot, res = .ok robot → robot.secret ≠ [] ∧
        ∃ r, Held c name robot r w' ∧ r.password = robot.secret) w := by
  unfold Client.create
  split_ifs with hvalid
  · exact nofun
  · simp only [Sdk.createRobot_bind]
    refine ⟨trivial, fun res w' hs => ?_⟩
    rcases res with e | _ | payload
    · exact nofun
    · exact nofun
    · dsimp only
      split_ifs with hsecret hexpected
      · exact nofun
      · intro robot hres
        obtain rfl := Except.ok.inj hres
        obtain ⟨v, site, hothers, hf, -, rfl⟩ := hs
        obtain ⟨h, rfl, hserved⟩ := hf.of_harbor
        obtain ⟨hid, hpid, -, rfl⟩ := hserved.of_createRobot
        refine ⟨hsecret, _, ⟨(Harbor.mem_create hid).mpr (.inr rfl), ?_, hpid, ?_, rfl,
          trimPrefix_append _ _⟩, rfl⟩
        · exact List.mem_cons.mpr (.inl hpid.symm)
        · change c.harborRobotPrefix ++ name = v.site.harbor.robotNamePrefix ++ name
          rw [hothers.robotNamePrefix, hprefixed]
      · refine Prog.wp_seq (Prog.wp_trivial (fun _ _ => trivial) _ _) fun res _ _ => ?_
        cases res <;> exact nofun

structure Informed (c : Config) (ha copy : HarborAccess) (secret : Option Secret) (P : Prop) (w : Crowd) :
    Prop where
  steady : Steady c ha copy w
  read : ReadAs c ha.key secret P w

theorem Informed.harbor {copy : HarborAccess} {secret : Option Secret} {P : Prop}
    (hw : Informed c ha copy secret P w) {request : HarborCall} {res : HarborAnswer request}
    (hs : (setting c ha name).sem w (.harbor request) res w') : Informed c ha copy secret P w' :=
  ⟨hw.steady.step hs id, hw.read.step hs id⟩

variable {copy : HarborAccess} {secret : Option Secret} {P : Prop}

theorem wp_harbor {I : Crowd → Prop}
    (hI : ∀ w request res w', I w → (setting c ha name).sem w (.harbor request) res w' → I w')
    {p : HarborProg α} {Q : α → Crowd → Prop} (hw : I w)
    (hp : p.Wp (harborPart (setting c ha name)) Q w) :
    (onHarbor p).Wp (setting c ha name) (fun a w' => Q a w' ∧ I w') w :=
  wp_onHarbor (Prog.wp_and _ _ hp (Prog.wp_always (fun _ _ => trivial) I
    (fun w request res w' hw hs => hI w request res w' hw hs) p w hw))

theorem wp_informed {p : HarborProg α} {Q : α → Crowd → Prop} (hw : Informed c ha copy secret P w)
    (hp : p.Wp (harborPart (setting c ha name)) Q w) : (onHarbor p).Wp (setting c ha name)
      (fun a w' => Q a w' ∧ Informed c ha copy secret P w') w :=
  wp_harbor (fun _ _ _ _ hw hs => hw.harbor hs) hw hp

inductive Ensured (c : Config) (name : GoString) (robot : Robot) (w : Crowd) : Bool → Prop where
  | found (r : StoredRobot) (hheld : Held c name robot r w) (hv : w.site.harbor.Views c r robot) :
      Ensured c name robot w false
  | new (r : StoredRobot) (hheld : Held c name robot r w) (hpassword : r.password = robot.secret)
      (hne : robot.secret ≠ []) : Ensured c name robot w true

theorem wp_ensureRobot (hw : Informed c ha copy secret P w) (description : GoString)
    (perms : List ProjectPermission) :
    (ensureRobot c copy name description perms).run.Wp (setting c ha name) (fun res w' =>
      Informed c ha copy secret P w' ∧
        ∀ robot created, res = .ok (robot, created) → Ensured c name robot w' created) w := by
  have hadopt : ∀ robot r (v : Crowd), Informed c ha copy secret P v → Held c name robot r v →
      v.site.harbor.Views c r robot →
      (ensureRobot.adopt c copy robot).run.Wp (setting c ha name) (fun res w' =>
        Informed c ha copy secret P w' ∧
          ∀ robot created, res = .ok (robot, created) → Ensured c name robot w' created) v := by
    intro robot r v hv hheld hview
    have hok : Informed c ha copy secret P v ∧ ∀ robot' created,
        (Except.ok (robot, false) : Except Ended _) = .ok (robot', created) →
          Ensured c name robot' v created := by
      refine ⟨hv, fun robot' created hres => ?_⟩
      obtain ⟨rfl, rfl⟩ := Prod.mk.inj (Except.ok.inj hres)
      exact .found r hheld hview
    unfold ensureRobot.adopt
    split_ifs
    · exact ⟨hv, nofun⟩
    · split
      · split_ifs
        · exact hok
        · exact ⟨hv, nofun⟩
      · exact hok
  unfold ensureRobot
  refine wp_lift (wp_informed hw wp_getByName) fun res w₁ h => ?_
  obtain ⟨hfound, hw₁⟩ := h
  split
  · next existing =>
    obtain ⟨r, hheld, hview⟩ := hfound existing rfl
    exact hadopt existing r w₁ hw₁ hheld hview
  · refine wp_lift (wp_informed hw₁ (wp_create hw₁.steady.prefixed _ _)) fun res w₂ h => ?_
    obtain ⟨hcreated, hw₂⟩ := h
    cases res with
    | ok robot =>
      refine ⟨hw₂, fun robot' created hres => ?_⟩
      obtain ⟨rfl, rfl⟩ := Prod.mk.inj (Except.ok.inj hres)
      obtain ⟨hne, r, hheld, hpassword⟩ := hcreated robot rfl
      exact .new r hheld hpassword hne
    | error e =>
      dsimp only
      split_ifs
      · exact ⟨hw₂, nofun⟩
      · -- someone else has created the robot since the lookup, or Harbor answers as if
        refine wp_attempt_seq (wp_informed hw₂ wp_getByName) (fun existing w₃ h => ?_) fun _ w₃ h => ?_
        · obtain ⟨r, hheld, hview⟩ := h.1 existing rfl
          exact hadopt existing r w₃ h.2 hheld hview
        · exact ⟨h.2, nofun⟩
  · exact ⟨hw₁, nofun⟩

/-- If nothing speaks for a rotation then the Secret that the pass has read holds the password. -/
def Keeps (ha : HarborAccess) (secret : Option Secret) (robot : Robot) (now : Int) (password : GoString) :
    Prop :=
  ∀ s, secret = some s → rotationReason ha (some s) robot now = none →
    ∃ username, RobotSecret.credentials s = some (username, password)

structure Timed (c : Config) (ha copy : HarborAccess) (name : GoString) (secret : Option Secret)
    (robot : Robot) (created : Bool) (now : Int) (r : StoredRobot) (w : Crowd) : Prop where
  held : Held c name robot r w
  informed : Informed c ha copy secret (created = false → Keeps ha secret robot now r.password) w
  new : created = true → r.password = robot.secret ∧ robot.secret ≠ []

theorem wp_clockNow {robot : Robot} {created : Bool} (hw : Informed c ha copy secret True w)
    (hensured : Ensured c name robot w created) :
    clockNow.Wp (setting c ha name) (fun now w' =>
      ∃ r, Timed c ha copy name secret robot created now r w') w := by
  refine ⟨trivial, fun now w' hs => ?_⟩
  have hsteady : Steady c ha copy w' := hw.steady.step hs id
  have hread : ReadAs c ha.key secret True w' := hw.read.step hs id
  cases hensured with
  | new r hheld hpassword hne =>
    exact ⟨r, hheld.step hs nofun, ⟨hsteady, hread.imp fun _ => nofun⟩, fun _ => ⟨hpassword, hne⟩⟩
  | found r hheld hview =>
    have hheld' : Held c name robot r w' := hheld.step hs nofun
    refine ⟨r, hheld', ⟨hsteady, ?_⟩, nofun⟩
    -- the stored Secret, if it is the one that was read, holds the password of the robot
    have hkeeps : w'.stored c ha.key = secret → Keeps ha secret robot now r.password := by
      intro hstored s hsome hreason
      obtain ⟨v, site, hothers, hf, hkept, rfl⟩ := hs
      have hf : v.site.Faulty .now now site := hf
      have hview' : v.site.harbor.Views c r robot :=
        hview.congr (hothers.robots r hheld.mem hheld.shown) hothers.robotNamePrefix
      cases hf with
      | now _ hle => exact hkept rfl s r robot now (hstored.trans hsome) hview' hle hreason
      | served _ _ hnow => exact absurd rfl hnow
      | failed _ _ hr => exact hr.elim
      | lost _ _ hr => exact hr.elim
    refine ⟨hread.place, hread.version, fun s l hsome hl hversion => ?_, fun hd => ?_⟩
    · obtain ⟨rfl, -⟩ := hread.current s l hsome hl hversion
      exact ⟨rfl, fun _ => hkeeps (hl.trans hsome.symm)⟩
    · have hstored := (hread.still hd).1
      exact ⟨hstored, fun _ => hkeeps hstored⟩

theorem Held.others {key : ObjectKey} {robot : Robot} {r : StoredRobot} (hw : Held c name robot r w)
    (hothers : Others c key w v) : Held c name robot r v := by
  refine ⟨hothers.robots r hw.mem hw.shown, hothers.shown ▸ hw.shown, hw.id, ?_, hw.disabled, hw.named⟩
  rw [hw.wireName]
  unfold Harbor.wireName
  rw [hothers.robotNamePrefix]

theorem Held.modify {robot current : Robot} {r : StoredRobot} (hw : Held c name robot r w)
    (f : StoredRobot → StoredRobot) (hf : ∀ r, (f r).id = r.id) (passwords : List GoString)
    (hp : ∀ r, (f r).password = r.password ∨ (f r).password ∈ passwords) (hname : (f r).name = r.name)
    (hedit : (f r).editable = r.editable) (hid : current.id = robot.id)
    (hwire : current.wireName = robot.wireName) (hdisabled : current.disabled = (f r).disable) :
    Held c name current (f r)
      { w with site := { w.site with harbor := w.site.harbor.modify robot.id f hf passwords hp } } := by
  refine ⟨List.mem_map.mpr ⟨r, hw.mem, if_pos hw.id.symm⟩, (hf r).symm ▸ hw.shown,
    (hid.trans hw.id).trans (hf r).symm, ?_, hdisabled, hwire.symm ▸ hw.named⟩
  rw [hwire, hw.wireName]
  unfold Harbor.wireName
  rw [hname, hedit]
  rfl

theorem wp_refresh {robot : Robot} {r : StoredRobot} (hheld : Held c name robot r w) :
    (Client.refreshSecret robot.id).Wp (harborPart (setting c ha name)) (fun res w' =>
      ∀ password, res = .ok password → password ≠ [] ∧
        Held c name robot { r with password := password } w') w := by
  simp only [Client.refreshSecret, Sdk.refreshSec_bind]
  refine ⟨trivial, fun res w' hs => ?_⟩
  rcases res with e | _ | password
  · rintro _ ⟨⟩
  · rintro _ ⟨⟩
  · dsimp only
    split_ifs with hempty
    · rintro _ ⟨⟩
    · intro password' hres
      obtain rfl := Except.ok.inj hres
      obtain ⟨v, site, hothers, hf, -, rfl⟩ := hs
      obtain ⟨h, rfl, hserved⟩ := hf.of_harbor
      obtain ⟨-, -, rfl⟩ := hserved.of_refreshSec
      exact ⟨hempty, (hheld.others hothers).modify (fun r => { r with password := password })
        (fun _ => rfl) [password] (fun _ => .inr List.mem_cons_self) rfl rfl rfl rfl hheld.disabled⟩

theorem wp_update {robot : Robot} {r : StoredRobot} (hheld : Held c name robot r w) (current : Robot)
    (hid : current.id = robot.id) (hwire : current.wireName = robot.wireName) (description : GoString)
    (perms : List ProjectPermission) :
    (Client.update current description perms).Wp (harborPart (setting c ha name)) (fun res w' =>
      res = .ok () → ∃ r', Held c name current r' w' ∧ r'.password = r.password) w := by
  unfold Client.update
  split_ifs
  · exact nofun
  · exact nofun
  · simp only [Sdk.updateRobot_bind]
    refine ⟨trivial, fun res w' hs => ?_⟩
    rcases res with e | _
    · exact nofun
    · intro _
      obtain ⟨v, site, hothers, hf, -, rfl⟩ := hs
      obtain ⟨h, rfl, hserved⟩ := hf.of_harbor
      obtain rfl := hserved.of_updateRobot
      rw [hid]
      exact ⟨_, (hheld.others hothers).modify (Harbor.updated ⟨robot.id, current.wireName, description,
        robotDurationNeverExpires, current.disabled, toHarborPermissions perms⟩) (fun _ => rfl) []
        (fun _ => .inl rfl) rfl rfl hid hwire rfl, rfl⟩

/-- What the pass has in hand to write the Secret with: a new password, or the Secret as it is. -/
inductive Renewed (c : Config) (key : ObjectKey) (hand : InHand) (r : StoredRobot) (w : Crowd) : Prop where
  | set (hpassword : r.password = hand.password) (hne : hand.password ≠ [])
      (hplace : ∀ s, hand.secret = some s → s.ns = c.ns ∧ s.name = RobotSecret.name key.ns key.name)
  | kept (s : Secret) (hnil : hand.password = []) (hsecret : hand.secret = some s)
      (hread : ReadAs c key (some s) (RobotSecret.credentials s = some (hand.robot.wireName, r.password)) w)

structure Settled (c : Config) (ha copy : HarborAccess) (name : GoString) (hand : InHand) (w : Crowd) :
    Prop where
  steady : Steady c ha copy w
  robot : ∃ r, Held c name hand.robot r w ∧ Renewed c ha.key hand r w

theorem wp_rotate {robot : Robot} {r : StoredRobot} {now : Int} (hheld : Held c name robot r w)
    (hw : Informed c ha copy secret (Keeps copy secret robot now r.password) w) (robotName : GoString) :
    (rotate copy secret robot robotName now).run.Wp (setting c ha name) (fun res w' =>
      ∀ hand, res = .ok hand → Settled c ha copy name hand w') w := by
  unfold rotate
  cases hreason : rotationReason copy secret robot now with
  | none =>
    intro hand hres
    obtain rfl := Except.ok.inj hres
    obtain ⟨s, password, rfl, hcred⟩ := Site.credentials_of_rotationReason hreason
    refine ⟨hw.steady, r, hheld, .kept s rfl rfl (hw.read.imp fun hkeeps => ?_)⟩
    obtain ⟨username, hcred'⟩ := hkeeps s rfl hreason
    have heq := Prod.mk.inj (Option.some.inj (hcred.symm.trans hcred'))
    rw [hcred, heq.2]
  | some why =>
    refine wp_lift (P := fun _ w' => Held c name robot r w' ∧ Informed c ha copy secret _ w')
      ⟨trivial, fun _ w' hs => ⟨hheld.step hs nofun, hw.steady.step hs id, hw.read.step hs id⟩⟩
      fun _ w₁ h => ?_
    refine wp_attempt_seq (wp_informed h.2 (wp_refresh h.1)) (fun password w₂ h => ?_)
      fun _ _ _ => nofun
    obtain ⟨hrefresh, hw₂⟩ := h
    obtain ⟨hne, hheld₂⟩ := hrefresh password rfl
    intro hand hres
    obtain rfl := Except.ok.inj hres
    exact ⟨hw₂.steady, _, hheld₂, .set rfl hne hw₂.read.place⟩

theorem wp_alignRobot {robot : Robot} {r : StoredRobot} (hheld : Held c name robot r w)
    (hw : Informed c ha copy secret P w) (description : GoString) (perms : List ProjectPermission) :
    (alignRobot robot description perms).run.Wp (setting c ha name) (fun res w' =>
      res = .ok () → ∃ r', Held c name robot r' w' ∧ r'.password = r.password ∧
        Informed c ha copy secret P w') w := by
  unfold alignRobot
  split_ifs
  · refine wp_attempt (wp_informed hw (wp_update hheld robot rfl rfl _ _)) (fun _ w' h _ => ?_) fun _ _ _ => nofun
    obtain ⟨r', hheld', hpassword⟩ := h.1 rfl
    exact ⟨r', hheld', hpassword, h.2⟩
  · exact fun _ => ⟨r, hheld, rfl, hw⟩

theorem wp_enable {robot : Robot} {r : StoredRobot} {now : Int} (hheld : Held c name robot r w)
    (hw : Steady c ha copy w) (description : GoString) (perms : List ProjectPermission) :
    (enable robot description perms now).run.Wp (setting c ha name) (fun res w' =>
      ∀ hand, res = .ok hand → Settled c ha copy name hand w') w := by
  unfold enable
  refine wp_attempt_seq (wp_harbor (fun _ _ _ _ hw hs => hw.step hs id) hw (wp_refresh hheld))
    (fun password w₁ h => ?_) fun _ _ _ => nofun
  obtain ⟨hrefresh, hw₁⟩ := h
  obtain ⟨hne, hheld₁⟩ := hrefresh password rfl
  refine wp_attempt_seq (wp_harbor (fun _ _ _ _ hw hs => hw.step hs id) hw₁
    (wp_update hheld₁ { robot with disabled := false } rfl rfl _ _)) (fun _ w₂ h => ?_)
    fun _ _ _ => nofun
  obtain ⟨hupdate, hw₂⟩ := h
  obtain ⟨r', hheld₂, hpassword⟩ := hupdate rfl
  intro hand hres
  obtain rfl := Except.ok.inj hres
  refine ⟨hw₂, r', ⟨hheld₂.mem, hheld₂.shown, hheld₂.id, hheld₂.wireName, hheld₂.disabled, hheld₂.named⟩,
    .set hpassword hne nofun⟩

theorem wp_resume {robot : Robot} {r : StoredRobot} {now : Int} (hheld : Held c name robot r w)
    (hw : Steady c ha copy w) (secret : Option Secret) (description : GoString)
    (perms : List ProjectPermission) :
    (resume secret robot description perms now).run.Wp (setting c ha name) (fun res w' =>
      ∀ hand, res = .ok hand → Settled c ha copy name hand w') w := by
  cases secret with
  | none => exact wp_enable hheld hw _ _
  | some s =>
    have hdeleted : (deleteSecret s).Wp (setting c ha name)
        (fun _ w' => Held c name robot r w' ∧ Steady c ha copy w') w := by
      refine Prog.wp_seq (P := fun _ w' => Held c name robot r w' ∧ Steady c ha copy w')
        ⟨trivial, fun _ w' hs => ⟨hheld.step hs nofun, hw.step hs id⟩⟩ fun res w' h => ?_
      split <;> exact h
    exact wp_attempt_seq hdeleted (fun _ w₁ h => wp_enable h.1 h.2 _ _) fun _ _ _ => nofun

/-- The pass has the robot as Harbor keeps it, and its password or the Secret with it. -/
theorem wp_renew {robot : Robot} {created : Bool} {now : Int} {r : StoredRobot}
    (hstatus : copy.status = ha.status) (ht : Timed c ha copy name secret robot created now r w)
    (robotName : GoString) :
    (renew c copy secret robotName robot created now).run.Wp (setting c ha name) (fun res w' =>
      ∀ hand, res = .ok hand → Settled c ha copy name hand w') w := by
  unfold renew
  dsimp only
  cases created with
  | true =>
    intro hand hres
    obtain rfl := Except.ok.inj hres
    obtain ⟨hpassword, hne⟩ := ht.new rfl
    exact ⟨ht.informed.steady, r, ht.held, .set hpassword hne ht.informed.read.place⟩
  | false =>
    rw [if_neg Bool.false_ne_true]
    split_ifs
    · exact wp_resume ht.held ht.informed.steady _ _ _
    · refine Prog.wp_run_seq (wp_alignRobot ht.held ht.informed _ _) (fun _ w₁ h => ?_)
        fun _ _ _ => nofun
      obtain ⟨r', hheld, hpassword, hw₁⟩ := h rfl
      refine wp_rotate hheld ⟨hw₁.steady, hw₁.read.imp fun hkeeps s hsome hreason => ?_⟩ _
      rw [hpassword]
      refine hkeeps rfl s hsome ?_
      unfold rotationReason recordsOtherRobot at hreason ⊢
      rwa [hstatus] at hreason

end

/-! ## The Secret -/

variable {copy : HarborAccess}

theorem found_injective {α : Type} {a b : Option α} (h : Kube.found a = Kube.found b) : a = b := by
  cases a <;> cases b
  · rfl
  · cases h
  · cases h
  · rw [Except.ok.inj h]

/-- A read that succeeds, or that reports that there is no Secret, tells what is stored. -/
theorem readAs_of_found (hw : Steady c ha copy w) {secret : Option Secret}
    {res : Answer (.readSecret c.ns (RobotSecret.name ha.key.ns ha.key.name))}
    (hs : (setting c ha name).sem w (.readSecret c.ns (RobotSecret.name ha.key.ns ha.key.name)) res w')
    (hres : res = Kube.found secret) : ReadAs c ha.key secret True w' := by
  have hsteady : Steady c ha copy w' := hw.step hs id
  have hstored : w'.stored c ha.key = secret := by
    obtain ⟨v, site, -, hf, -, rfl⟩ := hs
    rcases hf.kube nofun nofun with ⟨hserved, rfl⟩ | ⟨⟨e, hne, hfailed⟩, -⟩
    · unfold stored
      rw [told_site]
      exact found_injective (hserved.symm.trans hres)
    · rw [hfailed] at hres
      cases secret with
      | none => exact absurd (Except.error.inj hres) hne
      | some s => cases hres
  refine ⟨fun s hsome => Site.secret_name (hstored.trans hsome),
    fun s hsome => hsteady.versioned s (List.mem_of_find?_eq_some (hstored.trans hsome)),
    fun s l hsome hl _ => ⟨?_, trivial⟩, fun _ => ⟨hstored, trivial⟩⟩
  exact Option.some.inj ((hl.symm.trans hstored).trans hsome)

theorem wp_getRobotSecret (hw : Steady c ha copy w) (hkey : copy.key = ha.key) :
    (getRobotSecret c copy).Wp (setting c ha name) (fun res w' => Steady c ha copy w' ∧
      (∀ robot r, Held c name robot r w → Held c name robot r w') ∧
      ∀ secret, res = .ok secret → ReadAs c ha.key secret True w') w := by
  unfold getRobotSecret
  rw [hkey]
  refine Prog.wp_seq (P := fun res w' => Steady c ha copy w' ∧
    (∀ robot r, Held c name robot r w → Held c name robot r w') ∧
    ∀ secret, res = Kube.found secret → ReadAs c ha.key secret True w')
    ⟨trivial, fun res w' hs => ⟨hw.step hs id, fun _ _ h => h.step hs nofun,
      fun secret => readAs_of_found hw hs⟩⟩ fun res w' h => ?_
  obtain ⟨hsteady, hheld, hread⟩ := h
  split
  · next s =>
    refine ⟨hsteady, hheld, fun secret hres => ?_⟩
    obtain rfl := Except.ok.inj hres
    exact hread (some s) rfl
  · refine ⟨hsteady, hheld, fun secret hres => ?_⟩
    obtain rfl := Except.ok.inj hres
    exact hread none rfl
  · exact ⟨hsteady, hheld, nofun⟩

theorem delivered_of_stored {robot : Robot} {r : StoredRobot} {existing : Option Secret}
    {password : GoString} {nb : Int} {s : Secret} (hkey : copy.key = ha.key)
    (hstored : w.stored c ha.key = some s) (hs : Site.Stored c copy existing robot password nb s)
    (hcred : RobotSecret.credentials s = some (robot.wireName, r.password)) :
    Delivered c ha.key robot r w := by
  intro _
  have hlabels := hs.labels
  rw [hkey] at hlabels
  obtain ⟨hmanaged, -, hns, hname⟩ := Site.stamped_of_labels hlabels
  exact ⟨s, hstored, hmanaged, by simp [RobotSecret.stampedForOther, hns, hname], hcred⟩

/-- A creation that succeeds has stored the Secret. -/
theorem stored_of_create {s : Secret} (hs : (setting c ha name).sem w (.createSecret s) (Except.ok ()) w')
    (hplace : s.ns = c.ns ∧ s.name = RobotSecret.name ha.key.ns ha.key.name) :
    ∃ uid revision, w'.stored c ha.key = some { s with uid := uid, resourceVersion := revision } := by
  obtain ⟨v, site, -, hf, -, rfl⟩ := hs
  rcases hf.kube nofun nofun with ⟨hserved, rfl⟩ | ⟨⟨e, -, hfailed⟩, -⟩
  · have hfree : v.site.secret s.ns s.name = none := by
      have hok : (v.site.createSecret s).1 = .ok () := hserved.symm
      unfold Site.createSecret at hok
      split at hok
      · cases hok
      · assumption
    obtain ⟨site, hcreated, -, -, hstored⟩ := Site.createSecret_of_free s hfree
    refine ⟨_, _, Eq.trans ?_ hstored⟩
    change (v.site.createSecret s).2.secret c.ns (RobotSecret.name ha.key.ns ha.key.name) = _
    rw [hcreated, hplace.1, hplace.2]
  · cases hfailed

/-- An update that succeeds was made from the version that was there, and has stored the Secret. -/
theorem stored_of_update {s : Secret} (hs : (setting c ha name).sem w (.updateSecret s) (Except.ok ()) w')
    (hplace : s.ns = c.ns ∧ s.name = RobotSecret.name ha.key.ns ha.key.name) :
    (∃ uid revision, w'.stored c ha.key = some { s with uid := uid, resourceVersion := revision }) ∧
      ∃ l, l.resourceVersion = s.resourceVersion ∧
        (w.stored c ha.key = some l ∨ w.site.revision < l.resourceVersion) := by
  obtain ⟨v, site, hothers, hf, -, rfl⟩ := hs
  rcases hf.kube nofun nofun with ⟨hserved, rfl⟩ | ⟨⟨e, -, hfailed⟩, -⟩
  · have hthere : ∃ l, v.site.secret s.ns s.name = some l ∧ l.resourceVersion = s.resourceVersion := by
      have hok : (v.site.updateSecret s).1 = .ok () := hserved.symm
      unfold Site.updateSecret at hok
      split at hok
      · cases hok
      · next l hl =>
        split_ifs at hok with hversion
        exact ⟨l, hl, hversion⟩
    obtain ⟨l, hl, hversion⟩ := hthere
    obtain ⟨site, hupdated, -, -, hstored⟩ := Site.updateSecret_of_current s hl hversion
    rw [hplace.1, hplace.2] at hl
    refine ⟨⟨_, _, Eq.trans ?_ hstored⟩, l, hversion, hothers.secret l hl⟩
    change (v.site.updateSecret s).2.secret c.ns (RobotSecret.name ha.key.ns ha.key.name) = _
    rw [hupdated, hplace.1, hplace.2]
  · cases hfailed

/-- A write of the Secret that succeeds leaves it with the robot's name and password. -/
theorem wp_putRobotSecret (hand : InHand) {r : StoredRobot} (hheld : Held c name hand.robot r w)
    (hw : Steady c ha copy w) (hkey : copy.key = ha.key) (hne : name ≠ [])
    (hrenewed : Renewed c ha.key hand r w) (nb : Int) :
    (putRobotSecret c copy hand.secret hand.robot hand.password nb).Wp (setting c ha name) (fun res w' =>
      Held c name hand.robot r w' ∧ Steady c ha copy w' ∧
        (res = .ok () → Delivered c ha.key hand.robot r w')) w := by
  obtain ⟨robot, secret, password, rotatedAt⟩ := hand
  have hwire : robot.wireName ≠ [] := Site.ne_nil_of_trimPrefix hheld.named hne
  unfold putRobotSecret
  dsimp only at hheld ⊢
  cases secret with
  | none =>
    cases hrenewed with
    | kept s hnil hsecret => cases hsecret
    | set hpassword hset hplace =>
      dsimp only at hpassword hset ⊢
      rw [if_neg hset]
      refine ⟨trivial, fun res w' hs => ?_⟩
      have hheld' : Held c name robot r w' := hheld.step hs nofun
      have hsteady' : Steady c ha copy w' := hw.step hs id
      match res with
      | Except.error e => exact ⟨hheld', hsteady', nofun⟩
      | Except.ok () =>
        refine ⟨hheld', hsteady', fun _ => ?_⟩
        obtain ⟨uid, revision, hstored⟩ := stored_of_create hs ⟨rfl, by rw [← hkey]; rfl⟩
        refine delivered_of_stored hkey hstored (Site.stored_new hset none uid revision) ?_
        rw [hpassword]
        exact Site.credentials_robotData rfl hwire hset
  | some old =>
    dsimp only
    have hplace : old.ns = c.ns ∧ old.name = RobotSecret.name ha.key.ns ha.key.name := by
      cases hrenewed with
      | set _ _ hplace => exact hplace old rfl
      | kept s _ hsecret hread => exact hread.place old hsecret.symm
    split_ifs with hsame
    · -- nothing to write: the Secret is the one that the pass has read
      obtain ⟨hlabels, hannotations, hnil⟩ := hsame
      refine ⟨hheld, hw, fun _ hd => ?_⟩
      cases hrenewed with
      | set _ hset => exact absurd hnil hset
      | kept s _ hsecret hread =>
        obtain rfl := Option.some.inj hsecret
        obtain ⟨hstored, hcred⟩ := hread.still hd
        have hold : Site.Stored c copy (some old) robot password nb old :=
          ⟨hlabels, hannotations, .inr ⟨hnil, old, rfl, rfl⟩⟩
        exact delivered_of_stored hkey hstored hold hcred hd
    · refine ⟨trivial, fun res w' hs => ?_⟩
      have hheld' : Held c name robot r w' := hheld.step hs nofun
      have hsteady' : Steady c ha copy w' := hw.step hs id
      match res with
      | Except.error e => exact ⟨hheld', hsteady', nofun⟩
      | Except.ok () =>
        refine ⟨hheld', hsteady', fun _ => ?_⟩
        obtain ⟨⟨uid, revision, hstored⟩, l, hversion, hl⟩ := stored_of_update hs hplace
        refine delivered_of_stored hkey hstored (Site.stored_updated uid revision) ?_
        cases hrenewed with
        | set hpassword hset =>
          rw [hpassword]
          exact Site.credentials_robotData (if_neg hset) hwire hset
        | kept s hnil hsecret hread =>
          -- no one has changed it since, so that it holds the password
          obtain rfl := Option.some.inj hsecret
          have hcred : RobotSecret.credentials old = some (robot.wireName, r.password) := by
            rcases hl with hold | hnew
            · exact (hread.current old l rfl hold hversion).2
            · have := hread.version old rfl
              have hold : l.resourceVersion = old.resourceVersion := hversion
              omega
          rw [← hcred]
          exact Site.credentials_of_data (if_pos hnil)

theorem wp_storeRobotSecret {robot : Robot} {r : StoredRobot} {password : GoString}
    (hheld : Held c name robot r w) (hw : Steady c ha copy w) (hkey : copy.key = ha.key) (hne : name ≠ [])
    (hpassword : r.password = password) (hset : password ≠ []) {current : Option Secret}
    (hplace : ∀ s, current = some s → s.ns = c.ns ∧ s.name = RobotSecret.name ha.key.ns ha.key.name)
    (nb : Int) (retries : Nat) :
    (storeRobotSecret c copy robot password nb retries current).Wp (setting c ha name) (fun res w' =>
      Held c name robot r w' ∧ Steady c ha copy w' ∧ (res = .ok () → Delivered c ha.key robot r w')) w := by
  let I (current : Option Secret) (w : Crowd) := Held c name robot r w ∧ Steady c ha copy w ∧
    ∀ s, current = some s → s.ns = c.ns ∧ s.name = RobotSecret.name ha.key.ns ha.key.name
  refine Prog.wp_mono (fun _ w' h => ?_) _ _ (wp_storeRobotSecret_rule I I (Delivered c ha.key robot r)
    (fun current w hw => ?_) (fun current w hw => ?_) retries ⟨hheld, hw, hplace⟩)
  · obtain ⟨⟨current, hheld', hw', -⟩, hdone⟩ := h
    exact ⟨hheld', hw', hdone⟩
  · obtain ⟨hheld, hw, hplace⟩ := hw
    refine Prog.wp_mono (fun _ w' h => ?_) _ _ (wp_putRobotSecret ⟨robot, current, password, none⟩ hheld hw
      hkey hne (.set hpassword hset hplace) nb)
    exact ⟨⟨current, h.1, h.2.1, hplace⟩, h.2.2, fun _ _ _ => ⟨h.1, h.2.1, hplace⟩⟩
  · obtain ⟨hheld, hw, hplace⟩ := hw
    refine Prog.wp_mono (fun _ w' h => ?_) _ _ (wp_getRobotSecret hw hkey)
    have hheld' := h.2.1 robot r hheld
    exact ⟨⟨current, hheld', h.1, hplace⟩, fun _ _ => ⟨hheld', h.1, hplace⟩,
      fun fresh hfresh _ => ⟨hheld', h.1, (h.2.2 fresh hfresh).place⟩⟩

theorem wp_writeRobotSecret {hand : InHand} {r : StoredRobot} (hheld : Held c name hand.robot r w)
    (hw : Steady c ha copy w) (hkey : copy.key = ha.key) (hne : name ≠ [])
    (hrenewed : Renewed c ha.key hand r w) (nb : Int) :
    (writeRobotSecret c copy hand.secret hand.robot hand.password nb).Wp (setting c ha name)
      (fun res w' => Held c name hand.robot r w' ∧ Steady c ha copy w' ∧
        (res = .ok () → Delivered c ha.key hand.robot r w')) w := by
  unfold writeRobotSecret
  split_ifs with hnil
  · have hput := wp_putRobotSecret hand hheld hw hkey hne hrenewed nb
    rwa [hnil] at hput
  · cases hrenewed with
    | set hpassword hset hplace =>
      exact wp_storeRobotSecret hheld hw hkey hne hpassword hset hplace nb _
    | kept s hkept => exact absurd hkept hnil

/-! ## Other robots -/

structure Done (c : Config) (ha copy : HarborAccess) (name : GoString) (robot : Robot) (r : StoredRobot)
    (w : Crowd) : Prop where
  held : Held c name robot r w
  steady : Steady c ha copy w
  delivered : Delivered c ha.key robot r w

theorem Done.harbor {robot : Robot} {r : StoredRobot} (hw : Done c ha copy name robot r w)
    {request : HarborCall} {res : HarborAnswer request}
    (hs : (setting c ha name).sem w (.harbor request) res w') (hspares : request.Spares r.id) :
    Done c ha copy name robot r w' := by
  refine ⟨hw.held.step hs fun request' heq => ?_, hw.steady.step hs id, hw.delivered.step hs id⟩
  obtain rfl := Call.harbor.inj heq
  exact hspares

theorem wp_deleteStale {robot : Robot} {r : StoredRobot} (robots : List Robot) (w : Crowd)
    (hw : Done c ha copy name robot r w) :
    (deleteStale c copy robot.id robots).Wp (setting c ha name)
      (fun _ w' => Done c ha copy name robot r w') w := by
  induction robots generalizing w with
  | nil => exact hw
  | cons stale robots ih =>
    unfold deleteStale
    cases misnamedOf c copy stale with
    | some e => exact hw
    | none =>
      dsimp only
      split_ifs with hskip
      · exact ih w hw
      · rw [not_or] at hskip
        have hdelete : (onHarbor (Client.delete stale.id)).Wp (setting c ha name)
            (fun _ w' => Done c ha copy name robot r w') w := by
          refine wp_onHarbor ⟨trivial, fun res w' hs => ?_⟩
          have hw' : Done c ha copy name robot r w' :=
            hw.harbor hs (hw.held.id ▸ hskip.1)
          rcases res with e | _
          · exact hw'
          · exact hw'
        refine Prog.wp_seq hdelete fun res w' hw' => ?_
        cases res with
        | error e => exact hw'
        | ok _ => exact ih w' hw'

theorem wp_cleanUp {robot : Robot} {r : StoredRobot} (hw : Done c ha copy name robot r w)
    (created : Bool) :
    (cleanUp c copy robot created).run.Wp (setting c ha name)
      (fun _ w' => Done c ha copy name robot r w') w := by
  unfold cleanUp
  split_ifs
  · have hkept : ∀ w idFrom res w', (setting c ha name).sem w (.harbor (.listRobot none idFrom)) res w' →
        Done c ha copy name robot r w → Done c ha copy name robot r w' :=
      fun _ _ _ _ hs hw => hw.harbor hs trivial
    have hlist : (onHarbor (Client.list c.harborRobotPrefix none)).Wp (setting c ha name)
        (fun _ w' => Done c ha copy name robot r w') w := by
      refine wp_onHarbor (Prog.wp_mono (fun _ _ h => h.1) _ _ (Client.wp_list_seen c.harborRobotPrefix
        (fun _ _ => True) (Done c ha copy name robot r) none (fun _ _ => trivial)
        (fun w idFrom res w' hs => ⟨hkept w idFrom res w' hs, fun _ _ => trivial⟩)
        (fun _ _ _ _ _ _ _ _ _ => trivial) w hw))
    have hstale : (deleteStaleRobots c copy robot.id).Wp (setting c ha name)
        (fun _ w' => Done c ha copy name robot r w') w := by
      refine Prog.wp_seq hlist fun res w' hw' => ?_
      cases res with
      | error e => exact hw'
      | ok robots => exact wp_deleteStale robots w' hw'
    exact wp_attempt hstale (fun _ _ h => h) fun _ _ h => h
  · exact hw

/-! ## The pass -/

/-- A pass that comes to its end has the robot enabled and the Secret with its password. -/
theorem wp_converge {secret : Option Secret} (hw : Informed c ha copy secret True w)
    (hkey : copy.key = ha.key) (hstatus : copy.status = ha.status) (hne : name ≠ []) :
    (converge c copy secret name).run.Wp (setting c ha name) (fun res w' =>
      ∀ ready, res = .ok ready → ready.robot.disabled = false ∧
        ∃ r, Done c ha copy name ready.robot r w') w := by
  unfold converge
  refine Prog.wp_run_seq (wp_ensureRobot hw _ _) (fun out w₁ h => ?_) fun _ _ _ => nofun
  obtain ⟨robot, created⟩ := out
  obtain ⟨hw₁, hensured⟩ := h
  refine wp_lift (wp_clockNow hw₁ (hensured robot created rfl)) fun now w₂ h => ?_
  obtain ⟨r, htimed⟩ := h
  refine Prog.wp_run_seq (wp_renew hstatus htimed name) (fun hand w₃ h => ?_) fun _ _ _ => nofun
  obtain ⟨hsteady, r, hheld, hrenewed⟩ := h hand rfl
  refine wp_attempt_seq (wp_writeRobotSecret hheld hsteady hkey hne hrenewed _) (fun _ w₄ h => ?_)
    fun _ _ _ => nofun
  obtain ⟨hheld₄, hsteady₄, hdelivered⟩ := h
  refine Prog.wp_run_seq (wp_cleanUp ⟨hheld₄, hsteady₄, hdelivered rfl⟩ created) (fun _ w₅ hdone => ?_)
    fun _ _ _ => nofun
  split_ifs with hdisabled
  · exact nofun
  · intro ready hres
    obtain rfl := Except.ok.inj hres
    exact ⟨Bool.eq_false_iff.mpr hdisabled, r, hdone⟩

theorem Steady.eq_copy (hw : Steady c ha copy w) {l : HarborAccess}
    (hl : w.site.access ha.key.ns ha.key.name = some l ∨ w.site.revision < l.resourceVersion)
    (hversion : l.resourceVersion = copy.resourceVersion) : l = copy := by
  rcases hl with hold | hlate
  · exact hw.current l hold hversion
  · have := hw.version
    omega

/-- A write of the HarborAccess that succeeds was made from an object of the version. -/
theorem object_of_write {v : Crowd} {site : Site} {sent new : HarborAccess}
    {change : HarborAccess → HarborAccess} (hothers : Others c ha.key w v)
    (hwrite : v.site.writeAccess sent change = (.ok new, site)) (hkey : sent.key = ha.key) :
    ∃ l, (w.site.access ha.key.ns ha.key.name = some l ∨ w.site.revision < l.resourceVersion) ∧
      l.resourceVersion = sent.resourceVersion ∧
      new = { change l with key := l.key, resourceVersion := v.site.revision + 1 } ∧
      site.revision = v.site.revision + 1 ∧
      ∀ ha', site.access ha.key.ns ha.key.name = some ha' → ha' = new := by
  obtain ⟨l, hl, hversion, -, -, -, hrevision, hnew, hafter⟩ := Site.writeAccess_ok hwrite
  rw [hkey] at hl hafter
  exact ⟨l, hothers.access l hl, hversion, hnew, hrevision, hafter⟩

theorem wp_ensureFinalizer {secret : Option Secret} (hw : Informed c ha ha secret True w) :
    (ensureFinalizer c ha).Wp (setting c ha name) (fun res w' => ∀ ha₁, res = .ok ha₁ →
      Site.SameObject ha ha₁ ∧ ha₁.status = ha.status ∧ Informed c ha ha₁ secret True w') w := by
  unfold ensureFinalizer
  split_ifs
  · intro ha₁ hres
    obtain rfl := Except.ok.inj hres
    exact ⟨⟨rfl, rfl, rfl, rfl⟩, rfl, hw⟩
  · refine ⟨trivial, fun res w' hs ha₁ hres => ?_⟩
    have hread : ReadAs c ha.key secret True w' := hw.read.step hs id
    have hprefixed := (sem_robotNamePrefix hs).trans hw.steady.prefixed
    have hversioned := sem_versioned hs hw.steady.versioned
    obtain ⟨v, site, hothers, hf, -, rfl⟩ := hs
    rcases hf.kube nofun nofun with ⟨hserved, rfl⟩ | ⟨⟨e, -, hfailed⟩, -⟩
    · have hwrite : v.site.writeAccess ha (fun l => { l with finalizers := ha.finalizers ++ [c.finalizer] }) =
          (.ok ha₁, (v.site.serve (.patchFinalizers ha (ha.finalizers ++ [c.finalizer]))).2) :=
        Prod.ext (hserved.symm.trans hres) rfl
      obtain ⟨l, hl, hversion, rfl, hrevision, hafter⟩ := object_of_write hothers hwrite rfl
      obtain rfl := hw.steady.eq_copy hl hversion
      refine ⟨⟨rfl, rfl, rfl, rfl⟩, rfl, ⟨hprefixed, hversioned, ?_, fun l hl _ => ?_⟩, hread⟩
      · rw [told_site]
        exact hrevision.ge
      · rw [told_site] at hl
        exact hafter l hl
    · cases hfailed.symm.trans hres

/-- The object that is stored after the pass has written a status. -/
theorem stored_of_updateStatus {sent out : HarborAccess} {res : Answer (.updateStatus sent)}
    (hs : (setting c ha name).sem w (.updateStatus sent) res w') (hres : res = Except.ok out)
    (hkey : sent.key = ha.key) {ha' : HarborAccess}
    (hha' : w'.site.access ha.key.ns ha.key.name = some ha') :
    ∃ l revision, (w.site.access ha.key.ns ha.key.name = some l ∨ w.site.revision < l.resourceVersion) ∧
      l.resourceVersion = sent.resourceVersion ∧
      ha' = { l with status := sent.status, resourceVersion := revision } := by
  obtain ⟨v, site, hothers, hf, -, rfl⟩ := hs
  rw [told_site] at hha'
  rcases hf.kube nofun nofun with ⟨hserved, rfl⟩ | ⟨⟨e, -, hfailed⟩, -⟩
  · have hwrite : v.site.writeAccess sent (fun l => { l with status := sent.status }) =
        (.ok out, (v.site.serve (.updateStatus sent)).2) := Prod.ext (hserved.symm.trans hres) rfl
    obtain ⟨l, hl, hversion, hout, -, hafter⟩ := object_of_write hothers hwrite hkey
    exact ⟨l, _, hl, hversion, (hafter ha' hha').trans hout⟩
  · cases hfailed.symm.trans hres

/-- A pass that reports that the HarborAccess is not ready does not end in Ready. -/
theorem wp_markNotReady (hkey : copy.key = ha.key) (reason : Reason) :
    (markNotReadyWithRequeue copy reason).Wp (setting c ha name)
      (fun res w' => ∀ ha', ¬ Site.EndsReady ha.key res w'.site ha') w := by
  refine Prog.wp_seq (P := fun res w' => ∀ out, res = .ok out → ∀ ha',
    w'.site.access ha.key.ns ha.key.name = some ha' → ¬ ha'.IsReady)
    ⟨trivial, fun res w' hs out hres ha' hha' hready => ?_⟩ fun res w' h => ?_
  · obtain ⟨l, revision, -, -, rfl⟩ := stored_of_updateStatus hs hres hkey hha'
    exact not_isReady_withCondition copy reason hready
  · cases res with
    | error e => exact fun ha' hready => nomatch hready.ok
    | ok out => exact fun ha' hready => h out rfl ha' hready.stored hready.ready

theorem wp_markTransientError (copy : HarborAccess) (cause : PassErr) :
    (markTransientError copy cause).Wp (setting c ha name)
      (fun res w' => ∀ ha', ¬ Site.EndsReady ha.key res w'.site ha') w := by
  refine Prog.wp_seq (Prog.wp_trivial (fun _ _ => trivial) _ w) fun res w' _ => ?_
  cases res <;> exact fun ha' hready => nomatch hready.ok

/-- What a pass that ends in Ready leaves, if no one has changed the Secret behind its back. -/
structure Served (c : Config) (ha : HarborAccess) (name : GoString) (w : Site) (ha' : HarborAccess)
    (r : StoredRobot) : Prop where
  object : Site.SameObject ha ha'
  mem : r ∈ w.harbor.robots
  enabled : r.disable = false
  recorded : ∃ ref, ha'.status.robot = some ref ∧ ref.id = r.id ∧ ref.name = w.harbor.wireName r
  named : r.editable = true → w.harbor.wireName r = c.harborRobotPrefix ++ name
  secret : ∃ s, w.secret c.ns (RobotSecret.name ha.key.ns ha.key.name) = some s ∧
    RobotSecret.isManaged s = true ∧
    RobotSecret.stampedForOther s ha.key.ns ha.key.name = false ∧
    RobotSecret.credentials s = some (w.harbor.wireName r, r.password)

theorem Held.wireName_eq {robot : Robot} {r : StoredRobot} (hw : Held c name robot r w)
    (hprefixed : w.site.harbor.robotNamePrefix = c.harborRobotPrefix) (heditable : r.editable = true) :
    w.site.harbor.wireName r = c.harborRobotPrefix ++ name := by
  have hwire : w.site.harbor.wireName r = c.harborRobotPrefix ++ r.name := by
    rw [Harbor.wireName, if_pos heditable, hprefixed]
  have hname := hw.named
  rw [hw.wireName, hwire, trimPrefix_append] at hname
  rw [hwire, hname]

theorem wp_markReady {robot : Robot} {r : StoredRobot} (hw : Done c ha copy name robot r w)
    (hobject : Site.SameObject ha copy) (henabled : robot.disabled = false) (rotatedAt : Option Int)
    (requeueAfter : Int) :
    (markReady copy robot rotatedAt requeueAfter).Wp (setting c ha name) (fun res w' =>
      w'.disturbed = false → ∀ ha', Site.EndsReady ha.key res w'.site ha' →
        Served c ha name w'.site ha' r) w := by
  refine Prog.wp_seq (P := fun res w' => ∀ out, res = .ok out → w'.disturbed = false → ∀ ha',
    w'.site.access ha.key.ns ha.key.name = some ha' → Served c ha name w'.site ha' r)
    ⟨trivial, fun res w' hs out hres hd ha' hha' => ?_⟩ fun res w' h => ?_
  · obtain ⟨l, revision, hl, hversion, rfl⟩ := stored_of_updateStatus hs hres hobject.key hha'
    obtain rfl := hw.steady.eq_copy hl hversion
    have hheld : Held c name robot r w' := hw.held.step hs nofun
    obtain ⟨s, hstored, hmanaged, hstamped, hcred⟩ := hw.delivered.step hs id hd
    have hprefixed := (sem_robotNamePrefix hs).trans hw.steady.prefixed
    refine ⟨⟨hobject.key, hobject.spec, hobject.generation, hobject.deleting⟩, hheld.mem,
      hheld.disabled.symm.trans henabled, ⟨_, rfl, hheld.id, hheld.wireName⟩,
      hheld.wireName_eq hprefixed, s, hstored, hmanaged, hstamped, ?_⟩
    rw [hcred, hheld.wireName]
  · cases res with
    | error e => exact fun _ ha' hready => nomatch hready.ok
    | ok out => exact fun hd ha' hready => h out rfl hd ha' hready.stored

theorem wp_reconcileNormal (hw : Steady c ha ha w) (hadmitted : admission c ha = .ok name) :
    (reconcileNormal c ha).Wp (setting c ha name) (fun res w' => w'.disturbed = false →
      ∀ ha', Site.EndsReady ha.key res w'.site ha' → ∃ r, Served c ha name w'.site ha' r) w := by
  have hname := (robotName_eq_ok _ _ _ _).mp (admission_ok hadmitted).2.2.2
  have hne : name ≠ [] := by
    rintro rfl
    exact absurd hname.2 (by decide)
  unfold reconcileNormal
  rw [hadmitted]
  dsimp only
  split_ifs
  · exact fun _ ha' hready => nomatch hready.ok
  refine Prog.wp_seq (wp_getRobotSecret hw rfl) fun res w₁ h => ?_
  obtain ⟨hw₁, -, hread⟩ := h
  cases res with
  | error e =>
    exact Prog.wp_mono (fun _ _ h _ ha' hready => absurd hready (h ha')) _ _ (wp_markTransientError ha _)
  | ok secret =>
  dsimp only
  split_ifs
  · exact Prog.wp_mono (fun _ _ h _ ha' hready => absurd hready (h ha')) _ _ (wp_markNotReady rfl _)
  refine Prog.wp_seq (wp_ensureFinalizer ⟨hw₁, hread secret rfl⟩) fun res w₂ hfinal => ?_
  cases res with
  | error e => exact fun _ ha' hready => nomatch hready.ok
  | ok ha₁ =>
  obtain ⟨hobject, hstatus, hw₂⟩ := hfinal ha₁ rfl
  refine Prog.wp_seq (wp_converge hw₂ hobject.key hstatus hne) fun res w₃ h => ?_
  split
  · next ready =>
    obtain ⟨henabled, r, hdone⟩ := h ready rfl
    exact Prog.wp_mono (fun _ _ h hd ha' hready => ⟨r, h hd ha' hready⟩) _ _
      (wp_markReady hdone hobject henabled _ _)
  · exact Prog.wp_mono (fun _ _ h _ ha' hready => absurd hready (h ha')) _ _
      (wp_markNotReady hobject.key _)
  · exact Prog.wp_mono (fun _ _ h _ ha' hready => absurd hready (h ha')) _ _
      (wp_markTransientError ha₁ _)

end Crowd

end HarborBridge
