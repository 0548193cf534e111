import HarborBridge.HarborSeen
import HarborBridge.Vault

/-! A password that Harbor no longer accepts is never trusted: the robots, the Secret and the
clock while a bridge reconciles one HarborAccess, with a janitor and with calls that fail. -/
namespace HarborBridge

open GoStrings Interaction Rfc3339

/-- An instant that can be written into the Secret with the promise that starts from it. -/
def Timely (t : Int) : Prop :=
  RobotSecret.Representable t ∧ RobotSecret.Representable (t + passwordRotationInterval)

/-- Harbor, the robot Secret, and the clock. -/
structure Custody where
  harbor : Harbor
  vault : Vault
  clock : Int

namespace Custody

def Tracked : Call → Prop
  | .harbor _ => True
  | .now => True
  | call => Vault.Tracked call

/-- How a call is answered: by Harbor, which may fail, about the Secret of the HarborAccess,
and by a clock that does not go back and shows instants of `years`. The apiserver may show any
HarborAccess of the name. -/
inductive Answers (years : Int → Prop) (c : Config) (key : ObjectKey) (w : Custody) :
    (call : Call) → Answer call → Custody → Prop where
  | harbor (call : HarborCall) (r : HarborAnswer call) (h : Harbor)
      (hf : w.harbor.Faulty call r h) : Answers years c key w (.harbor call) r { w with harbor := h }
  | vault (call : Call) (r : Answer call) (v : Vault)
      (hv : w.vault.Answers c.ns (RobotSecret.name key.ns key.name) call r v) :
      Answers years c key w call r { w with vault := v }
  | now (t : Int) (hle : w.clock ≤ t) (ht : years t) :
      Answers years c key w .now t { w with clock := t }
  | other (call : Call) (r : Answer call) (hcall : ¬ Tracked call) (hr : RightObject call r) :
      Answers years c key w call r w

theorem untracked {call : Call} (hcall : ¬ Tracked call) :
    (∀ request, call ≠ .harbor request) ∧ call ≠ .now ∧ ¬ Vault.Tracked call := by
  refine ⟨?_, ?_, fun h => ?_⟩
  · rintro request rfl
    exact hcall trivial
  · rintro rfl
    exact hcall trivial
  · cases call <;> first | exact hcall h | exact hcall trivial

/-- What others do: time goes by, and someone deletes a robot. -/
inductive Others (w : Custody) : Custody → Prop where
  | tick (t : Int) (hle : w.clock ≤ t) : Others w { w with clock := t }
  | deleteRobot (id : Int) : Others w { w with harbor := w.harbor.delete id }

/-- The worker reconciles the one HarborAccess, and the janitor sweeps. -/
inductive Starts (c : Config) (key : ObjectKey) : Unit × Role → BridgeProg Unit → Prop where
  | reconcile : Starts c key ((), .worker) (do let _ ← reconcile c key; return ())
  | sweep : Starts c key ((), .janitor) (do let _ ← Janitor.sweep c; return ())

def Run (years : Int → Prop) (c : Config) (key : ObjectKey) (w : Custody)
    (s : System (Unit × Role) Call Answer Custody) : Prop :=
  Relation.ReflTransGen (System.Step (fun _ => Answers years c key) Others (Starts c key))
    (System.idle w) s

/-- A run starts without robots and without a Secret. -/
structure Start (w : Custody) : Prop where
  robots : w.harbor.robots = []
  secret : w.vault.secret = none
  stored : w.vault.stored = []

/-! ## The invariant -/

structure Recorded (h : Harbor) (s : Secret) (id nb : Int) : Prop where
  robotID : RobotSecret.robotID s = some id
  pos : 0 < id
  lt : id < h.nextId
  notBefore : RobotSecret.rotationNotBefore s = some nb
  whole : RobotSecret.roundUp nb = nb
  years : RobotSecret.Representable nb

/-- The password of the Secret is the one that Harbor accepts for the robot that the Secret
names, or the rotation is due. -/
def Trusted (w : Custody) (s : Secret) (id nb : Int) : Prop :=
  ∀ r ∈ w.harbor.robots, r.id = id → ∀ username password,
    RobotSecret.credentials s = some (username, password) → username = w.harbor.wireName r →
    password = r.password ∨ nb + rotationSafetyMargin ≤ w.clock

structure Safe (c : Config) (key : ObjectKey) (w : Custody) : Prop where
  ok : w.vault.Ok c.ns (RobotSecret.name key.ns key.name)
  recorded : ∀ s ∈ w.vault.stored, ∃ id nb, Recorded w.harbor s id nb
  trusted : ∀ s, w.vault.secret = some s → ∀ id nb, Recorded w.harbor s id nb →
    w.Trusted s id nb

structure Fits (c : Config) (key : ObjectKey) (_ : Unit) (k : PassKnows) (w : Custody) :
    Prop where
  sees : Sees c k w.harbor
  key : k.key = key
  own : k.OwnCopy
  vault : w.vault.Fits k
  clock : ∀ t, k.clock = some t → t ≤ w.clock ∧ Timely t

/-! ## What is recorded -/

section Records

variable {c : Config} {key : ObjectKey} {w : Custody} {u : Unit} {k : PassKnows}

theorem representable_roundUp {t : Int} (h : RobotSecret.Representable t) :
    RobotSecret.Representable (RobotSecret.roundUp t) := by
  refine ⟨h.1.trans (RobotSecret.le_roundUp t), ?_⟩
  have hmono := RobotSecret.roundUp_mono _ _ h.2
  rwa [RobotSecret.roundUp_mul] at hmono

theorem roundUp_roundUp (t : Int) :
    RobotSecret.roundUp (RobotSecret.roundUp t) = RobotSecret.roundUp t := by
  obtain ⟨unix, hunix⟩ := RobotSecret.exists_roundUp t
  rw [hunix, RobotSecret.roundUp_mul]

theorem parseInt_formatRobotID {h : Harbor} {id : Int} (hpos : 0 < id) (hlt : id < h.nextId) :
    parseInt (RobotSecret.formatRobotID id) = some id := by
  have hmax := h.nextId_le
  exact parseInt_formatInt id ⟨by omega, by omega⟩

/-- What a decision against a rotation says: the Secret has the robot's name and id, and the
rotation is not due. -/
theorem rotationReason_none {ha : HarborAccess} {s : Secret} {robot : Robot} {now id nb : Int}
    (h : rotationReason ha (some s) robot now = none) (hid : RobotSecret.robotID s = some id)
    (hnb : RobotSecret.rotationNotBefore s = some nb) :
    (∃ password, RobotSecret.credentials s = some (robot.wireName, password)) ∧
      id = robot.id ∧ now < nb + rotationSafetyMargin := by
  unfold rotationReason at h
  dsimp only at h
  cases hcreds : RobotSecret.credentials s with
  | none =>
    rw [hcreds] at h
    cases h
  | some pair =>
    obtain ⟨username, password⟩ := pair
    rw [hcreds] at h
    dsimp only at h
    split_ifs at h with husername hother
    rw [hnb] at h
    dsimp only at h
    split_ifs at h with hdue
    rw [recordsOtherRobot, hid] at hother
    refine ⟨⟨password, ?_⟩, ?_, by omega⟩
    · rw [not_not.mp husername]
    · simpa using hother

/-- And what a decision for a rotation says of a Secret with the robot's name and id. -/
theorem rotationReason_some {ha : HarborAccess} {s : Secret} {robot : Robot} {now nb : Int}
    {why : RotationReason} {password : GoString}
    (h : rotationReason ha (some s) robot now = some why)
    (hid : RobotSecret.robotID s = some robot.id)
    (hnb : RobotSecret.rotationNotBefore s = some nb)
    (hcreds : RobotSecret.credentials s = some (robot.wireName, password)) :
    nb + rotationSafetyMargin ≤ now := by
  unfold rotationReason at h
  dsimp only at h
  rw [hcreds] at h
  dsimp only at h
  have hother : recordsOtherRobot ha s robot = false := by
    rw [recordsOtherRobot, hid]
    exact bne_self_eq_false _
  rw [if_neg (not_not.mpr rfl), hother, if_neg Bool.false_ne_true, hnb] at h
  dsimp only at h
  split_ifs at h with hdue
  exact hdue

/-- A version that the pass stores is recorded and trusted. -/
theorem Fits.stored (hk : Fits c key u k w) (hw : Safe c key w) {ha : HarborAccess}
    {robot : Robot} {password : GoString} {notBefore : Int} {new : Secret}
    (hnew : w.vault.Records k ha robot password notBefore new) :
    ∃ nb, Recorded w.harbor new robot.id nb ∧ w.Trusted new robot.id nb := by
  cases hnew.stores with
  | new hpassword hne now hnow hnb =>
    obtain ⟨⟨hpos, hlt⟩, hsame⟩ := hk.sees.password _ _ hpassword
    obtain ⟨-, -, hyears⟩ := hk.clock now hnow
    rw [← hnb] at hyears
    refine ⟨RobotSecret.roundUp notBefore, ⟨?_, hpos, hlt, ?_, roundUp_roundUp _,
      representable_roundUp hyears⟩, ?_⟩
    · rw [hnew.robotID]
      exact parseInt_formatRobotID hpos hlt
    · rw [hnew.notBefore]
      exact RobotSecret.parse_formatRotationNotBefore notBefore hyears
    · -- the password is the one that Harbor gave in this pass
      intro r hr hid username p hcreds _
      left
      rcases hnew.credentials with hold | ⟨hempty, -⟩
      · rw [hold, Vault.newCredentials] at hcreds
        split_ifs at hcreds
        rw [← (Prod.mk.inj (Option.some.inj hcreds)).2]
        exact (hsame r hr hid).symm
      · exact absurd hempty hne
  | same hempty secret hsecret hwrote now hnow hwhy hnb =>
    obtain ⟨id, nb, hrec⟩ := hw.recorded secret (hk.vault.version secret hsecret)
    obtain ⟨-, rfl, -⟩ := rotationReason_none hwhy hrec.robotID hrec.notBefore
    have hkeep : notBefore = nb := by
      rw [hnb, rotationNotBefore, Option.bind_some, hrec.notBefore]
    refine ⟨nb, ⟨?_, hrec.pos, hrec.lt, ?_, hrec.whole, hrec.years⟩, ?_⟩
    · rw [hnew.robotID]
      exact parseInt_formatRobotID hrec.pos hrec.lt
    · rw [hnew.notBefore, hkeep, RobotSecret.parse_formatRotationNotBefore nb hrec.years, hrec.whole]
    · -- the password is the one that the Secret has
      intro r hr hid username p hcreds husername
      rcases hnew.credentials with hold | ⟨-, existing, hknown, hlive, hsame⟩
      · rw [hold, Vault.newCredentials, if_pos (.inr hempty)] at hcreds
        cases hcreds
      · obtain rfl := Option.some.inj (Option.some.inj (hknown.symm.trans hsecret))
        rw [hsame] at hcreds
        exact hw.trusted existing hlive _ nb hrec r hr hid username p hcreds husername

end Records

/-! ## Steps -/

section Steps

variable {years : Int → Prop} {c : Config} {key : ObjectKey} {w w' : Custody} {u : Unit} {k : PassKnows}

theorem Recorded.mono {h h' : Harbor} {s : Secret} {id nb : Int} (hs : Recorded h s id nb)
    (hle : h.nextId ≤ h'.nextId) : Recorded h' s id nb :=
  ⟨hs.robotID, hs.pos, hs.lt.trans_le hle, hs.notBefore, hs.whole, hs.years⟩

theorem Recorded.eq {h h' : Harbor} {s : Secret} {id nb id' nb' : Int} (hs : Recorded h s id nb)
    (hs' : Recorded h' s id' nb') : id' = id ∧ nb' = nb :=
  ⟨Option.some.inj (hs'.robotID.symm.trans hs.robotID),
    Option.some.inj (hs'.notBefore.symm.trans hs.notBefore)⟩

/-- The pass rotates the password of the robot that the Secret names only when it is due. -/
theorem Fits.due (hk : Fits c key u k w) {id : Int} (hallowed : k.Refreshes c id) {s : Secret}
    {nb : Int} (hs : w.vault.secret = some s) (hrec : Recorded w.harbor s id nb)
    {r : StoredRobot} (hr : r ∈ w.harbor.robots) (hid : r.id = id) {password : GoString}
    (hcreds : RobotSecret.credentials s = some (w.harbor.wireName r, password)) :
    nb + rotationSafetyMargin ≤ w.clock := by
  cases hallowed with
  | resumes ha robot hfound hrid hsuspended hsecret hwrote =>
    -- the Secret is gone
    rcases hk.vault.still hwrote none hsecret with hnone | hnone <;> cases hs.symm.trans hnone
  | rotates ha robot hfound hrid hactive secret hsecret hwrote now hnow why hwhy =>
    have hlive : secret = some s := by
      rcases hk.vault.still hwrote secret hsecret with hsame | hnone
      · exact hsame.symm.trans hs
      · cases hs.symm.trans hnone
    subst hlive
    obtain ⟨-, -, hwire⟩ := (hk.sees.shown robot hfound.2.2.1).2 r hr (hid.trans hrid.symm)
    rw [hwire] at hcreds
    have hrobotID := hrec.robotID
    rw [← hrid] at hrobotID
    exact (rotationReason_some hwhy hrobotID hrec.notBefore hcreds).trans (hk.clock now hnow).1

/-- A request to Harbor keeps the invariant if a rotation meets no password that is trusted. -/
theorem Safe.harbor (hw : Safe c key w) {call : HarborCall} {h : Harbor}
    (he : w.harbor.Effect call h)
    (hdue : ∀ id, call = .refreshSec id → ∀ s nb, w.vault.secret = some s →
      Recorded w.harbor s id nb → ∀ r ∈ w.harbor.robots, r.id = id → ∀ password,
      RobotSecret.credentials s = some (w.harbor.wireName r, password) →
      nb + rotationSafetyMargin ≤ w.clock) : Safe c key { w with harbor := h } := by
  refine ⟨hw.ok, fun s hs => ?_, fun s hs id nb hrec => ?_⟩
  · obtain ⟨id, nb, hrec⟩ := hw.recorded s hs
    exact ⟨id, nb, hrec.mono he.nextId_le⟩
  · obtain ⟨id', nb', hrec'⟩ := hw.recorded s (hw.ok.live s hs)
    obtain ⟨rfl, rfl⟩ := hrec'.eq hrec
    intro x hx hid username password hcreds husername
    rcases he.password hx with ⟨r, hr, hrx, hwire, hcase⟩ | ⟨body, -, hnew⟩
    · change username = h.wireName x at husername
      rw [hwire] at husername
      rcases hcase with hsame | hcall
      · rw [hsame]
        exact hw.trusted s hs id nb hrec' r hr (hrx.trans hid) username password hcreds husername
      · right
        rw [hid] at hcall
        rw [husername] at hcreds
        exact hdue id hcall s nb hs hrec' r hr (hrx.trans hid) password hcreds
    · -- a new robot has a new id
      have := hrec'.lt
      omega

theorem Safe.vault (hw : Safe c key w) {v : Vault}
    (hok : v.Ok c.ns (RobotSecret.name key.ns key.name))
    (hcase : (v.stored = w.vault.stored ∧ (v.secret = w.vault.secret ∨ v.secret = none)) ∨
      ∃ new, v.secret = some new ∧ v.stored = new :: w.vault.stored ∧
        ∃ id nb, Recorded w.harbor new id nb ∧ w.Trusted new id nb) :
    Safe c key { w with vault := v } := by
  refine ⟨hok, fun s hs => ?_, fun s hs id nb hrec => ?_⟩
  · change s ∈ v.stored at hs
    rcases hcase with ⟨hstored, -⟩ | ⟨new, -, hstored, id, nb, hrec, -⟩
    · rw [hstored] at hs
      exact hw.recorded s hs
    · rw [hstored] at hs
      rcases List.mem_cons.mp hs with rfl | hs
      · exact ⟨id, nb, hrec⟩
      · exact hw.recorded s hs
  · change v.secret = some s at hs
    rcases hcase with ⟨-, hsame | hnone⟩ | ⟨new, hnew, -, id', nb', hrec', htrusted⟩
    · exact hw.trusted s (hsame.symm.trans hs) id nb hrec
    · cases hnone.symm.trans hs
    · obtain rfl := Option.some.inj (hnew.symm.trans hs)
      obtain ⟨rfl, rfl⟩ := hrec'.eq hrec
      exact htrusted

theorem Safe.clock (hw : Safe c key w) {t : Int} (hle : w.clock ≤ t) :
    Safe c key { w with clock := t } := by
  refine ⟨hw.ok, hw.recorded, fun s hs id nb hrec r hr hid username password hcreds husername => ?_⟩
  rcases hw.trusted s hs id nb hrec r hr hid username password hcreds husername with hsame | hdue
  · exact .inl hsame
  · exact .inr (hdue.trans hle)

/-- What a pass learns keeps fitting, whatever the call. -/
theorem Fits.learn (hk : Fits c key u k w) {call : Call} {r : Answer call}
    (hallowed : k.Allows c call) (hright : RightObject call r)
    (hsees : Sees c (k.learn c call r) w'.harbor) (hvault : w'.vault.Fits (k.learn c call r))
    (hclock : w.clock ≤ w'.clock) (hnow : call ≠ .now) : Fits c key u (k.learn c call r) w' := by
  refine ⟨hsees, ?_, hk.own.learn hallowed hright, hvault, fun t ht => ?_⟩
  · rw [k.learn_key]
    exact hk.key
  · rw [k.learn_clock hnow] at ht
    obtain ⟨hle, htimely⟩ := hk.clock t ht
    exact ⟨hle.trans hclock, htimely⟩

theorem Safe.answers (hyears : ∀ t, years t → Timely t) (hw : Safe c key w) (hk : Fits c key u k w)
    {call : Call} (hallowed : k.Allows c call) {r : Answer call} (hs : w.Answers years c key call r w') :
    Safe c key w' ∧ Fits c key u (k.learn c call r) w' := by
  cases hs with
  | harbor call r h hf =>
    constructor
    · refine hw.harbor hf.effect fun id hcall s nb hs hrec x hx hid password hcreds => ?_
      subst hcall
      exact hk.due hallowed hs hrec hx hid hcreds
    · have huntracked : ¬ Vault.Tracked (.harbor call) := fun h => h
      exact hk.learn hallowed trivial (hk.sees.learnHarbor hallowed hf)
        (hk.vault.learn_untracked huntracked r) (le_refl _) nofun
  | vault call r v hv =>
    have hharbor : ∀ request, call ≠ .harbor request := by
      rintro request rfl
      cases hv with
      | elsewhere _ _ h => exact h
    have hnow : call ≠ .now := by
      rintro rfl
      cases hv with
      | elsewhere _ _ h => exact h
    have hright : RightObject call r := by
      cases hv with
      | elsewhere call r h => cases call <;> trivial
      | _ => trivial
    have hslot : ∀ ha, k.copy = some ha → c.ns = c.ns ∧
        RobotSecret.name key.ns key.name = RobotSecret.name ha.key.ns ha.key.name := by
      intro ha hcopy
      rw [hk.own ha hcopy, hk.key]
      exact ⟨rfl, rfl⟩
    constructor
    · refine hw.vault (hv.ok hw.ok hk.vault hallowed) ?_
      rcases (hv.change hw.ok hk.vault hallowed).cases with hsame |
        ⟨ha, robot, password, notBefore, new, hnew, hsecret, hstored⟩
      · exact .inl hsame
      · obtain ⟨nb, hrec, htrusted⟩ := hk.stored hw hnew
        exact .inr ⟨new, hsecret, hstored, robot.id, nb, hrec, htrusted⟩
    · exact hk.learn hallowed hright (hk.sees.learn_kube hharbor r)
        (hv.fits hw.ok hk.vault hslot hallowed) (le_refl _) hnow
  | now t hle ht =>
    have hharbor : ∀ request, Call.now ≠ .harbor request := nofun
    have huntracked : ¬ Vault.Tracked .now := fun h => h
    refine ⟨hw.clock hle, hk.sees.learn_kube hharbor _, hk.key, hk.own,
      hk.vault.learn_untracked huntracked _, fun t' ht' => ?_⟩
    obtain rfl := Option.some.inj ht'
    exact ⟨le_refl _, hyears t ht⟩
  | other call r hcall hr =>
    obtain ⟨hharbor, hnow, hvault⟩ := untracked hcall
    exact ⟨hw, hk.learn hallowed hr (hk.sees.learn_kube hharbor r)
      (hk.vault.learn_untracked hvault r) (le_refl _) hnow⟩

theorem Safe.sweeps (hw : Safe c key w) {k : SweepKnows} {call : Call}
    (hallowed : k.Allows c call) {r : Answer call} (hs : w.Answers years c key call r w') :
    Safe c key w' ∧ ∀ k, Fits c key u k w → Fits c key u k w' := by
  cases hs with
  | harbor call r h hf =>
    have he := hf.effect
    constructor
    · refine hw.harbor he fun id hcall => ?_
      subst hcall
      exact hallowed.elim
    · intro k hk
      refine ⟨?_, hk.key, hk.own, hk.vault, hk.clock⟩
      cases he with
      | none => exact hk.sees
      | created => exact hallowed.elim
      | updated => exact hallowed.elim
      | refreshed => exact hallowed.elim
      | deleted id => exact hk.sees.anti (fun r hr => (Harbor.mem_delete.mp hr).1) rfl rfl rfl
  | vault call r v hv =>
    rcases hv.sweep hallowed with rfl | rfl
    · exact ⟨hw, fun k hk => hk⟩
    · refine ⟨hw.vault hw.ok.delete (.inl ⟨rfl, .inr rfl⟩), fun k hk => ?_⟩
      exact ⟨hk.sees, hk.key, hk.own, hk.vault.delete, hk.clock⟩
  | now t hle ht => exact hallowed.elim
  | other call r hcall hr => exact ⟨hw, fun k hk => hk⟩

theorem Safe.others (hw : Safe c key w) (hs : w.Others w') :
    Safe c key w' ∧ ∀ k, Fits c key u k w → Fits c key u k w' := by
  cases hs with
  | tick t hle =>
    refine ⟨hw.clock hle, fun k hk => ⟨hk.sees, hk.key, hk.own, hk.vault, fun t' ht' => ?_⟩⟩
    obtain ⟨hle', htimely⟩ := hk.clock t' ht'
    exact ⟨hle'.trans hle, htimely⟩
  | deleteRobot id =>
    refine ⟨hw.harbor (.deleted id) nofun, fun k hk => ⟨?_, hk.key, hk.own, hk.vault, hk.clock⟩⟩
    exact hk.sees.anti (fun r hr => (Harbor.mem_delete.mp hr).1) rfl rfl rfl

theorem Start.safe (hw : w.Start) : Safe c key w := by
  have hnone : ∀ s, ¬ s ∈ w.vault.stored := by
    intro s hs
    rw [hw.stored] at hs
    cases hs
  have hsecret : ∀ s, w.vault.secret ≠ some s := by
    intro s hs
    cases hw.secret.symm.trans hs
  exact ⟨⟨fun s hs => absurd hs (hsecret s), fun s hs => absurd hs (hnone s),
    fun s hs => absurd hs (hnone s)⟩, fun s hs => absurd hs (hnone s),
    fun s hs => absurd hs (hsecret s)⟩

theorem Fits.start : Fits c key u (PassKnows.start key) w :=
  ⟨Sees.start c key w.harbor, rfl, fun ha h => absurd h (Option.some_ne_none ha).symm,
    Vault.fits_start key, fun t h => absurd h (Option.some_ne_none t).symm⟩

theorem Run.safe {s : System (Unit × Role) Call Answer Custody} (hrun : Run years c key w s)
    (hyears : ∀ t, years t → Timely t) (hw : w.Start) : Safe c key s.world := by
  have hholds : (observer fun _ : Unit => c).Holds (Safe c key)
      (Knowledge.Fits (Fits c key) fun _ _ _ => True) s := by
    refine holds_bridge ?_ ?_ ?_ ?_ hrun (Observer.holds_idle hw.safe)
    · intro i p w hp _
      cases hp with
      | reconcile => exact ⟨_, .worker Fits.start, reconcile_observed _ () key⟩
      | sweep => exact ⟨_, .janitor trivial, sweep_observed _ ()⟩
    · intro w v hs hw
      obtain ⟨hsafe, hkeep⟩ := hw.others hs
      exact ⟨hsafe, hkeep, fun _ _ => trivial⟩
    · intro k w call r w' hw hk hallowed hs
      obtain ⟨hsafe, hfits⟩ := hw.answers hyears hk hallowed hs
      exact ⟨hsafe, hfits, fun _ _ => trivial⟩
    · intro k w call r w' hw _ hallowed hs
      obtain ⟨hsafe, hkeep⟩ := hw.sweeps hallowed hs
      exact ⟨hsafe, trivial, hkeep⟩
  exact hholds.1

end Steps

/-- If nothing speaks for a rotation then the password in the Secret is the one that Harbor
accepts for the robot. -/
theorem Safe.accepts {c : Config} {key : ObjectKey} {w : Custody} (hsafe : Safe c key w)
    {ha : HarborAccess} {r : StoredRobot} (hr : r ∈ w.harbor.robots) {robot : Robot}
    (hview : fromHarborRobot c.harborRobotPrefix (w.harbor.report r) = some robot) {now : Int}
    (hnow : w.clock ≤ now) {secret : Secret} (hsecret : w.vault.secret = some secret)
    (hreason : rotationReason ha (some secret) robot now = none) :
    ∃ username, RobotSecret.credentials secret = some (username, r.password) := by
  obtain ⟨id, nb, hrec⟩ := hsafe.recorded secret (hsafe.ok.live secret hsecret)
  obtain ⟨⟨password, hcreds⟩, rfl, hearly⟩ :=
    rotationReason_none hreason hrec.robotID hrec.notBefore
  obtain ⟨hid, hwire, -⟩ := fromHarborRobot_some _ _ _ hview
  refine ⟨robot.wireName, ?_⟩
  rcases hsafe.trusted secret hsecret _ nb hrec r hr hid.symm _ password hcreds hwire with
    hsame | hdue
  · rw [← hsame]
    exact hcreds
  · omega

/-- In every state that a run reaches: if nothing speaks for a rotation, whichever version of
the HarborAccess one goes by, then the password in the Secret is the one that Harbor accepts
for the robot. So while it is not, there is a reason to rotate. The clock shows instants that can be
written into the Secret. -/
theorem unrotated_password_accepted (years : Int → Prop) (hyears : ∀ t, years t → Timely t) (c : Config)
    (key : ObjectKey) (w : Custody) (hw : w.Start)
    (s : System (Unit × Role) Call Answer Custody) (hrun : Run years c key w s) (ha : HarborAccess)
    (r : StoredRobot) (hr : r ∈ s.world.harbor.robots) (robot : Robot)
    (hview : fromHarborRobot c.harborRobotPrefix (s.world.harbor.report r) = some robot)
    (now : Int) (hnow : s.world.clock ≤ now) :
    (rotationReason ha s.world.vault.secret robot now = none → ∃ secret username,
      s.world.vault.secret = some secret ∧
        RobotSecret.credentials secret = some (username, r.password)) ∧
    ∀ secret username password, s.world.vault.secret = some secret →
      RobotSecret.credentials secret = some (username, password) → password ≠ r.password →
      ∃ why, rotationReason ha s.world.vault.secret robot now = some why := by
  have hsafe := hrun.safe hyears hw
  have htrust : rotationReason ha s.world.vault.secret robot now = none → ∃ secret username,
      s.world.vault.secret = some secret ∧
        RobotSecret.credentials secret = some (username, r.password) := by
    intro hreason
    cases hsecret : s.world.vault.secret with
    | none =>
      rw [hsecret] at hreason
      cases hreason
    | some secret =>
      rw [hsecret] at hreason
      obtain ⟨username, hcreds⟩ := hsafe.accepts hr hview hnow hsecret hreason
      exact ⟨secret, username, rfl, hcreds⟩
  refine ⟨htrust, fun secret username password hsecret hcreds hne => ?_⟩
  cases hreason : rotationReason ha s.world.vault.secret robot now with
  | some why => exact ⟨why, rfl⟩
  | none =>
    obtain ⟨secret', username', hsecret', hcreds'⟩ := htrust hreason
    obtain rfl := Option.some.inj (hsecret.symm.trans hsecret')
    have hpair := Prod.mk.inj (Option.some.inj (hcreds.symm.trans hcreds'))
    exact absurd hpair.2 hne

/-! ## A run -/

/-- The worker is answered at time `t`. -/
def serveAt (t : Int) (w : Custody) : (call : Call) → Answer call × Custody
  | .harbor call => ((w.harbor.serve call).1, { w with harbor := (w.harbor.serve call).2 })
  | .readSecret ns name =>
    (w.vault.serveRead (lit "bridge") (RobotSecret.name (lit "team") (lit "app")) ns name, w)
  | .createSecret s =>
    let created := w.vault.serveCreate (lit "bridge") (RobotSecret.name (lit "team") (lit "app")) s
    (created.1, { w with vault := created.2 })
  | .updateSecret s => ((w.vault.serveUpdate s).1, { w with vault := (w.vault.serveUpdate s).2 })
  | .deleteSecret s => ((w.vault.serveDelete s).1, { w with vault := (w.vault.serveDelete s).2 })
  | .now => (t, { w with clock := t })
  | call => (sampleAnswer (fun call => (w.harbor.serve call).1) call, w)

def sampleCustody : Custody where
  harbor := emptyHarbor
  vault := { secret := none, stored := [], revision := 0 }
  clock := 0

theorem serveAt_answers {years : Int → Prop} {t : Int} (ht : years t) (w : Custody) (hclock : w.clock ≤ t)
    (call : Call) :
    w.Answers years sampleConfig sampleKey call (w.serveAt t call).1 (w.serveAt t call).2 := by
  cases call with
  | harbor call => exact .harbor call _ _ (w.harbor.serve_faulty call)
  | readSecret ns name => exact .vault _ _ _ (Vault.serveRead_answers ..)
  | createSecret s => exact .vault _ _ _ (Vault.serveCreate_answers ..)
  | updateSecret s => exact .vault _ _ _ (Vault.serveUpdate_answers ..)
  | deleteSecret s => exact .vault _ _ _ (Vault.serveDelete_answers ..)
  | now => exact .now t hclock ht
  | _ => exact .other _ _ (fun h => h) (sampleAnswer_rightObject (fun call => (w.harbor.serve call).1) _)

theorem serveAt_clock (t : Int) (w : Custody) (hclock : w.clock ≤ t) (call : Call) :
    (w.serveAt t call).2.clock ≤ t := by
  cases call <;> first | exact hclock | exact le_refl t

/-- A pass stores the password, and nothing speaks for a rotation. -/
theorem unrotated_password_accepted_stored :
    ∃ s r robot, Run Timely sampleConfig sampleKey sampleCustody s ∧ r ∈ s.world.harbor.robots ∧
    fromHarborRobot sampleConfig.harborRobotPrefix (s.world.harbor.report r) = some robot ∧
    rotationReason (sampleAccess sampleKey ⟨lit "team", lit "app"⟩) s.world.vault.secret robot 0 =
      none ∧
    ∃ secret username, s.world.vault.secret = some secret ∧
      RobotSecret.credentials secret = some (username, r.password) := by
  have hrun : Run Timely sampleConfig sampleKey sampleCustody _ :=
    System.run_exec (i := ((), .worker)) (I := fun w => w.clock ≤ 0)
      ⟨serveAt_answers ⟨by decide, by decide⟩, serveAt_clock 0⟩
      (do let _ ← reconcile sampleConfig sampleKey; return ()) .reconcile (le_refl 0) (fun _ => none) rfl
  refine ⟨_, _, _, hrun, List.mem_cons_self, rfl, by decide +kernel, ?_⟩
  exact (unrotated_password_accepted Timely (fun _ ht => ht) sampleConfig sampleKey sampleCustody
    ⟨rfl, rfl, rfl⟩ _ hrun (sampleAccess sampleKey ⟨lit "team", lit "app"⟩) _ List.mem_cons_self _ rfl 0
    (le_refl 0)).1 (by decide +kernel)

end Custody

end HarborBridge
