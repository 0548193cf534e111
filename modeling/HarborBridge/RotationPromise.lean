import HarborBridge.CredentialIsolation
import HarborBridge.PasswordTrust
import HarborBridge.Plugin
import HarborBridge.Suspension

/-! Credentials that kubelet caches are not rotated by schedule before they expire: the versions
of the robot Secret, the promises in them and the rotations that passes decide on. -/
namespace HarborBridge

open GoStrings Interaction Rfc3339

/-! ## A response -/

/-- What kubelet caches expires before the promise. -/
theorem cacheDuration_within_promise {tokenTTL nb now : Int} {resp : Response} {image : GoString}
    {out : Plugin.CredentialProviderResponse}
    (hexpires : resp.expiresInSecs = cacheDuration tokenTTL (some nb) now / second)
    (hout : Plugin.writeOKResponse (Plugin.decoded resp) image = .ok out) :
    (now < nb → now + out.cacheDuration ≤ nb) ∧ (nb ≤ now → out.cacheDuration = 0) := by
  obtain ⟨expires, hdecoded, hnonneg, hle⟩ := Plugin.writeOKResponse_cacheDuration hout
  obtain rfl : resp.expiresInSecs = expires := Option.some.inj hdecoded
  -- the seconds of the response are the duration rounded down
  have hseconds := Int.ediv_mul_le (cacheDuration tokenTTL (some nb) now) (b := second) (by decide)
  rw [← hexpires] at hseconds
  have hduration : cacheDuration tokenTTL (some nb) now ≤ max 0 (nb - now) := by
    unfold cacheDuration timeSub
    dsimp only
    have := Int.emod_nonneg (max (-2 ^ 63) (min (2 ^ 63 - 1) (nb - now))) (show second ≠ 0 by decide)
    split_ifs <;> omega
  exact ⟨fun hlt => by omega, fun hge => by omega⟩

/-! ## Versions and rotations -/

/-- A rotation that a pass decided on: the Secret that it had read, at what time, for which
reason, and the versions of the Secret that had been stored until then. -/
structure Rotation where
  secret : Option Secret
  decidedAt : Int
  why : RotationReason
  stored : List Secret

def Follows (newer older : Secret) : Prop :=
  ∀ username username' password nb, RobotSecret.credentials older = some (username, password) →
    RobotSecret.credentials newer = some (username', password) →
    RobotSecret.rotationNotBefore older = some nb →
    ∃ nb', RobotSecret.rotationNotBefore newer = some nb' ∧ nb ≤ nb'

def StablePromise (s : Secret) : Prop :=
  ∀ nb, RobotSecret.rotationNotBefore s = some nb → parse (RobotSecret.formatRotationNotBefore nb) = some nb

/-- A scheduled rotation is decided after the promises that were ever stored with the password. -/
def Rotation.AfterPromises (ρ : Rotation) : Prop :=
  ρ.why = .scheduled → ∀ s username password, ρ.secret = some s →
    RobotSecret.credentials s = some (username, password) → ∀ old ∈ ρ.stored, ∀ username' nb,
    RobotSecret.credentials old = some (username', password) →
    RobotSecret.rotationNotBefore old = some nb → nb + rotationSafetyMargin ≤ ρ.decidedAt

/-- Harbor, the robot Secret and the clock, and what the worker has done: the Secret and the time
that it last read, and the rotations that it logged. -/
structure Chronicle extends Custody where
  seen : Option Secret
  asked : Int
  rotations : List Rotation

namespace Chronicle

def note (w : Chronicle) : (role : Role) → (call : Call) → Answer call → Chronicle
  | .worker, .readSecret _ _, (r : Except ApiErr Secret) =>
    match r with
    | .ok s => { w with seen := some s }
    | .error .notFound => { w with seen := none }
    | .error _ => w
  | .worker, .now, (t : Int) => { w with asked := t }
  | .worker, .logRotation _ why, _ =>
    { w with rotations := ⟨w.seen, w.asked, why, w.vault.stored⟩ :: w.rotations }
  | _, _, _ => w

def Answers (c : Config) (key : ObjectKey) (role : Role) (w : Chronicle) (call : Call)
    (r : Answer call) (w' : Chronicle) : Prop :=
  ∃ v, w.toCustody.Answers (fun _ => True) c key call r v ∧
    w' = ({ w with toCustody := v } : Chronicle).note role call r

/-- What others do leaves alone what the worker has done. -/
def Others (w w' : Chronicle) : Prop := ∃ v, w.toCustody.Others v ∧ w' = { w with toCustody := v }

def Continues (c : Config) (key : ObjectKey) :
    System (Unit × Role) Call Answer Chronicle → System (Unit × Role) Call Answer Chronicle → Prop :=
  Relation.ReflTransGen (System.Step (fun i => Answers c key i.2) Others (Custody.Starts c key))

def Run (c : Config) (key : ObjectKey) (w : Chronicle)
    (s : System (Unit × Role) Call Answer Chronicle) : Prop := Continues c key (System.idle w) s

/-- A run starts without a Secret or with one that the bridge wrote, with a password of Harbor. -/
structure Start (c : Config) (key : ObjectKey) (w : Chronicle) : Prop where
  stored : w.vault.stored = w.vault.secret.toList
  named : ∀ s, w.vault.secret = some s → s.ns = c.ns ∧ s.name = RobotSecret.name key.ns key.name ∧
    s.resourceVersion ≤ w.vault.revision
  issued : ∀ s, w.vault.secret = some s → ∀ username password,
    RobotSecret.credentials s = some (username, password) → password ∈ w.harbor.issued
  stable : ∀ s, w.vault.secret = some s → StablePromise s
  rotations : w.rotations = []

/-! ## The invariant -/

structure Safe (c : Config) (key : ObjectKey) (w : Chronicle) : Prop where
  ok : w.vault.Ok c.ns (RobotSecret.name key.ns key.name)
  newest : ∀ s, w.vault.secret = some s → w.vault.stored.head? = some s
  issued : ∀ s ∈ w.vault.stored, ∀ username password,
    RobotSecret.credentials s = some (username, password) → password ∈ w.harbor.issued
  stable : ∀ s ∈ w.vault.stored, StablePromise s
  ordered : w.vault.stored.Pairwise Follows
  rotations : ∀ ρ ∈ w.rotations, ρ.AfterPromises

/-- What a pass knows is so. Only the pass itself can have stored the password that Harbor gave
it, and with the promise of a whole interval. -/
structure Fits (c : Config) (key : ObjectKey) (_ : Unit) (k : PassKnows) (w : Chronicle) :
    Prop where
  key : k.key = key
  own : k.OwnCopy
  vault : w.vault.Fits k
  newest : k.wrote = false → ∀ s, k.secret = some (some s) → w.vault.stored.head? = some s
  seen : ∀ s, k.secret = some (some s) → w.seen = some s
  asked : ∀ t, k.clock = some t → w.asked = t
  password : ∀ id password, k.password = some (id, password) → password ∈ w.harbor.issued ∧
    ∀ s ∈ w.vault.stored, ∀ username, RobotSecret.credentials s = some (username, password) →
      k.wrote = true ∧ ∃ now, k.clock = some now ∧ RobotSecret.rotationNotBefore s =
        parse (RobotSecret.formatRotationNotBefore (now + passwordRotationInterval))

/-! ## Versions -/

section Versions

variable {c : Config} {key : ObjectKey} {w : Chronicle} {u : Unit} {k : PassKnows}

theorem follows_refl (s : Secret) : Follows s s := by
  intro username username' password nb _ _ hnb
  exact ⟨nb, hnb, le_rfl⟩

/-- The newest version follows all that were ever stored. -/
theorem Safe.follows (hw : Safe c key w) {s : Secret} (hs : w.vault.stored.head? = some s) :
    ∀ old ∈ w.vault.stored, Follows s old := by
  obtain ⟨rest, hrest⟩ := List.head?_eq_some_iff.mp hs
  have hordered := hw.ordered
  rw [hrest] at hordered ⊢
  intro old hold
  rcases List.mem_cons.mp hold with rfl | hold
  · exact follows_refl old
  · exact (List.pairwise_cons.mp hordered).1 old hold

structure Adds (k : PassKnows) (w : Chronicle) (new : Secret) : Prop where
  issued : ∀ username password, RobotSecret.credentials new = some (username, password) →
    password ∈ w.harbor.issued
  stable : StablePromise new
  follows : ∀ old ∈ w.vault.stored, Follows new old
  password : ∀ id password, k.password = some (id, password) → ∀ username,
    RobotSecret.credentials new = some (username, password) → ∃ now, k.clock = some now ∧
      RobotSecret.rotationNotBefore new =
        parse (RobotSecret.formatRotationNotBefore (now + passwordRotationInterval))

theorem Fits.adds (hk : Fits c key u k w) (hw : Safe c key w) {ha : HarborAccess} {robot : Robot}
    {password : GoString} {notBefore : Int} {new : Secret}
    (hnew : w.vault.Records k ha robot password notBefore new) : Adds k w new := by
  have hstable : StablePromise new := by
    intro nb hnb
    rw [hnew.notBefore] at hnb
    exact RobotSecret.parse_of_parse hnb
  cases hnew.stores with
  | new hpassword hne now hnow hpromise =>
    have hcreds : ∀ username p, RobotSecret.credentials new = some (username, p) → p = password := by
      intro username p hp
      rcases hnew.credentials with hcreds | ⟨hempty, -⟩
      · rw [hcreds, Vault.newCredentials] at hp
        split_ifs at hp
        exact (Prod.mk.inj (Option.some.inj hp)).2.symm
      · exact absurd hempty hne
    obtain ⟨hissued, hstored⟩ := hk.password robot.id password hpassword
    rw [hpromise] at hnew
    refine ⟨fun username p hp => hcreds username p hp ▸ hissued, hstable, ?_, ?_⟩
    · -- the versions that have the password have the same promise
      intro old hold username username' p nb hpold hp hnb
      obtain rfl := hcreds username' p hp
      obtain ⟨-, now', hnow', hsame⟩ := hstored old hold username hpold
      obtain rfl := Option.some.inj (hnow.symm.trans hnow')
      exact ⟨nb, by rw [hnew.notBefore, ← hsame, hnb], le_rfl⟩
    · exact fun id p _ username hp => ⟨now, hnow, hnew.notBefore⟩
  | same hempty secret hsecret hwrote now hnow hwhy hpromise =>
    have hold : ∀ username p, RobotSecret.credentials new = some (username, p) →
        w.vault.secret = some secret ∧ RobotSecret.credentials secret = some (username, p) := by
      intro username p hp
      rcases hnew.credentials with hcreds | ⟨-, existing, hknown, hlive, hcreds⟩
      · rw [hcreds, Vault.newCredentials, if_pos (.inr hempty)] at hp
        cases hp
      · obtain rfl := Option.some.inj (Option.some.inj (hknown.symm.trans hsecret))
        exact ⟨hlive, hcreds.symm.trans hp⟩
    refine ⟨fun username p hp => ?_, hstable, ?_, fun id p hpassword username hp => ?_⟩
    · obtain ⟨hlive, hcreds⟩ := hold username p hp
      exact hw.issued secret (hw.ok.live secret hlive) username p hcreds
    · -- the promise of the version that is replaced stays
      intro old hmem username username' p nb hpold hp hnb
      obtain ⟨hlive, hcreds⟩ := hold username' p hp
      obtain ⟨nb', hnb', hle⟩ :=
        hw.follows (hw.newest secret hlive) old hmem username username' p nb hpold hcreds hnb
      refine ⟨nb', ?_, hle⟩
      rw [hnew.notBefore, hpromise, rotationNotBefore, Option.bind_some, hnb']
      exact hw.stable secret (hw.ok.live secret hlive) nb' hnb'
    · -- the pass has not stored the password that it was given
      obtain ⟨hlive, hcreds⟩ := hold username p hp
      obtain ⟨hwrote', -⟩ := (hk.password id p hpassword).2 secret (hw.ok.live secret hlive) username hcreds
      rw [hwrote] at hwrote'
      cases hwrote'

end Versions

/-! ## Steps -/

section Steps

variable {c : Config} {key : ObjectKey} {w w' : Chronicle} {u : Unit} {k : PassKnows}

/-- The invariant is about Harbor, the versions and the rotations. -/
theorem Safe.congr (hw : Safe c key w) (hissued : w.harbor.issued ⊆ w'.harbor.issued)
    (hvault : w'.vault = w.vault) (hrotations : w'.rotations = w.rotations) : Safe c key w' := by
  refine ⟨hvault ▸ hw.ok, hvault ▸ hw.newest, ?_, hvault ▸ hw.stable, hvault ▸ hw.ordered,
    hrotations ▸ hw.rotations⟩
  rw [hvault]
  exact fun s hs username password hcreds => hissued (hw.issued s hs username password hcreds)

/-- The invariant is kept by a version that a pass stores, and when the Secret is deleted. -/
theorem Safe.vault (hw : Safe c key w) {v : Vault}
    (hok : v.Ok c.ns (RobotSecret.name key.ns key.name))
    (hcase : (v.stored = w.vault.stored ∧ (v.secret = w.vault.secret ∨ v.secret = none)) ∨
      ∃ new, v.secret = some new ∧ v.stored = new :: w.vault.stored ∧ Adds k w new) :
    Safe c key { w with vault := v } := by
  rcases hcase with ⟨hstored, hsecret⟩ | ⟨new, hsecret, hstored, hadds⟩
  · refine ⟨hok, fun s hs => ?_, ?_, ?_, ?_, hw.rotations⟩ <;> dsimp only at *
    · rw [hstored]
      rcases hsecret with hsame | hnone
      · exact hw.newest s (hsame.symm.trans hs)
      · cases hnone.symm.trans hs
    · rw [hstored]
      exact hw.issued
    · rw [hstored]
      exact hw.stable
    · rw [hstored]
      exact hw.ordered
  · refine ⟨hok, fun s hs => ?_, fun s hs => ?_, fun s hs => ?_, ?_, hw.rotations⟩ <;>
      dsimp only at * <;> rw [hstored] at *
    · exact (hsecret.symm.trans hs)
    · rcases List.mem_cons.mp hs with rfl | hs
      · exact hadds.issued
      · exact hw.issued s hs
    · rcases List.mem_cons.mp hs with rfl | hs
      · exact hadds.stable
      · exact hw.stable s hs
    · exact List.pairwise_cons.mpr ⟨hadds.follows, hw.ordered⟩

theorem note_vault (w : Chronicle) (role : Role) (call : Call) (r : Answer call) :
    (w.note role call r).vault = w.vault ∧ (w.note role call r).harbor = w.harbor := by
  cases role with
  | janitor => cases call <;> exact ⟨rfl, rfl⟩
  | worker =>
    cases call with
    | readSecret ns name =>
      match r with
      | Except.ok s => exact ⟨rfl, rfl⟩
      | Except.error e => cases e <;> exact ⟨rfl, rfl⟩
    | _ => exact ⟨rfl, rfl⟩

theorem note_rotations (w : Chronicle) {call : Call} (hlog : ∀ name why, call ≠ .logRotation name why)
    (r : Answer call) : (w.note .worker call r).rotations = w.rotations := by
  cases call with
  | readSecret ns name =>
    match r with
    | Except.ok s => rfl
    | Except.error e => cases e <;> rfl
  | logRotation name why => exact absurd rfl (hlog name why)
  | _ => rfl

theorem note_asked (w : Chronicle) {call : Call} (hnow : call ≠ .now) (r : Answer call) :
    (w.note .worker call r).asked = w.asked := by
  cases call with
  | readSecret ns name =>
    match r with
    | Except.ok s => rfl
    | Except.error e => cases e <;> rfl
  | now => exact absurd rfl hnow
  | _ => rfl

theorem note_seen (w : Chronicle) {call : Call} (hread : ∀ ns name, call ≠ .readSecret ns name)
    (r : Answer call) : (w.note .worker call r).seen = w.seen := by
  cases call with
  | readSecret ns name => exact absurd rfl (hread ns name)
  | _ => rfl

theorem Fits.harbor (hk : Fits c key u k w) (hw : Safe c key w) {request : HarborCall}
    (hallowed : k.AllowsHarbor c request) {r : HarborAnswer request} {h : Harbor}
    (hf : w.harbor.Faulty request r h) :
    Fits c key u (k.learn c (.harbor request) r) { w with harbor := h } := by
  obtain ⟨hkey, -, -, -, hsecret, hwrote, hclock⟩ := k.learn_harbor (c := c) request r
  have hsub := hf.effect.issued_subset
  have huntracked : ¬ Vault.Tracked (.harbor request) := fun h => h
  have hown : (k.learn c (.harbor request) r).OwnCopy :=
    hk.own.learn (show k.Allows c (.harbor request) from hallowed) trivial
  refine ⟨hkey.trans hk.key, hown, hk.vault.learn_untracked huntracked r, ?_, ?_, ?_, ?_⟩
  · exact fun hfalse s hs => hk.newest (hwrote.symm.trans hfalse) s (hsecret.symm.trans hs)
  · exact fun s hs => hk.seen s (hsecret.symm.trans hs)
  · exact fun t ht => hk.asked t (hclock.symm.trans ht)
  · intro id password hpassword
    rcases Suspension.password_learnHarbor hf hpassword with hold | ⟨hnew, hissued⟩
    · obtain ⟨hissued, hstored⟩ := hk.password id password hold
      refine ⟨hsub hissued, fun s hs username hcreds => ?_⟩
      obtain ⟨htrue, now, hnow, hnb⟩ := hstored s hs username hcreds
      exact ⟨hwrote.trans htrue, now, hclock.trans hnow, hnb⟩
    · -- nobody has stored a password that is new
      exact ⟨hissued, fun s hs username hcreds =>
        absurd (hw.issued s hs username password hcreds) hnew⟩

/-- The Secret that a pass knows after a call about it: the one that it has just read, or the
one that it knew. -/
theorem secret_of_learn {call : Call} {r : Answer call} {v : Vault}
    (hslot : ∀ ha, k.copy = some ha → RobotSecret.name key.ns key.name =
      RobotSecret.name ha.key.ns ha.key.name)
    (hallowed : k.Allows c call)
    (hv : w.vault.Answers c.ns (RobotSecret.name key.ns key.name) call r v) {s : Secret}
    (hs : (k.learn c call r).secret = some (some s)) :
    (w.vault.secret = some s ∧ v = w.vault ∧ ∀ x : Chronicle, (x.note .worker call r).seen = some s) ∨
      k.secret = some (some s) ∧ v.stored = w.vault.stored ∧
        (∀ x : Chronicle, (x.note .worker call r).seen = x.seen) ∨
      k.secret = some (some s) ∧ (k.learn c call r).wrote = true ∧
        ∀ x : Chronicle, (x.note .worker call r).seen = x.seen := by
  cases hv with
  | read =>
    cases hsecret : w.vault.secret with
    | none =>
      rw [hsecret] at hs
      cases Option.some.inj hs
    | some live =>
      rw [hsecret] at hs
      obtain rfl := Option.some.inj (Option.some.inj hs)
      exact .inl ⟨rfl, rfl, fun x => rfl⟩
  | readFailed e he =>
    cases e with
    | notFound => exact absurd rfl he
    | _ => exact .inr (.inl ⟨hs, rfl, fun x => rfl⟩)
  | createFailed s e => exact .inr (.inl ⟨hs, rfl, fun x => rfl⟩)
  | updateFailed s e => exact .inr (.inl ⟨hs, rfl, fun x => rfl⟩)
  | created s hname habsent r => exact .inr (.inr ⟨hs, rfl, fun x => rfl⟩)
  | updated s l hl hlock r => exact .inr (.inr ⟨hs, rfl, fun x => rfl⟩)
  | deleted s l hl huid r hr =>
    match r with
    | Except.ok () => cases Option.some.inj hs
    | Except.error e => cases e <;> cases hs
  | deleteFailed s e he => cases e <;> cases hs
  | elsewhere call r h =>
    cases call with
    | readSecret ns' name' =>
      obtain ⟨ha, hcopy, rfl, rfl, -⟩ := hallowed
      exact absurd ⟨rfl, (hslot ha hcopy).symm⟩ h
    | deleteSecret s' =>
      match r with
      | Except.ok () => cases Option.some.inj hs
      | Except.error e => cases e <;> cases hs
    | createSecret s' => exact .inr (.inl ⟨hs, rfl, fun x => rfl⟩)
    | updateSecret s' => exact .inr (.inl ⟨hs, rfl, fun x => rfl⟩)
    | _ => exact h.elim

theorem wrote_of_answers {call : Call} {r : Answer call} {v v' : Vault} {ns name : GoString}
    (hv : v.Answers ns name call r v') :
    (k.wrote = true → (k.learn c call r).wrote = true) ∧
      (v'.stored ≠ v.stored → (k.learn c call r).wrote = true) := by
  cases hv with
  | read =>
    cases v.secret <;> exact ⟨fun h => h, fun h => absurd rfl h⟩
  | readFailed e he => cases e <;> exact ⟨fun h => h, fun h => absurd rfl h⟩
  | createFailed | updateFailed | created | updated => exact ⟨fun _ => rfl, fun _ => rfl⟩
  | deleted s l hl huid r hr =>
    match r with
    | Except.ok () => exact ⟨fun h => h, fun h => absurd rfl h⟩
    | Except.error e => cases e <;> exact ⟨fun h => h, fun h => absurd rfl h⟩
  | deleteFailed s e he => cases e <;> exact ⟨fun h => h, fun h => absurd rfl h⟩
  | elsewhere call r h =>
    cases call with
    | readSecret | deleteSecret =>
      match r with
      | Except.ok _ => exact ⟨fun h => h, fun h => absurd rfl h⟩
      | Except.error e => cases e <;> exact ⟨fun h => h, fun h => absurd rfl h⟩
    | createSecret | updateSecret => exact ⟨fun _ => rfl, fun _ => rfl⟩
    | _ => exact h.elim

theorem kind_of_answers {call : Call} {r : Answer call} {v v' : Vault} {ns name : GoString}
    (hv : v.Answers ns name call r v') : (∀ request, call ≠ .harbor request) ∧ call ≠ .now ∧
      (∀ robot why, call ≠ .logRotation robot why) ∧ RightObject call r := by
  cases hv with
  | elsewhere call r h =>
    cases call with
    | readSecret | createSecret | updateSecret | deleteSecret =>
      exact ⟨nofun, nofun, nofun, trivial⟩
    | _ => exact h.elim
  | _ => exact ⟨nofun, nofun, nofun, trivial⟩

theorem Fits.answers (hk : Fits c key u k w) (hw : Safe c key w) {call : Call} {r : Answer call}
    {v : Vault} (hallowed : k.Allows c call)
    (hv : w.vault.Answers c.ns (RobotSecret.name key.ns key.name) call r v)
    (hcase : v.stored = w.vault.stored ∨
      ∃ new, v.stored = new :: w.vault.stored ∧ Adds k w new) :
    Fits c key u (k.learn c call r) (({ w with vault := v } : Chronicle).note .worker call r) := by
  obtain ⟨hharbor, hnow, -, hright⟩ := kind_of_answers hv
  have hslot : ∀ ha, k.copy = some ha → RobotSecret.name key.ns key.name =
      RobotSecret.name ha.key.ns ha.key.name := by
    intro ha hcopy
    rw [hk.own ha hcopy, hk.key]
  obtain ⟨hvault, hsame⟩ := note_vault { w with vault := v } .worker call r
  obtain ⟨-, -, -, -, -, hpassword⟩ := k.learn_kube (c := c) hharbor r
  have hclock := k.learn_clock (c := c) hnow r
  obtain ⟨hwrote, hnew⟩ := wrote_of_answers (c := c) (k := k) hv
  refine ⟨(k.learn_key call r).trans hk.key, hk.own.learn hallowed hright, ?_, ?_, ?_, ?_, ?_⟩
  · rw [hvault]
    exact hv.fits hw.ok hk.vault (fun ha hcopy => ⟨rfl, hslot ha hcopy⟩) hallowed
  · intro hfalse s hs
    rw [hvault]
    rcases secret_of_learn hslot hallowed hv hs with ⟨hlive, rfl, -⟩ | ⟨hold, hstored, -⟩ |
      ⟨-, htrue, -⟩
    · exact hw.newest s hlive
    · rw [hstored]
      refine hk.newest ?_ s hold
      cases hkw : k.wrote with
      | false => rfl
      | true => cases (hwrote hkw).symm.trans hfalse
    · cases htrue.symm.trans hfalse
  · intro s hs
    rcases secret_of_learn hslot hallowed hv hs with ⟨-, -, hseen⟩ | ⟨hold, -, hseen⟩ |
      ⟨hold, -, hseen⟩
    · exact hseen _
    · exact (hseen _).trans (hk.seen s hold)
    · exact (hseen _).trans (hk.seen s hold)
  · intro t ht
    rw [note_asked _ hnow]
    exact hk.asked t (hclock.symm.trans ht)
  · intro id password hp
    rw [hpassword] at hp
    rw [hvault, hsame, hclock]
    obtain ⟨hissued, hstored⟩ := hk.password id password hp
    refine ⟨hissued, fun s hs username hcreds => ?_⟩
    -- an old version has the password only if the pass has written it before
    have hold : s ∈ w.vault.stored → _ := fun hs => hstored s hs username hcreds
    rcases hcase with heq | ⟨new, heq, hadds⟩
    · rw [show ({ w with vault := v } : Chronicle).vault.stored = w.vault.stored from heq] at hs
      obtain ⟨htrue, hpromise⟩ := hold hs
      exact ⟨hwrote htrue, hpromise⟩
    · rw [show ({ w with vault := v } : Chronicle).vault.stored = new :: w.vault.stored from heq] at hs
      rcases List.mem_cons.mp hs with rfl | hs
      · refine ⟨hnew fun h => ?_, hadds.password id password hp username hcreds⟩
        rw [heq] at h
        exact List.cons_ne_self _ _ h
      · obtain ⟨htrue, hpromise⟩ := hold hs
        exact ⟨hwrote htrue, hpromise⟩

/-- A pass reads the clock before it stores anything. -/
theorem Fits.now (hk : Fits c key u k w) (hfalse : k.wrote = false) (t : Int) :
    Fits c key u (k.learn c .now t) { w with clock := t, asked := t } := by
  have huntracked : ¬ Vault.Tracked .now := fun h => h
  refine ⟨hk.key, hk.own, hk.vault.learn_untracked (c := c) huntracked t, hk.newest,
    hk.seen, ?_, ?_⟩
  · exact fun t' ht' => Option.some.inj ht'
  · intro id password hp
    obtain ⟨hissued, hstored⟩ := hk.password id password hp
    refine ⟨hissued, fun s hs username hcreds => ?_⟩
    cases hfalse.symm.trans (hstored s hs username hcreds).1

/-- Calls that are neither about Harbor nor about the Secret leave what a pass knows of them. -/
theorem Fits.other (hk : Fits c key u k w) {call : Call} {r : Answer call}
    (hallowed : k.Allows c call) (hharbor : ∀ request, call ≠ .harbor request) (hnow : call ≠ .now)
    (hvault : ¬ Vault.Tracked call) (hright : RightObject call r) :
    Fits c key u (k.learn c call r) (w.note .worker call r) := by
  obtain ⟨hsecret, hwrote⟩ := Vault.learn_untracked (c := c) (k := k) hvault r
  obtain ⟨-, -, -, -, -, hpassword⟩ := k.learn_kube (c := c) hharbor r
  have hclock := k.learn_clock (c := c) hnow r
  have hread : ∀ ns name, call ≠ .readSecret ns name := by
    rintro ns name rfl
    exact hvault trivial
  obtain ⟨hsame, hharbor'⟩ := note_vault w .worker call r
  refine ⟨(k.learn_key call r).trans hk.key, hk.own.learn hallowed hright, ?_, ?_, ?_, ?_, ?_⟩
  · rw [hsame]
    exact hk.vault.learn_untracked hvault r
  · rw [hsame, hsecret, hwrote]
    exact hk.newest
  · rw [note_seen w hread, hsecret]
    exact hk.seen
  · rw [note_asked w hnow, hclock]
    exact hk.asked
  · rw [hsame, hharbor', hpassword, hwrote, hclock]
    exact hk.password

/-- A rotation by schedule waits for the promise that is stored with the password. -/
theorem le_of_scheduled {ha : HarborAccess} {s : Secret} {robot : Robot} {now nb : Int}
    (h : rotationReason ha (some s) robot now = some .scheduled)
    (hnb : RobotSecret.rotationNotBefore s = some nb) : nb + rotationSafetyMargin ≤ now := by
  unfold rotationReason at h
  dsimp only at h
  rw [hnb] at h
  split at h
  · cases h
  · dsimp only at h
    split_ifs at h with husername hother hdue
    · cases h
    · cases h
    · exact hdue

theorem Safe.logs (hw : Safe c key w) (hk : Fits c key u k w) {name : GoString}
    {why : RotationReason} (hallowed : k.Allows c (.logRotation name why)) :
    Safe c key (w.note .worker (.logRotation name why) ()) := by
  obtain ⟨ha, robot, secret, now, -, -, hsecret, hwrote, hclock, hwhy⟩ := hallowed
  refine ⟨hw.ok, hw.newest, hw.issued, hw.stable, hw.ordered, fun ρ hρ => ?_⟩
  rcases List.mem_cons.mp hρ with rfl | hρ
  · intro hscheduled s username password hseen hcreds old hold username' nb hpold hnb
    dsimp only at hscheduled hseen hold ⊢
    subst hscheduled
    cases secret with
    | none => cases hwhy
    | some s' =>
      obtain rfl := Option.some.inj (hseen.symm.trans (hk.seen s' hsecret))
      -- the version that the pass has read is the newest one
      obtain ⟨nb', hnb', hle⟩ := hw.follows (hk.newest hwrote s hsecret) old hold username' username
        password nb hpold hcreds hnb
      have hdue := le_of_scheduled hwhy hnb'
      rw [hk.asked now hclock]
      omega
  · exact hw.rotations ρ hρ

theorem Safe.answers (hw : Safe c key w) (hk : Fits c key u k w) {call : Call}
    (hallowed : k.Allows c call) {r : Answer call} (hs : w.Answers c key .worker call r w') :
    Safe c key w' ∧ Fits c key u (k.learn c call r) w' := by
  obtain ⟨v, hs, rfl⟩ := hs
  cases hs with
  | harbor request r h hf =>
    exact ⟨hw.congr hf.effect.issued_subset rfl rfl, hk.harbor hw hallowed hf⟩
  | vault call r v hv =>
    have hchange := (hv.change hw.ok hk.vault hallowed).cases
    obtain ⟨hvault, hharbor⟩ := note_vault { w with vault := v } .worker call r
    obtain ⟨-, -, hlog, -⟩ := kind_of_answers hv
    have hissued : w.harbor.issued ⊆
        (({ w with vault := v } : Chronicle).note .worker call r).harbor.issued := by
      rw [hharbor]
      exact fun _ h => h
    have hok := hv.ok hw.ok hk.vault hallowed
    have hrotations := note_rotations { w with vault := v } hlog r
    rcases hchange with ⟨hstored, hsecret⟩ |
      ⟨ha, robot, password, notBefore, new, hnew, hsecret, hstored⟩
    · refine ⟨?_, hk.answers hw hallowed hv (.inl hstored)⟩
      exact (hw.vault (k := k) hok (.inl ⟨hstored, hsecret⟩)).congr hissued hvault hrotations
    · have hadds := hk.adds hw hnew
      refine ⟨?_, hk.answers hw hallowed hv (.inr ⟨new, hstored, hadds⟩)⟩
      exact (hw.vault hok (.inr ⟨new, hsecret, hstored, hadds⟩)).congr hissued hvault hrotations
  | now t hle => exact ⟨hw.congr (fun _ h => h) rfl rfl, hk.now hallowed t⟩
  | other call r hcall hright =>
    obtain ⟨hharbor, hnow, hvault⟩ := Custody.untracked hcall
    refine ⟨?_, hk.other hallowed hharbor hnow hvault hright⟩
    by_cases hlog : ∃ name why, call = .logRotation name why
    · obtain ⟨name, why, rfl⟩ := hlog
      exact hw.logs hk hallowed
    · obtain ⟨hsame, hharbor'⟩ := note_vault w .worker call r
      refine hw.congr (hharbor' ▸ fun _ h => h) hsame (note_rotations w ?_ r)
      exact fun name why h => hlog ⟨name, why, h⟩

/-- Who knows of the Secret keeps knowing when robots or the Secret are deleted. -/
theorem Fits.mono (hk : Fits c key u k w) (hissued : w.harbor.issued ⊆ w'.harbor.issued)
    (hvault : w'.vault = w.vault ∨ w'.vault = { w.vault with secret := none })
    (hseen : w'.seen = w.seen) (hasked : w'.asked = w.asked) : Fits c key u k w' := by
  have hstored : w'.vault.stored = w.vault.stored := by
    rcases hvault with h | h <;> rw [h]
  refine ⟨hk.key, hk.own, ?_, hstored ▸ hk.newest, hseen ▸ hk.seen, hasked ▸ hk.asked, ?_⟩
  · rcases hvault with h | h <;> rw [h]
    · exact hk.vault
    · exact hk.vault.delete
  · intro id password hp
    obtain ⟨h, hpromise⟩ := hk.password id password hp
    exact ⟨hissued h, hstored ▸ hpromise⟩

theorem Safe.sweeps (hw : Safe c key w) {k : SweepKnows} {call : Call}
    (hallowed : k.Allows c call) {r : Answer call} (hs : w.Answers c key .janitor call r w') :
    Safe c key w' ∧ ∀ k, Fits c key u k w → Fits c key u k w' := by
  obtain ⟨v, hs, rfl⟩ := hs
  cases hs with
  | harbor request r h hf =>
    have hsub := hf.effect.issued_subset
    exact ⟨hw.congr hsub rfl rfl, fun k hk => hk.mono hsub (.inl rfl) rfl rfl⟩
  | vault call r v hv =>
    rcases hv.sweep hallowed with rfl | rfl
    · exact ⟨hw, fun k hk => hk⟩
    · refine ⟨hw.vault (k := PassKnows.start key) hw.ok.delete (.inl ⟨rfl, .inr rfl⟩), fun k hk => ?_⟩
      exact hk.mono (fun _ h => h) (.inr rfl) rfl rfl
  | now t hle => exact hallowed.elim
  | other call r => exact ⟨hw, fun k hk => hk⟩

theorem Safe.others (hw : Safe c key w) (hs : w.Others w') :
    Safe c key w' ∧ ∀ k, Fits c key u k w → Fits c key u k w' := by
  obtain ⟨v, hs, rfl⟩ := hs
  cases hs with
  | tick t hle =>
    exact ⟨hw.congr (fun _ h => h) rfl rfl, fun k hk => hk.mono (fun _ h => h) (.inl rfl) rfl rfl⟩
  | deleteRobot id =>
    have hsub := (Harbor.Effect.deleted (h := w.harbor) id).issued_subset
    exact ⟨hw.congr hsub rfl rfl, fun k hk => hk.mono hsub (.inl rfl) rfl rfl⟩

theorem Start.safe (hw : Start c key w) : Safe c key w := by
  have hlive : ∀ s, w.vault.secret = some s ↔ s ∈ w.vault.stored := by
    intro s
    rw [hw.stored]
    exact Option.mem_toList.symm
  have hunique : ∀ s ∈ w.vault.stored, ∀ t ∈ w.vault.stored, s = t := fun s hs t ht =>
    Option.some.inj (((hlive s).mpr hs).symm.trans ((hlive t).mpr ht))
  refine ⟨⟨fun s => (hlive s).mp, fun s hs => hw.named s ((hlive s).mpr hs),
    fun s hs t ht _ => hunique s hs t ht⟩, fun s hs => ?_, fun s hs => hw.issued s ((hlive s).mpr hs),
    fun s hs => hw.stable s ((hlive s).mpr hs), ?_, ?_⟩
  · rw [hw.stored, hs]
    rfl
  · rw [hw.stored]
    cases w.vault.secret with
    | none => exact List.Pairwise.nil
    | some s => exact List.pairwise_singleton _ _
  · rw [hw.rotations]
    exact fun ρ hρ => nomatch hρ

theorem Fits.start : Fits c key u (PassKnows.start key) w := by
  have hnone : ∀ s : Secret, (none : Option (Option Secret)) ≠ some (some s) :=
    fun s => (Option.some_ne_none _).symm
  exact ⟨rfl, fun ha h => absurd h (Option.some_ne_none ha).symm, Vault.fits_start key,
    fun _ s h => absurd h (hnone s), fun s h => absurd h (hnone s),
    fun t h => absurd h (Option.some_ne_none t).symm,
    fun id password h => absurd h (Option.some_ne_none _).symm⟩

theorem Run.safe {s : System (Unit × Role) Call Answer Chronicle} (hrun : Run c key w s)
    (hw : Start c key w) : Safe c key s.world := by
  have hholds : (observer fun _ : Unit => c).Holds (Safe c key)
      (Knowledge.Fits (Fits c key) fun _ _ _ => True) s := by
    refine holds_bridge ?_ ?_ ?_ ?_ hrun (Observer.holds_idle hw.safe)
    · intro i p w hp _
      cases hp with
      | reconcile => exact ⟨_, .worker Fits.start, reconcile_observed _ () key⟩
      | sweep => exact ⟨_, .janitor trivial, sweep_observed _ ()⟩
    · intro w v hs hw
      obtain ⟨hsafe, hkeep⟩ := hw.others hs
      exact ⟨hsafe, hkeep, fun _ _ => trivial⟩
    · intro k w call r w' hw hk hallowed hs
      obtain ⟨hsafe, hfits⟩ := hw.answers hk hallowed hs
      exact ⟨hsafe, hfits, fun _ _ => trivial⟩
    · intro k w call r w' hw _ hallowed hs
      obtain ⟨hsafe, hkeep⟩ := hw.sweeps hallowed hs
      exact ⟨hsafe, trivial, hkeep⟩
  exact hholds.1

end Steps

/-! ## Later versions and rotations -/

structure Since (w : Chronicle) (newer : List Secret) (later : List Rotation) (w' : Chronicle) :
    Prop where
  stored : w'.vault.stored = newer ++ w.vault.stored
  rotations : w'.rotations = later ++ w.rotations
  knew : ∀ ρ ∈ later, w.vault.stored ⊆ ρ.stored

section Later

variable {c : Config} {key : ObjectKey} {w w' : Chronicle}

theorem stored_of_answers {v v' : Vault} {ns name : GoString} {call : Call} {r : Answer call}
    (hv : v.Answers ns name call r v') : ∃ newer, v'.stored = newer ++ v.stored := by
  have hput (s : Secret) : ∃ newer, (v.put s).stored = newer ++ v.stored := ⟨[_], rfl⟩
  cases hv with
  | created s => exact hput s
  | updated s => exact hput s
  | _ => exact ⟨[], rfl⟩

theorem note_since (w : Chronicle) (role : Role) (call : Call) (r : Answer call) :
    ∃ later, Since w [] later (w.note role call r) := by
  have hsame (x : Chronicle) (hvault : x.vault = w.vault) (hrotations : x.rotations = w.rotations) :
      ∃ later, Since w [] later x :=
    ⟨[], by rw [hvault, List.nil_append], hrotations, fun ρ hρ => nomatch hρ⟩
  obtain ⟨hvault, -⟩ := note_vault w role call r
  cases role with
  | janitor => exact hsame _ hvault (by cases call <;> rfl)
  | worker =>
    by_cases hlog : ∃ name why, call = .logRotation name why
    · obtain ⟨name, why, rfl⟩ := hlog
      refine ⟨[_], rfl, rfl, fun ρ hρ => ?_⟩
      obtain rfl := List.mem_singleton.mp hρ
      exact fun _ h => h
    · exact hsame _ hvault (note_rotations w (fun name why h => hlog ⟨name, why, h⟩) r)

theorem Since.trans {x : Chronicle} {newer newer' : List Secret} {later later' : List Rotation}
    (h : Since w newer later w') (h' : Since w' newer' later' x) :
    Since w (newer' ++ newer) (later' ++ later) x := by
  refine ⟨?_, ?_, fun ρ hρ => ?_⟩
  · rw [h'.stored, h.stored, List.append_assoc]
  · rw [h'.rotations, h.rotations, List.append_assoc]
  · rcases List.mem_append.mp hρ with hρ | hρ
    · refine List.Subset.trans ?_ (h'.knew ρ hρ)
      rw [h.stored]
      exact List.subset_append_right _ _
    · exact h.knew ρ hρ

theorem Continues.since {s s' : System (Unit × Role) Call Answer Chronicle}
    (h : Continues c key s s') : ∃ newer later, Since s.world newer later s'.world := by
  have hkept (x y : Chronicle) (hvault : y.vault.stored = x.vault.stored)
      (hrotations : y.rotations = x.rotations) : Since x [] [] y :=
    ⟨hvault, hrotations, fun ρ hρ => nomatch hρ⟩
  refine System.world_run (P := fun x => ∃ newer later, Since s.world newer later x) ?_ ?_ h
    ⟨[], [], hkept _ _ rfl rfl⟩
  · rintro i x call r x' ⟨y, hs, rfl⟩ ⟨newer, later, hsince⟩
    obtain ⟨later', hnote⟩ := note_since { x with toCustody := y } i.2 call r
    have hmove : ∃ newer', Since x newer' [] { x with toCustody := y } := by
      cases hs with
      | vault call r v hv =>
        obtain ⟨newer', hstored⟩ := stored_of_answers hv
        exact ⟨newer', hstored, rfl, fun ρ hρ => nomatch hρ⟩
      | _ => exact ⟨[], hkept _ _ rfl rfl⟩
    obtain ⟨newer', hmove⟩ := hmove
    exact ⟨_, _, (hsince.trans hmove).trans hnote⟩
  · rintro x y ⟨v, hs, rfl⟩ ⟨newer, later, hsince⟩
    refine ⟨_, _, hsince.trans (hkept x _ ?_ ?_)⟩ <;> cases hs <;> rfl

end Later

/-- A 200 response at time `t` from the version `s` of the Secret, and how long the plugin lets
kubelet cache it. -/
def Cached (s : Secret) (t d : Int) : Prop :=
  ∃ (h : Handler) (request : Request) (resp : Response) (out : Plugin.CredentialProviderResponse),
    serveHTTP h request = .ok resp ∧ (∀ ns name read, h.getSecret ns name = .ok read → read = s) ∧
      Plugin.Passes resp out ∧ t = h.now ∧ d = out.cacheDuration

theorem Cached.within {s : Secret} {t d nb : Int} (h : Cached s t d)
    (hnb : RobotSecret.rotationNotBefore s = some nb) :
    (t < nb → t + d ≤ nb) ∧ (nb ≤ t → d = 0) := by
  obtain ⟨h, request, resp, out, hok, hread, hpasses, rfl, rfl⟩ := h
  obtain ⟨-, claims, -, -, ha, secret, hserved⟩ := serveHTTP_ok h request resp hok
  obtain rfl := hread _ _ secret hserved.read
  obtain ⟨image, hout⟩ := hpasses.written
  have hexpires := hserved.expires
  rw [hnb] at hexpires
  exact cacheDuration_within_promise hexpires hout

/-- What kubelet caches of a version of the Secret expires before the promise in it. With the
same password the promise stays or moves on, and is read as it is rendered. Passes rotate the
password by schedule when the margin after the promise is over, so that the cached copies have
expired for that long. -/
theorem scheduled_rotation_after_cached_copies (c : Config) (key : ObjectKey) (w : Chronicle)
    (hw : Start c key w) (s s' : System (Unit × Role) Call Answer Chronicle) (hrun : Run c key w s)
    (hrun' : Continues c key s s') : ∃ newer later, Since s.world newer later s'.world ∧
      ∀ version ∈ s.world.vault.stored, ∀ username password nb,
        RobotSecret.credentials version = some (username, password) →
        RobotSecret.rotationNotBefore version = some nb →
        (∀ t d, Cached version t d → (t < nb → t + d ≤ nb) ∧ (nb ≤ t → d = 0)) ∧
        parse (RobotSecret.formatRotationNotBefore nb) = some nb ∧
        (∀ new ∈ newer, ∀ username', RobotSecret.credentials new = some (username', password) →
          ∃ nb', RobotSecret.rotationNotBefore new = some nb' ∧ nb ≤ nb') ∧
        ∀ ρ ∈ later, ρ.why = .scheduled → ∀ read username', ρ.secret = some read →
          RobotSecret.credentials read = some (username', password) →
          nb + rotationSafetyMargin ≤ ρ.decidedAt ∧
          ∀ t d, Cached version t d → t < nb → t + d + rotationSafetyMargin ≤ ρ.decidedAt := by
  obtain ⟨newer, later, hsince⟩ := hrun'.since
  have hsafe' : Safe c key s'.world := Run.safe (Relation.ReflTransGen.trans hrun hrun') hw
  refine ⟨newer, later, hsince, fun version hversion username password nb hcreds hnb => ?_⟩
  have hstored : version ∈ s'.world.vault.stored := by
    rw [hsince.stored]
    exact List.mem_append_right _ hversion
  refine ⟨fun t d hcached => hcached.within hnb, hsafe'.stable version hstored nb hnb, ?_, ?_⟩
  · intro new hnew username' hcreds'
    have hordered := hsafe'.ordered
    rw [hsince.stored] at hordered
    have hfollows := (List.pairwise_append.mp hordered).2.2 new hnew version hversion
    exact hfollows username username' password nb hcreds hcreds' hnb
  · intro ρ hρ hscheduled read username' hread hcreds'
    have hmem : ρ ∈ s'.world.rotations := by
      rw [hsince.rotations]
      exact List.mem_append_left _ hρ
    have hdue := hsafe'.rotations ρ hmem hscheduled read username' password hread hcreds' version
      (hsince.knew ρ hρ hversion) username nb hcreds hnb
    refine ⟨hdue, fun t d hcached hearly => ?_⟩
    have hwithin := (hcached.within hnb).1 hearly
    omega

/-! ## A run -/

/-- The worker is answered at time `t`. -/
def serveAt (t : Int) (w : Chronicle) (call : Call) : Answer call × Chronicle :=
  ((w.toCustody.serveAt t call).1,
    ({ w with toCustody := (w.toCustody.serveAt t call).2 } : Chronicle).note .worker call
      (w.toCustody.serveAt t call).1)

theorem serveAt_clock (t : Int) (w : Chronicle) (hclock : w.clock ≤ t) (call : Call) :
    (w.serveAt t call).2.clock ≤ t := by
  have hnote (x : Chronicle) (r : Answer call) : (x.note .worker call r).clock = x.clock := by
    cases call with
    | readSecret ns name =>
      match r with
      | Except.ok s => rfl
      | Except.error e => cases e <;> rfl
    | _ => rfl
  exact (hnote _ _).le.trans (Custody.serveAt_clock t w.toCustody hclock call)

def sampleChronicle : Chronicle where
  toCustody := Custody.sampleCustody
  seen := none
  asked := 0
  rotations := []

def samplePass (t : Int) (w : Chronicle) : Chronicle :=
  (Prog.exec (fun w => w.serveAt t) (do let _ ← reconcile sampleConfig sampleKey; return ()) w).2

theorem samplePass_run (t : Int) (w : Chronicle) (hclock : w.clock ≤ t) :
    Continues sampleConfig sampleKey (System.idle w) (System.idle (samplePass t w)) :=
  System.run_exec (i := ((), .worker)) (I := fun w => w.clock ≤ t)
    ⟨fun w hw call => ⟨_, Custody.serveAt_answers trivial w.toCustody hw call, rfl⟩, serveAt_clock t⟩
    (do let _ ← reconcile sampleConfig sampleKey; return ()) .reconcile hclock (fun _ => none) rfl

/-- The end of the promise that is made at the epoch, and of the margin. -/
def rotationTime : Int := passwordRotationInterval + rotationSafetyMargin

/-- The handler when the one HarborAccess is the sample and its robot Secret is `s`. -/
def handlerOver (s : Secret) : Handler :=
  { sampleHandler (sampleAccess sampleKey ⟨lit "team", lit "app"⟩) [] with getSecret := fun _ _ => .ok s }

def hourResponse : Response := ⟨lit "robot$bridge-prod.team.app", lit "p", 3600, cacheKeyTypeRegistry⟩

def kubeletRequest : Plugin.CredentialProviderRequest where
  apiVersion := Plugin.credentialProviderAPIVersion
  kind := Plugin.requestKind
  image := lit "harbor.example/team/app:1"
  serviceAccountToken := lit "token"

theorem passes_hourResponse : ∃ out, Plugin.Passes hourResponse out ∧ out.cacheDuration = hour :=
  ⟨_, ⟨some kubeletRequest, Plugin.receive (.ok hourResponse), none, .inl rfl, rfl⟩, rfl⟩

/-- A pass stores a promise, kubelet caches for an hour what it is answered with, and a later pass
rotates when the margin is over. -/
theorem scheduled_rotation_after_cached_copies_due :
    ∃ version ∈ (samplePass 0 sampleChronicle).vault.stored, Cached version 0 hour ∧
      ∃ ρ ∈ (samplePass rotationTime (samplePass 0 sampleChronicle)).rotations,
        ρ.why = .scheduled ∧ hour + rotationSafetyMargin ≤ ρ.decidedAt ∧
        ∀ t d, Cached version t d → t < passwordRotationInterval →
          t + d + rotationSafetyMargin ≤ ρ.decidedAt := by
  have hclock : (samplePass 0 sampleChronicle).clock ≤ rotationTime := by decide +kernel
  have hstored : ∃ version ∈ (samplePass 0 sampleChronicle).vault.stored,
      RobotSecret.credentials version = some (lit "robot$bridge-prod.team.app", lit "p") ∧
      RobotSecret.rotationNotBefore version = some passwordRotationInterval ∧
      serveHTTP (handlerOver version) sampleRequest = .ok hourResponse := by decide +kernel
  have hrotated : ∃ ρ ∈ (samplePass rotationTime (samplePass 0 sampleChronicle)).rotations,
      ρ.why = .scheduled ∧ ∃ read ∈ ρ.secret.toList,
        RobotSecret.credentials read = some (lit "robot$bridge-prod.team.app", lit "p") := by
    decide +kernel
  have hnone : (samplePass 0 sampleChronicle).rotations = [] :=
    List.eq_nil_of_length_eq_zero (by decide +kernel)
  have hstart : Start sampleConfig sampleKey sampleChronicle := ⟨rfl, nofun, nofun, nofun, rfl⟩
  obtain ⟨newer, later, hsince, hpromised⟩ := scheduled_rotation_after_cached_copies sampleConfig
    sampleKey sampleChronicle hstart _ _ (samplePass_run 0 sampleChronicle (le_refl 0))
    (samplePass_run rotationTime _ hclock)
  obtain ⟨version, hversion, hcreds, hnb, hserved⟩ := hstored
  obtain ⟨out, hpasses, hout⟩ := passes_hourResponse
  have hcached : Cached version 0 hour :=
    ⟨_, _, _, out, hserved, fun _ _ read hread => (Except.ok.inj hread).symm, hpasses, rfl, hout.symm⟩
  obtain ⟨ρ, hρ, hwhy, read, hread, hcreds'⟩ := hrotated
  have hlater : ρ ∈ later := by
    have hrotations := hsince.rotations
    change (samplePass rotationTime (samplePass 0 sampleChronicle)).rotations =
      later ++ (samplePass 0 sampleChronicle).rotations at hrotations
    rw [hnone, List.append_nil] at hrotations
    rw [← hrotations]
    exact hρ
  have hcopies := ((hpromised version hversion _ _ _ hcreds hnb).2.2.2 ρ hlater hwhy read _
    (Option.mem_toList.mp hread) hcreds').2
  have hdue := hcopies 0 hour hcached (by decide)
  rw [zero_add] at hdue
  exact ⟨version, hversion, hcached, ρ, hρ, hwhy, hdue, hcopies⟩

end Chronicle

end HarborBridge
