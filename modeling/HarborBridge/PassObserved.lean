import HarborBridge.Knowledge
import HarborBridge.Listing

/-! A pass does only what its knowledge allows. -/
namespace HarborBridge

open GoStrings Interaction

/-- The setting in which a pass is watched. -/
def passSetting (c : Config) : Setting Call Answer PassKnows :=
  watching (fun k e r => k.learn c e r) fun k e => k.Allows c e

def passHarbor (c : Config) : Setting HarborCall HarborAnswer PassKnows :=
  watching (fun k e r => k.learnHarbor c e r) fun k e => k.AllowsHarbor c e

theorem wp_passHarbor {c : Config} {α : Type} {p : HarborProg α} {Q : α → PassKnows → Prop}
    {k : PassKnows} (h : p.Wp (passHarbor c) Q k) : (onHarbor p).Wp (passSetting c) Q k :=
  wp_onHarbor h

theorem wp_ask {c : Config} {e : Call} {Q : Answer e → PassKnows → Prop} {k : PassKnows}
    (hmay : k.Allows c e) (hQ : ∀ r, Q r (k.learn c e r)) :
    (Prog.ask e : BridgeProg (Answer e)).Wp (passSetting c) Q k :=
  ⟨hmay, fun r _ hs => hs ▸ hQ r⟩

/-! ## Listings and lookups -/

namespace Walk

def Ready (walk : Walk) (filter : Option GoString) (cursor : Int) (robots : List Robot) : Prop :=
  walk.before filter (int64 (cursor + 1)) = ⟨filter, cursor, robots, false⟩

def Rested (walk : Walk) : Prop := walk.complete = true ∨ walk.cursor = 0 ∧ walk.robots = []

theorem Rested.ready {walk : Walk} (h : walk.Rested) (filter : Option GoString) :
    walk.Ready filter 0 [] := by
  obtain ⟨f, cursor, robots, complete⟩ := walk
  unfold Ready before
  rcases h with rfl | ⟨rfl, rfl⟩
  · simp [Walk.none]
  · split_ifs with hcond
    · simp_all
    · rfl

theorem Ready.readPage {walk : Walk} {filter : Option GoString} {cursor : Int}
    {robots : List Robot} (h : walk.Ready filter cursor robots) (robotPrefix : GoString)
    (payload : List (Option HarborRobot)) :
    walk.readPage robotPrefix filter (int64 (cursor + 1)) payload =
      match Client.takePage robotPrefix payload cursor robots with
      | .error _ => Walk.none filter
      | .ok (cursor, robots) => ⟨filter, cursor, robots, payload.length < pageSize⟩ := by
  unfold Walk.readPage
  rw [show walk.before filter (int64 (cursor + 1)) = _ from h]
  exact if_neg fun hne => hne rfl

theorem ready_of_eq {walk : Walk} {filter : Option GoString} {cursor : Int} {robots : List Robot}
    (h : walk = ⟨filter, cursor, robots, false⟩) : walk.Ready filter cursor robots := by
  subst h
  unfold Ready before
  exact if_pos ⟨rfl, rfl, rfl⟩

/-- Reading a page ends the listing with nothing, or adds the robots of the page. -/
theorem readPage_cases (walk : Walk) (robotPrefix : GoString) (filter : Option GoString)
    (idFrom : Int) (payload : List (Option HarborRobot)) :
    walk.readPage robotPrefix filter idFrom payload = Walk.none filter ∨
      ∃ start cursor new, (start = walk ∧ walk.filter = filter ∧ walk.complete = false ∨
          start = Walk.none filter) ∧ idFrom = int64 (start.cursor + 1) ∧
        Client.takePage robotPrefix payload start.cursor start.robots =
          .ok (cursor, start.robots ++ new) ∧
        walk.readPage robotPrefix filter idFrom payload =
          ⟨filter, cursor, start.robots ++ new, payload.length < pageSize⟩ := by
  have hbefore : walk.before filter idFrom = walk ∧ walk.filter = filter ∧ walk.complete = false ∨
      walk.before filter idFrom = Walk.none filter := by
    unfold before
    split_ifs with hcond
    · exact .inl ⟨rfl, hcond.2.1, hcond.1⟩
    · exact .inr rfl
  unfold readPage
  dsimp only
  split_ifs with hfrom
  · exact .inl rfl
  · split
    · exact .inl rfl
    · next cursor robots htake =>
      obtain ⟨new, rfl, -⟩ := Client.takePage_ok robotPrefix _ _ _ _ _ htake
      exact .inr ⟨_, cursor, new, hbefore, not_not.mp hfrom, htake, rfl⟩

theorem mem_readPage {walk : Walk} {robotPrefix : GoString} {filter : Option GoString}
    {idFrom : Int} {payload : List (Option HarborRobot)} {robot : Robot}
    (h : robot ∈ (walk.readPage robotPrefix filter idFrom payload).robots) :
    robot ∈ walk.robots ∨
      ∃ x ∈ payload.filterMap id, fromHarborRobot robotPrefix x = some robot := by
  rcases walk.readPage_cases robotPrefix filter idFrom payload with
    hnone | ⟨start, cursor, new, hstart, -, htake, heq⟩
  · rw [hnone] at h
    cases h
  · rw [heq] at h
    obtain ⟨new', hnew, hall, -⟩ := Client.takePage_ok robotPrefix _ _ _ _ _ htake
    obtain rfl := List.append_cancel_left hnew
    rcases List.mem_append.mp h with hold | hin
    · rcases hstart with ⟨rfl, -⟩ | rfl
      · exact .inl hold
      · cases hold
    · exact .inr (Client.forall₂_mem robotPrefix _ _ hall robot hin)

theorem rested_none (filter : Option GoString) : (Walk.none filter).Rested := .inr ⟨rfl, rfl⟩

end Walk

/-- Harbor was asked, and the pass still knows what it knew of the HarborAccess, the Secret
and the robots. -/
structure Keeps (k k' : PassKnows) : Prop where
  key : k'.key = k.key
  first : k'.first = k.first
  copy : k'.copy = k.copy
  patched : k'.patched = k.patched
  secret : k'.secret = k.secret
  wrote : k'.wrote = k.wrote
  clock : k'.clock = k.clock
  shown : k.shown ⊆ k'.shown

namespace Keeps

variable {c : Config} {k k' k'' : PassKnows}

theorem refl (k : PassKnows) : Keeps k k := ⟨rfl, rfl, rfl, rfl, rfl, rfl, rfl, fun _ h => h⟩

theorem trans (h : Keeps k k') (h' : Keeps k' k'') : Keeps k k'' where
  key := h'.key.trans h.key
  first := h'.first.trans h.first
  copy := h'.copy.trans h.copy
  patched := h'.patched.trans h.patched
  secret := h'.secret.trans h.secret
  wrote := h'.wrote.trans h.wrote
  clock := h'.clock.trans h.clock
  shown := fun _ hr => h'.shown (h.shown hr)

theorem accepted (h : Keeps k k') {name : GoString} (hk : k.Accepted c name) :
    k'.Accepted c name := by
  obtain ⟨ha, hfirst, hrest⟩ := hk
  exact ⟨ha, h.first.trans hfirst, hrest⟩

theorem dismissed (h : Keeps k k') (hk : k.Dismissed c) : k'.Dismissed c := by
  obtain ⟨ha, hfirst, hrest⟩ := hk
  exact ⟨ha, h.first.trans hfirst, hrest⟩

theorem found (h : Keeps k k') {ha : HarborAccess} {robot : Robot} (hk : k.Found c ha robot) :
    k'.Found c ha robot :=
  ⟨h.copy.trans hk.1, h.accepted hk.2.1, h.shown hk.2.2.1, hk.2.2.2⟩

end Keeps

namespace Client

variable {c : Config}

/-- A listing that succeeds has been read to its end, by whoever keeps track of it. -/
theorem wp_list_walk {W : Type} {S : Setting HarborCall HarborAnswer W} (walk : W → Walk)
    (Kept P : W → Prop) (filter : Option GoString) (hmay : ∀ w idFrom, S.may w (.listRobot filter idFrom))
    (hok : ∀ w idFrom payload w', Kept w → S.sem w (.listRobot filter idFrom) (Except.ok payload) w' →
      Kept w' ∧ P w' ∧ walk w' = (walk w).readPage c.harborRobotPrefix filter idFrom payload)
    (herr : ∀ w idFrom e w', Kept w → S.sem w (.listRobot filter idFrom) (Except.error e) w' → Kept w')
    (w : W) (hw : Kept w) (hrested : (walk w).Rested) :
    (list c.harborRobotPrefix filter).Wp S
      (fun res w' => Kept w' ∧ (∀ robots, res = .ok robots → P w' ∧ (walk w').filter = filter ∧
        (walk w').complete = true ∧ (walk w').robots = robots) ∧ res ≠ .error .robotNotFound) w := by
  refine wp_pages c.harborRobotPrefix Kept (fun cursor out w => (walk w).Ready filter cursor out) _ hmay
    (fun w idFrom r w' hw hs => ?_) ?_ maxPages 0 [] w hw (hrested.ready filter)
  · cases r with
    | ok payload => exact (hok w idFrom payload w' hw hs).1
    | error e => exact herr w idFrom e w' hw hs
  · intro cursor out w payload w' cursor' out' hw hready hs htake
    obtain ⟨-, hp, hwalk⟩ := hok w _ payload w' hw hs
    rw [hready.readPage, htake] at hwalk
    refine ⟨fun hshort => ?_, fun hfull => Walk.ready_of_eq ?_⟩
    · rw [hwalk]
      exact ⟨hp, rfl, decide_eq_true hshort, rfl⟩
    · rw [hwalk, decide_eq_false (not_lt.mpr hfull)]

/-- A listing that succeeds has been read to its end. -/
theorem wp_list_keeps (filter : Option GoString) (k : PassKnows) (hk : k.walk.Rested) :
    (list c.harborRobotPrefix filter).Wp (passHarbor c)
      (fun res k' => Keeps k k' ∧ (∀ robots, res = .ok robots →
        k'.walk.filter = filter ∧ k'.walk.complete = true ∧ k'.walk.robots = robots ∧
        ∀ robot ∈ robots, robot ∈ k'.shown) ∧ res ≠ .error .robotNotFound) k := by
  refine Prog.wp_mono (fun res k' h => ⟨h.1, fun robots hres => ?_, h.2.2⟩) _ _
    (wp_list_walk (S := passHarbor c) PassKnows.walk (Keeps k)
      (fun k => ∀ robot ∈ k.walk.robots, robot ∈ k.shown) filter (fun _ _ => trivial) ?_ ?_ k (.refl k) hk)
  · rintro k₁ idFrom payload k' hkeeps rfl
    exact ⟨hkeeps.trans ⟨rfl, rfl, rfl, rfl, rfl, rfl, rfl, List.subset_append_right _ _⟩,
      fun robot h => List.mem_append_left _ h, rfl⟩
  · rintro k₁ idFrom e k' hkeeps rfl
    exact hkeeps
  · obtain ⟨hshown, hfilter, hcomplete, rfl⟩ := h.2.1 robots hres
    exact ⟨hfilter, hcomplete, rfl, hshown⟩

theorem wp_checkSuffixHit_keeps (name : GoString) (robots : List Robot) (k : PassKnows)
    (hk : k.walk.Rested) :
    (checkSuffixHit c.harborRobotPrefix name robots).Wp (passHarbor c)
      (fun res k' => Keeps k k' ∧ (res = none → k'.walk.Rested) ∧ res ≠ some .robotNotFound) k := by
  induction robots with
  | nil => exact ⟨.refl k, fun _ => hk, nofun⟩
  | cons r robots ih =>
    unfold checkSuffixHit
    split_ifs
    · exact ih
    · refine Prog.wp_seq (wp_list_keeps (some r.name) k hk) fun res k' h => ?_
      obtain ⟨hkeeps, hok, herr⟩ := h
      cases res with
      | error e => exact ⟨hkeeps, nofun, fun h => herr (congrArg _ (Option.some.inj h))⟩
      | ok again =>
        dsimp only
        split_ifs
        · exact ⟨hkeeps, fun _ => .inl (hok again rfl).2.1, nofun⟩
        · exact ⟨hkeeps, nofun, nofun⟩

theorem matchName_eq_some (robots : List Robot) (name : GoString) (robot : Robot)
    (h : matchName robots name = some robot) : robot ∈ robots ∧ robot.name = name := by
  have hname := List.find?_some h
  exact ⟨List.mem_of_find?_eq_some h, of_decide_eq_true hname⟩

/-- A lookup that succeeds found a robot of that name in a listing. -/
theorem wp_getByName_keeps (name : GoString) (k : PassKnows) (hk : k.walk.Rested) :
    (getByName c.harborRobotPrefix name).Wp (passHarbor c)
      (fun res k' => Keeps k k' ∧ (∀ robot, res = .ok robot →
        robot ∈ k'.shown ∧ robot.name = name ∧ k'.walk.Rested) ∧
        (res = .error .robotNotFound → k'.walk.Rested)) k := by
  refine Prog.wp_seq (wp_list_keeps (some name) k hk) fun res k₁ h => ?_
  obtain ⟨hkeeps₁, hok₁, herr₁⟩ := h
  cases res with
  | error e => exact ⟨hkeeps₁, nofun, fun h => absurd (congrArg _ (Except.error.inj h)) herr₁⟩
  | ok robots =>
    have hrested₁ : k₁.walk.Rested := .inl (hok₁ robots rfl).2.1
    dsimp only
    cases hmatch : matchName robots name with
    | some r =>
      refine ⟨hkeeps₁, fun robot h => ?_, nofun⟩
      obtain rfl := Except.ok.inj h
      obtain ⟨hmem, hname⟩ := matchName_eq_some robots name r hmatch
      exact ⟨(hok₁ robots rfl).2.2.2 r hmem, hname, hrested₁⟩
    | none =>
      refine Prog.wp_seq (wp_checkSuffixHit_keeps name robots k₁ hrested₁) fun res k₂ h => ?_
      obtain ⟨hkeeps₂, hok₂, herr₂⟩ := h
      have hkeeps := hkeeps₁.trans hkeeps₂
      cases res with
      | some e => exact ⟨hkeeps, nofun, fun h => absurd (congrArg some (Except.error.inj h)) herr₂⟩
      | none =>
        refine Prog.wp_seq (wp_list_keeps none k₂ (hok₂ rfl)) fun res k₃ h => ?_
        obtain ⟨hkeeps₃, hok₃, herr₃⟩ := h
        cases res with
        | error e => exact ⟨hkeeps.trans hkeeps₃, nofun, fun h => absurd (congrArg _ (Except.error.inj h)) herr₃⟩
        | ok robots =>
          have hrested₃ : k₃.walk.Rested := .inl (hok₃ robots rfl).2.1
          dsimp only
          cases hmatch : matchName robots name with
          | none => exact ⟨hkeeps.trans hkeeps₃, nofun, fun _ => hrested₃⟩
          | some r =>
            refine ⟨hkeeps.trans hkeeps₃, fun robot h => ?_, nofun⟩
            obtain rfl := Except.ok.inj h
            obtain ⟨hmem, hname⟩ := matchName_eq_some robots name r hmatch
            exact ⟨(hok₃ robots rfl).2.2.2 r hmem, hname, hrested₃⟩

theorem wp_delete_keeps (id : Int) (k : PassKnows) (hk : k.DeletesRobot c id) :
    (delete id).Wp (passHarbor c) (fun res k' => Keeps k k' ∧ k'.walk = k.walk ∧
      k.deleted ⊆ k'.deleted ∧ (res = .ok () → id ∈ k'.deleted)) k := by
  simp only [delete, Sdk.deleteRobot_bind]
  refine (wp_watching ..).mpr ⟨hk, fun r => ?_⟩
  have hdeleted : Keeps k { k with deleted := id :: k.deleted } ∧ k.walk = k.walk ∧
      k.deleted ⊆ id :: k.deleted := ⟨⟨rfl, rfl, rfl, rfl, rfl, rfl, rfl, fun _ h => h⟩, rfl,
    List.subset_cons_self _ _⟩
  match r with
  | Except.ok () => exact ⟨hdeleted.1, rfl, hdeleted.2.2, fun _ => List.mem_cons_self⟩
  | Except.error e =>
    dsimp only [PassKnows.learnHarbor]
    split_ifs
    · exact ⟨hdeleted.1, rfl, hdeleted.2.2, fun _ => List.mem_cons_self⟩
    · exact ⟨.refl k, rfl, fun _ h => h, nofun⟩

theorem wp_create_keeps (name description : GoString) (perms : List ProjectPermission)
    (k : PassKnows) (hk : k.Creates c
      ⟨name, description, robotDurationNeverExpires, toHarborPermissions perms⟩) :
    (create c.harborRobotPrefix name description perms).Wp (passHarbor c)
      (fun res k' => Keeps k k' ∧ (∀ robot, res = .ok robot →
        k'.password = some (robot.id, robot.secret) ∧ robot.secret ≠ [] ∧ k'.walk.Rested) ∧
        ∀ e, res = .error e → e.isAlreadyExists = true → k'.walk.Rested) k := by
  unfold create
  split_ifs with hvalid
  · refine ⟨.refl k, nofun, fun e h he => ?_⟩
    obtain rfl := Except.error.inj h
    cases he
  · simp only [Sdk.createRobot_bind]
    refine (wp_watching ..).mpr ⟨hk, fun r => ?_⟩
    match r with
    | Except.error e =>
      exact ⟨⟨rfl, rfl, rfl, rfl, rfl, rfl, rfl, fun _ h => h⟩, nofun,
        fun _ _ _ => Walk.rested_none none⟩
    | Except.ok none =>
      exact ⟨⟨rfl, rfl, rfl, rfl, rfl, rfl, rfl, fun _ h => h⟩, nofun,
        fun _ _ _ => Walk.rested_none none⟩
    | Except.ok (some payload) =>
      generalize hk' : k.learnHarbor c (.createRobot
        ⟨name, description, robotDurationNeverExpires, toHarborPermissions perms⟩)
        (Except.ok (some payload)) = k'
      have hkeeps : Keeps k k' := by
        subst hk'
        exact ⟨rfl, rfl, rfl, rfl, rfl, rfl, rfl, fun _ h => h⟩
      have hwalk : k'.walk.Rested := by
        subst hk'
        exact Walk.rested_none none
      have hcreated : k'.created = some payload.id ∧
          k'.password = some (payload.id, payload.secret) := by
        subst hk'
        exact ⟨rfl, rfl⟩
      dsimp only
      split_ifs with hsecret hname
      · exact ⟨hkeeps, nofun, fun _ _ _ => hwalk⟩
      · refine ⟨hkeeps, fun robot h => ?_, fun _ _ _ => hwalk⟩
        obtain rfl := Except.ok.inj h
        exact ⟨hcreated.2, hsecret, hwalk⟩
      · refine Prog.wp_seq (wp_delete_keeps payload.id k' (.created hcreated.1)) fun res k'' h => ?_
        obtain ⟨hkeeps', hwalk', _⟩ := h
        have hrested : k''.walk.Rested := hwalk' ▸ hwalk
        cases res with
        | ok _ => exact ⟨hkeeps.trans hkeeps', nofun, fun _ _ _ => hrested⟩
        | error e => exact ⟨hkeeps.trans hkeeps', nofun, fun _ _ _ => hrested⟩

theorem wp_refreshSecret_keeps (id : Int) (k : PassKnows) (hk : k.Refreshes c id) :
    (refreshSecret id).Wp (passHarbor c) (fun res k' => Keeps k k' ∧ k'.walk = k.walk ∧
      ∀ password, res = .ok password → password ≠ [] ∧ k'.password = some (id, password)) k := by
  simp only [refreshSecret, Sdk.refreshSec_bind]
  refine (wp_watching ..).mpr ⟨hk, fun r => ?_⟩
  match r with
  | Except.error e => exact ⟨⟨rfl, rfl, rfl, rfl, rfl, rfl, rfl, fun _ h => h⟩, rfl, nofun⟩
  | Except.ok none => exact ⟨⟨rfl, rfl, rfl, rfl, rfl, rfl, rfl, fun _ h => h⟩, rfl, nofun⟩
  | Except.ok (some password) =>
    dsimp only
    split_ifs with hne
    · exact ⟨⟨rfl, rfl, rfl, rfl, rfl, rfl, rfl, fun _ h => h⟩, rfl, nofun⟩
    · refine ⟨⟨rfl, rfl, rfl, rfl, rfl, rfl, rfl, fun _ h => h⟩, rfl, fun p h => ?_⟩
      obtain rfl := Except.ok.inj h
      exact ⟨hne, rfl⟩

def afterUpdate (k : PassKnows) (id : Int) (description : GoString) (disabled : Bool) :
    PassKnows :=
  { k with
    walk := Walk.none none
    shown := k.shown.map fun robot =>
      if robot.id = id then { robot with description := description, disabled := disabled }
      else robot }

theorem wp_update_keeps (current : Robot) (description : GoString)
    (perms : List ProjectPermission) (k : PassKnows)
    (hk : k.Updates c current.id ⟨current.id, current.wireName, description,
      robotDurationNeverExpires, current.disabled, toHarborPermissions perms⟩) :
    (update current description perms).Wp (passHarbor c) (fun res k' => k'.copy = k.copy ∧
      k'.first = k.first ∧
      (res = .ok () → k' = afterUpdate k current.id description current.disabled)) k := by
  unfold update
  split_ifs
  · exact ⟨rfl, rfl, nofun⟩
  · exact ⟨rfl, rfl, nofun⟩
  · simp only [Sdk.updateRobot_bind]
    refine (wp_watching ..).mpr ⟨hk, fun r => ?_⟩
    match r with
    | Except.error e => exact ⟨rfl, rfl, nofun⟩
    | Except.ok () => exact ⟨rfl, rfl, fun _ => rfl⟩

end Client

/-! ## The steps of a pass -/

section Steps

variable {c : Config} {α ε : Type}

section

variable {W : Type} {S : Setting Call Answer W}

theorem wp_lift {β : Type} {p : BridgeProg α} {f : α → Pass β} {P : α → W → Prop}
    {Q : Except Ended β → W → Prop} {k : W} (hp : p.Wp (S) P k)
    (hf : ∀ a v, P a v → (f a).run.Wp (S) Q v) :
    (Pass.lift p >>= f).run.Wp (S) Q k :=
  (Prog.wp_run_bind (Pass.lift p) f Q k).mpr (Prog.wp_seq hp hf)

theorem wp_attempt {p : BridgeProg (Except ε α)} {ended : ε → Ended}
    {P : Except ε α → W → Prop} {Q : Except Ended α → W → Prop} {k : W}
    (hp : p.Wp (S) P k) (hok : ∀ a v, P (.ok a) v → Q (.ok a) v)
    (herr : ∀ e v, P (.error e) v → Q (.error (ended e)) v) :
    (Pass.attempt p ended).run.Wp (S) Q k := by
  refine Prog.wp_seq hp fun r v h => ?_
  cases r with
  | ok a => exact hok a v h
  | error e => exact herr e v h

theorem wp_attempt_seq {β : Type} {p : BridgeProg (Except ε α)} {ended : ε → Ended}
    {f : α → Pass β} {P : Except ε α → W → Prop} {Q : Except Ended β → W → Prop}
    {k : W} (hp : p.Wp (S) P k)
    (hok : ∀ a v, P (.ok a) v → (f a).run.Wp (S) Q v)
    (herr : ∀ e v, P (.error e) v → Q (.error (ended e)) v) :
    (Pass.attempt p ended >>= f).run.Wp (S) Q k :=
  (Prog.wp_run_bind (Pass.attempt p ended) f Q k).mpr (wp_attempt hp hok herr)

section Storing

variable {ha : HarborAccess} {robot : Robot} {password : GoString} {notBefore : Int}
  (I Raced : Option Secret → W → Prop) (Done : W → Prop)
  (hput : ∀ current k, I current k → (putRobotSecret c ha current robot password notBefore).Wp S
    (fun res k' => (∃ current, I current k') ∧ (res = .ok () → Done k') ∧
      ∀ e, res = .error e → isSecretWriteRace e = true → Raced current k') k)
  (hread : ∀ current k, Raced current k → (getRobotSecret c ha).Wp S (fun res k' =>
    (∃ current, I current k') ∧ (∀ e, res = .error e → I current k') ∧
      ∀ fresh, res = .ok fresh → secretConflict c ha fresh robot.name = none → I fresh k') k)
include hput hread

/-- One attempt to store a new password. `I` holds before it, with the version that it tries, and
`Raced` after a write that has lost a race. -/
theorem wp_storeOnce_rule {current : Option Secret} {k : W} (hk : I current k) :
    (storeOnce c ha current robot password notBefore).Wp S (fun res k' => (∃ current, I current k') ∧
      (res.2 = .ok () → Done k') ∧
      ∀ e, res.2 = .error e → isSecretWriteRace e = true → I res.1 k') k := by
  refine Prog.wp_seq (hput current k hk) fun res k₁ h₁ => ?_
  obtain ⟨hany, hdone, hraced⟩ := h₁
  cases res with
  | ok _ => exact ⟨hany, fun _ => hdone rfl, nofun⟩
  | error e =>
    dsimp only
    split_ifs with hrace
    · refine ⟨hany, nofun, fun e' he' hrace' => ?_⟩
      obtain rfl := Except.error.inj he'
      cases hrace.symm.trans hrace'
    · rw [Bool.not_eq_false] at hrace
      refine Prog.wp_seq (hread current k₁ (hraced e rfl hrace)) fun res k₂ h₂ => ?_
      obtain ⟨hany, herr, hfresh⟩ := h₂
      cases res with
      | error readErr => exact ⟨hany, nofun, fun _ _ _ => herr readErr rfl⟩
      | ok fresh =>
        dsimp only
        cases hconflict : secretConflict c ha fresh robot.name with
        | none => exact ⟨hany, nofun, fun _ _ _ => hfresh fresh rfl hconflict⟩
        | some conflict =>
          refine ⟨hany, nofun, fun e he hrace => ?_⟩
          obtain rfl := Except.error.inj he
          cases hrace

/-- The attempts, by induction on how many are left. -/
theorem wp_storeRobotSecret_rule (retries : Nat) {current : Option Secret} {k : W} (hk : I current k) :
    (storeRobotSecret c ha robot password notBefore retries current).Wp S
      (fun res k' => (∃ current, I current k') ∧ (res = .ok () → Done k')) k := by
  induction retries generalizing current k with
  | zero => exact Prog.wp_seq (wp_storeOnce_rule I Raced Done hput hread hk) fun _ _ h => ⟨h.1, h.2.1⟩
  | succ retries ih =>
    refine Prog.wp_seq (wp_storeOnce_rule I Raced Done hput hread hk) fun res k₁ h₁ => ?_
    obtain ⟨hany, hdone, hnext⟩ := h₁
    obtain ⟨next, res⟩ := res
    cases res with
    | ok _ => exact ⟨hany, fun _ => hdone rfl⟩
    | error e =>
      dsimp only
      split_ifs with hrace
      · exact ih (hnext e rfl hrace)
      · exact ⟨hany, nofun⟩

end Storing

end

variable {k : PassKnows} {ha : HarborAccess}

theorem wp_setNotReady (old : HarborAccess) (hcopy : k.copy = some old)
    (hha : ∃ s, ha = { old with status := s }) (reason : Reason) :
    (setNotReady ha reason).Wp (passSetting c)
      (fun res k' => ∀ ha', res = .ok ha' → k' = { k with copy := some ha' }) k := by
  obtain ⟨s, rfl⟩ := hha
  refine wp_ask ⟨old, _, hcopy, rfl⟩ fun r => ?_
  match r with
  | Except.ok ha' =>
    intro ha'' h
    obtain rfl := Except.ok.inj h
    rfl
  | Except.error e => nofun

theorem wp_markNotReadyWithRequeue (hcopy : k.copy = some ha) (reason : Reason) :
    (markNotReadyWithRequeue ha reason).Wp (passSetting c) (fun _ _ => True) k := by
  refine Prog.wp_seq (wp_setNotReady ha hcopy ⟨_, rfl⟩ reason) fun res k' _ => ?_
  cases res <;> trivial

theorem wp_markTransientError (hcopy : k.copy = some ha) (cause : PassErr) :
    (markTransientError ha cause).Wp (passSetting c) (fun _ _ => True) k := by
  refine Prog.wp_seq (wp_setNotReady ha hcopy ⟨_, rfl⟩ _) fun res k' _ => ?_
  cases res <;> trivial

theorem wp_markReady (hcopy : k.copy = some ha) (robot : Robot) (rotatedAt : Option Int)
    (requeueAfter : Int) :
    (markReady ha robot rotatedAt requeueAfter).Wp (passSetting c) (fun _ _ => True) k := by
  refine Prog.wp_seq (P := fun _ _ => True) (wp_ask ⟨ha, _, hcopy, rfl⟩ fun r => trivial)
    fun res k' _ => ?_
  cases res <;> trivial

theorem wp_getRobotSecret (hcopy : k.copy = some ha) (hreads : k.ReadsSecret c) :
    (getRobotSecret c ha).Wp (passSetting c) (fun res k' => match res with
      | .ok secret => k' = { k with secret := some secret }
      | .error _ => k' = k) k := by
  refine Prog.wp_seq (P := fun r k' => k' = k.learn c
    (.readSecret c.ns (RobotSecret.name ha.key.ns ha.key.name)) r)
    (wp_ask ⟨ha, hcopy, rfl, rfl, hreads⟩ fun r => rfl) fun res k' h => ?_
  subst h
  match res with
  | Except.ok s => rfl
  | Except.error .notFound => rfl
  | Except.error .conflict => rfl
  | Except.error .alreadyExists => rfl
  | Except.error .other => rfl

theorem wp_deleteSecret (s : Secret) (hsecret : k.secret = some (some s))
    (hwrote : k.wrote = false) (hdeletes : k.DeletesSecret c s) :
    (deleteSecret s).Wp (passSetting c) (fun res k' => match res with
      | .ok () => k' = { k with secret := some none }
      | .error _ => k' = { k with secret := none }) k := by
  refine Prog.wp_seq (P := fun r k' => k' = k.learn c (.deleteSecret s) r)
    (wp_ask ⟨hsecret, hwrote, hdeletes⟩ fun r => rfl) fun res k' h => ?_
  subst h
  match res with
  | Except.ok () => rfl
  | Except.error .notFound => rfl
  | Except.error .conflict => rfl
  | Except.error .alreadyExists => rfl
  | Except.error .other => rfl

def MayStore (k : PassKnows) (ha : HarborAccess) (existing : Option Secret)
    (robot : Robot) (password : GoString) (notBefore : Int) : Prop :=
  k.copy = some ha ∧ k.secret = some existing ∧ k.Stores ha robot password notBefore

theorem wp_putRobotSecret {existing : Option Secret} {robot : Robot} {password : GoString}
    {notBefore : Int} (h : MayStore k ha existing robot password notBefore) :
    (putRobotSecret c ha existing robot password notBefore).Wp (passSetting c)
      (fun res k' => k' = k ∧ (∀ e, res = .error e → isSecretWriteRace e = false) ∨
        k' = { k with wrote := true }) k := by
  obtain ⟨hcopy, hsecret, hstores⟩ := h
  unfold putRobotSecret
  cases existing with
  | none =>
    dsimp only
    split_ifs
    · refine .inl ⟨rfl, fun e h => ?_⟩
      obtain rfl := Except.error.inj h
      rfl
    · refine Prog.wp_seq (P := fun _ k' => k' = { k with wrote := true })
        (wp_ask ⟨ha, robot, password, notBefore, hcopy, hstores, rfl⟩ fun r => rfl)
        fun res k' h => ?_
      cases res <;> exact .inr h
  | some existing =>
    dsimp only
    split_ifs
    · exact .inl ⟨rfl, nofun⟩
    · refine Prog.wp_seq (P := fun _ k' => k' = { k with wrote := true })
        (wp_ask ⟨ha, robot, password, notBefore, existing, hcopy, hstores, hsecret, rfl⟩
          fun r => rfl) fun res k' h => ?_
      cases res <;> exact .inr h

theorem MayStore.reread {existing : Option Secret} {robot : Robot} {password : GoString}
    {notBefore : Int} (h : MayStore k ha existing robot password notBefore)
    (hne : password ≠ []) (fresh : Option Secret) (wrote : Bool) :
    MayStore { k with secret := some fresh, wrote := wrote } ha fresh robot password
      notBefore := by
  obtain ⟨hcopy, -, hstores⟩ := h
  refine ⟨hcopy, rfl, ?_⟩
  cases hstores with
  | new hpassword hne now hnow hnb => exact .new hpassword hne now hnow hnb
  | same hpassword => exact absurd hpassword hne

theorem wp_storeRobotSecret {robot : Robot} {password : GoString} {notBefore : Int}
    (hne : password ≠ []) (retries : Nat) {current : Option Secret}
    (h : MayStore k ha current robot password notBefore) :
    (storeRobotSecret c ha robot password notBefore retries current).Wp (passSetting c)
      (fun _ k' => k'.copy = some ha ∧ k'.walk = k.walk) k := by
  refine Prog.wp_mono (fun _ k' h' => ?_) _ _ (wp_storeRobotSecret_rule
    (fun current k' => MayStore k' ha current robot password notBefore ∧ k'.walk = k.walk)
    (fun current k' => MayStore k' ha current robot password notBefore ∧ k'.walk = k.walk ∧
      k'.wrote = true) (fun _ => True) (fun current k₁ hk₁ => ?_) (fun current k₁ hk₁ => ?_)
    retries ⟨h, rfl⟩)
  · obtain ⟨⟨current, hmay, hwalk⟩, -⟩ := h'
    exact ⟨hmay.1, hwalk⟩
  · refine Prog.wp_mono (fun res k₂ h₂ => ?_) _ _ (wp_putRobotSecret hk₁.1)
    rcases h₂ with ⟨rfl, hno⟩ | rfl
    · exact ⟨⟨current, hk₁⟩, fun _ => trivial, fun e he hrace => nomatch (hno e he).symm.trans hrace⟩
    · have hmay := hk₁.1.reread hne current true
      rw [← hk₁.1.2.1] at hmay
      exact ⟨⟨current, hmay, hk₁.2⟩, fun _ => trivial, fun _ _ _ => ⟨hmay, hk₁.2, rfl⟩⟩
  · obtain ⟨hmay, hwalk, hwrote⟩ := hk₁
    refine Prog.wp_mono (fun res k₂ h₂ => ?_) _ _ (wp_getRobotSecret hmay.1 (.inr (.inl hwrote)))
    cases res with
    | error e =>
      obtain rfl := h₂
      exact ⟨⟨current, hmay, hwalk⟩, fun _ _ => ⟨hmay, hwalk⟩, nofun⟩
    | ok fresh =>
      obtain rfl := h₂
      have hfresh := hmay.reread hne fresh k₁.wrote
      refine ⟨⟨fresh, hfresh, hwalk⟩, nofun, fun fresh' h _ => ?_⟩
      obtain rfl := Except.ok.inj h
      exact ⟨hfresh, hwalk⟩

theorem wp_writeRobotSecret {existing : Option Secret} {robot : Robot} {password : GoString}
    {notBefore : Int} (h : MayStore k ha existing robot password notBefore) :
    (writeRobotSecret c ha existing robot password notBefore).Wp (passSetting c)
      (fun _ k' => k'.copy = some ha ∧ k'.walk = k.walk) k := by
  unfold writeRobotSecret
  split_ifs with hempty
  · subst hempty
    refine Prog.wp_mono (fun _ k' h' => ?_) _ _ (wp_putRobotSecret h)
    rcases h' with ⟨rfl, -⟩ | rfl
    · exact ⟨h.1, rfl⟩
    · exact ⟨h.1, rfl⟩
  · exact wp_storeRobotSecret hempty _ h

/-! ## Robots -/

def Ensured (c : Config) (k : PassKnows) (ha : HarborAccess) (robotName : GoString) (robot : Robot)
    (created : Bool) : Prop :=
  if created then k.password = some (robot.id, robot.secret) ∧ robot.secret ≠ []
  else k.Found c ha robot ∧ robot.name = robotName

theorem wp_adopt {robotName : GoString} {existing : Robot} (hcopy : k.copy = some ha)
    (haccepted : k.Accepted c robotName) (hshown : existing ∈ k.shown)
    (hname : existing.name = robotName) :
    (ensureRobot.adopt c ha existing).run.Wp (passSetting c) (fun res k' => k' = k ∧
      ∀ robot created, res = .ok (robot, created) → Ensured c k ha robotName robot created) k := by
  have hensured (hadopt : PassKnows.Adoptable c ha existing) :
      Ensured c k ha robotName existing false :=
    ⟨⟨hcopy, hname ▸ haccepted, hshown, hadopt⟩, hname⟩
  unfold ensureRobot.adopt
  split_ifs with hcluster
  · exact ⟨rfl, nofun⟩
  · rw [Bool.not_eq_false] at hcluster
    cases hparse : parseRobotDescription existing.description with
    | none =>
      refine ⟨rfl, fun robot created h => ?_⟩
      cases h
      exact hensured ⟨hcluster, fun owner h => by rw [hparse] at h; cases h⟩
    | some owner =>
      dsimp only
      split_ifs with howner
      · refine ⟨rfl, fun robot created h => ?_⟩
        cases h
        refine hensured ⟨hcluster, fun owner' h => ?_⟩
        rw [hparse] at h
        exact Option.some.inj h ▸ howner
      · exact ⟨rfl, nofun⟩

def Finalized (c : Config) (k : PassKnows) (ha : HarborAccess) : Prop :=
  k.copy = some ha ∧ (c.finalizer ∈ ha.finalizers ∨ k.patched = true)

theorem wp_ensureRobot {robotName : GoString} (haccepted : k.Accepted c robotName)
    (hfinal : Finalized c k ha) (hwalk : k.walk.Rested) (perms : List ProjectPermission) :
    (ensureRobot c ha robotName (robotDescription c.clusterName ha.key.ns ha.key.name) perms).run.Wp
      (passSetting c) (fun res k' => Keeps k k' ∧ ∀ robot created, res = .ok (robot, created) →
        Ensured c k' ha robotName robot created ∧ k'.walk.Rested) k := by
  have hadopt : ∀ k' existing, Keeps k k' → existing ∈ k'.shown → existing.name = robotName →
      k'.walk.Rested → (ensureRobot.adopt c ha existing).run.Wp (passSetting c)
        (fun res k'' => Keeps k k'' ∧ ∀ robot created, res = .ok (robot, created) →
          Ensured c k'' ha robotName robot created ∧ k''.walk.Rested) k' := by
    intro k' existing hkeeps hshown hname hrested
    refine Prog.wp_mono (fun res k'' h => ?_) _ _ (wp_adopt (hkeeps.copy.trans hfinal.1)
      (hkeeps.accepted haccepted) hshown hname)
    obtain ⟨rfl, hok⟩ := h
    exact ⟨hkeeps, fun robot created h => ⟨hok robot created h, hrested⟩⟩
  refine wp_lift (wp_passHarbor (Client.wp_getByName_keeps robotName k hwalk)) fun res k₁ h₁ => ?_
  obtain ⟨hkeeps₁, hok₁, hnone₁⟩ := h₁
  split
  · next existing =>
    obtain ⟨hshown, hname, hrested⟩ := hok₁ existing rfl
    exact hadopt k₁ existing hkeeps₁ hshown hname hrested
  · have hcreates : k₁.Creates c ⟨robotName, robotDescription c.clusterName ha.key.ns ha.key.name,
        robotDurationNeverExpires, toHarborPermissions perms⟩ :=
      ⟨ha, hkeeps₁.copy.trans hfinal.1, hkeeps₁.accepted haccepted,
        hfinal.2.imp_right hkeeps₁.patched.trans, rfl⟩
    refine wp_lift (wp_passHarbor (Client.wp_create_keeps _ _ perms k₁ hcreates))
      fun res k₂ h₂ => ?_
    obtain ⟨hkeeps₂, hok₂, herr₂⟩ := h₂
    have hkeeps := hkeeps₁.trans hkeeps₂
    cases res with
    | ok robot =>
      refine ⟨hkeeps, fun robot' created h => ?_⟩
      cases h
      obtain ⟨hpassword, hne, hrested⟩ := hok₂ robot rfl
      exact ⟨⟨hpassword, hne⟩, hrested⟩
    | error e =>
      dsimp only
      split_ifs with hexists
      · exact ⟨hkeeps, nofun⟩
      · rw [Bool.not_eq_false] at hexists
        refine wp_attempt_seq (wp_passHarbor
          (Client.wp_getByName_keeps robotName k₂ (herr₂ e rfl hexists)))
          (fun existing k₃ h₃ => ?_) fun _ _ h => ⟨hkeeps.trans h.1, nofun⟩
        obtain ⟨hkeeps₃, hok₃, -⟩ := h₃
        obtain ⟨hshown, hname, hrested⟩ := hok₃ existing rfl
        exact hadopt k₃ existing (hkeeps.trans hkeeps₃) hshown hname hrested
  · exact ⟨hkeeps₁, nofun⟩

def HandReady (k : PassKnows) (ha : HarborAccess) (now : Int) (hand : InHand) : Prop :=
  MayStore k ha hand.secret hand.robot hand.password
    (rotationNotBefore ha hand.secret now hand.rotatedAt) ∧ k.walk.Rested

/-- What the pass knows of the Secret and the time when it turns to the password. -/
structure Informed (k : PassKnows) (secret : Option Secret) (now : Int) : Prop where
  secret : k.secret = some secret
  wrote : k.wrote = false
  clock : k.clock = some now

theorem Keeps.informed {k k' : PassKnows} (h : Keeps k k') {secret : Option Secret} {now : Int}
    (hk : Informed k secret now) : Informed k' secret now :=
  ⟨h.secret.trans hk.secret, h.wrote.trans hk.wrote, h.clock.trans hk.clock⟩

theorem wp_enable {robot : Robot} {now : Int} (hfound : k.Found c ha robot)
    (hsuspended : PassKnows.Suspended robot) (hinformed : Informed k none now)
    (perms : List ProjectPermission) :
    (enable robot (robotDescription c.clusterName ha.key.ns ha.key.name) perms now).run.Wp
      (passSetting c) (fun res k' => k'.copy = some ha ∧
        ∀ hand, res = .ok hand → HandReady k' ha now hand) k := by
  refine wp_attempt_seq (wp_passHarbor (Client.wp_refreshSecret_keeps robot.id k
    (.resumes ha robot hfound rfl hsuspended hinformed.secret hinformed.wrote)))
    (fun password k₁ h₁ => ?_) fun _ _ h => ⟨h.1.copy.trans hfound.1, nofun⟩
  obtain ⟨hkeeps₁, -, hok₁⟩ := h₁
  obtain ⟨hne, hpassword⟩ := hok₁ password rfl
  have hcopy₁ : k₁.copy = some ha := hkeeps₁.copy.trans hfound.1
  have hinformed₁ := hkeeps₁.informed hinformed
  refine wp_attempt_seq (wp_passHarbor (Client.wp_update_keeps { robot with disabled := false }
    _ perms k₁ (.resumes ha robot (hkeeps₁.found hfound) rfl hsuspended password hpassword rfl
      rfl))) (fun _ k₂ h₂ => ?_) fun _ _ h => ⟨h.1.trans hcopy₁, nofun⟩
  obtain rfl := h₂.2.2 rfl
  refine ⟨hcopy₁, fun hand h => ?_⟩
  obtain rfl := Except.ok.inj h
  exact ⟨⟨hcopy₁, hinformed₁.secret, .new hpassword hne now hinformed₁.clock rfl⟩,
    Walk.rested_none none⟩

theorem wp_resume {secret : Option Secret} {robot : Robot} {now : Int}
    (hfound : k.Found c ha robot) (hsuspended : PassKnows.Suspended robot)
    (hinformed : Informed k secret now) (perms : List ProjectPermission) :
    (resume secret robot (robotDescription c.clusterName ha.key.ns ha.key.name) perms now).run.Wp
      (passSetting c) (fun res k' => k'.copy = some ha ∧
        ∀ hand, res = .ok hand → HandReady k' ha now hand) k := by
  cases secret with
  | none => exact wp_enable hfound hsuspended hinformed perms
  | some secret =>
    refine wp_attempt_seq (wp_deleteSecret secret hinformed.secret hinformed.wrote
      (.resumes ha robot hfound hsuspended)) (fun _ k₁ h₁ => ?_) fun _ _ h => ⟨?_, nofun⟩
    · obtain rfl := h₁
      exact wp_enable (k := { k with secret := some none }) hfound hsuspended
        ⟨rfl, hinformed.wrote, hinformed.clock⟩ perms
    · obtain rfl := h
      exact hfound.1

/-- A robot that was changed to match the spec is still the HarborAccess's, and it is not a
suspended one. -/
theorem wp_alignRobot {robot : Robot} (hfound : k.Found c ha robot)
    (hactive : ¬ PassKnows.Suspended robot) (hwalk : k.walk.Rested)
    (perms : List ProjectPermission) :
    (alignRobot robot (robotDescription c.clusterName ha.key.ns ha.key.name) perms).run.Wp
      (passSetting c) (fun res k' => k'.copy = some ha ∧ (res = .ok () →
        k'.walk.Rested ∧ k'.secret = k.secret ∧ k'.wrote = k.wrote ∧ k'.clock = k.clock ∧
        ∃ robot', k'.Found c ha robot' ∧ ¬ PassKnows.Suspended robot' ∧ robot'.id = robot.id ∧
          robot'.name = robot.name ∧ robot'.wireName = robot.wireName)) k := by
  unfold alignRobot
  split_ifs
  · refine wp_attempt (wp_passHarbor (Client.wp_update_keeps robot _ perms k
      (.aligns ha robot hfound rfl hactive rfl rfl))) (fun _ k' h => ?_)
      fun _ _ h => ⟨h.1.trans hfound.1, nofun⟩
    obtain ⟨hcopy, -, hok⟩ := h
    refine ⟨hcopy.trans hfound.1, fun _ => ?_⟩
    obtain rfl := hok rfl
    have hdesc : Describes c.clusterName ha.key.ns ha.key.name
        (robotDescription c.clusterName ha.key.ns ha.key.name) := .inl rfl
    have hsuspended : robotSuspended (robotDescription c.clusterName ha.key.ns ha.key.name) = false :=
      robotSuspended_robotDescription c.clusterName_word
    refine ⟨Walk.rested_none none, rfl, rfl, rfl, { robot with
      description := robotDescription c.clusterName ha.key.ns ha.key.name }, ⟨hfound.1,
      hfound.2.1, ?_, ?_, ?_⟩, ?_, rfl, rfl, rfl⟩
    · exact List.mem_map.mpr ⟨robot, hfound.2.2.1, if_pos rfl⟩
    · exact (hdesc.robotBelongsToCluster_iff c.clusterName_word _).mpr rfl
    · intro owner howner
      rw [hdesc.parseRobotDescription_eq c.clusterName_word] at howner
      exact (Option.some.inj howner).symm
    · exact fun h => absurd h.2 (by rw [hsuspended]; decide)
  · exact ⟨hfound.1, fun _ => ⟨hwalk, rfl, rfl, rfl, robot, hfound, hactive, rfl, rfl, rfl⟩⟩

theorem rotationReason_congr (ha : HarborAccess) (secret : Option Secret) (robot robot' : Robot)
    (now : Int) (hid : robot'.id = robot.id) (hwire : robot'.wireName = robot.wireName) :
    rotationReason ha secret robot' now = rotationReason ha secret robot now := by
  unfold rotationReason recordsOtherRobot
  rw [hid, hwire]

theorem wp_rotate {secret : Option Secret} {robot robot' : Robot} {now : Int}
    (hfound : k.Found c ha robot') (hactive : ¬ PassKnows.Suspended robot')
    (hid : robot'.id = robot.id) (hwire : robot'.wireName = robot.wireName)
    (hinformed : Informed k secret now) (hwalk : k.walk.Rested) :
    (rotate ha secret robot robot'.name now).run.Wp (passSetting c)
      (fun res k' => k'.copy = some ha ∧
        ∀ hand, res = .ok hand → HandReady k' ha now hand) k := by
  unfold rotate
  have hreason := rotationReason_congr ha secret robot robot' now hid hwire
  cases hwhy : rotationReason ha secret robot now with
  | none =>
    refine ⟨hfound.1, fun hand h => ?_⟩
    obtain rfl := Except.ok.inj h
    cases secret with
    | none => cases hwhy
    | some secret =>
      exact ⟨⟨hfound.1, hinformed.secret, .same rfl secret hinformed.secret hinformed.wrote now hinformed.clock
        hwhy rfl⟩, hwalk⟩
  | some why =>
    rw [hwhy] at hreason
    refine wp_lift (P := fun _ k' => k' = k) (wp_ask ⟨ha, robot', secret, now, hfound, rfl,
      hinformed.secret, hinformed.wrote, hinformed.clock, hreason⟩ fun _ => rfl) fun _ k₁ h₁ => ?_
    obtain rfl := h₁
    refine wp_attempt_seq (wp_passHarbor (Client.wp_refreshSecret_keeps robot.id k₁
      (.rotates ha robot' hfound hid hactive secret hinformed.secret hinformed.wrote now
        hinformed.clock why hreason)))
      (fun password k₂ h₂ => ?_) fun _ _ h => ⟨h.1.copy.trans hfound.1, nofun⟩
    obtain ⟨hkeeps, hwalk₂, hok⟩ := h₂
    obtain ⟨hne, hpassword⟩ := hok password rfl
    have hinformed₂ := hkeeps.informed hinformed
    refine ⟨hkeeps.copy.trans hfound.1, fun hand h => ?_⟩
    obtain rfl := Except.ok.inj h
    exact ⟨⟨hkeeps.copy.trans hfound.1, hinformed₂.secret,
      .new hpassword hne now hinformed₂.clock rfl⟩, hwalk₂ ▸ hwalk⟩

theorem wp_renew {secret : Option Secret} {robotName : GoString} {robot : Robot} {created : Bool}
    {now : Int} (hcopy : k.copy = some ha) (hensured : Ensured c k ha robotName robot created)
    (hinformed : Informed k secret now) (hwalk : k.walk.Rested) :
    (renew c ha secret robotName robot created now).run.Wp (passSetting c)
      (fun res k' => k'.copy = some ha ∧
        ∀ hand, res = .ok hand → HandReady k' ha now hand) k := by
  cases created with
  | true =>
    obtain ⟨hpassword, hne⟩ := hensured
    refine ⟨hcopy, fun hand h => ?_⟩
    obtain rfl := Except.ok.inj h
    exact ⟨⟨hcopy, hinformed.secret, .new hpassword hne now hinformed.clock rfl⟩, hwalk⟩
  | false =>
    obtain ⟨hfound, rfl⟩ := hensured
    unfold renew
    dsimp only
    rw [if_neg Bool.false_ne_true]
    split_ifs with hsuspended
    · rw [Bool.and_eq_true] at hsuspended
      exact wp_resume hfound hsuspended hinformed _
    · rw [Bool.and_eq_true] at hsuspended
      refine Prog.wp_run_seq (wp_alignRobot hfound hsuspended hwalk _) (fun _ k₁ h₁ => ?_)
        fun _ _ h => ⟨h.1, nofun⟩
      obtain ⟨hcopy₁, hok₁⟩ := h₁
      obtain ⟨hwalk₁, hsecret, hwrote, hclock, robot', hfound₁, hactive, hid, hname, hwire⟩ :=
        hok₁ rfl
      rw [← hname]
      exact wp_rotate hfound₁ hactive hid hwire ⟨hsecret.trans hinformed.secret,
        hwrote.trans hinformed.wrote, hclock.trans hinformed.clock⟩ hwalk₁

theorem wp_deleteStale (keepID : Int) (robots : List Robot) {k : PassKnows}
    (hcopy : k.copy = some ha) (hshown : ∀ robot ∈ robots, robot ∈ k.shown) :
    (deleteStale c ha keepID robots).Wp (passSetting c) (fun _ k' => k'.copy = some ha) k := by
  induction robots generalizing k with
  | nil => exact hcopy
  | cons robot robots ih =>
    obtain ⟨hrobot, hrobots⟩ := List.forall_mem_cons.mp hshown
    unfold deleteStale
    cases misnamedOf c ha robot with
    | some e => exact hcopy
    | none =>
      dsimp only
      split_ifs with hskip
      · exact ih hcopy hrobots
      · rw [not_or, Bool.not_eq_false] at hskip
        refine Prog.wp_seq (wp_passHarbor (Client.wp_delete_keeps robot.id k
          (.owned ha robot hcopy rfl hrobot hskip.2))) fun res k' h => ?_
        have hcopy' := h.1.copy.trans hcopy
        cases res with
        | error e => exact hcopy'
        | ok _ => exact ih hcopy' fun r hr => h.1.shown (hrobots r hr)

theorem wp_deleteStaleRobots (keepID : Int) (hcopy : k.copy = some ha) (hwalk : k.walk.Rested) :
    (deleteStaleRobots c ha keepID).Wp (passSetting c) (fun _ k' => k'.copy = some ha) k := by
  refine Prog.wp_seq (wp_passHarbor (Client.wp_list_keeps none k hwalk)) fun res k' h => ?_
  obtain ⟨hkeeps, hok, -⟩ := h
  have hcopy' := hkeeps.copy.trans hcopy
  cases res with
  | error e => exact hcopy'
  | ok robots => exact wp_deleteStale keepID robots hcopy' (hok robots rfl).2.2.2

theorem wp_cleanUp (robot : Robot) (created : Bool) (hcopy : k.copy = some ha)
    (hwalk : k.walk.Rested) :
    (cleanUp c ha robot created).run.Wp (passSetting c) (fun _ k' => k'.copy = some ha) k := by
  unfold cleanUp
  split_ifs
  · exact wp_attempt (wp_deleteStaleRobots robot.id hcopy hwalk) (fun _ _ h => h) fun _ _ h => h
  · exact hcopy

theorem wp_converge {secret : Option Secret} {robotName : GoString}
    (haccepted : k.Accepted c robotName) (hfinal : Finalized c k ha) (hwalk : k.walk.Rested)
    (hsecret : k.secret = some secret) (hwrote : k.wrote = false) :
    (converge c ha secret robotName).run.Wp (passSetting c) (fun _ k' => k'.copy = some ha) k := by
  refine Prog.wp_run_seq (wp_ensureRobot haccepted hfinal hwalk _) (fun found k₁ h₁ => ?_)
    fun _ _ h => h.1.copy.trans hfinal.1
  obtain ⟨robot, created⟩ := found
  obtain ⟨hkeeps₁, hok₁⟩ := h₁
  obtain ⟨hensured, hwalk₁⟩ := hok₁ robot created rfl
  have hcopy₁ := hkeeps₁.copy.trans hfinal.1
  refine wp_lift (P := fun now k₂ => k₂ = { k₁ with clock := some now })
    (wp_ask (hkeeps₁.wrote.trans hwrote) fun _ => rfl) fun now k₂ h₂ => ?_
  have hensured₂ : Ensured c k₂ ha robotName robot created := by
    obtain rfl := h₂
    cases created <;> exact hensured
  have hinformed : Informed k₂ secret now := by
    obtain rfl := h₂
    exact ⟨hkeeps₁.secret.trans hsecret, hkeeps₁.wrote.trans hwrote, rfl⟩
  have hcopy₂ : k₂.copy = some ha := by rw [h₂]; exact hcopy₁
  have hwalk₂ : k₂.walk.Rested := by rw [h₂]; exact hwalk₁
  refine Prog.wp_run_seq (wp_renew hcopy₂ hensured₂ hinformed hwalk₂) (fun hand k₃ h₃ => ?_)
    fun _ _ h => h.1
  obtain ⟨hmay, hwalk₃⟩ := h₃.2 hand rfl
  refine wp_attempt_seq (wp_writeRobotSecret hmay) (fun _ k₄ h₄ => ?_) fun _ _ h => h.1
  refine Prog.wp_run_seq (wp_cleanUp hand.robot created h₄.1 (h₄.2 ▸ hwalk₃)) (fun _ k₅ h₅ => ?_)
    fun _ _ h => h
  split_ifs <;> exact h₅

/-! ## Refusal and deletion -/

theorem wp_deleteOwnRobotSecret (robotName : GoString) (hcopy : k.copy = some ha)
    (hdismissed : k.Dismissed c) (hwrote : k.wrote = false) :
    (deleteOwnRobotSecret c ha robotName).Wp (passSetting c)
      (fun _ k' => ∃ secret, k' = { k with secret := secret }) k := by
  refine Prog.wp_seq (wp_getRobotSecret hcopy (.inr (.inr hdismissed))) fun res k₁ h₁ => ?_
  match res with
  | .error e => exact ⟨k.secret, h₁⟩
  | .ok none => exact ⟨_, h₁⟩
  | .ok (some secret) =>
    obtain rfl := h₁
    dsimp only
    split_ifs with hconflict
    · exact ⟨_, rfl⟩
    · rw [Option.not_isSome_iff_eq_none] at hconflict
      refine Prog.wp_seq (wp_deleteSecret secret rfl hwrote (.own ha robotName hcopy hconflict))
        fun res k₂ h₂ => ?_
      cases res <;> exact ⟨_, h₂⟩

theorem wp_suspendRobot (robotName : GoString) (hcopy : k.copy = some ha)
    (hdismissed : k.Dismissed c) (hwalk : k.walk.Rested) :
    (suspendRobot c ha robotName).Wp (passSetting c) (fun res k' => k'.copy = some ha ∧
      k'.first = k.first ∧ ∀ kept, res = .ok kept → k'.walk.Rested) k := by
  unfold suspendRobot
  split_ifs
  · exact ⟨hcopy, rfl, fun _ _ => hwalk⟩
  · refine Prog.wp_seq (wp_passHarbor (Client.wp_getByName_keeps robotName k hwalk))
      fun res k₁ h₁ => ?_
    obtain ⟨hkeeps, hok, hnone⟩ := h₁
    have hcopy₁ := hkeeps.copy.trans hcopy
    split
    · exact ⟨hcopy₁, hkeeps.first, fun _ _ => hnone rfl⟩
    · exact ⟨hcopy₁, hkeeps.first, nofun⟩
    · next robot =>
      obtain ⟨hshown, -, hwalk₁⟩ := hok robot rfl
      split_ifs with howned hdisabled hback
      · exact ⟨hcopy₁, hkeeps.first, fun _ _ => hwalk₁⟩
      · exact ⟨hcopy₁, hkeeps.first, fun _ _ => hwalk₁⟩
      · rw [Bool.not_eq_false] at howned
        refine Prog.wp_seq (wp_passHarbor (Client.wp_update_keeps { robot with disabled := true } _
          robot.permissions k₁ (.suspends ha robot hcopy₁ (hkeeps.dismissed hdismissed) rfl hshown howned
            rfl rfl)))
          fun res k₂ h₂ => ?_
        obtain ⟨hcopy₂, hfirst₂, hok₂⟩ := h₂
        have hcopy₂' := hcopy₂.trans hcopy₁
        have hfirst := hfirst₂.trans hkeeps.first
        cases res with
        | error e => exact ⟨hcopy₂', hfirst, nofun⟩
        | ok _ =>
          obtain rfl := hok₂ rfl
          exact ⟨hcopy₂', hfirst, fun _ _ => Walk.rested_none none⟩
      · rw [Bool.not_eq_false] at howned
        refine Prog.wp_seq (wp_passHarbor (Client.wp_delete_keeps robot.id k₁
          (.owned ha robot hcopy₁ rfl hshown howned))) fun res k₂ h₂ => ?_
        obtain ⟨hkeeps₂, hwalk₂, -⟩ := h₂
        have hcopy₂ := hkeeps₂.copy.trans hcopy₁
        have hfirst := hkeeps₂.first.trans hkeeps.first
        cases res with
        | error e => exact ⟨hcopy₂, hfirst, nofun⟩
        | ok _ => exact ⟨hcopy₂, hfirst, fun _ _ => hwalk₂ ▸ hwalk₁⟩

theorem wp_suspend (hcopy : k.copy = some ha) (hdismissed : k.Dismissed c)
    (hwrote : k.wrote = false) (hwalk : k.walk.Rested) :
    (suspend c ha).Wp (passSetting c) (fun res k' => k'.copy = some ha ∧ k'.first = k.first ∧
      (res.2 = none → k'.walk.Rested)) k := by
  refine Prog.wp_seq (wp_deleteOwnRobotSecret _ hcopy hdismissed hwrote) fun secretErr k₁ h₁ => ?_
  obtain ⟨secret, rfl⟩ := h₁
  split_ifs
  · exact ⟨hcopy, rfl, fun _ => hwalk⟩
  · refine Prog.wp_seq (wp_suspendRobot _ (k := { k with secret := secret }) hcopy hdismissed hwalk)
      fun res k₂ h₂ => ?_
    obtain ⟨hcopy₂, hfirst₂, hok₂⟩ := h₂
    cases res with
    | ok kept => exact ⟨hcopy₂, hfirst₂, fun _ => hok₂ kept rfl⟩
    | error e => cases secretErr <;> exact ⟨hcopy₂, hfirst₂, nofun⟩

theorem releasable_true (robots : List Robot) (h : releasable c ha robots = .ok true) :
    ∀ robot ∈ robots, robotOwnedBy c.clusterName robot ha.key.ns ha.key.name = false := by
  induction robots with
  | nil => nofun
  | cons robot robots ih =>
    unfold releasable at h
    split at h
    · cases h
    · split_ifs at h with howned
      · cases h
      · rw [Bool.not_eq_true] at howned
        exact List.forall_mem_cons.mpr ⟨howned, ih h⟩

theorem heldFinalizers_subset (c : Config) (ha : HarborAccess) :
    heldFinalizers c ha ⊆ c.releasedFinalizers :=
  fun _ hf => List.mem_of_mem_filter hf

theorem wp_releaseRefused (hcopy : k.copy = some ha) (hdismissed : k.Dismissed c)
    (hwalk : k.walk.Rested) :
    (releaseRefused c ha).Wp (passSetting c) (fun _ _ => True) k := by
  unfold releaseRefused
  split_ifs
  · trivial
  · refine Prog.wp_seq (wp_passHarbor (Client.wp_list_keeps none k hwalk)) fun res k₁ h₁ => ?_
    obtain ⟨hkeeps, hok, -⟩ := h₁
    cases res with
    | error e => trivial
    | ok robots =>
      obtain ⟨hfilter, hcomplete, rfl, -⟩ := hok robots rfl
      dsimp only
      cases hreleasable : releasable c ha k₁.walk.robots with
      | error e => trivial
      | ok free =>
        cases free with
        | false => trivial
        | true =>
          have hnone := releasable_true _ hreleasable
          have hrevoked : k₁.Revoked c ha := ⟨hfilter, hcomplete, fun robot hr howned => by
            rw [hnone robot hr] at howned
            cases howned⟩
          refine Prog.wp_seq (P := fun _ _ => True) (wp_ask (.releases
            (hkeeps.copy.trans hcopy) (hkeeps.dismissed hdismissed) hrevoked ⟨refusedFinalizers c ha,
              fun f hf => heldFinalizers_subset c ha (List.mem_of_mem_filter hf), rfl⟩)
            fun _ => trivial) fun res k₂ _ => ?_
          match res with
          | .ok _ => trivial
          | .error .notFound => trivial
          | .error .conflict => trivial
          | .error .alreadyExists => trivial
          | .error .other => trivial

theorem wp_refuse (hcopy : k.copy = some ha) (hdismissed : k.Dismissed c) (hwrote : k.wrote = false)
    (hwalk : k.walk.Rested) (reason : Reason) :
    (refuse c ha reason).Wp (passSetting c) (fun _ _ => True) k := by
  refine Prog.wp_seq (wp_suspend hcopy hdismissed hwrote hwalk) fun res k₁ h₁ => ?_
  obtain ⟨free, suspendErr⟩ := res
  obtain ⟨hcopy₁, hfirst₁, hwalk₁⟩ := h₁
  refine Prog.wp_seq (wp_setNotReady ha hcopy₁ ⟨_, rfl⟩ reason) fun res k₂ h₂ => ?_
  cases res with
  | error e => trivial
  | ok ha' =>
    obtain rfl := h₂ ha' rfl
    cases suspendErr with
    | some e => trivial
    | none =>
      have hdismissed₂ : PassKnows.Dismissed c { k₁ with copy := some ha' } := by
        obtain ⟨ha₀, hfirst, h⟩ := hdismissed
        exact ⟨ha₀, hfirst₁.trans hfirst, h⟩
      dsimp only
      split_ifs
      · refine Prog.wp_seq (wp_releaseRefused rfl hdismissed₂ (hwalk₁ rfl)) fun res k₃ _ => ?_
        cases res <;> trivial
      · trivial

theorem wp_blockDeletion (hcopy : k.copy = some ha) (cause : PassErr) :
    (blockDeletion ha cause).Wp (passSetting c) (fun _ _ => True) k :=
  Prog.wp_seq (wp_setNotReady ha hcopy ⟨_, rfl⟩ _) fun _ _ _ => trivial

/-- After all robots of the HarborAccess were gone through, the owned ones are deleted. -/
theorem wp_deleteOwned (robots : List Robot) {k : PassKnows} (hcopy : k.copy = some ha)
    (hshown : ∀ robot ∈ robots, robot ∈ k.shown) :
    (deleteOwned c ha robots).Wp (passSetting c) (fun res k' => Keeps k k' ∧ k'.walk = k.walk ∧
      k.deleted ⊆ k'.deleted ∧ (res = none → ∀ robot ∈ robots,
        robotOwnedBy c.clusterName robot ha.key.ns ha.key.name = true →
          robot.id ∈ k'.deleted)) k := by
  induction robots generalizing k with
  | nil => exact ⟨.refl k, rfl, fun _ h => h, nofun⟩
  | cons robot robots ih =>
    obtain ⟨hrobot, hrobots⟩ := List.forall_mem_cons.mp hshown
    unfold deleteOwned
    cases misnamedOf c ha robot with
    | some e => exact ⟨.refl k, rfl, fun _ h => h, nofun⟩
    | none =>
      dsimp only
      split_ifs with howned
      · refine Prog.wp_mono (fun res k' h => ⟨h.1, h.2.1, h.2.2.1, fun hres => ?_⟩) _ _
          (ih hcopy hrobots)
        refine List.forall_mem_cons.mpr ⟨fun h => ?_, h.2.2.2 hres⟩
        rw [howned] at h
        cases h
      · rw [Bool.not_eq_false] at howned
        refine Prog.wp_seq (wp_passHarbor (Client.wp_delete_keeps robot.id k
          (.owned ha robot hcopy rfl hrobot howned))) fun res k₁ h₁ => ?_
        obtain ⟨hkeeps₁, hwalk₁, hdeleted₁, hok₁⟩ := h₁
        cases res with
        | error e => exact ⟨hkeeps₁, hwalk₁, hdeleted₁, nofun⟩
        | ok _ =>
          refine Prog.wp_mono (fun res k₂ h₂ => ?_) _ _
            (ih (hkeeps₁.copy.trans hcopy) fun r hr => hkeeps₁.shown (hrobots r hr))
          obtain ⟨hkeeps₂, hwalk₂, hdeleted₂, hok₂⟩ := h₂
          refine ⟨hkeeps₁.trans hkeeps₂, hwalk₂.trans hwalk₁, fun _ h => hdeleted₂ (hdeleted₁ h),
            fun hres => ?_⟩
          exact List.forall_mem_cons.mpr ⟨fun _ => hdeleted₂ (hok₁ rfl), hok₂ hres⟩

theorem wp_reconcileDelete (hfirst : k.first = some ha) (hcopy : k.copy = some ha)
    (hdeleting : ha.deleting = true) (hwrote : k.wrote = false) (hwalk : k.walk.Rested) :
    (reconcileDelete c ha).Wp (passSetting c) (fun _ _ => True) k := by
  unfold reconcileDelete
  dsimp only
  split_ifs
  · trivial
  · refine Prog.wp_seq (wp_passHarbor (Client.wp_list_keeps none k hwalk)) fun res k₁ h₁ => ?_
    obtain ⟨hkeeps₁, hok₁, -⟩ := h₁
    have hcopy₁ := hkeeps₁.copy.trans hcopy
    cases res with
    | error e => exact wp_blockDeletion hcopy₁ _
    | ok robots =>
      obtain ⟨hfilter, hcomplete, rfl, hshown⟩ := hok₁ robots rfl
      refine Prog.wp_seq (wp_deleteOwned _ hcopy₁ hshown) fun res k₂ h₂ => ?_
      obtain ⟨hkeeps₂, hwalk₂, -, hok₂⟩ := h₂
      have hcopy₂ := hkeeps₂.copy.trans hcopy₁
      have hkeeps := hkeeps₁.trans hkeeps₂
      have hdismissed : k₂.Dismissed c := ⟨ha, hkeeps.first.trans hfirst, .inl hdeleting⟩
      cases res with
      | some e => exact wp_blockDeletion hcopy₂ _
      | none =>
        refine Prog.wp_seq (wp_deleteOwnRobotSecret _ hcopy₂ hdismissed
          (hkeeps.wrote.trans hwrote)) fun res k₃ h₃ => ?_
        obtain ⟨secret, rfl⟩ := h₃
        cases res with
        | some e => exact wp_blockDeletion (k := { k₂ with secret := secret }) hcopy₂ _
        | none =>
          have hrevoked : PassKnows.Revoked c { k₂ with secret := secret } ha := by
            unfold PassKnows.Revoked
            rw [hwalk₂]
            exact ⟨hfilter, hcomplete, hok₂ rfl⟩
          refine Prog.wp_seq (P := fun _ _ => True) (wp_ask (.releases hcopy₂ hdismissed hrevoked
            ⟨heldFinalizers c ha, heldFinalizers_subset c ha, rfl⟩) fun _ => trivial)
            fun res k₄ _ => ?_
          match res with
          | .ok _ => trivial
          | .error .notFound => trivial
          | .error .conflict => trivial
          | .error .alreadyExists => trivial
          | .error .other => trivial

/-! ## Passes -/

theorem wp_ensureFinalizer {robotName : GoString} (hcopy : k.copy = some ha)
    (haccepted : k.Accepted c robotName) :
    (ensureFinalizer c ha).Wp (passSetting c) (fun res k' => ∀ ha', res = .ok ha' →
      Finalized c k' ha' ∧ k'.first = k.first ∧ k'.walk = k.walk ∧ k'.secret = k.secret ∧
      k'.wrote = k.wrote) k := by
  unfold ensureFinalizer
  split_ifs with hheld
  · intro ha' h
    obtain rfl := Except.ok.inj h
    exact ⟨⟨hcopy, .inl (List.contains_iff_mem.mp hheld)⟩, rfl, rfl, rfl, rfl⟩
  · refine wp_ask (.adds robotName hcopy haccepted rfl) fun r => ?_
    match r with
    | Except.error e => nofun
    | Except.ok ha' =>
      intro ha'' h
      obtain rfl := Except.ok.inj h
      exact ⟨⟨rfl, .inr rfl⟩, rfl, rfl, rfl, rfl⟩

theorem wp_reconcileNormal (hfirst : k.first = some ha) (hcopy : k.copy = some ha)
    (hdeleting : ha.deleting = false) (hselects : c.selects ha = true) (hwrote : k.wrote = false)
    (hshown : k.shown = []) (hwalk : k.walk.Rested) :
    (reconcileNormal c ha).Wp (passSetting c) (fun _ _ => True) k := by
  unfold reconcileNormal
  cases hadmit : admission c ha with
  | error refusal => exact wp_refuse hcopy ⟨ha, hfirst, .inr ⟨refusal, hadmit⟩⟩ hwrote hwalk _
  | ok robotName =>
    have haccepted : k.Accepted c robotName := ⟨ha, hfirst, hdeleting, hselects, hadmit⟩
    dsimp only
    split_ifs
    · trivial
    · refine Prog.wp_seq (wp_getRobotSecret hcopy (.inl hshown)) fun res k₁ h₁ => ?_
      cases res with
      | error e =>
        obtain rfl := h₁
        exact wp_markTransientError hcopy _
      | ok secret =>
        obtain rfl := h₁
        dsimp only
        split_ifs
        · exact wp_markNotReadyWithRequeue (k := { k with secret := some secret }) hcopy _
        · refine Prog.wp_seq (wp_ensureFinalizer (k := { k with secret := some secret }) hcopy
            haccepted) fun res k₂ h₂ => ?_
          cases res with
          | error e => trivial
          | ok ha' =>
            obtain ⟨hfinal, hfirst₂, hwalk₂, hsecret₂, hwrote₂⟩ := h₂ ha' rfl
            have haccepted₂ : k₂.Accepted c robotName :=
              ⟨ha, hfirst₂.trans hfirst, hdeleting, hselects, hadmit⟩
            refine Prog.wp_seq (wp_converge haccepted₂ hfinal (hwalk₂ ▸ hwalk) hsecret₂
              (hwrote₂.trans hwrote)) fun res k₃ h₃ => ?_
            match res with
            | .ok ready => exact wp_markReady h₃ _ _ _
            | .error (.notReady reason) => exact wp_markNotReadyWithRequeue h₃ _
            | .error (.transient cause) => exact wp_markTransientError h₃ _

/-- A pass does only what it is allowed to, whatever it is answered. -/
theorem wp_reconcile (c : Config) (key : ObjectKey) :
    (reconcile c key).Wp (passSetting c) (fun _ _ => True) (PassKnows.start key) := by
  refine Prog.wp_seq (P := fun res k => ∀ ha, res = .ok ha →
    k = { PassKnows.start key with first := some ha, copy := some ha })
    (wp_ask ⟨rfl, rfl⟩ fun r => ?_) fun res k h => ?_
  · match r with
    | Except.error e => nofun
    | Except.ok ha =>
      intro ha' h
      obtain rfl := Except.ok.inj h
      rfl
  · match res with
    | .error .notFound => trivial
    | .error .conflict => trivial
    | .error .alreadyExists => trivial
    | .error .other => trivial
    | .ok ha =>
      obtain rfl := h ha rfl
      have hwalk : (Walk.none none).Rested := Walk.rested_none none
      dsimp only
      split_ifs with hselects hdeleting
      · trivial
      · exact wp_reconcileDelete rfl rfl hdeleting rfl hwalk
      · rw [Bool.not_eq_false] at hselects
        rw [Bool.not_eq_true] at hdeleting
        exact wp_reconcileNormal rfl rfl hdeleting hselects rfl rfl hwalk

end Steps

/-! ## What a pass keeps in mind -/

namespace PassKnows

variable {c : Config} {k : PassKnows}

theorem learn_kube {call : Call} (hcall : ∀ request, call ≠ .harbor request) (r : Answer call) :
    (k.learn c call r).key = k.key ∧ (k.learn c call r).walk = k.walk ∧
    (k.learn c call r).shown = k.shown ∧ (k.learn c call r).deleted = k.deleted ∧
    (k.learn c call r).created = k.created ∧ (k.learn c call r).password = k.password := by
  cases call with
  | harbor request => exact absurd rfl (hcall request)
  | getAccess | patchFinalizers | updateStatus =>
    match r with
    | Except.ok ha => exact ⟨rfl, rfl, rfl, rfl, rfl, rfl⟩
    | Except.error e => exact ⟨rfl, rfl, rfl, rfl, rfl, rfl⟩
  | readSecret | deleteSecret =>
    match r with
    | Except.ok s => exact ⟨rfl, rfl, rfl, rfl, rfl, rfl⟩
    | Except.error e => cases e <;> exact ⟨rfl, rfl, rfl, rfl, rfl, rfl⟩
  | _ => exact ⟨rfl, rfl, rfl, rfl, rfl, rfl⟩

theorem learn_harbor (request : HarborCall) (r : HarborAnswer request) :
    (k.learnHarbor c request r).key = k.key ∧ (k.learnHarbor c request r).first = k.first ∧
    (k.learnHarbor c request r).copy = k.copy ∧ (k.learnHarbor c request r).patched = k.patched ∧
    (k.learnHarbor c request r).secret = k.secret ∧ (k.learnHarbor c request r).wrote = k.wrote ∧
    (k.learnHarbor c request r).clock = k.clock := by
  cases request with
  | listRobot | updateRobot =>
    match r with
    | Except.ok _ => exact ⟨rfl, rfl, rfl, rfl, rfl, rfl, rfl⟩
    | Except.error e => exact ⟨rfl, rfl, rfl, rfl, rfl, rfl, rfl⟩
  | createRobot | refreshSec =>
    match r with
    | Except.ok none => exact ⟨rfl, rfl, rfl, rfl, rfl, rfl, rfl⟩
    | Except.ok (some _) => exact ⟨rfl, rfl, rfl, rfl, rfl, rfl, rfl⟩
    | Except.error e => exact ⟨rfl, rfl, rfl, rfl, rfl, rfl, rfl⟩
  | deleteRobot id =>
    match r with
    | Except.ok () => exact ⟨rfl, rfl, rfl, rfl, rfl, rfl, rfl⟩
    | Except.error e =>
      unfold learnHarbor
      dsimp only
      split_ifs <;> exact ⟨rfl, rfl, rfl, rfl, rfl, rfl, rfl⟩

theorem learn_key (call : Call) (r : Answer call) : (k.learn c call r).key = k.key := by
  by_cases hcall : ∃ request, call = .harbor request
  · obtain ⟨request, rfl⟩ := hcall
    exact (k.learn_harbor (c := c) request r).1
  · exact (k.learn_kube (c := c) (fun request heq => hcall ⟨request, heq⟩) r).1

/-- A pass reads its first copy once. -/
theorem learn_first {call : Call} (hallowed : k.Allows c call) (r : Answer call) {ha : HarborAccess}
    (hfirst : k.first = some ha) : (k.learn c call r).first = some ha := by
  cases call with
  | harbor request => exact (k.learn_harbor (c := c) request r).2.1.trans hfirst
  | getAccess key => cases hallowed.2.symm.trans hfirst
  | patchFinalizers | updateStatus =>
    match r with
    | Except.ok ha => exact hfirst
    | Except.error e => exact hfirst
  | readSecret | deleteSecret =>
    match r with
    | Except.ok s => exact hfirst
    | Except.error e => cases e <;> exact hfirst
  | _ => exact hfirst

theorem Dismissed.learn (hk : k.Dismissed c) (call : Call) (hallowed : k.Allows c call)
    (r : Answer call) : (k.learn c call r).Dismissed c := by
  obtain ⟨ha, hfirst, hcase⟩ := hk
  exact ⟨ha, k.learn_first hallowed r hfirst, hcase⟩

theorem learn_clock {call : Call} (hcall : call ≠ .now) (r : Answer call) :
    (k.learn c call r).clock = k.clock := by
  cases call with
  | harbor request => exact (k.learn_harbor (c := c) request r).2.2.2.2.2.2
  | now => exact absurd rfl hcall
  | getAccess | patchFinalizers | updateStatus =>
    match r with
    | Except.ok ha => rfl
    | Except.error e => rfl
  | readSecret | deleteSecret =>
    match r with
    | Except.ok s => rfl
    | Except.error e => cases e <;> rfl
  | _ => rfl

/-- A pass gets its copy from the first read. -/
theorem copy_of_learn {call : Call} {r : Answer call} (hget : ∀ key, call ≠ .getAccess key)
    (hallowed : k.Allows c call) {ha : HarborAccess} (h : (k.learn c call r).copy = some ha) :
    ∃ old, k.copy = some old := by
  cases call with
  | harbor request => exact ⟨ha, (k.learn_harbor (c := c) request r).2.2.1.symm.trans h⟩
  | getAccess key => exact absurd rfl (hget key)
  | patchFinalizers old finalizers => exact ⟨old, by cases hallowed <;> assumption⟩
  | updateStatus sent =>
    obtain ⟨old, status, hcopy, -⟩ := hallowed
    exact ⟨old, hcopy⟩
  | readSecret | deleteSecret =>
    match r with
    | Except.ok s => exact ⟨ha, h⟩
    | Except.error e => cases e <;> exact ⟨ha, h⟩
  | _ => exact ⟨ha, h⟩

def OwnCopy (k : PassKnows) : Prop := ∀ ha, k.copy = some ha → ha.key = k.key

theorem OwnCopy.learn {call : Call} {r : Answer call} (hk : k.OwnCopy)
    (hallowed : k.Allows c call) (hright : RightObject call r) : (k.learn c call r).OwnCopy := by
  cases call with
  | harbor request =>
    intro ha hcopy
    obtain ⟨hkey, -, hcopy', -⟩ := k.learn_harbor (c := c) request r
    exact (hk ha (hcopy'.symm.trans hcopy)).trans hkey.symm
  | getAccess key =>
    match r with
    | Except.error e => exact hk
    | Except.ok ha =>
      intro ha' h
      obtain rfl := Option.some.inj h
      exact (hright ha rfl).trans hallowed.1
  | patchFinalizers old finalizers =>
    match r with
    | Except.error e => exact nofun
    | Except.ok ha =>
      intro ha' h
      obtain rfl := Option.some.inj h
      refine (hright ha rfl).trans (hk old ?_)
      cases hallowed <;> assumption
  | updateStatus sent =>
    match r with
    | Except.error e => exact nofun
    | Except.ok ha =>
      intro ha' h
      obtain rfl := Option.some.inj h
      obtain ⟨old, status, hcopy, rfl⟩ := hallowed
      exact (hright ha rfl).trans (hk old hcopy)
  | readSecret | deleteSecret =>
    match r with
    | Except.ok s => exact hk
    | Except.error e => cases e <;> exact hk
  | _ => exact hk

def Walked (k : PassKnows) : Prop := k.walk.robots ⊆ k.shown

theorem Walked.learn (hk : k.Walked) (call : Call) (r : Answer call) :
    (k.learn c call r).Walked := by
  by_cases hharbor : ∃ request, call = .harbor request
  · obtain ⟨request, rfl⟩ := hharbor
    change (k.learnHarbor c request r).Walked
    cases request with
    | listRobot filter idFrom =>
      match r with
      | Except.ok payload => exact List.subset_append_left _ _
      | Except.error e => exact hk
    | createRobot body =>
      match r with
      | Except.ok none => exact List.nil_subset _
      | Except.ok (some _) => exact List.nil_subset _
      | Except.error e => exact List.nil_subset _
    | updateRobot id body =>
      match r with
      | Except.ok () => exact List.nil_subset _
      | Except.error e => exact List.nil_subset _
    | refreshSec id =>
      match r with
      | Except.ok none => exact hk
      | Except.ok (some _) => exact hk
      | Except.error e => exact hk
    | deleteRobot id =>
      match r with
      | Except.ok () => exact hk
      | Except.error e =>
        unfold learnHarbor
        dsimp only
        split_ifs <;> exact hk
  · obtain ⟨-, hwalk, hshown, -⟩ := k.learn_kube (c := c) (fun request h => hharbor ⟨request, h⟩) r
    unfold Walked
    rw [hwalk, hshown]
    exact hk

end PassKnows

end HarborBridge
