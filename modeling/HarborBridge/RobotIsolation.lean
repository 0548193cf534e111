import HarborBridge.SweepObserved

/-! Bridges of several clusters that share one Harbor leave each other's robots alone. -/
namespace HarborBridge

open GoStrings Interaction

/-- One Harbor and the bridges `B`: who created the robot of an id, and the HarborAccess that
the worker of a bridge is reconciling. -/
structure SharedHarbor (B : Type) where
  harbor : Harbor
  creator : Int → Option B
  reconciling : B → Option ObjectKey

namespace SharedHarbor

variable {B : Type}

/-- Harbor has changed through a request of the bridge `b`: the ids that were given out are
those of its robots. -/
def afterHarbor (b : B) (w : SharedHarbor B) (h : Harbor) : SharedHarbor B :=
  { w with
    harbor := h
    creator := fun id => if w.harbor.nextId ≤ id ∧ id < h.nextId then some b else w.creator id }

theorem afterHarbor_creator (b : B) (w : SharedHarbor B) (h : Harbor) (id : Int) :
    (w.afterHarbor b h).creator id =
      if w.harbor.nextId ≤ id ∧ id < h.nextId then some b else w.creator id := rfl

/-- How a call of the bridge `b` is answered: by Harbor, with failures, and by an apiserver
that may say anything of the object that it is asked for. -/
inductive Answers [DecidableEq B] (b : B) (w : SharedHarbor B) : (call : Call) → Answer call → SharedHarbor B → Prop
    where
  | harbor (call : HarborCall) (r : HarborAnswer call) (h : Harbor)
      (hf : w.harbor.Faulty call r h) :
      Answers b w (.harbor call) r (w.afterHarbor b h)
  | getAccess (key : ObjectKey) (r : Answer (.getAccess key)) (hr : RightObject (.getAccess key) r) :
      Answers b w (.getAccess key) r { w with
        reconciling := Function.update w.reconciling b (some key) }
  | other (call : Call) (r : Answer call) (hharbor : ∀ request, call ≠ .harbor request)
      (hget : ∀ key, call ≠ .getAccess key) (hr : RightObject call r) : Answers b w call r w

end SharedHarbor

inductive Writes : HarborCall → Int → Prop where
  | update (id : Int) (body : RobotUpdate) : Writes (.updateRobot id body) id
  | refresh (id : Int) : Writes (.refreshSec id) id
  | delete (id : Int) : Writes (.deleteRobot id) id

/-- The robot of the id, as long as it is there, has a description of this kind. -/
def Tracks (h : Harbor) (id : Int) (P : GoString → Prop) : Prop :=
  id < h.nextId ∧ ∀ r ∈ h.robots, r.id = id → P r.description

theorem Tracks.effect {h h' : Harbor} {call : HarborCall} {id : Int} {P : GoString → Prop}
    (ht : Tracks h id P) (he : h.Effect call h')
    (hupdate : ∀ body r, call = .updateRobot id body → r ∈ h.robots → r.id = id →
      P body.description) : Tracks h' id P := by
  refine ⟨ht.1.trans_le he.nextId_le, fun s hs hid => ?_⟩
  rcases he.mem hs with ⟨r, hr, hrs, -, -, hcase⟩ | ⟨body, -, hnew, -⟩
  · rcases hcase with ⟨hdesc, -⟩ | ⟨body, hcall, hdesc, -⟩
    · rw [hdesc]
      exact ht.2 r hr (hrs.trans hid)
    · rw [hdesc]
      exact hupdate body r (hid ▸ hcall) hr (hrs.trans hid)
  · have := ht.1
    omega

section Isolation

variable {B : Type} (config : B → Config)

/-- What a pass knows is so: the robots with the tag of its cluster that it was shown still
have the description that it saw, and the robot that it created is its HarborAccess's. -/
structure PassFits (b : B) (k : PassKnows) (w : SharedHarbor B) : Prop where
  copy : ∀ ha, k.copy = some ha → ha.key = k.key ∧ w.reconciling b = some k.key
  walk : ∀ robot ∈ k.walk.robots, robot ∈ k.shown
  shown : ∀ robot ∈ k.shown, Tracks w.harbor robot.id fun d =>
    robotBelongsToCluster robot.description (config b).clusterName = true → d = robot.description
  created : ∀ id, k.created = some id → w.reconciling b = some k.key ∧
    Tracks w.harbor id fun d => Describes (config b).clusterName k.key.ns k.key.name d

/-- The robots with the tag of its cluster that a sweep was shown still have the tag. -/
structure SweepFits (b : B) (k : SweepKnows) (w : SharedHarbor B) : Prop where
  shown : ∀ robot ∈ k.shown, Tracks w.harbor robot.id fun d =>
    robotBelongsToCluster robot.description (config b).clusterName = true →
      robotBelongsToCluster d (config b).clusterName = true

def Fits : B × Role → Knowledge → SharedHarbor B → Prop :=
  Knowledge.Fits (PassFits config) (SweepFits config)

/-- A robot that a bridge created carries a description of its cluster. -/
def Tagged (w : SharedHarbor B) : Prop :=
  ∀ r ∈ w.harbor.robots, ∀ b, w.creator r.id = some b →
    ∃ key : ObjectKey, Describes (config b).clusterName key.ns key.name r.description

/-- The robot is the bridge's, and it names the HarborAccess of the key or none. -/
def Mine (b : B) (key : ObjectKey) (r : StoredRobot) : Prop :=
  robotBelongsToCluster r.description (config b).clusterName = true ∧
    ∀ owner, parseRobotDescription r.description = some owner → owner = (key.ns, key.name)

variable {config}

theorem describes_mine {b : B} {key : ObjectKey} {d : GoString}
    (h : Describes (config b).clusterName key.ns key.name d) :
    robotBelongsToCluster d (config b).clusterName = true ∧
      ∀ owner, parseRobotDescription d = some owner → owner = (key.ns, key.name) := by
  have hword := (config b).clusterName_word
  refine ⟨(h.robotBelongsToCluster_iff hword _).mpr rfl, fun owner howner => ?_⟩
  rw [h.parseRobotDescription_eq hword] at howner
  exact (Option.some.inj howner).symm

theorem PassFits.mine_of_shown {b : B} {k : PassKnows} {w : SharedHarbor B}
    (hk : PassFits config b k w) {r : StoredRobot} (hr : r ∈ w.harbor.robots) {ha : HarborAccess}
    {robot : Robot} (hcopy : k.copy = some ha) (hmem : robot ∈ k.shown) (hid : robot.id = r.id)
    (hadopt : PassKnows.Adoptable (config b) ha robot) :
    w.reconciling b = some k.key ∧ Mine config b k.key r := by
  obtain ⟨hkey, hrec⟩ := hk.copy ha hcopy
  have hdesc := (hk.shown robot hmem).2 r hr hid.symm hadopt.1
  refine ⟨hrec, ?_⟩
  rw [Mine, hdesc, ← hkey]
  exact hadopt

/-- A pass writes only to robots with the tag of its cluster that name its HarborAccess or
none. -/
theorem PassFits.mine {b : B} {k : PassKnows} {w : SharedHarbor B} (hk : PassFits config b k w)
    {call : HarborCall} (hallowed : k.AllowsHarbor (config b) call) {r : StoredRobot}
    (hr : r ∈ w.harbor.robots) (hwrites : Writes call r.id) :
    w.reconciling b = some k.key ∧ Mine config b k.key r := by
  cases hwrites with
  | update _ body =>
    cases hallowed with
    | suspends ha robot hcopy hdismissed hid hmem howns =>
      exact hk.mine_of_shown hr hcopy hmem hid (PassKnows.adoptable_of_robotOwnedBy howns)
    | aligns ha robot hfound hid =>
      exact hk.mine_of_shown hr hfound.1 hfound.2.2.1 hid hfound.2.2.2
    | resumes ha robot hfound hid =>
      exact hk.mine_of_shown hr hfound.1 hfound.2.2.1 hid hfound.2.2.2
  | refresh =>
    cases hallowed with
    | resumes ha robot hfound hid =>
      exact hk.mine_of_shown hr hfound.1 hfound.2.2.1 hid hfound.2.2.2
    | rotates ha robot hfound hid =>
      exact hk.mine_of_shown hr hfound.1 hfound.2.2.1 hid hfound.2.2.2
  | delete =>
    cases hallowed with
    | created h =>
      obtain ⟨hrec, htracks⟩ := hk.created r.id h
      exact ⟨hrec, describes_mine (htracks.2 r hr rfl)⟩
    | owned ha robot hcopy hid hmem howns =>
      exact hk.mine_of_shown hr hcopy hmem hid (PassKnows.adoptable_of_robotOwnedBy howns)

theorem SweepFits.mine {b : B} {k : SweepKnows} {w : SharedHarbor B} (hk : SweepFits config b k w)
    {call : HarborCall} (hallowed : k.AllowsHarbor (config b) call) {r : StoredRobot}
    (hr : r ∈ w.harbor.robots) (hwrites : Writes call r.id) :
    robotBelongsToCluster r.description (config b).clusterName = true := by
  cases hwrites with
  | update => exact hallowed.elim
  | refresh => exact hallowed.elim
  | delete =>
    obtain ⟨robot, hmem, hid, owner, live, hjudged, -⟩ := hallowed
    refine (hk.shown robot hmem).2 r hr hid.symm ?_
    unfold Janitor.judgedOwner at hjudged
    split_ifs at hjudged with hname hcluster
    rwa [Bool.not_eq_false] at hcluster

/-- An update writes a description of the HarborAccess. -/
theorem PassFits.describes_update {b : B} {k : PassKnows} {w : SharedHarbor B}
    (hk : PassFits config b k w) {id : Int} {body : RobotUpdate}
    (hallowed : k.Updates (config b) id body) :
    Describes (config b).clusterName k.key.ns k.key.name body.description := by
  cases hallowed with
  | suspends ha robot hcopy hdismissed hid hmem howns hdisable hdesc =>
    rw [← (hk.copy ha hcopy).1]
    exact .inr hdesc
  | aligns ha robot hfound hid hactive hdisable hdesc =>
    rw [← (hk.copy ha hfound.1).1]
    exact .inl hdesc
  | resumes ha robot hfound hid hsuspended password hpassword hdisable hdesc =>
    rw [← (hk.copy ha hfound.1).1]
    exact .inl hdesc

theorem PassFits.learnHarbor {b : B} {k : PassKnows} {w : SharedHarbor B}
    (hk : PassFits config b k w) {call : HarborCall} (hallowed : k.AllowsHarbor (config b) call)
    {r : HarborAnswer call} {h : Harbor} (hf : w.harbor.Faulty call r h) :
    PassFits config b (k.learnHarbor (config b) call r) (w.afterHarbor b h) := by
  have he := hf.effect
  -- only an update of the robot itself changes a description
  have hshown : ∀ robot ∈ k.shown, (∀ body, call ≠ .updateRobot robot.id body) →
      Tracks h robot.id fun d =>
        robotBelongsToCluster robot.description (config b).clusterName = true →
          d = robot.description :=
    fun robot hmem hno => (hk.shown robot hmem).effect he fun body _ hcall => absurd hcall (hno body)
  have hcreated : ∀ id, k.created = some id → w.reconciling b = some k.key ∧
      Tracks h id fun d => Describes (config b).clusterName k.key.ns k.key.name d := by
    intro id hid
    obtain ⟨hrec, ht⟩ := hk.created id hid
    refine ⟨hrec, ht.effect he fun body _ hcall _ _ => ?_⟩
    subst hcall
    exact hk.describes_update hallowed
  cases call with
  | listRobot filter idFrom =>
    match r with
    | Except.error e => exact ⟨hk.copy, hk.walk, fun robot hr => hshown robot hr nofun, hcreated⟩
    | Except.ok payload =>
      obtain ⟨rfl, rfl⟩ := hf.of_listRobot
      refine ⟨hk.copy, fun robot hr => List.mem_append_left _ hr, fun robot hr => ?_, hcreated⟩
      have hold : robot ∈ k.shown ∨ ∃ x ∈ (w.harbor.page filter idFrom).filterMap id,
          fromHarborRobot (config b).harborRobotPrefix x = some robot := by
        rcases List.mem_append.mp hr with hr | hr
        · exact (Walk.mem_readPage hr).imp_left (hk.walk robot)
        · exact .inl hr
      rcases hold with hold | ⟨x, hx, hfrom⟩
      · exact hshown robot hold nofun
      · obtain ⟨r, hr, -, rfl⟩ := w.harbor.page_report _ _ x hx
        obtain ⟨hid, -, hdesc, -⟩ := fromHarborRobot_some _ _ _ hfrom
        refine ⟨hid ▸ (w.harbor.bounds r hr).2, fun s hs hsid _ => ?_⟩
        rw [Harbor.eq_of_id hs hr (hsid.trans hid), hdesc]
        rfl
  | createRobot body =>
    match r with
    | Except.error e => exact ⟨hk.copy, nofun, fun robot hr => hshown robot hr nofun, hcreated⟩
    | Except.ok none => exact ⟨hk.copy, nofun, fun robot hr => hshown robot hr nofun, hcreated⟩
    | Except.ok (some payload) =>
      refine ⟨hk.copy, nofun, fun robot hr => hshown robot hr nofun, fun id hid => ?_⟩
      obtain rfl := Option.some.inj hid
      obtain ⟨ha, hcopy, -, -, hdesc⟩ := hallowed
      obtain ⟨hkey, hrec⟩ := hk.copy ha hcopy
      rw [hkey] at hdesc
      obtain ⟨hlt, hpid, -, rfl⟩ := hf.of_createRobot
      refine ⟨hrec, ?_, fun s hs hsid => ?_⟩
      · rw [hpid]
        exact Int.lt_succ _
      · rcases (Harbor.mem_create hlt).mp hs with hs | rfl
        · have := (w.harbor.bounds s hs).2
          omega
        · exact .inl hdesc
  | updateRobot id body =>
    match r with
    | Except.error e =>
      refine ⟨hk.copy, nofun, fun robot hr => ?_, hcreated⟩
      obtain ⟨hmem, hne⟩ := List.mem_filter.mp hr
      refine hshown robot hmem fun body' hcall => ?_
      cases hcall
      exact (of_decide_eq_true hne) rfl
    | Except.ok () =>
      obtain rfl := hf.of_updateRobot
      refine ⟨hk.copy, nofun, fun robot hr => ?_, hcreated⟩
      obtain ⟨robot, hmem, rfl⟩ := List.mem_map.mp hr
      split_ifs with hid
      · refine ⟨(hk.shown robot hmem).1, fun s hs hsid _ => ?_⟩
        obtain ⟨r, hr, hrs, rfl⟩ := Harbor.mem_update hs
        rw [if_pos (by rw [hrs, hsid]; exact hid)]
        rfl
      · exact hshown robot hmem fun body' hcall => hid (by cases hcall; rfl)
  | refreshSec id =>
    have hkeep : PassFits config b k (w.afterHarbor b h) :=
      ⟨hk.copy, hk.walk, fun robot hr => hshown robot hr nofun, hcreated⟩
    match r with
    | Except.error e => exact ⟨hkeep.copy, hkeep.walk, hkeep.shown, hkeep.created⟩
    | Except.ok none => exact ⟨hkeep.copy, hkeep.walk, hkeep.shown, hkeep.created⟩
    | Except.ok (some password) => exact ⟨hkeep.copy, hkeep.walk, hkeep.shown, hkeep.created⟩
  | deleteRobot id =>
    have hkeep : PassFits config b k (w.afterHarbor b h) :=
      ⟨hk.copy, hk.walk, fun robot hr => hshown robot hr nofun, hcreated⟩
    match r with
    | Except.ok () => exact ⟨hkeep.copy, hkeep.walk, hkeep.shown, hkeep.created⟩
    | Except.error e =>
      unfold PassKnows.learnHarbor
      dsimp only
      split_ifs
      · exact ⟨hkeep.copy, hkeep.walk, hkeep.shown, hkeep.created⟩
      · exact hkeep

/-- What the pass learns from the apiserver is about its HarborAccess. -/
theorem PassFits.learn {b : B} {k : PassKnows} {w w' : SharedHarbor B} [DecidableEq B]
    (hk : PassFits config b k w) {call : Call} (hallowed : k.Allows (config b) call)
    {r : Answer call} (hs : SharedHarbor.Answers b w call r w') :
    PassFits config b (k.learn (config b) call r) w' := by
  have hown : k.OwnCopy := fun ha h => (hk.copy ha h).1
  cases hs with
  | harbor call r h hf => exact hk.learnHarbor hallowed hf
  | getAccess key r hr =>
    obtain ⟨hkey, hwalk, hshown, -, hcreated, -⟩ :=
      k.learn_kube (c := config b) (nofun : ∀ request, Call.getAccess key ≠ .harbor request) r
    have hown' := hown.learn hallowed hr
    have hrec : Function.update w.reconciling b (some key) b = some k.key := by
      rw [Function.update_self, hallowed.1]
    refine ⟨fun ha h => ⟨hown' ha h, hkey ▸ hrec⟩, ?_, ?_, ?_⟩
    · rw [hwalk, hshown]
      exact hk.walk
    · rw [hshown]
      exact hk.shown
    · rw [hcreated, hkey]
      exact fun id h => ⟨hrec, (hk.created id h).2⟩
  | other call r hharbor hget hr =>
    obtain ⟨hkey, hwalk, hshown, -, hcreated, -⟩ := k.learn_kube (c := config b) hharbor r
    have hown' := hown.learn hallowed hr
    refine ⟨fun ha h => ⟨hown' ha h, ?_⟩, ?_, ?_, ?_⟩
    · obtain ⟨old, hold⟩ := PassKnows.copy_of_learn hget hallowed h
      rw [hkey]
      exact (hk.copy old hold).2
    · rw [hwalk, hshown]
      exact hk.walk
    · rw [hshown]
      exact hk.shown
    · rw [hcreated, hkey]
      exact hk.created

theorem SweepFits.learn {b : B} {k : SweepKnows} {w w' : SharedHarbor B} [DecidableEq B]
    (hk : SweepFits config b k w) {call : Call} (hallowed : k.Allows (config b) call)
    {r : Answer call} (hs : SharedHarbor.Answers b w call r w') :
    SweepFits config b (k.learn (config b) call r) w' := by
  cases hs with
  | harbor call r h hf =>
    have hshown : ∀ robot ∈ k.shown, Tracks h robot.id fun d =>
        robotBelongsToCluster robot.description (config b).clusterName = true →
          robotBelongsToCluster d (config b).clusterName = true := by
      refine fun robot hr => (hk.shown robot hr).effect hf.effect fun body _ hcall => ?_
      subst hcall
      exact hallowed.elim
    cases call with
    | listRobot filter idFrom =>
      match r with
      | Except.error e => exact ⟨hshown⟩
      | Except.ok payload =>
        obtain ⟨rfl, rfl⟩ := hf.of_listRobot
        refine ⟨fun robot hr => ?_⟩
        rcases List.mem_append.mp hr with hr | hr
        · obtain ⟨x, hx, hfrom⟩ := List.mem_filterMap.mp hr
          obtain ⟨r, hr, -, rfl⟩ := w.harbor.page_report _ _ x hx
          obtain ⟨hid, -, hdesc, -⟩ := fromHarborRobot_some _ _ _ hfrom
          refine ⟨hid ▸ (w.harbor.bounds r hr).2, fun s hs hsid h => ?_⟩
          rw [Harbor.eq_of_id hs hr (hsid.trans hid)]
          rwa [hdesc] at h
        · exact hshown robot hr
    | _ => exact ⟨hshown⟩
  | getAccess key r hr => exact hallowed.elim
  | other call r hharbor hget hr =>
    cases call with
    | harbor request => exact absurd rfl (hharbor request)
    | readAccess | listAccess | listSecrets =>
      match r with
      | Except.ok _ => exact ⟨hk.shown⟩
      | Except.error e => cases e <;> exact ⟨hk.shown⟩
    | _ => exact ⟨hk.shown⟩

theorem Fits.mine {i : B × Role} {k : Knowledge} {w : SharedHarbor B} (hk : Fits config i k w)
    {call : HarborCall} (hallowed : k.Allows (config i.1) (.harbor call)) {r : StoredRobot}
    (hr : r ∈ w.harbor.robots) (hwrites : Writes call r.id) :
    robotBelongsToCluster r.description (config i.1).clusterName = true := by
  cases hk with
  | worker hk => exact (hk.mine hallowed hr hwrites).2.1
  | janitor hk => exact hk.mine hallowed hr hwrites

/-- Whoever writes a description writes one of its cluster. -/
theorem Fits.describes_update {i : B × Role} {k : Knowledge} {w : SharedHarbor B}
    (hk : Fits config i k w) {id : Int} {body : RobotUpdate}
    (hallowed : k.Allows (config i.1) (.harbor (.updateRobot id body))) :
    i.2 = .worker ∧ ∃ key : ObjectKey,
      Describes (config i.1).clusterName key.ns key.name body.description := by
  cases hk with
  | worker hk => exact ⟨rfl, _, hk.describes_update hallowed⟩
  | janitor hk => exact hallowed.elim

theorem Fits.describes_create {i : B × Role} {k : Knowledge} {w : SharedHarbor B}
    (hk : Fits config i k w) {body : RobotCreate}
    (hallowed : k.Allows (config i.1) (.harbor (.createRobot body))) : ∃ key : ObjectKey,
      Describes (config i.1).clusterName key.ns key.name body.description := by
  cases hk with
  | worker hk =>
    obtain ⟨ha, -, -, -, hdesc⟩ := hallowed
    exact ⟨ha.key, .inl hdesc⟩
  | janitor hk => exact hallowed.elim

theorem Fits.learn {i : B × Role} {k : Knowledge} {w w' : SharedHarbor B} [DecidableEq B]
    (hk : Fits config i k w) {call : Call} (hallowed : k.Allows (config i.1) call)
    {r : Answer call} (hs : SharedHarbor.Answers i.1 w call r w') :
    Fits config i (k.learn (config i.1) call r) w' := by
  cases hk with
  | worker hk => exact .worker (hk.learn hallowed hs)
  | janitor hk => exact .janitor (hk.learn hallowed hs)

/-- The tag tells the bridges apart. -/
theorem Fits.same_bridge {i : B × Role} {k : Knowledge} {w : SharedHarbor B} {b : B}
    (hconfig : Function.Injective fun b => (config b).clusterName) (hk : Fits config i k w)
    {call : HarborCall} (hallowed : k.Allows (config i.1) (.harbor call)) {r : StoredRobot}
    (hr : r ∈ w.harbor.robots) (hwrites : Writes call r.id)
    (htag : robotBelongsToCluster r.description (config b).clusterName = true) : i.1 = b :=
  hconfig (robotBelongsToCluster_unique _ _ _ (hk.mine hallowed hr hwrites) htag)

/-- An update that meets a robot with the tag of a bridge is made by its worker. -/
theorem Fits.eq_worker {i : B × Role} {k : Knowledge} {w : SharedHarbor B} {b : B}
    (hconfig : Function.Injective fun b => (config b).clusterName) (hk : Fits config i k w)
    {body : RobotUpdate} {r : StoredRobot} (hr : r ∈ w.harbor.robots)
    (hallowed : k.Allows (config i.1) (.harbor (.updateRobot r.id body)))
    (htag : robotBelongsToCluster r.description (config b).clusterName = true) :
    i = (b, .worker) :=
  Prod.ext (hk.same_bridge hconfig hallowed hr (.update _ body) htag)
    (hk.describes_update hallowed).1

theorem Tagged.learn {i : B × Role} {k : Knowledge} {w w' : SharedHarbor B} [DecidableEq B]
    (hconfig : Function.Injective fun b => (config b).clusterName) (hw : Tagged config w)
    (hk : Fits config i k w) {call : Call} (hallowed : k.Allows (config i.1) call)
    {r : Answer call} (hs : SharedHarbor.Answers i.1 w call r w') : Tagged config w' := by
  cases hs with
  | getAccess | other => exact hw
  | harbor call r h hf =>
    intro s hs b hb
    rcases hf.effect.mem hs with ⟨x, hx, hid, -, -, hcase⟩ | ⟨body, rfl, hid, -, hdesc, -⟩
    · have hold : w.creator x.id = some b := by
        have hlt := (w.harbor.bounds x hx).2
        rwa [SharedHarbor.afterHarbor_creator, if_neg (by omega), ← hid] at hb
      rcases hcase with ⟨hdesc, -⟩ | ⟨body, rfl, hdesc, -⟩
      · rw [hdesc]
        exact hw x hx b hold
      · obtain ⟨key, hkey⟩ := hw x hx b hold
        rw [← hid] at hallowed
        rw [hdesc, ← hk.same_bridge hconfig hallowed hx (.update _ body) (describes_mine hkey).1]
        exact (hk.describes_update hallowed).2
    · have hlt := (h.bounds s hs).2
      rw [SharedHarbor.afterHarbor_creator, if_pos (by omega)] at hb
      rw [hdesc, ← Option.some.inj hb]
      exact hk.describes_create hallowed

/-- What the others know stays so. -/
theorem Fits.others {i j : B × Role} {k k' : Knowledge} {w w' : SharedHarbor B} [DecidableEq B]
    (hconfig : Function.Injective fun b => (config b).clusterName)
    (hk : Fits config i k w) {call : Call} (hallowed : k.Allows (config i.1) call)
    {r : Answer call} (hs : SharedHarbor.Answers i.1 w call r w') (hji : j ≠ i)
    (hk' : Fits config j k' w) : Fits config j k' w' := by
  cases hs with
  | other => exact hk'
  | getAccess key r hr =>
    cases hk' with
    | janitor hk' => exact .janitor ⟨hk'.shown⟩
    | worker hk' =>
      cases hk with
      | janitor hk => exact hallowed.elim
      | worker hk =>
        have hb : Function.update w.reconciling _ (some key) _ = _ :=
          Function.update_of_ne (fun hb => hji (congrArg (·, Role.worker) hb)) ..
        refine .worker ⟨?_, hk'.walk, hk'.shown, ?_⟩
        · exact fun ha h => ⟨(hk'.copy ha h).1, hb.trans (hk'.copy ha h).2⟩
        · exact fun id h => ⟨hb.trans (hk'.created id h).1, (hk'.created id h).2⟩
  | harbor call r h hf =>
    have he := hf.effect
    cases hk' with
    | worker hk' =>
      refine .worker ⟨hk'.copy, hk'.walk, fun robot hr => ?_, fun id hid => ?_⟩
      · refine (hk'.shown robot hr).effect he fun body x hcall hx hid htag => ?_
        subst hcall
        rw [← hid] at hallowed
        rw [← (hk'.shown robot hr).2 x hx hid htag] at htag
        exact absurd (hk.eq_worker hconfig hx hallowed htag).symm hji
      · obtain ⟨hrec, ht⟩ := hk'.created id hid
        refine ⟨hrec, ht.effect he fun body x hcall hx hid => ?_⟩
        subst hcall
        rw [← hid] at hallowed
        exact absurd (hk.eq_worker hconfig hx hallowed (describes_mine (ht.2 x hx hid)).1).symm hji
    | janitor hk' =>
      refine .janitor ⟨fun robot hr => ?_⟩
      refine (hk'.shown robot hr).effect he fun body x hcall hx hid htag => ?_
      subst hcall
      rw [← hid] at hallowed
      have hi := hk.eq_worker hconfig hx hallowed ((hk'.shown robot hr).2 x hx hid htag)
      obtain ⟨-, key, hkey⟩ := hk.describes_update hallowed
      rw [hi] at hkey
      exact (describes_mine hkey).1

variable (config) in
/-- The bridges run against one Harbor. -/
def SharedRun [DecidableEq B] (w : SharedHarbor B)
    (s : System (B × Role) Call Answer (SharedHarbor B)) : Prop :=
  Relation.ReflTransGen (System.Step (fun i => SharedHarbor.Answers i.1) (fun _ _ => False)
    fun i => Runs (config i.1) i.2) (System.idle w) s

theorem SharedRun.holds [DecidableEq B] {w : SharedHarbor B}
    {s : System (B × Role) Call Answer (SharedHarbor B)} (hrun : SharedRun config w s)
    (hconfig : Function.Injective fun b => (config b).clusterName) (hw : Tagged config w) :
    (observer config).Holds (Tagged config) (Fits config) s := by
  refine Observer.holds_run ?_ ?_ ?_ ?_ hrun (Observer.holds_idle hw)
  · intro i p w h _
    exact runs_observed config h (fun key => ⟨nofun, nofun, nofun, nofun⟩) ⟨nofun⟩
  · exact fun _ _ h => h.elim
  · exact fun i k w e r w' hw hk hallowed hs =>
      ⟨hw.learn hconfig hk hallowed hs, hk.learn hallowed hs⟩
  · exact fun i k w e r w' _ hk hallowed hs j k' hji hk' => hk.others hconfig hallowed hs hji hk'

/-- Bridges of different clusters share a Harbor. Whatever runs beside what, the robot that a
bridge is about to change or delete was created by no other bridge, and when a pass does it
and the robot names a HarborAccess, then this is the one that is being reconciled. -/
theorem writes_stay_in_cluster [DecidableEq B] (config : B → Config)
    (hconfig : Function.Injective fun b => (config b).clusterName) (w : SharedHarbor B)
    (hw : Tagged config w) (s : System (B × Role) Call Answer (SharedHarbor B))
    (hrun : SharedRun config w s) (b : B) (role : Role) (call : HarborCall)
    (f : HarborAnswer call → BridgeProg Unit) (hcall : s.procs (b, role) = some (.call (.harbor call) f))
    (r : StoredRobot) (hr : r ∈ s.world.harbor.robots) (hwrites : Writes call r.id) :
    (∀ b', s.world.creator r.id = some b' → b' = b) ∧
      (role = .worker → ∀ ns name, parseRobotDescription r.description = some (ns, name) →
        ∃ key, s.world.reconciling b = some key ∧ ns = key.ns ∧ name = key.name) := by
  have hholds := hrun.holds hconfig hw
  obtain ⟨k, hk, hallowed⟩ := hholds.allowed hcall
  refine ⟨fun b' hb' => ?_, fun hrole ns name hparse => ?_⟩
  · obtain ⟨key, hkey⟩ := hholds.1 r hr b' hb'
    exact (hk.same_bridge hconfig hallowed hr hwrites (describes_mine hkey).1).symm
  · subst hrole
    cases hk with
    | worker hk =>
      obtain ⟨hrec, -, howner⟩ := hk.mine hallowed hr hwrites
      exact ⟨_, hrec, Prod.mk.inj (howner _ hparse)⟩

/-- The answers of an apiserver without objects and of a Harbor that only lists robots. -/
def serveShared [DecidableEq B] (b : B) (w : SharedHarbor B) :
    (call : Call) → Answer call × SharedHarbor B
  | .harbor (.listRobot filter idFrom) =>
    (Except.ok (w.harbor.page filter idFrom), w.afterHarbor b w.harbor)
  | .harbor call => (harborFailure call (.status 500), w.afterHarbor b w.harbor)
  | .getAccess key => (Except.error .notFound,
      { w with reconciling := Function.update w.reconciling b (some key) })
  | .readAccess _ _ => (Except.error .notFound, w)
  | .listAccess => (Except.ok [], w)
  | .patchFinalizers _ _ => (Except.error .notFound, w)
  | .updateStatus _ => (Except.error .notFound, w)
  | .readSecret _ _ => (Except.error .notFound, w)
  | .listSecrets _ _ => (Except.ok [], w)
  | .createSecret _ => (Except.error .other, w)
  | .updateSecret _ => (Except.error .notFound, w)
  | .deleteSecret _ => (Except.error .notFound, w)
  | .now => ((0 : Int), w)
  | .logRotation _ _ => ((), w)

theorem serveShared_answers [DecidableEq B] (b : B) (w : SharedHarbor B) (call : Call) :
    SharedHarbor.Answers b w call (serveShared b w call).1 (serveShared b w call).2 := by
  cases call with
  | harbor call =>
    cases call with
    | listRobot filter idFrom => exact .harbor _ _ _ (.served _ _ _ (.listRobot filter idFrom))
    | _ => exact .harbor _ _ _ (.failed _ _ rfl)
  | getAccess key => exact .getAccess _ _ nofun
  | patchFinalizers | updateStatus => exact .other _ _ nofun nofun nofun
  | _ => exact .other _ _ nofun nofun trivial

def twoClusters : Bool → Config
  | false => sampleConfig
  | true => neighbour

/-- A robot of each of the two bridges, the first one with a name of the old scheme that both
clusters' names begin. -/
def sampleShared : SharedHarbor Bool where
  harbor := {
    robotNamePrefix := lit "robot$"
    honoursFilter := true
    robots := [
      ⟨1, lit "bridge-prod-eu-team-app", true,
        robotDescription (lit "prod-eu") sampleKey.ns sampleKey.name, false, -1, [], lit "p1"⟩,
      ⟨2, lit "bridge-prod.team.app", true,
        robotDescription (lit "prod") sampleKey.ns sampleKey.name, false, -1, [], lit "p2"⟩]
    nextId := 3
    issued := [lit "p1", lit "p2"]
    sorted := by decide
    bounds := by decide
    nextId_pos := nextId_three_pos
    nextId_le := nextId_three_le
    password_issued := by decide }
  creator id := if id = 1 then some true else if id = 2 then some false else none
  reconciling _ := none

theorem sampleShared_tagged : Tagged twoClusters sampleShared := by
  intro r hr b hb
  refine ⟨sampleKey, .inl ?_⟩
  rcases List.mem_pair.mp hr with rfl | rfl <;> obtain rfl := Option.some.inj hb <;> rfl

/-- The janitor of one bridge leaves the other's robot out and is about to delete its own. -/
theorem writes_stay_in_cluster_two_bridges : ∃ s f, SharedRun twoClusters sampleShared s ∧
    s.procs (false, .janitor) = some (.call (.harbor (.deleteRobot 2)) f) ∧
    ∀ r ∈ s.world.harbor.robots, r.id = 2 → ∀ b', s.world.creator r.id = some b' → b' = false := by
  have hconfig : Function.Injective fun b => (twoClusters b).clusterName := by
    intro b b' h
    revert h
    cases b <;> cases b' <;> decide
  have hrun : SharedRun twoClusters sampleShared _ :=
    System.run_advance (i := (false, .janitor)) (I := fun _ => True)
      ⟨fun w _ e => serveShared_answers false w e, fun _ _ _ => trivial⟩ 4
      (do let _ ← Janitor.sweep (twoClusters false); return ()) rfl trivial (fun _ => none) rfl
  refine ⟨_, _, hrun, rfl, fun r hr hid => ?_⟩
  exact (writes_stay_in_cluster twoClusters hconfig sampleShared sampleShared_tagged _ hrun false
    .janitor (.deleteRobot 2) _ rfl r hr (hid ▸ .delete _)).1

end Isolation

end HarborBridge
