import HarborBridge.HarborSeen

/-! A suspension ends every password that the robot had: Harbor while a bridge reconciles and
its janitor sweeps, with requests that fail before or after they take effect. -/
namespace HarborBridge

open GoStrings Interaction

namespace Harbor

variable {h h' : Harbor}

/-- Harbor accepts the password for this user name. -/
def Authenticates (h : Harbor) (username password : GoString) : Prop :=
  ∃ r ∈ h.robots, h.wireName r = username ∧ r.password = password ∧ r.disable = false

/-- No two robots share name and password. -/
def LoginsDistinct (h : Harbor) : Prop :=
  ∀ r ∈ h.robots, ∀ s ∈ h.robots, h.wireName r = h.wireName s → r.password = s.password →
    r.id = s.id

theorem Effect.issued_subset {call : HarborCall} (he : h.Effect call h') : h.issued ⊆ h'.issued := by
  cases he with
  | created body password hid hname hp => exact List.subset_cons_self _ _
  | refreshed id password hp => exact List.subset_cons_self _ _
  | _ => exact List.Subset.refl _

/-- A robot has the name and the password that it had, or a password that no other robot has
and that nobody has seen before. -/
theorem Effect.login {call : HarborCall} (he : h.Effect call h') {s : StoredRobot}
    (hs : s ∈ h'.robots) :
    (∃ r ∈ h.robots, r.id = s.id ∧ h.wireName r = h'.wireName s ∧ r.password = s.password) ∨
    s.password ∉ h.issued ∧ ∀ s' ∈ h'.robots, s'.password = s.password → s'.id = s.id := by
  cases he with
  | none => exact .inl ⟨s, hs, rfl, rfl, rfl⟩
  | created body password hid hname hp =>
    rcases (mem_create hid).mp hs with hs | rfl
    · exact .inl ⟨s, hs, rfl, rfl, rfl⟩
    · refine .inr ⟨hp.2, fun s' hs' hsame => ?_⟩
      rcases (mem_create hid).mp hs' with hs' | rfl
      · have hissued := h.password_issued s' hs'
        rw [hsame] at hissued
        exact absurd hissued hp.2
      · rfl
  | updated id body =>
    obtain ⟨r, hr, hid, rfl⟩ := mem_update hs
    refine .inl ⟨r, hr, hid, ?_⟩
    split_ifs <;> exact ⟨rfl, rfl⟩
  | refreshed id password hp =>
    obtain ⟨r, hr, hid, hs'⟩ := mem_refresh hs
    split_ifs at hs' with hrid
    · have hpassword : s.password = password := by rw [hs']
      refine .inr ⟨hpassword ▸ hp.2, fun x hx hsame => ?_⟩
      obtain ⟨r', hr', hid', hx'⟩ := mem_refresh hx
      split_ifs at hx' with hrid'
      · rw [← hid', ← hid, hrid, hrid']
      · rw [hpassword, hx'] at hsame
        exact absurd (hsame ▸ h.password_issued r' hr') hp.2
    · rw [hs']
      exact .inl ⟨r, hr, rfl, rfl, rfl⟩
  | deleted id => exact .inl ⟨s, (mem_delete.mp hs).1, rfl, rfl, rfl⟩

theorem LoginsDistinct.effect {call : HarborCall} (hd : h.LoginsDistinct) (he : h.Effect call h') :
    h'.LoginsDistinct := by
  intro s hs s' hs' hname hpassword
  rcases he.login hs with ⟨r, hr, hid, hwire, hsame⟩ | ⟨hnew, honly⟩
  · rcases he.login hs' with ⟨r', hr', hid', hwire', hsame'⟩ | ⟨hnew', honly'⟩
    · rw [← hid, ← hid']
      apply hd r hr r' hr'
      · rw [hwire, hwire', hname]
      · rw [hsame, hsame', hpassword]
    · exact honly' s hs hpassword
  · exact (honly s' hs' hpassword.symm).symm

/-- The password has been handed out, and with this name it is the robot's, if anyone's. -/
def LoginOf (h : Harbor) (id : Int) (username password : GoString) : Prop :=
  password ∈ h.issued ∧ ∀ r ∈ h.robots, h.wireName r = username → r.password = password → r.id = id

theorem LoginOf.effect {call : HarborCall} {id : Int} {username password : GoString}
    (hl : h.LoginOf id username password) (he : h.Effect call h') :
    h'.LoginOf id username password := by
  refine ⟨he.issued_subset hl.1, fun s hs hname hpassword => ?_⟩
  rcases he.login hs with ⟨r, hr, hid, hwire, hsame⟩ | ⟨hnew, -⟩
  · rw [← hid]
    exact hl.2 r hr (hwire.trans hname) (hsame.trans hpassword)
  · rw [hpassword] at hnew
    exact absurd hl.1 hnew

end Harbor

namespace Suspension

/-- How a call is answered: by Harbor, which may fail, and by anything else as one likes. -/
inductive Answers (h : Harbor) : (call : Call) → Answer call → Harbor → Prop where
  | harbor (call : HarborCall) (r : HarborAnswer call) (h' : Harbor) (hf : h.Faulty call r h') :
      Answers h (.harbor call) r h'
  | other (call : Call) (r : Answer call) (hcall : ∀ request, call ≠ .harbor request) :
      Answers h call r h

inductive Others (h : Harbor) : Harbor → Prop where
  | deleteRobot (id : Int) : Others h (h.delete id)

abbrev Bridge := System (Unit × Role) Call Answer Harbor

/-- The worker reconciles one HarborAccess after the other, and the janitor sweeps. -/
def Leads (c : Config) : Bridge → Bridge → Prop :=
  Relation.ReflTransGen (System.Step (fun _ => Answers) Others fun i => Runs c i.2)

/-- The worker disables the robot and marks it as suspended. The request takes effect,
whatever is answered. -/
inductive Suspends (id : Int) (s : Bridge) : Bridge → Prop where
  | updateRobot (body : RobotUpdate) (f : Except HarborErr Unit → BridgeProg Unit)
      (r : Except HarborErr Unit)
      (hrun : s.procs ((), .worker) = some (.call (.harbor (.updateRobot id body)) f))
      (hdisable : body.disable = true) (hsuspended : robotSuspended body.description = true)
      (hf : s.world.Faulty (.updateRobot id body) r (s.world.update id body)) :
      Suspends id s ⟨s.world.update id body, Function.update s.procs ((), .worker) (some (f r))⟩

/-! ## The invariant -/

/-- Harbor accepts none of these logins, because it knows no robot with one or has disabled it. -/
def Dead (logins : GoString × GoString → Prop) (h : Harbor) : Prop :=
  ∀ username password, logins (username, password) → password ∈ h.issued ∧
    ∀ r ∈ h.robots, h.wireName r = username → r.password = password → r.disable = true

/-- What a pass knows is so, and it will not enable a robot with one of these passwords. -/
structure Fits (c : Config) (logins : GoString × GoString → Prop) (_ : Unit) (k : PassKnows)
    (h : Harbor) : Prop where
  sees : Sees c k h
  password : k.Dismissed c ∨ ∀ id username password, k.password = some (id, password) →
    ¬ logins (username, password)

section Steps

variable {c : Config} {logins : GoString × GoString → Prop} {h h' : Harbor} {u : Unit}
  {k : PassKnows}

/-- A request leaves them dead if it enables none of their robots. -/
theorem Dead.effect (hd : Dead logins h) {call : HarborCall} (he : h.Effect call h')
    (hupdate : ∀ id body, call = .updateRobot id body → ∀ r ∈ h.robots, r.id = id →
      logins (h.wireName r, r.password) → body.disable = true) : Dead logins h' := by
  intro username password hlogin
  obtain ⟨hissued, hdisabled⟩ := hd username password hlogin
  refine ⟨he.issued_subset hissued, fun s hs hname hpassword => ?_⟩
  rcases he.login hs with ⟨r, hr, hid, hwire, hsame⟩ | ⟨hnew, -⟩
  · have hold := hdisabled r hr (hwire.trans hname) (hsame.trans hpassword)
    rcases he.mem hs with ⟨r', hr', hid', -, -, hcase⟩ | ⟨body, -, hfresh, -⟩
    · obtain rfl := Harbor.eq_of_id hr hr' (hid.trans hid'.symm)
      rcases hcase with ⟨-, hkeep⟩ | ⟨body, hcall, -, hnew⟩
      · rw [hkeep]
        exact hold
      · rw [hnew]
        refine hupdate s.id body hcall r hr hid ?_
        rw [hwire, hname, hsame, hpassword]
        exact hlogin
    · -- a robot that was there has an id below the new one's
      have hlt := (h.bounds r hr).2
      omega
  · rw [hpassword] at hnew
    exact absurd hissued hnew

/-- An update that the pass makes enables no robot with one of these passwords. -/
theorem Fits.update (hk : Fits c logins u k h) (hd : Dead logins h) {id : Int} {body : RobotUpdate}
    (hallowed : k.Updates c id body) {r : StoredRobot} (hr : r ∈ h.robots) (hid : r.id = id)
    (hlogin : logins (h.wireName r, r.password)) : body.disable = true := by
  cases hallowed with
  | suspends ha robot hcopy hdismissed hrid hmem howned hdisable hdesc => exact hdisable
  | aligns ha robot hfound hrid hactive hdisable hdesc =>
    -- the robot keeps the flag that it has
    obtain ⟨-, hflag, -⟩ := (hk.sees.shown robot hfound.2.2.1).2 r hr (hid.trans hrid.symm)
    rw [hdisable, ← hflag]
    exact (hd _ _ hlogin).2 r hr rfl rfl
  | resumes ha robot hfound hrid hsuspended password hpassword hdisable hdesc =>
    -- the robot has the password that the pass was given
    exfalso
    rcases hk.password with hdismissed | hother
    · exact hfound.2.1.not_dismissed hdismissed
    · have hsame := (hk.sees.password id password hpassword).2 r hr hid
      rw [hsame] at hlogin
      exact hother id _ password hpassword hlogin

/-- A password that the pass learns is one that nobody has seen before. -/
theorem password_learnHarbor {call : HarborCall} {r : HarborAnswer call} (hf : h.Faulty call r h')
    {id : Int} {password : GoString}
    (hp : (k.learnHarbor c call r).password = some (id, password)) :
    k.password = some (id, password) ∨ password ∉ h.issued ∧ password ∈ h'.issued := by
  cases call with
  | listRobot | updateRobot =>
    match r with
    | Except.ok _ => exact .inl hp
    | Except.error e => exact .inl hp
  | createRobot body =>
    match r with
    | Except.error e => exact .inl hp
    | Except.ok none => exact .inl hp
    | Except.ok (some payload) =>
      obtain ⟨rfl, rfl⟩ := Prod.mk.inj (Option.some.inj hp)
      obtain ⟨-, -, hfresh, rfl⟩ := hf.of_createRobot
      exact .inr ⟨hfresh.2, List.mem_cons_self⟩
  | refreshSec id' =>
    match r with
    | Except.error e => cases hp
    | Except.ok none => cases hp
    | Except.ok (some p) =>
      obtain ⟨rfl, rfl⟩ := Prod.mk.inj (Option.some.inj hp)
      obtain ⟨hfresh, -, rfl⟩ := hf.of_refreshSec
      exact .inr ⟨hfresh.2, List.mem_cons_self⟩
  | deleteRobot id' =>
    match r with
    | Except.ok () => exact .inl hp
    | Except.error e =>
      left
      unfold PassKnows.learnHarbor at hp
      dsimp only at hp
      split_ifs at hp <;> exact hp

theorem Fits.answers (hk : Fits c logins u k h) (hd : Dead logins h) {call : Call}
    (hallowed : k.Allows c call) {r : Answer call} (hs : Answers h call r h') :
    Dead logins h' ∧ Fits c logins u (k.learn c call r) h' := by
  cases hs with
  | harbor call r h' hf =>
    constructor
    · refine hd.effect hf.effect fun id body hcall x hx hid hlogin => ?_
      subst hcall
      exact hk.update hd hallowed hx hid hlogin
    · refine ⟨hk.sees.learnHarbor hallowed hf, ?_⟩
      rcases hk.password with hdismissed | hother
      · exact .inl (hdismissed.learn (.harbor call) hallowed r)
      · refine .inr fun id username password hp hlogin => ?_
        rcases password_learnHarbor hf hp with hold | hnew
        · exact hother id username password hold hlogin
        · exact hnew.1 (hd username password hlogin).1
  | other call r hcall =>
    refine ⟨hd, hk.sees.learn_kube hcall r, ?_⟩
    obtain ⟨-, -, -, -, -, hpassword⟩ := k.learn_kube (c := c) hcall r
    rw [hpassword]
    rcases hk.password with hdismissed | hother
    · exact .inl (hdismissed.learn call hallowed r)
    · exact .inr hother

theorem Fits.delete (hk : Fits c logins u k h) (id : Int) : Fits c logins u k (h.delete id) :=
  ⟨hk.sees.anti (fun _ hr => (Harbor.mem_delete.mp hr).1) rfl rfl rfl, hk.password⟩

/-- A sweep only deletes robots. -/
theorem sweep_answers {k : SweepKnows} {call : Call} (hallowed : k.Allows c call)
    {r : Answer call} (hs : Answers h call r h') : h' = h ∨ ∃ id, h' = h.delete id := by
  cases hs with
  | other => exact .inl rfl
  | harbor call r h' hf =>
    have he := hf.effect
    cases call with
    | listRobot filter idFrom =>
      cases he
      exact .inl rfl
    | deleteRobot id =>
      cases he with
      | none => exact .inl rfl
      | deleted => exact .inr ⟨id, rfl⟩
    | _ => exact hallowed.elim

theorem Dead.delete (hd : Dead logins h) (id : Int) : Dead logins (h.delete id) :=
  hd.effect (.deleted id) nofun

theorem holds_leads {s s' : Bridge} (hrun : Leads c s s')
    (hs : (observer fun _ : Unit => c).Holds (Dead logins)
      (Knowledge.Fits (Fits c logins) fun _ _ _ => True) s) :
    (observer fun _ : Unit => c).Holds (Dead logins)
      (Knowledge.Fits (Fits c logins) fun _ _ _ => True) s' := by
  refine holds_bridge ?_ ?_ ?_ ?_ hrun hs
  · intro i p h hp _
    exact runs_observed (fun _ : Unit => c) hp (fun key => ⟨Sees.start c key h, .inr fun _ _ _ hp =>
      absurd hp (Option.some_ne_none _).symm⟩) trivial
  · intro h h' henv hd
    cases henv with
    | deleteRobot id => exact ⟨hd.delete id, fun k hk => hk.delete id, fun _ _ => trivial⟩
  · intro k h call r h' hd hk hallowed hs
    obtain ⟨hdead, hfits⟩ := hk.answers hd hallowed hs
    exact ⟨hdead, hfits, fun _ _ => trivial⟩
  · intro k h call r h' hd _ hallowed hs
    rcases sweep_answers hallowed hs with rfl | ⟨id, rfl⟩
    · exact ⟨hd, trivial, fun _ hk => hk⟩
    · exact ⟨hd.delete id, trivial, fun _ hk => hk.delete id⟩

/-- Only the refusal of a HarborAccess marks a robot as suspended. -/
theorem dismissed_of_suspended {id : Int} {body : RobotUpdate} (hallowed : k.Updates c id body)
    (hdisable : body.disable = true) (hsuspended : robotSuspended body.description = true) :
    k.Dismissed c := by
  cases hallowed with
  | suspends ha robot hcopy hdismissed => exact hdismissed
  | aligns ha robot hfound hid hactive hflag hdesc =>
    rw [hdesc, robotSuspended_robotDescription c.clusterName_word] at hsuspended
    cases hsuspended
  | resumes ha robot hfound hid hold password hpassword henable hdesc =>
    rw [henable] at hdisable
    cases hdisable

/-- The suspension of the robot whose login it is makes a login dead. -/
theorem Suspends.holds {id : Int} {username password : GoString} {s s' : Bridge}
    (hs : Suspends id s s') (hlogin : s.world.LoginOf id username password)
    (hold : (observer fun _ : Unit => c).Holds (Dead logins)
      (Knowledge.Fits (Fits c logins) fun _ _ _ => True) s) :
    (observer fun _ : Unit => c).Holds (Dead (· = (username, password)))
      (Knowledge.Fits (Fits c (· = (username, password))) fun _ _ _ => True) s' := by
  cases hs with
  | updateRobot body f r hrun hdisable hsuspended hf =>
    constructor
    · intro username' password' heq
      obtain ⟨rfl, rfl⟩ := Prod.mk.inj heq
      refine ⟨hlogin.1, fun x hx hname hpassword => ?_⟩
      obtain ⟨old, hmem, hid, rfl⟩ := Harbor.mem_update hx
      split_ifs at hname hpassword ⊢ with hsame
      · exact hdisable
      · exact absurd (hlogin.2 old hmem hname hpassword) hsame
    · refine System.update_some s.procs _ _ _ (fun q hq => ?_) fun j q hj hq => ?_
      · obtain rfl := Option.some.inj hq
        obtain ⟨k, hfits, hallowed, hrest⟩ := hold.2 _ _ hrun
        cases hfits with
        | worker hk =>
          have hupdates : PassKnows.Updates c _ id body := hallowed
          have hsends : PassKnows.AllowsHarbor c _ (.updateRobot id body) := hupdates
          have hdismissed := dismissed_of_suspended hupdates hdisable hsuspended
          refine ⟨_, .worker ⟨hk.sees.learnHarbor hsends hf,
            .inl ?_⟩, hrest r _ rfl⟩
          exact hdismissed.learn (.harbor (.updateRobot id body)) hupdates r
      · obtain ⟨k, hfits, hwp⟩ := hold.2 j q hq
        cases hfits with
        | worker hk => exact absurd rfl hj
        | janitor hk => exact ⟨_, .janitor trivial, hwp⟩

end Steps

/-- A login that Harbor knew before a suspension of its robot is never accepted again: in every
state that a run leads to, the robot is disabled, or gone, or has another password. -/
theorem suspension_ends_password (c : Config) (h : Harbor) (hh : h.LoginsDistinct)
    (s₀ s₁ s₂ s₃ : Bridge) (hstart : Leads c (System.idle h) s₀) (hbefore : Leads c s₀ s₁)
    (r : StoredRobot) (hr : r ∈ s₀.world.robots) (hsuspends : Suspends r.id s₁ s₂)
    (hafter : Leads c s₂ s₃) :
    ¬ s₃.world.Authenticates (s₀.world.wireName r) r.password := by
  have heffect : ∀ (P : Harbor → Prop), (∀ {h call h'}, P h → Harbor.Effect h call h' → P h') →
      ∀ {s s' : Bridge}, Leads c s s' → P s.world → P s'.world := by
    intro P hP s s' hrun
    refine System.world_run (fun i h e r h' hs hp => ?_) (fun h h' henv hp => ?_) hrun
    · cases hs with
      | harbor call r h' hf => exact hP hp hf.effect
      | other => exact hp
    · cases henv with
      | deleteRobot id => exact hP hp (.deleted id)
  -- the login is the robot's alone, up to the suspension
  have hdistinct : s₀.world.LoginsDistinct :=
    heffect Harbor.LoginsDistinct Harbor.LoginsDistinct.effect hstart hh
  have hlogin : s₁.world.LoginOf r.id (s₀.world.wireName r) r.password := by
    refine heffect (fun h => h.LoginOf r.id (s₀.world.wireName r) r.password) Harbor.LoginOf.effect
      hbefore ⟨s₀.world.password_issued r hr, ?_⟩
    intro s hs hname hpassword
    exact hdistinct s hs r hr hname hpassword
  -- and dead from there on
  have hnone : (observer fun _ : Unit => c).Holds (Dead fun _ => False)
      (Knowledge.Fits (Fits c fun _ => False) fun _ _ _ => True) s₁ :=
    holds_leads (hstart.trans hbefore) (Observer.holds_idle fun _ _ hfalse => hfalse.elim)
  obtain ⟨hdead, -⟩ := holds_leads hafter (hsuspends.holds hlogin hnone)
  rintro ⟨s, hs, hname, hpassword, henabled⟩
  rw [(hdead _ _ rfl).2 s hs hname hpassword] at henabled
  cases henabled

/-! ## A run -/

def serve (ha : HarborAccess) (h : Harbor) : (call : Call) → Answer call × Harbor
  | .harbor call => h.serve call
  | .getAccess _ => (Except.ok ha, h)
  | call => (sampleAnswer (fun call => (h.serve call).1) call, h)

theorem serve_answers (ha : HarborAccess) (h : Harbor) (call : Call) :
    Answers h call (serve ha h call).1 (serve ha h call).2 := by
  cases call with
  | harbor call => exact .harbor call _ _ (h.serve_faulty call)
  | _ => exact .other _ _ nofun

def accepted : HarborAccess := sampleAccess sampleKey ⟨lit "team", lit "app"⟩

def refused : HarborAccess :=
  { accepted with
    finalizers := [sampleConfig.finalizer]
    spec := { accepted.spec with trustPolicy := ⟨lit "https://issuer", lit "registry"⟩ } }

def samplePass : BridgeProg Unit := do let _ ← reconcile sampleConfig sampleKey; return ()

theorem leads_exec (ha : HarborAccess) (h : Harbor) :
    Leads sampleConfig (System.idle h) (System.idle (samplePass.exec (serve ha) h).2) :=
  System.run_exec (i := ((), .worker)) (I := fun _ => True)
    ⟨fun h _ e => serve_answers ha h e, fun _ _ _ => trivial⟩ _ ⟨sampleKey, rfl⟩ trivial
    (fun _ => none) rfl

def passing (ha : HarborAccess) (h : Harbor) (calls : Nat) : Bridge :=
  ⟨(samplePass.advance (serve ha) calls h).2, Function.update (fun _ => none) ((), .worker)
    (some (samplePass.advance (serve ha) calls h).1)⟩

theorem leads_passing (ha : HarborAccess) (h : Harbor) (calls : Nat) :
    Leads sampleConfig (System.idle h) (passing ha h calls) := by
  have hserve : System.Served (fun _ : Unit × Role => Answers) ((), .worker) (fun _ => True)
      (serve ha) := ⟨fun h _ e => serve_answers ha h e, fun _ _ _ => trivial⟩
  exact System.run_advance hserve calls samplePass ⟨sampleKey, rfl⟩ trivial (fun _ => none) rfl

theorem Suspends.dies {c : Config} {id : Int} {ha : HarborAccess} {h : Harbor} {calls : Nat}
    {s : Bridge} (hs : Suspends id (passing ha h calls) s) : Leads c s (System.idle s.world) := by
  cases hs with
  | updateRobot body f r hrun hdisable hsuspended hf =>
    have hstop : System.Step (fun _ => Answers) Others (fun i => Runs c i.2)
        ⟨(passing ha h calls).world.update id body,
          Function.update (passing ha h calls).procs ((), .worker) (some (f r))⟩ _ :=
      .stop _ ((), .worker)
    have hnone : Function.update (fun _ : Unit × Role => (none : Option (BridgeProg Unit)))
        ((), .worker) none = fun _ => none := Function.update_eq_self _ _
    rw [passing, Function.update_idem, Function.update_idem, hnone] at hstop
    rw [passing, Function.update_idem]
    exact .single hstop

def robotCreated : Harbor := (samplePass.exec (serve accepted) emptyHarbor).2

/-- The next pass, in which the HarborAccess is refused, before it disables the robot. -/
def refusing : Bridge := passing refused robotCreated 3

/-- A pass creates the robot, a refusal disables it, and the pass that disabled it dies. The
next pass enables the robot with another password. -/
theorem suspension_ends_password_resumed : ∃ (s₂ s₃ : Bridge) (r r' : StoredRobot),
    Leads sampleConfig (System.idle emptyHarbor) (System.idle robotCreated) ∧
    Leads sampleConfig (System.idle robotCreated) refusing ∧ r ∈ robotCreated.robots ∧
    Suspends r.id refusing s₂ ∧ Leads sampleConfig s₂ s₃ ∧
    r' ∈ s₃.world.robots ∧ r'.id = r.id ∧ r'.disable = false ∧
    ¬ s₃.world.Authenticates (robotCreated.wireName r) r.password := by
  have hcreated : Leads sampleConfig (System.idle emptyHarbor) (System.idle robotCreated) :=
    leads_exec accepted emptyHarbor
  have hsuspends : Suspends 1 refusing _ := .updateRobot _ _ (Except.ok ()) rfl rfl (by decide +kernel)
    (.served _ _ _ (.updateRobot 1 _ _ List.mem_cons_self rfl rfl))
  have hrefusing : Leads sampleConfig (System.idle robotCreated) refusing := leads_passing _ _ _
  have hresumed := hsuspends.dies.trans (leads_exec accepted _)
  refine ⟨_, _, _, _, hcreated, hrefusing, List.mem_cons_self, hsuspends, hresumed,
    List.mem_cons_self, rfl, rfl, ?_⟩
  exact suspension_ends_password sampleConfig emptyHarbor nofun _ _ _ _ hcreated hrefusing _
    List.mem_cons_self hsuspends hresumed

end Suspension

end HarborBridge
