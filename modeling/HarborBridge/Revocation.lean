import HarborBridge.SweepSettles

/-! The revocation of a refused HarborAccess: a pass over it and a sweep. -/
namespace HarborBridge

open GoStrings Interaction

namespace Site

def alone : Setting Call Answer Site where
  sem w call r w' := w.Faulty call r w'
  may _ _ := True

variable {c : Config} {w : Site} {α : Type}

theorem wp_alone_onHarbor {p : HarborProg α} {Q : α → Harbor → Prop}
    (hp : p.Wp (Harbor.faulty fun _ => True) Q w.harbor) :
    (onHarbor p).Wp alone (fun a w' => ∃ h', w' = { w with harbor := h' } ∧ Q a h') w := by
  refine wp_onHarbor (Prog.wp_lens (S := harborPart alone)
    (T := Harbor.faulty fun _ => True) (fun h => { w with harbor := h })
    (fun _ _ hm => hm) (fun h call r w' hs => Faulty.of_harbor (w := { w with harbor := h }) hs) hp)

end Site

/-! ## The robot -/

/-- The client reads no two robots under one name. -/
def Harbor.NamesDiffer (c : Config) (h : Harbor) : Prop :=
  ∀ r r' robot robot', h.Views c r robot → h.Views c r' robot' → robot.name = robot'.name → r = r'

section

variable {c : Config} {h : Harbor} (ha : HarborAccess)

/-- The robots of the HarborAccess at the name are disabled, and those that are not its own are
as they were. -/
structure RobotSuspended (c : Config) (name : GoString) (h h' : Harbor) : Prop where
  robotNamePrefix : h'.robotNamePrefix = h.robotNamePrefix
  disabled : ∀ r robot, h'.Views c r robot → robotOwnedBy c.clusterName robot ha.key.ns ha.key.name →
    robot.name = name → robot.disabled = true
  others : ∀ r robot, h.Views c r robot →
    robotOwnedBy c.clusterName robot ha.key.ns ha.key.name = false → r ∈ h'.robots

variable {ha} {name : GoString}

theorem RobotSuspended.refl (hdisabled : ∀ r robot, h.Views c r robot →
    robotOwnedBy c.clusterName robot ha.key.ns ha.key.name → robot.name = name →
      robot.disabled = true) : RobotSuspended ha c name h h :=
  ⟨rfl, hdisabled, fun _ _ hv _ => hv.1⟩

/-- The robot that has the name alone was changed or deleted. -/
theorem RobotSuspended.of_one {r : StoredRobot} {robot : Robot} {h' : Harbor}
    (hunique : h.NamesDiffer c) (hv : h.Views c r robot) (hname : robot.name = name)
    (howned : robotOwnedBy c.clusterName robot ha.key.ns ha.key.name = true)
    (hprefixed : h'.robotNamePrefix = h.robotNamePrefix)
    (hother : ∀ s, s.id ≠ r.id → (s ∈ h'.robots ↔ s ∈ h.robots))
    (hsame : ∀ s ∈ h'.robots, s.id = r.id → s.disable = true) :
    RobotSuspended ha c name h h' := by
  refine ⟨hprefixed, fun s robot' hv' _ hname' => ?_, fun s robot' hv' hnot => ?_⟩
  · by_cases hid : s.id = r.id
    · rw [(fromHarborRobot_some _ _ _ hv'.2).2.2.2.1]
      exact hsame s hv'.1 hid
    · have hmem := (hother s hid).mp hv'.1
      obtain rfl := hunique s r robot' robot (hv'.congr hmem hprefixed.symm) hv (hname'.trans hname.symm)
      exact absurd rfl hid
  · refine (hother s fun hid => ?_).mpr hv'.1
    obtain ⟨rfl, rfl⟩ := hv'.unique hv (by rw [hv'.id, hv.id, hid])
    rw [howned] at hnot
    cases hnot

theorem ownsRobot_currentRobotName (hne : currentRobotName c ha ≠ []) :
    ownsRobot c.clusterName (currentRobotName c ha) = true := by
  unfold currentRobotName at hne ⊢
  split
  · next name hname => exact ownsRobot_robotName _ _ _ _ c.clusterName_valid.ne_nil hname
  · next e hname =>
    rw [hname] at hne
    exact absurd rfl hne

theorem robotOwnedBy_name_ne_nil {cluster haNamespace haName : GoString} {robot : Robot}
    (h : robotOwnedBy cluster robot haNamespace haName = true) : robot.name ≠ [] := by
  intro hnil
  rcases ((robotOwnedBy_iff _ _ _ _).mp h).1 with hown | hlegacy
  · obtain ⟨-, rest, hrest⟩ := (ownsRobot_iff _ _).mp hown
    simp [hnil, clusterPrefix] at hrest
  · obtain ⟨-, rest, -, -, hrest⟩ := (ownsLegacyRobot_iff _ _).mp hlegacy
    simp [hnil] at hrest

/-- Without an error, the robots at the current name are disabled or gone. -/
theorem Site.wp_suspendRobot (w : Site) (hunique : w.harbor.NamesDiffer c) :
    (suspendRobot c ha (currentRobotName c ha)).Wp Site.alone (fun res w' =>
      ∃ h', w' = { w with harbor := h' } ∧ (∀ kept, res = .ok kept →
        RobotSuspended ha c (currentRobotName c ha) w.harbor h')) w := by
  unfold suspendRobot
  split_ifs with hnone
  · refine ⟨w.harbor, rfl, fun _ _ => .refl fun r robot _ howned hname => ?_⟩
    rcases hnone with hnil | hnot
    · exact absurd (hname.trans hnil) (robotOwnedBy_name_ne_nil howned)
    · rw [ownsRobot_currentRobotName fun hnil =>
        robotOwnedBy_name_ne_nil howned (hname.trans hnil)] at hnot
      cases hnot
  · refine Prog.wp_seq (Site.wp_alone_onHarbor (Client.wp_getByName_faulty w.harbor
      (fun _ _ => trivial) (currentRobotName c ha))) fun res w' hget => ?_
    obtain ⟨h', rfl, rfl, hfound, hmissing⟩ := hget
    match res with
    | .error .robotNotFound =>
      exact ⟨w.harbor, rfl, fun _ _ => .refl fun r robot hv _ hname =>
        absurd hname (hmissing rfl r robot hv)⟩
    | .error (.harbor e) => exact ⟨w.harbor, rfl, nofun⟩
    | .error (.prefixMismatch e) => exact ⟨w.harbor, rfl, nofun⟩
    | .error .invalidProject => exact ⟨w.harbor, rfl, nofun⟩
    | .error .noSecret => exact ⟨w.harbor, rfl, nofun⟩
    | .error .noWireName => exact ⟨w.harbor, rfl, nofun⟩
    | .error (.idNotIncreasing id cursor) => exact ⟨w.harbor, rfl, nofun⟩
    | .error .tooManyPages => exact ⟨w.harbor, rfl, nofun⟩
    | .ok robot =>
      obtain ⟨r, hv, hname, -⟩ := hfound robot rfl
      have honly : ∀ r' robot', w.harbor.Views c r' robot' → robot'.name = currentRobotName c ha →
          robot' = robot := by
        intro r' robot' hv' hname'
        obtain rfl := hunique r' r robot' robot hv' hv (hname'.trans hname.symm)
        exact Option.some.inj (hv'.2.symm.trans hv.2)
      dsimp only
      split_ifs with howned hdisabled hback
      · refine ⟨w.harbor, rfl, fun _ _ => .refl fun r' robot' hv' howned' hname' => ?_⟩
        rw [honly r' robot' hv' hname', howned] at howned'
        cases howned'
      · refine ⟨w.harbor, rfl, fun _ _ => .refl fun r' robot' hv' _ hname' => ?_⟩
        rw [honly r' robot' hv' hname']
        exact hdisabled
      · refine Prog.wp_seq (Site.wp_alone_onHarbor (Client.wp_update_faulty w.harbor
          { robot with disabled := true } _ _ trivial)) fun res w' hupdate => ?_
        obtain ⟨h', rfl, hupdate⟩ := hupdate
        cases res with
        | error e => exact ⟨h', rfl, nofun⟩
        | ok _ =>
          refine ⟨h', rfl, fun _ _ => ?_⟩
          obtain rfl := hupdate rfl
          have hid : robot.id = r.id := hv.id
          refine .of_one hunique hv hname (by simpa using howned) rfl (fun s hs => ?_) fun s hs hsid => ?_
          · constructor
            · intro hmem
              obtain ⟨s₀, hs₀, hs₀id, hs₀eq⟩ := Harbor.mem_update hmem
              rw [if_neg fun heq => hs (hs₀id ▸ heq.trans hid)] at hs₀eq
              exact hs₀eq ▸ hs₀
            · intro hmem
              exact List.mem_map.mpr ⟨s, hmem, if_neg fun heq => hs (heq.trans hid)⟩
          · obtain ⟨s₀, hs₀, hs₀id, hs₀eq⟩ := Harbor.mem_update hs
            rw [hs₀eq, if_pos ((hs₀id.trans hsid).trans hid.symm)]
            rfl
      · refine Prog.wp_seq (Site.wp_alone_onHarbor (Client.wp_delete_faulty w.harbor robot.id
          trivial)) fun res w' hdelete => ?_
        obtain ⟨h', rfl, hdelete⟩ := hdelete
        cases res with
        | error e => exact ⟨h', rfl, nofun⟩
        | ok _ =>
          refine ⟨h', rfl, fun _ _ => ?_⟩
          obtain rfl := hdelete rfl
          have hid : robot.id = r.id := hv.id
          refine .of_one hunique hv hname (by simpa using howned) rfl (fun s hs => ?_) fun s hs hsid => ?_
          · rw [Harbor.mem_delete, hid]
            exact and_iff_left hs
          · rw [Harbor.mem_delete, hid] at hs
            exact absurd hsid hs.2

end

/-! ## The Secret -/

structure StampedHere (c : Config) (ha : HarborAccess) (s : Secret) : Prop where
  ns : s.ns = c.ns
  managed : RobotSecret.isManaged s = true
  cluster : s.labels.get RobotSecret.labelCluster = c.clusterName
  haNamespace : s.labels.get RobotSecret.labelHarborAccessNamespace = ha.key.ns
  haName : s.labels.get RobotSecret.labelHarborAccessName = ha.key.name

namespace StampedHere

variable {c : Config} {ha : HarborAccess} {s : Secret} (h : StampedHere c ha s)
include h

theorem secretDeleteConflict (robotName : GoString) :
    secretDeleteConflict c ha s robotName = none := by
  have hother : RobotSecret.stampedForOther s ha.key.ns ha.key.name = false := by
    simp [RobotSecret.stampedForOther, h.haNamespace, h.haName]
  simp [HarborBridge.secretDeleteConflict, secretConflict, hother, h.managed, h.cluster]

theorem owner : RobotSecret.owner s = some (ha.key.ns, ha.key.name) := by
  simp [RobotSecret.owner, h.managed, h.haNamespace, h.haName, ha.key.ns_valid.ne_nil,
    ha.key.name_ne_nil]

theorem hasLabels : Site.hasLabels (Janitor.matchingLabels c) s = true := by
  have hget : ∀ k v, v ≠ [] → s.labels.get k = v → s.labels.lookup k = some v := by
    intro k v hne hv
    unfold StringMap.get at hv
    cases hlookup : s.labels.lookup k with
    | none =>
      rw [hlookup] at hv
      exact absurd hv.symm hne
    | some v' =>
      rw [hlookup] at hv
      rw [← hv]
      rfl
  have hmanaged := hget _ _ (by decide) (beq_iff_eq.mp h.managed)
  have hcluster := hget _ _ c.clusterName_valid.ne_nil h.cluster
  refine decide_eq_true (Finmap.ext_lookup fun k => ?_)
  by_cases hk : k ∈ Janitor.matchingLabels c
  · rw [Finmap.lookup_union_left hk]
    unfold Janitor.matchingLabels at hk ⊢
    rw [Finmap.mem_insert, Finmap.mem_singleton] at hk
    rcases hk with rfl | rfl
    · rw [Finmap.lookup_insert, hcluster]
    · rw [Finmap.lookup_insert_of_ne _ (by decide), Finmap.lookup_singleton_eq, hmanaged]
  · rw [Finmap.lookup_union_right hk]

end StampedHere

namespace Site

variable {c : Config} {w : Site} {ha : HarborAccess}

structure Fewer (w w' : Site) : Prop where
  harbor : w'.harbor = w.harbor
  accesses : w'.accesses = w.accesses
  secrets : ∀ s ∈ w'.secrets, s ∈ w.secrets

theorem Fewer.refl (w : Site) : Fewer w w := ⟨rfl, rfl, fun _ => id⟩

theorem Trims.fewer {drop : Secret → Prop} {w' : Site} (h : Trims drop w w') : Fewer w w' :=
  ⟨h.harbor, h.accesses, fun s hs => ((h.secrets s).mp hs).1⟩

theorem wp_getRobotSecret : (getRobotSecret c ha).Wp alone (fun res w' => w' = w ∧
    ∀ secret, res = .ok secret → w.secret c.ns (RobotSecret.name ha.key.ns ha.key.name) = secret) w := by
  refine ⟨trivial, fun r w' hs => ?_⟩
  have hf : w.Faulty (.readSecret _ _) r w' := hs
  rcases hf.kube nofun nofun with ⟨rfl, hsame⟩ | ⟨⟨e, he, rfl⟩, hsame⟩
  · have hsame : w' = w := hsame
    have hanswer : (w.serve (.readSecret c.ns (RobotSecret.name ha.key.ns ha.key.name))).1 =
        Kube.found (w.secret c.ns (RobotSecret.name ha.key.ns ha.key.name)) := rfl
    rw [hanswer]
    cases w.secret c.ns (RobotSecret.name ha.key.ns ha.key.name) <;>
      exact ⟨hsame, fun _ h => Except.ok.inj h⟩
  · have hsame : w' = w := hsame.elim id id
    cases e with
    | notFound => exact absurd rfl he
    | conflict => exact ⟨hsame, nofun⟩
    | alreadyExists => exact ⟨hsame, nofun⟩
    | other => exact ⟨hsame, nofun⟩

theorem wp_deleteSecret (s : Secret)
    (hsame : ∀ t ∈ w.secrets, t.ns = s.ns → t.name = s.name → t = s) :
    (HarborBridge.deleteSecret s).Wp alone
      (fun res w' => Fewer w w' ∧ (res = .ok () → s ∉ w'.secrets)) w := by
  have htrims := trims_deleteSecret s hsame
  refine ⟨trivial, fun r w' hs => ?_⟩
  have hf : w.Faulty (.deleteSecret s) r w' := hs
  rcases hf.kube nofun nofun with ⟨-, rfl⟩ | ⟨⟨e, he, rfl⟩, hw⟩
  · have hgone : s ∉ (w.deleteSecret s).2.secrets := fun hmem => ((htrims.secrets s).mp hmem).2 rfl
    match r with
    | Except.ok () => exact ⟨htrims.fewer, fun _ => hgone⟩
    | Except.error .notFound => exact ⟨htrims.fewer, fun _ => hgone⟩
    | Except.error .conflict => exact ⟨htrims.fewer, nofun⟩
    | Except.error .alreadyExists => exact ⟨htrims.fewer, nofun⟩
    | Except.error .other => exact ⟨htrims.fewer, nofun⟩
  · have hfewer : Fewer w w' := by
      rcases hw with rfl | rfl
      · exact .refl _
      · exact htrims.fewer
    cases e with
    | notFound => exact absurd rfl he
    | conflict => exact ⟨hfewer, nofun⟩
    | alreadyExists => exact ⟨hfewer, nofun⟩
    | other => exact ⟨hfewer, nofun⟩

/-- Without an error, no Secret of the HarborAccess is left at the name of its robot Secret. -/
theorem wp_deleteOwnRobotSecret (hd : w.Distinct) (robotName : GoString) :
    (deleteOwnRobotSecret c ha robotName).Wp alone (fun err w' => Fewer w w' ∧ (err = none →
      ∀ s ∈ w'.secrets, StampedHere c ha s → s.name ≠ RobotSecret.name ha.key.ns ha.key.name)) w := by
  have hat : ∀ s ∈ w.secrets, StampedHere c ha s → s.name = RobotSecret.name ha.key.ns ha.key.name →
      w.secret c.ns (RobotSecret.name ha.key.ns ha.key.name) = some s := by
    intro s hs hstamped hname
    refine (find?_eq_some_of_unique fun x hx y hy hxk hyk => ?_).mpr
      ⟨hs, decide_eq_true ⟨hstamped.ns, hname⟩⟩
    have hxk := of_decide_eq_true hxk
    have hyk := of_decide_eq_true hyk
    exact hd.secrets x hx y hy (hxk.1.trans hyk.1.symm) (hxk.2.trans hyk.2.symm)
  refine Prog.wp_seq wp_getRobotSecret fun res w' hget => ?_
  obtain ⟨rfl, hread⟩ := hget
  match res with
  | .error e => exact ⟨.refl _, nofun⟩
  | .ok none =>
    refine ⟨.refl _, fun _ s hs hstamped hname => ?_⟩
    have hsome := hat s hs hstamped hname
    rw [hread none rfl] at hsome
    cases hsome
  | .ok (some secret) =>
    have hsecret := hread (some secret) rfl
    dsimp only
    split_ifs with hconflict
    · refine ⟨.refl _, fun _ s hs hstamped hname => ?_⟩
      obtain rfl := Option.some.inj ((hat s hs hstamped hname).symm.trans hsecret)
      rw [hstamped.secretDeleteConflict] at hconflict
      cases hconflict
    · refine Prog.wp_seq (wp_deleteSecret secret fun t ht hns hname => ?_) fun res w'' hdel => ?_
      · exact hd.secrets t ht secret (List.mem_of_find?_eq_some hsecret) hns hname
      obtain ⟨hfewer, hgone⟩ := hdel
      cases res with
      | error e => exact ⟨hfewer, nofun⟩
      | ok _ =>
        refine ⟨hfewer, fun _ s hs hstamped hname => ?_⟩
        obtain rfl := Option.some.inj
          ((hat s (hfewer.secrets s hs) hstamped hname).symm.trans hsecret)
        exact hgone rfl hs

/-! ## The pass -/

structure Suspended (c : Config) (ha : HarborAccess) (w w' : Site) : Prop where
  accesses : w'.accesses = w.accesses
  secrets : ∀ s ∈ w'.secrets, s ∈ w.secrets
  secret : ∀ s ∈ w'.secrets, StampedHere c ha s → s.name ≠ RobotSecret.name ha.key.ns ha.key.name
  robot : RobotSuspended ha c (currentRobotName c ha) w.harbor w'.harbor

theorem wp_suspend (hd : w.Distinct) (hunique : w.harbor.NamesDiffer c)
    (hheld : heldFinalizers c ha ≠ []) : (suspend c ha).Wp alone
      (fun out w' => out.2 = none → Suspended c ha w w') w := by
  refine Prog.wp_seq (wp_deleteOwnRobotSecret hd _) fun secretErr w₁ hsecret => ?_
  obtain ⟨hfewer, hgone⟩ := hsecret
  rw [if_neg hheld]
  refine Prog.wp_seq (w₁.wp_suspendRobot (hfewer.harbor ▸ hunique)) fun res w₂ hrobot => ?_
  obtain ⟨h', rfl, hrobot⟩ := hrobot
  cases res with
  | error e => cases secretErr <;> nofun
  | ok kept =>
    intro hnone
    exact ⟨hfewer.accesses, hfewer.secrets, hgone hnone, hfewer.harbor ▸ hrobot kept rfl⟩

/-- The HarborAccess keeps what a sweep reads of it, and nothing else changes. -/
structure Reports (key : ObjectKey) (w w' : Site) : Prop where
  harbor : w'.harbor = w.harbor
  secrets : w'.secrets = w.secrets
  own : ∀ l ∈ w.accesses, l.key = key → l.deleting = false →
    ∃ l' ∈ w'.accesses, l'.key = key ∧ l'.spec = l.spec ∧ l'.labels = l.labels ∧ l'.deleting = false
  others : ∀ l, l.key ≠ key → (l ∈ w'.accesses ↔ l ∈ w.accesses)
  distinct : w.Distinct → w'.Distinct

theorem Reports.refl (key : ObjectKey) (w : Site) : Reports key w w :=
  ⟨rfl, rfl, fun l hl hkey hdel => ⟨l, hl, hkey, rfl, rfl, hdel⟩, fun _ _ => Iff.rfl, id⟩

theorem Reports.trans {key : ObjectKey} {w' w'' : Site} (h : Reports key w w')
    (h' : Reports key w' w'') : Reports key w w'' := by
  refine ⟨h'.harbor.trans h.harbor, h'.secrets.trans h.secrets, fun l hl hkey hdel => ?_,
    fun l hl => (h'.others l hl).trans (h.others l hl), fun hd => h'.distinct (h.distinct hd)⟩
  obtain ⟨l₁, hl₁, hkey₁, hspec₁, hlabels₁, hdel₁⟩ := h.own l hl hkey hdel
  obtain ⟨l₂, hl₂, hkey₂, hspec₂, hlabels₂, hdel₂⟩ := h'.own l₁ hl₁ hkey₁ hdel₁
  exact ⟨l₂, hl₂, hkey₂, hspec₂.trans hspec₁, hlabels₂.trans hlabels₁, hdel₂⟩

theorem reports_writeAccess (hd : w.Distinct) (copy : HarborAccess)
    (change : HarborAccess → HarborAccess) (hdel : ∀ l, (change l).deleting = l.deleting)
    (hspec : ∀ l, (change l).spec = l.spec) (hlabels : ∀ l, (change l).labels = l.labels) :
    Reports copy.key w (w.writeAccess copy change).2 := by
  unfold writeAccess
  cases haccess : w.access copy.key.ns copy.key.name with
  | none => exact .refl _ w
  | some l =>
    obtain ⟨hl, hns, hname⟩ := hd.access_eq_some.mp haccess
    have hkey : l.key = copy.key := (ObjectKey.ext_iff' _ _).mpr ⟨hns, hname⟩
    dsimp only
    by_cases hversion : l.resourceVersion = copy.resourceVersion
    · rw [if_pos hversion]
      change Reports copy.key w (w.putAccess l.key
        (if (change l).deleting = true ∧ (change l).finalizers = [] then none
        else some { change l with key := l.key, resourceVersion := w.revision + 1 }))
      refine ⟨rfl, rfl, fun a ha hak hadel => ?_, fun a hak => ?_, fun _ => hd.putAccess ?_⟩
      · obtain rfl := hd.accesses a ha l hl (hak.trans hkey.symm)
        have hkeep : ¬ ((change a).deleting = true ∧ (change a).finalizers = []) := by
          rw [hdel, hadel]
          exact fun h => Bool.false_ne_true h.1
        rw [if_neg hkeep]
        exact ⟨_, List.mem_filterMap.mpr ⟨a, ha, if_pos rfl⟩, hak, hspec a, hlabels a,
          (hdel a).trans hadel⟩
      · refine ⟨fun hm => ?_, fun hm => List.mem_filterMap.mpr
          ⟨a, hm, if_neg fun h => hak (h.trans hkey)⟩⟩
        rcases mem_putAccess hm with hnew | hold
        · split_ifs at hnew
          obtain rfl := Option.some.inj hnew
          exact absurd hkey hak
        · exact hold.1
      · intro a hnew
        split_ifs at hnew
        rw [← Option.some.inj hnew]
    · rw [if_neg hversion]
      exact .refl _ w

theorem reports_of_faulty (hd : w.Distinct) {call : Call} {r : Answer call} {w' : Site}
    (hf : w.Faulty call r w') (copy : HarborAccess) (hcall : call = .updateStatus copy ∨
      ∃ finalizers, call = .patchFinalizers copy finalizers) : Reports copy.key w w' := by
  rcases hcall with rfl | ⟨finalizers, rfl⟩
  · rcases hf.effect nofun nofun with rfl | rfl
    · exact .refl _ _
    · exact reports_writeAccess hd copy _ (fun _ => rfl) (fun _ => rfl) fun _ => rfl
  · rcases hf.effect nofun nofun with rfl | rfl
    · exact .refl _ _
    · exact reports_writeAccess hd copy _ (fun _ => rfl) (fun _ => rfl) fun _ => rfl

theorem key_of_updateStatus (copy : HarborAccess) {ha' : HarborAccess} {w' : Site}
    (hf : w.Faulty (.updateStatus copy) (Except.ok ha') w') : ha'.key = copy.key := by
  rcases hf.kube nofun nofun with ⟨hanswer, -⟩ | ⟨⟨e, -, he⟩, -⟩
  swap
  · cases he
  simp only [serve, writeAccess] at hanswer
  cases haccess : w.access copy.key.ns copy.key.name with
  | none =>
    rw [haccess] at hanswer
    cases hanswer
  | some l =>
    have hl := List.find?_some haccess
    rw [haccess] at hanswer
    dsimp only at hanswer
    split_ifs at hanswer
    all_goals
      rw [Except.ok.inj hanswer]
      exact (ObjectKey.ext_iff' _ _).mpr (of_decide_eq_true hl)

theorem wp_releaseRefused (hd : w.Distinct) :
    (releaseRefused c ha).Wp alone (fun _ w' => Reports ha.key w w') w := by
  unfold releaseRefused
  split_ifs
  · exact .refl _ w
  · refine Prog.wp_seq (wp_alone_onHarbor (Client.wp_list_faulty w.harbor (fun _ _ => trivial) none))
      fun res w' hlist => ?_
    obtain ⟨h', rfl, rfl, -⟩ := hlist
    cases res with
    | error e => exact .refl _ w
    | ok robots =>
      dsimp only
      split
      · exact .refl _ w
      · exact .refl _ w
      · refine ⟨trivial, fun r w' hs => ?_⟩
        have hreports := reports_of_faulty hd hs ha (.inr ⟨_, rfl⟩)
        match r with
        | Except.ok _ => exact hreports
        | Except.error .notFound => exact hreports
        | Except.error .conflict => exact hreports
        | Except.error .alreadyExists => exact hreports
        | Except.error .other => exact hreports

end Site

section

variable (c : Config)

/-- What `refuse` does after the suspension. -/
def afterSuspend (ha : HarborAccess) (reason : Reason) (releasable : Bool)
    (suspendErr : Option PassErr) : BridgeProg (Except PassErr Result) := do
  match ← setNotReady (withCondition ha .robotProvisioned false reason) reason with
  | .error e => return .error (.updateStatus e)
  | .ok ha =>
    match suspendErr with
    | some e => return .error e
    | none =>
      if releasable then
        if let some e ← releaseRefused c ha then return .error e
      return .ok ⟨resyncAfter ha⟩

/-- `refuse`, which also tells how the suspension went. -/
def refuseReporting (ha : HarborAccess) (reason : Reason) :
    BridgeProg (Option PassErr × Except PassErr Result) := do
  let out ← suspend c ha
  let res ← afterSuspend c ha reason out.1 out.2
  return (out.2, res)

theorem refuse_eq_refuseReporting (ha : HarborAccess) (reason : Reason) :
    refuse c ha reason = (do
      let out ← refuseReporting c ha reason
      return out.2) := by
  unfold refuseReporting
  rw [Prog.bind_assoc]
  refine congrArg (suspend c ha >>= ·) (funext fun out => ?_)
  rw [Prog.bind_assoc]
  exact (Prog.bind_ret _).symm

end

namespace Site

variable {c : Config} {w : Site} {ha : HarborAccess}

theorem wp_afterSuspend (hd : w.Distinct) (reason : Reason) (releasable : Bool)
    (suspendErr : Option PassErr) : (afterSuspend c ha reason releasable suspendErr).Wp alone
      (fun _ w' => Reports ha.key w w') w := by
  refine Prog.wp_ask_bind.mpr ⟨trivial, fun r w₁ hs => ?_⟩
  have hreports : Reports ha.key w w₁ := reports_of_faulty hd hs
    (withCondition (withCondition ha .robotProvisioned false reason) .ready false reason) (.inl rfl)
  match r with
  | Except.error e => exact hreports
  | Except.ok ha' =>
    have hkey : ha'.key = ha.key := key_of_updateStatus
      (withCondition (withCondition ha .robotProvisioned false reason) .ready false reason) hs
    cases suspendErr with
    | some e => exact hreports
    | none =>
      cases releasable with
      | false => exact hreports
      | true =>
        refine Prog.wp_seq (wp_releaseRefused (hreports.distinct hd)) fun res w₂ h => ?_
        rw [hkey] at h
        cases res <;> exact hreports.trans h

/-- What is left of a refused HarborAccess: at most one robot, disabled, at its current name. -/
structure Revoked (c : Config) (ha : HarborAccess) (w w' : Site) : Prop where
  robots : ∀ r robot, w'.harbor.Views c r robot →
    robotOwnedBy c.clusterName robot ha.key.ns ha.key.name = true →
    robot.disabled = true ∧ robotName c.clusterName ha.spec.serviceAccountRef.ns
      ha.spec.serviceAccountRef.name = .ok robot.name
  secrets : ∀ s ∈ w'.secrets, ¬ StampedHere c ha s
  others : ∀ r robot, w.harbor.Views c r robot → ∀ ha' ∈ w.accesses, ha'.key ≠ ha.key →
    robotOwnedBy c.clusterName robot ha'.key.ns ha'.key.name = true →
    Janitor.Keeps c robot ha' → r ∈ w'.harbor.robots

theorem tagged_of_robotOwnedBy {robot : Robot} {haNamespace haName : GoString}
    (h : robotOwnedBy c.clusterName robot haNamespace haName = true) :
    Janitor.Tagged c robot haNamespace haName :=
  have h := (robotOwnedBy_iff _ _ _ _).mp h
  ⟨h.1, h.2.1, h.2.2⟩

/-- The owner as the sweep reads it, after the pass. -/
theorem Reports.access {w' : Site} (h : Reports ha.key w w') (hd : w'.Distinct)
    (hmem : ha ∈ w.accesses) (hdel : ha.deleting = false) :
    ∃ l, w'.access ha.key.ns ha.key.name = some l ∧ l.key = ha.key ∧ l.spec = ha.spec ∧
      l.labels = ha.labels := by
  obtain ⟨l, hl, hkey, hspec, hlabels, -⟩ := h.own ha hmem rfl hdel
  exact ⟨l, hd.access_eq_some.mpr ⟨hl, congrArg ObjectKey.ns hkey, congrArg ObjectKey.name hkey⟩,
    hkey, hspec, hlabels⟩

theorem Suspended.distinct {w' : Site} (h : Suspended c ha w w') (hd : w.Distinct) : w'.Distinct where
  accesses := h.accesses ▸ hd.accesses
  secrets s hs t ht := hd.secrets s (h.secrets s hs) t (h.secrets t ht)

theorem revoked_of_swept {w₁ w₂ w' : Site} (hmem : ha ∈ w.accesses)
    (hdel : ha.deleting = false) (hsuspended : Suspended c ha w w₁)
    (hreports : Reports ha.key w₁ w₂) (hd₂ : w₂.Distinct) (hswept : Swept c w₂ w') :
    Revoked c ha w w' := by
  obtain ⟨l, haccess, hkey, hspec, hlabels⟩ :=
    hreports.access hd₂ (hsuspended.accesses ▸ hmem) hdel
  have hprefixed₂ : w₂.harbor.robotNamePrefix = w.harbor.robotNamePrefix :=
    (congrArg _ hreports.harbor).trans hsuspended.robot.robotNamePrefix
  refine ⟨fun r robot hv howned => ?_, fun s hs hstamped => ?_, fun r robot hv ha' hmem' hne howned hkeeps => ?_⟩
  · obtain ⟨hr, hnot⟩ := (hswept.robots r).mp hv.1
    have hv₂ := hv.congr hr hswept.robotNamePrefix.symm
    obtain ⟨ha₂, haccess₂, hkeeps⟩ :=
      (Janitor.condemned_eq_false (tagged_of_robotOwnedBy howned)).mp (hnot robot hv₂)
    obtain rfl := Option.some.inj (haccess₂.symm.trans haccess)
    have hname := hkeeps.2
    rw [hspec] at hname
    refine ⟨hsuspended.robot.disabled r robot (hreports.harbor ▸ hv₂) howned ?_, hname⟩
    unfold currentRobotName
    rw [hname]
  · obtain ⟨hs₂, hnot⟩ := (hswept.secrets s).mp hs
    refine hnot ⟨hstamped.ns, hstamped.hasLabels, ?_⟩
    refine Janitor.condemnedSecret_eq_true.mpr ⟨_, _, hstamped.owner, fun ha₂ haccess₂ hkept => ?_⟩
    obtain rfl := Option.some.inj (haccess₂.symm.trans haccess)
    rw [hkey] at hkept
    exact hsuspended.secret s (hreports.secrets ▸ hs₂) hstamped hkept.2
  · have hother : robotOwnedBy c.clusterName robot ha.key.ns ha.key.name = false := by
      rw [← Bool.not_eq_true]
      intro hboth
      have hsame := Prod.mk.inj (Option.some.inj
        ((tagged_of_robotOwnedBy howned).owner.symm.trans (tagged_of_robotOwnedBy hboth).owner))
      exact hne ((ObjectKey.ext_iff' _ _).mpr hsame)
    have hr₂ : r ∈ w₂.harbor.robots := by
      rw [hreports.harbor]
      exact hsuspended.robot.others r robot hv hother
    refine (hswept.robots r).mpr ⟨hr₂, fun robot' hv' => ?_⟩
    obtain rfl := Option.some.inj ((hv'.congr hv.1 hprefixed₂.symm).2.symm.trans hv.2)
    refine (Janitor.condemned_eq_false (tagged_of_robotOwnedBy howned)).mpr ⟨ha', ?_, hkeeps⟩
    refine hd₂.access_eq_some.mpr ⟨(hreports.others ha' hne).mpr ?_, rfl, rfl⟩
    rw [hsuspended.accesses]
    exact hmem'

/-- A pass over a refused HarborAccess whose suspension reports no error, and then a sweep in
which every call succeeds, leave of it nothing but a disabled robot. -/
theorem refused_access_is_revoked (c : Config) (w : Site) (ha : HarborAccess) (refusal : Refusal)
    (hd : w.Distinct) (hunique : w.harbor.NamesDiffer c) (hmem : ha ∈ w.accesses)
    (hdel : ha.deleting = false)
    (hrefused : admission c ha = .error refusal) (hheld : heldFinalizers c ha ≠ []) :
    reconcileNormal c ha = (do
      let out ← refuseReporting c ha refusal.reason
      return out.2) ∧
    (refuseReporting c ha refusal.reason).Wp alone (fun out w₁ => out.1 = none →
      (Janitor.sweep c).Wp (quiet fun _ => True)
        (fun res w' => res = .ok () → Revoked c ha w w') w₁) w := by
  constructor
  · rw [← refuse_eq_refuseReporting]
    unfold reconcileNormal
    rw [hrefused]
  · refine Prog.wp_seq (wp_suspend hd hunique hheld) fun out w₁ hsuspended => ?_
    obtain ⟨releasable, suspendErr⟩ := out
    cases suspendErr with
    | some e =>
      exact Prog.wp_seq (Prog.wp_trivial (fun _ _ => trivial) _ _) fun _ _ _ => nofun
    | none =>
      have hsuspended := hsuspended rfl
      refine Prog.wp_seq (wp_afterSuspend (hsuspended.distinct hd) _ releasable none)
        fun res w₂ hreports _ => ?_
      have hd₂ := hreports.distinct (hsuspended.distinct hd)
      exact Prog.wp_mono (fun _ _ hswept hres =>
        revoked_of_swept hmem hdel hsuspended hreports hd₂ (hswept hres)) _ _
        (wp_sweep hd₂ (fun _ _ _ => trivial) (fun _ _ _ _ => trivial) fun _ _ _ _ _ => trivial)

/-! ## A refused HarborAccess -/

/-- A HarborAccess that was served and then got another audience. -/
def refusedAccess : HarborAccess :=
  let ha := sampleAccess sampleKey ⟨lit "team", lit "app"⟩
  { ha with
    finalizers := [finalizerName]
    spec := { ha.spec with trustPolicy := ⟨lit "https://issuer", lit "other"⟩ } }

def servedRobot (id : Int) (name : GoString) (editable : Bool) : StoredRobot :=
  ⟨id, name, editable, robotDescription (lit "prod") (lit "team") (lit "app"), false, -1,
    toHarborPermissions [⟨lit "library", lit "pull"⟩], lit "p"⟩

def servedHarbor (name : GoString) (editable : Bool) : Harbor where
  robotNamePrefix := lit "robot$"
  honoursFilter := true
  robots := [servedRobot 1 (lit "bridge-prod.team.app") true, servedRobot 2 name editable]
  nextId := 3
  issued := [lit "p"]
  sorted := by simp [servedRobot]
  bounds := by simp [servedRobot]
  nextId_pos := nextId_three_pos
  nextId_le := nextId_three_le
  password_issued := by simp [servedRobot]

def servedSite (name : GoString) (editable : Bool) : Site where
  harbor := servedHarbor name editable
  accesses := [refusedAccess]
  secrets := [⟨lit "bridge", lit "robot-team.app", lit "2", 2,
    RobotSecret.labels (lit "prod") (lit "team") (lit "app"), ∅, ∅⟩]
  revision := 2
  clock := 0

theorem servedSite_distinct (name : GoString) (editable : Bool) :
    (servedSite name editable).Distinct := by
  refine ⟨fun a ha b hb _ => ?_, fun s hs t ht _ _ => ?_⟩
  · rw [List.mem_singleton.mp ha, List.mem_singleton.mp hb]
  · rw [List.mem_singleton.mp hs, List.mem_singleton.mp ht]

/-- The pass over `refusedAccess`, and the sweep after it. -/
def refusedPass (w : Site) : (Option PassErr × Except PassErr Result) × Site :=
  (refuseReporting sampleConfig refusedAccess .audienceMismatch).exec serve w

def sweptAfter (w : Site) : Except SweepErr Unit × Site :=
  (Janitor.sweep sampleConfig).exec serve (refusedPass w).2

/-- The robot at the current name is disabled, the legacy one and the Secret are gone. -/
theorem refused_access_is_revoked_legacy :
    let w := servedSite (lit "bridge-prod-team-app") true
    (refusedPass w).1.1 = none ∧ (sweptAfter w).1 = .ok () ∧
      (sweptAfter w).2.harbor.robots.map (fun r => (r.id, r.disable)) = [(1, true)] ∧
      Revoked sampleConfig refusedAccess w (sweptAfter w).2 := by
  have hnone : (refusedPass (servedSite (lit "bridge-prod-team-app") true)).1.1 = none := by rfl
  have hok : (sweptAfter (servedSite (lit "bridge-prod-team-app") true)).1 = .ok () := by rfl
  have hunique : (servedHarbor (lit "bridge-prod-team-app") true).NamesDiffer sampleConfig := by
    intro r r' robot robot' hv hv' hname
    rw [(fromHarborRobot_some _ _ _ hv.2).2.2.2.2.2, (fromHarborRobot_some _ _ _ hv'.2).2.2.2.2.2]
      at hname
    have hr : r = servedRobot 1 (lit "bridge-prod.team.app") true ∨
      r = servedRobot 2 (lit "bridge-prod-team-app") true := by simpa [servedHarbor] using hv.1
    have hr' : r' = servedRobot 1 (lit "bridge-prod.team.app") true ∨
      r' = servedRobot 2 (lit "bridge-prod-team-app") true := by simpa [servedHarbor] using hv'.1
    rcases hr with rfl | rfl <;> rcases hr' with rfl | rfl
    · rfl
    · exact absurd hname (by decide)
    · exact absurd hname (by decide)
    · rfl
  have hwp := (refused_access_is_revoked sampleConfig (servedSite (lit "bridge-prod-team-app") true)
    refusedAccess (.audience (lit "other") (lit "harbor")) (servedSite_distinct _ _) hunique
    List.mem_cons_self rfl rfl (by decide)).2
  have hsweep := Prog.wp_exec serve (fun w call => serve_faulty w call) _ _ _ hwp hnone
  exact ⟨hnone, hok, by rfl, wp_exec _ _ _ (by decide +kernel) hsweep hok⟩

/-- A second robot that the client reads under the same name, one of Harbor's old robots, whose
stored name has the prefix in it, stays enabled: the pass looks at one robot of the name, and the
sweep keeps robots at the current name. -/
theorem robot_of_the_same_name_stays_enabled :
    let w := servedSite (lit "robot$bridge-prod.team.app") false
    w.Distinct ∧ refusedAccess ∈ w.accesses ∧ sampleConfig.selects refusedAccess = true ∧
      admission sampleConfig refusedAccess = .error (.audience (lit "other") (lit "harbor")) ∧
      heldFinalizers sampleConfig refusedAccess ≠ [] ∧
      (∀ r ∈ w.harbor.robots, ∀ robot, w.harbor.Views sampleConfig r robot →
        misnamedRobot sampleConfig.clusterName robot = none) ∧
      (refusedPass w).1.1 = none ∧ (sweptAfter w).1 = .ok () ∧
      ∃ r robot, (sweptAfter w).2.harbor.Views sampleConfig r robot ∧
        robotOwnedBy sampleConfig.clusterName robot refusedAccess.key.ns refusedAccess.key.name = true ∧
        robot.disabled = false := by
  refine ⟨servedSite_distinct _ _, List.mem_cons_self, rfl, rfl, by decide, ?_, by rfl, by rfl,
    servedRobot 2 (lit "robot$bridge-prod.team.app") false, _, ⟨?_, rfl⟩, by decide, rfl⟩
  · intro r hr robot hv
    have hname := (fromHarborRobot_some _ _ _ hv.2).2.2.2.2.2
    have hown : ownsRobot sampleConfig.clusterName robot.name = true := by
      rw [hname]
      rcases List.mem_cons.mp hr with rfl | hr
      · decide
      · rw [List.mem_singleton.mp hr]
        decide
    unfold misnamedRobot
    rw [hown]
    rfl
  · exact List.mem_cons_of_mem _ List.mem_cons_self

end Site

end HarborBridge
