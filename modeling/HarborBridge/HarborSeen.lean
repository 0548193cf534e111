import HarborBridge.SweepObserved

/-! What a pass knows of the robots is so, when nobody but the pass changes them. Others may
delete robots. -/
namespace HarborBridge

open GoStrings Interaction

namespace Harbor

variable {h h' : Harbor}

/-- A robot after a request has the password that it had, unless the request gave it one. -/
theorem Effect.password {call : HarborCall} (he : h.Effect call h') {s : StoredRobot}
    (hs : s ∈ h'.robots) :
    (∃ r ∈ h.robots, r.id = s.id ∧ h'.wireName s = h.wireName r ∧
      (s.password = r.password ∨ call = .refreshSec s.id)) ∨
    ∃ body, call = .createRobot body ∧ s.id = h.nextId := by
  cases he with
  | none => exact .inl ⟨s, hs, rfl, rfl, .inl rfl⟩
  | created body password hid hname hp =>
    rcases (mem_create hid).mp hs with hs | rfl
    · exact .inl ⟨s, hs, rfl, rfl, .inl rfl⟩
    · exact .inr ⟨body, rfl, rfl⟩
  | updated id body =>
    obtain ⟨r, hr, hid, hs'⟩ := mem_update hs
    refine .inl ⟨r, hr, hid, ?_⟩
    rw [hs']
    split_ifs <;> exact ⟨rfl, .inl rfl⟩
  | refreshed id password hp =>
    obtain ⟨r, hr, hid, rfl⟩ := mem_refresh hs
    by_cases hrid : r.id = id
    · rw [if_pos hrid]
      refine .inl ⟨r, hr, rfl, rfl, .inr ?_⟩
      rw [← hrid]
    · rw [if_neg hrid]
      exact .inl ⟨r, hr, rfl, rfl, .inl rfl⟩
  | deleted id => exact .inl ⟨s, (mem_delete.mp hs).1, rfl, rfl, .inl rfl⟩

theorem Effect.report {call : HarborCall} (he : h.Effect call h')
    (hcreate : ∀ body, call ≠ .createRobot body) (hupdate : ∀ id body, call ≠ .updateRobot id body)
    {s : StoredRobot} (hs : s ∈ h'.robots) :
    ∃ r ∈ h.robots, r.id = s.id ∧ h'.report s = h.report r ∧
      ∀ filter, h'.matching filter s = h.matching filter r := by
  cases he with
  | none => exact ⟨s, hs, rfl, rfl, fun _ => rfl⟩
  | created body => exact absurd rfl (hcreate body)
  | updated id body => exact absurd rfl (hupdate id body)
  | refreshed id password hp =>
    obtain ⟨r, hr, hid, rfl⟩ := mem_refresh hs
    refine ⟨r, hr, hid, ?_⟩
    split_ifs <;> exact ⟨rfl, fun _ => rfl⟩
  | deleted id => exact ⟨s, (mem_delete.mp hs).1, rfl, rfl, fun _ => rfl⟩

end Harbor

/-- What a listing has shown so far is all there is up to its cursor. -/
def Walk.Covers (c : Config) (walk : Walk) (h : Harbor) : Prop :=
  0 ≤ walk.cursor ∧ ∀ r ∈ h.robots, h.matching walk.filter r = true →
    walk.complete = true ∨ r.id ≤ walk.cursor →
      ∃ robot ∈ walk.robots, fromHarborRobot c.harborRobotPrefix (h.report r) = some robot

theorem Walk.covers_none (c : Config) (filter : Option GoString) (h : Harbor) :
    (Walk.none filter).Covers c h := by
  refine ⟨le_refl 0, ?_⟩
  intro r hr _ hcase
  rcases hcase with hcase | hle
  · cases hcase
  · have hpos := (h.bounds r hr).1
    change r.id ≤ 0 at hle
    omega

/-- The robots that the next page of Harbor brings the listing past: it shows them, or they were
behind it already. -/
theorem Walk.readPage_reaches {c : Config} {walk : Walk} {h : Harbor} (hcursor : 0 ≤ walk.cursor)
    (filter : Option GoString) (idFrom : Int) {walk' : Walk}
    (hread : walk.readPage c.harborRobotPrefix filter idFrom (h.page filter idFrom) = walk') :
    0 ≤ walk'.cursor ∧ walk'.filter = filter ∧
      ∀ r ∈ h.robots, h.matching filter r = true → walk'.complete = true ∨ r.id ≤ walk'.cursor →
        (∃ robot ∈ walk'.robots, fromHarborRobot c.harborRobotPrefix (h.report r) = some robot) ∨
          walk.filter = filter ∧ r.id ≤ walk.cursor ∧ walk.robots ⊆ walk'.robots := by
  have hpos : ∀ r ∈ h.robots, ¬ r.id ≤ 0 := fun r hr => not_le.mpr (h.bounds r hr).1
  rcases walk.readPage_cases c.harborRobotPrefix filter idFrom (h.page filter idFrom) with
    heq | ⟨start, cursor, new, hstart, rfl, htake, heq⟩ <;> rw [heq] at hread <;> subst hread
  · refine ⟨le_refl 0, rfl, fun r hr _ hcase => ?_⟩
    exact absurd (hcase.resolve_left Bool.false_ne_true) (hpos r hr)
  -- the walk that the page continues
  have hcursor' : 0 ≤ start.cursor := by
    rcases hstart with ⟨rfl, -⟩ | rfl
    · exact hcursor
    · exact le_refl 0
  have hpage := Client.takePage_page c.harborRobotPrefix h filter start.cursor cursor
    start.robots new hcursor' htake
  obtain ⟨new', hnew, hall, -⟩ := Client.takePage_ok c.harborRobotPrefix _ _ _ _ _ htake
  obtain rfl := List.append_cancel_left hnew
  refine ⟨hpage.1, rfl, fun r hr hm hcase => ?_⟩
  rcases hpage.2 r hr hm with hle | ⟨robot, hin, hid⟩ | ⟨hfull, hlt⟩
  · right
    rcases hstart with ⟨rfl, hfilter, -⟩ | rfl
    · exact ⟨hfilter, hle, List.subset_append_left _ _⟩
    · exact absurd hle (hpos r hr)
  · -- the entry of the page with this id is the robot's
    obtain ⟨x, hx, hfrom⟩ := Client.forall₂_mem c.harborRobotPrefix _ _ hall robot hin
    obtain ⟨r', hr', -, rfl⟩ := h.page_report _ _ x hx
    have hid' : r'.id = r.id := (fromHarborRobot_some _ _ _ hfrom).1.symm.trans hid
    rw [Harbor.eq_of_id hr' hr hid'] at hfrom
    exact .inl ⟨robot, List.mem_append_right _ hin, hfrom⟩
  · exfalso
    rcases hcase with hcomplete | hle
    · have hshort := of_decide_eq_true hcomplete
      omega
    · change r.id ≤ cursor at hle
      omega

theorem Walk.Covers.readPage {c : Config} {walk : Walk} {h : Harbor} (hw : walk.Covers c h)
    (filter : Option GoString) (idFrom : Int) :
    (walk.readPage c.harborRobotPrefix filter idFrom (h.page filter idFrom)).Covers c h := by
  obtain ⟨hcursor, hfilter, hreach⟩ := Walk.readPage_reaches hw.1 filter idFrom rfl
  refine ⟨hcursor, fun r hr hm hcase => ?_⟩
  rw [hfilter] at hm
  rcases hreach r hr hm hcase with hshown | ⟨hsame, hle, hsub⟩
  · exact hshown
  · obtain ⟨robot, hmem, hview⟩ := hw.2 r hr (hsame ▸ hm) (.inr hle)
    exact ⟨robot, hsub hmem, hview⟩

/-- A request that neither creates nor updates a robot keeps it too. -/
theorem Walk.Covers.effect {c : Config} {walk : Walk} {h h' : Harbor} (hw : walk.Covers c h)
    {call : HarborCall} (he : h.Effect call h') (hcreate : ∀ body, call ≠ .createRobot body)
    (hupdate : ∀ id body, call ≠ .updateRobot id body) : walk.Covers c h' := by
  refine ⟨hw.1, fun s hs hm hcase => ?_⟩
  obtain ⟨r, hr, hrs, hreport, hmatching⟩ := he.report hcreate hupdate hs
  rw [hmatching] at hm
  rw [← hrs] at hcase
  rw [hreport]
  exact hw.2 r hr hm hcase

/-- What the pass knows of Harbor's robots is so: of those that it was shown, of the listing
it has made, of those that it deleted or created, and of the password that it was given. -/
structure Sees (c : Config) (k : PassKnows) (h : Harbor) : Prop where
  walk : ∀ robot ∈ k.walk.robots, robot ∈ k.shown
  shown : ∀ robot ∈ k.shown, robot.id < h.nextId ∧ ∀ r ∈ h.robots, r.id = robot.id →
    r.description = robot.description ∧ r.disable = robot.disabled ∧ h.wireName r = robot.wireName
  covers : k.walk.Covers c h
  deleted : ∀ id ∈ k.deleted, id < h.nextId ∧ ∀ r ∈ h.robots, r.id ≠ id
  created : ∀ id, k.created = some id → 0 < id ∧ id < h.nextId
  password : ∀ id password, k.password = some (id, password) →
    (0 < id ∧ id < h.nextId) ∧ ∀ r ∈ h.robots, r.id = id → r.password = password

namespace Sees

variable {c : Config} {k : PassKnows} {h h' : Harbor}

theorem start (c : Config) (key : ObjectKey) (h : Harbor) : Sees c (PassKnows.start key) h :=
  ⟨nofun, nofun, Walk.covers_none c none h, nofun, nofun, nofun⟩

theorem anti (hk : Sees c k h) (hrobots : ∀ r ∈ h'.robots, r ∈ h.robots)
    (hnext : h'.nextId = h.nextId) (hprefixed : h'.robotNamePrefix = h.robotNamePrefix)
    (hfilter : h'.honoursFilter = h.honoursFilter) : Sees c k h' := by
  have hwire : ∀ r, h'.wireName r = h.wireName r := by
    intro r
    unfold Harbor.wireName
    rw [hprefixed]
  have hreport : ∀ r, h'.report r = h.report r := by
    intro r
    unfold Harbor.report
    rw [hwire]
  have hmatching : ∀ filter r, h'.matching filter r = h.matching filter r := by
    intro filter r
    unfold Harbor.matching
    rw [hfilter]
  refine ⟨hk.walk, ?_, ⟨hk.covers.1, ?_⟩, ?_, ?_, ?_⟩
  · intro robot hmem
    rw [hnext]
    refine ⟨(hk.shown robot hmem).1, fun r hr hid => ?_⟩
    rw [hwire]
    exact (hk.shown robot hmem).2 r (hrobots r hr) hid
  · intro r hr hm hcase
    rw [hreport]
    rw [hmatching] at hm
    exact hk.covers.2 r (hrobots r hr) hm hcase
  · intro id hid
    rw [hnext]
    exact ⟨(hk.deleted id hid).1, fun r hr => (hk.deleted id hid).2 r (hrobots r hr)⟩
  · intro id hid
    rw [hnext]
    exact hk.created id hid
  · intro id password hp
    rw [hnext]
    exact ⟨(hk.password id password hp).1, fun r hr => (hk.password id password hp).2 r (hrobots r hr)⟩

/-! What the pass itself requests keeps most of it. -/

section Requests

variable {call : HarborCall} (hk : Sees c k h) (he : h.Effect call h')

include hk he

theorem shown_effect {robot : Robot} (hmem : robot ∈ k.shown)
    (hupdate : ∀ body, call ≠ .updateRobot robot.id body) :
    robot.id < h'.nextId ∧ ∀ r ∈ h'.robots, r.id = robot.id →
      r.description = robot.description ∧ r.disable = robot.disabled ∧
        h'.wireName r = robot.wireName := by
  have hlt := (hk.shown robot hmem).1
  refine ⟨hlt.trans_le he.nextId_le, fun s hs hid => ?_⟩
  rcases he.mem hs with ⟨r, hr, hrs, hname, hedit, hcase⟩ | ⟨body, -, hnew, -⟩
  · obtain ⟨hdesc, hdisable, hwire⟩ := (hk.shown robot hmem).2 r hr (hrs.trans hid)
    have hwire' : h'.wireName s = h.wireName r := by
      unfold Harbor.wireName
      rw [he.robotNamePrefix, ← hname, ← hedit]
    rcases hcase with ⟨hdesc', hdisable'⟩ | ⟨body, hcall, -⟩
    · rw [hdesc', hdisable', hwire']
      exact ⟨hdesc, hdisable, hwire⟩
    · rw [hid] at hcall
      exact absurd hcall (hupdate body)
  · omega

theorem deleted_effect {id : Int} (hid : id ∈ k.deleted) :
    id < h'.nextId ∧ ∀ r ∈ h'.robots, r.id ≠ id := by
  obtain ⟨hlt, hgone⟩ := hk.deleted id hid
  refine ⟨hlt.trans_le he.nextId_le, fun s hs hsid => ?_⟩
  rcases he.mem hs with ⟨r, hr, hrs, -⟩ | ⟨body, -, hnew, -⟩
  · exact hgone r hr (hrs.trans hsid)
  · omega

theorem created_effect {id : Int} (hid : k.created = some id) : 0 < id ∧ id < h'.nextId :=
  ⟨(hk.created id hid).1, (hk.created id hid).2.trans_le he.nextId_le⟩

theorem password_effect {id : Int} {password : GoString} (hp : k.password = some (id, password))
    (hrefresh : call ≠ .refreshSec id) :
    (0 < id ∧ id < h'.nextId) ∧ ∀ r ∈ h'.robots, r.id = id → r.password = password := by
  obtain ⟨⟨hpos, hlt⟩, hsame⟩ := hk.password id password hp
  refine ⟨⟨hpos, hlt.trans_le he.nextId_le⟩, fun s hs hsid => ?_⟩
  rcases he.password hs with ⟨r, hr, hrs, -, hrp | hcall⟩ | ⟨body, -, hnew⟩
  · rw [hrp]
    exact hsame r hr (hrs.trans hsid)
  · rw [hsid] at hcall
    exact absurd hcall hrefresh
  · omega

end Requests

/-- A robot that the pass deletes has an id that Harbor gave out. -/
theorem id_lt_of_deletesRobot (hk : Sees c k h) {id : Int} (hallowed : k.DeletesRobot c id) :
    id < h.nextId := by
  cases hallowed with
  | created hid => exact (hk.created id hid).2
  | owned ha robot hcopy hid hmem howned => exact hid ▸ (hk.shown robot hmem).1

theorem learnHarbor (hk : Sees c k h) {call : HarborCall} (hallowed : k.AllowsHarbor c call)
    {r : HarborAnswer call} (hf : h.Faulty call r h') : Sees c (k.learnHarbor c call r) h' := by
  have he := hf.effect
  cases call with
  | listRobot filter idFrom =>
    match r with
    | Except.error e =>
      exact ⟨hk.walk, fun robot hmem => hk.shown_effect he hmem nofun, hk.covers.effect he nofun nofun,
        fun id hid => hk.deleted_effect he hid, fun id hid => hk.created_effect he hid,
        fun id password hp => hk.password_effect he hp nofun⟩
    | Except.ok payload =>
      obtain ⟨rfl, hsame⟩ := hf.of_listRobot
      subst hsame
      refine ⟨fun robot hmem => List.mem_append_left _ hmem, fun robot hmem => ?_,
        hk.covers.readPage filter idFrom, hk.deleted, hk.created, hk.password⟩
      have hold : robot ∈ k.shown ∨ ∃ x ∈ (h'.page filter idFrom).filterMap id,
          fromHarborRobot c.harborRobotPrefix x = some robot := by
        rcases List.mem_append.mp hmem with hmem | hmem
        · exact (Walk.mem_readPage hmem).imp_left (hk.walk robot)
        · exact .inl hmem
      rcases hold with hold | ⟨x, hx, hfrom⟩
      · exact hk.shown robot hold
      · obtain ⟨r, hr, -, rfl⟩ := h'.page_report _ _ x hx
        obtain ⟨hid, hwire, hdesc, hdisabled, -⟩ := fromHarborRobot_some _ _ _ hfrom
        refine ⟨hid ▸ (h'.bounds r hr).2, fun s hs hsid => ?_⟩
        rw [Harbor.eq_of_id hs hr (hsid.trans hid)]
        exact ⟨hdesc.symm, hdisabled.symm, hwire.symm⟩
  | createRobot body =>
    have hshown : ∀ robot ∈ k.shown, _ := fun robot hmem => hk.shown_effect he hmem nofun
    match r with
    | Except.error e =>
      exact ⟨nofun, hshown, Walk.covers_none c none h', fun id hid => hk.deleted_effect he hid,
        fun id hid => hk.created_effect he hid, fun id password hp => hk.password_effect he hp nofun⟩
    | Except.ok none =>
      exact ⟨nofun, hshown, Walk.covers_none c none h', fun id hid => hk.deleted_effect he hid,
        fun id hid => hk.created_effect he hid, fun id password hp => hk.password_effect he hp nofun⟩
    | Except.ok (some payload) =>
      obtain ⟨hlt, hpid, -, rfl⟩ := hf.of_createRobot
      have hnew : payload.id < (h.create body payload.secret hlt).nextId := by
        rw [hpid]
        exact Int.lt_succ _
      refine ⟨nofun, hshown, Walk.covers_none c none _, fun id hid => hk.deleted_effect he hid, ?_, ?_⟩
      · intro id hid
        obtain rfl := Option.some.inj hid
        have hpos := h.nextId_pos
        exact ⟨by omega, hnew⟩
      · intro id password hp
        obtain ⟨rfl, rfl⟩ := Prod.mk.inj (Option.some.inj hp)
        have hpos := h.nextId_pos
        refine ⟨⟨by omega, hnew⟩, fun s hs hsid => ?_⟩
        rcases (Harbor.mem_create hlt).mp hs with hs | rfl
        · have hbound := (h.bounds s hs).2
          omega
        · rfl
  | updateRobot id body =>
    match r with
    | Except.error e =>
      refine ⟨nofun, fun robot hmem => ?_, Walk.covers_none c none h',
        fun id hid => hk.deleted_effect he hid, fun id hid => hk.created_effect he hid,
        fun id password hp => hk.password_effect he hp nofun⟩
      obtain ⟨hmem, hne⟩ := List.mem_filter.mp hmem
      refine hk.shown_effect he hmem fun body' hcall => ?_
      cases hcall
      exact of_decide_eq_true hne rfl
    | Except.ok () =>
      refine ⟨nofun, fun robot hmem => ?_, Walk.covers_none c none h',
        fun id hid => hk.deleted_effect he hid, fun id hid => hk.created_effect he hid,
        fun id password hp => hk.password_effect he hp nofun⟩
      obtain rfl := hf.of_updateRobot
      obtain ⟨robot, hold, rfl⟩ := List.mem_map.mp hmem
      split_ifs with hid
      · refine ⟨(hk.shown robot hold).1, fun s hs hsid => ?_⟩
        obtain ⟨r, hr, hrs, rfl⟩ := Harbor.mem_update hs
        have hrid : r.id = robot.id := hrs.trans hsid
        rw [if_pos (hrid.trans hid)]
        exact ⟨rfl, rfl, ((hk.shown robot hold).2 r hr hrid).2.2⟩
      · exact hk.shown_effect he hold fun body' hcall => hid (by cases hcall; rfl)
  | refreshSec id =>
    have hshown : ∀ robot ∈ k.shown, _ := fun robot hmem => hk.shown_effect he hmem nofun
    match r with
    | Except.error e =>
      exact ⟨hk.walk, hshown, hk.covers.effect he nofun nofun, fun id hid => hk.deleted_effect he hid,
        fun id hid => hk.created_effect he hid, nofun⟩
    | Except.ok none =>
      exact ⟨hk.walk, hshown, hk.covers.effect he nofun nofun, fun id hid => hk.deleted_effect he hid,
        fun id hid => hk.created_effect he hid, nofun⟩
    | Except.ok (some password) =>
      refine ⟨hk.walk, hshown, hk.covers.effect he nofun nofun,
        fun id hid => hk.deleted_effect he hid, fun id hid => hk.created_effect he hid, ?_⟩
      intro id' password' hp
      obtain ⟨rfl, rfl⟩ := Prod.mk.inj (Option.some.inj hp)
      obtain ⟨-, ⟨r, hr, hrid⟩, rfl⟩ := hf.of_refreshSec
      refine ⟨hrid ▸ h.bounds r hr, fun s hs hsid => ?_⟩
      obtain ⟨x, hx, hxs, rfl⟩ := Harbor.mem_refresh hs
      rw [if_pos (hxs.trans hsid)]
  | deleteRobot id =>
    have hkeep : Sees c k h' :=
      ⟨hk.walk, fun robot hmem => hk.shown_effect he hmem nofun, hk.covers.effect he nofun nofun,
        fun id hid => hk.deleted_effect he hid, fun id hid => hk.created_effect he hid,
        fun id password hp => hk.password_effect he hp nofun⟩
    have hgone : (∀ s ∈ h'.robots, s.id ≠ id) → ∀ id' ∈ id :: k.deleted,
        id' < h'.nextId ∧ ∀ s ∈ h'.robots, s.id ≠ id' := by
      intro hgone id' hid'
      rcases List.mem_cons.mp hid' with rfl | hid'
      · exact ⟨(hk.id_lt_of_deletesRobot hallowed).trans_le he.nextId_le, hgone⟩
      · exact hkeep.deleted id' hid'
    match r with
    | Except.ok () =>
      exact ⟨hkeep.walk, hkeep.shown, hkeep.covers, hgone (hf.of_deleteRobot (.inl rfl)),
        hkeep.created, hkeep.password⟩
    | Except.error e =>
      unfold PassKnows.learnHarbor
      dsimp only
      split_ifs with hmissing
      · exact ⟨hkeep.walk, hkeep.shown, hkeep.covers,
          hgone (hf.of_deleteRobot (.inr ⟨e, rfl, hmissing⟩)), hkeep.created, hkeep.password⟩
      · exact hkeep

theorem learn_kube (hk : Sees c k h) {call : Call} (hcall : ∀ request, call ≠ .harbor request)
    (r : Answer call) : Sees c (k.learn c call r) h := by
  obtain ⟨-, hwalk, hshown, hdeleted, hcreated, hpassword⟩ := k.learn_kube (c := c) hcall r
  constructor
  · rw [hwalk, hshown]
    exact hk.walk
  · rw [hshown]
    exact hk.shown
  · rw [hwalk]
    exact hk.covers
  · rw [hdeleted]
    exact hk.deleted
  · rw [hcreated]
    exact hk.created
  · rw [hpassword]
    exact hk.password

end Sees

end HarborBridge
