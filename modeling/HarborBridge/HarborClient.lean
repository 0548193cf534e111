import HarborBridge.HarborSeen

/-! What the Harbor client does to a Harbor that nobody else changes. -/
namespace HarborBridge

open GoStrings Interaction

namespace Harbor

def faulty (may : HarborCall → Prop) : Setting HarborCall HarborAnswer Harbor where
  sem h call r h' := h.Faulty call r h'
  may _ call := may call

def serving (may : HarborCall → Prop) : Setting HarborCall HarborAnswer Harbor where
  sem h call r h' := h.Serves call r h'
  may _ call := may call

theorem wp_serving {may : HarborCall → Prop} {α : Type} {p : HarborProg α} {Q : α → Harbor → Prop}
    {h : Harbor} (hp : p.Wp (faulty may) Q h) : p.Wp (serving may) Q h :=
  Prog.wp_weaken (S := serving may) (T := faulty may) (fun _ _ hm => hm)
    (fun _ e r h' hs => .served e r h' hs) hp

def Views (c : Config) (h : Harbor) (r : StoredRobot) (robot : Robot) : Prop :=
  r ∈ h.robots ∧ fromHarborRobot c.harborRobotPrefix (h.report r) = some robot

/-- A listing shows every robot that matches, and no others, in the order of their ids. -/
structure Listed (c : Config) (h : Harbor) (filter : Option GoString) (robots : List Robot) :
    Prop where
  all : ∀ r ∈ h.robots, h.matching filter r = true → ∃ robot ∈ robots, h.Views c r robot
  only : ∀ robot ∈ robots, ∃ r, h.Views c r robot ∧ h.matching filter r = true
  sorted : robots.Pairwise fun robot robot' => robot.id < robot'.id

variable {c : Config} {h : Harbor} {r r' : StoredRobot} {robot robot' : Robot}

theorem Views.id (hv : h.Views c r robot) : robot.id = r.id := (fromHarborRobot_some _ _ _ hv.2).1

/-- An id belongs to one robot, which the client reads in one way. -/
theorem Views.unique (hv : h.Views c r robot) (hv' : h.Views c r' robot')
    (hid : robot.id = robot'.id) : r = r' ∧ robot = robot' := by
  rw [hv.id, hv'.id] at hid
  obtain rfl := eq_of_id hv.1 hv'.1 hid
  exact ⟨rfl, Option.some.inj (hv.2.symm.trans hv'.2)⟩

/-- The robot that a lookup of the name finds: of those that the filter lets through the one
with the least id, or else of all. -/
structure Chosen (c : Config) (h : Harbor) (name : GoString) (r : StoredRobot) (robot : Robot) :
    Prop where
  views : h.Views c r robot
  named : robot.name = name
  first : ∀ r' robot', h.Views c r' robot' → robot'.name = name →
    (h.matching (some name) r' = true → h.matching (some name) r = true ∧ r.id ≤ r'.id) ∧
    (h.matching (some name) r = false → r.id ≤ r'.id)

theorem Chosen.unique {name : GoString} (hr : h.Chosen c name r robot)
    (hr' : h.Chosen c name r' robot') : r = r' ∧ robot = robot' := by
  have hid : r.id = r'.id := by
    have hfirst := hr.first r' robot' hr'.views hr'.named
    have hfirst' := hr'.first r robot hr.views hr.named
    cases hm : h.matching (some name) r with
    | true =>
      obtain ⟨hm', hle'⟩ := hfirst'.1 hm
      exact le_antisymm (hfirst.1 hm').2 hle'
    | false =>
      cases hm' : h.matching (some name) r' with
      | true =>
        have hboth := (hfirst.1 hm').1
        rw [hm] at hboth
        cases hboth
      | false => exact le_antisymm (hfirst.2 hm) (hfirst'.2 hm')
  exact hr.views.unique hr'.views (by rw [hr.views.id, hr'.views.id, hid])

end Harbor

namespace Client

variable {c : Config} {may : HarborCall → Prop} (h : Harbor)

theorem wp_list_faulty (hmay : ∀ filter idFrom, may (.listRobot filter idFrom))
    (filter : Option GoString) : (list c.harborRobotPrefix filter).Wp (Harbor.faulty may)
      (fun res h' => h' = h ∧ (∀ robots, res = .ok robots → h.Listed c filter robots) ∧
        res ≠ .error .robotNotFound) h := by
  refine Prog.wp_mono (fun res h' hres => ⟨hres.1, fun robots hok => ?_, hres.2.2⟩) _ _
    (wp_pages c.harborRobotPrefix (· = h) (fun cursor out h =>
      Walk.Covers c ⟨filter, cursor, out, false⟩ h ∧
      (∀ robot ∈ out, (∃ r, h.Views c r robot ∧ h.matching filter r = true) ∧ robot.id ≤ cursor) ∧
      out.Pairwise fun robot robot' => robot.id < robot'.id)
      (fun robots h => h.Listed c filter robots) (fun _ _ => hmay filter _) ?_ ?_ maxPages 0 [] h rfl
      ⟨Walk.covers_none c filter h, nofun, .nil⟩)
  · intro h₁ idFrom r h' heq hf
    have he := Harbor.Faulty.effect (show h₁.Faulty _ r h' from hf)
    cases he
    exact heq
  · intro cursor out h₁ payload h' cursor' out' _ hI hf htake
    obtain ⟨hcovers, hout, hsorted⟩ := hI
    have hf : h₁.Faulty (.listRobot filter (int64 (cursor + 1))) (Except.ok payload) h' := hf
    obtain ⟨rfl, rfl⟩ := hf.of_listRobot
    have hnext := hcovers.readPage filter (int64 (cursor + 1))
    rw [(Walk.ready_of_eq rfl : Walk.Ready ⟨filter, cursor, out, false⟩ filter cursor out).readPage,
      htake] at hnext
    obtain ⟨new, rfl, hall, hinc, hlast⟩ := takePage_ok c.harborRobotPrefix _ _ _ _ _ htake
    have hids := forall₂_id c.harborRobotPrefix _ _ hall
    rw [← hids] at hinc hlast
    have hsorted' : (out ++ new).Pairwise fun robot robot' => robot.id < robot'.id := by
      refine List.pairwise_append.mpr ⟨hsorted, List.pairwise_map.mp hinc.tail,
        fun robot hr robot' hr' => (hout robot hr).2.trans_lt ?_⟩
      exact List.rel_of_pairwise_cons hinc (List.mem_map_of_mem hr')
    have hout' : ∀ robot ∈ out ++ new,
        (∃ r, h'.Views c r robot ∧ h'.matching filter r = true) ∧ robot.id ≤ cursor' := by
      intro robot hr
      rw [hlast]
      rcases List.mem_append.mp hr with hr | hr
      · obtain ⟨hview, hle⟩ := hout robot hr
        exact ⟨hview, hle.trans (le_getLastD cursor _ hinc cursor List.mem_cons_self)⟩
      · obtain ⟨x, hx, hfrom⟩ := forall₂_mem c.harborRobotPrefix _ _ hall robot hr
        obtain ⟨r, hr', hm, rfl⟩ := h'.page_report _ _ x hx
        exact ⟨⟨r, ⟨hr', hfrom⟩, hm⟩,
          le_getLastD cursor _ hinc _ (List.mem_cons_of_mem _ (List.mem_map_of_mem hr))⟩
    refine ⟨fun hshort => ⟨fun r hr hm => ?_, fun robot hr => (hout' robot hr).1, hsorted'⟩,
      fun hfull => ⟨?_, hout', hsorted'⟩⟩
    · rw [decide_eq_true hshort] at hnext
      obtain ⟨robot, hmem, hfrom⟩ := hnext.2 r hr hm (.inl rfl)
      exact ⟨robot, hmem, hr, hfrom⟩
    · rwa [decide_eq_false (not_lt.mpr hfull)] at hnext
  · exact hres.1 ▸ hres.2.1 robots hok

theorem wp_checkSuffixHit_faulty (hmay : ∀ filter idFrom, may (.listRobot filter idFrom))
    (name : GoString) (robots : List Robot) :
    (checkSuffixHit c.harborRobotPrefix name robots).Wp (Harbor.faulty may)
      (fun res h' => h' = h ∧ res ≠ some .robotNotFound) h := by
  induction robots with
  | nil => exact ⟨rfl, fun h => by cases h⟩
  | cons r robots ih =>
    unfold checkSuffixHit
    split_ifs
    · exact ih
    · refine Prog.wp_seq (wp_list_faulty h hmay (some r.name)) fun res h' hl => ?_
      obtain ⟨rfl, -, herr⟩ := hl
      cases res with
      | error e => exact ⟨rfl, fun hnot => herr (congrArg _ (Option.some.inj hnot))⟩
      | ok again =>
        dsimp only
        split_ifs <;> exact ⟨rfl, fun h => by cases h⟩

theorem matchName_listed {filter : Option GoString} {robots : List Robot} {name : GoString}
    {robot : Robot} (hl : h.Listed c filter robots) (hmatch : matchName robots name = some robot) :
    robot.name = name ∧ ∃ r, h.Views c r robot ∧ h.matching filter r = true ∧
      ∀ r' robot', h.Views c r' robot' → h.matching filter r' = true → robot'.name = name →
        r.id ≤ r'.id := by
  obtain ⟨hmem, hname⟩ := matchName_eq_some robots name robot hmatch
  obtain ⟨r, hv, hm⟩ := hl.only robot hmem
  refine ⟨hname, r, hv, hm, fun r' robot' hv' hm' hname' => ?_⟩
  obtain ⟨shown, hshown, hvshown⟩ := hl.all r' hv'.1 hm'
  obtain rfl := Option.some.inj (hv'.2.symm.trans hvshown.2)
  obtain ⟨-, before, after, hsplit, hbefore⟩ := List.find?_eq_some_iff_append.mp hmatch
  rw [← hv.id, ← hv'.id]
  have hsorted := hl.sorted
  rw [hsplit] at hshown hsorted
  rcases List.mem_append.mp hshown with hearly | hlate
  · have hnot := hbefore robot' hearly
    rw [decide_eq_true hname'] at hnot
    cases hnot
  · rcases List.mem_cons.mp hlate with rfl | hlate
    · exact le_rfl
    · exact (List.rel_of_pairwise_cons (List.pairwise_append.mp hsorted).2.1 hlate).le

theorem matchName_eq_none {filter : Option GoString} {robots : List Robot} {name : GoString}
    (hl : h.Listed c filter robots) (hmatch : matchName robots name = none) (r : StoredRobot)
    (robot : Robot) (hv : h.Views c r robot) (hm : h.matching filter r = true) :
    robot.name ≠ name := by
  obtain ⟨robot', hmem, hv'⟩ := hl.all r hv.1 hm
  obtain rfl := Option.some.inj (hv.2.symm.trans hv'.2)
  exact fun hname => List.find?_eq_none.mp hmatch robot hmem (decide_eq_true hname)

/-- A lookup finds a robot of the name, always the same one, or there is none. -/
theorem wp_getByName_faulty (hmay : ∀ filter idFrom, may (.listRobot filter idFrom))
    (name : GoString) : (getByName c.harborRobotPrefix name).Wp (Harbor.faulty may)
      (fun res h' => h' = h ∧ (∀ robot, res = .ok robot → ∃ r, h.Chosen c name r robot) ∧
        (res = .error .robotNotFound → ∀ r robot, h.Views c r robot → robot.name ≠ name)) h := by
  refine Prog.wp_seq (wp_list_faulty h hmay (some name)) fun res h₁ h₁' => ?_
  obtain ⟨rfl, hok₁, herr₁⟩ := h₁'
  cases res with
  | error e => exact ⟨rfl, nofun, fun hnot => absurd (congrArg _ (Except.error.inj hnot)) herr₁⟩
  | ok robots =>
    have hl := hok₁ robots rfl
    dsimp only
    cases hmatch : matchName robots name with
    | some robot =>
      refine ⟨rfl, fun robot' hres => ?_, nofun⟩
      obtain rfl := Except.ok.inj hres
      obtain ⟨hname, r, hv, hm, hfirst⟩ := matchName_listed h₁ hl hmatch
      refine ⟨r, hv, hname, fun r' robot' hv' hname' => ⟨fun hm' => ?_, fun hnot => ?_⟩⟩
      · exact ⟨hm, hfirst r' robot' hv' hm' hname'⟩
      · rw [hm] at hnot
        cases hnot
    | none =>
      have hnone := matchName_eq_none h₁ hl hmatch
      refine Prog.wp_seq (wp_checkSuffixHit_faulty h₁ hmay name robots) fun res h₂ h₂' => ?_
      obtain ⟨rfl, herr₂⟩ := h₂'
      cases res with
      | some e =>
        exact ⟨rfl, nofun, fun hnot => absurd (congrArg some (Except.error.inj hnot)) herr₂⟩
      | none =>
        refine Prog.wp_seq (wp_list_faulty h₂ hmay none) fun res h₃ h₃' => ?_
        obtain ⟨rfl, hok₃, herr₃⟩ := h₃'
        cases res with
        | error e => exact ⟨rfl, nofun, fun hnot => absurd (congrArg _ (Except.error.inj hnot)) herr₃⟩
        | ok robots =>
          have hl := hok₃ robots rfl
          dsimp only
          cases hmatch : matchName robots name with
          | some robot =>
            refine ⟨rfl, fun robot' hres => ?_, nofun⟩
            obtain rfl := Except.ok.inj hres
            obtain ⟨hname, r, hv, -, hfirst⟩ := matchName_listed h₃ hl hmatch
            refine ⟨r, hv, hname, fun r' robot' hv' hname' => ⟨fun hm' => ?_, fun _ => ?_⟩⟩
            · exact absurd hname' (hnone r' robot' hv' hm')
            · exact hfirst r' robot' hv' rfl hname'
          | none => exact ⟨rfl, nofun, fun _ r robot hv => matchName_eq_none h₃ hl hmatch r robot hv rfl⟩

/-! ## Writes -/

def updateBody (current : Robot) (description : GoString) (perms : List ProjectPermission) :
    RobotUpdate :=
  ⟨current.id, current.wireName, description, robotDurationNeverExpires, current.disabled,
    toHarborPermissions perms⟩

theorem wp_update_faulty (current : Robot) (description : GoString) (perms : List ProjectPermission)
    (hmay : may (.updateRobot current.id (updateBody current description perms))) :
    (update current description perms).Wp (Harbor.faulty may)
      (fun res h' => res = .ok () → h' = h.update current.id (updateBody current description perms))
      h := by
  unfold update
  split_ifs
  · nofun
  · nofun
  · simp only [Sdk.updateRobot_bind]
    refine ⟨hmay, fun r h' hf => ?_⟩
    match r with
    | Except.error e => nofun
    | Except.ok () => exact fun _ => Harbor.Faulty.of_updateRobot hf

theorem wp_refreshSecret_faulty (id : Int) (hmay : may (.refreshSec id)) :
    (refreshSecret id).Wp (Harbor.faulty may) (fun res h' => ∀ password, res = .ok password →
      password ≠ [] ∧ (∃ r ∈ h.robots, r.id = id) ∧ h' = h.refresh id password) h := by
  simp only [refreshSecret, Sdk.refreshSec_bind]
  refine ⟨hmay, fun r h' hf => ?_⟩
  rcases r with e | _ | password
  · exact fun _ h => by cases h
  · exact fun _ h => by cases h
  · dsimp only
    split_ifs with hempty
    · exact fun _ h => by cases h
    · intro password' hres
      obtain rfl := Except.ok.inj hres
      obtain ⟨-, hr, rfl⟩ := Harbor.Faulty.of_refreshSec hf
      exact ⟨hempty, hr, rfl⟩

end Client

theorem Harbor.delete_of_absent {h : Harbor} {id : Int} (habsent : ∀ r ∈ h.robots, r.id ≠ id) :
    h.delete id = h := by
  have hrobots : (h.robots.filter fun r => r.id ≠ id) = h.robots :=
    List.filter_eq_self.mpr fun r hr => decide_eq_true (habsent r hr)
  obtain ⟨robotNamePrefix, honoursFilter, robots, nextId, issued⟩ := h
  unfold Harbor.delete
  simp only at hrobots ⊢
  congr

namespace Client

variable {c : Config} {may : HarborCall → Prop} (h : Harbor)

theorem wp_delete_faulty (id : Int) (hmay : may (.deleteRobot id)) :
    (delete id).Wp (Harbor.faulty may) (fun res h' => res = .ok () → h' = h.delete id) h := by
  simp only [delete, Sdk.deleteRobot_bind]
  refine ⟨hmay, fun r h' hf => ?_⟩
  have hf : h.Faulty (.deleteRobot id) r h' := hf
  -- whether it was there or not, the robot is gone
  have hdeleted : (∀ s ∈ h'.robots, s.id ≠ id) → h' = h.delete id := by
    intro hgone
    have he := hf.effect
    cases he with
    | none => exact (Harbor.delete_of_absent hgone).symm
    | deleted => rfl
  cases r with
  | ok _ => exact fun _ => hdeleted (hf.of_deleteRobot (.inl rfl))
  | error e =>
    dsimp only
    split_ifs with hmissing
    · exact fun _ => hdeleted (hf.of_deleteRobot (.inr ⟨e, rfl, hmissing⟩))
    · exact fun h => by cases h

theorem wp_delete_serving (id : Int) (hmay : may (.deleteRobot id)) :
    (delete id).Wp (Harbor.serving may) (fun _ h' => h' = h.delete id) h := by
  simp only [delete, Sdk.deleteRobot_bind]
  refine ⟨hmay, fun r h' hs => ?_⟩
  have hs : h.Serves (.deleteRobot id) r h' := hs
  cases hs with
  | deleteRobot id hr => rfl
  | deleteRobotMissing id hr => exact (Harbor.delete_of_absent hr).symm

/-- The robot that a creation returns is there, with the password and what was sent. Its name
is what Harbor's prefix makes of it, and that is the configured name or the name itself. -/
theorem wp_create_faulty (name description : GoString) (perms : List ProjectPermission)
    (hmay : may (.createRobot
      ⟨name, description, robotDurationNeverExpires, toHarborPermissions perms⟩))
    (hdelete : ∀ id, may (.deleteRobot id)) (hname : name ≠ []) :
    (create c.harborRobotPrefix name description perms).Wp (Harbor.faulty may)
      (fun res h' => ∀ robot, res = .ok robot → ∃ hid,
        h' = h.create ⟨name, description, robotDurationNeverExpires, toHarborPermissions perms⟩
          robot.secret hid ∧ robot.id = h.nextId ∧ robot.name = name ∧
        robot.wireName = c.harborRobotPrefix ++ name ∧ robot.secret ≠ [] ∧ robot.disabled = false ∧
        (h.robotNamePrefix = [] ∨ h.robotNamePrefix = c.harborRobotPrefix)) h := by
  unfold create
  split_ifs with hvalid
  · exact fun _ h => by cases h
  · simp only [Sdk.createRobot_bind]
    refine ⟨hmay, fun r h' hf => ?_⟩
    have hf : h.Faulty (.createRobot _) r h' := hf
    rcases r with e | _ | payload
    · exact fun _ h => by cases h
    · exact fun _ h => by cases h
    · dsimp only
      split_ifs with hsecret hexpected
      · exact fun _ h => by cases h
      · intro robot hres
        obtain rfl := Except.ok.inj hres
        obtain ⟨hid, hpid, -, hh'⟩ := hf.of_createRobot
        have hwire := hf.name_of_createRobot
        refine ⟨hid, hh', hpid, rfl, rfl, hsecret, rfl, ?_⟩
        rw [hwire] at hexpected
        dsimp only at hexpected
        rcases hexpected with hnil | hplain | hprefixed
        · exact absurd (List.append_eq_nil_iff.mp hnil).2 hname
        · exact .inl (List.append_left_eq_self.mp hplain)
        · exact .inr (List.append_cancel_right hprefixed)
      · refine Prog.wp_seq (P := fun _ _ => True) (Prog.wp_mono (fun _ _ _ => trivial) _ _
          (wp_delete_faulty h' payload.id (hdelete _))) fun res _ _ => ?_
        cases res <;> exact fun _ h => by cases h

theorem wp_create_taken (name description : GoString) (perms : List ProjectPermission)
    (hmay : may (.createRobot
      ⟨name, description, robotDurationNeverExpires, toHarborPermissions perms⟩))
    (hdelete : ∀ id, may (.deleteRobot id)) :
    (create c.harborRobotPrefix name description perms).Wp (Harbor.serving may)
      (fun res h' => ∀ e, res = .error e → e.isAlreadyExists = true → h' = h) h := by
  unfold create
  split_ifs with hvalid
  · exact fun _ _ _ => rfl
  · simp only [Sdk.createRobot_bind]
    refine ⟨hmay, fun r h' hs => ?_⟩
    have hserves : h.Serves (.createRobot _) r h' := hs
    cases hserves with
    | createRobotTaken => exact fun _ _ _ => rfl
    | createRobot body password hid hname hp =>
      dsimp only
      split_ifs
      · intro e he hexists
        obtain rfl := Except.error.inj he
        cases hexists
      · exact fun _ h => by cases h
      · refine Prog.wp_seq (P := fun res _ => res = .ok ()) ?_ fun res h'' hres => ?_
        · simp only [delete, Sdk.deleteRobot_bind]
          refine ⟨hdelete _, fun r h'' hs => ?_⟩
          have hserves : Harbor.Serves _ (.deleteRobot _) r h'' := hs
          cases hserves <;> rfl
        · subst hres
          intro e he hexists
          obtain rfl := Except.error.inj he
          cases hexists

end Client

end HarborBridge
