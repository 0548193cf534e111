import Mathlib.Data.Prod.Lex
import HarborBridge.Robots

/-! Grants: what is written to Harbor is read back as the same grants. -/
namespace HarborBridge

open GoStrings

def Grants (perms : List ProjectPermission) (project action : GoString) : Prop :=
  ∃ p ∈ perms, p.project = project ∧ action ∈ entryActions p

def CrdAction (action : GoString) : Prop :=
  action = lit "pull" ∨ action = lit "push" ∨ action = lit "pull,push"

def CrdPermissions (perms : List ProjectPermission) : Prop := ∀ p ∈ perms, CrdAction p.action

instance (action : GoString) : Decidable (CrdAction action) := inferInstanceAs (Decidable (_ ∨ _))

instance (perms : List ProjectPermission) : Decidable (CrdPermissions perms) :=
  inferInstanceAs (Decidable (∀ p ∈ perms, CrdAction p.action))

/-! ## The canonical order -/

/-- The place of an action: pull, push, and then the others by name. -/
def actionKey (a : GoString) : ℕ ×ₗ GoString :=
  toLex (if a = lit "pull" then (0, []) else if a = lit "push" then (1, []) else (2, a))

theorem actionRank_iff (a b : GoString) : actionRank a b = true ↔ actionKey a < actionKey b := by
  unfold actionRank actionKey
  dsimp only
  split_ifs <;> simp_all [Prod.Lex.lt_iff]

theorem actionRank_eq_false (a b : GoString) :
    actionRank b a = false ↔ actionKey a ≤ actionKey b := by
  rw [← not_lt, ← actionRank_iff, Bool.not_eq_true]

theorem actionKey_injective : Function.Injective actionKey := by
  intro a b h
  unfold actionKey at h
  have h := toLex.injective h
  split_ifs at h with ha hb ha' hb' <;> simp_all

instance : Std.Total fun a b : GoString => actionRank b a = false :=
  ⟨fun a b => by simpa only [actionRank_eq_false] using le_total (actionKey a) (actionKey b)⟩

instance : IsTrans GoString fun a b => actionRank b a = false :=
  ⟨fun a b c => by simpa only [actionRank_eq_false] using fun h h' => le_trans h h'⟩

instance : Std.Antisymm fun a b : GoString => actionRank b a = false :=
  ⟨fun a b hab hba => actionKey_injective (le_antisymm ((actionRank_eq_false a b).mp hab)
    ((actionRank_eq_false b a).mp hba))⟩

/-- A sorted list without duplicates is known from its members. -/
theorem insertionSort_dedup_congr {α : Type} [DecidableEq α] (r : α → α → Prop) [DecidableRel r]
    [Std.Total r] [IsTrans α r] [Std.Antisymm r] {xs ys : List α} (h : ∀ x, x ∈ xs ↔ x ∈ ys) :
    xs.dedup.insertionSort r = ys.dedup.insertionSort r := by
  refine List.Perm.eq_of_pairwise' (List.pairwise_insertionSort r _)
    (List.pairwise_insertionSort r _) ?_
  have hperm : xs.dedup.Perm ys.dedup :=
    (List.perm_ext_iff_of_nodup (List.nodup_dedup _) (List.nodup_dedup _)).mpr
      fun x => by rw [List.mem_dedup, List.mem_dedup, h]
  exact ((List.perm_insertionSort r _).trans hperm).trans (List.perm_insertionSort r _).symm

theorem mem_projectActions {perms : List ProjectPermission} {project action : GoString} :
    action ∈ projectActions perms project ↔ Grants perms project action := by
  simp [projectActions, Grants, List.mem_insertionSort, List.mem_flatMap, and_assoc]

/-- The projects and the grants determine the canonical form. -/
theorem normalizePermissions_congr {perms perms' : List ProjectPermission}
    (hprojects : ∀ project, project ∈ perms.map (·.project) ↔ project ∈ perms'.map (·.project))
    (hgrants : ∀ project action, Grants perms project action ↔ Grants perms' project action) :
    normalizePermissions perms = normalizePermissions perms' := by
  unfold normalizePermissions
  rw [insertionSort_dedup_congr _ hprojects]
  refine List.map_congr_left fun project _ => ?_
  have hactions : projectActions perms project = projectActions perms' project := by
    refine insertionSort_dedup_congr _ fun action => ?_
    have h := hgrants project action
    simpa [Grants, List.mem_flatMap, and_assoc] using h
  rw [hactions]

theorem mem_normalizePermissions {perms : List ProjectPermission} {p : ProjectPermission} :
    p ∈ normalizePermissions perms ↔ p.project ∈ perms.map (·.project) ∧
      p.action = join (projectActions perms p.project) 44 := by
  unfold normalizePermissions
  rw [List.mem_map]
  constructor
  · rintro ⟨project, hproject, rfl⟩
    rw [List.mem_insertionSort, List.mem_dedup] at hproject
    exact ⟨hproject, rfl⟩
  · rintro ⟨hproject, haction⟩
    refine ⟨p.project, ?_, ?_⟩
    · rw [List.mem_insertionSort, List.mem_dedup]
      exact hproject
    · rw [← haction]

theorem projects_normalizePermissions {perms : List ProjectPermission} {project : GoString} :
    project ∈ (normalizePermissions perms).map (·.project) ↔ project ∈ perms.map (·.project) := by
  rw [List.mem_map]
  constructor
  · rintro ⟨p, hp, rfl⟩
    exact (mem_normalizePermissions.mp hp).1
  · intro h
    exact ⟨⟨project, join (projectActions perms project) 44⟩, mem_normalizePermissions.mpr ⟨h, rfl⟩, rfl⟩

/-! ## Actions between commas -/

def Plain (action : GoString) : Prop := Trimmed action ∧ 44 ∉ action ∧ action ≠ []

theorem plain_of_mem_entryActions {p : ProjectPermission} {action : GoString}
    (h : action ∈ entryActions p) : Plain action := by
  obtain ⟨hmem, hne⟩ := List.mem_filter.mp h
  obtain ⟨part, hpart, rfl⟩ := List.mem_map.mp hmem
  refine ⟨trimSpace_trimSpace part, fun hcomma => ?_, of_decide_eq_true hne⟩
  exact not_mem_of_mem_split _ _ _ hpart (mem_of_mem_trimSpace _ _ hcomma)

theorem plain_of_grants {perms : List ProjectPermission} {project action : GoString}
    (h : Grants perms project action) : Plain action := by
  obtain ⟨p, -, -, haction⟩ := h
  exact plain_of_mem_entryActions haction

theorem plain_of_mem_projectActions {perms : List ProjectPermission} {project : GoString} :
    ∀ a ∈ projectActions perms project, Plain a :=
  fun _ ha => plain_of_grants (mem_projectActions.mp ha)

theorem split_join (actions : List GoString) (h : ∀ a ∈ actions, Plain a) (hne : actions ≠ []) :
    split (join actions 44) 44 = actions :=
  List.splitOn_intercalate 44 (fun a ha => (h a ha).2.1) hne

theorem split_join_filter (actions : List GoString) (h : ∀ a ∈ actions, Plain a) :
    (split (join actions 44) 44).filter (· ≠ []) = actions := by
  by_cases hnil : actions = []
  · subst hnil
    rfl
  · rw [split_join actions h hnil]
    exact List.filter_eq_self.mpr fun a ha => decide_eq_true (h a ha).2.2

theorem entryActions_join (project : GoString) (actions : List GoString)
    (h : ∀ a ∈ actions, Plain a) : entryActions ⟨project, join actions 44⟩ = actions := by
  unfold entryActions
  by_cases hnil : actions = []
  · subst hnil
    rfl
  · rw [split_join actions h hnil]
    have htrim : actions.map trimSpace = actions := by
      conv_rhs => rw [← List.map_id actions]
      exact List.map_congr_left fun a ha => (h a ha).1
    rw [htrim]
    exact List.filter_eq_self.mpr fun a ha => decide_eq_true (h a ha).2.2

theorem entryActions_plain (project action : GoString) (h : Plain action) :
    entryActions ⟨project, action⟩ = [action] := by
  have hjoin : join [action] 44 = action := by simp [join, List.intercalate, List.intersperse]
  have hentry := entryActions_join project [action] (by simpa using h)
  rwa [hjoin] at hentry

theorem grants_normalizePermissions (perms : List ProjectPermission) (project action : GoString) :
    Grants (normalizePermissions perms) project action ↔ Grants perms project action := by
  have hentry : ∀ p ∈ normalizePermissions perms, entryActions p = projectActions perms p.project := by
    rintro ⟨project, action⟩ hp
    have haction : action = join (projectActions perms project) 44 :=
      (mem_normalizePermissions.mp hp).2
    rw [haction]
    exact entryActions_join project _ plain_of_mem_projectActions
  constructor
  · rintro ⟨p, hp, rfl, haction⟩
    rw [hentry p hp] at haction
    exact mem_projectActions.mp haction
  · intro hgrants
    have hproject : project ∈ perms.map (·.project) := by
      obtain ⟨q, hq, rfl, -⟩ := hgrants
      exact List.mem_map.mpr ⟨q, hq, rfl⟩
    have hp : ⟨project, join (projectActions perms project) 44⟩ ∈ normalizePermissions perms :=
      mem_normalizePermissions.mpr ⟨hproject, rfl⟩
    refine ⟨_, hp, rfl, ?_⟩
    rw [hentry _ hp]
    exact mem_projectActions.mpr hgrants

theorem normalizePermissions_idem (perms : List ProjectPermission) :
    normalizePermissions (normalizePermissions perms) = normalizePermissions perms :=
  normalizePermissions_congr (fun _ => projects_normalizePermissions)
    (grants_normalizePermissions perms)

/-- The canonical forms are equal exactly when the projects and the grants are. -/
theorem normalizePermissions_eq_iff (perms perms' : List ProjectPermission) :
    normalizePermissions perms = normalizePermissions perms' ↔
      (∀ project, project ∈ perms.map (·.project) ↔ project ∈ perms'.map (·.project)) ∧
        ∀ project action, Grants perms project action ↔ Grants perms' project action := by
  refine ⟨fun h => ⟨fun project => ?_, fun project action => ?_⟩,
    fun h => normalizePermissions_congr h.1 h.2⟩
  · rw [← projects_normalizePermissions, h, projects_normalizePermissions]
  · rw [← grants_normalizePermissions, h, grants_normalizePermissions]

/-! ## Entries without blank actions -/

def Nonblank (perms : List ProjectPermission) : Prop := ∀ p ∈ perms, entryActions p ≠ []

theorem Nonblank.mem_projects {perms : List ProjectPermission} (h : Nonblank perms)
    (project : GoString) :
    project ∈ perms.map (·.project) ↔ ∃ action, Grants perms project action := by
  rw [List.mem_map]
  constructor
  · rintro ⟨p, hp, rfl⟩
    obtain ⟨action, haction⟩ := List.exists_mem_of_ne_nil _ (h p hp)
    exact ⟨action, p, hp, rfl, haction⟩
  · rintro ⟨action, p, hp, hproject, -⟩
    exact ⟨p, hp, hproject⟩

/-- Then the grants alone determine the canonical form. -/
theorem Nonblank.normalizePermissions_eq_iff {perms perms' : List ProjectPermission}
    (h : Nonblank perms) (h' : Nonblank perms') :
    normalizePermissions perms = normalizePermissions perms' ↔
      ∀ project action, Grants perms project action ↔ Grants perms' project action := by
  rw [HarborBridge.normalizePermissions_eq_iff]
  refine and_iff_right_of_imp fun hgrants project => ?_
  rw [h.mem_projects, h'.mem_projects]
  exact exists_congr (hgrants project)

theorem CrdPermissions.nonblank {perms : List ProjectPermission} (h : CrdPermissions perms) :
    Nonblank perms := by
  rintro ⟨project, action⟩ hp
  rcases h _ hp with haction | haction | haction <;> dsimp only at haction <;> subst haction <;>
    · unfold entryActions
      dsimp only
      decide

/-! ## What Harbor gets, and what is read back -/

/-- One entry for each grant. -/
def splitEntries (perms : List ProjectPermission) : List ProjectPermission :=
  (normalizePermissions perms).flatMap fun p =>
    ((split p.action 44).filter (· ≠ [])).map fun action => ⟨p.project, action⟩

theorem mem_splitEntries {perms : List ProjectPermission} {project action : GoString} :
    ⟨project, action⟩ ∈ splitEntries perms ↔ Grants perms project action := by
  have hsplit : ∀ project, (split (join (projectActions perms project) 44) 44).filter (· ≠ []) =
      projectActions perms project := fun project =>
    split_join_filter _ plain_of_mem_projectActions
  unfold splitEntries
  rw [List.mem_flatMap]
  constructor
  · rintro ⟨p, hp, hmem⟩
    rw [(mem_normalizePermissions.mp hp).2, hsplit] at hmem
    obtain ⟨a, ha, heq⟩ := List.mem_map.mp hmem
    obtain ⟨rfl, rfl⟩ := ProjectPermission.mk.inj heq
    exact mem_projectActions.mp ha
  · intro hgrants
    obtain ⟨q, hq, rfl, -⟩ := id hgrants
    refine ⟨⟨q.project, join (projectActions perms q.project) 44⟩,
      mem_normalizePermissions.mpr ⟨List.mem_map.mpr ⟨q, hq, rfl⟩, rfl⟩, ?_⟩
    rw [hsplit]
    exact List.mem_map.mpr ⟨action, mem_projectActions.mpr hgrants, rfl⟩

/-- The entries that a robot's permissions are read as, before they are normalized. -/
def readEntries (perms : List (Option RobotPermission)) : List ProjectPermission :=
  ((perms.filterMap id).filter (·.kind = robotPermissionKindProject)).flatMap projectEntries

theorem read_toHarborPermissions (perms : List ProjectPermission) :
    readEntries (toHarborPermissions perms) = splitEntries perms ∧
    ((toHarborPermissions perms).filterMap id).any foreignPermission = false := by
  have hentry : ∀ action, foreignEntry ⟨robotResourceRepository, action, []⟩ = false := by
    intro action
    simp [foreignEntry]
  unfold readEntries toHarborPermissions splitEntries
  rw [List.filterMap_map]
  have hsome : (id ∘ fun p : ProjectPermission => some ({
      kind := robotPermissionKindProject
      ns := p.project
      access := ((split p.action 44).filter (· ≠ [])).map fun action =>
        some ⟨robotResourceRepository, action, []⟩ } : RobotPermission)) =
      some ∘ fun p : ProjectPermission => {
      kind := robotPermissionKindProject
      ns := p.project
      access := ((split p.action 44).filter (· ≠ [])).map fun action =>
        some ⟨robotResourceRepository, action, []⟩ } := rfl
  rw [hsome, List.filterMap_eq_map]
  constructor
  · rw [List.filter_eq_self.mpr (by simp), List.flatMap_map]
    refine List.flatMap_congr fun p _ => ?_
    simp [projectEntries, List.filterMap_map, hentry]
  · simp [foreignPermission, List.filterMap_map, Function.comp_def, hentry]

/-! ## The comparison -/

structure Grant where
  kind : GoString
  ns : GoString
  resource : GoString
  action : GoString
  effect : GoString

/-- Harbor allows when no effect is given. -/
def grantEffect (effect : GoString) : GoString := if effect = [] then lit "allow" else effect

def HasGrant (perms : List (Option RobotPermission)) (g : Grant) : Prop :=
  ∃ p, some p ∈ perms ∧ ∃ a, some a ∈ p.access ∧
    g = ⟨p.kind, p.ns, a.resource, a.action, grantEffect a.effect⟩

/-- No permission of another kind, and no access to another resource or with an effect other than
allow. -/
def OnlyOwnKind (perms : List (Option RobotPermission)) : Prop :=
  ∀ p, some p ∈ perms → p.kind = robotPermissionKindProject ∧
    ∀ a, some a ∈ p.access → a.resource = robotResourceRepository ∧ grantEffect a.effect = lit "allow"

def ownGrant (project action : GoString) : Grant :=
  ⟨robotPermissionKindProject, project, robotResourceRepository, action, lit "allow"⟩

def PlainActions (perms : List (Option RobotPermission)) : Prop :=
  ∀ p, some p ∈ perms → ∀ a, some a ∈ p.access → Plain a.action

theorem foreignEntry_eq_false (a : Access) : foreignEntry a = false ↔
    a.resource = robotResourceRepository ∧ grantEffect a.effect = lit "allow" := by
  unfold foreignEntry grantEffect
  by_cases heffect : a.effect = []
  · simp [heffect]
  · simp [heffect]

theorem onlyOwnKind_iff (perms : List (Option RobotPermission)) :
    OnlyOwnKind perms ↔ (perms.filterMap id).any foreignPermission = false := by
  simp only [OnlyOwnKind, ← foreignEntry_eq_false, foreignPermission, List.any_eq_false,
    List.mem_filterMap, id, exists_eq_right, Bool.or_eq_true, bne_iff_ne, not_or, not_not,
    List.any_eq_true, not_exists, not_and, Bool.not_eq_true]

section Own

variable {perms : List (Option RobotPermission)}

theorem mem_readEntries (hown : OnlyOwnKind perms) {project action : GoString} :
    ⟨project, action⟩ ∈ readEntries perms ↔ HasGrant perms (ownGrant project action) := by
  simp only [readEntries, projectEntries, List.mem_flatMap, List.mem_filter, List.mem_filterMap, id,
    exists_eq_right, decide_eq_true_eq, Option.ite_none_left_eq_some, Option.some.injEq,
    ProjectPermission.mk.injEq, HasGrant, ownGrant, Grant.mk.injEq]
  constructor
  · rintro ⟨p, ⟨hp, hkind⟩, a, ha, hforeign, rfl, rfl⟩
    obtain ⟨hresource, heffect⟩ := (hown p hp).2 a ha
    exact ⟨p, hp, a, ha, hkind.symm, rfl, hresource.symm, rfl, heffect.symm⟩
  · rintro ⟨p, hp, a, ha, hkind, rfl, hresource, rfl, heffect⟩
    refine ⟨p, ⟨hp, hkind.symm⟩, a, ha, ?_, rfl, rfl⟩
    rw [(foreignEntry_eq_false a).mpr ⟨hresource.symm, heffect.symm⟩]
    exact Bool.false_ne_true

theorem hasGrant_own (hown : OnlyOwnKind perms) {g : Grant} (h : HasGrant perms g) :
    ∃ project action, g = ownGrant project action := by
  obtain ⟨p, hp, a, ha, rfl⟩ := h
  obtain ⟨hkind, haccess⟩ := hown p hp
  obtain ⟨hresource, heffect⟩ := haccess a ha
  refine ⟨p.ns, a.action, ?_⟩
  rw [hkind, hresource, heffect]
  rfl

theorem plain_of_mem_readEntries (hplain : PlainActions perms) {p : ProjectPermission}
    (hp : p ∈ readEntries perms) : Plain p.action := by
  simp only [readEntries, projectEntries, List.mem_flatMap, List.mem_filter, List.mem_filterMap, id,
    exists_eq_right, Option.ite_none_left_eq_some, Option.some.injEq] at hp
  obtain ⟨q, ⟨hq, -⟩, a, ha, -, rfl⟩ := hp
  exact hplain q hq a ha

theorem nonblank_readEntries (hplain : PlainActions perms) : Nonblank (readEntries perms) := by
  intro p hp
  rw [entryActions_plain _ _ (plain_of_mem_readEntries hplain hp)]
  exact List.cons_ne_nil _ _

theorem grants_readEntries (hplain : PlainActions perms) (hown : OnlyOwnKind perms)
    (project action : GoString) :
    Grants (readEntries perms) project action ↔ HasGrant perms (ownGrant project action) := by
  rw [← mem_readEntries hown]
  constructor
  · rintro ⟨p, hp, rfl, haction⟩
    rw [entryActions_plain _ _ (plain_of_mem_readEntries hplain hp), List.mem_singleton] at haction
    rw [haction]
    exact hp
  · intro hp
    refine ⟨_, hp, rfl, ?_⟩
    rw [entryActions_plain _ _ (plain_of_mem_readEntries hplain hp)]
    exact List.mem_singleton_self action

end Own

theorem onlyOwnKind_toHarborPermissions (perms : List ProjectPermission) :
    OnlyOwnKind (toHarborPermissions perms) :=
  (onlyOwnKind_iff _).mpr (read_toHarborPermissions perms).2

theorem hasGrant_toHarborPermissions (perms : List ProjectPermission) (project action : GoString) :
    HasGrant (toHarborPermissions perms) (ownGrant project action) ↔ Grants perms project action := by
  rw [← mem_readEntries (onlyOwnKind_toHarborPermissions perms), (read_toHarborPermissions perms).1,
    mem_splitEntries]

theorem plainActions_toHarborPermissions (perms : List ProjectPermission) :
    PlainActions (toHarborPermissions perms) := by
  intro p hp a ha
  obtain ⟨hkind, haccess⟩ := onlyOwnKind_toHarborPermissions perms p hp
  obtain ⟨hresource, heffect⟩ := haccess a ha
  have hgrant : HasGrant (toHarborPermissions perms) (ownGrant p.ns a.action) := by
    refine ⟨p, hp, a, ha, ?_⟩
    rw [hkind, hresource, heffect]
    rfl
  exact plain_of_grants ((hasGrant_toHarborPermissions perms _ _).mp hgrant)

theorem fromHarborRobot_permissions {robotPrefix : GoString} {r : HarborRobot} {robot : Robot}
    (h : fromHarborRobot robotPrefix r = some robot) :
    robot.permissions = normalizePermissions (readEntries r.permissions) ∧
      robot.foreignAccess = (r.permissions.filterMap id).any foreignPermission := by
  unfold fromHarborRobot at h
  dsimp only at h
  split_ifs at h
  obtain rfl := Option.some.inj h
  exact ⟨rfl, rfl⟩

theorem permissionsMatch_iff (robot : Robot) (perms : List ProjectPermission) :
    permissionsMatch robot perms = true ↔ robot.foreignAccess = false ∧
      normalizePermissions robot.permissions = normalizePermissions perms := by
  unfold permissionsMatch
  cases robot.foreignAccess <;> simp

/-- A robot matches when its grants are the ones that would be written. -/
theorem permissionsMatch_fromHarborRobot {robotPrefix : GoString} {r : HarborRobot} {robot : Robot}
    (hr : fromHarborRobot robotPrefix r = some robot) (hplain : PlainActions r.permissions)
    {perms : List ProjectPermission} (hperms : Nonblank perms) :
    permissionsMatch robot perms = true ↔ OnlyOwnKind r.permissions ∧
      ∀ g, HasGrant r.permissions g ↔ HasGrant (toHarborPermissions perms) g := by
  obtain ⟨hread, hforeign⟩ := fromHarborRobot_permissions hr
  rw [permissionsMatch_iff, hforeign, ← onlyOwnKind_iff, hread, normalizePermissions_idem,
    (nonblank_readEntries hplain).normalizePermissions_eq_iff hperms]
  refine and_congr_right fun hown => ?_
  constructor
  · intro hgrants g
    constructor
    · intro hg
      obtain ⟨project, action, rfl⟩ := hasGrant_own hown hg
      rw [hasGrant_toHarborPermissions, ← hgrants, grants_readEntries hplain hown]
      exact hg
    · intro hg
      obtain ⟨project, action, rfl⟩ := hasGrant_own (onlyOwnKind_toHarborPermissions perms) hg
      rw [← grants_readEntries hplain hown, hgrants, ← hasGrant_toHarborPermissions]
      exact hg
  · intro hgrants project action
    rw [grants_readEntries hplain hown, hgrants, hasGrant_toHarborPermissions]

/-- A robot with the grants that were written for the entries matches them. -/
theorem Nonblank.permissionsMatch_written {perms : List ProjectPermission} (h : Nonblank perms)
    {robotPrefix : GoString} {r : HarborRobot} {robot : Robot}
    (hr : fromHarborRobot robotPrefix r = some robot)
    (hperms : r.permissions = toHarborPermissions perms) : permissionsMatch robot perms = true := by
  have hplain : PlainActions r.permissions := hperms ▸ plainActions_toHarborPermissions perms
  rw [permissionsMatch_fromHarborRobot hr hplain h, hperms]
  exact ⟨onlyOwnKind_toHarborPermissions perms, fun g => Iff.rfl⟩

/-- A robot that matches the entries has exactly their grants. -/
theorem grants_of_permissionsMatch {perms : List ProjectPermission} {robot : Robot}
    (hmatch : permissionsMatch robot perms = true) : robot.foreignAccess = false ∧
      ∀ project action, Grants robot.permissions project action ↔ Grants perms project action := by
  obtain ⟨hforeign, hnorm⟩ := (permissionsMatch_iff robot perms).mp hmatch
  exact ⟨hforeign, ((normalizePermissions_eq_iff _ _).mp hnorm).2⟩

/-! ## Entries in another form -/

/-- The entries are in another order, one of them is there twice, or one is split at a comma. -/
inductive Rearranges : List ProjectPermission → List ProjectPermission → Prop where
  | reorder {perms perms' : List ProjectPermission} (h : perms.Perm perms') : Rearranges perms perms'
  | duplicate {perms : List ProjectPermission} {p : ProjectPermission} (h : p ∈ perms) :
      Rearranges perms (p :: perms)
  | divide (project a b : GoString) (perms : List ProjectPermission) :
      Rearranges (⟨project, a ++ 44 :: b⟩ :: perms) (⟨project, a⟩ :: ⟨project, b⟩ :: perms)

/-- Any number of such changes, in either direction. -/
def Rearranged : List ProjectPermission → List ProjectPermission → Prop := Relation.EqvGen Rearranges

theorem entryActions_divide (project a b : GoString) :
    entryActions ⟨project, a ++ 44 :: b⟩ = entryActions ⟨project, a⟩ ++ entryActions ⟨project, b⟩ := by
  have hsplit : split (a ++ 44 :: b) 44 = split a 44 ++ split b 44 :=
    List.splitOnP_append_cons a b (beq_self_eq_true 44)
  unfold entryActions
  rw [hsplit, List.map_append, List.filter_append]

theorem normalizePermissions_of_mem_iff {perms perms' : List ProjectPermission}
    (h : ∀ p, p ∈ perms ↔ p ∈ perms') : normalizePermissions perms = normalizePermissions perms' := by
  refine normalizePermissions_congr (fun project => ?_) fun project action => ?_
  · simp only [List.mem_map, h]
  · unfold Grants
    simp only [h]

theorem Rearranges.normalizePermissions_eq {perms perms' : List ProjectPermission}
    (h : Rearranges perms perms') : normalizePermissions perms = normalizePermissions perms' := by
  cases h with
  | reorder h => exact normalizePermissions_of_mem_iff fun p => h.mem_iff
  | duplicate h =>
    refine normalizePermissions_of_mem_iff fun p => ?_
    rw [List.mem_cons]
    exact (or_iff_right_of_imp fun heq => heq ▸ h).symm
  | divide project a b perms =>
    refine normalizePermissions_congr (fun q => ?_) fun q action => ?_
    · simp
    · simp only [Grants, List.mem_cons, exists_eq_or_imp, entryActions_divide, List.mem_append]
      tauto

theorem Rearranged.normalizePermissions_eq {perms perms' : List ProjectPermission}
    (h : Rearranged perms perms') : normalizePermissions perms = normalizePermissions perms' := by
  induction h with
  | rel perms perms' h => exact h.normalizePermissions_eq
  | refl perms => rfl
  | symm perms perms' _ ih => exact ih.symm
  | trans perms perms' perms'' _ _ ih ih' => exact ih.trans ih'

/-- Permissions of a robot with the same members are read as the same. -/
theorem readEntries_congr {perms perms' : List (Option RobotPermission)}
    (h : ∀ p, some p ∈ perms ↔ some p ∈ perms') :
    normalizePermissions (readEntries perms) = normalizePermissions (readEntries perms') ∧
      (perms.filterMap id).any foreignPermission = (perms'.filterMap id).any foreignPermission := by
  have hmem : ∀ p, p ∈ perms.filterMap id ↔ p ∈ perms'.filterMap id := by
    intro p
    simp only [List.mem_filterMap, id, exists_eq_right, h]
  constructor
  · refine normalizePermissions_of_mem_iff fun p => ?_
    simp only [readEntries, List.mem_flatMap, List.mem_filter, hmem]
  · rw [Bool.eq_iff_iff]
    simp only [List.any_eq_true, hmem]

/-- The comparison of a robot's permissions with the desired ones is exact. -/
theorem permission_comparison_exact :
    (∀ (robotPrefix : GoString) (r : HarborRobot) (robot : Robot) (desired : List ProjectPermission),
      fromHarborRobot robotPrefix r = some robot → PlainActions r.permissions → Nonblank desired →
      (permissionsMatch robot desired = true ↔ OnlyOwnKind r.permissions ∧
        ∀ g, HasGrant r.permissions g ↔ HasGrant (toHarborPermissions desired) g)) ∧
    (∀ (robotPrefix : GoString) (r : HarborRobot) (robot : Robot) (desired : List ProjectPermission),
      fromHarborRobot robotPrefix r = some robot → Nonblank desired →
      r.permissions = toHarborPermissions desired → permissionsMatch robot desired = true) ∧
    (∀ (robotPrefix : GoString) (r r' : HarborRobot) (robot robot' : Robot)
      (desired : List ProjectPermission), fromHarborRobot robotPrefix r = some robot →
      fromHarborRobot robotPrefix r' = some robot' →
      (∀ p, some p ∈ r.permissions ↔ some p ∈ r'.permissions) →
      permissionsMatch robot' desired = permissionsMatch robot desired) ∧
    (∀ (robot : Robot) (held desired desired' : List ProjectPermission),
      Rearranged robot.permissions held → Rearranged desired desired' →
      permissionsMatch { robot with permissions := held } desired' = permissionsMatch robot desired) ∧
    ∀ perms, normalizePermissions (normalizePermissions perms) = normalizePermissions perms := by
  refine ⟨?_, ?_, ?_, ?_, normalizePermissions_idem⟩
  · intro robotPrefix r robot desired hr hplain hdesired
    exact permissionsMatch_fromHarborRobot hr hplain hdesired
  · intro robotPrefix r robot desired hr hdesired hwritten
    exact hdesired.permissionsMatch_written hr hwritten
  · intro robotPrefix r r' robot robot' desired hr hr' hsame
    obtain ⟨hread, hforeign⟩ := fromHarborRobot_permissions hr
    obtain ⟨hread', hforeign'⟩ := fromHarborRobot_permissions hr'
    obtain ⟨hentries, hany⟩ := readEntries_congr hsame
    rw [Bool.eq_iff_iff, permissionsMatch_iff, permissionsMatch_iff, hread, hread', hforeign,
      hforeign', hentries, hany]
  · intro robot held desired desired' hheld hdesired
    rw [Bool.eq_iff_iff, permissionsMatch_iff, permissionsMatch_iff]
    dsimp only
    rw [hheld.normalizePermissions_eq, hdesired.normalizePermissions_eq]

def pushingRobot : HarborRobot where
  id := 1
  name := lit "robot$a"
  description := []
  editable := true
  disable := false
  expiresAt := -1
  permissions := [some ⟨lit "project", lit "library",
    [some ⟨lit "repository", lit "push", lit "allow"⟩, some ⟨lit "repository", lit "pull", []⟩]⟩]
  secret := []

theorem permission_comparison_exact_push : ∃ robot,
    fromHarborRobot (lit "robot$") pushingRobot = some robot ∧
      permissionsMatch robot [⟨lit "library", lit "pull, push"⟩] = true ∧
      HasGrant pushingRobot.permissions (ownGrant (lit "library") (lit "push")) := by
  have hplain : PlainActions pushingRobot.permissions := by
    have hpush : Plain (lit "push") := ⟨trimSpace_word _ (by decide), by decide, by decide⟩
    have hpull : Plain (lit "pull") := ⟨trimSpace_word _ (by decide), by decide, by decide⟩
    simp [PlainActions, pushingRobot, hpush, hpull]
  have hdesired : Nonblank [⟨lit "library", lit "pull, push"⟩] := by
    simp only [Nonblank, List.mem_singleton, forall_eq]
    decide
  have hmatch : ∃ robot, fromHarborRobot (lit "robot$") pushingRobot = some robot ∧
      permissionsMatch robot [⟨lit "library", lit "pull, push"⟩] = true := ⟨_, rfl, by decide +kernel⟩
  obtain ⟨robot, hr, hmatch⟩ := hmatch
  have hgrants := ((permission_comparison_exact.1 _ _ _ _ hr hplain hdesired).mp hmatch).2
  refine ⟨robot, hr, hmatch, (hgrants _).mpr ?_⟩
  rw [hasGrant_toHarborPermissions]
  exact ⟨_, List.mem_singleton_self _, rfl, by decide⟩

/-- A robot that may pull from a project, with a permission of kind system that lists no
access. -/
def emptySystemRobot : HarborRobot :=
  { pushingRobot with
    permissions := [some ⟨lit "project", lit "library", [some ⟨lit "repository", lit "pull", []⟩]⟩,
      some ⟨lit "system", lit "/", []⟩] }

theorem hasGrant_emptySystemRobot (g : Grant) :
    HasGrant emptySystemRobot.permissions g ↔ g = ownGrant (lit "library") (lit "pull") := by
  simp [HasGrant, emptySystemRobot, ownGrant, grantEffect, robotPermissionKindProject,
    robotResourceRepository]

/-- A permission of another kind keeps a robot from matching also where it grants nothing: here
the grants are the desired ones, and no others. -/
theorem empty_permission_mismatches : ∃ robot,
    fromHarborRobot (lit "robot$") emptySystemRobot = some robot ∧
      PlainActions emptySystemRobot.permissions ∧ Nonblank [⟨lit "library", lit "pull"⟩] ∧
      (∀ g, HasGrant emptySystemRobot.permissions g ↔
        HasGrant (toHarborPermissions [⟨lit "library", lit "pull"⟩]) g) ∧
      (∀ g, HasGrant emptySystemRobot.permissions g → g.kind = robotPermissionKindProject ∧
        g.resource = robotResourceRepository ∧ g.effect = lit "allow") ∧
      permissionsMatch robot [⟨lit "library", lit "pull"⟩] = false := by
  have hmatch : ∃ robot, fromHarborRobot (lit "robot$") emptySystemRobot = some robot ∧
      permissionsMatch robot [⟨lit "library", lit "pull"⟩] = false := ⟨_, rfl, by decide +kernel⟩
  obtain ⟨robot, hr, hmatch⟩ := hmatch
  refine ⟨robot, hr, ?_, ?_, fun g => ?_, fun g hg => ?_, hmatch⟩
  · have hpull : Plain (lit "pull") := ⟨trimSpace_word _ (by decide), by decide, by decide⟩
    simp [PlainActions, emptySystemRobot, hpull]
  · simp only [Nonblank, List.mem_singleton, forall_eq]
    decide
  · have hwritten : toHarborPermissions [⟨lit "library", lit "pull"⟩] =
        [some ⟨lit "project", lit "library", [some ⟨lit "repository", lit "pull", []⟩]⟩] := by
      decide +kernel
    rw [hasGrant_emptySystemRobot, hwritten]
    simp [HasGrant, ownGrant, grantEffect, robotPermissionKindProject, robotResourceRepository]
  · rw [(hasGrant_emptySystemRobot g).mp hg]
    exact ⟨rfl, rfl, rfl⟩

end HarborBridge
