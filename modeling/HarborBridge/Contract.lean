import HarborBridge.RobotSecret
import HarborBridge.Robots

/-! The description that the bridge writes onto its robots, and the ownership that it
expresses together with the name (package controlplane, contract.go). -/
namespace HarborBridge

open GoStrings DnsNames Rfc3339

def finalizerName : GoString := lit "harbor.aetherize.io/robot"

def passwordRotationInterval : Int := 24 * hour

def rotationSafetyMargin : Int := minute

def resyncInterval : Int := hour

def harborAccessNameMaxLen : Nat := 63

def robotDescriptionTag : GoString := lit "managed-by=" ++ RobotSecret.labelManagedByValue

def robotDescription (cluster haNamespace haName : GoString) : GoString :=
  robotDescriptionTag ++ lit " cluster=" ++ cluster ++ lit " harboraccess=" ++ haNamespace ++
    47 :: haName

def robotSuspendedToken : GoString := lit "suspended=true"

def suspendedRobotDescription (cluster haNamespace haName : GoString) : GoString :=
  robotDescription cluster haNamespace haName ++ 32 :: robotSuspendedToken

def robotSuspended (description : GoString) : Bool :=
  hasPrefix description (robotDescriptionTag ++ [32]) &&
    (fields description).contains robotSuspendedToken

/-- The first cluster token decides. -/
def robotBelongsToCluster (description cluster : GoString) : Bool :=
  hasPrefix description (robotDescriptionTag ++ [32]) &&
    match ((fields description).filterMap (cut · 61)).find? (·.1 = lit "cluster") with
    | none => false
    | some (_, v) => v == cluster

/-- The owner in a token of the form harboraccess=<namespace>/<name>. -/
def ownerToken (tok : GoString) : Option (GoString × GoString) := do
  let (k, v) ← cut tok 61
  if k = lit "harboraccess" then
    let (ns, name) ← cut v 47
    if ns ≠ [] ∧ name ≠ [] then some (ns, name) else none
  else none

def parseRobotDescription (description : GoString) : Option (GoString × GoString) :=
  if hasPrefix description (robotDescriptionTag ++ [32]) then
    (fields description).findSome? ownerToken
  else none

/-- The HarborAccess that a robot's description assigns it to, when the description is
this bridge's and the name is not in its ownership prefixes. -/
def misnamedRobot (cluster : GoString) (robot : Robot) : Option (GoString × GoString) :=
  if ownsRobot cluster robot.name || ownsLegacyRobot cluster robot.name ||
      !robotBelongsToCluster robot.description cluster then none
  else parseRobotDescription robot.description

def robotOwnedBy (cluster : GoString) (robot : Robot) (haNamespace haName : GoString) : Bool :=
  (ownsRobot cluster robot.name || ownsLegacyRobot cluster robot.name) &&
    robotBelongsToCluster robot.description cluster &&
    (parseRobotDescription robot.description == some (haNamespace, haName))

/-! ## Reading a description back -/

/-- The two descriptions that the bridge of a cluster writes for a HarborAccess. -/
def Describes (cluster haNamespace haName description : GoString) : Prop :=
  description = robotDescription cluster haNamespace haName ∨
    description = suspendedRobotDescription cluster haNamespace haName

def clusterToken (cluster : GoString) : GoString := lit "cluster=" ++ cluster

def accessToken (haNamespace haName : GoString) : GoString :=
  lit "harboraccess=" ++ haNamespace ++ 47 :: haName

theorem robotDescription_eq (cluster haNamespace haName : GoString) :
    robotDescription cluster haNamespace haName =
      robotDescriptionTag ++ 32 :: (clusterToken cluster ++ 32 :: accessToken haNamespace haName) := by
  simp [robotDescription, clusterToken, accessToken, lit]

theorem suspendedRobotDescription_eq (cluster haNamespace haName : GoString) :
    suspendedRobotDescription cluster haNamespace haName =
      robotDescriptionTag ++ 32 :: (clusterToken cluster ++
        32 :: (accessToken haNamespace haName ++ 32 :: robotSuspendedToken)) := by
  simp [suspendedRobotDescription, robotDescription_eq]

theorem hasPrefix_tag (rest : GoString) :
    hasPrefix (robotDescriptionTag ++ 32 :: rest) (robotDescriptionTag ++ [32]) = true :=
  (hasPrefix_iff _ _).mpr ⟨rest, by simp⟩

theorem cut_tag :
    cut robotDescriptionTag 61 = some (lit "managed-by", RobotSecret.labelManagedByValue) := by
  decide

theorem cut_clusterToken (cluster : GoString) :
    cut (clusterToken cluster) 61 = some (lit "cluster", cluster) :=
  cut_append (lit "cluster") cluster 61 (by decide)

theorem cut_accessToken (haNamespace haName : GoString) :
    cut (accessToken haNamespace haName) 61 =
      some (lit "harboraccess", haNamespace ++ 47 :: haName) := by
  have hshape : accessToken haNamespace haName =
      lit "harboraccess" ++ 61 :: (haNamespace ++ 47 :: haName) := by simp [accessToken, lit]
  rw [hshape, cut_append _ _ _ (by decide)]

theorem cut_robotSuspendedToken :
    cut robotSuspendedToken 61 = some (lit "suspended", lit "true") := by
  decide

namespace ObjectKey

variable (key : ObjectKey)

theorem name_word : Word key.name := by
  intro b hb
  rcases key.name_valid.chars b hb with hb | rfl | rfl
  · exact word_of_alnum b hb
  · decide
  · decide

theorem name_ne_nil : key.name ≠ [] := by
  intro h
  have hempty : DnsLabel [] := key.name_valid [] (by rw [h]; decide)
  exact hempty.ne_nil rfl

theorem accessToken_word : Word (accessToken key.ns key.name) :=
  Word.append (Word.append (by decide) key.ns_valid.word)
    (Word.append (s := [47]) (by decide) key.name_word)

theorem ownerToken_accessToken :
    ownerToken (accessToken key.ns key.name) = some (key.ns, key.name) := by
  have hslash : 47 ∉ key.ns := key.ns_valid.not_mem 47 (by decide)
  simp [ownerToken, cut_accessToken, cut_append _ _ _ hslash, key.ns_valid.ne_nil,
    key.name_ne_nil]

end ObjectKey

section Descriptions

variable {cluster : GoString} {key : ObjectKey} {description : GoString}

theorem fields_robotDescription (hc : Word cluster) :
    fields (robotDescription cluster key.ns key.name) =
      [robotDescriptionTag, clusterToken cluster, accessToken key.ns key.name] := by
  have hcluster : Word (clusterToken cluster) := Word.append (by decide) hc
  rw [robotDescription_eq, fields_word_space _ _ (by decide) (by decide),
    fields_word_space _ _ hcluster (by simp [clusterToken, lit]),
    fields_word _ key.accessToken_word (by simp [accessToken, lit])]

theorem fields_suspendedRobotDescription (hc : Word cluster) :
    fields (suspendedRobotDescription cluster key.ns key.name) =
      [robotDescriptionTag, clusterToken cluster, accessToken key.ns key.name,
        robotSuspendedToken] := by
  have hcluster : Word (clusterToken cluster) := Word.append (by decide) hc
  rw [suspendedRobotDescription_eq, fields_word_space _ _ (by decide) (by decide),
    fields_word_space _ _ hcluster (by simp [clusterToken, lit]),
    fields_word_space _ _ key.accessToken_word (by simp [accessToken, lit]),
    fields_word _ (by decide) (by decide)]

/-- What both descriptions have in common. -/
theorem Describes.tokens (hc : Word cluster)
    (h : Describes cluster key.ns key.name description) :
    hasPrefix description (robotDescriptionTag ++ [32]) = true ∧
    ∃ rest, fields description =
      robotDescriptionTag :: clusterToken cluster :: accessToken key.ns key.name :: rest := by
  rcases h with rfl | rfl
  · refine ⟨?_, [], fields_robotDescription hc⟩
    rw [robotDescription_eq]
    exact hasPrefix_tag _
  · refine ⟨?_, [robotSuspendedToken], fields_suspendedRobotDescription hc⟩
    rw [suspendedRobotDescription_eq]
    exact hasPrefix_tag _

/-- Both descriptions give their cluster and nobody else's. -/
theorem Describes.robotBelongsToCluster_iff (hc : Word cluster)
    (h : Describes cluster key.ns key.name description) (cluster' : GoString) :
    robotBelongsToCluster description cluster' = true ↔ cluster = cluster' := by
  obtain ⟨hpre, rest, hfields⟩ := h.tokens hc
  have hne : (lit "managed-by" = lit "cluster") = False := by decide
  simp only [robotBelongsToCluster, hpre, hfields, List.filterMap_cons, cut_tag, cut_clusterToken,
    List.find?_cons, hne, decide_false, decide_true, Bool.true_and, beq_iff_eq]

theorem Describes.parseRobotDescription_eq (hc : Word cluster)
    (h : Describes cluster key.ns key.name description) :
    parseRobotDescription description = some (key.ns, key.name) := by
  obtain ⟨hpre, rest, hfields⟩ := h.tokens hc
  have htag : ownerToken robotDescriptionTag = none := by decide
  have hcluster : ownerToken (clusterToken cluster) = none := by
    have hne : ¬ lit "cluster" = lit "harboraccess" := by decide
    simp [ownerToken, cut_clusterToken, hne]
  simp only [parseRobotDescription, hpre, if_true, hfields, List.findSome?_cons, htag, hcluster,
    key.ownerToken_accessToken]

theorem robotSuspended_robotDescription (hc : Word cluster) :
    robotSuspended (robotDescription cluster key.ns key.name) = false := by
  have hcluster : robotSuspendedToken ≠ clusterToken cluster := by
    intro h
    have hcut := congrArg (cut · 61) h
    simp only [cut_robotSuspendedToken, cut_clusterToken, Option.some.injEq, Prod.mk.injEq] at hcut
    exact absurd hcut.1 (by decide)
  have haccess : robotSuspendedToken ≠ accessToken key.ns key.name := by
    intro h
    have hcut := congrArg (cut · 61) h
    simp only [cut_robotSuspendedToken, cut_accessToken, Option.some.injEq, Prod.mk.injEq] at hcut
    exact absurd hcut.1 (by decide)
  have htag : robotSuspendedToken ≠ robotDescriptionTag := by decide
  simp [robotSuspended, fields_robotDescription hc, hcluster, haccess, htag]

theorem robotSuspended_suspendedRobotDescription (hc : Word cluster) :
    robotSuspended (suspendedRobotDescription cluster key.ns key.name) = true := by
  have hdesc : Describes cluster key.ns key.name
      (suspendedRobotDescription cluster key.ns key.name) := .inr rfl
  have hpre := (hdesc.tokens hc).1
  simp [robotSuspended, fields_suspendedRobotDescription hc, hpre]

end Descriptions

/-! ## Owners -/

theorem robotOwnedBy_iff (cluster : GoString) (robot : Robot) (haNamespace haName : GoString) :
    robotOwnedBy cluster robot haNamespace haName = true ↔
      (ownsRobot cluster robot.name = true ∨ ownsLegacyRobot cluster robot.name = true) ∧
      robotBelongsToCluster robot.description cluster = true ∧
      parseRobotDescription robot.description = some (haNamespace, haName) := by
  simp [robotOwnedBy, and_assoc]

/-- A description belongs to at most one cluster. -/
theorem robotBelongsToCluster_unique (description cluster cluster' : GoString)
    (h : robotBelongsToCluster description cluster = true)
    (h' : robotBelongsToCluster description cluster' = true) : cluster = cluster' := by
  unfold robotBelongsToCluster at h h'
  rw [Bool.and_eq_true] at h h'
  have hc := h.2
  have hc' := h'.2
  split at hc
  · cases hc
  · next v hv =>
    rw [hv] at hc'
    rw [← beq_iff_eq.mp hc, ← beq_iff_eq.mp hc']

theorem Describes.robotSuspended_iff {cluster : GoString} {key : ObjectKey} {description : GoString}
    (hc : Word cluster) (h : Describes cluster key.ns key.name description) :
    robotSuspended description = true ↔
      description = suspendedRobotDescription cluster key.ns key.name := by
  constructor
  · intro hsuspended
    rcases h with rfl | rfl
    · rw [robotSuspended_robotDescription hc] at hsuspended
      cases hsuspended
    · rfl
  · rintro rfl
    exact robotSuspended_suspendedRobotDescription hc

/-- The name and the description that the bridge of a cluster writes give the cluster and the
HarborAccess exactly, and no description whatsoever gives two of them. -/
theorem robot_ownership_exact :
    (∀ (cluster saNamespace saName : GoString) (key : ObjectKey) (robot : Robot), DnsLabel cluster →
      robotName cluster saNamespace saName = .ok robot.name →
      Describes cluster key.ns key.name robot.description →
      (∀ (cluster' : GoString) (key' : ObjectKey), DnsLabel cluster' →
        (robotOwnedBy cluster' robot key'.ns key'.name = true ↔
          cluster' = cluster ∧ key'.ns = key.ns ∧ key'.name = key.name)) ∧
      parseRobotDescription robot.description = some (key.ns, key.name) ∧
      (∀ cluster', robotBelongsToCluster robot.description cluster' = true ↔ cluster' = cluster) ∧
      (robotSuspended robot.description = true ↔
        robot.description = suspendedRobotDescription cluster key.ns key.name) ∧
      ∀ cluster', misnamedRobot cluster' robot = none) ∧
    ∀ (robot : Robot) (cluster cluster' ns ns' name name' : GoString),
      robotOwnedBy cluster robot ns name = true → robotOwnedBy cluster' robot ns' name' = true →
      cluster = cluster' ∧ ns = ns' ∧ name = name' := by
  constructor
  · intro cluster saNamespace saName key robot hcluster hname hdesc
    have hword := hcluster.word
    have howns := ownsRobot_robotName cluster saNamespace saName robot.name hcluster.ne_nil hname
    have hparse := hdesc.parseRobotDescription_eq hword
    have hbelongs (cluster' : GoString) :
        robotBelongsToCluster robot.description cluster' = true ↔ cluster' = cluster :=
      (hdesc.robotBelongsToCluster_iff hword cluster').trans eq_comm
    refine ⟨fun cluster' key' _ => ?_, hparse, hbelongs, hdesc.robotSuspended_iff hword,
      fun cluster' => ?_⟩
    · rw [robotOwnedBy_iff, hbelongs, hparse, Option.some.injEq, Prod.mk.injEq]
      constructor
      · rintro ⟨-, hsame, hns, hname⟩
        exact ⟨hsame, hns.symm, hname.symm⟩
      · rintro ⟨rfl, hns, hname⟩
        exact ⟨.inl howns, rfl, hns.symm, hname.symm⟩
    · unfold misnamedRobot
      by_cases hsame : cluster' = cluster
      · rw [hsame, howns]
        rfl
      · rw [Bool.eq_false_iff.mpr fun h => hsame ((hbelongs cluster').mp h), Bool.not_false,
          Bool.or_true, if_pos rfl]
  · intro robot cluster cluster' ns ns' name name' h h'
    obtain ⟨-, hbelongs, hparse⟩ := (robotOwnedBy_iff ..).mp h
    obtain ⟨-, hbelongs', hparse'⟩ := (robotOwnedBy_iff ..).mp h'
    obtain ⟨rfl, rfl⟩ := Prod.mk.inj (Option.some.inj (hparse.symm.trans hparse'))
    exact ⟨robotBelongsToCluster_unique _ _ _ hbelongs hbelongs', rfl, rfl⟩

/-- A robot that the bridge of the cluster prod has suspended. -/
def suspendedRobot : Robot where
  id := 1
  name := lit "bridge-prod.team.app"
  wireName := lit "robot$bridge-prod.team.app"
  description := suspendedRobotDescription (lit "prod") sampleKey.ns sampleKey.name
  disabled := true
  expiresAt := -1
  permissions := []
  foreignAccess := false
  secret := []

theorem robot_ownership_exact_suspended :
    robotOwnedBy (lit "prod") suspendedRobot sampleKey.ns sampleKey.name = true ∧
      robotOwnedBy (lit "prod-eu") suspendedRobot sampleKey.ns sampleKey.name = false := by
  have howned := (robot_ownership_exact.1 (lit "prod") (lit "team") (lit "app") sampleKey
    suspendedRobot (by decide) (by decide) (.inr rfl)).1
  refine ⟨(howned (lit "prod") sampleKey (by decide)).mpr ⟨rfl, rfl, rfl⟩, ?_⟩
  rw [← Bool.not_eq_true, howned (lit "prod-eu") sampleKey (by decide)]
  exact fun h => absurd h.1 (by decide)

end HarborBridge
