import HarborBridge.Api
import HarborBridge.Lib.Sha256

/-! The contract of the robot Secret (package robotsecret): its name, its labels and
annotations, and its data. -/
namespace HarborBridge.RobotSecret

open GoStrings DnsNames Rfc3339

def namePrefix : GoString := lit "robot-"

def keyUsername : GoString := lit "username"

def keyPassword : GoString := lit "password"

def labelManagedBy : GoString := lit "harbor.aetherize.io/managed-by"

def labelManagedByValue : GoString := lit "harbor-workload-identity-bridge"

def labelCluster : GoString := lit "harbor.aetherize.io/cluster"

def labelHarborAccessNamespace : GoString := lit "harbor.aetherize.io/harboraccess-namespace"

def labelHarborAccessName : GoString := lit "harbor.aetherize.io/harboraccess-name"

def annotationRobotID : GoString := lit "harbor.aetherize.io/robot-id"

def annotationRotationNotBefore : GoString := lit "harbor.aetherize.io/rotation-not-before"

def nameMax : Nat := 253

def nameHashLen : Nat := 16

/-- The name of the robot Secret of a HarborAccess. -/
def name (haNamespace haName : GoString) : GoString :=
  let full := namePrefix ++ haNamespace ++ 46 :: haName
  if full.length ≤ nameMax then full
  else
    let digest := (Sha256.encodeToString
      (Sha256.sum256 (haNamespace ++ 0 :: haName))).take nameHashLen
    let budget := nameMax - namePrefix.length - 1 - nameHashLen
    let mid := trimRight ((haNamespace ++ 46 :: haName).take budget) (lit "-._")
    if mid = [] then namePrefix ++ digest else namePrefix ++ mid ++ 46 :: digest

/-- The HarborAccess that a robot Secret's name was computed for. -/
def parseName (name : GoString) : Option (GoString × GoString) := do
  let rest ← cutPrefix name namePrefix
  let (haNamespace, haName) ← cut rest 46
  if haNamespace = [] ∨ haName = [] then none else some (haNamespace, haName)

def labels (cluster haNamespace haName : GoString) : StringMap :=
  (((Finmap.singleton labelManagedBy labelManagedByValue).insert labelCluster cluster).insert
    labelHarborAccessNamespace haNamespace).insert labelHarborAccessName haName

def isManaged (s : Secret) : Bool := s.labels.get labelManagedBy == labelManagedByValue

/-- The HarborAccess that a managed Secret is stamped for. -/
def owner (s : Secret) : Option (GoString × GoString) :=
  let haNamespace := s.labels.get labelHarborAccessNamespace
  let haName := s.labels.get labelHarborAccessName
  if isManaged s ∧ haNamespace ≠ [] ∧ haName ≠ [] then some (haNamespace, haName) else none

def stampedForOther (s : Secret) (haNamespace haName : GoString) : Bool :=
  isManaged s && (s.labels.get labelHarborAccessNamespace != haNamespace ||
    s.labels.get labelHarborAccessName != haName)

def robotID (s : Secret) : Option Int := (s.annotations.lookup annotationRobotID).bind parseInt

def formatRobotID (id : Int) : GoString := formatInt id

def rotationNotBefore (s : Secret) : Option Int :=
  (s.annotations.lookup annotationRotationNotBefore).bind parse

/-- The instant rounded up to whole seconds. -/
def roundUp (t : Int) : Int :=
  let up := t - t % second
  if up < t then up + second else up

def formatRotationNotBefore (t : Int) : GoString := format (roundUp t)

/-- The username and the password, or none when either is missing. -/
def credentials (s : Secret) : Option (GoString × GoString) :=
  let username := s.data.get keyUsername
  let password := s.data.get keyPassword
  if username = [] ∨ password = [] then none else some (username, password)

/-! ## Instants -/

theorem le_roundUp (t : Int) : t ≤ roundUp t := by
  have := Int.emod_nonneg t (show second ≠ 0 by decide)
  have := Int.emod_lt_of_pos t (show 0 < second by decide)
  unfold roundUp
  dsimp only
  split_ifs <;> omega

theorem roundUp_lt (t : Int) : roundUp t < t + second := by
  have := Int.emod_nonneg t (show second ≠ 0 by decide)
  have : 0 < second := by decide
  unfold roundUp
  dsimp only
  split_ifs <;> omega

theorem roundUp_mul (unix : Int) : roundUp (unix * second) = unix * second := by
  simp [roundUp]

theorem exists_roundUp (t : Int) : ∃ unix : Int, roundUp t = unix * second := by
  have h := Int.mul_ediv_add_emod t second
  unfold roundUp
  dsimp only
  split_ifs
  · exact ⟨t / second + 1, by rw [Int.add_mul, Int.mul_comm (t / second)]; omega⟩
  · exact ⟨t / second, by rw [Int.mul_comm (t / second)]; omega⟩

theorem roundUp_mono (t u : Int) (h : t ≤ u) : roundUp t ≤ roundUp u := by
  obtain ⟨m, hm⟩ := exists_roundUp t
  obtain ⟨n, hn⟩ := exists_roundUp u
  have hlt := roundUp_lt t
  have hle := le_roundUp u
  rw [hm, hn] at *
  have hpos : 0 < second := by decide
  by_contra hcon
  have hnm : n + 1 ≤ m := by
    by_contra hmn
    exact hcon (Int.mul_le_mul_of_nonneg_right (by omega) hpos.le)
  have := Int.mul_le_mul_of_nonneg_right hnm hpos.le
  rw [Int.add_mul] at this
  omega

/-- The instants whose rendering can be read again: those of the years 0 to 9999. -/
def Representable (t : Int) : Prop := -62167219200 * second ≤ t ∧ t ≤ 253402300799 * second

instance (t : Int) : Decidable (Representable t) := inferInstanceAs (Decidable (_ ∧ _))

/-- The promise that is read back is the instant rounded up. -/
theorem parse_formatRotationNotBefore (t : Int) (h : Representable t) :
    parse (formatRotationNotBefore t) = some (roundUp t) := by
  obtain ⟨unix, hunix⟩ := exists_roundUp t
  have hle := le_roundUp t
  have hlt := roundUp_lt t
  have hlo := h.1
  have hhi := h.2
  have hin : InYears unix := by
    rw [hunix] at hle hlt
    unfold second at hle hlt hlo hhi
    exact ⟨by omega, by omega⟩
  rw [formatRotationNotBefore, hunix]
  exact parse_format unix hin

/-- Rendering a promise that was read keeps it. -/
theorem formatRotationNotBefore_roundUp (t : Int) :
    formatRotationNotBefore (roundUp t) = formatRotationNotBefore t := by
  obtain ⟨unix, hunix⟩ := exists_roundUp t
  rw [formatRotationNotBefore, formatRotationNotBefore, hunix, roundUp_mul]

/-- A promise that can be read back is the instant rounded up. -/
theorem roundUp_of_parse {t u : Int} (h : parse (formatRotationNotBefore t) = some u) :
    u = roundUp t := by
  obtain ⟨unix, hunix⟩ := exists_roundUp t
  rw [formatRotationNotBefore, hunix] at h
  rw [hunix]
  by_cases hyears : InYears unix
  · rw [parse_format unix hyears] at h
    exact (Option.some.inj h).symm
  · have hdiv : unix * second / second = unix := Int.mul_ediv_cancel unix (by decide)
    rw [parse_format_eq_none (by rwa [hdiv])] at h
    cases h

/-- And it is read back as it is when it is rendered again. -/
theorem parse_of_parse {t u : Int} (h : parse (formatRotationNotBefore t) = some u) :
    parse (formatRotationNotBefore u) = some u := by
  rw [roundUp_of_parse h, formatRotationNotBefore_roundUp, h, roundUp_of_parse h]

/-! ## Labels -/

theorem get_insert (m : StringMap) (k v : GoString) : StringMap.get (m.insert k v) k = v := by
  simp [StringMap.get]

theorem get_insert_of_ne (m : StringMap) (k k' v : GoString) (h : k ≠ k') :
    StringMap.get (m.insert k' v) k = StringMap.get m k := by
  simp [StringMap.get, Finmap.lookup_insert_of_ne m h]

/-- The labels that a write stamps, over whatever labels the Secret had. -/
theorem lookup_labels (cluster haNamespace haName : GoString) :
    (labels cluster haNamespace haName).lookup labelManagedBy = some labelManagedByValue ∧
    (labels cluster haNamespace haName).lookup labelCluster = some cluster ∧
    (labels cluster haNamespace haName).lookup labelHarborAccessNamespace = some haNamespace ∧
    (labels cluster haNamespace haName).lookup labelHarborAccessName = some haName := by
  unfold labels
  refine ⟨?_, ?_, ?_, ?_⟩
  · rw [Finmap.lookup_insert_of_ne _ (by decide), Finmap.lookup_insert_of_ne _ (by decide),
      Finmap.lookup_insert_of_ne _ (by decide), Finmap.lookup_singleton_eq]
  · rw [Finmap.lookup_insert_of_ne _ (by decide), Finmap.lookup_insert_of_ne _ (by decide),
      Finmap.lookup_insert]
  · rw [Finmap.lookup_insert_of_ne _ (by decide), Finmap.lookup_insert]
  · rw [Finmap.lookup_insert]

theorem get_union_of_lookup (m m' : StringMap) (k v : GoString) (h : m.lookup k = some v) :
    StringMap.get (m ∪ m') k = v := by
  have hmem : k ∈ m := Finmap.mem_of_lookup_eq_some h
  rw [StringMap.get, Finmap.lookup_union_left hmem, h, Option.getD_some]

end HarborBridge.RobotSecret
