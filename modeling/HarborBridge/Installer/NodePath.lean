import HarborBridge.Lib.GoStrings

/-!
# Node paths

Package main of the installer, main.go: the paths it takes from its configuration and from
kubelet's flags, and the parts of path/filepath it uses, for absolute paths.
-/

namespace HarborBridge.Installer

open GoStrings

def isAbs (p : GoString) : Bool := hasPrefix p [47]

/-- The components of a path that count; `done` are those before it, last first. -/
def cleanFrom : (done : List GoString) → List GoString → List GoString
  | done, [] => done.reverse
  | done, c :: rest =>
    if c = [] ∨ c = lit "." then cleanFrom done rest
    else if c = lit ".." then cleanFrom done.tail rest
    else cleanFrom (c :: done) rest

def components (p : GoString) : List GoString := cleanFrom [] (split p 47)

/-- filepath.Clean of an absolute path. -/
def clean (p : GoString) : GoString := 47 :: join (components p) 47

/-- filepath.Join of a directory and a name below it. -/
def pathJoin (dir name : GoString) : GoString := clean (dir ++ 47 :: name)

/-- filepath.Dir of a clean absolute path. -/
def pathDir (p : GoString) : GoString := 47 :: join (components p).dropLast 47

/-- filepath.Base of a clean absolute path. -/
def pathBase (p : GoString) : GoString := ((components p).getLast?).getD [47]

def nodePathChar (b : UInt8) : Bool :=
  (65 ≤ b && b ≤ 90) || (97 ≤ b && b ≤ 122) || isDigit b || decide (b ∈ [46, 95, 47, 45])

/-- A slash, then letters, digits, dots, underscores, slashes and dashes, at least one. -/
def nodePathChars (p : GoString) : Bool :=
  match p with
  | 47 :: rest => decide (rest ≠ []) && rest.all nodePathChar
  | _ => false

def validNodePath (p : GoString) : Bool := isAbs p && (clean p == p) && nodePathChars p

def withinDir (p dir : GoString) : Bool := p == dir || hasPrefix p (dir ++ [47])

def dirsOverlap (a b : GoString) : Bool := withinDir a b || withinDir b a

theorem nodePathChar_bounds {b : UInt8} (h : nodePathChar b = true) :
    45 ≤ b.toNat ∧ b.toNat ≤ 122 ∧ b ≠ 92 ∧ b ≠ 96 := by
  have hne : b ≠ 92 ∧ b ≠ 96 := by
    constructor
    · rintro rfl
      exact absurd h (by decide)
    · rintro rfl
      exact absurd h (by decide)
  refine and_assoc.mp ⟨?_, hne⟩
  simp only [nodePathChar, isDigit, Bool.or_eq_true, Bool.and_eq_true, decide_eq_true_eq,
    List.mem_cons, List.not_mem_nil, or_false, UInt8.le_iff_toNat_le] at h
  rcases h with ((⟨h1, h2⟩ | ⟨h1, h2⟩) | ⟨h1, h2⟩) | rfl | rfl | rfl | rfl
  all_goals simp_all
  all_goals omega

end HarborBridge.Installer
