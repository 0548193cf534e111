import HarborBridge.Lib.DnsNames
import HarborBridge.Lib.Sha256

/-! Robot names and the ownership that they express (package harbor, naming.go). -/
namespace HarborBridge

open GoStrings DnsNames

def robotNameCap : Nat := 240

def hashSuffixLen : Nat := 16

def robotNamePrefix : GoString := lit "bridge-"

/-- What `^[a-z0-9]+(?:[._-][a-z0-9]+)*$` still accepts; `segment` says that a
segment has begun, so that the text may end here. -/
def robotNameRegexFrom : (segment : Bool) → GoString → Bool
  | segment, [] => segment
  | segment, b :: s =>
    if alnum b then robotNameRegexFrom true s
    else segment && (b == 46 || b == 95 || b == 45) && robotNameRegexFrom false s

/-- `robotNameRegex` and `projectNamePattern` are the same pattern. -/
def robotNameRegex (s : GoString) : Bool := robotNameRegexFrom false s

inductive RobotNameErr where
  | clusterNameTooLong (cluster : GoString)
  | invalidRobotName (name : GoString)
  deriving DecidableEq

def hashOf (s : GoString) : GoString :=
  (Sha256.encodeToString (Sha256.sum256 s)).take hashSuffixLen

def fullRobotName (cluster saNamespace saName : GoString) : GoString :=
  robotNamePrefix ++ cluster ++ 46 :: saNamespace ++ 46 :: saName

def clusterPrefix (cluster : GoString) : GoString := robotNamePrefix ++ cluster ++ [46]

def nameBudget (cluster : GoString) : Int :=
  robotNameCap - (clusterPrefix cluster).length - 1 - hashSuffixLen

/-- What a truncated name keeps of the identity. The cut can leave separators at the
end, which Harbor does not accept there. -/
def truncatedIdentity (cluster saNamespace saName : GoString) : GoString :=
  trimRight ((saNamespace ++ 46 :: saName).take (nameBudget cluster).toNat) (lit "-._")

/-- The source's `robotName`: the name before Harbor's pattern is checked. -/
def robotNameUnchecked (cluster saNamespace saName : GoString) :
    Except RobotNameErr GoString :=
  let full := fullRobotName cluster saNamespace saName
  if full.length ≤ robotNameCap then .ok full
  else
    let digest := hashOf full
    if nameBudget cluster < 1 then .error (.clusterNameTooLong cluster)
    else
      let mid := truncatedIdentity cluster saNamespace saName
      if mid = [] then .ok (clusterPrefix cluster ++ digest)
      else .ok (clusterPrefix cluster ++ mid ++ 46 :: digest)

/-- The source's `RobotName`. -/
def robotName (cluster saNamespace saName : GoString) : Except RobotNameErr GoString := do
  let name ← robotNameUnchecked cluster saNamespace saName
  if robotNameRegex name then .ok name else .error (.invalidRobotName name)

def ownsRobot (cluster name : GoString) : Bool :=
  if cluster = [] then false else hasPrefix name (clusterPrefix cluster)

def ownsLegacyRobot (cluster name : GoString) : Bool :=
  if cluster = [] then false
  else
    match cutPrefix name (robotNamePrefix ++ cluster ++ [45]) with
    | none => false
    | some rest => rest != [] && !rest.contains 46

def projectNameMaxLen : Nat := 255

/-- `ValidateProjectName` returns no error. -/
def validProjectName (name : GoString) : Bool :=
  name.length != 0 && name.length ≤ projectNameMaxLen && robotNameRegex name

theorem robotName_eq_ok (cluster saNamespace saName name : GoString) :
    robotName cluster saNamespace saName = .ok name ↔
      robotNameUnchecked cluster saNamespace saName = .ok name ∧ robotNameRegex name = true := by
  unfold robotName
  cases h : robotNameUnchecked cluster saNamespace saName with
  | error e => simp [bind, Except.bind]
  | ok raw =>
    by_cases hr : robotNameRegex raw = true
    · simp only [bind, Except.bind, hr, if_true, Except.ok.injEq]
      exact ⟨fun hn => ⟨hn, hn ▸ hr⟩, fun hn => hn.1⟩
    · simp only [bind, Except.bind, hr, Bool.false_eq_true, if_false, reduceCtorEq,
        Except.ok.injEq, false_iff, not_and]
      exact fun hn => hn ▸ hr

theorem hashOf_length (s : GoString) : (hashOf s).length = hashSuffixLen := by
  simp [hashOf, Sha256.encodeToString_length, Sha256.sum256_length, hashSuffixLen]

theorem hashOf_isHexDigit (s : GoString) : ∀ b ∈ hashOf s, Sha256.isHexDigit b = true :=
  fun b hb => Sha256.encodeToString_isHexDigit _ b (List.mem_of_mem_take hb)

theorem fullRobotName_eq (cluster saNamespace saName : GoString) :
    fullRobotName cluster saNamespace saName =
      clusterPrefix cluster ++ (saNamespace ++ 46 :: saName) := by
  simp [fullRobotName, clusterPrefix]

theorem clusterPrefix_length (cluster : GoString) :
    (clusterPrefix cluster).length = cluster.length + 8 := by
  simp [clusterPrefix, robotNamePrefix, lit]

/-- Every robot name begins with the ownership prefix of its cluster. -/
theorem robotName_clusterPrefix (cluster saNamespace saName name : GoString)
    (h : robotName cluster saNamespace saName = .ok name) :
    ∃ rest, name = clusterPrefix cluster ++ rest := by
  rw [robotName_eq_ok] at h
  have hraw := h.1
  unfold robotNameUnchecked at hraw
  dsimp only at hraw
  split_ifs at hraw
  · exact ⟨_, by rw [← Except.ok.inj hraw, fullRobotName_eq]⟩
  · exact ⟨_, (Except.ok.inj hraw).symm⟩
  · exact ⟨_, by rw [← Except.ok.inj hraw, List.append_assoc]⟩

theorem ownsRobot_iff (cluster name : GoString) :
    ownsRobot cluster name = true ↔ cluster ≠ [] ∧ ∃ rest, name = clusterPrefix cluster ++ rest := by
  unfold ownsRobot
  split_ifs with h
  · simp [h]
  · simp [h, hasPrefix_iff]

theorem ownsRobot_robotName (cluster saNamespace saName name : GoString) (hc : cluster ≠ [])
    (h : robotName cluster saNamespace saName = .ok name) : ownsRobot cluster name = true :=
  (ownsRobot_iff cluster name).mpr
    ⟨hc, robotName_clusterPrefix cluster saNamespace saName name h⟩

/-- A cluster name of a DNS label's length leaves room for the rest of a robot name. -/
theorem robotName_error (cluster saNamespace saName : GoString) (hlen : cluster.length ≤ 63)
    (e : RobotNameErr) (h : robotName cluster saNamespace saName = .error e) :
    ∃ name, e = .invalidRobotName name := by
  have hbudget : ¬ nameBudget cluster < 1 := by
    have hprefixed := clusterPrefix_length cluster
    simp only [nameBudget, robotNameCap, hashSuffixLen]
    omega
  unfold robotName at h
  cases hraw : robotNameUnchecked cluster saNamespace saName with
  | error e' =>
    unfold robotNameUnchecked at hraw
    dsimp only at hraw
    split_ifs at hraw
  | ok name =>
    rw [hraw] at h
    change (if robotNameRegex name then Except.ok name else .error (.invalidRobotName name)) =
      Except.error e at h
    split_ifs at h
    exact ⟨name, (Except.error.inj h).symm⟩

theorem ownsLegacyRobot_iff (cluster name : GoString) :
    ownsLegacyRobot cluster name = true ↔ cluster ≠ [] ∧ ∃ rest, rest ≠ [] ∧ 46 ∉ rest ∧
      name = robotNamePrefix ++ cluster ++ 45 :: rest := by
  unfold ownsLegacyRobot
  split_ifs with h
  · simp [h]
  · simp only [h, ne_eq, not_false_eq_true, true_and]
    have happ : ∀ rest, robotNamePrefix ++ cluster ++ 45 :: rest =
        robotNamePrefix ++ cluster ++ [45] ++ rest := by simp
    constructor
    · intro hm
      split at hm
      · cases hm
      · next rest hrest =>
        rw [cutPrefix_eq_some] at hrest
        simp only [Bool.and_eq_true, bne_iff_ne, ne_eq, Bool.not_eq_true',
          List.contains_eq_mem, decide_eq_false_iff_not] at hm
        exact ⟨rest, hm.1, hm.2, hrest.trans (happ rest).symm⟩
    · rintro ⟨rest, hne, hdot, rfl⟩
      rw [happ, cutPrefix_append]
      simp [hne, hdot]

/-- The current and the legacy names of a cluster differ right after its name. -/
theorem ownsLegacyRobot_of_ownsRobot (cluster name : GoString)
    (h : ownsRobot cluster name = true) : ownsLegacyRobot cluster name = false := by
  obtain ⟨-, rest, rfl⟩ := (ownsRobot_iff cluster name).mp h
  rw [← Bool.not_eq_true, ownsLegacyRobot_iff]
  rintro ⟨-, rest', -, -, happ⟩
  simp only [clusterPrefix, List.append_assoc] at happ
  have hhead := List.append_cancel_left (List.append_cancel_left happ)
  simp at hhead

/-! ## Different identities have different names -/

/-- The cut of a long name falls inside the ServiceAccount name. Every namespace that
Kubernetes admits is short enough for that. -/
def CutInName (cluster saNamespace : GoString) : Prop :=
  cluster.length + saNamespace.length ≤ 213

instance (cluster saNamespace : GoString) : Decidable (CutInName cluster saNamespace) :=
  inferInstanceAs (Decidable (_ ≤ _))

theorem not_mem_separators {x : UInt8} (hx : alnum x = true) : x ∉ lit "-._" := by
  intro hmem
  have hsep : x = 45 ∨ x = 46 ∨ x = 95 := by simpa [lit] using hmem
  rcases hsep with rfl | rfl | rfl <;> simp [alnum] at hx

/-- A label that is cut after its first character is one, without separators at the end. -/
theorem dnsLabel_trimRight_take {x : UInt8} {rest : GoString} (hs : DnsLabel (x :: rest)) (n : Nat) :
    DnsLabel (x :: trimRight (rest.take n) (lit "-._")) ∧
      x :: trimRight (rest.take n) (lit "-._") <+: x :: rest := by
  have hprefixed : x :: trimRight (rest.take n) (lit "-._") <+: x :: rest :=
    List.cons_prefix_cons.mpr ⟨rfl, (List.rdropWhile_prefix _ _).trans (List.take_prefix n rest)⟩
  refine ⟨⟨fun b hb => hs.chars b (hprefixed.subset hb), hs.first, ?_⟩, hprefixed⟩
  rw [List.getLast?_cons]
  by_cases hempty : trimRight (rest.take n) (lit "-._") = []
  · rw [hempty]
    exact hs.first
  · -- the last character is no separator, and in a label only hyphens are separators
    have hlast := List.rdropWhile_last_not (fun b => decide (b ∈ lit "-._")) (rest.take n) hempty
    change ¬ decide ((trimRight (rest.take n) (lit "-._")).getLast hempty ∈ lit "-._") = true at hlast
    have hmem := hprefixed.subset (List.mem_cons_of_mem x (List.getLast_mem hempty))
    rw [List.getLast?_eq_getLast_of_ne_nil hempty, Option.getD_some, Option.any_some]
    rcases hs.chars _ hmem with hb | hb
    · exact hb
    · rw [hb] at hlast
      exact absurd rfl hlast

theorem truncatedIdentity_eq (cluster saNamespace saName : GoString)
    (hsa : DnsLabel saName) (hcut : CutInName cluster saNamespace) :
    ∃ part, DnsLabel part ∧ part <+: saName ∧
      truncatedIdentity cluster saNamespace saName = saNamespace ++ 46 :: part := by
  unfold CutInName at hcut
  obtain ⟨n, hn⟩ : ∃ n, (nameBudget cluster).toNat = saNamespace.length + (n + 2) := by
    refine ⟨213 - cluster.length - saNamespace.length, ?_⟩
    simp only [nameBudget, clusterPrefix_length, robotNameCap, hashSuffixLen]
    omega
  obtain ⟨x, rest, rfl⟩ := List.exists_cons_of_ne_nil hsa.ne_nil
  obtain ⟨hlabel, hprefixed⟩ := dnsLabel_trimRight_take hsa n
  refine ⟨_, hlabel, hprefixed, ?_⟩
  have htake : (saNamespace ++ 46 :: x :: rest).take (saNamespace.length + (n + 2)) =
      (saNamespace ++ [46]) ++ x :: rest.take n := by
    rw [List.take_length_add_append]
    simp
  -- the first letter of the ServiceAccount name is kept, and trimming stops there
  rw [truncatedIdentity, hn, htake, trimRight_append _ _ _ x (not_mem_separators hsa.first)]
  simp

/-- The two forms of a robot name: the natural one, and a truncated one that keeps a
part of the ServiceAccount name and ends in the digest. -/
theorem robotNameUnchecked_cases (cluster saNamespace saName name : GoString)
    (hsa : DnsLabel saName) (hcut : CutInName cluster saNamespace)
    (h : robotNameUnchecked cluster saNamespace saName = .ok name) :
    name = clusterPrefix cluster ++ (saNamespace ++ 46 :: saName) ∨
    ∃ part, 46 ∉ part ∧ robotNameCap < (fullRobotName cluster saNamespace saName).length ∧
      name = clusterPrefix cluster ++ (saNamespace ++ 46 :: (part ++
        46 :: hashOf (fullRobotName cluster saNamespace saName))) := by
  obtain ⟨part, hlabel, -, hpart⟩ := truncatedIdentity_eq cluster saNamespace saName hsa hcut
  have hdot : 46 ∉ part := hlabel.not_mem 46 (by decide)
  unfold robotNameUnchecked at h
  simp only [hpart] at h
  split_ifs at h with hshort hbudget hmid
  · exact .inl (by rw [← Except.ok.inj h, fullRobotName_eq])
  · simp at hmid
  · exact .inr ⟨part, hdot, by omega, by rw [← Except.ok.inj h]; simp⟩

/-- Two identities of one cluster that have the same robot name are the same, if the
digests of their full names differ unless the names are equal. -/
theorem robotNameUnchecked_injective (cluster ns sa ns' sa' name : GoString)
    (hns : DnsLabel ns) (hsa : DnsLabel sa) (hns' : DnsLabel ns') (hsa' : DnsLabel sa')
    (hcut : CutInName cluster ns) (hcut' : CutInName cluster ns')
    (hdigest : robotNameCap < (fullRobotName cluster ns sa).length →
      robotNameCap < (fullRobotName cluster ns' sa').length →
      hashOf (fullRobotName cluster ns sa) = hashOf (fullRobotName cluster ns' sa') →
      fullRobotName cluster ns sa = fullRobotName cluster ns' sa')
    (h : robotNameUnchecked cluster ns sa = .ok name)
    (h' : robotNameUnchecked cluster ns' sa' = .ok name) : ns = ns' ∧ sa = sa' := by
  have hdot : 46 ∉ ns := hns.not_mem 46 (by decide)
  have hdot' : 46 ∉ ns' := hns'.not_mem 46 (by decide)
  have hsadot : 46 ∉ sa := hsa.not_mem 46 (by decide)
  have hsadot' : 46 ∉ sa' := hsa'.not_mem 46 (by decide)
  -- the part before the first dot is the namespace, whatever follows it
  have hsplit : ∀ r r' : GoString, clusterPrefix cluster ++ (ns ++ 46 :: r) =
      clusterPrefix cluster ++ (ns' ++ 46 :: r') → ns = ns' ∧ r = r' := by
    intro r r' heq
    have hcuts := congrArg (cut · 46) (List.append_cancel_left heq)
    simpa [cut_append, hdot, hdot'] using hcuts
  rcases robotNameUnchecked_cases cluster ns sa name hsa hcut h with
    hnat | ⟨part, hpart, hlong, htrunc⟩
  · rcases robotNameUnchecked_cases cluster ns' sa' name hsa' hcut' h' with
      hnat' | ⟨part', _, _, htrunc'⟩
    · exact hsplit _ _ (hnat.symm.trans hnat')
    · have hsame := (hsplit _ _ (hnat.symm.trans htrunc')).2
      exact absurd (hsame ▸ by simp) hsadot
  · rcases robotNameUnchecked_cases cluster ns' sa' name hsa' hcut' h' with
      hnat' | ⟨part', hpart', hlong', htrunc'⟩
    · have hsame := (hsplit _ _ (htrunc.symm.trans hnat')).2
      exact absurd (hsame ▸ by simp) hsadot'
    · have hsame := (hsplit _ _ (htrunc.symm.trans htrunc')).2
      have hcuts := congrArg (cut · 46) hsame
      simp only [cut_append _ _ _ hpart, cut_append _ _ _ hpart', Option.some.injEq,
        Prod.mk.injEq] at hcuts
      have hfull := hdigest hlong hlong' hcuts.2
      rw [fullRobotName_eq, fullRobotName_eq] at hfull
      exact hsplit _ _ hfull

/-! ## Names that Harbor accepts -/

def DoubleHyphen (s : GoString) : Prop := [45, 45] <:+: s

instance (s : GoString) : Decidable (DoubleHyphen s) := inferInstanceAs (Decidable (_ <:+: _))

theorem doubleHyphen_cons_alnum {b : UInt8} (s : GoString) (hb : b ≠ 45) :
    DoubleHyphen (b :: s) ↔ DoubleHyphen s := by
  unfold DoubleHyphen
  rw [List.infix_cons_iff, List.cons_prefix_cons]
  exact or_iff_right fun h => hb h.1.symm

theorem doubleHyphen_cons_hyphen (s : GoString) :
    DoubleHyphen (45 :: s) ↔ s.head? = some 45 ∨ DoubleHyphen s := by
  unfold DoubleHyphen
  rw [List.infix_cons_iff, List.cons_prefix_cons]
  cases s with
  | nil => simp
  | cons x s => simp [eq_comm]

/-- The pattern reads letters, digits and hyphens up to a letter or a digit: no hyphen may follow
another one, nor begin a segment. -/
theorem robotNameRegexFrom_append (s t : GoString) (segment : Bool)
    (hchars : ∀ b ∈ s, alnum b = true ∨ b = 45)
    (hlast : s.getLast?.any alnum = true ∨ s = [] ∧ segment = true) :
    robotNameRegexFrom segment (s ++ t) = true ↔
      ¬ DoubleHyphen s ∧ (segment = false → s.head? ≠ some 45) ∧ robotNameRegexFrom true t = true := by
  induction s generalizing segment with
  | nil =>
    have hsegment : segment = true := by
      rcases hlast with h | h
      · cases h
      · exact h.2
    subst hsegment
    simp [DoubleHyphen]
  | cons b s ih =>
    have hchars' : ∀ x ∈ s, alnum x = true ∨ x = 45 := fun x hx => hchars x (List.mem_cons_of_mem b hx)
    have hlast' : s ≠ [] → s.getLast?.any alnum = true := by
      intro hne
      rcases hlast with h | h
      · rwa [List.getLast?_cons_of_ne_nil hne] at h
      · cases h.1
    rcases hchars b List.mem_cons_self with hb | rfl
    · -- a letter or a digit goes on with a segment or begins one
      have hne : b ≠ 45 := by
        rintro rfl
        cases hb
      have hend : s.getLast?.any alnum = true ∨ s = [] ∧ true = true := by
        by_cases hs : s = []
        · exact .inr ⟨hs, rfl⟩
        · exact .inl (hlast' hs)
      rw [List.cons_append, robotNameRegexFrom, if_pos hb, ih true hchars' hend,
        doubleHyphen_cons_alnum s hne]
      simp [hne]
    · -- a hyphen ends a segment, and is not the last character
      have hs : s ≠ [] := by
        rintro rfl
        rcases hlast with h | h
        · cases h
        · cases h.1
      have hsep : alnum 45 = false := by decide
      rw [List.cons_append, robotNameRegexFrom, hsep, doubleHyphen_cons_hyphen]
      have hiff := ih false hchars' (.inl (hlast' hs))
      cases segment with
      | false => simp
      | true =>
        have hstep : (if false = true then robotNameRegexFrom true (s ++ t) else
            true && ((45 : UInt8) == 46 || (45 : UInt8) == 95 || (45 : UInt8) == 45) &&
              robotNameRegexFrom false (s ++ t)) = robotNameRegexFrom false (s ++ t) := rfl
        rw [hstep, hiff, not_or]
        constructor
        · rintro ⟨hdouble, hhead, ht⟩
          exact ⟨⟨hhead rfl, hdouble⟩, nofun, ht⟩
        · rintro ⟨⟨hhead, hdouble⟩, -, ht⟩
          exact ⟨hdouble, fun _ => hhead, ht⟩

theorem DnsLabel.head_ne {s : GoString} (hs : DnsLabel s) : s.head? ≠ some 45 := by
  intro h
  have hfirst := hs.first
  rw [h] at hfirst
  cases hfirst

/-- A label and then the rest of the name. -/
theorem robotNameRegex_label {s : GoString} (hs : DnsLabel s) (t : GoString) :
    robotNameRegexFrom false (s ++ t) = true ↔
      ¬ DoubleHyphen s ∧ robotNameRegexFrom true t = true := by
  rw [robotNameRegexFrom_append s t false hs.chars (.inl hs.last)]
  exact and_congr_right fun _ => and_iff_right fun _ => DnsLabel.head_ne hs

theorem robotNameRegex_dot (t : GoString) :
    robotNameRegexFrom true (46 :: t) = robotNameRegexFrom false t := rfl

theorem alnum_of_isHexDigit {b : UInt8} (h : Sha256.isHexDigit b = true) : alnum b = true := by
  rw [alnum_iff]
  simp only [Sha256.isHexDigit, Bool.or_eq_true, Bool.and_eq_true, decide_eq_true_eq,
    UInt8.le_iff_toNat_le, UInt8.reduceToNat] at h
  omega

theorem robotNameRegex_hashOf (s : GoString) : robotNameRegexFrom false (hashOf s) = true := by
  have halnum : ∀ b ∈ hashOf s, alnum b = true := fun b hb =>
    alnum_of_isHexDigit (hashOf_isHexDigit s b hb)
  have hall : ∀ t : GoString, (∀ b ∈ t, alnum b = true) → robotNameRegexFrom true t = true := by
    intro t ht
    induction t with
    | nil => rfl
    | cons b t ih =>
      rw [robotNameRegexFrom, if_pos (ht b List.mem_cons_self)]
      exact ih fun x hx => ht x (List.mem_cons_of_mem b hx)
  have hne : hashOf s ≠ [] := by
    intro h
    have hlength := hashOf_length s
    rw [h] at hlength
    cases hlength
  obtain ⟨b, rest, heq⟩ := List.exists_cons_of_ne_nil hne
  rw [heq] at halnum ⊢
  rw [robotNameRegexFrom, if_pos (halnum b List.mem_cons_self)]
  exact hall rest fun x hx => halnum x (List.mem_cons_of_mem b hx)

def keptName (cluster saNamespace saName : GoString) : GoString :=
  if (fullRobotName cluster saNamespace saName).length ≤ robotNameCap then saName
  else (truncatedIdentity cluster saNamespace saName).drop (saNamespace.length + 1)

def nameDigest (cluster saNamespace saName : GoString) : GoString :=
  if (fullRobotName cluster saNamespace saName).length ≤ robotNameCap then []
  else 46 :: hashOf (fullRobotName cluster saNamespace saName)

section Exact

variable {cluster saNamespace saName : GoString}

theorem robotNameUnchecked_eq (hsa : DnsLabel saName) (hcut : CutInName cluster saNamespace) :
    DnsLabel (keptName cluster saNamespace saName) ∧
      robotNameUnchecked cluster saNamespace saName = .ok (clusterPrefix cluster ++ (saNamespace ++
        46 :: (keptName cluster saNamespace saName ++ nameDigest cluster saNamespace saName))) := by
  obtain ⟨part, hlabel, -, hpart⟩ := truncatedIdentity_eq cluster saNamespace saName hsa hcut
  have hdrop : (truncatedIdentity cluster saNamespace saName).drop (saNamespace.length + 1) = part := by
    rw [hpart, List.drop_length_add_append]
    rfl
  have hbudget : ¬ nameBudget cluster < 1 := by
    unfold CutInName at hcut
    simp only [nameBudget, clusterPrefix_length, robotNameCap, hashSuffixLen]
    omega
  unfold robotNameUnchecked keptName nameDigest
  dsimp only
  by_cases hshort : (fullRobotName cluster saNamespace saName).length ≤ robotNameCap
  · rw [if_pos hshort, if_pos hshort, if_pos hshort, List.append_nil, fullRobotName_eq]
    exact ⟨hsa, rfl⟩
  · rw [if_neg hshort, if_neg hshort, if_neg hshort, if_neg hbudget, hdrop, hpart,
      if_neg (by simp)]
    exact ⟨hlabel, by simp⟩

theorem robotNameUnchecked_length {name : GoString}
    (h : robotNameUnchecked cluster saNamespace saName = .ok name) : name.length ≤ robotNameCap := by
  have hmid : (truncatedIdentity cluster saNamespace saName).length ≤ (nameBudget cluster).toNat :=
    (List.rdropWhile_prefix _ _).length_le.trans (List.length_take_le _ _)
  have hdigest := hashOf_length (fullRobotName cluster saNamespace saName)
  unfold robotNameUnchecked at h
  dsimp only at h
  unfold nameBudget at h hmid
  unfold hashSuffixLen at h hmid hdigest
  unfold robotNameCap at h hmid ⊢
  split_ifs at h with hshort hbudget hempty
  · rw [← Except.ok.inj h]
    exact hshort
  · rw [← Except.ok.inj h, List.length_append]
    omega
  · rw [← Except.ok.inj h, List.length_append, List.length_append, List.length_cons]
    omega

/-- Harbor accepts the name if there are no two hyphens in a row in the parts of the identity that
it is made of. -/
theorem robotName_isOk (hcluster : DnsLabel cluster) (hns : DnsLabel saNamespace)
    (hsa : DnsLabel saName) (hcut : CutInName cluster saNamespace) :
    (∃ name, robotName cluster saNamespace saName = .ok name) ↔ ¬ DoubleHyphen cluster ∧
      ¬ DoubleHyphen saNamespace ∧ ¬ DoubleHyphen (keptName cluster saNamespace saName) := by
  obtain ⟨hkept, hname⟩ := robotNameUnchecked_eq hsa hcut
  have hdigest : robotNameRegexFrom true (nameDigest cluster saNamespace saName) = true := by
    unfold nameDigest
    split_ifs
    · rfl
    · exact robotNameRegex_hashOf _
  have hpattern (rest : GoString) : robotNameRegex (clusterPrefix cluster ++ rest) = true ↔
      ¬ DoubleHyphen cluster ∧ robotNameRegexFrom false rest = true := by
    have hstart : robotNameRegex (clusterPrefix cluster ++ rest) =
        robotNameRegexFrom false (cluster ++ 46 :: rest) := by
      rw [clusterPrefix, List.append_assoc, List.append_assoc]
      rfl
    rw [hstart, robotNameRegex_label hcluster, robotNameRegex_dot]
  simp only [robotName_eq_ok, hname, Except.ok.injEq, exists_eq_left', hpattern,
    robotNameRegex_label hns, robotNameRegex_dot, robotNameRegex_label hkept, hdigest, and_true]

theorem ownsRobot_unique {cluster' name : GoString} (hdot : 46 ∉ cluster) (hdot' : 46 ∉ cluster')
    (h : ownsRobot cluster name = true) (h' : ownsRobot cluster' name = true) :
    cluster = cluster' := by
  obtain ⟨-, rest, rfl⟩ := (ownsRobot_iff cluster name).mp h
  obtain ⟨-, rest', heq⟩ := (ownsRobot_iff cluster' _).mp h'
  simp only [clusterPrefix, List.append_assoc, List.singleton_append] at heq
  have hcuts := congrArg (cut · 46) (List.append_cancel_left heq)
  simp only [cut_append _ _ _ hdot, cut_append _ _ _ hdot', Option.some.injEq, Prod.mk.injEq] at hcuts
  exact hcuts.1

theorem ownsLegacyRobot_eq_false {cluster' name : GoString} (hdot' : 46 ∉ cluster')
    (h : ownsRobot cluster name = true) : ownsLegacyRobot cluster' name = false := by
  obtain ⟨-, rest, rfl⟩ := (ownsRobot_iff cluster name).mp h
  rw [← Bool.not_eq_true, ownsLegacyRobot_iff]
  rintro ⟨-, legacy, -, hlegacy, heq⟩
  have hprefixed : 46 ∉ robotNamePrefix := by decide
  have hmem : 46 ∈ robotNamePrefix ++ cluster' ++ 45 :: legacy := by
    rw [← heq, clusterPrefix]
    simp
  simp [hprefixed, hdot', hlegacy] at hmem

/-- The identities that Kubernetes admits, for a cluster name that the configuration admits. -/
structure Identity (cluster saNamespace saName : GoString) : Prop where
  cluster_label : DnsLabel cluster
  cluster_length : cluster.length ≤ 63
  ns_label : DnsLabel saNamespace
  ns_length : saNamespace.length ≤ 63
  name_label : DnsLabel saName
  name_length : saName.length ≤ 253

theorem Identity.cutInName (h : Identity cluster saNamespace saName) :
    CutInName cluster saNamespace := by
  have hcluster := h.cluster_length
  have hns := h.ns_length
  unfold CutInName
  omega

theorem Identity.dotFree (h : Identity cluster saNamespace saName) : 46 ∉ cluster :=
  h.cluster_label.not_mem 46 (by decide)

/-- Robot names are valid for Harbor, belong to one cluster, and are different for different
identities. -/
theorem robotName_exact (cluster saNamespace saName : GoString)
    (h : Identity cluster saNamespace saName) :
    ((∃ name, robotName cluster saNamespace saName = .ok name) ↔ ¬ DoubleHyphen cluster ∧
      ¬ DoubleHyphen saNamespace ∧ ¬ DoubleHyphen (keptName cluster saNamespace saName)) ∧
    (∀ e, robotName cluster saNamespace saName = .error e → ∃ name, e = .invalidRobotName name) ∧
    ∀ name, robotName cluster saNamespace saName = .ok name →
      name.length ≤ 240 ∧ robotNameRegex name = true ∧ ownsRobot cluster name = true ∧
      (∀ other, DnsLabel other → other ≠ cluster →
        ownsRobot other name = false ∧ ownsLegacyRobot other name = false) ∧
      ∀ cluster' saNamespace' saName', Identity cluster' saNamespace' saName' →
        (hashOf (fullRobotName cluster saNamespace saName) =
            hashOf (fullRobotName cluster' saNamespace' saName') →
          fullRobotName cluster saNamespace saName =
            fullRobotName cluster' saNamespace' saName') →
        robotName cluster' saNamespace' saName' = .ok name →
        cluster' = cluster ∧ saNamespace' = saNamespace ∧ saName' = saName := by
  refine ⟨robotName_isOk h.cluster_label h.ns_label h.name_label h.cutInName,
    robotName_error cluster saNamespace saName h.cluster_length, fun name hname => ?_⟩
  have howns := ownsRobot_robotName cluster saNamespace saName name h.cluster_label.ne_nil hname
  obtain ⟨hunchecked, hpattern⟩ := (robotName_eq_ok ..).mp hname
  refine ⟨robotNameUnchecked_length hunchecked, hpattern, howns, fun other hother hne => ?_, ?_⟩
  · have hdot : 46 ∉ other := hother.not_mem 46 (by decide)
    refine ⟨?_, ownsLegacyRobot_eq_false hdot howns⟩
    rw [← Bool.not_eq_true]
    exact fun h' => hne (ownsRobot_unique hdot h.dotFree h' howns)
  · intro cluster' saNamespace' saName' h' hdigest hname'
    have howns' := ownsRobot_robotName _ _ _ name h'.cluster_label.ne_nil hname'
    obtain rfl := ownsRobot_unique h'.dotFree h.dotFree howns' howns
    obtain ⟨hns, hsa⟩ := robotNameUnchecked_injective cluster' saNamespace saName saNamespace' saName'
      name h.ns_label h.name_label h'.ns_label h'.name_label h.cutInName h'.cutInName
      (fun _ _ => hdigest) hunchecked
      ((robotName_eq_ok ..).mp hname').1
    exact ⟨rfl, hns.symm, hsa.symm⟩

/-- A ServiceAccount name that is cut, with two hyphens in a row in the part that is lost. -/
theorem robotName_exact_cut : ∃ name, robotName (lit "prod") (lit "team")
      (List.replicate 230 97 ++ lit "--a") = .ok name ∧ name.length ≤ 240 ∧
    ownsRobot (lit "prod") name = true := by
  have hidentity : Identity (lit "prod") (lit "team") (List.replicate 230 97 ++ lit "--a") :=
    ⟨by decide, by decide, by decide, by decide, by decide +kernel, by decide +kernel⟩
  obtain ⟨hok, -, hname⟩ := robotName_exact _ _ _ hidentity
  obtain ⟨name, hname'⟩ := hok.mpr ⟨by decide, by decide, by decide +kernel⟩
  obtain ⟨hlength, -, howns, -⟩ := hname name hname'
  exact ⟨name, hname', hlength, howns⟩

end Exact

end HarborBridge
