import HarborBridge.BridgeConfig
import HarborBridge.RobotSecret

/-!
# Events of robot Secrets

Package controlplane, reconciler.go: which HarborAccess objects an event of a Secret concerns.
-/

namespace HarborBridge

open GoStrings DnsNames RobotSecret

abbrev NamespacedName := GoString × GoString

/-- The HarborAccess that the labels of a Secret of this cluster name. -/
def labelledRequests (c : Config) (s : Secret) : List NamespacedName :=
  if s.labels.get labelCluster = c.clusterName then (owner s).toList else []

def secretToHarborAccess (c : Config) (s : Secret) : List NamespacedName :=
  if s.ns ≠ c.ns then []
  else
    let reqs := labelledRequests c s
    match parseName s.name with
    | none => reqs
    | some key => if reqs.head? = some key then reqs else reqs ++ [key]

/-! ## Names -/

/-- The CRD limits the names of HarborAccess objects. -/
def ObjectKey.Admitted (key : ObjectKey) : Prop := key.name.length ≤ 63

theorem ObjectKey.Admitted.name_eq {key : ObjectKey} (h : key.Admitted) :
    RobotSecret.name key.ns key.name = namePrefix ++ (key.ns ++ 46 :: key.name) := by
  have hns := key.ns_length
  have hname : key.name.length ≤ 63 := h
  have hprefixed : namePrefix.length = 6 := rfl
  have hfits : (namePrefix ++ key.ns ++ 46 :: key.name).length ≤ nameMax := by
    simp only [List.length_append, List.length_cons, hprefixed, nameMax]
    omega
  unfold RobotSecret.name
  rw [if_pos hfits, List.append_assoc]

theorem ObjectKey.Admitted.parseName_name {key : ObjectKey} (h : key.Admitted) :
    parseName (RobotSecret.name key.ns key.name) = some (key.ns, key.name) := by
  have hdot : 46 ∉ key.ns := key.ns_valid.not_mem 46 (by decide)
  have hprefixed : cutPrefix (RobotSecret.name key.ns key.name) namePrefix =
      some (key.ns ++ 46 :: key.name) :=
    (cutPrefix_eq_some _ _ _).mpr h.name_eq
  simp [parseName, hprefixed, cut_append _ _ _ hdot, key.ns_valid.ne_nil, key.name_ne_nil]

/-! ## Events -/

/-- The labels name a HarborAccess of this cluster: the Secret is managed, and has both owner
labels and the label of this cluster. -/
def FullyLabelled (c : Config) (s : Secret) : Prop :=
  isManaged s = true ∧ s.labels.get labelHarborAccessNamespace ≠ [] ∧
    s.labels.get labelHarborAccessName ≠ [] ∧ s.labels.get labelCluster = c.clusterName

def labelledOwner (s : Secret) : NamespacedName :=
  (s.labels.get labelHarborAccessNamespace, s.labels.get labelHarborAccessName)

theorem labelledRequests_eq (c : Config) (s : Secret) :
    FullyLabelled c s ∧ labelledRequests c s = [labelledOwner s] ∨
      ¬ FullyLabelled c s ∧ labelledRequests c s = [] := by
  unfold labelledRequests owner FullyLabelled labelledOwner
  by_cases hcluster : s.labels.get labelCluster = c.clusterName
  · by_cases howner : isManaged s = true ∧ s.labels.get labelHarborAccessNamespace ≠ [] ∧
        s.labels.get labelHarborAccessName ≠ []
    · exact .inl ⟨⟨howner.1, howner.2.1, howner.2.2, hcluster⟩, by simp [hcluster, howner]⟩
    · refine .inr ⟨fun h => howner ⟨h.1, h.2.1, h.2.2.1⟩, ?_⟩
      simp only [hcluster, if_true]
      rw [if_neg howner]
      rfl
  · exact .inr ⟨fun h => hcluster h.2.2.2, by simp [hcluster]⟩

/-- Two admitted HarborAccess objects have different Secret names, and a Secret at such a
name is an event of that HarborAccess and of the one its labels name, if they are complete
and of this cluster. -/
theorem secret_events_reach (c : Config) (key : ObjectKey) (hkey : key.Admitted) :
    (∀ other : ObjectKey, other.Admitted →
        RobotSecret.name key.ns key.name = RobotSecret.name other.ns other.name → key = other) ∧
      parseName (RobotSecret.name key.ns key.name) = some (key.ns, key.name) ∧
      ∀ s : Secret, s.ns = c.ns → s.name = RobotSecret.name key.ns key.name →
        (secretToHarborAccess c s).Nodup ∧ (key.ns, key.name) ∈ secretToHarborAccess c s ∧
        (labelledOwner s ∈ secretToHarborAccess c s ↔
          FullyLabelled c s ∨ labelledOwner s = (key.ns, key.name)) ∧
        ∀ req ∈ secretToHarborAccess c s, req = (key.ns, key.name) ∨ req = labelledOwner s := by
  have hparse := hkey.parseName_name
  refine ⟨fun other hother heq => ?_, hparse, fun s hns hname => ?_⟩
  · rw [heq, hother.parseName_name] at hparse
    obtain ⟨hns, hname⟩ := Prod.mk.inj (Option.some.inj hparse)
    exact (ObjectKey.ext_iff' key other).mpr ⟨hns.symm, hname.symm⟩
  · have hreqs : secretToHarborAccess c s =
        if (labelledRequests c s).head? = some (key.ns, key.name) then labelledRequests c s
        else labelledRequests c s ++ [(key.ns, key.name)] := by
      simp [secretToHarborAccess, hns, hname, hparse]
    rcases labelledRequests_eq c s with ⟨hfull, hlabelled⟩ | ⟨hfull, hlabelled⟩
    · rw [hreqs, hlabelled]
      by_cases hsame : labelledOwner s = (key.ns, key.name)
      · simp [hsame]
      · simp [hsame, hfull, Ne.symm]
    · rw [hreqs, hlabelled]
      simp [hfull]

/-- A Secret that someone else put at the name of a HarborAccess, labelled for another. -/
theorem secret_events_reach_conflict : ∃ key : ObjectKey, ∃ s : Secret, key.Admitted ∧
    s.name = RobotSecret.name key.ns key.name ∧ labelledOwner s ≠ (key.ns, key.name) ∧
      (labelledOwner s ∈ secretToHarborAccess sampleConfig s ↔
        FullyLabelled sampleConfig s ∨ labelledOwner s = (key.ns, key.name)) := by
  let key : ObjectKey := ⟨lit "team", lit "app.v1", by decide, by decide, by decide, by decide⟩
  let s : Secret := {
    ns := lit "bridge"
    name := lit "robot-team.app.v1"
    uid := lit "u1"
    resourceVersion := 1
    labels := labels (lit "prod") (lit "team") (lit "other")
    annotations := ∅
    data := ∅ }
  have hkey : key.Admitted := by
    change (lit "app.v1").length ≤ 63
    decide
  refine ⟨key, s, hkey, by decide, by decide, ?_⟩
  exact ((secret_events_reach sampleConfig key hkey).2.2 s rfl (by decide)).2.2.1

end HarborBridge
