import HarborBridge.Installer.Host
import HarborBridge.Installer.Paths

/-!
# The files that installs share

Package main of the installer (ADR-0029): installs with the same directories share one config, and
each reads the others' records and binaries. What the acts of a pass do to these files.
-/

namespace HarborBridge.Installer

open GoStrings

theorem Disk.openRegular_eq_ok_iff {d : Disk} {p : GoString} {f : HostFile} :
    d.openRegular p = .ok f ↔ d.lookup p = some (.file f) ∧ f.data.length ≤ maxHostFileSize := by
  constructor
  · intro h
    have hlookup := Disk.openRegular_eq_ok h
    rw [Disk.openRegular, hlookup] at h
    dsimp only at h
    split_ifs at h with hsize
    exact ⟨hlookup, hsize⟩
  · rintro ⟨hlookup, hsize⟩
    rw [Disk.openRegular, hlookup]
    exact if_pos hsize

/-- The directories that several installs have in common. -/
structure SharedDirs where
  binDir : GoString
  configDir : GoString
  configDir_valid : validNodePath configDir = true

def Act.changes : Act → Option GoString
  | .lock p | .replace _ p _ | .chmod _ p _ | .remove _ p => some p
  | .mkdir _ | .probe _ | .restart | .healthy _ => none

namespace SharedDirs

variable (S : SharedDirs)

def configPath : GoString := pathJoin S.configDir configFileName

/-- The config of the installs, and the record and the binary of each of them. -/
inductive Shared : GoString → Prop where
  | config : Shared S.configPath
  | record (n : GoString) (h : validProviderName n = true) : Shared (recordPath S.binDir n)
  | binary (n : GoString) (h : validProviderName n = true) : Shared (binaryPath S.binDir n)

/-! ## Their paths -/

theorem record_baseName {n : GoString} (h : validProviderName n = true) : BaseName (filesFor n).record := by
  rw [filesFor_record]
  exact valid_baseName h (.inr ⟨_, rfl⟩) (by decide)

theorem binary_baseName {n : GoString} (h : validProviderName n = true) : BaseName (filesFor n).binary := by
  have hbase := valid_baseName h (.inl rfl) List.not_mem_nil
  rwa [List.append_nil, ← filesFor_binary n] at hbase

theorem recordPath_inj {n m : GoString} (hn : validProviderName n = true) (hm : validProviderName m = true)
    (h : recordPath S.binDir n = recordPath S.binDir m) : n = m := by
  have hbase := pathJoin_base (record_baseName hn) (record_baseName hm) h
  rw [filesFor_record, filesFor_record] at hbase
  exact List.append_cancel_right hbase

theorem binaryPath_inj {n m : GoString} (hn : validProviderName n = true) (hm : validProviderName m = true)
    (h : binaryPath S.binDir n = binaryPath S.binDir m) : n = m := by
  have hbase := pathJoin_base (binary_baseName hn) (binary_baseName hm) h
  rwa [filesFor_binary, filesFor_binary] at hbase

theorem recordPath_ne_binaryPath {n m : GoString} (hn : validProviderName n = true)
    (hm : validProviderName m = true) : recordPath S.binDir n ≠ binaryPath S.binDir m := by
  intro h
  have hbase := pathJoin_base (record_baseName hn) (binary_baseName hm) h
  rw [filesFor_record, filesFor_binary] at hbase
  exact valid_no_dot hm (hbase ▸ by simp [recordSuffix, lit])

theorem recordPath_ne_configPath {n : GoString} (hn : validProviderName n = true) :
    recordPath S.binDir n ≠ S.configPath := by
  intro h
  have hbase := pathJoin_base (record_baseName hn) configFileName_baseName h
  rw [filesFor_record] at hbase
  have hsplit : configFileName = lit "credential-provider-config" ++ lit ".yaml" := by decide
  rw [hsplit] at hbase
  have hext := (stem_inj (valid_no_dot hn) (by decide) (.inr ⟨_, rfl⟩) (.inr ⟨_, rfl⟩) hbase).2
  exact absurd hext (by decide)

theorem binaryPath_ne_configPath {n : GoString} (hn : validProviderName n = true) :
    binaryPath S.binDir n ≠ S.configPath := by
  intro h
  have hbase := pathJoin_base (binary_baseName hn) configFileName_baseName h
  rw [filesFor_binary] at hbase
  exact valid_no_dot hn (hbase ▸ by decide)

def Ends (name ext : GoString) : Prop := BaseName name ∧ ∃ stem, name = stem ++ ext

/-- The extensions of the files that only their install uses. -/
structure OwnEnds (f : NodeFiles) : Prop where
  ca : Ends f.ca (lit ".crt")
  clientCert : Ends f.clientCert (lit ".crt")
  clientKey : Ends f.clientKey (lit ".key")
  state : Ends f.state (lit ".json")

theorem files_ends {n : GoString} (hn : validProviderName n = true) : OwnEnds (filesFor n) := by
  have hends : ∀ mid ext : GoString, Extension (mid ++ ext) → 47 ∉ mid ++ ext →
      Ends (n ++ (mid ++ ext)) ext := by
    intro mid ext hext hslash
    exact ⟨valid_baseName hn hext hslash, n ++ mid, by simp⟩
  unfold filesFor
  split_ifs
  · exact ⟨⟨⟨by decide, by decide, by decide, by decide⟩, lit "harbor-bridge-ca", by decide⟩,
      ⟨⟨by decide, by decide, by decide, by decide⟩, lit "harbor-bridge-client", by decide⟩,
      ⟨⟨by decide, by decide, by decide, by decide⟩, lit "harbor-bridge-client", by decide⟩,
      ⟨⟨by decide, by decide, by decide, by decide⟩, lit "installer-state", by decide⟩⟩
  · exact ⟨hends (lit ".ca") (lit ".crt") (.inr ⟨_, rfl⟩) (by decide),
      hends (lit ".client") (lit ".crt") (.inr ⟨_, rfl⟩) (by decide),
      hends (lit ".client") (lit ".key") (.inr ⟨_, rfl⟩) (by decide),
      hends (lit ".installer-state") (lit ".json") (.inr ⟨_, rfl⟩) (by decide)⟩

/-- The name of a shared file is a stem without a dot, and an extension or none. -/
theorem Shared.ends {S : SharedDirs} {p : GoString} (h : S.Shared p) : ∃ above stem ext,
    p = above ++ 47 :: (stem ++ ext) ∧ 46 ∉ stem ∧ (ext = [] ∨ ext = recordSuffix ∨ ext = lit ".yaml") := by
  cases h with
  | config =>
    obtain ⟨above, h⟩ := pathJoin_ends S.configDir configFileName_baseName
    exact ⟨above, lit "credential-provider-config", lit ".yaml", h, by decide, .inr (.inr rfl)⟩
  | record n hn =>
    obtain ⟨above, h⟩ := pathJoin_ends S.binDir (record_baseName hn)
    refine ⟨above, n, recordSuffix, ?_, valid_no_dot hn, .inr (.inl rfl)⟩
    rw [recordPath, h, filesFor_record]
  | binary n hn =>
    obtain ⟨above, h⟩ := pathJoin_ends S.binDir (binary_baseName hn)
    refine ⟨above, n, [], ?_, valid_no_dot hn, .inl rfl⟩
    rw [binaryPath, h, filesFor_binary, List.append_nil]

/-- No shared file has another extension. -/
theorem not_shared_of_extension {e p : GoString} (hdot : 46 ∉ e) (hslash : 47 ∉ e)
    (hrecord : 46 :: e ≠ recordSuffix) (hconfig : 46 :: e ≠ lit ".yaml") : ¬ S.Shared (p ++ 46 :: e) := by
  intro hshared
  obtain ⟨above, stem, ext, hends, hstem, hext⟩ := hshared.ends
  have hlast : ∀ x, 46 ∉ x → ext = 46 :: x → 46 :: e = ext := by
    rintro x hx rfl
    have hsplit : p ++ 46 :: e = (above ++ 47 :: stem) ++ 46 :: x := by
      rw [hends, List.append_assoc, List.cons_append]
    rw [(last_inj hdot hx hsplit).2]
  rcases hext with rfl | hext | hext
  · rw [List.append_nil] at hends
    rcases List.append_eq_append_iff.mp hends with ⟨t, -, ht⟩ | ⟨t, -, ht⟩
    · have hmem : (47 : UInt8) ∈ 46 :: e := by simp [ht]
      simp [hslash] at hmem
    · have hmem : (46 : UInt8) ∈ 47 :: stem := by simp [ht]
      simp [hstem] at hmem
  · exact hrecord ((hlast _ (by decide) hext).trans hext)
  · exact hconfig ((hlast _ (by decide) hext).trans hext)

theorem not_shared_backup (p : GoString) : ¬ S.Shared (p ++ backupSuffix) :=
  S.not_shared_of_extension (e := lit "bak") (by decide) (by decide) (by decide) (by decide)

theorem not_shared_lock (p : GoString) : ¬ S.Shared (p ++ lockSuffix) :=
  S.not_shared_of_extension (e := lit "lock") (by decide) (by decide) (by decide) (by decide)

/-- A file whose name ends so is not shared, whatever its directory is. -/
theorem not_shared_pathJoin {dir name stem e : GoString} (hname : BaseName name) (hends : name = stem ++ 46 :: e)
    (hdot : 46 ∉ e) (hrecord : 46 :: e ≠ recordSuffix) (hconfig : 46 :: e ≠ lit ".yaml") :
    ¬ S.Shared (pathJoin dir name) := by
  obtain ⟨above, hjoin⟩ := pathJoin_ends dir hname
  have hslash : 47 ∉ e := by
    intro hmem
    exact hname.no_slash (by simp [hends, hmem])
  rw [hjoin, hends, ← List.cons_append, ← List.append_assoc]
  exact S.not_shared_of_extension hdot hslash hrecord hconfig

/-! ## What they hold -/

open Classical in
noncomputable def files (d : Disk) (p : GoString) : Option HostFile := if S.Shared p then d.file p else none

variable {S} {d d' : Disk} {p : GoString}

theorem files_shared (hp : S.Shared p) : S.files d p = d.file p := if_pos hp

theorem files_congr (h : ∀ p, S.Shared p → d'.file p = d.file p) : S.files d' = S.files d := by
  funext p
  unfold files
  split_ifs with hp
  · exact h p hp
  · rfl

theorem files_eq_some (hp : S.Shared p) {f : HostFile} : S.files d p = some f ↔ d.lookup p = some (.file f) := by
  rw [files_shared hp, Disk.file]
  split <;> simp_all

theorem files_update (hp : S.Shared p) {x : Option HostFile} (hself : d'.file p = x)
    (h : ∀ q, q ≠ p → d'.lookup q = d.lookup q) : S.files d' = Function.update (S.files d) p x := by
  funext q
  by_cases hq : q = p
  · subst hq
    rw [Function.update_self, files_shared hp, hself]
  · rw [Function.update_of_ne hq]
    unfold files Disk.file
    rw [h q hq]

/-! ## What an act does to them -/

variable {a : Act} {ok : Bool} {r : Role}

theorem files_put_other (hp : ¬ S.Shared p) (n : Node) : S.files (d.put p n) = S.files d := by
  refine files_congr fun q hq => ?_
  unfold Disk.file
  rw [d.lookup_put_of_ne]
  rintro rfl
  exact hp hq

theorem files_mkdirs (h : Disk.Mkdirs d d') : S.files d' = S.files d := by
  refine files_congr fun q _ => ?_
  unfold Disk.file
  rcases h q with heq | ⟨hnone, hdir⟩
  · rw [heq]
  · rw [hnone, hdir]

theorem files_act (h : d.Acts a ok d') (ha : ∀ p, a.changes = some p → ¬ S.Shared p) : S.files d' = S.files d := by
  cases h with
  | mkdir _ _ _ h _ => exact files_mkdirs h
  | probe _ _ _ h _ => exact files_mkdirs h
  | lock q _ _ h =>
    rcases h with rfl | ⟨-, rfl⟩
    · rfl
    · exact files_put_other (ha q rfl) _
  | replace r q f _ _ => exact files_put_other (ha q rfl) _
  | chmod r q f mode _ _ => exact files_put_other (ha q rfl) _
  | remove r q f _ _ =>
    refine files_congr fun q' hq' => ?_
    unfold Disk.file
    rw [d.lookup_erase, if_neg]
    rintro rfl
    exact ha _ rfl hq'
  | fails => rfl
  | restart => rfl
  | healthy => rfl

theorem files_replace (hp : S.Shared p) {f : HostFile} (h : d.Acts (.replace r p f) ok d') :
    ok = false ∧ S.files d' = S.files d ∨ S.files d' = Function.update (S.files d) p (some f) := by
  cases h with
  | replace =>
    refine .inr (files_update hp ?_ fun q hq => d.lookup_put_of_ne hq _)
    rw [Disk.file, d.lookup_put_self]
  | fails => exact .inl ⟨rfl, rfl⟩

theorem files_chmod (hp : S.Shared p) {mode : Nat} (h : d.Acts (.chmod r p mode) ok d') :
    ok = false ∧ S.files d' = S.files d ∨ ∃ f, S.files d p = some f ∧
      S.files d' = Function.update (S.files d) p (some { f with mode := mode }) := by
  cases h with
  | chmod _ _ f _ _ hfile =>
    refine .inr ⟨f, (files_eq_some hp).mpr hfile, files_update hp ?_ fun q hq => d.lookup_put_of_ne hq _⟩
    rw [Disk.file, d.lookup_put_self]
  | fails => exact .inl ⟨rfl, rfl⟩

theorem files_remove (hp : S.Shared p) (h : d.Acts (.remove r p) ok d') :
    ok = false ∧ S.files d' = S.files d ∨ S.files d' = Function.update (S.files d) p none := by
  cases h with
  | remove _ _ f _ _ =>
    refine .inr (files_update hp ?_ fun q hq => ?_)
    · rw [Disk.file, d.lookup_erase, if_pos rfl]
    · rw [d.lookup_erase, if_neg hq]
  | fails => exact .inl ⟨rfl, rfl⟩

end SharedDirs

end HarborBridge.Installer
