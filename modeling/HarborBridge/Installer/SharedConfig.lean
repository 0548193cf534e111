import HarborBridge.Installer.ChartConfig
import HarborBridge.Installer.SharedFiles

/-!
# A shared config that is sound

Package main of the installer (ADR-0029): what the installs that share a config rely on, and which
writes of one of them keep it.
-/

namespace HarborBridge.Installer

open GoStrings Document Firsts

def providersIn (L : Library) : Option HostFile → List Value
  | none => []
  | some f =>
    match readConfig L f.data with
    | .ok r => r.2
    | .error _ => []

def othersOf (name : GoString) (l : List Value) : List Value := l.filter fun p => decide (providerName p ≠ name)

theorem providersIn_some {L : Library} {f : HostFile} {cur : Fields} {l : List Value}
    (h : readConfig L f.data = .ok (cur, l)) : providersIn L (some f) = l := by
  rw [providersIn, h]

theorem mem_othersOf {name : GoString} {l : List Value} {p : Value} :
    p ∈ othersOf name l ↔ p ∈ l ∧ providerName p ≠ name := by
  rw [othersOf, List.mem_filter, decide_eq_true_eq]

theorem providerName_map {m : Fields} {n : GoString} (h : m.string nameKey = some n) : providerName (.map m) = n := by
  simp [providerName, Value.asMap, h]

namespace SharedDirs

variable (S : SharedDirs) (L : Library)

def Records (v : GoString → Option HostFile) (n entryJSON : GoString) : Prop :=
  ∃ f r, v (recordPath S.binDir n) = some f ∧ f.data.length ≤ maxHostFileSize ∧
    L.readRecord f.data = some r ∧ entryJSON ∈ r.entries

structure Vouches (v : GoString → Option HostFile) (n : GoString) (m : Fields) : Prop where
  named : m.string nameKey = some n
  valid : validProviderName n = true
  bridge : isBridgeProvider m = true
  executable : ∃ f, v (binaryPath S.binDir n) = some f ∧ f.executable = true
  recorded : S.Records L v n (L.entryBytes m)

def providers (v : GoString → Option HostFile) : List Value := providersIn L (v S.configPath)

/-- Kubelet can start with the config, and every installer knows its entries. -/
structure Sound (v : GoString → Option HostFile) : Prop where
  reads : ∀ f, v S.configPath = some f → f.data.length ≤ maxHostFileSize ∧ ∃ r, readConfig L f.data = .ok r
  vouched : ∀ p ∈ S.providers L v, ∃ n m, p = .map m ∧ S.Vouches L v n m
  nodup : ((S.providers L v).map providerName).Nodup

def Leaves (name : GoString) (v v' : GoString → Option HostFile) : Prop :=
  othersOf name (S.providers L v') = othersOf name (S.providers L v)

variable {S L} {v : GoString → Option HostFile} {n name : GoString} {m : Fields}

theorem vouches_files {d : Disk} : S.Vouches L (S.files d) n m ↔ Vouched L d S.binDir n m := by
  have hexecutable : validProviderName n = true → ((∃ f, S.files d (binaryPath S.binDir n) = some f ∧
      f.executable = true) ↔ d.isExecutableHostFile (binaryPath S.binDir n) = true) := by
    intro hn
    unfold Disk.isExecutableHostFile
    simp only [files_eq_some (.binary n hn)]
    split <;> simp_all
  have hrecorded : validProviderName n = true → (S.Records L (S.files d) n (L.entryBytes m) ↔
      recordHolds L d S.binDir n (L.entryBytes m) = true) := by
    intro hn
    unfold Records recordHolds readRecord Disk.readHostFile Disk.openRegular
    simp only [files_eq_some (.record n hn)]
    cases d.lookup (recordPath S.binDir n) with
    | none =>
      split_ifs <;> simp [Except.map]
    | some node =>
      cases node with
      | file f =>
        by_cases hsize : f.data.length ≤ maxHostFileSize
        · cases hread : L.readRecord f.data with
          | none => simp [Except.map, hsize, hread]
          | some r => simp [Except.map, hsize, hread]
        · simp [Except.map, hsize]
      | _ => simp [Except.map]
  constructor
  · intro h
    exact ⟨h.named, h.valid, h.bridge, (hexecutable h.valid).mp h.executable, (hrecorded h.valid).mp h.recorded⟩
  · intro h
    exact ⟨h.named, h.valid, h.bridge, (hexecutable h.valid).mpr h.executable, (hrecorded h.valid).mpr h.recorded⟩

theorem Vouches.providerName (h : S.Vouches L v n m) : providerName (.map m) = n := providerName_map h.named

theorem Vouches.congr {v' : GoString → Option HostFile} (h : S.Vouches L v n m)
    (hbinary : v' (binaryPath S.binDir n) = v (binaryPath S.binDir n))
    (hrecord : v' (recordPath S.binDir n) = v (recordPath S.binDir n)) : S.Vouches L v' n m where
  named := h.named
  valid := h.valid
  bridge := h.bridge
  executable := by rw [hbinary]; exact h.executable
  recorded := by rw [Records, hrecord]; exact h.recorded

theorem providers_update {p : GoString} (hp : S.configPath ≠ p) (x : Option HostFile) :
    S.providers L (Function.update v p x) = S.providers L v := by
  rw [providers, Function.update_of_ne hp]
  rfl

/-- The entry of each name is the one that is vouched for. -/
theorem Sound.vouches (h : S.Sound L v) (hm : .map m ∈ S.providers L v) (hname : m.string nameKey = some n) :
    S.Vouches L v n m := by
  obtain ⟨n', m', heq, hvouches⟩ := h.vouched _ hm
  cases heq
  rw [hvouches.named] at hname
  cases hname
  exact hvouches

theorem sound_of_none (h : v S.configPath = none) : S.Sound L v where
  reads f hf := by
    rw [h] at hf
    cases hf
  vouched p hp := by
    rw [providers, h] at hp
    cases hp
  nodup := by
    rw [providers, h]
    exact List.nodup_nil

/-! ## Which writes keep it sound -/

theorem sound_of_config {f : HostFile} {cur : Fields} {l : List Value} (hf : v S.configPath = some f)
    (hsize : f.data.length ≤ maxHostFileSize) (hread : readConfig L f.data = .ok (cur, l))
    (hvouched : ∀ p ∈ l, ∃ n m, p = .map m ∧ S.Vouches L v n m) (hnodup : (l.map providerName).Nodup) :
    S.Sound L v where
  reads g hg := by
    rw [hf] at hg
    cases hg
    exact ⟨hsize, _, hread⟩
  vouched := by rwa [providers, hf, providersIn_some hread]
  nodup := by rwa [providers, hf, providersIn_some hread]

theorem Sound.update (h : S.Sound L v) {p : GoString} (hp : S.configPath ≠ p) {x : Option HostFile}
    (hvouches : ∀ n m, .map m ∈ S.providers L v → S.Vouches L v n m → S.Vouches L (Function.update v p x) n m) :
    S.Sound L (Function.update v p x) where
  reads f hf := by
    rw [Function.update_of_ne hp] at hf
    exact h.reads f hf
  vouched q hq := by
    rw [providers_update hp] at hq
    obtain ⟨n, m, rfl, hm⟩ := h.vouched q hq
    exact ⟨n, m, rfl, hvouches n m hq hm⟩
  nodup := by
    rw [providers_update hp]
    exact h.nodup

theorem Sound.update_binary (h : S.Sound L v) (hname : validProviderName name = true) {f : HostFile}
    (hf : f.executable = true) : S.Sound L (Function.update v (binaryPath S.binDir name) (some f)) := by
  refine h.update (S.binaryPath_ne_configPath hname).symm fun n m _ hm => ?_
  have hrecord : recordPath S.binDir n ≠ binaryPath S.binDir name := S.recordPath_ne_binaryPath hm.valid hname
  by_cases hn : n = name
  · subst hn
    refine { hm with executable := ⟨f, Function.update_self .., hf⟩, recorded := ?_ }
    rw [Records, Function.update_of_ne hrecord]
    exact hm.recorded
  · exact hm.congr (Function.update_of_ne (fun heq => hn (S.binaryPath_inj hm.valid hname heq)) ..)
      (Function.update_of_ne hrecord ..)

theorem Sound.update_record (h : S.Sound L v) (hname : validProviderName name = true) {f : HostFile} {r : EntryRecord}
    (hsize : f.data.length ≤ maxHostFileSize) (hread : L.readRecord f.data = some r)
    (hholds : ∀ m, .map m ∈ S.providers L v → m.string nameKey = some name → L.entryBytes m ∈ r.entries) :
    S.Sound L (Function.update v (recordPath S.binDir name) (some f)) := by
  refine h.update (S.recordPath_ne_configPath hname).symm fun n m hmem hm => ?_
  have hbinary : binaryPath S.binDir n ≠ recordPath S.binDir name := (S.recordPath_ne_binaryPath hname hm.valid).symm
  by_cases hn : n = name
  · subst hn
    refine { hm with executable := ?_, recorded := ⟨f, r, Function.update_self .., hsize, hread, hholds m hmem hm.named⟩ }
    rw [Function.update_of_ne hbinary]
    exact hm.executable
  · exact hm.congr (Function.update_of_ne hbinary ..)
      (Function.update_of_ne (fun heq => hn (S.recordPath_inj hm.valid hname heq)) ..)

theorem leaves_update {p : GoString} (hp : S.configPath ≠ p) (x : Option HostFile) :
    S.Leaves L name v (Function.update v p x) := by
  rw [Leaves, providers_update hp]

theorem Vouches.update_config (h : S.Vouches L v n m) (x : Option HostFile) :
    S.Vouches L (Function.update v S.configPath x) n m :=
  h.congr (Function.update_of_ne (S.binaryPath_ne_configPath h.valid) ..)
    (Function.update_of_ne (S.recordPath_ne_configPath h.valid) ..)

theorem providers_config {f : HostFile} {cur : Fields} {l : List Value} (hread : readConfig L f.data = .ok (cur, l)) :
    S.providers L (Function.update v S.configPath (some f)) = l := by
  rw [providers, Function.update_self, providersIn_some hread]

end SharedDirs

end HarborBridge.Installer
