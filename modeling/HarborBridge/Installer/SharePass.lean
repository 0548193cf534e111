import HarborBridge.Installer.ShareRules

/-!
# A pass on a shared config

Package main of the installer (ADR-0029): a pass in none or in patch mode, from the plan to the
rollback, keeps the config of the installs sound and leaves the entries of the others alone.
-/

namespace HarborBridge.Installer

open GoStrings Document Interaction Firsts

structure Installs (L : Library) (cfg : Config) (rendered : GoString) (entry : Fields) : Prop where
  named : entryName entry = .ok cfg.providerName
  bridge : isBridgeProvider entry = true
  renders : ∃ doc, Renders L rendered entry doc

theorem bridge_of_valid {L : Library} {entry : Fields} (h : validateEntry L entry = []) :
    isBridgeProvider entry = true := by
  have hendpoint : bridgeEndpointProblem L entry = none := by
    simp only [validateEntry, List.append_eq_nil_iff, Option.toList_eq_nil_iff] at h
    exact h.1.2
  unfold bridgeEndpointProblem at hendpoint
  dsimp only at hendpoint
  split at hendpoint
  · cases hendpoint
  · rename_i e hfind
    have hmem := List.mem_of_find?_eq_some hfind
    have hname := List.find?_some hfind
    rw [isBridgeProvider, List.any_eq_true]
    refine ⟨e, hmem, ?_⟩
    cases hmap : e.asMap with
    | none =>
      rw [hmap] at hname
      simp [Fields.get] at hname
    | some m =>
      rw [hmap] at hname
      exact hname

theorem rendered_named {L : Library} {rendered name : GoString} {entry : Fields} (hvalid : validProviderName name = true)
    (h : renderedProvider L rendered name = .ok entry) : entryName entry = .ok name := by
  have hget : entry.get nameKey = some (.str name) := by
    unfold renderedProvider at h
    cases hyaml : L.readYaml rendered with
    | none => simp [hyaml] at h
    | some doc =>
      cases hlist : providerList doc with
      | error e => simp [hyaml, hlist, bind, Except.bind] at h
      | ok l =>
        simp only [hyaml, hlist, bind, Except.bind] at h
        split at h
        · rename_i found hfound
          cases h
          obtain ⟨p, -, hp⟩ := List.exists_of_findSome?_eq_some hfound
          simpa using (Option.filter_eq_some_iff.mp hp).2
        · cases h
  have hne : name ≠ [] := (dnsLabel_of_valid hvalid).ne_nil
  rw [entryName, Fields.string, hget]
  simp [Value.asString, hne]

namespace SharedDirs

variable {S : SharedDirs} {L : Library} {launches : Disk → Option (List GoString) → Prop} {cfg : Config}
  {v : GoString → Option HostFile} {rendered : GoString} {entry : Fields}

theorem Member.ownConfigPath (hm : S.Member cfg) : cfg.ownConfigPath = S.configPath := by
  rw [Config.ownConfigPath, hm.configDir, configPath]

theorem Member.ownWiring (hm : S.Member cfg) : cfg.ownWiring = ⟨S.binDir, S.configPath⟩ := by
  rw [Config.ownWiring, hm.ownConfigPath, hm.binDir]

/-! ## The plan -/

variable (S L cfg entry) in
/-- What a pass is about to write into the config: its own entry, and every other as it is. -/
structure Planned (v : GoString → Option HostFile) (desired : GoString) (prior : Option HostFile) : Prop where
  prior : v S.configPath = prior
  reads : ∃ cur l, readConfig L desired = .ok (cur, l) ∧ (l.map providerName).Nodup ∧ .map entry ∈ l ∧
    (∀ p ∈ l, providerName p = cfg.providerName → p = .map entry) ∧
    othersOf cfg.providerName l = othersOf cfg.providerName (S.providers L v)

theorem planned_new (howns : Installs L cfg rendered entry) (hnone : v S.configPath = none) :
    S.Planned L cfg entry v rendered none := by
  obtain ⟨doc, hdoc⟩ := howns.renders
  have hname := providerName_entry howns.named
  refine ⟨hnone, doc, [.map entry], readConfig_eq_ok.mpr ⟨hdoc.reads, hdoc.version, ?_⟩, by simp, by simp,
    by simp, ?_⟩
  · rw [providerList, hdoc.provider]
  · rw [providers, hnone]
    simp [othersOf, providersIn, hname]

/-- Of a sound config the composition keeps every other entry. -/
theorem planned_composed (hwrites : ∀ m, (L.writeYaml m).isSome = true) (howns : Installs L cfg rendered entry)
    (hv : S.Sound L v) {d : Disk} (hd : S.files d = v) {f : HostFile} (hf : v S.configPath = some f)
    {desired : GoString}
    (hout : chartOwnedConfig L f.data rendered entry (siblingIn L cfg d S.binDir) = .ok desired) :
    S.Planned L cfg entry v desired (some f) := by
  obtain ⟨doc, hdoc⟩ := howns.renders
  obtain ⟨-, ⟨cur, l⟩, hread⟩ := hv.reads f hf
  have hl : S.providers L v = l := by rw [providers, hf, providersIn_some hread]
  have hname := providerName_entry howns.named
  have hcomposed : Composed cfg.providerName entry (siblingIn L cfg d S.binDir) l _ :=
    composeProviders_composed hname l
  have hreads := chartOwnedConfig_reads hwrites hread howns.named hdoc hout
  refine ⟨hf, _, _, readConfig_eq_ok.mpr ⟨hreads, composedDoc_version hdoc _, composedDoc_providers _⟩,
    hcomposed.nodup, hcomposed.entry_mem, fun p hp => hcomposed.own_of_mem hp, ?_⟩
  have hsiblings : l.filter (ofOther cfg.providerName (siblingIn L cfg d S.binDir)) = othersOf cfg.providerName l := by
    refine List.filter_congr fun p hp => ?_
    obtain ⟨n, m, rfl, hvouches⟩ := hv.vouched p (hl ▸ hp)
    by_cases hown : providerName (.map m) = cfg.providerName
    · simp [ofOther, Value.asMap, hown]
    · have hsibling : siblingIn L cfg d S.binDir m = true := by
        refine (siblingIn_iff ..).mpr ⟨n, hvouches.providerName ▸ hown, ?_⟩
        exact vouches_files.mp (hd ▸ hvouches)
      simp [ofOther, Value.asMap, hown, hsibling]
  have hnodup : ((othersOf cfg.providerName l).map providerName).Nodup :=
    (hl ▸ hv.nodup).sublist (List.Sublist.map _ List.filter_sublist)
  have hothers := hcomposed.others
  rw [hsiblings, firsts_of_nodup providerName hnodup] at hothers
  rw [hl]
  exact hothers

theorem wp_chartOwnedConfigIn (hwrites : ∀ m, (L.writeYaml m).isSome = true) (howns : Installs L cfg rendered entry)
    (hv : S.Sound L v) : (chartOwnedConfigIn L cfg ⟨S.binDir, S.configPath⟩ rendered entry).run.Wp
      (S.setting L launches cfg)
      (fun res k => k = some v ∧ ∀ x, res = .ok x → S.Planned L cfg entry v x.1 x.2) (some v) := by
  have hprior : (readPrior .config S.configPath).run.Wp (S.setting L launches cfg)
      (fun res k => k = some v ∧ ∀ prior, res = .ok prior → v S.configPath = prior) (some v) := by
    refine look_seq (may_elsewhere hv trivial) fun d hfiles => ?_
    unfold priorIn
    cases hopen : d.openRegular S.configPath with
    | ok f =>
      refine ⟨rfl, fun x hx => ?_⟩
      cases hx
      rw [← hfiles]
      exact (files_eq_some .config).mpr (Disk.openRegular_eq_ok hopen)
    | error e =>
      cases e with
      | failed => exact ⟨rfl, fun x hx => by cases hx⟩
      | notExist =>
        refine ⟨rfl, fun x hx => ?_⟩
        cases hx
        rw [← hfiles, files_shared .config, Disk.file, Disk.openRegular_notExist hopen]
  refine Prog.wp_run_seq hprior (fun prior k h => ?_) fun e k h => ⟨h.1, fun x hx => by cases hx⟩
  obtain ⟨rfl, hconfig⟩ := h
  have hconfig := hconfig prior rfl
  cases prior with
  | none =>
    refine ⟨rfl, fun x hx => ?_⟩
    cases hx
    exact planned_new howns hconfig
  | some f =>
    refine look_seq (may_elsewhere hv trivial) fun d hfiles => ?_
    cases hout : chartOwnedConfig L f.data rendered entry (siblingIn L cfg d S.binDir) with
    | error e => exact ⟨rfl, fun x hx => by cases hx⟩
    | ok desired =>
      refine ⟨rfl, fun x hx => ?_⟩
      cases hx
      exact planned_composed hwrites howns hv hfiles hconfig hout

/-! ## The files of an install -/

variable (S L cfg) in
/-- The record, once it is written, holds the entries of the install in the config. -/
def Covers (v : GoString → Option HostFile) (r : EntryRecord) (also : GoString) : Prop :=
  ∃ r', L.readRecord (L.writeRecord r) = some r' ∧ also ∈ r'.entries ∧
    ∀ m, .map m ∈ S.providers L v → m.string nameKey = some cfg.providerName → L.entryBytes m ∈ r'.entries

theorem isText_configPath (S : SharedDirs) (L : Library) : L.isText S.configPath := by
  apply L.isText_ascii
  rw [configPath, pathJoin_valid S.configDir_valid configFileName_baseName]
  have hdir := S.configDir_valid
  simp only [validNodePath, Bool.and_eq_true] at hdir
  have hchars : ∀ b ∈ S.configDir, b < 128 := by
    intro b hb
    have hpath := hdir.2
    unfold nodePathChars at hpath
    split at hpath
    · rename_i rest hrest
      simp only [Bool.and_eq_true, List.all_eq_true] at hpath
      rw [hrest, List.mem_cons] at hb
      rcases hb with rfl | hb
      · decide
      · have hbound := nodePathChar_bounds (hpath.2 b hb)
        rw [UInt8.lt_iff_toNat_lt]
        exact lt_of_le_of_lt hbound.2.1 (by decide)
    · cases hpath
  intro b hb
  rcases List.mem_append.mp hb with hb | hb
  · exact hchars b hb
  · have hname : ∀ b ∈ 47 :: configFileName, b < 128 := by decide +kernel
    exact hname b hb

theorem readRecord_map {r : EntryRecord} (hjson : ∀ e ∈ r.entries, L.isJson e)
    (hchart : r.chartOwnedConfig = S.configPath) :
    L.readRecord (L.writeRecord r) = some { r with entries := r.entries.map L.compact } :=
  L.readRecord_writeRecord r hjson (hchart ▸ isText_configPath S L)

theorem mem_map_compact {l : List GoString} {m : Fields} (h : L.entryBytes m ∈ l) :
    L.entryBytes m ∈ l.map L.compact :=
  List.mem_map.mpr ⟨_, h, L.compact_entryBytes m⟩

/-- `beginRecord` keeps the entries of the record, one of which the config may hold. -/
theorem begun_covers (hv : S.Sound L v) {d : Disk} (hd : S.files d = v) :
    S.Covers L cfg v (begun L cfg d S.binDir (L.entryBytes entry) S.configPath) (L.entryBytes entry) := by
  set r := begun L cfg d S.binDir (L.entryBytes entry) S.configPath with hr
  have hold : ∀ e, e ∈ ((readRecord L d (recordPath S.binDir cfg.providerName)).getD ⟨[], []⟩).entries →
      e ∈ r.entries := by
    intro e he
    rw [hr, begun]
    dsimp only
    split_ifs
    · exact he
    · exact List.mem_append_left _ he
  have hnew : L.entryBytes entry ∈ r.entries := by
    rw [hr, begun]
    dsimp only
    split_ifs with hmem
    · exact hmem
    · exact List.mem_append_right _ List.mem_cons_self
  have hjson : ∀ e ∈ r.entries, L.isJson e := by
    have hread : ∀ e ∈ ((readRecord L d (recordPath S.binDir cfg.providerName)).getD ⟨[], []⟩).entries,
        L.isJson e := by
      intro e he
      unfold readRecord at he
      cases hfile : d.readHostFile (recordPath S.binDir cfg.providerName) with
      | error err => simp [hfile] at he
      | ok raw =>
        cases hraw : L.readRecord raw with
        | none => simp [hfile, hraw] at he
        | some old =>
          simp only [hfile, hraw, Option.getD_some] at he
          exact L.isJson_readRecord raw old hraw e he
    intro e he
    rw [hr, begun] at he
    dsimp only at he
    split_ifs at he
    · exact hread e he
    · rcases List.mem_append.mp he with he | he
      · exact hread e he
      · rw [List.mem_singleton.mp he]
        exact L.isJson_entryBytes entry
  refine ⟨_, readRecord_map (S := S) hjson rfl, mem_map_compact hnew, fun m hm hname => mem_map_compact (hold _ ?_)⟩
  have hrecorded := (vouches_files.mp (hd ▸ hv.vouches hm hname)).recorded
  unfold recordHolds at hrecorded
  split at hrecorded
  · rename_i old hold
    rw [hold, Option.getD_some]
    simpa using hrecorded
  · cases hrecorded

/-- `commitRecord` keeps the one entry that the config then has. -/
theorem commit_covers (honly : ∀ m, .map m ∈ S.providers L v → m.string nameKey = some cfg.providerName → m = entry) :
    S.Covers L cfg v ⟨[L.entryBytes entry], S.configPath⟩ (L.entryBytes entry) := by
  refine ⟨_, readRecord_map (S := S) ?_ rfl, mem_map_compact List.mem_cons_self, fun m hm hname => ?_⟩
  · intro e he
    rw [List.mem_singleton.mp he]
    exact L.isJson_entryBytes entry
  · rw [honly m hm hname]
    exact mem_map_compact List.mem_cons_self

theorem wrote_record (hvalid : validProviderName cfg.providerName = true) (hv : S.Sound L v) {r : EntryRecord}
    {also : GoString} (hr : S.Covers L cfg v r also) {perm : Nat} {v' : GoString → Option HostFile}
    (h : Wrote v (recordPath S.binDir cfg.providerName) (L.writeRecord r) perm v') :
    S.Sound L v' ∧ S.Leaves L cfg.providerName v v' := by
  obtain ⟨f, hdata, -, hsize, rfl⟩ := h
  obtain ⟨r', hread, -, hholds⟩ := hr
  rw [← hdata] at hsize hread
  exact ⟨hv.update_record hvalid hsize hread hholds, leaves_update (S.recordPath_ne_configPath hvalid).symm _⟩

theorem wp_writeRecord (hvalid : validProviderName cfg.providerName = true) (hv : S.Sound L v) {r : EntryRecord}
    {also : GoString} (hr : S.Covers L cfg v r also) :
    (writeRecord L cfg S.binDir r).run.Wp (S.setting L launches cfg)
      (Writes v (recordPath S.binDir cfg.providerName) (L.writeRecord r) recordFileMode) (some v) := by
  refine writes_bind_pure (elsewhere_seq (known hv) (stays_mkdir _) (fun _ => ?_) writes_error) ()
  exact wp_writeIn (.record _ hvalid) hv (fun _ => rfl) fun v' h => wrote_record hvalid hv hr h

def Held (S : SharedDirs) (L : Library) (k : Option (GoString → Option HostFile)) : Prop :=
  ∃ v, k = some v ∧ S.Sound L v

theorem Writes.held {α : Type} {p data : GoString} {perm : Nat} {res : Except Err α} {k : Option (GoString → Option HostFile)}
    (h : Writes v p data perm res k) (hv : S.Sound L v) (hkeep : ∀ v', Wrote v p data perm v' → S.Sound L v') :
    S.Held L k := by
  obtain ⟨v', rfl, hwrote | ⟨rfl, -⟩⟩ := h
  · exact ⟨v', rfl, hkeep v' hwrote⟩
  · exact ⟨v', rfl, hv⟩

variable (S L cfg entry) in
structure Installed (v v' : GoString → Option HostFile) (r : EntryRecord) : Prop where
  sound : S.Sound L v'
  config : v' S.configPath = v S.configPath
  executable : ∃ f, v' (binaryPath S.binDir cfg.providerName) = some f ∧ f.executable = true
  recorded : S.Records L v' cfg.providerName (L.entryBytes entry)
  /-- The record as the pass found it, with the entry. -/
  begun : S.Covers L cfg v r (L.entryBytes entry)

theorem wp_beginRecord (hvalid : validProviderName cfg.providerName = true) (hv : S.Sound L v) :
    (beginRecord L cfg S.binDir (L.entryBytes entry) S.configPath).run.Wp (S.setting L launches cfg)
      (fun res k => S.Held L k ∧ ∀ r, res = .ok r → S.Covers L cfg v r (L.entryBytes entry) ∧
        ∃ v', k = some v' ∧ Wrote v (recordPath S.binDir cfg.providerName) (L.writeRecord r) recordFileMode v')
      (some v) := by
  refine look_seq (may_elsewhere hv trivial) fun d hfiles => ?_
  have hcovers : S.Covers L cfg v (begun L cfg d S.binDir (L.entryBytes entry) S.configPath) (L.entryBytes entry) :=
    begun_covers hv hfiles
  refine Prog.wp_run_seq (wp_writeRecord hvalid hv hcovers) (fun u k hk => ?_) fun e k hk => ?_
  · refine ⟨hk.held hv fun v' h => (wrote_record hvalid hv hcovers h).1, fun r hr => ?_⟩
    cases hr
    exact ⟨hcovers, hk.wrote⟩
  · exact ⟨hk.held hv fun v' h => (wrote_record hvalid hv hcovers h).1, fun r hr => by cases hr⟩

theorem elsewhere_syncAuxFiles (hvalid : validProviderName cfg.providerName = true) :
    Stays S.elsewhere (syncAuxFiles cfg) := by
  have haux : ∀ {name stem e : GoString}, BaseName name → name = stem ++ 46 :: e → 46 ∉ e → 46 :: e ≠ recordSuffix →
      46 :: e ≠ lit ".yaml" → S.elsewhere.File .aux (auxPath cfg name) := by
    intro name stem e hname hends hdot hrecord hconfig
    exact elsewhere_file (S.not_shared_pathJoin hname hends hdot hrecord hconfig) .aux
  have hfiles := files_ends hvalid
  refine stays_bind (stays_mkdir _) fun _ => stays_bind (stays_copyFileIn ?_ _ _) fun _ =>
    stays_onlyIf fun _ => stays_bind (stays_copyFileIn ?_ _ _) fun _ =>
      stays_bind (stays_copyFileIn ?_ _ _) fun _ => stays_pure _
  · obtain ⟨stem, hends⟩ := hfiles.ca.2
    exact haux hfiles.ca.1 hends (by decide) (by decide) (by decide)
  · obtain ⟨stem, hends⟩ := hfiles.clientCert.2
    exact haux hfiles.clientCert.1 hends (by decide) (by decide) (by decide)
  · obtain ⟨stem, hends⟩ := hfiles.clientKey.2
    exact haux hfiles.clientKey.1 hends (by decide) (by decide) (by decide)

theorem elsewhere_statePath (hvalid : validProviderName cfg.providerName = true) :
    S.elsewhere.File .state cfg.statePath := by
  obtain ⟨hname, stem, hends⟩ := (files_ends hvalid).state
  exact elsewhere_file (S.not_shared_pathJoin hname hends (by decide) (by decide) (by decide)) .state

theorem wrote_binary (hvalid : validProviderName cfg.providerName = true) (hv : S.Sound L v) {data : GoString}
    {v' : GoString → Option HostFile} (h : Wrote v (binaryPath S.binDir cfg.providerName) data 0o755 v') :
    S.Sound L v' ∧ S.Leaves L cfg.providerName v v' := by
  obtain ⟨f, -, hmode, -, rfl⟩ := h
  refine ⟨hv.update_binary hvalid ?_, leaves_update (S.binaryPath_ne_configPath hvalid).symm _⟩
  rw [HostFile.executable, hmode]
  decide

theorem wp_copyBinary (hvalid : validProviderName cfg.providerName = true) (hv : S.Sound L v) :
    (copyFile .binary .plugin (binaryPath S.binDir cfg.providerName) 0o755).run.Wp (S.setting L launches cfg)
      (fun res k => ∃ data, Writes v (binaryPath S.binDir cfg.providerName) data 0o755 res k) (some v) := by
  refine elsewhere_seq (known hv) (stays_ask trivial) (fun data => ?_) fun e => ⟨[], writes_error e⟩
  cases data with
  | error e => exact ⟨[], writes_error _⟩
  | ok data =>
    refine Prog.wp_mono (fun res k h => ⟨data, h⟩) _ _ ?_
    refine elsewhere_seq (known hv) (stays_mkdir _) (fun _ => ?_) writes_error
    exact wp_writeIn (.binary _ hvalid) hv (fun _ => rfl) fun v' h => wrote_binary hvalid hv h

/-- Once the record and then the binary are written, the entry can follow. -/
theorem installed_of_wrote (hvalid : validProviderName cfg.providerName = true) (hv : S.Sound L v) {r : EntryRecord}
    (hr : S.Covers L cfg v r (L.entryBytes entry)) {v₁ v₂ : GoString → Option HostFile} {data : GoString}
    (hrecord : Wrote v (recordPath S.binDir cfg.providerName) (L.writeRecord r) recordFileMode v₁)
    (hbinary : Wrote v₁ (binaryPath S.binDir cfg.providerName) data 0o755 v₂) : S.Installed L cfg entry v v₂ r := by
  have hsound₁ := (wrote_record hvalid hv hr hrecord).1
  have hsound₂ := (wrote_binary hvalid hsound₁ hbinary).1
  have hne := S.recordPath_ne_binaryPath hvalid hvalid
  obtain ⟨f, hdata, -, hsize, rfl⟩ := hrecord
  obtain ⟨g, -, hmode, -, rfl⟩ := hbinary
  refine ⟨hsound₂, ?_, ⟨g, Function.update_self .., ?_⟩, ?_, hr⟩
  · rw [Function.update_of_ne (S.binaryPath_ne_configPath hvalid).symm,
      Function.update_of_ne (S.recordPath_ne_configPath hvalid).symm]
  · rw [HostFile.executable, hmode]
    decide
  · obtain ⟨r', hread, hentry, -⟩ := hr
    refine ⟨f, r', ?_, hdata ▸ hsize, hdata ▸ hread, hentry⟩
    rw [Function.update_of_ne hne, Function.update_self]

theorem wp_installFiles (hvalid : validProviderName cfg.providerName = true) (hv : S.Sound L v) :
    (installFiles L cfg S.binDir (L.entryBytes entry) S.configPath).run.Wp (S.setting L launches cfg)
      (fun res k => S.Held L k ∧ ∀ r, res = .ok r → ∃ v', k = some v' ∧ S.Installed L cfg entry v v' r) (some v) := by
  have hfailed : ∀ e : Err, S.Held L (some v) ∧ ∀ r : EntryRecord, Except.error e = .ok r →
      ∃ v', some v = some v' ∧ S.Installed L cfg entry v v' r := fun e => ⟨⟨v, rfl, hv⟩, fun r hr => by cases hr⟩
  refine elsewhere_seq (known hv) (stays_checkBinaryOwnership _) (fun _ => ?_) hfailed
  refine elsewhere_seq (known hv) (elsewhere_syncAuxFiles hvalid) (fun _ => ?_) hfailed
  refine Prog.wp_run_seq (wp_beginRecord hvalid hv) (fun r k hk => ?_) fun e k hk => ⟨hk.1, fun r hr => by cases hr⟩
  obtain ⟨hcovers, v₁, rfl, hrecord⟩ := hk.2 r rfl
  have hv₁ := (wrote_record hvalid hv hcovers hrecord).1
  refine Prog.wp_run_seq (wp_copyBinary hvalid hv₁) ?_ ?_
  · rintro b k ⟨data, hwrites⟩
    obtain ⟨v₂, rfl, hbinary⟩ := hwrites.wrote
    have hinstalled := installed_of_wrote hvalid hv hcovers hrecord hbinary
    refine ⟨⟨v₂, rfl, hinstalled.sound⟩, fun r' hr' => ?_⟩
    cases hr'
    exact ⟨v₂, rfl, hinstalled⟩
  · rintro e k ⟨data, hwrites⟩
    exact ⟨hwrites.held hv₁ fun v' h => (wrote_binary hvalid hv₁ h).1, fun r hr => by cases hr⟩

/-! ## The config -/

variable (S L cfg entry) in
structure Holds (l : List Value) (v : GoString → Option HostFile) : Prop where
  sound : S.Sound L v
  mem : .map entry ∈ S.providers L v
  own : ∀ m, .map m ∈ S.providers L v → m.string nameKey = some cfg.providerName → m = entry
  others : othersOf cfg.providerName (S.providers L v) = othersOf cfg.providerName l

/-- The planned config can be written once the files of the install are there. -/
theorem wrote_config (hvalid : validProviderName cfg.providerName = true) (howns : Installs L cfg rendered entry)
    {v₁ v₂ : GoString → Option HostFile} {desired : GoString} {prior : Option HostFile} {r : EntryRecord} {perm : Nat}
    (hplan : S.Planned L cfg entry v desired prior) (hinst : S.Installed L cfg entry v v₁ r)
    (h : Wrote v₁ S.configPath desired perm v₂) :
    S.Holds L cfg entry (S.providers L v) v₂ ∧ S.Leaves L cfg.providerName v₁ v₂ := by
  obtain ⟨cur, l, hread, hnodup, hmem, hown, hothers⟩ := hplan.reads
  obtain ⟨f, rfl, -, hsize, rfl⟩ := h
  have hl : S.providers L (Function.update v₁ S.configPath (some f)) = l := providers_config hread
  have hbefore : S.providers L v₁ = S.providers L v := by rw [providers, providers, hinst.config]
  have hentry : S.Vouches L v₁ cfg.providerName entry :=
    ⟨string_of_entryName howns.named, hvalid, howns.bridge, hinst.executable, hinst.recorded⟩
  have hvouched : ∀ p ∈ l, ∃ n m, p = .map m ∧
      S.Vouches L (Function.update v₁ S.configPath (some f)) n m := by
    intro p hp
    by_cases hname : providerName p = cfg.providerName
    · exact ⟨_, entry, hown p hp hname, hentry.update_config _⟩
    · have hmem : p ∈ othersOf cfg.providerName (S.providers L v) := hothers ▸ mem_othersOf.mpr ⟨hp, hname⟩
      obtain ⟨n, m, rfl, hm⟩ := hinst.sound.vouched p (hbefore ▸ (mem_othersOf.mp hmem).1)
      exact ⟨n, m, rfl, hm.update_config _⟩
  refine ⟨⟨sound_of_config (Function.update_self ..) hsize hread hvouched hnodup, hl ▸ hmem,
    fun m hm hname => ?_, ?_⟩, ?_⟩
  · have heq := hown (.map m) (hl ▸ hm) (providerName_map hname)
    cases heq
    rfl
  · rw [hl, hothers]
  · rw [Leaves, hl, hothers, hbefore]

/-- The record of a pass whose entry the config holds. -/
theorem Holds.record (hvalid : validProviderName cfg.providerName = true) {l : List Value}
    {v' : GoString → Option HostFile} {r : EntryRecord} {also : GoString} {perm : Nat} (h : S.Holds L cfg entry l v)
    (hr : S.Covers L cfg v r also) (hwrote : Wrote v (recordPath S.binDir cfg.providerName) (L.writeRecord r) perm v') :
    S.Holds L cfg entry l v' := by
  have hsound := (wrote_record hvalid h.sound hr hwrote).1
  obtain ⟨f, -, -, -, rfl⟩ := hwrote
  have hsame : S.providers L (Function.update v (recordPath S.binDir cfg.providerName) (some f)) = S.providers L v :=
    providers_update (S.recordPath_ne_configPath hvalid).symm _
  exact ⟨hsound, hsame ▸ h.mem, by rw [hsame]; exact h.own, by rw [hsame]; exact h.others⟩

theorem wp_installEntry (hvalid : validProviderName cfg.providerName = true) (howns : Installs L cfg rendered entry)
    (hv : S.Sound L v) {desired : GoString} {prior : Option HostFile} (hplan : S.Planned L cfg entry v desired prior)
    {f : EntryRecord → Bool → Pass Unit}
    (hf : ∀ r changed v', S.Covers L cfg v r (L.entryBytes entry) → S.Holds L cfg entry (S.providers L v) v' →
      (f r changed).run.Wp (S.setting L launches cfg) (fun _ => S.Held L) (some v')) :
    (do
      let r ← installFiles L cfg S.binDir (L.entryBytes entry) S.configPath
      let changed ← writeFileIn .config S.configPath desired 0o644
      f r changed : Pass Unit).run.Wp (S.setting L launches cfg) (fun _ => S.Held L) (some v) := by
  refine Prog.wp_run_seq (wp_installFiles hvalid hv) (fun r k hk => ?_) fun e k hk => hk.1
  obtain ⟨v₁, rfl, hinst⟩ := hk.2 r rfl
  refine Prog.wp_run_seq (P := Writes v₁ S.configPath desired 0o644)
    (wp_writeIn .config hinst.sound (fun _ => rfl) fun v₂ h => ?_) (fun changed k hk => ?_)
    fun e k hk => hk.held hinst.sound fun v₂ h => (wrote_config hvalid howns hplan hinst h).1.sound
  · obtain ⟨hholds, hleaves⟩ := wrote_config hvalid howns hplan hinst h
    exact ⟨hholds.sound, hleaves⟩
  · obtain ⟨v₂, rfl, hwrote⟩ := hk.wrote
    exact hf r changed v₂ hinst.begun (wrote_config hvalid howns hplan hinst hwrote).1

theorem wp_commitRecord (hvalid : validProviderName cfg.providerName = true) {l : List Value}
    (h : S.Holds L cfg entry l v) :
    (commitRecord L cfg S.binDir (L.entryBytes entry) S.configPath).run.Wp (S.setting L launches cfg)
      (fun res k => S.Held L k ∧ ∀ u, res = .ok u → ∃ v', k = some v' ∧ S.Holds L cfg entry l v' ∧
        S.Records L v' cfg.providerName (L.entryBytes entry)) (some v) := by
  have hcovers := commit_covers h.own
  refine Prog.wp_mono (fun res k hk => ⟨hk.held h.sound fun v' hwrote =>
    (wrote_record hvalid h.sound hcovers hwrote).1, ?_⟩) _ _ (wp_writeRecord hvalid h.sound hcovers)
  rintro u rfl
  obtain ⟨v', rfl, hwrote⟩ := hk.wrote
  refine ⟨v', rfl, h.record hvalid hcovers hwrote, ?_⟩
  obtain ⟨r', hread, hentry, -⟩ := hcovers
  obtain ⟨f, hdata, -, hsize, rfl⟩ := hwrote
  exact ⟨f, r', Function.update_self .., hdata ▸ hsize, hdata ▸ hread, hentry⟩

/-! ## The rollback -/

theorem wp_sure {a : Act} {e : Err} (hsure : ∀ w w', ¬ S.Answers L launches cfg w (.act a) false w') :
    (attempt a e).run.Wp ⟨(S.setting L launches cfg).sem, fun _ _ => True⟩ (fun res _ => res = .ok ()) (some v) := by
  refine wp_attempt trivial (fun _ _ => rfl) ?_
  rintro k ⟨w, w', -, hsem, -⟩
  exact absurd hsem (hsure w w')

/-- In patch mode the record of the install can always be written over. -/
theorem wp_writeRecord_ok (hvalid : validProviderName cfg.providerName = true) (hmode : cfg.mode = .patch)
    (hv : S.Sound L v) {entryJSON : GoString} (hrecord : S.Records L v cfg.providerName entryJSON) (r : EntryRecord) :
    (writeRecord L cfg S.binDir r).run.Wp ⟨(S.setting L launches cfg).sem, fun _ _ => True⟩
      (fun res _ => res = .ok ()) (some v) := by
  have hsure : ∀ {a : Act}, a.ofRecord (recordPath S.binDir cfg.providerName) →
      ∀ w w', ¬ S.Answers L launches cfg w (.act a) false w' := by
    intro a ha w w' hsem
    exact Bool.false_ne_true (hsem.2.2 hmode ha)
  have hfree : ∀ {α : Type} {m : Pass α} {Q : Except Err α → Option (GoString → Option HostFile) → Prop},
      m.run.Wp (S.setting L launches cfg) Q (some v) →
      m.run.Wp ⟨(S.setting L launches cfg).sem, fun _ _ => True⟩ Q (some v) :=
    Prog.wp_weaken (S := ⟨(S.setting L launches cfg).sem, fun _ _ => True⟩) (T := S.setting L launches cfg)
      (fun _ _ _ => trivial) fun _ _ _ _ h => h
  have hpure : ∀ {m : Pass Unit} (b : Bool), m.run.Wp ⟨(S.setting L launches cfg).sem, fun _ _ => True⟩
      (fun res _ => res = .ok ()) (some v) → (m >>= fun _ => pure b : Pass Bool).run.Wp
        ⟨(S.setting L launches cfg).sem, fun _ _ => True⟩ (fun res _ => ∃ b, res = .ok b) (some v) := by
    intro m b h
    exact Prog.wp_run_seq h (fun _ _ _ => ⟨b, rfl⟩) fun e k he => by cases he
  obtain ⟨f, -, hf, hsize, -⟩ := hrecord
  refine Prog.wp_run_seq (P := fun res _ => ∃ b, res = .ok b) ?_ (fun _ _ _ => rfl)
    fun e k he => by obtain ⟨b, hb⟩ := he; cases hb
  refine Prog.wp_run_seq (Prog.wp_and _ _ (hfree (wp_elsewhere (known hv) (stays_mkdir _)))
    (wp_sure (hsure (a := .mkdir _) rfl))) ?_ fun e k he => by cases he.2
  rintro _ k ⟨rfl, -⟩
  refine compare_seq trivial fun d hfiles => ?_
  have hopen : d.openRegular (recordPath S.binDir cfg.providerName) = .ok f := by
    refine Disk.openRegular_eq_ok_iff.mpr ⟨(files_eq_some (.record _ hvalid)).mp ?_, hsize⟩
    rw [hfiles, hf]
  rw [hopen]
  dsimp only
  split_ifs
  · refine hpure false ?_
    unfold onlyIf
    split_ifs
    · exact wp_sure (hsure rfl)
    · rfl
  · refine Prog.wp_run_seq (Prog.wp_and _ _ (hfree (wp_elsewhere (known hv)
      (stays_replaceFile (S.not_shared_backup _) _))) (wp_sure (hsure (a := .replace .backup _ _) rfl))) ?_
      fun e k he => by cases he.2
    rintro _ k ⟨rfl, -⟩
    exact hpure true (wp_sure (hsure (a := .replace .record _ _) rfl))

variable {v₀ : GoString → Option HostFile}

/-- The entries of an earlier config are still vouched for: the others are in the config now, and
the own one is in the record again. -/
theorem Holds.earlier (hnamed : entryName entry = .ok cfg.providerName) (h : S.Holds L cfg entry (S.providers L v₀) v)
    (hv₀ : S.Sound L v₀)
    (hrecord : ∀ m, .map m ∈ S.providers L v₀ → m.string nameKey = some cfg.providerName →
      S.Records L v cfg.providerName (L.entryBytes m)) :
    ∀ p ∈ S.providers L v₀, ∃ n m, p = .map m ∧ S.Vouches L v n m := by
  intro p hp
  obtain ⟨n, m, rfl, hm⟩ := hv₀.vouched p hp
  by_cases hn : n = cfg.providerName
  · subst hn
    have hentry := h.sound.vouches h.mem (string_of_entryName hnamed)
    exact ⟨_, m, rfl, hm.named, hm.valid, hm.bridge, hentry.executable, hrecord m hp hm.named⟩
  · have hmem : .map m ∈ othersOf cfg.providerName (S.providers L v) := by
      rw [h.others]
      exact mem_othersOf.mpr ⟨hp, hm.providerName ▸ hn⟩
    exact h.sound.vouched _ (mem_othersOf.mp hmem).1

theorem wp_restoreConfig (hnamed : entryName entry = .ok cfg.providerName) (hv₀ : S.Sound L v₀)
    (h : S.Holds L cfg entry (S.providers L v₀) v)
    (hrecord : ∀ m, .map m ∈ S.providers L v₀ → m.string nameKey = some cfg.providerName →
      S.Records L v cfg.providerName (L.entryBytes m)) :
    (restoreIn .config S.configPath (v₀ S.configPath)).run.Wp (S.setting L launches cfg) (fun _ => S.Held L)
      (some v) := by
  cases hprior : v₀ S.configPath with
  | some f =>
    obtain ⟨-, ⟨cur, l⟩, hread⟩ := hv₀.reads f hprior
    have hl : S.providers L v₀ = l := by rw [providers, hprior, providersIn_some hread]
    have hearlier := h.earlier hnamed hv₀ hrecord
    rw [hl] at hearlier
    have hkeep : ∀ v', Wrote v S.configPath f.data f.perm v' → S.Sound L v' ∧ S.Leaves L cfg.providerName v v' := by
      rintro v' ⟨g, hdata, -, hsize, rfl⟩
      rw [← hdata] at hsize hread
      refine ⟨sound_of_config (Function.update_self ..) hsize hread (fun p hp => ?_) (hl ▸ hv₀.nodup), ?_⟩
      · obtain ⟨n, m, rfl, hm⟩ := hearlier p hp
        exact ⟨n, m, rfl, hm.update_config _⟩
      · rw [Leaves, providers_config hread, h.others, hl]
    refine Prog.wp_mono (fun res k hk => ?_) _ _ (writes_bind_pure (p := S.configPath)
      (wp_writeIn .config h.sound (fun _ => rfl) hkeep) ())
    exact hk.held h.sound fun v' hwrote => (hkeep v' hwrote).1
  | none =>
    have hnothing : othersOf cfg.providerName (S.providers L v) = [] := by
      rw [h.others, providers, hprior]
      rfl
    refine compare_seq (may_elsewhere h.sound trivial) fun d _ => ?_
    split
    · exact ⟨v, rfl, h.sound⟩
    · refine Prog.wp_mono ?_ _ _ (wp_change (.failed S.configPath)
        (P := fun _ v' => v' = v ∨ v' = Function.update v S.configPath none) (fun w ok w' hpart hsem => ?_)
        fun ok v' hv' => ?_)
      · rintro res k ⟨v', rfl, hv'⟩
        refine ⟨v', rfl, ?_⟩
        rcases hv' with ⟨-, rfl | rfl⟩ | ⟨-, rfl | rfl⟩
        · exact h.sound
        · exact sound_of_none (Function.update_self ..)
        · exact h.sound
        · exact sound_of_none (Function.update_self ..)
      · rcases files_remove .config (acts_of_answers hsem.1) with ⟨-, hsame⟩ | hgone
        · exact .inl (hsame.trans hpart)
        · exact .inr (by rw [hgone, hpart])
      · rcases hv' with rfl | rfl
        · exact ⟨h.sound, rfl⟩
        · refine ⟨sound_of_none (Function.update_self ..), ?_⟩
          rw [Leaves, hnothing, providers, Function.update_self]
          rfl
    · exact ⟨v, rfl, h.sound⟩

/-- A rollback puts the record back before the config that needs it. -/
theorem wp_rollback (hvalid : validProviderName cfg.providerName = true) (hmode : cfg.mode = .patch)
    (hnamed : entryName entry = .ok cfg.providerName) (hv₀ : S.Sound L v₀) {r : EntryRecord}
    (hr : S.Covers L cfg v₀ r (L.entryBytes entry)) (h : S.Holds L cfg entry (S.providers L v₀) v)
    (hrecord : S.Records L v cfg.providerName (L.entryBytes entry)) {envFile : GoString} (henv : ¬ S.Shared envFile)
    (priorEnv : Option HostFile) :
    (restoreAll [writeRecord L cfg S.binDir r, restoreIn .config S.configPath (v₀ S.configPath),
      restoreIn .environment envFile priorEnv]).Wp (S.setting L launches cfg) (fun _ => S.Held L) (some v) := by
  obtain ⟨r', hread, hentry, hholds⟩ := hr
  have hcovers : S.Covers L cfg v r (L.entryBytes entry) := by
    refine ⟨r', hread, hentry, fun m hm hname => ?_⟩
    rw [h.own m hm hname]
    exact hentry
  refine Prog.wp_seq (Prog.wp_and_sem _ _ (wp_writeRecord hvalid h.sound hcovers)
    (wp_writeRecord_ok hvalid hmode h.sound hrecord r)) ?_
  rintro res k ⟨hwrites, rfl⟩
  obtain ⟨v₁, rfl, hwrote⟩ := hwrites.wrote
  have hholds₁ := h.record hvalid hcovers hwrote
  obtain ⟨f, hdata, -, hsize, rfl⟩ := hwrote
  have hrecords : ∀ m, .map m ∈ S.providers L v₀ → m.string nameKey = some cfg.providerName →
      S.Records L (Function.update v (recordPath S.binDir cfg.providerName) (some f)) cfg.providerName
        (L.entryBytes m) := fun m hm hname =>
    ⟨f, r', Function.update_self .., hdata ▸ hsize, hdata ▸ hread, hholds m hm hname⟩
  refine Prog.wp_seq (Prog.wp_seq (wp_restoreConfig hnamed hv₀ hholds₁ hrecords) ?_) fun ok k hk => hk
  rintro res k ⟨v₂, rfl, hv₂⟩
  refine Prog.wp_seq (Prog.wp_seq (wp_elsewhere (known hv₂) (stays_restoreIn (elsewhere_file henv _) priorEnv)) ?_)
    fun ok k hk => hk
  rintro res k rfl
  exact ⟨v₂, rfl, hv₂⟩

/-! ## The restart -/

theorem held_elsewhere {α : Type} {k : Option (GoString → Option HostFile)} {p : Pass α} (hk : S.Held L k)
    (hp : Stays S.elsewhere p) : p.run.Wp (S.setting L launches cfg) (fun _ => S.Held L) k := by
  obtain ⟨v, rfl, hv⟩ := hk
  exact Prog.wp_mono (fun res k hk => ⟨v, hk, hv⟩) _ _ (wp_elsewhere (known hv) hp)

/-- Whatever comes of the restart, the config is sound if it is after a rollback. -/
theorem wp_finishWithRestart (hvalid : validProviderName cfg.providerName = true) (hv : S.Sound L v)
    {rb : List (Pass Unit)}
    (hrb : (restoreAll rb).Wp (S.setting L launches cfg) (fun _ => S.Held L) (some v)) (t : Target) (changedNow : Bool)
    (want : Option Wiring) :
    (finishWithRestart L cfg t changedNow want rb).run.Wp (S.setting L launches cfg) (fun _ => S.Held L) (some v) := by
  have hheld : S.Held L (some v) := ⟨v, rfl, hv⟩
  have hstate : S.elsewhere.File .state cfg.statePath := elsewhere_statePath hvalid
  have hlift : (ExceptT.lift (restoreAll rb) : Pass Bool).run.Wp (S.setting L launches cfg) (fun _ => S.Held L)
      (some v) := Prog.wp_seq hrb fun _ _ hk => hk
  refine elsewhere_seq (known hv) stays_loadState (fun st => ?_) fun e => hheld
  split_ifs
  · exact hheld
  · exact held_elsewhere hheld (stays_saveState hstate _)
  · refine elsewhere_seq (known hv) (stays_ask trivial) (fun ok => ?_) fun e => hheld
    split_ifs
    · refine elsewhere_seq (known hv) (Prog.only_lift (only_restartKubelet trivial want)) (fun well => ?_) fun e => hheld
      split_ifs
      · exact held_elsewhere hheld (stays_saveState hstate _)
      · refine Prog.wp_run_seq (P := fun _ => S.Held L) ?_ (fun _ k hk => held_elsewhere hk ?_) fun _ _ hk => hk
        · cases changedNow with
          | false => exact hheld
          | true =>
            refine Prog.wp_run_seq hlift (fun _ k hk => held_elsewhere hk ?_) fun _ _ hk => hk
            exact stays_bind (Prog.only_lift (only_restartKubelet trivial none)) fun _ => stays_pure _
        · exact stays_bind stays_kubeletIdentity fun _ =>
            stays_bind (Prog.only_lift (stays_saveState hstate _)) fun _ => stays_throw _
    · refine Prog.wp_run_seq (P := fun _ => S.Held L) ?_ (fun _ _ hk => hk) fun _ _ hk => hk
      cases changedNow with
      | false => exact hheld
      | true => exact Prog.wp_run_seq hlift (fun _ _ hk => hk) fun _ _ hk => hk

/-! ## Patch mode -/

theorem wp_patchedEnv (hv : S.Sound L v) (own : Wiring) : (patchedEnv own).run.Wp (S.setting L launches cfg)
    (fun res k => k = some v ∧ ∀ x, res = .ok x → ¬ S.Shared x.1) (some v) := by
  have hfailed : ∀ e : Err, some v = some v ∧ ∀ x : GoString × Option HostFile × GoString,
      Except.error e = .ok x → ¬ S.Shared x.1 := fun e => ⟨rfl, fun x hx => by cases hx⟩
  refine ⟨may_elsewhere hv trivial, ?_⟩
  rintro env k ⟨w, w', hpart, ⟨hsem, htame⟩, rfl⟩
  cases hsem
  rw [if_neg (by simp [locking]), hpart]
  cases env with
  | none => exact hfailed _
  | some env =>
    refine look_seq (may_elsewhere hv trivial) fun d _ => ?_
    cases hfile : kubeletEnvFile d env with
    | error e => exact hfailed _
    | ok envFile =>
      refine Prog.wp_run_seq (P := fun res k => k = some v ∧ res = .ok envFile) ⟨rfl, rfl⟩ ?_
        fun e k he => by cases he.2
      rintro _ k ⟨rfl, ⟨⟩⟩
      refine elsewhere_seq (known hv) (stays_readPrior _ _) (fun prior => ?_) hfailed
      refine elsewhere_seq (known hv) (stays_orRefuse _ _) (fun desired => ?_) hfailed
      refine ⟨rfl, fun x hx => ?_⟩
      cases hx
      exact htame env rfl d envFile hfile

theorem wp_planPatch (hwrites : ∀ m, (L.writeYaml m).isSome = true) (howns : Installs L cfg rendered entry)
    (hv : S.Sound L v) : (planPatch L cfg rendered entry ⟨S.binDir, S.configPath⟩).run.Wp (S.setting L launches cfg)
      (fun res k => k = some v ∧ ∀ plan, res = .ok plan → plan.own = ⟨S.binDir, S.configPath⟩ ∧
        plan.entryJSON = L.entryBytes entry ∧ S.Planned L cfg entry v plan.desiredConfig plan.priorConfig ∧
        ¬ S.Shared plan.envFile) (some v) := by
  refine elsewhere_seq (known hv) (stays_mkdir _) (fun _ => ?_) fun e => ⟨rfl, fun plan h => by cases h⟩
  refine Prog.wp_run_seq (wp_chartOwnedConfigIn hwrites howns hv) ?_ fun e k hk => ⟨hk.1, fun plan h => by cases h⟩
  rintro ⟨desired, prior⟩ k ⟨rfl, hplanned⟩
  refine Prog.wp_run_seq (wp_patchedEnv hv _) ?_ fun e k hk => ⟨hk.1, fun plan h => by cases h⟩
  rintro ⟨envFile, priorEnv, desiredEnv⟩ k ⟨rfl, henv⟩
  refine elsewhere_seq (known hv) (stays_refuseRejected _) (fun _ => ?_) fun e => ⟨rfl, fun plan h => by cases h⟩
  refine ⟨rfl, fun plan h => ?_⟩
  cases h
  exact ⟨rfl, rfl, hplanned _ rfl, henv _ rfl⟩

theorem wp_runPatchOn (hwrites : ∀ m, (L.writeYaml m).isSome = true)
    (hvalid : validProviderName cfg.providerName = true) (hmode : cfg.mode = .patch)
    (howns : Installs L cfg rendered entry) (hv : S.Sound L v) :
    (runPatchOn L cfg rendered entry ⟨S.binDir, S.configPath⟩).run.Wp (S.setting L launches cfg) (fun _ => S.Held L)
      (some v) := by
  refine Prog.wp_run_seq (wp_planPatch hwrites howns hv) ?_ fun e k hk => ⟨v, hk.1, hv⟩
  rintro ⟨own, entryJSON, desiredConfig, priorConfig, envFile, priorEnv, desiredEnv⟩ k ⟨rfl, hplan⟩
  obtain ⟨rfl, rfl, hplanned, henv⟩ := hplan _ rfl
  refine wp_installEntry hvalid howns hv hplanned fun r changed v' hr hholds => ?_
  refine Prog.wp_run_seq (wp_commitRecord hvalid hholds) (fun _ k hk => ?_) fun e k hk => hk.1
  obtain ⟨v', rfl, hholds, hrecord⟩ := hk.2 _ rfl
  refine elsewhere_seq (known hholds.sound) (stays_writeForeignFile (elsewhere_file henv _) _) (fun envChanged => ?_)
    fun e => ⟨v', rfl, hholds.sound⟩
  refine wp_finishWithRestart hvalid hholds.sound ?_ _ _ _
  have hprior : v S.configPath = priorConfig := hplanned.prior
  rw [← hprior]
  exact wp_rollback hvalid hmode howns.named hv hr hholds hrecord henv priorEnv

/-! ## The locks -/

theorem may_lock {k : Option (GoString → Option HostFile)} (hk : ∀ v, k = some v → S.Sound L v) {p : GoString}
    (hp : ¬ S.Shared p) : (S.setting L launches cfg).may k (.act (.lock p)) ∧
      (S.setting L launches cfg).may k (.unlock p) := by
  have hlock : ∀ {w w' : Host} {ok : Bool}, S.Answers L launches cfg w (.act (.lock p)) ok w' →
      S.files w'.disk = S.files w.disk := by
    intro w w' ok hsem
    refine files_act (acts_of_answers hsem.1) fun q hq => ?_
    cases hq
    exact hp
  have hunlock : ∀ {w w' : Host} {u : Unit}, S.Answers L launches cfg w (.unlock p) u w' →
      S.files w'.disk = S.files w.disk := by
    rintro w w' u ⟨hsem, -⟩
    cases hsem
    rfl
  cases k with
  | none => exact ⟨fun w ok w' _ hsem => hlock hsem, fun w u w' _ hsem => hunlock hsem⟩
  | some v =>
    have hsame : ∀ w w' : Host, S.files w.disk = v → S.files w'.disk = S.files w.disk →
        S.Sound L (S.files w'.disk) ∧ S.Leaves L cfg.providerName v (S.files w'.disk) := by
      intro w w' hpart heq
      rw [heq, hpart]
      exact ⟨hk v rfl, rfl⟩
    exact ⟨fun w ok w' hpart hsem => hsame w w' hpart (hlock hsem),
      fun w u w' hpart hsem => hsame w w' hpart (hunlock hsem)⟩

/-- Under the lock of the config the pass finds it sound, and leaves it so. -/
theorem wp_lockedOwn {α : Type} {body : Pass α}
    (hbody : ∀ v, S.Sound L v → body.run.Wp (S.setting L launches cfg) (fun _ => S.Held L) (some v)) :
    (locked (S.configPath ++ lockSuffix) body).run.Wp (S.setting L launches cfg) (fun _ k => k = none) none := by
  have hshared := S.not_shared_lock S.configPath
  refine Prog.wp_run_seq (P := fun res k => (res = .ok () → S.Held L k) ∧ ∀ e, res = .error e → k = none)
    (wp_attempt (may_lock (fun v hv => by cases hv) hshared).1 ?_ ?_) (fun _ k hk => ?_) fun e k hk => hk.2 e rfl
  · rintro k ⟨w, w', hsound, hsem, rfl⟩
    have hsame : S.guard.part w' = S.guard.part w :=
      files_act (acts_of_answers hsem.1) fun q hq => by cases hq; exact hshared
    refine ⟨fun _ => ⟨_, if_pos rfl, ?_⟩, fun e he => by cases he⟩
    rw [hsame]
    exact hsound
  · rintro k ⟨w, w', -, -, rfl⟩
    exact ⟨fun h => (by cases h), fun _ _ => if_neg (by simp [Machine.taken, locking])⟩
  · obtain ⟨v, rfl, hv⟩ := hk.1 rfl
    refine Prog.wp_seq (hbody v hv) ?_
    rintro res k ⟨v', rfl, hv'⟩
    refine ⟨(may_lock (known hv') hshared).2, ?_⟩
    rintro u k ⟨w, w', -, -, rfl⟩
    exact if_pos rfl

theorem wp_lockedOther {α : Type} {p : GoString} {body : Pass α} (hshared : ¬ S.Shared p)
    (hp : p ≠ S.configPath ++ lockSuffix)
    (hbody : body.run.Wp (S.setting L launches cfg) (fun _ k => k = none) none) :
    (locked p body).run.Wp (S.setting L launches cfg) (fun _ k => k = none) none := by
  have hnone : ∀ v, (none : Option (GoString → Option HostFile)) = some v → S.Sound L v := fun v hv => by cases hv
  have hne : some p ≠ some S.guard.lock := fun h => hp (Option.some.inj h)
  refine Prog.wp_run_seq (P := fun _ k => k = none) (wp_attempt (may_lock hnone hshared).1 ?_ ?_) (fun _ k hk => ?_)
    fun _ _ hk => hk
  · rintro k ⟨w, w', -, -, rfl⟩
    exact if_neg hne
  · rintro k ⟨w, w', -, -, rfl⟩
    exact if_neg (by simp [Machine.taken, locking])
  · subst hk
    refine Prog.wp_seq hbody ?_
    rintro res k rfl
    refine ⟨(may_lock hnone hshared).2, ?_⟩
    rintro u k ⟨w, w', -, -, rfl⟩
    exact if_neg (by simp [Machine.taken, locking])

theorem wp_lockPatchConfigs (hm : S.Member cfg) {α : Type} {body : Pass α} (current : Wiring)
    (hbody : ∀ v, S.Sound L v → body.run.Wp (S.setting L launches cfg) (fun _ => S.Held L) (some v)) :
    (lockPatchConfigs cfg current body).run.Wp (S.setting L launches cfg) (fun _ k => k = none) none := by
  have hnone : ∀ v, (none : Option (GoString → Option HostFile)) = some v → S.Sound L v := fun v hv => by cases hv
  have hown : (lockConfig (S.configPath ++ lockSuffix) body).run.Wp (S.setting L launches cfg)
      (fun _ k => k = none) none :=
    elsewhere_seq hnone (stays_mkdir _) (fun _ => wp_lockedOwn hbody) fun _ => rfl
  unfold lockPatchConfigs
  rw [hm.ownConfigPath]
  dsimp only
  split_ifs
  · refine elsewhere_seq hnone (stays_ask trivial) (fun d => ?_) fun _ => rfl
    split_ifs with hlock
    · refine elsewhere_seq hnone (stays_mkdir _) (fun _ => ?_) fun _ => rfl
      exact wp_lockedOther (S.not_shared_lock _) hlock hown
    · exact hown
  · exact hown

/-! ## The pass -/

theorem source_seq {β : Type} {f : Except ReadError GoString → Pass β}
    {Q : Except Err β → Option (GoString → Option HostFile) → Prop}
    (hf : ∀ r, (∀ raw, r = .ok raw → Rendering L cfg raw) → (f r).run.Wp (S.setting L launches cfg) Q none) :
    (ask (.source .config) >>= f).run.Wp (S.setting L launches cfg) Q none := by
  refine ⟨fun w r w' _ hsem => ?_, ?_⟩
  · rw [show w' = w from hsem.1]
  · rintro raw k ⟨w, w', -, ⟨-, htame⟩, rfl⟩
    rw [Machine.taken_eq_none rfl, if_neg (Option.some_ne_none _).symm]
    exact hf raw htame

theorem wp_readRendered (hvalid : validProviderName cfg.providerName = true) :
    (readRendered L cfg).run.Wp (S.setting L launches cfg)
      (fun res k => k = none ∧ ∀ x, res = .ok x → Installs L cfg x.1 x.2) none := by
  have hnone : ∀ v, (none : Option (GoString → Option HostFile)) = some v → S.Sound L v := fun v hv => by cases hv
  refine source_seq fun raw htame => ?_
  refine Prog.wp_mono (fun res k h => ⟨h.2, h.1⟩) _ _ (Prog.wp_returns (wp_elsewhere hnone ?_) ?_)
  · split
    · split_ifs <;> trivial
    · exact stays_throw _
    · refine stays_bind (stays_orRefuse _ _) fun _ => stays_bind (stays_orRefuse _ _) fun _ => ?_
      split <;> trivial
  · change Yields _ _
    split
    · split_ifs
      · exact yields_throw _
      · exact yields_throw _
    · exact yields_throw _
    · rename_i raw
      refine yields_bind (yields_orRefuse _ _) fun rendered hrendered => ?_
      refine yields_bind (yields_orRefuse _ _) fun entry hentry => ?_
      split
      · rename_i hproblems
        refine yields_pure ⟨rendered_named hvalid hentry, bridge_of_valid hproblems, ?_⟩
        exact htame raw rfl rendered entry hrendered hentry
      · exact yields_throw _

theorem wp_runNone (hwrites : ∀ m, (L.writeYaml m).isSome = true) (hm : S.Member cfg)
    (howns : Installs L cfg rendered entry) :
    (runNone L cfg rendered entry).run.Wp (S.setting L launches cfg) (fun _ k => k = none) none := by
  have hnone : ∀ v, (none : Option (GoString → Option HostFile)) = some v → S.Sound L v := fun v hv => by cases hv
  refine elsewhere_seq hnone (stays_mkdir _) (fun _ => ?_) fun _ => rfl
  rw [hm.ownConfigPath]
  refine wp_lockedOwn fun v hv => ?_
  rw [ownConfig, hm.ownWiring]
  refine Prog.wp_run_seq (wp_chartOwnedConfigIn hwrites howns hv) ?_ fun e k hk => ⟨v, hk.1, hv⟩
  rintro ⟨desired, prior⟩ k ⟨rfl, hplanned⟩
  dsimp only
  unfold applyNone
  rw [hm.binDir, hm.ownConfigPath]
  refine wp_installEntry hm.valid howns hv (hplanned _ rfl) fun r changed v' _ hholds => ?_
  exact Prog.wp_mono (fun res k hk => hk.1) _ _ (wp_commitRecord hm.valid hholds)

theorem not_shared_nodeLock (S : SharedDirs) : ¬ S.Shared nodeLockPath := by
  have hnode : nodeLockPath = nodeLockConfig ++ lockSuffix := by decide
  rw [hnode]
  exact S.not_shared_lock _

theorem wp_run (hwrites : ∀ m, (L.writeYaml m).isSome = true) (hm : S.Member cfg) :
    (run L cfg).run.Wp (S.setting L launches cfg) (fun _ k => k = none) none := by
  have hnone : ∀ v, (none : Option (GoString → Option HostFile)) = some v → S.Sound L v := fun v hv => by cases hv
  refine Prog.wp_run_seq (wp_readRendered hm.valid) ?_ fun e k hk => hk.1
  rintro ⟨rendered, entry⟩ k ⟨rfl, hrendered⟩
  have howns := hrendered _ rfl
  rcases hm.mode with hmode | hmode
  · rw [hmode]
    exact wp_runNone hwrites hm howns
  · rw [hmode]
    refine wp_lockedOther S.not_shared_nodeLock (fun h => pathJoin_lock_ne S.configDir h.symm) ?_
    refine elsewhere_seq hnone stays_discoverKubelet (fun wiring => ?_) fun _ => rfl
    refine wp_lockPatchConfigs hm wiring fun v hv => ?_
    have hheld : S.Held L (some v) := ⟨v, rfl, hv⟩
    refine elsewhere_seq (known hv) (stays_blockingInstalls _ _ _) (fun others => ?_) fun _ => hheld
    split_ifs with hothers hmoving
    · rw [hm.ownWiring]
      exact wp_runPatchOn hwrites hm.valid hmode howns hv
    · cases hmoving
    · exact hheld

end SharedDirs

end HarborBridge.Installer
