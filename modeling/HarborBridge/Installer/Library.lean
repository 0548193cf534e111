import HarborBridge.Lib.Document

/-!
# What the installer takes from other packages

The records and state files of package main of the installer (record.go, state.go), and the
functions of sigs.k8s.io/yaml, encoding/json, net/url, net/netip and time that it calls.
-/

namespace HarborBridge.Installer

open GoStrings Document

/-- The content of an install's record: the canonical bytes of the entries it may have in the
config, and the chart-owned config it writes them into. -/
structure EntryRecord where
  entries : List GoString
  chartOwnedConfig : GoString
  deriving DecidableEq

/-- Content that kubelet did not come up healthy with. -/
structure Rejection where
  mode : GoString
  binDir : GoString
  configFile : GoString
  envFile : GoString
  unit : GoString
  entryHash : GoString
  appliedHash : GoString
  kubelet : GoString
  deriving DecidableEq

/-- What the installer last applied and restarted kubelet for. -/
structure State where
  schemaVersion : Int
  mode : GoString
  binDir : GoString
  configFile : GoString
  envFile : GoString
  appliedHash : GoString
  entryHash : GoString
  rejected : Option Rejection
  deriving DecidableEq

structure Url where
  scheme : GoString
  host : GoString

structure Addr where
  text : GoString
  zone : GoString
  is4 : Bool

/-- What the installer asks of other packages. Nothing is known of YAML: the installer reads
back what it writes (`checkRoundTrip`). Of encoding/json it is known that records read back as
they were written, with their entries compacted. -/
structure Library where
  /-- yaml.Unmarshal into a `map[string]any`; none when it fails. -/
  readYaml : GoString → Option Fields
  /-- yaml.Marshal. -/
  writeYaml : Fields → Option GoString
  /-- json.Unmarshal into a `map[string]any`. -/
  readJson : GoString → Option Fields
  /-- json.MarshalIndent. -/
  writeJson : Fields → Option GoString
  /-- json.Marshal of a map that yaml.Unmarshal returned, which never fails. -/
  entryBytes : Fields → GoString
  /-- fmt.Sprint. -/
  sprint : Option Value → GoString
  parseUrl : GoString → Option Url
  parseDuration : GoString → Option Int
  parseAddr : GoString → Option Addr
  /-- json.Unmarshal into an `entryRecord`. -/
  readRecord : GoString → Option EntryRecord
  writeRecord : EntryRecord → GoString
  /-- json.Unmarshal into a `state`. -/
  readState : GoString → Option State
  writeState : State → GoString
  /-- The texts encoding/json writes as they are: valid UTF-8. -/
  isText : GoString → Prop
  /-- The texts it reads as one JSON value. -/
  isJson : GoString → Prop
  /-- json.Compact, with the escapes json.Marshal adds. -/
  compact : GoString → GoString
  isText_ascii : ∀ s : GoString, (∀ b ∈ s, b < 128) → isText s
  isJson_entryBytes : ∀ e, isJson (entryBytes e)
  compact_entryBytes : ∀ e, compact (entryBytes e) = entryBytes e
  isJson_readRecord : ∀ raw r, readRecord raw = some r → ∀ e ∈ r.entries, isJson e
  readRecord_writeRecord : ∀ r : EntryRecord, (∀ e ∈ r.entries, isJson e) → isText r.chartOwnedConfig →
    readRecord (writeRecord r) = some { r with entries := r.entries.map compact }

end HarborBridge.Installer
