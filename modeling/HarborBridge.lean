import HarborBridge.Lib.Program
import HarborBridge.Lib.GoStrings
import HarborBridge.Lib.Rfc3339
import HarborBridge.Lib.Sha256
import HarborBridge.Lib.History
import HarborBridge.Lib.DnsNames
import HarborBridge.Lib.Document
import HarborBridge.Lib.Locks
import HarborBridge.Lib.Firsts
import HarborBridge.Lib.TokenBucket
import HarborBridge.Lib.GoText
import HarborBridge.Lib.Wildcard
import HarborBridge.Naming
import HarborBridge.Api
import HarborBridge.RobotSecret
import HarborBridge.Robots
import HarborBridge.Grants
import HarborBridge.Contract
import HarborBridge.BridgeConfig
import HarborBridge.Client
import HarborBridge.DataPlane
import HarborBridge.CredentialIsolation
import HarborBridge.Harbor
import HarborBridge.Listing
import HarborBridge.Rotation
import HarborBridge.Calls
import HarborBridge.Reconciler
import HarborBridge.Janitor
import HarborBridge.Knowledge
import HarborBridge.PassObserved
import HarborBridge.SweepObserved
import HarborBridge.RobotIsolation
import HarborBridge.HarborSeen
import HarborBridge.FinalizerSafety
import HarborBridge.Vault
import HarborBridge.PasswordTrust
import HarborBridge.Suspension
import HarborBridge.Site
import HarborBridge.Selection
import HarborBridge.Siblings
import HarborBridge.SecretRaces
import HarborBridge.ForeignSecrets
import HarborBridge.Handover
import HarborBridge.HarborClient
import HarborBridge.Lookup
import HarborBridge.SweepSound
import HarborBridge.Undisturbed
import HarborBridge.SweepSettles
import HarborBridge.Revocation
import HarborBridge.Converge
import HarborBridge.FixedPoint
import HarborBridge.Crowd
import HarborBridge.CrowdPass
import HarborBridge.PlanesAgree
import HarborBridge.Plugin
import HarborBridge.RotationPromise
import HarborBridge.KeySet
import HarborBridge.KeyRotation
import HarborBridge.RateLimit
import HarborBridge.TokenErrors
import HarborBridge.AdminCreds
import HarborBridge.SecretEvents
import HarborBridge.Installer.EnvFile
import HarborBridge.Installer.EnvLines
import HarborBridge.Installer.ExtraArgs
import HarborBridge.Installer.EnvValues
import HarborBridge.Installer.EnvPositions
import HarborBridge.Installer.NodePath
import HarborBridge.Installer.MergeExtraArgs
import HarborBridge.Installer.Disk
import HarborBridge.Installer.UnitEnv
import HarborBridge.Installer.Glob
import HarborBridge.Installer.EnvEffect
import HarborBridge.Installer.MergeAgain
import HarborBridge.Installer.Library
import HarborBridge.Installer.ProviderConfig
import HarborBridge.Installer.Settings
import HarborBridge.Installer.Paths
import HarborBridge.Installer.Calls
import HarborBridge.Installer.Run
import HarborBridge.Installer.Host
import HarborBridge.Installer.Footprint
import HarborBridge.Installer.PlainLibrary
import HarborBridge.Installer.SampleNode
import HarborBridge.Installer.ChartConfig
import HarborBridge.Installer.CloudConfig
import HarborBridge.Installer.Refusals
import HarborBridge.Installer.Locks
import HarborBridge.Installer.SharedFiles
import HarborBridge.Installer.SharedConfig
import HarborBridge.Installer.ShareRules
import HarborBridge.Installer.SharePass
import HarborBridge.Installer.Sharing
import HarborBridge.Installer.Processes
import HarborBridge.Installer.Verify
