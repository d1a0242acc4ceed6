import GitCrypt.Library.IStream
import GitCrypt.Library.ReadLoop
import GitCrypt.Library.Keystream
import GitCrypt.Library.DescMap
import GitCrypt.Library.Tlv
import GitCrypt.Library.Hoare
import GitCrypt.Library.FileSystem
import GitCrypt.Library.Shell
import GitCrypt.Library.Words
import GitCrypt.Library.Resume
import GitCrypt.Library.CommandLine
import GitCrypt.Library.Memory
import GitCrypt.Library.ShortIO
import GitCrypt.Library.BufferedWriter
import GitCrypt.Library.Inevitable
import GitCrypt.Library.Dialogue
import GitCrypt.Library.Descriptors
import GitCrypt.Library.Composed
import GitCrypt.Util
import GitCrypt.Crypto
import GitCrypt.Key
import GitCrypt.KeyFormat
import GitCrypt.KeyRoundTrip
import GitCrypt.KeySecrets
import GitCrypt.Filter
import GitCrypt.FilterRoundTrip
import GitCrypt.FilterLimits
import GitCrypt.ParseOptions
import GitCrypt.World
import GitCrypt.Git
import GitCrypt.Gpg
import GitCrypt.RepoKeys
import GitCrypt.Commands
import GitCrypt.FilterCommands
import GitCrypt.KeyCommands
import GitCrypt.ReadOnly
import GitCrypt.Effects
import GitCrypt.Consistency
import GitCrypt.Sharing
import GitCrypt.KeyVersions
import GitCrypt.Runs
import GitCrypt.Legacy
import GitCrypt.Installation
import GitCrypt.ConfiguredFilters
import GitCrypt.EncryptedFiles
import GitCrypt.Status
import GitCrypt.KeyNames
import GitCrypt.Isolation
import GitCrypt.Queries
import GitCrypt.RepoKeyFiles
import GitCrypt.Collaborators
import GitCrypt.KeyTruncation
import GitCrypt.KeyCompatibility
import GitCrypt.Passthrough
import GitCrypt.UnlockFailures
import GitCrypt.KeyWrites
import GitCrypt.RepoKeyOutcomes
import GitCrypt.LockCompletion
import GitCrypt.Staging
import GitCrypt.StatusFix
import GitCrypt.Cmdline
import GitCrypt.OptionGrammar
import GitCrypt.Ofhbuf
import GitCrypt.OutputStream
import GitCrypt.WriteErrors
import GitCrypt.CoprocessInput
import GitCrypt.Ifhbuf
import GitCrypt.InputStream
import GitCrypt.Putback
import GitCrypt.KeyListings
import GitCrypt.CtrCalls
import GitCrypt.KeyAdditions
import GitCrypt.Checkout
import GitCrypt.CheckAttr
import GitCrypt.Coprocess
import GitCrypt.CoprocessChildren
import GitCrypt.Composition
import GitCrypt.Main
import GitCrypt.ExitStatus
import GitCrypt.Processes
import GitCrypt.Footprint
import GitCrypt.KeyOrigins
import GitCrypt.KeySupply
import GitCrypt.Handover
import GitCrypt.Library.Network
import GitCrypt.KeyProcesses
import GitCrypt.KeyAgreement
import GitCrypt.KeyTransfer
import GitCrypt.Team
