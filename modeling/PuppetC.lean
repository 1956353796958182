import PuppetC.Hiera.CacheRuns
import PuppetC.Facts.RoundTrip
import PuppetC.Catalog.Fidelity
import PuppetC.Interp.Deferral
import PuppetC.Interp.Chains
import PuppetC.Interp.Styles
import PuppetC.Server.AutosignFile
import PuppetC.Server.SerialNumbers
import PuppetC.Erb.RenderQueue
import PuppetC.Interp.InclusionRuns
import PuppetC.Interp.Errors
import PuppetC.Server.PluginAgreement
import PuppetC.Server.ExportCollection
import PuppetC.Hiera.Yaml
import PuppetC.Server.WhitelistLines
import PuppetC.Hiera.Merging
import PuppetC.Parser.StringLiteral
import PuppetC.Parser.Case
import PuppetC.Server.FilePaths
import PuppetC.Epp.Ranges
import PuppetC.Erb.Agreement
import PuppetC.Interp.Autoload
import PuppetC.Stdlib.VersionCompare
import PuppetC.Loader.VersionRequirement
import PuppetC.Interp.ShortCircuit
import PuppetC.Interp.Choices
import PuppetC.Interp.EnsureResource
import PuppetC.Stdlib.Range
import PuppetC.Stdlib.Sort
import PuppetC.Stdlib.Regsubst
import PuppetC.Stdlib.ShellWords
import PuppetC.Value.Copies
import PuppetC.Interp.OverrideMerge
import PuppetC.Stdlib.Defined
import PuppetC.Interp.HashLiteral
import PuppetC.Interp.Conversion
import PuppetC.Json.Bounded
import PuppetC.Facts.Database
import PuppetC.Interp.BlockValue
import PuppetC.Stdlib.DeepMerge
import PuppetC.Catalog.References
import PuppetC.Interp.TypeAliases
import PuppetC.Agent.CronEntries
import PuppetC.Agent.ServerUrl
import PuppetC.Agent.Sysctl
import PuppetC.Agent.ExecCommand
import PuppetC.Agent.DeferredArgs
import PuppetC.Agent.KeyGrants
import PuppetC.Agent.FstabTable
import PuppetC.Agent.SortLoop
import PuppetC.Interp.RegexIdioms
import PuppetC.Agent.PluginDownloads
import PuppetC.Agent.Enrolment
import PuppetC.Facter.Agreement
import PuppetC.Parser.ScannerState
import PuppetC.Loader.SharedCaches
import PuppetC.Common.MemoryTracking
import PuppetC.Node.Parallel
import PuppetC.Agent.CatalogRuns
import PuppetC.Agent.FileRuns
