import MpiBugs.Regex
import MpiBugs.TextFile
import MpiBugs.Details
import MpiBugs.Header
import MpiBugs.RoundTrip
import MpiBugs.HeaderGrammar
import MpiBugs.Expected
import MpiBugs.Batch
import MpiBugs.FileStore
import MpiBugs.RunCmd
import MpiBugs.Wrappers
import MpiBugs.Verdicts
import MpiBugs.Reports
import MpiBugs.RegexSyntax
import MpiBugs.Expansion
import MpiBugs.MakeFile
import MpiBugs.Categorize
import MpiBugs.HtmlReport
import MpiBugs.Evidence
import MpiBugs.Rounding
import MpiBugs.Percent
import MpiBugs.Metrics
import MpiBugs.Accounting
import MpiBugs.LineTargets
import MpiBugs.Literal
import MpiBugs.Openings
import MpiBugs.Replacements
import MpiBugs.Unresolved
import MpiBugs.Pieces
import MpiBugs.MessagePassing
import MpiBugs.Ring
import MpiBugs.Decimal
import MpiBugs.Durations
import MpiBugs.HeaderChecks
import MpiBugs.Listing
import MpiBugs.Recorded
import MpiBugs.Warnings
import MpiBugs.Console
import MpiBugs.Bold
import MpiBugs.Reaping
import MpiBugs.Features
import MpiBugs.Labels
import MpiBugs.Reporting
import MpiBugs.CollMatching
import MpiBugs.Buffers
import MpiBugs.FeatureLabels
import MpiBugs.Layouts
import MpiBugs.RequestFaults
import MpiBugs.MessageRace
import MpiBugs.ResourceLeaks
import MpiBugs.CacheKeys
import MpiBugs.Announcements
import MpiBugs.Campaign
import MpiBugs.Catalogue
import MpiBugs.CollectiveCalls
import MpiBugs.Epochs
import MpiBugs.Gencodes
import MpiBugs.HtmlAccounts
import MpiBugs.LocalBuffers
import MpiBugs.PointToPoint
import MpiBugs.RemoteMemory
import MpiBugs.RingFaults
