import StyleAudit.Audit.Run
import StyleAudit.CommandLine.Answer
import StyleAudit.Extract.Json
import StyleAudit.Main
import StyleAudit.Report.Render
import StyleAudit.Proofs.Audit.AnyOrder
import StyleAudit.Proofs.Audit.SideBySide
import StyleAudit.Proofs.Audit.Verdict
import StyleAudit.Proofs.Css.Reparse
import StyleAudit.Proofs.Extract.Depth
import StyleAudit.Proofs.Extract.ErrorLines
import StyleAudit.Proofs.Extract.Returns
import StyleAudit.Proofs.Extract.Semicolons
import StyleAudit.Proofs.Extract.Walk
import StyleAudit.Proofs.Report.Sorting
import StyleAudit.Proofs.Settings.Encoding
import StyleAudit.Proofs.Audit.Masking
import StyleAudit.Proofs.Audit.Building
import StyleAudit.Proofs.Files.Ancestors
import StyleAudit.Proofs.Files.Precedence
import StyleAudit.Proofs.Files.Spelling
import StyleAudit.Proofs.Files.Trees
import StyleAudit.Proofs.Files.Walk
import StyleAudit.Proofs.Audit.Collecting
import StyleAudit.Proofs.Audit.LeavingOut
import StyleAudit.Proofs.Files.Places
import StyleAudit.Proofs.Audit.Repeats
import StyleAudit.Proofs.Settings.Changes
import StyleAudit.Proofs.Report.Formats
import StyleAudit.Proofs.Css.Slices
import StyleAudit.Proofs.Extract.Braces
import StyleAudit.Proofs.Report.Commands
import StyleAudit.Proofs.Report.Tallies
import StyleAudit.Proofs.Audit.OneFile
import StyleAudit.Proofs.Extract.FontBlocks
import StyleAudit.Proofs.Extract.FontWalk
import StyleAudit.Proofs.Extract.InnerLines
import StyleAudit.Proofs.Extract.Keyframes
import StyleAudit.Proofs.Extract.MediaQueries
import StyleAudit.Proofs.Extract.UnusedSelectors
import StyleAudit.Proofs.Extract.InnerColumns
import StyleAudit.Proofs.Audit.SemicolonLines
import StyleAudit.Proofs.Audit.SelectorLines
import StyleAudit.Proofs.Audit.FaultLines
import StyleAudit.Proofs.Css.Importance
import StyleAudit.Proofs.Extract.HexColors
import StyleAudit.Proofs.Extract.OutsideComments
import StyleAudit.Proofs.Css.Spans
import StyleAudit.Proofs.Files.Directories
import StyleAudit.Proofs.Report.Banner
import StyleAudit.Proofs.Css.Separators
import StyleAudit.Proofs.Files.Recompiling
