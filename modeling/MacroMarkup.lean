import MacroMarkup.Main
import MacroMarkup.Proofs.Conditional
import MacroMarkup.Proofs.DepthLimit
import MacroMarkup.Proofs.Faithful
import MacroMarkup.Proofs.Progress
import MacroMarkup.Proofs.Reopening
import MacroMarkup.Proofs.Resolution
import MacroMarkup.Proofs.Scope
import MacroMarkup.Proofs.Speculation
import MacroMarkup.Source.File
import MacroMarkup.Proofs.History
import MacroMarkup.Proofs.Lockstep
import MacroMarkup.Proofs.LockstepHeads
import MacroMarkup.Proofs.LockstepLines
import MacroMarkup.Proofs.Again
import MacroMarkup.Proofs.PlainDepth
import MacroMarkup.Proofs.Scenes
import MacroMarkup.Proofs.Confinement
import MacroMarkup.Proofs.Places
import MacroMarkup.Proofs.Instantiation
import MacroMarkup.Proofs.LockstepBlocks
import MacroMarkup.Proofs.Mending
import MacroMarkup.Proofs.PlainText
import MacroMarkup.Proofs.Retention
import MacroMarkup.Proofs.Placement
import MacroMarkup.Proofs.Immediate
import MacroMarkup.Proofs.EarlyValues
import MacroMarkup.Proofs.Overlay
import MacroMarkup.Proofs.Inspection
import MacroMarkup.Proofs.RawGroup
import MacroMarkup.Proofs.ArgumentList
import MacroMarkup.Proofs.UnclosedGroups
import MacroMarkup.Proofs.Stripping
import MacroMarkup.Proofs.Merging
import MacroMarkup.Proofs.Signatures
import MacroMarkup.Proofs.ClosingMarks
import MacroMarkup.Proofs.Editing
import MacroMarkup.Proofs.RowsAndColumns
import MacroMarkup.Proofs.StoredMessages
import MacroMarkup.Proofs.SettingNames
import MacroMarkup.Proofs.PlaceLookup
import MacroMarkup.Proofs.CursorRuns
