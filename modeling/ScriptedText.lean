import ScriptedText.CommandLine.Program
import ScriptedText.Engine.LockTraffic
import ScriptedText.Fault.Making
import ScriptedText.Language.Command.Adapter
import ScriptedText.Main
import ScriptedText.Proofs.Document.Layout
import ScriptedText.Proofs.Document.Segmentation
import ScriptedText.Proofs.Document.Grammar
import ScriptedText.Proofs.Engine.Act
import ScriptedText.Proofs.Engine.Registration
import ScriptedText.Proofs.Engine.FailedCompilation
import ScriptedText.Proofs.Engine.Evaluation
import ScriptedText.Proofs.Engine.Evolution
import ScriptedText.Proofs.Engine.Step
import ScriptedText.Proofs.Engine.Locking
import ScriptedText.Proofs.Engine.Record
import ScriptedText.Proofs.Engine.SegmentRun
import ScriptedText.Proofs.Engine.SegmentSequence
import ScriptedText.Proofs.Engine.Reentry
import ScriptedText.Proofs.Engine.Collapsing
import ScriptedText.Proofs.Engine.Compilation
import ScriptedText.Proofs.Engine.Meaning
import ScriptedText.Proofs.Engine.Digrams
import ScriptedText.Proofs.Engine.LockTraffic
import ScriptedText.Proofs.Engine.Flight
import ScriptedText.Proofs.Engine.Custody
import ScriptedText.Proofs.Engine.Confinement
import ScriptedText.Proofs.Engine.Apart
import ScriptedText.Proofs.Engine.Deadlock
import ScriptedText.Proofs.Language.Command
import ScriptedText.Proofs.Engine.Exclusion
import ScriptedText.Proofs.Engine.LockChoice
import ScriptedText.Proofs.Engine.Happening
import ScriptedText.Proofs.Engine.Lifecycle
import ScriptedText.Proofs.Engine.Ownership
import ScriptedText.Proofs.Engine.Ageing
import ScriptedText.Proofs.Engine.Finality
import ScriptedText.Proofs.Engine.Validity
import ScriptedText.Proofs.Engine.Staleness
import ScriptedText.Proofs.Engine.Sprouting
import ScriptedText.Proofs.Engine.Upkeep
import ScriptedText.Proofs.Engine.Seeking
import ScriptedText.Proofs.Engine.Probing
import ScriptedText.Proofs.Engine.SingleFlight
import ScriptedText.Proofs.Engine.Checking
import ScriptedText.Proofs.Engine.Lookup
import ScriptedText.Proofs.Engine.Strides
import ScriptedText.Proofs.Engine.Course
import ScriptedText.Proofs.Engine.FileMaps
import ScriptedText.Proofs.Engine.Stowing
import ScriptedText.Proofs.Engine.Eviction
import ScriptedText.Proofs.Files.Following
import ScriptedText.Proofs.Engine.Freshness
import ScriptedText.Proofs.Engine.Modes
import ScriptedText.Proofs.Engine.Belonging
import ScriptedText.Proofs.Engine.Tending
import ScriptedText.Proofs.Engine.Budding
import ScriptedText.Proofs.Engine.InFlow
import ScriptedText.Proofs.Engine.Closure
import ScriptedText.Proofs.Engine.Laying
import ScriptedText.Proofs.Engine.Nesting
import ScriptedText.Proofs.Engine.Restoring
import ScriptedText.Proofs.Engine.Unwinding
import ScriptedText.Proofs.Files.Path
import ScriptedText.Proofs.Files.Walking
import ScriptedText.Proofs.Files.Variants
import ScriptedText.Proofs.Engine.Serving
import ScriptedText.Proofs.Files.Containment
import ScriptedText.Proofs.Files.Listing
import ScriptedText.Proofs.Files.Stems
import ScriptedText.Proofs.Engine.Inventory
import ScriptedText.Proofs.Engine.Idling
import ScriptedText.Proofs.Engine.Releasing
import ScriptedText.Proofs.Engine.Bracketing
import ScriptedText.Proofs.Engine.Recording
import ScriptedText.Proofs.Engine.Fallback
import ScriptedText.Proofs.Document.NormalForm
import ScriptedText.Proofs.Document.Progress
import ScriptedText.Proofs.Document.Rewrap
import ScriptedText.Proofs.Engine.Verdict
import ScriptedText.Proofs.Fault.Template
import ScriptedText.Proofs.Engine.DefaultLanguage
import ScriptedText.Proofs.Language.Mustache.Fidelity
import ScriptedText.Proofs.Language.Scripting.Documents
import ScriptedText.Proofs.Language.Scripting.Publishing
import ScriptedText.Proofs.CommandLine.Reports
import ScriptedText.Proofs.Engine.Dropping
