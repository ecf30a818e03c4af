import EarlyMemory.Kernel.Takeover
import EarlyMemory.Processor.Privileged
import EarlyMemory.Proofs.Endings
import EarlyMemory.Proofs.Firmware.Extent
import EarlyMemory.Proofs.Firmware.Fencing
import EarlyMemory.Proofs.Firmware.Ingestion
import EarlyMemory.Proofs.Firmware.RecordedMap
import EarlyMemory.Proofs.Firmware.ReportOrder
import EarlyMemory.Proofs.Firmware.Reservations
import EarlyMemory.Proofs.FrameManager.Adoption
import EarlyMemory.Proofs.FrameManager.Advancing
import EarlyMemory.Proofs.FrameManager.BusyPages
import EarlyMemory.Proofs.FrameManager.Calls
import EarlyMemory.Proofs.FrameManager.Drawing
import EarlyMemory.Proofs.FrameManager.Mapping
import EarlyMemory.Proofs.FrameManager.Opening
import EarlyMemory.Proofs.FrameManager.Pages
import EarlyMemory.Proofs.FrameManager.Spanning
import EarlyMemory.Proofs.FrameManager.Stages
import EarlyMemory.Proofs.Frames.Asking
import EarlyMemory.Proofs.Frames.History
import EarlyMemory.Proofs.Frames.Supply
import EarlyMemory.Proofs.Kernel.Bookkeeping
import EarlyMemory.Proofs.Kernel.BringUp
import EarlyMemory.Proofs.Kernel.Continuity
import EarlyMemory.Proofs.Kernel.Interference
import EarlyMemory.Proofs.Kernel.Isolation
import EarlyMemory.Proofs.Kernel.Outcomes
import EarlyMemory.Proofs.Kernel.Runs
import EarlyMemory.Proofs.Kernel.Safety
import EarlyMemory.Proofs.Kernel.Separation
import EarlyMemory.Proofs.Kernel.View
import EarlyMemory.Proofs.Ledger.Bits
import EarlyMemory.Proofs.Ledger.Counting
import EarlyMemory.Proofs.Ledger.Layout
import EarlyMemory.Proofs.Ledger.Locating
import EarlyMemory.Proofs.Ledger.Order
import EarlyMemory.Proofs.Ledger.Records
import EarlyMemory.Proofs.Ledger.Scanning
import EarlyMemory.Proofs.Ledger.Sizing
import EarlyMemory.Proofs.Ledger.Tiling
import EarlyMemory.Proofs.Loader.Backing
import EarlyMemory.Proofs.Loader.BootTables
import EarlyMemory.Proofs.Loader.Evolution
import EarlyMemory.Proofs.Loader.Exactness
import EarlyMemory.Proofs.Loader.Faultless
import EarlyMemory.Proofs.Loader.Footprint
import EarlyMemory.Proofs.Loader.Handoff
import EarlyMemory.Proofs.Loader.Headers
import EarlyMemory.Proofs.Loader.Integrity
import EarlyMemory.Proofs.Loader.Loading
import EarlyMemory.Proofs.Loader.LowestMemory
import EarlyMemory.Proofs.Loader.Placement
import EarlyMemory.Proofs.Loader.SegmentRuns
import EarlyMemory.Proofs.Loader.Upkeep
import EarlyMemory.Proofs.Loader.Validation
import EarlyMemory.Proofs.Maintenance
import EarlyMemory.Proofs.Paging.Accounting
import EarlyMemory.Proofs.Paging.Encoding
import EarlyMemory.Proofs.Paging.Equivalence
import EarlyMemory.Proofs.Paging.Flushing
import EarlyMemory.Proofs.Paging.Growth
import EarlyMemory.Proofs.Paging.Laying
import EarlyMemory.Proofs.Paging.Mapping
import EarlyMemory.Proofs.Paging.Reach
import EarlyMemory.Proofs.Paging.Refinement
import EarlyMemory.Proofs.Paging.SelfMap
import EarlyMemory.Proofs.Paging.TableAddresses
import EarlyMemory.Proofs.Paging.Window
import EarlyMemory.Proofs.Region.Arrangement
import EarlyMemory.Proofs.Region.Canonical
import EarlyMemory.Proofs.Region.Coverage
import EarlyMemory.Proofs.Region.Custody
import EarlyMemory.Proofs.Region.Granting
import EarlyMemory.Proofs.Region.Management
import EarlyMemory.Proofs.Region.MaximalRuns
import EarlyMemory.Proofs.Region.Merging
import EarlyMemory.Proofs.Region.NormalForm
import EarlyMemory.Proofs.Region.Overlap
import EarlyMemory.Proofs.Region.Refusals
import EarlyMemory.Proofs.Region.Regranting
import EarlyMemory.Proofs.Region.Room
import EarlyMemory.Proofs.Region.Soundness
import EarlyMemory.Proofs.Region.Tracing
import EarlyMemory.Trace.DebugConsole
