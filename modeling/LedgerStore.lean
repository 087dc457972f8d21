import LedgerStore.Bytes
import LedgerStore.Hex
import LedgerStore.Key
import LedgerStore.Checksum
import LedgerStore.Error
import LedgerStore.Log
import LedgerStore.Path
import LedgerStore.Disk
import LedgerStore.Host
import LedgerStore.Record
import LedgerStore.Record.Scan
import LedgerStore.FileName
import LedgerStore.Journal
import LedgerStore.Journal.Writer
import LedgerStore.Checkpoint
import LedgerStore.Config
import LedgerStore.Index
import LedgerStore.Engine
import LedgerStore.Engine.Memory
import LedgerStore.Engine.EntryLog
import LedgerStore.Completion
import LedgerStore.Rate
import LedgerStore.Storage.Basic
import LedgerStore.Storage.Thread
import LedgerStore.Storage.Run
import LedgerStore.Storage.Durable
import LedgerStore.Wire.Error
import LedgerStore.Wire.Header
import LedgerStore.Wire.Message
import LedgerStore.Wire.Frame
import LedgerStore.Wire.Server
import LedgerStore.Wire.Client
import LedgerStore.Handler
import LedgerStore.Disk.Edit
import LedgerStore.Proofs.Digits
import LedgerStore.Proofs.Record.RoundTrip
import LedgerStore.Proofs.Checksum
import LedgerStore.Proofs.Record.Unambiguous
import LedgerStore.Proofs.Record.Skipping
import LedgerStore.Proofs.Record.Damage
import LedgerStore.Proofs.Record.Strewn
import LedgerStore.Proofs.Record.Burst
import LedgerStore.Proofs.Record.Checked
import LedgerStore.Proofs.Record.Places
import LedgerStore.Proofs.FileName
import LedgerStore.Proofs.Index
import LedgerStore.Proofs.Key
import LedgerStore.Proofs.Disk.Directory
import LedgerStore.Proofs.Disk.Reach
import LedgerStore.Proofs.Disk.Making
import LedgerStore.Proofs.Host
import LedgerStore.Proofs.Archive.Numbered
import LedgerStore.Proofs.Archive.Volume
import LedgerStore.Proofs.Archive.Shelf
import LedgerStore.Proofs.Archive.Listing
import LedgerStore.Proofs.Archive.Reading
import LedgerStore.Proofs.Archive.Basic
import LedgerStore.Proofs.Archive.Site
import LedgerStore.Proofs.Archive.Writer
import LedgerStore.Proofs.Archive.Opening
import LedgerStore.Proofs.Archive.Engine
import LedgerStore.Proofs.Journal.Removal
import LedgerStore.Proofs.Journal.Trimming
import LedgerStore.Proofs.Journal.Spool
import LedgerStore.Proofs.Journal.Opening
import LedgerStore.Proofs.Checkpoint.Stages
import LedgerStore.Proofs.Checkpoint.Drafting
import LedgerStore.Proofs.Checkpoint.Publishing
import LedgerStore.Proofs.Checkpoint.Cleaning
import LedgerStore.Proofs.Archive.Saving
import LedgerStore.Proofs.Archive.Checkpoint
import LedgerStore.Proofs.Engine.Life
import LedgerStore.Proofs.Engine.Reopening
import LedgerStore.Proofs.Engine.Refinement
import LedgerStore.Proofs.Engine.Atomicity
import LedgerStore.Proofs.Engine.Coverage
import LedgerStore.Proofs.Completion
import LedgerStore.Proofs.Completion.OneOutcome
import LedgerStore.Proofs.Storage.Watch
import LedgerStore.Proofs.Storage.Turn
import LedgerStore.Proofs.Storage.Kept
import LedgerStore.Proofs.Storage.GroupCommit
import LedgerStore.Proofs.Storage.Trail
import LedgerStore.Proofs.Storage.Followed
import LedgerStore.Proofs.Storage.Conservation
import LedgerStore.Proofs.Archive.History
import LedgerStore.Proofs.Storage.Service
import LedgerStore.Proofs.Storage.Durability
import LedgerStore.Proofs.Journal.Session
import LedgerStore.Proofs.Journal.Appends
import LedgerStore.Proofs.Journal.HalfRecord
import LedgerStore.Proofs.Wire.Framing
import LedgerStore.Proofs.Wire.Request
import LedgerStore.Proofs.Wire.Response
import LedgerStore.Proofs.Wire.Cursor
import LedgerStore.Proofs.Wire.Grammar
import LedgerStore.Proofs.Handler.Moves
import LedgerStore.Proofs.Handler.ReadBack
import LedgerStore.Proofs.Engine.Entries
import LedgerStore.Proofs.Engine.Reliable
import LedgerStore.Proofs.Engine.Sizes
import LedgerStore.Proofs.Storage.Owed
import LedgerStore.Proofs.Storage.Serving
import LedgerStore.Proofs.Handler.Transcript
import LedgerStore.Proofs.Handler.Stream
import LedgerStore.Proofs.Handler.Dialogue
