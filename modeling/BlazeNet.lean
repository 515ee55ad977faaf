import BlazeNet.Admin
import BlazeNet.AgentConfig
import BlazeNet.Backup
import BlazeNet.CafeJobs
import BlazeNet.CafeOrder
import BlazeNet.CafeRuns
import BlazeNet.CafeSaves
import BlazeNet.CafeStore
import BlazeNet.ChunkMaps
import BlazeNet.CompioIo
import BlazeNet.Control
import BlazeNet.Datapath
import BlazeNet.Delivery
import BlazeNet.Download
import BlazeNet.DownloadManager
import BlazeNet.DownloadSpec
import BlazeNet.Executor
import BlazeNet.Fetch
import BlazeNet.GameJobs
import BlazeNet.Keepalive
import BlazeNet.Ledger
import BlazeNet.Lib.FaultIo
import BlazeNet.Lib.Fs
import BlazeNet.Lib.FsContent
import BlazeNet.Lib.FsExec
import BlazeNet.Lib.FsFrame
import BlazeNet.Lib.FsPath
import BlazeNet.Lib.FsStay
import BlazeNet.Lib.FsTree
import BlazeNet.Lib.Jobs
import BlazeNet.Lib.RustStd
import BlazeNet.Lib.Transfer
import BlazeNet.Lib.Wire
import BlazeNet.Manifest
import BlazeNet.NodeJobs
import BlazeNet.NodeSilence
import BlazeNet.NodeStatus
import BlazeNet.Origin
import BlazeNet.Peers
import BlazeNet.PingNet
import BlazeNet.Probes
import BlazeNet.Produce
import BlazeNet.Producer
import BlazeNet.Proofs.Admin
import BlazeNet.Proofs.AppendFaults
import BlazeNet.Proofs.Assign
import BlazeNet.Proofs.Backup
import BlazeNet.Proofs.Bindings
import BlazeNet.Proofs.CafeJobs
import BlazeNet.Proofs.CafeOrder
import BlazeNet.Proofs.CafeRuns
import BlazeNet.Proofs.CafeSaves
import BlazeNet.Proofs.ChunkMaps
import BlazeNet.Proofs.Compact
import BlazeNet.Proofs.CompactStop
import BlazeNet.Proofs.Control
import BlazeNet.Proofs.CopyRanges
import BlazeNet.Proofs.Datapath
import BlazeNet.Proofs.Delivery
import BlazeNet.Proofs.Download
import BlazeNet.Proofs.DownloadErrors
import BlazeNet.Proofs.DownloadManager
import BlazeNet.Proofs.DownloadSources
import BlazeNet.Proofs.Executor
import BlazeNet.Proofs.Fetch
import BlazeNet.Proofs.GameJobs
import BlazeNet.Proofs.Ledger
import BlazeNet.Proofs.LeftChunks
import BlazeNet.Proofs.Manifest
import BlazeNet.Proofs.ManifestRoom
import BlazeNet.Proofs.Merge
import BlazeNet.Proofs.MergeExec
import BlazeNet.Proofs.MergeReport
import BlazeNet.Proofs.MergeStep
import BlazeNet.Proofs.NodeJobs
import BlazeNet.Proofs.NodeSilence
import BlazeNet.Proofs.NodeStatus
import BlazeNet.Proofs.Origin
import BlazeNet.Proofs.Peers
import BlazeNet.Proofs.PingNet
import BlazeNet.Proofs.Pool
import BlazeNet.Proofs.Probes
import BlazeNet.Proofs.Produce
import BlazeNet.Proofs.Producer
import BlazeNet.Proofs.Publish
import BlazeNet.Proofs.PublishedLengths
import BlazeNet.Proofs.Rounds
import BlazeNet.Proofs.Spawning
import BlazeNet.Proofs.StatusOrder
import BlazeNet.Proofs.StoreBatch
import BlazeNet.Proofs.StoreExec
import BlazeNet.Proofs.StoreFaults
import BlazeNet.Proofs.StoreLayout
import BlazeNet.Proofs.StoreMap
import BlazeNet.Proofs.StoreMaps
import BlazeNet.Proofs.StoreRun
import BlazeNet.Proofs.TaskFlow
import BlazeNet.Proofs.TaskView
import BlazeNet.Proofs.TempHashes
import BlazeNet.Proofs.Transfer
import BlazeNet.Proofs.UpdateFrame
import BlazeNet.Proofs.UpdatePlan
import BlazeNet.Proofs.UploadDelta
import BlazeNet.Proofs.UploadSession
import BlazeNet.Proofs.Uploads
import BlazeNet.Proofs.WatchTasks
import BlazeNet.Proofs.WriteFaults
import BlazeNet.Requests
import BlazeNet.SchedulerDb
import BlazeNet.Spawning
import BlazeNet.Storage
import BlazeNet.StoreMaps
import BlazeNet.StoreRun
import BlazeNet.TaskFlow
import BlazeNet.TaskView
import BlazeNet.Update
import BlazeNet.UpdatePlan
import BlazeNet.UpdateSpec
import BlazeNet.UploadDelta
import BlazeNet.UploadSession
import BlazeNet.Uploads
import BlazeNet.WatchTasks
