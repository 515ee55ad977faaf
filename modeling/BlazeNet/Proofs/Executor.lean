import BlazeNet.Executor
import BlazeNet.Lib.FsExec
import BlazeNet.Proofs.Peers
import BlazeNet.Proofs.UpdatePlan

/-!
# How tasks end, and what a cafe downloads

`run_task` returns early where the version is not found or cannot be read, and then no report of
the end follows the first one. `run_cafe` asks for the chunks of files that are not on disk on top
of what its plan needs.
-/

namespace BlazeNet

open Wire FaultIo Io RustStd UnixFs

section RunTask

variable {calls : TaskCalls} {blake3 : Bytes → Hash} {cfg : Config} {nodeId : UInt64} {task : Task}

/-- Everything `run_task` does once the task is reported running. -/
theorem runTaskOut_running (h : ReportsRunning calls cfg) :
    runTaskOut calls blake3 cfg nodeId task =
      let running : TaskReport := ⟨nodeId, task.id, "running", ""⟩
      match Agent.getVersion calls with
      | .error e => (.error e, [running])
      | .ok none => (.error (.msg (noVersionText task)), [running])
      | .ok (some manifest) => match GameIndex.decode blake3 manifest with
        | .error e => (.error (e.context "解析版本清单失败"), [running])
        | .ok index => match runNode calls cfg.nodeType index manifest with
          | .ok () => ((calls.reported "done").mapError (AnyError.context "上报任务状态失败"),
            [running, ⟨nodeId, task.id, "done", ""⟩])
          | .error err => (.error (.msg err.displayChain),
            [running, ⟨nodeId, task.id, "failed", err.displayChain⟩]) := by
  obtain ⟨haddr, hconnect, hrunning⟩ := h
  obtain ⟨addr, haddr⟩ := Option.isSome_iff_exists.1 haddr
  unfold runTaskOut runTask
  simp only [haddr, hconnect]
  rcases hversion : Agent.getVersion calls with e | _ | manifest
  · simp only [orReturn, Agent.reportTask, hrunning]
    rfl
  · simp only [orReturn, Agent.reportTask, hrunning]
    rfl
  · rcases hdecode : GameIndex.decode blake3 manifest with e | index
    · simp only [orReturn, Agent.reportTask, hrunning, pure_bind, hdecode]
      rfl
    · rcases hrun : runNode calls cfg.nodeType index manifest with err | ⟨⟩
      · rcases hfailed : calls.reported "failed" with e | ⟨⟩ <;>
          simp only [orReturn, Agent.reportTask, hrunning, pure_bind, hdecode, hrun, hfailed] <;>
            rfl
      · rcases hdone : calls.reported "done" with e | ⟨⟩ <;>
          simp only [orReturn, Agent.reportTask, hrunning, pure_bind, hdecode, hrun, hdone] <;>
            rfl

/-- Exactly one report of the end follows the report that a task is running, and says done only of
a run that has returned well, just when the version is found and its manifest can be read. -/
theorem runTask_endReported_iff (calls : TaskCalls) (blake3 : Bytes → Hash) (cfg : Config)
    (nodeId : UInt64) (task : Task) : EndReported calls blake3 cfg nodeId task
      ↔ (ReportsRunning calls cfg → VersionReadable calls blake3) := by
  refine forall_congr' fun h => ?_
  rw [runTaskOut_running h, VersionReadable]
  rcases hversion : Agent.getVersion calls with e | _ | manifest
  · simp [TaskReport.isTerminal]
  · simp [TaskReport.isTerminal]
  · rcases hdecode : GameIndex.decode blake3 manifest with e | index
    · simp [TaskReport.isTerminal, hdecode]
    · refine iff_of_true ?_ ⟨manifest, index, rfl, hdecode⟩
      rcases hrun : runNode calls cfg.nodeType index manifest with err | ⟨⟩
      · refine ⟨⟨nodeId, task.id, "failed", err.displayChain⟩, ?_, rfl, rfl, by simp⟩
        simp [TaskReport.isTerminal, hdecode, hrun]
      · refine ⟨⟨nodeId, task.id, "done", ""⟩, ?_, rfl, rfl,
          fun _ => ⟨manifest, index, rfl, hdecode, hrun⟩⟩
        simp [TaskReport.isTerminal, hdecode, hrun]

/-- A scheduler that answers everything, and does not have the version. -/
def withoutVersion : TaskCalls where
  connect := .ok ()
  reported _ := .ok ()
  version := .ok ⟨false, []⟩
  runIdc _ := .ok ()
  runCafe _ _ := .ok ()

/-- A task whose version the scheduler does not have is reported running, and nothing more. -/
theorem runTask_left_running : ReportsRunning withoutVersion (cafeConfig none)
    ∧ runTaskOut withoutVersion (fun _ => .fill 0) (cafeConfig none) 1 ⟨2, 1, 99, 0, []⟩
      = (.error (.msg (noVersionText ⟨2, 1, 99, 0, []⟩)), [⟨1, 2, "running", ""⟩])
    ∧ ¬EndReported withoutVersion (fun _ => .fill 0) (cafeConfig none) 1 ⟨2, 1, 99, 0, []⟩ := by
  have hrunning : ReportsRunning withoutVersion (cafeConfig none) := ⟨rfl, rfl, rfl⟩
  have hout : runTaskOut withoutVersion (fun _ => .fill 0) (cafeConfig none) 1 ⟨2, 1, 99, 0, []⟩
      = (.error (.msg (noVersionText ⟨2, 1, 99, 0, []⟩)), [⟨1, 2, "running", ""⟩]) :=
    runTaskOut_running hrunning
  refine ⟨hrunning, hout, fun h => ?_⟩
  obtain ⟨r, hr, -⟩ := h hrunning
  rw [hout] at hr
  simp [TaskReport.isTerminal] at hr

end RunTask

section Reads

variable {blake3 : Bytes → Hash}

theorem looks_currentVersion (self : CafeStore) : Looks self.currentVersion := by
  refine Looks.isFile.bind fun there => ?_
  cases there
  · exact Looks.pure _
  · refine (Looks.readFile.onErr _).bind fun bytes => ?_
    rcases fromUtf8 bytes with _ | text
    · exact Looks.stop _
    · dsimp only
      rcases parseU64 (trim text.toList) with _ | version
      · exact Looks.stop _
      · exact Looks.pure _

theorem looks_currentManifestBytes (self : CafeStore) : Looks self.currentManifestBytes := by
  refine (looks_currentVersion self).bind fun version => ?_
  rcases version with _ | version
  · exact Looks.pure _
  · exact (Looks.readFile.onErr _).bind fun bytes => Looks.pure _

theorem looks_decodeOld (bytes : Option Bytes) : Looks (decodeOld blake3 bytes) := by
  rcases bytes with _ | bytes
  · exact Looks.pure _
  · rcases hdecode : GameIndex.decode blake3 bytes with e | index
    · simpa only [decodeOld, hdecode] using Looks.stop _
    · simpa only [decodeOld, hdecode] using Looks.pure _

theorem looks_collectTempHashes (temp : Path) : Looks (collectTempHashes temp) := by
  refine (Looks.readDir.onErr _).bind fun names => ?_
  rcases names.mapM tempHash with ⟨⟩ | hashes
  · exact Looks.stop _
  · exact Looks.pure _

/-- The manifest in place, and what it decodes to. -/
theorem currentManifestBytes_of_old {cafe : CafeStore} {d : Disk} {old : Option GameIndex}
    (h : (exec (cafe.currentManifestBytes >>= decodeOld blake3) d).1 = .ok old) :
    ∃ bytes, (∀ log, ∃ log',
      exec cafe.currentManifestBytes (d.relog log) = (.ok bytes, d.relog log'))
      ∧ ∀ d', exec (decodeOld blake3 bytes) d' = (.ok old, d') := by
  obtain ⟨log, hseq⟩ := Looks.exec_seq (looks_currentManifestBytes cafe) looks_decodeOld d d.log
  have hval : _ = Except.ok old := (congrArg Prod.fst hseq).symm.trans h
  rcases hbytes : (exec cafe.currentManifestBytes d).1 with e | bytes
  · simp [hbytes] at hval
  · refine ⟨bytes, fun log => ?_, fun d' => ?_⟩
    · obtain ⟨log', hrun⟩ := looks_currentManifestBytes cafe d log
      exact ⟨log', by rw [hrun, hbytes]⟩
    · simp only [hbytes] at hval
      rcases bytes with _ | bytes
      · cases hval
        rfl
      · rcases hdecode : GameIndex.decode blake3 bytes with e | index <;>
          simp only [decodeOld, hdecode] at hval ⊢ <;> cases hval
        rfl

/-- The chunks of the files that are not on disk. -/
theorem exec_repairChunks (gameDir : Path) (d : Disk) : ∀ (files : List FileEntry)
    (repair : HashSet Hash), ∃ out, exec (repairChunks gameDir files repair) d = (.ok out, d)
      ∧ ∀ hash, hash ∈ out ↔ hash ∈ repair ∨ ∃ f ∈ files, d.isFile (join gameDir f.name) = false
        ∧ ∃ c ∈ f.chunks, c.hash = hash
  | [], repair => ⟨repair, rfl, fun hash => by simp⟩
  | f :: files, repair => by
    have hfold : ∀ (chunks : List ChunkMeta) (repair : HashSet Hash) (hash : Hash),
        hash ∈ chunks.foldl (fun repair c => repair.insert c.hash) repair
          ↔ hash ∈ repair ∨ ∃ c ∈ chunks, c.hash = hash := by
      intro chunks
      induction chunks with
      | nil => simp
      | cons c chunks ih =>
        intro repair hash
        rw [List.foldl_cons, ih, HashSet.mem_insert]
        simp only [List.mem_cons, exists_eq_or_imp, eq_comm (a := hash)]
        tauto
    rw [repairChunks, exec_bind, exec_isFile]
    rcases hfile : d.isFile (join gameDir f.name) with _ | _
    · obtain ⟨out, hrun, hout⟩ := exec_repairChunks gameDir d files
        (f.chunks.foldl (fun repair chunk => repair.insert chunk.hash) repair)
      refine ⟨out, hrun, fun hash => ?_⟩
      rw [hout, hfold]
      simp [hfile, or_assoc]
    · obtain ⟨out, hrun, hout⟩ := exec_repairChunks gameDir d files repair
      refine ⟨out, hrun, fun hash => ?_⟩
      rw [hout]
      simp [hfile]

end Reads

section Plan

variable {blake3 : Bytes → Hash} {dataDir : Path} {gameId : UInt64} {opened : Option CafeStore}
  {start d : Disk} {old : Option GameIndex} {temp : HashSet Hash}

/-- `run_cafe` asks for the chunks of its plan and for those of the files that are not on disk. -/
theorem exec_planCafe {cafe : CafeStore} (index : GameIndex)
    (hold : (exec (cafe.currentManifestBytes >>= decodeOld blake3) d).1 = .ok old)
    (htemp : (exec (collectTempHashes (tempDir dataDir gameId)) d).1 = .ok temp)
    (log : List (Access × Place)) :
    ∃ ready d', exec (planCafe blake3 dataDir gameId index cafe) (d.relog log) = (.ok ready, d')
      ∧ ∀ hash, hash ∈ ready.missing
        ↔ hash ∈ (UpdatePlan.compute index old temp).chunksToDownload
          ∨ ∃ f ∈ index.files, d.isFile (join (gameDir dataDir gameId) f.name) = false
            ∧ ∃ c ∈ f.chunks, c.hash = hash := by
  obtain ⟨bytes, hbytes, hdecode⟩ := currentManifestBytes_of_old hold
  obtain ⟨log₁, hbytes⟩ := hbytes log
  obtain ⟨log₂, hhashes⟩ := looks_collectTempHashes (tempDir dataDir gameId) d log₁
  rw [htemp] at hhashes
  obtain ⟨out, hrepair, hout⟩ := exec_repairChunks (gameDir dataDir gameId) (d.relog log₂)
    index.files HashSet.empty
  refine ⟨⟨cafe, old, temp, (((UpdatePlan.compute index old temp).chunksToDownload
    ++ out.elems).mergeSort hashLe).dedup⟩, d.relog log₂, ?_, ?_⟩
  · rw [planCafe, exec_bind, hbytes]
    simp only
    rw [exec_bind, hdecode]
    simp only
    rw [exec_bind, hhashes]
    simp only
    rw [exec_bind, hrepair]
    rfl
  · intro hash
    rw [List.mem_dedup, List.mem_mergeSort, List.mem_append, ← HashSet.mem_iff, hout]
    simp

theorem exec_prepareCafe (index : GameIndex)
    (h : CafeState blake3 dataDir gameId opened start d old temp) :
    ∃ ready d', exec (prepareCafe blake3 dataDir gameId opened index) start = (.ok ready, d')
      ∧ ∀ hash, hash ∈ ready.missing
        ↔ hash ∈ (UpdatePlan.compute index old temp).chunksToDownload
          ∨ ∃ f ∈ index.files, d.isFile (join (gameDir dataDir gameId) f.name) = false
            ∧ ∃ c ∈ f.chunks, c.hash = hash := by
  have hdirs := h.dirs
  unfold cafeDirs at hdirs
  obtain ⟨⟨⟩, d₁, htempDir, hdirs⟩ := exec_bind_ok hdirs
  rw [prepareCafe, exec_bind, htempDir]
  simp only
  cases opened with
  | some cafe =>
    simp only [exec_pure, Prod.mk.injEq, true_and] at hdirs
    rw [exec_bind, exec_pure, hdirs]
    exact exec_planCafe index h.old h.temp d.log
  | none =>
    -- the store is opened, which reads the manifest in place once
    simp only at hdirs
    obtain ⟨⟨⟩, d₂, hgameDir, hdirs⟩ := exec_bind_ok hdirs
    obtain ⟨bytes, hbytes, hdecode⟩ := currentManifestBytes_of_old h.old
    obtain ⟨log, hbytes⟩ := hbytes d.log
    obtain ⟨current, hopen⟩ : ∃ current,
        exec (CafeStore.openStore blake3 dataDir gameId) d₁
          = (.ok ⟨gameId, dataDir, current⟩, d.relog log) := by
      have hbytes : exec (CafeStore.currentManifestBytes ⟨gameId, dataDir, none⟩) d
          = (.ok bytes, d.relog log) := hbytes
      rw [CafeStore.openStore, exec_bind, hgameDir]
      simp only
      rw [exec_bind, hdirs]
      simp only
      rw [exec_bind, hbytes]
      rcases bytes with _ | bytes
      · exact ⟨none, rfl⟩
      · rcases hindex : GameIndex.decode blake3 bytes with e | index <;>
          simp only [decodeOld, hindex] at hdecode
        · cases hdecode d
        · refine ⟨some (chunkLocations index.files), ?_⟩
          simp only [CafeStore.setCurrent, hindex]
          rfl
    have hsame : CafeStore.currentManifestBytes ⟨gameId, dataDir, current⟩
        = CafeStore.currentManifestBytes ⟨gameId, dataDir, none⟩ := rfl
    have hold : (exec (CafeStore.currentManifestBytes ⟨gameId, dataDir, current⟩
        >>= decodeOld blake3) d).1 = .ok old := by
      rw [hsame]
      exact h.old
    rw [exec_bind, hopen]
    exact exec_planCafe index hold h.temp log

/-- In whatever state `run_cafe` finds a cafe, it asks for the chunks of its plan just when no file
of the new version that is not on disk has a chunk of the old version or one that is in the
temporary directory. -/
theorem prepareCafe_asksPlan_iff (index : GameIndex)
    (h : CafeState blake3 dataDir gameId opened start d old temp) :
    ∃ ready d', exec (prepareCafe blake3 dataDir gameId opened index) start = (.ok ready, d')
      ∧ (AsksPlan index old temp ready.missing
        ↔ ∀ f ∈ index.files, d.isFile (join (gameDir dataDir gameId) f.name) = false →
          ∀ c ∈ f.chunks, c.hash ∉ (filesOf old).flatMap (fun f => f.chunks.map (·.hash))
            ∧ c.hash ∉ temp) := by
  obtain ⟨ready, d', hrun, hready⟩ := exec_prepareCafe index h
  refine ⟨ready, d', hrun, fun hplan f hf habsent c hc => ?_, fun habsent hash => ?_⟩
  · have hasked := (hready c.hash).2 (.inr ⟨f, hf, habsent, c, hc, rfl⟩)
    exact (mem_chunksToDownload.1 ((hplan c.hash).1 hasked)).2
  · rw [hready]
    refine or_iff_left_of_imp ?_
    rintro ⟨f, hf, hfile, c, hc, rfl⟩
    exact mem_chunksToDownload.2
      ⟨List.mem_flatMap.2 ⟨f, hf, List.mem_map_of_mem hc⟩, habsent f hf hfile c hc⟩

/-- A version with one file, of one chunk. -/
def versionOf (name : String) : GameIndex := ⟨1, [⟨name, .fill 0, [⟨.fill 0, 3⟩]⟩], .fill 0⟩

/-- A cafe with a version whose one file is `a.bin`. -/
def cafeWithA : Disk := .ofList <|
  ["", "data", "data/games", "data/games/1", "data/.blazenet", "data/.blazenet/temp",
    "data/.blazenet/temp/1", "data/.blazenet/manifests", "data/.blazenet/manifests/1"].map
      (fun dir => (resolve (components dir), .dir))
  ++ [(resolve (components "data/games/1/a.bin"), .file [1, 2, 3]),
    (resolve (components "data/.blazenet/manifests/1/current.version"), .file (nameBytes "1")),
    (resolve (components "data/.blazenet/manifests/1/1.gameindex"),
      .file (versionOf "a.bin").encode)]

theorem cafeState_cafeWithA : CafeState (fun _ => .fill 0) (components "/data") 1 none cafeWithA
    (exec (cafeDirs (components "/data") 1 none) cafeWithA).2
      (some (versionOf "a.bin")) .empty where
  dirs := Prod.ext (by decide +kernel) rfl
  old := by decide +kernel
  temp := by decide +kernel

theorem prepareCafe_asksPlan_iff_renamed :
    ∃ ready d', exec (prepareCafe (fun _ => .fill 0) (components "/data") 1 none
      (versionOf "b.bin"))
        cafeWithA = (.ok ready, d')
      ∧ (AsksPlan (versionOf "b.bin") (some (versionOf "a.bin")) .empty ready.missing
        ↔ ∀ f ∈ (versionOf "b.bin").files,
          (exec (cafeDirs (components "/data") 1 none) cafeWithA).2.isFile
            (join (gameDir (components "/data") 1) f.name) = false →
          ∀ c ∈ f.chunks, c.hash ∉ (filesOf (some (versionOf "a.bin"))).flatMap
              (fun f => f.chunks.map (·.hash)) ∧ c.hash ∉ HashSet.empty) :=
  prepareCafe_asksPlan_iff (versionOf "b.bin") cafeState_cafeWithA

/-- The new version renames `a.bin`, whose chunk is on disk, to `b.bin`: the plan downloads nothing,
and `run_cafe` asks for the chunk. -/
theorem prepareCafe_asks_reusable :
    CafeState (fun _ => .fill 0) (components "/data") 1 none cafeWithA
      (exec (cafeDirs (components "/data") 1 none) cafeWithA).2 (some (versionOf "a.bin")) .empty
    ∧ (exec (readDir (gameDir (components "/data") 1) : FsIo (List Name)) cafeWithA).1.toOption
      = some ["a.bin".toList]
    ∧ (UpdatePlan.compute (versionOf "b.bin") (some (versionOf "a.bin")) .empty).chunksToDownload
      = []
    ∧ (exec (prepareCafe (fun _ => .fill 0) (components "/data") 1 none (versionOf "b.bin"))
      cafeWithA).1.toOption.map (·.missing) = some [.fill 0] :=
  ⟨cafeState_cafeWithA, by decide +kernel, by decide +kernel, by decide +kernel⟩

end Plan

end BlazeNet
