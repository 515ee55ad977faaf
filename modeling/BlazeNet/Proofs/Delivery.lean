import BlazeNet.Delivery
import BlazeNet.Proofs.CafeRuns
import BlazeNet.Proofs.ChunkMaps
import BlazeNet.Proofs.Fetch
import BlazeNet.Proofs.Origin
import BlazeNet.Proofs.Produce
import Mathlib.Data.List.TakeWhile

/-!
# What is published is served and installed

The origin keeps the places of the chunks of every published version through all its steps, and a
peer that has every requested chunk answers with all of them, so a fetch gets them all
(`run_servesPublished`). The manifest that the producer writes says the hash of each file, and a
task that returns well has looked at each (`produced_tree_installed`).
-/

namespace BlazeNet

open Wire FaultIo Io RustStd UnixFs GameStore

section Served

variable {blake3 : Bytes → Hash} {content : StoreContent} {hashes : List Hash}

theorem answered_all (hlen : hashes.length < 2 ^ 32)
    (hall : ∀ hash ∈ hashes, (content.chunk hash).isSome) : answered content hashes = hashes := by
  rw [answered, Nat.mod_eq_of_lt hlen, List.take_length, List.takeWhile_eq_self_iff]
  exact hall

/-- From a store that has all the chunks, a fetch brings them all. -/
theorem fetchesAll_of_has {link : Link} (hup : link.StaysUp) (gameId : UInt64)
    (hlen : hashes.length < 2 ^ 32)
    (hall : ∀ hash ∈ hashes, ∃ data, content.chunk hash = some data ∧ blake3 data = hash) :
    FetchesAll blake3 link content gameId hashes := by
  have hsome : ∀ hash ∈ hashes, (content.chunk hash).isSome := fun hash hmem => by
    obtain ⟨data, hdata, -⟩ := hall hash hmem
    rw [hdata]
    rfl
  have hsound : ∀ hash ∈ hashes,
      soundChunk blake3 content hash = some (hash, (content.chunk hash).getD []) := by
    intro hash hmem
    obtain ⟨data, hdata, hhash⟩ := hall hash hmem
    rw [soundChunk, hdata, Option.bind_some, if_pos hhash]
    rfl
  have hmap : hashes.filterMap (soundChunk blake3 content)
      = hashes.map fun hash => (hash, (content.chunk hash).getD []) := by
    rw [← List.filterMap_eq_map]
    exact List.filterMap_congr hsound
  have hfailed : (hashes.filter fun hash => (soundChunk blake3 content hash).isNone) = [] := by
    refine List.filter_eq_nil_iff.2 fun hash hmem => ?_
    simp [hsound hash hmem]
  refine ⟨fun hash => (content.chunk hash).getD [], fun hash hmem => ?_, ?_⟩
  · obtain ⟨data, hdata, hhash⟩ := hall hash hmem
    simpa [hdata] using hhash
  rw [fetchFrom_whole (arrivesWhole_of_has hsome hup), answered_all hlen hsome]
  simp [partStats, hmap, hfailed, Function.comp_def]

end Served

section Origin

variable {blake3 : Bytes → Hash} {s : Origin} {G : UInt64 → Places}

theorem SysLaid.opensTo {gameId : UInt64} {g : Places} {sys : StoreSys} (h : SysLaid gameId g sys) :
    ∃ store, sys.OpensTo gameId store ∧ StoreLaid gameId store g := by
  rcases sys with dir | store
  · have hre := h.reopen []
    exact ⟨_, rfl, hre⟩
  · exact ⟨store, rfl, h⟩

theorem Stocked.servesPublished (h : Stocked blake3 s G) : s.ServesPublished blake3 := by
  intro c hc error he
  obtain ⟨index, hdecode, hall⟩ := h.replies c hc error he
  obtain ⟨store, hopens, hlaid⟩ := (h.laid c.gameId).opensTo
  have hread := hlaid.shows.read
  obtain ⟨content, hcontent⟩ := exists_storeContent fun hash => ⟨_, congrArg Prod.fst (hread hash)⟩
  have hchunk : ∀ hash, content.chunk hash = (G c.gameId hash).map (·.2) := fun hash =>
    (Except.ok.inj ((congrArg Prod.fst (hread hash)).symm.trans (hcontent hash))).symm
  refine ⟨index, store, content, hdecode, hopens, fun hash => by rw [hread, hchunk],
    fun link hashes hup hsub hlen => fetchesAll_of_has hup _ hlen fun hash hmem => ?_⟩
  obtain ⟨p, hp⟩ := Option.isSome_iff_exists.1 (hall hash (hsub hmem))
  exact ⟨p.2, by rw [hchunk, hp]; rfl, h.verified c.gameId hash p hp⟩

/-- Whatever streams, lookups, commits and publish calls interleave, with any faults and restarts, a
version that was answered as published is served in full, now and later. -/
theorem run_servesPublished (blake3 : Bytes → Hash) (scheduler : Bool) (acts : List OriginAct)
    (hfit : (Origin.init scheduler).FitRun blake3 acts) :
    ((Origin.init scheduler).run blake3 acts).ServesPublished blake3 := by
  obtain ⟨G, h⟩ := (stocked_init scheduler).run acts hfit
  exact h.servesPublished

/-- The origin has published `index₁` and started again. -/
def published₁ : List OriginAct := [.firstChunk 7 (Hash.fill 1).bytes [5] [] [],
  .commit commit₁ .same [] [], .publish 0 (.handled [] none), .restart]

/-- Its chunk is fetched twice in one request. -/
theorem run_servesPublished_one :
    ∃ store content, (((Origin.init true).run lengthHash published₁).games 7).OpensTo 7 store
      ∧ store.ReadsAs content
      ∧ FetchesAll lengthHash
        ⟨true, (true, false), [], .msg "closed", .ok (), .ok 0, none⟩ content 7
        [.fill 1, .fill 1] := by
  have hfirst := firstChunk_uploaded (show lengthHash [5] = .fill 1 by rfl)
  have hcommit : uploaded₁.commit lengthHash commit₁ .same [] [] = written₁ := commit₁_written
  have hfit : (Origin.init true).FitRun lengthHash published₁ := by
    simp only [published₁, Origin.FitRun, Origin.step, hfirst, hcommit]
    exact ⟨fun _ => by simp [Origin.init, StoreSys.dir], uploaded₁_packsFit, uploaded₁_packsFit,
      uploaded₁_packsFit, uploaded₁_packsFit⟩
  have hrun : (Origin.init true).run lengthHash published₁
      = (written₁.publish 0 (.handled [] none)).restart := by
    simp only [published₁, Origin.run, List.foldl_cons, List.foldl_nil, Origin.step, hfirst,
      hcommit]
  have hreplies : ((Origin.init true).run lengthHash published₁).replies
      = [⟨7, 1, index₁.encode, .ok ⟨true, ""⟩⟩] := by
    rw [hrun]
    rfl
  obtain ⟨index, store, content, hdecode, hopens, hreads, hfetch⟩ :=
    run_servesPublished lengthHash true published₁ hfit ⟨7, 1, index₁.encode, .ok ⟨true, ""⟩⟩
      (by rw [hreplies]; exact List.mem_singleton_self _) "" rfl
  have hindex := decode_of_checkCommit checkCommit_commit₁
  dsimp only at hdecode hopens hfetch
  obtain rfl := Except.ok.inj (hdecode.symm.trans hindex)
  exact ⟨store, content, hopens, hreads, hfetch _ _ ⟨rfl, rfl⟩ (by decide) (by decide)⟩

end Origin

section Installed

open Producer

variable {blake3 : Bytes → Hash} {dataDir : Path} {gameId : UInt64} {cdc : StreamCdc}
  {s : Place} {files : List String} {content : String → Bytes}

/-- The files of a made version, verified at a cafe, are those of the source. -/
theorem treeAt_of_inPlace {version : UInt64} {d : Disk} (hapart : HashesApart blake3 files content)
    (hdecode : GameIndex.decode blake3
      (GameIndex.build blake3 (files.map (entryOf blake3 cdc s content))).encode
        = .ok (GameIndex.build blake3 (files.map (entryOf blake3 cdc s content))))
    (h : InPlace blake3 dataDir gameId version
      (GameIndex.build blake3 (files.map (entryOf blake3 cdc s content))).encode d) :
    TreeAt dataDir gameId files content d := by
  intro rel hrel
  have hmem : entryOf blake3 cdc s content rel ∈ versionFiles blake3
      (GameIndex.build blake3 (files.map (entryOf blake3 cdc s content))).encode := by
    rw [versionFiles_ok hdecode]
    exact List.mem_map_of_mem hrel
  obtain ⟨data, hdata, hhash⟩ := h.files _ hmem
  rw [← hapart rel hrel data hhash]
  exact hdata

/-- A cafe that has gone through any careful tasks has the files of a tree whenever a task with the
manifest of that tree returns well. -/
theorem treeAt_of_run (hnames : TreeNames (files.map replaceBackslash))
    (hcounts : Producer.CountsFit cdc s content files) (hapart : HashesApart blake3 files content)
    {cafe : Disk} {done : List CafeTask} {t : CafeTask}
    (hsound : (CafeHistory.mk cafe []).Sound blake3 dataDir gameId)
    (hrun : (CafeHistory.mk cafe []).CarefulRun blake3 dataDir gameId (done ++ [t]))
    (ht : t.manifest
      = (GameIndex.build blake3 (files.map (entryOf blake3 cdc s content))).encode)
    {out : CafeStore × List Hash} (hout : (t.run blake3 dataDir gameId
      ((CafeHistory.mk cafe []).after blake3 dataDir gameId done).disk).1 = .ok out) :
    TreeAt dataDir gameId files content
      ((CafeHistory.mk cafe []).after blake3 dataDir gameId (done ++ [t])).disk := by
  obtain ⟨hdone, hlast⟩ := CarefulRun.append hrun
  have hplace := (sound_step (sound_after done hsound hdone) hlast.1).2 out hout
  rw [ht] at hplace
  rw [CafeHistory.after, List.foldl_append]
  exact treeAt_of_inPlace hapart (decode_tree hnames hcounts) hplace

/-- A run writes the manifest of the files that are listed. -/
theorem produced_manifest {tools : Tools} {d : Disk} {s o : Place} {previous : Option Place}
    {version : UInt64} (h : Site d s o previous version tools.stack) {files : List Place}
    (hlists : Lists d s files)
    (hfree : CollisionFree tools.blake3 tools.cdc s (contentAt d s) (relsOf files))
    (gameId : UInt64) :
    ∃ plan d', exec (runWithConfig tools (configOf s o previous version gameId)) d
        = (.ok (treeOf tools d s files, plan), d')
      ∧ d'.content (manifestPlace o version) = some (treeOf tools d s files).encode := by
  obtain ⟨index, plan, d', hmade, hproduced⟩ := exec_runWithConfig h
    (fun files' h' => h'.unique hlists ▸ hfree) gameId
  obtain ⟨files', hfiles', rfl⟩ := hproduced.tree
  obtain rfl := hfiles'.unique hlists
  exact ⟨plan, d', hmade, hproduced.manifest⟩

/-- The producer runs on a directory. A cafe that has gone through any careful tasks, with any
faults and deaths, has every file of that directory whenever a task with the manifest returns
well. -/
theorem produced_tree_installed {tools : Tools} {d : Disk} {s o : Place} {previous : Option Place}
    {version : UInt64} (h : Site d s o previous version tools.stack) {files : List Place}
    (hlists : Lists d s files) (hnames : TreeNames ((relsOf files).map replaceBackslash))
    (hcounts : Producer.CountsFit tools.cdc s (contentAt d s) (relsOf files))
    (hfree : CollisionFree tools.blake3 tools.cdc s (contentAt d s) (relsOf files))
    (hapart : HashesApart tools.blake3 (relsOf files) (contentAt d s)) (gameId : UInt64) :
    ∃ made d' manifest,
      exec (runWithConfig tools (configOf s o previous version gameId)) d = (.ok made, d')
      ∧ d'.content (manifestPlace o version) = some manifest
      ∧ ∀ (dataDir : Path) (cafe : Disk) (done : List CafeTask) (t : CafeTask),
        (CafeHistory.mk cafe []).Sound tools.blake3 dataDir gameId →
        (CafeHistory.mk cafe []).CarefulRun tools.blake3 dataDir gameId (done ++ [t]) →
        t.manifest = manifest →
        ∀ out, (t.run tools.blake3 dataDir gameId
            ((CafeHistory.mk cafe []).after tools.blake3 dataDir gameId done).disk).1 = .ok out →
          TreeAt dataDir gameId (relsOf files) (contentAt d s)
            ((CafeHistory.mk cafe []).after tools.blake3 dataDir gameId (done ++ [t])).disk := by
  obtain ⟨plan, d', hmade, hmanifest⟩ := produced_manifest h hlists hfree gameId
  exact ⟨_, d', _, hmade, hmanifest, fun dataDir cafe done t hsound hrun ht out hout =>
    treeAt_of_run hnames hcounts hapart hsound hrun ht hout⟩

/-- The version of the file `b\c` with this byte. -/
def treeIndex : GameIndex :=
  treeOf singleTools (singleTree [1]) [['s']] [["b\\c".toList]]

/-- A task that installs it, under these faults. -/
def installTree (faults : List (Fault AnyError)) : CafeTask where
  version := 1
  manifest := treeIndex.encode
  current := none
  download := ⟨fun sink => each fun hash => sink hash [1], fun hK _ hsink missing =>
    hK.each (fun hash => hsink hash _) missing⟩
  iter := .same
  reports := []
  faults := faults

/-- A cafe with no version, where an earlier download has left the block of the file. -/
def stagedCafe : Disk := .ofList <|
  ["", "data", "data/.blazenet", "data/.blazenet/temp", "data/.blazenet/temp/1"].map
    (fun dir => (resolve (components dir), .dir))
  ++ [(resolve (tempBlock (tempDir (components "/data") 1) (.fill 1)), .file [1])]

/-- The process dies while it puts the file together. -/
def interruptedTree : CafeTask := installTree (List.replicate 20 .none ++ [.kill 0])

def afterInterruptedTree : CafeHistory :=
  (CafeHistory.mk stagedCafe []).step treeHash (components "/data") 1 interruptedTree

theorem decode_treeIndex : GameIndex.decode treeHash treeIndex.encode = .ok treeIndex := by
  decide +kernel

theorem versionFiles_treeIndex (faults : List (Fault AnyError)) :
    (installTree faults).files treeHash = treeIndex.files := versionFiles_ok decode_treeIndex

theorem files_treeIndex : treeIndex.files = [⟨"b/c", .fill 1, [⟨.fill 1, 1⟩]⟩] := by
  decide +kernel

theorem mergeNames_treeIndex : MergeNames [] treeIndex.files := by
  rw [files_treeIndex]
  refine ⟨fun f hf => ?_, by simp, by simp, fun f hf f' hf' => ?_⟩
  · obtain rfl := List.mem_singleton.1 hf
    unfold NormalName
    decide
  · obtain rfl := List.mem_singleton.1 hf
    obtain rfl := List.mem_singleton.1 hf'
    decide

theorem careful_interruptedTree : (CafeHistory.mk stagedCafe []).Careful treeHash
    (components "/data") 1 interruptedTree := by
  have hrecorded : recordedFiles treeHash (components "/data") 1 stagedCafe = [] := by
    decide +kernel
  have hstopped : ((interruptedTree.beforeSave treeHash (components "/data") 1 treeIndex).run
    ⟨(CafeHistory.mk stagedCafe []).disk, interruptedTree.faults⟩).1.toBool = false := by
    decide +kernel
  refine ⟨?_, fun _ _ _ _ _ _ _ h => (List.not_mem_nil h).elim, fun index cafe w hindex hrun => ?_⟩
  · rw [hrecorded, show interruptedTree.files _ = _ from versionFiles_treeIndex _]
    exact mergeNames_treeIndex
  · obtain rfl := Except.ok.inj (hindex.symm.trans decode_treeIndex)
    rw [hrun] at hstopped
    cases hstopped

theorem careful_afterInterruptedTree : afterInterruptedTree.Careful treeHash (components "/data") 1
    (installTree []) := by
  have hrecorded : recordedFiles treeHash (components "/data") 1 afterInterruptedTree.disk
      = [] := by
    decide +kernel
  have hsaved : savesWell 1 treeIndex.encode
      (((installTree []).beforeSave treeHash (components "/data") 1 treeIndex).run
        ⟨afterInterruptedTree.disk, (installTree []).faults⟩) = true := by decide +kernel
  refine ⟨?_, fun f hf prev hprev => ?_, fun index cafe w hindex hrun => ?_⟩
  · rw [hrecorded, versionFiles_treeIndex]
    exact mergeNames_treeIndex
  · rw [hrecorded] at hprev
    cases hprev
  · obtain rfl := Except.ok.inj (hindex.symm.trans decode_treeIndex)
    rw [hrun] at hsaved
    have hstop : cafe.saveStop 1 treeIndex.encode w = .after := of_decide_eq_true hsaved
    change cafe.StopSafe _ 1 treeIndex.encode w.state (cafe.saveStop 1 treeIndex.encode w)
    rw [hstop]
    exact ⟨_, decode_treeIndex⟩

theorem treeHash_apart :
    HashesApart treeHash ["b\\c"] (contentAt (singleTree [1]) [['s']]) := by
  intro rel hrel data hdata
  obtain rfl := List.mem_singleton.1 hrel
  have hcontent : contentAt (singleTree [1]) [['s']] "b\\c" = [1] := by decide
  rw [hcontent] at hdata ⊢
  by_contra hne
  rw [treeHash, if_neg hne] at hdata
  exact absurd hdata (show Hash.fill 2 ≠ treeHash [1] by decide)

theorem sound_stagedCafe :
    (CafeHistory.mk stagedCafe []).Sound treeHash (components "/data") 1 := by
  intro f hf
  have hrecorded : recordedFiles treeHash (components "/data") 1 stagedCafe = [] := by
    decide +kernel
  change f ∈ recordedFiles _ _ _ stagedCafe at hf
  rw [hrecorded] at hf
  cases hf

theorem careful_interruptedRun : (CafeHistory.mk stagedCafe []).CarefulRun treeHash
    (components "/data") 1 ([interruptedTree] ++ [installTree []]) :=
  ⟨careful_interruptedTree, careful_afterInterruptedTree, trivial⟩

theorem made_treeIndex {manifest : Bytes} {d' : Disk} {made : GameIndex × UpdatePlan}
    (hmade : exec (runWithConfig singleTools (configOf [['s']] [['o']] none 1 1)) (singleTree [1])
      = (.ok made, d')) (hmanifest : d'.content (manifestPlace [['o']] 1) = some manifest) :
    manifest = treeIndex.encode := by
  obtain ⟨plan, d₁, hrun, hwritten⟩ := produced_manifest
    (show Site _ _ _ _ _ singleTools.stack from site_single [1])
    (lists_single [1]) (piecesApart_single _ (lists_single [1])) 1
  rw [hrun] at hmade
  obtain ⟨-, rfl⟩ := Prod.mk.inj hmade
  exact Option.some.inj (hmanifest.symm.trans hwritten)

theorem installTree_ok : ∃ out, ((installTree []).run singleTools.blake3 (components "/data") 1
    ((CafeHistory.mk stagedCafe []).after singleTools.blake3 (components "/data") 1
      [interruptedTree]).disk).1 = .ok out := by
  have hdone : ((installTree []).run singleTools.blake3 (components "/data") 1
    ((CafeHistory.mk stagedCafe []).after singleTools.blake3 (components "/data") 1
      [interruptedTree]).disk).1.toBool = true := by decide +kernel
  rcases hout : ((installTree []).run singleTools.blake3 (components "/data") 1
    ((CafeHistory.mk stagedCafe []).after singleTools.blake3 (components "/data") 1
      [interruptedTree]).disk).1 with e | out
  · rw [hout] at hdone
    cases hdone
  · exact ⟨out, rfl⟩

/-- The producer runs on a directory with one file, and the cafe has it after a task that has died
and one that has not. -/
theorem produced_tree_installed_resumed :
    TreeAt (components "/data") 1 ["b\\c"] (contentAt (singleTree [1]) [['s']])
      ((CafeHistory.mk stagedCafe []).after treeHash (components "/data") 1
        [interruptedTree, installTree []]).disk := by
  obtain ⟨made, d', manifest, hmade, hmanifest, hinstalled⟩ :=
    produced_tree_installed (show Site _ _ _ _ _ singleTools.stack from site_single [1])
      (lists_single [1])
      treeNames_single ⟨by decide, by decide⟩ (piecesApart_single _ (lists_single [1]))
        treeHash_apart 1
  obtain rfl := made_treeIndex hmade hmanifest
  obtain ⟨out, hout⟩ := installTree_ok
  exact hinstalled (components "/data") stagedCafe [interruptedTree] (installTree [])
    sound_stagedCafe careful_interruptedRun rfl out hout

end Installed

section Seeded

open Producer

variable {blake3 : Bytes → Hash} {dataDir : Path} {gameId : UInt64} {d : Disk}

theorem ensures_beforeSave (t : CafeTask) (index : GameIndex) :
    Ensures (UnixFs.Within fun _ => True) (OfGame dataDir gameId)
      (t.beforeSave blake3 dataDir gameId index) := by
  have htrans := (UnixFs.Within.frame (P := fun _ => True)).trans
  have hopened : ∀ cafe ∈ t.current.map (CafeStore.mk gameId dataDir ·),
      OfGame dataDir gameId cafe := fun cafe hcafe => by
    obtain ⟨current, -, rfl⟩ := Option.mem_map.1 hcafe
    exact ⟨rfl, rfl⟩
  have hprepare : Ensures (UnixFs.Within fun _ => True) (fun r => OfGame dataDir gameId r.cafe)
      (prepareCafe blake3 dataDir gameId (t.current.map (CafeStore.mk gameId dataDir ·)) index) :=
    fun S d => wp_mono (wp_prepareCafe hopened index) fun _ _ h =>
      ⟨h.1.mono fun _ => False.elim, fun ready hr => (h.2 ready hr).1⟩
  refine hprepare.seq htrans fun ready hcafe => ?_
  have hdownload : Keeps (UnixFs.Within fun _ => True)
      (t.download.run (cafeSink dataDir gameId) ready.missing) :=
    t.download.through UnixFs.Within.frame (fun _ data => (within_writeFile trivial data).onErr _) _
  have hmerge : Keeps (UnixFs.Within fun _ => True)
      (mergeFiles blake3 (gameDir dataDir gameId) (tempDir dataDir gameId) t.iter
        index ready.old) :=
    UnixFs.Within.frame.seq (fun S d => wp_mono (within_mergeEntries _ _ _ _ _ _ S d) fun _ _ h =>
        h.mono fun _ _ => trivial)
      fun _ => keeps_deleteFiles _ UnixFs.Within.frame _ _ fun _ _ => within_removeFile trivial
  refine Ensures.seq htrans (R := fun _ => True) (fun S d => wp_mono (hdownload S d) fun _ _ h =>
    ⟨h, fun _ _ => trivial⟩) fun _ _ => Ensures.seq htrans (R := fun _ => True)
      (fun S d => wp_mono (hmerge S d) fun _ _ h => ⟨h, fun _ _ => trivial⟩) fun merge _ => ?_
  split_ifs
  · exact fun S d => wp_stop ⟨UnixFs.Within.refl d, by simp⟩
  · exact fun S d => wp_pure ⟨UnixFs.Within.refl d, fun cafe h => Except.ok.inj h ▸ hcafe⟩

/-- A well-formed disk stays one through a task; and the store that a task returns has the places of
the version. -/
theorem ensures_prog {t : CafeTask} {index : GameIndex}
    (hdecode : GameIndex.decode blake3 t.manifest = .ok index) :
    Ensures (UnixFs.Within fun _ => True)
      (fun out => out.1 = ⟨gameId, dataDir, some (chunkLocations index.files)⟩)
      (t.prog blake3 dataDir gameId) := by
  have htrans := (UnixFs.Within.frame (P := fun _ => True)).trans
  rw [prog_eq hdecode]
  refine (ensures_beforeSave t index).seq htrans fun cafe hcafe => ?_
  obtain ⟨rfl, rfl⟩ := hcafe
  have hstore : Ensures (UnixFs.Within fun _ => True)
      (fun store => store = { cafe with current := some (chunkLocations index.files) })
      (cafe.saveManifest blake3 t.version t.manifest) := by
    intro S d
    have hdone : wpOk S (cafe.saveManifest blake3 t.version t.manifest) d fun store _ =>
        store = { cafe with current := some (chunkLocations index.files) } := by
      refine wpOk.any.bind fun _ _ _ => wpOk.any.bind fun _ _ _ => wpOk.any.bind fun _ _ _ => ?_
      rw [CafeStore.setCurrent, hdecode]
      exact wpOk.pure rfl
    exact wp_mono (wp_and (within_saveManifest blake3 t.version t.manifest cafe S d) hdone)
      fun _ _ h => ⟨h.1.mono fun _ _ => trivial, fun store hs => h.2 store hs⟩
  refine hstore.seq htrans fun store hs => ?_
  subst hs
  unfold CafeTask.report
  rcases reportChunks (index.chunkSet.mergeSort hashLe) t.reports with ⟨e | _, sent⟩
  · exact fun S d => wp_stop ⟨UnixFs.Within.refl d, by simp⟩
  · exact fun S d => wp_pure ⟨UnixFs.Within.refl d, fun out h => Except.ok.inj h ▸ rfl⟩

theorem store_of_run {t : CafeTask} {index : GameIndex}
    (hdecode : GameIndex.decode blake3 t.manifest = .ok index) {out : CafeStore × List Hash}
    (hout : (t.run blake3 dataDir gameId d).1 = .ok out) :
    out.1 = ⟨gameId, dataDir, some (chunkLocations index.files)⟩ :=
  (ensures_prog hdecode (fun _ => True) d t.faults fun _ _ => trivial).2 out hout

theorem wf_step {h : CafeHistory} (hwf : h.disk.Wf) (t : CafeTask) :
    (h.step blake3 dataDir gameId t).disk.Wf := by
  change (t.run blake3 dataDir gameId h.disk).2.state.Wf
  rcases hdecode : GameIndex.decode blake3 t.manifest with e | index
  · have hprog : t.prog blake3 dataDir gameId = stop (.err (e.context "解析版本清单失败")) := by
      rw [CafeTask.prog, hdecode]
    rw [CafeTask.run, hprog]
    exact hwf
  · exact ((ensures_prog hdecode).keeps.run h.disk t.faults).wf hwf

theorem wf_after : ∀ (tasks : List CafeTask) {h : CafeHistory}, h.disk.Wf →
    (h.after blake3 dataDir gameId tasks).disk.Wf
  | [], _, hwf => hwf
  | t :: tasks, _, hwf => wf_after tasks (wf_step hwf t)

section Reads

variable {p : Place} {self : CafeStore} {hash : Hash} {name : String} {c data : Bytes} {offset : ℕ}
  {len : UInt32}

theorem gameDir_ofPlace (p : Place) (gameId : UInt64) : gameDir (ofPlace p) gameId
    = ofPlace (p ++ ["games".toList, (toString gameId.toNat).toList]) := by
  rw [gameDir, join_toString, join_name _ (by decide) (by decide) (by decide) (by decide),
    List.append_assoc, ofPlace_append]
  rfl

theorem tempDir_ofPlace (p : Place) (gameId : UInt64) : tempDir (ofPlace p) gameId
    = ofPlace (p ++ [".blazenet".toList, "temp".toList, (toString gameId.toNat).toList]) := by
  rw [tempDir_eq ⟨gameId, ofPlace p, none⟩, CafeStore.base,
    join_name _ (by decide) (by decide) (by decide) (by decide), List.append_assoc, ofPlace_append]
  rfl

theorem exec_readReal (hd : d.Wf) (hdir : self.dataDir = ofPlace p) (hname : PlainName name)
    (hc : d.content (resolve (join (gameDir self.dataDir self.gameId) name)) = some c)
    (hslice : SliceIs c offset len data) :
    (exec (self.readReal (name, offset, len)) d).1 = .ok (some data) := by
  obtain ⟨q, hq⟩ : ∃ q, join (gameDir self.dataDir self.gameId) name = ofPlace q := by
    rw [hname.join_append, hdir, gameDir_ofPlace, ← ofPlace_append]
    exact ⟨_, rfl⟩
  rw [hq, resolve_ofPlace] at hc
  have hn := Disk.content_eq_some.1 hc
  have hthere : d.node q ≠ none := by simp [hn]
  have hopen : exec (openFile (ofPlace q) : FsIo Place) d = _ :=
    exec_openFile (hd.find_ofPlace hthere) hthere
  have hn' : (d.note q .open).node q = some (.file c) := by rw [Disk.node_note, hn]
  have hrange : rangeOf c offset len = some data := (rangeOf_eq_some hslice.2).2 hslice.1
  have hloop : exec (readLoop (readFrom q) unexpectedEof len.toNat offset) (d.note q .open)
      = ((.ok data : Except (Stop AnyError) Bytes), d.note q .open) := by
    rw [exec_readLoop_of _ (exec_readFrom hn')]
    unfold rangeOf at hrange
    split_ifs at hrange ⊢
    rw [← Option.some.inj hrange]
  rw [CafeStore.readReal, hq, exec_bind, exec_attempt, hopen]
  dsimp only
  have hseek : exec (context "定位真实文件偏移失败" (flushFile : FsIo Unit)) (d.note q .open)
      = (.ok (), d.note q .open) := rfl
  rw [exec_bind, CafeStore.readRange, exec_bind, hseek]
  dsimp only
  rw [exec_context_ok hloop]
  rfl

/-- A chunk in the files of a version is read, from its temporary block if there is one. -/
theorem CafeStore.Reads.of_files {files : List FileEntry} (bytes : Hash → Bytes) (hd : d.Wf)
    (hdir : self.dataDir = ofPlace p) (hcurrent : self.current = some (chunkLocations files))
    (hplain : ∀ f ∈ files, PlainName f.name)
    (hlen : ∀ f ∈ files, ∀ c ∈ f.chunks, (bytes c.hash).length = c.len.toNat)
    (hfiles : ∀ f ∈ files, d.content (resolve (join (gameDir self.dataDir self.gameId) f.name))
      = some (contentOf bytes f))
    (hmem : hash ∈ files.flatMap fun f => f.chunks.map (·.hash))
    (hbytes : blake3 (bytes hash) = hash)
    (htemp : self.TempSound blake3 d hash) : self.Reads blake3 d hash := by
  obtain ⟨q, hq⟩ : ∃ q, tempBlock (tempDir self.dataDir self.gameId) hash = ofPlace q := by
    rw [hdir, tempDir_ofPlace, tempBlock_ofPlace]
    exact ⟨_, rfl⟩
  unfold CafeStore.TempSound at htemp
  unfold CafeStore.Reads
  rw [hq, resolve_ofPlace] at htemp
  rw [CafeStore.readChunk, hq, exec_bind, exec_isFile, hd.isFile_ofPlace]
  rcases hblock : d.content q with _ | data
  · -- the place that the map has
    obtain ⟨⟨name, offset, len⟩, hloc⟩ : ∃ loc, (chunkLocations files).lookup hash = some loc := by
      refine Option.ne_none_iff_exists'.1 fun hnone => ?_
      exact lookup_chunkLocations_eq_none.1 hnone hmem
    obtain ⟨f, hf, rfl, hplace⟩ := mem_of_chunkLocations hloc
    refine ⟨bytes hash, ?_, hbytes⟩
    simp only [Option.isSome_none, Bool.false_eq_true, if_false, hcurrent, Option.bind_some, hloc]
    exact exec_readReal hd hdir (hplain f hf) (hfiles f hf) (sliceIs_of_mem (hlen f hf) hplace)
  · refine ⟨data, ?_, htemp data hblock⟩
    have hn := Disk.content_eq_some.1 hblock
    simp only [Option.isSome_some, if_true]
    rw [exec_bind, exec_context_ok (exec_readFile (hd.find_ofPlace (by simp [hn])) hn)]
    rfl

/-- What is read is also fetched. -/
theorem CafeStore.Seeds.of_reads {hashes : List Hash}
    (h : ∀ hash ∈ hashes, self.Reads blake3 d hash) : self.Seeds blake3 d hashes :=
  ⟨h, fun link content hup hlen hreads => fetchesAll_of_has hup _ hlen fun hash hmem => by
    obtain ⟨data, hdata, hhash⟩ := h hash hmem
    exact ⟨data, Except.ok.inj ((hreads hash hmem).symm.trans hdata), hhash⟩⟩

end Reads

/-- Every piece is shorter than the lengths of a manifest. -/
theorem length_pieces_of {cdc : StreamCdc} {s : Place} {content : String → Bytes}
    {files : List String} (hfree : CollisionFree blake3 cdc s content files)
    (hshort : ∀ data ∈ files.flatMap (piecesOf cdc s content), data.length < 2 ^ 32)
    {rel : String} (hrel : rel ∈ files) :
    ∀ c ∈ (entryOf blake3 cdc s content rel).chunks,
      (bytesOf blake3 (files.flatMap (piecesOf cdc s content)) c.hash).length = c.len.toNat := by
  intro c hc
  obtain ⟨data, hdata, rfl⟩ := List.mem_map.1 hc
  have hpiece : data ∈ files.flatMap (piecesOf cdc s content) :=
    List.mem_flatMap.2 ⟨rel, hrel, hdata⟩
  have hlt := hshort data hpiece
  rw [metaOf, bytesOf_blake3 hfree hpiece, UInt32.toNat_ofNat_of_lt' hlt]

/-- Where the tree is installed, the store of its version serves the chunks. -/
theorem seeds_of_tree {cdc : StreamCdc} {s p : Place} {files : List String}
    {content : String → Bytes} (hnames : TreeNames (files.map replaceBackslash))
    (hcuts : CutsFiles cdc s content files)
    (hshort : ∀ data ∈ files.flatMap (piecesOf cdc s content), data.length < 2 ^ 32)
    (hfree : CollisionFree blake3 cdc s content files) (hd : d.Wf)
    (htree : TreeAt (ofPlace p) gameId files content d) {store : CafeStore}
    (hstore : store = ⟨gameId, ofPlace p, some (chunkLocations
      (GameIndex.build blake3 (files.map (entryOf blake3 cdc s content))).files)⟩)
    {hashes : List Hash} (hsub : hashes
      ⊆ (GameIndex.build blake3 (files.map (entryOf blake3 cdc s content))).chunkSet)
    (htemp : ∀ hash ∈ hashes, store.TempSound blake3 d hash) : store.Seeds blake3 d hashes := by
  subst hstore
  refine .of_reads fun hash hmem => ?_
  have hchunk := hsub hmem
  rw [GameIndex.chunkSet, List.mem_dedup, GameIndex.chunkHashes] at hchunk
  have hentry : ∀ f ∈ (GameIndex.build blake3 (files.map (entryOf blake3 cdc s content))).files,
      ∃ rel ∈ files, entryOf blake3 cdc s content rel = f := fun f hf => List.mem_map.1 hf
  refine .of_files (bytesOf blake3 (files.flatMap (piecesOf cdc s content))) hd rfl rfl
    (fun f hf => ?_) (fun f hf => ?_) (fun f hf => ?_) hchunk ?_ (htemp hash hmem)
  · obtain ⟨rel, hrel, rfl⟩ := hentry f hf
    exact (hnames.normal _ (List.mem_map_of_mem hrel)).plain
  · obtain ⟨rel, hrel, rfl⟩ := hentry f hf
    exact length_pieces_of hfree hshort hrel
  · obtain ⟨rel, hrel, rfl⟩ := hentry f hf
    rw [contentOf_entryOf (hcuts rel hrel).1 fun data hdata =>
      bytesOf_blake3 hfree (List.mem_flatMap.2 ⟨rel, hrel, hdata⟩)]
    exact htree rel hrel
  · obtain ⟨f, hf, hmap⟩ := List.mem_flatMap.1 hchunk
    obtain ⟨rel, hrel, rfl⟩ := hentry f hf
    obtain ⟨c, hc, rfl⟩ := List.mem_map.1 hmap
    obtain ⟨data, hdata, rfl⟩ := List.mem_map.1 hc
    rw [metaOf, bytesOf_blake3 hfree (List.mem_flatMap.2 ⟨rel, hrel, hdata⟩)]

/-- The producer runs on a directory. A cafe that has installed the version serves its chunks: those
that have a temporary block which is what it should be, and those that have none. -/
theorem produced_tree_seeded {tools : Tools} {d : Disk} {s o : Place} {previous : Option Place}
    {version : UInt64} (h : Site d s o previous version tools.stack) {files : List Place}
    (hlists : Lists d s files) (hnames : TreeNames ((relsOf files).map replaceBackslash))
    (hcuts : CutsFiles tools.cdc s (contentAt d s) (relsOf files))
    (hcounts : Producer.CountsFit tools.cdc s (contentAt d s) (relsOf files))
    (hshort : ∀ data ∈ (relsOf files).flatMap (piecesOf tools.cdc s (contentAt d s)),
      data.length < 2 ^ 32)
    (hfree : CollisionFree tools.blake3 tools.cdc s (contentAt d s) (relsOf files))
    (hapart : HashesApart tools.blake3 (relsOf files) (contentAt d s)) (gameId : UInt64) :
    ∃ made d' manifest index,
      exec (runWithConfig tools (configOf s o previous version gameId)) d = (.ok made, d')
      ∧ d'.content (manifestPlace o version) = some manifest
      ∧ GameIndex.decode tools.blake3 manifest = .ok index
      ∧ ∀ (p : Place) (cafe : Disk) (done : List CafeTask) (t : CafeTask),
        cafe.Wf → (CafeHistory.mk cafe []).Sound tools.blake3 (ofPlace p) gameId →
        (CafeHistory.mk cafe []).CarefulRun tools.blake3 (ofPlace p) gameId (done ++ [t]) →
        t.manifest = manifest →
        ∀ out, (t.run tools.blake3 (ofPlace p) gameId
            ((CafeHistory.mk cafe []).after tools.blake3 (ofPlace p) gameId done).disk).1
              = .ok out →
          let now := (CafeHistory.mk cafe []).after tools.blake3 (ofPlace p) gameId (done ++ [t])
          ∀ hashes : List Hash, hashes ⊆ index.chunkSet →
            (∀ hash ∈ hashes, out.1.TempSound tools.blake3 now.disk hash) →
              out.1.Seeds tools.blake3 now.disk hashes := by
  obtain ⟨plan, d', hmade, hmanifest⟩ := produced_manifest h hlists hfree gameId
  have hdecode := @decode_tree tools.blake3 tools.cdc s (relsOf files)
    (contentAt d s) hnames hcounts
  refine ⟨_, d', _, _, hmade, hmanifest, hdecode,
    fun p cafe done t hwf hsound hrun ht out hout hashes hsub htemp => ?_⟩
  have htree := treeAt_of_run hnames hcounts hapart hsound hrun ht hout
  exact seeds_of_tree hnames hcuts hshort hfree (wf_after (done ++ [t]) hwf) htree
    (store_of_run (ht ▸ hdecode) hout) hsub htemp

theorem wf_stagedCafe : stagedCafe.Wf := Disk.wf_of_entries (by decide +kernel) (by decide +kernel)

/-- The cafe of `produced_tree_installed_resumed` reads the chunk from its temporary block. -/
theorem produced_tree_seeded_resumed :
    ∃ out, ((installTree []).run singleTools.blake3 (components "/data") 1
      ((CafeHistory.mk stagedCafe []).after singleTools.blake3 (components "/data") 1
        [interruptedTree]).disk).1 = .ok out
    ∧ out.1.Seeds singleTools.blake3
      ((CafeHistory.mk stagedCafe []).after singleTools.blake3 (components "/data") 1
      [interruptedTree, installTree []]).disk [.fill 1] := by
  obtain ⟨made, d', manifest, index, hmade, hmanifest, hdecode, hseeded⟩ :=
    produced_tree_seeded (show Site _ _ _ _ _ singleTools.stack from site_single [1])
      (lists_single [1])
      treeNames_single (cutsFiles_singles _ _ _) ⟨by decide, by decide⟩ (by decide)
      (piecesApart_single _ (lists_single [1])) treeHash_apart 1
  obtain rfl := made_treeIndex hmade hmanifest
  obtain rfl := Except.ok.inj (hdecode.symm.trans decode_treeIndex)
  obtain ⟨out, hout⟩ := installTree_ok
  have hstore := store_of_run (t := installTree []) decode_treeIndex hout
  have hchunk : Hash.fill 1 ∈ treeIndex.chunkSet := by decide +kernel
  have hpath : ofPlace ["data".toList] = components "/data" := by decide
  have hcafe := hseeded ["data".toList] stagedCafe [interruptedTree] (installTree []) wf_stagedCafe
  rw [hpath] at hcafe
  refine ⟨out, hout, hcafe sound_stagedCafe careful_interruptedRun rfl out hout [.fill 1]
    (by simpa using hchunk) fun hash hmem data hdata => ?_⟩
  obtain rfl := List.mem_singleton.1 hmem
  rw [hstore] at hdata
  have hblock : ((CafeHistory.mk stagedCafe []).after treeHash (components "/data") 1
      [interruptedTree, installTree []]).disk.content (resolve (tempBlock
        (tempDir (components "/data") 1) (.fill 1))) = some [1] := by decide +kernel
  obtain rfl := Option.some.inj (hblock.symm.trans hdata)
  decide

end Seeded

end BlazeNet
