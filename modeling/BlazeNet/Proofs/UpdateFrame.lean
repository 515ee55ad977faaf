import BlazeNet.CafeStore
import BlazeNet.UpdateSpec
import BlazeNet.Lib.FsPath
import BlazeNet.Proofs.CopyRanges
import BlazeNet.Proofs.Manifest
import BlazeNet.Proofs.UpdatePlan

/-!
# What a merge and a chunk source touch

Whatever faults it meets, a merge touches the targets of its entries, the paths next to them under
the extension `new`, the directories on the way there and the targets of the old version. Nothing
checks the names of a manifest, so an absolute name or one that climbs takes all of these out of
the game's directory; names that stay below it keep them there.
-/

namespace BlazeNet

open Wire FaultIo Io RustStd UnixFs

section Writer

theorem quiet_syncWriter : Quiet syncWriter := quiet_context quiet_flushFile

theorem quiet_closeWriter : Quiet closeWriter := quiet_context quiet_flushFile

theorem quiet_readChunkAt (file : Place) (offset : ℕ) (len : UInt32) :
    Quiet (readChunkAt file offset len) :=
  quiet_readLoop _ (fun n o => quiet_context (quiet_readFrom file n o)) _ _

end Writer

section Steps

variable (blake3 : Bytes → Hash) (gameDir tempDir : Path) (entry : FileEntry)
  (oldChunks : Option (List (Hash × ℕ × UInt32))) (oldFile : Option Path)
  (globalChunks : ChunkLocation)

theorem writeNewFile_eq : writeNewFile blake3 gameDir tempDir entry oldChunks oldFile globalChunks
    = (do
      prepareTarget blake3 gameDir tempDir entry oldChunks oldFile globalChunks
      renameNew gameDir entry) := by
  unfold writeNewFile prepareTarget assembleNew renameNew
  dsimp only
  rcases parent (newPathOf (join gameDir entry.name)) with _ | up
  · rfl
  · simp only [bind_assoc]
    refine bind_congr fun _ => bind_congr fun out => bind_congr fun old => bind_congr fun data => ?_
    split_ifs
    · simp only [dropNew, bind_assoc]
      rfl
    · simp only [replaceTarget, bind_assoc]

/-- One turn of the loop is one write with its cleanup. -/
theorem mergeEntry_eq (old : List FileEntry) (summary : MergeSummary) :
    mergeEntry blake3 gameDir tempDir old summary entry = (do
      let targetExists ← isFile (join gameDir entry.name)
      if !needMerge old entry targetExists then pure summary
      else do
        match ← writeOrClean blake3 gameDir tempDir entry
          ((getFile old entry.name).map fun f => chunkOffsets 0 f.chunks)
          ((getFile old entry.name).map fun _ => join gameDir entry.name) (chunkLocations old) with
        | .ok () => pure { summary with merged := summary.merged + 1 }
        | .error err =>
          pure { summary with failed := summary.failed
            ++ [entry.name ++ ": " ++ err.display] }) := by
  unfold mergeEntry writeOrClean
  dsimp only
  refine bind_congr fun targetExists => ite_congr rfl (fun _ => rfl) fun _ => ?_
  rw [bind_assoc]
  refine bind_congr fun r => ?_
  rcases r with err | _
  · dsimp only
    rw [bind_assoc]
    rfl
  · rfl

end Steps

section Calls

/-- Reading files keeps a relation. -/
structure AllowsReads (K : Disk → Disk → Prop) : Prop extends FaultIo.Frame K where
  opens : ∀ path, Keeps K (openFile path : FsIo Place)
  reads : ∀ path, Keeps K (UnixFs.readFile path : FsIo Bytes)

/-- So does putting a new file together next to its target, and dropping it. -/
structure AllowsFill (K : Disk → Disk → Prop) (target : Path) : Prop extends AllowsReads K where
  mkdir : ∀ q, q <+: target.dropLast → Keeps K (mkdir q : FsIo Unit)
  create : Ensures K (fun place => place = resolve (newPathOf target))
    (createFile (newPathOf target) : FsIo Place)
  write : ∀ data offset, Keeps K (writeInto (resolve (newPathOf target)) data offset : FsIo Unit)
  drop : Keeps K (removeFile (newPathOf target) : FsIo Unit)

/-- So does putting it in the target's place. -/
structure AllowsMerge (K : Disk → Disk → Prop) (target : Path) :
    Prop extends AllowsFill K target where
  remove : Keeps K (removeFile target : FsIo Unit)
  rename : Keeps K (renameFile (newPathOf target) target : FsIo Unit)

variable {K : Disk → Disk → Prop} {target : Path}

namespace AllowsReads

variable (h : AllowsReads K)
include h

theorem reuse (last : Option (Path × Place)) (path : Path) :
    Keeps K (Sources.reuse last path) := by
  have hopen : Keeps K (context "打开复用源文件失败" (openFile path : FsIo Place)) :=
    (h.opens path).onErr _
  rcases last with _ | ⟨lastPath, file⟩
  · exact hopen
  · unfold Sources.reuse
    simp only
    split_ifs
    · exact h.pure _
    · exact hopen

theorem chunkData (src : Sources) (last : Option (Path × Place)) (hash : Hash) :
    Keeps K (src.chunkData last hash) := by
  have htemp : Keeps K (src.readTemp hash) := (h.reads _).onErr _
  unfold Sources.chunkData
  split
  · exact h.seq (h.quiet (quiet_readChunkAt _ _ _)) fun _ => h.pure _
  split
  · refine h.seq (h.quiet quiet_isFile) fun b => ?_
    cases b
    · exact h.seq htemp fun _ => h.pure _
    · exact h.seq (h.reuse _ _) fun _ =>
        h.seq (h.quiet (quiet_readChunkAt _ _ _)) fun _ => h.pure _
  · exact h.seq htemp fun _ => h.pure _

theorem openOld (path : Option Path) : Keeps K (openOld path) := by
  rcases path with _ | path
  · exact h.pure _
  · refine h.seq (h.quiet quiet_isFile) fun b => ?_
    cases b
    · exact h.pure _
    · exact h.seq ((h.opens path).onErr _) fun _ => h.pure _

end AllowsReads

namespace AllowsFill

variable (h : AllowsFill K target)
include h

theorem writeChunks (src : Sources) : ∀ chunks last written,
    Keeps K (src.writeChunks (resolve (newPathOf target)) chunks last written)
  | [], _, _ => h.pure _
  | chunk :: chunks, last, _ =>
    h.seq (h.chunkData src last chunk.hash) fun _ =>
      h.seq (((h.write _ _).onErr _).onErr _) fun _ => writeChunks src chunks _ _

theorem dropNew : Keeps K (dropNew (newPathOf target)) :=
  h.seq (h.quiet quiet_closeWriter).attempt fun _ => h.seq h.drop.attempt fun _ => h.stop _

end AllowsFill

theorem parent_newPathOf {up : Path} (hp : parent (newPathOf target) = some up) :
    up = target.dropLast := by
  unfold parent at hp
  split_ifs at hp
  rw [← Option.some.inj hp]
  exact dropLast_withExtension _ _

theorem keeps_removeOld (hK : FaultIo.Frame K) (h : Keeps K (removeFile target : FsIo Unit)) :
    Keeps K (removeOld target) := by
  refine hK.seq (hK.quiet quiet_pathExists) fun b => ?_
  cases b
  · exact hK.pure _
  · exact h.onErr _

variable (blake3 : Bytes → Hash) (gameDir tempDir : Path)

theorem AllowsFill.assembleNew {entry : FileEntry} (h : AllowsFill K (join gameDir entry.name))
    (oldChunks : Option (List (Hash × ℕ × UInt32))) (oldFile : Option Path)
    (globalChunks : ChunkLocation) :
    Keeps K (assembleNew blake3 gameDir tempDir entry oldChunks oldFile globalChunks) := by
  unfold BlazeNet.assembleNew
  dsimp only
  rcases hp : parent (newPathOf (join gameDir entry.name)) with _ | up
  · exact h.stop _
  obtain rfl := parent_newPathOf hp
  refine h.seq ((keeps_createDirAll h.toFrame h.mkdir).onErr _) fun _ => ?_
  refine Ensures.bind h.trans (h.create.onErr _ |>.onErr _) fun out hout => ?_
  refine h.seq (h.openOld oldFile) fun oldHandle => ?_
  refine h.seq (hout ▸ h.writeChunks _ _ _ _) fun data => ?_
  split_ifs
  · exact h.dropNew
  · exact h.seq ((h.quiet quiet_syncWriter).onErr _) fun _ => (h.quiet quiet_closeWriter).onErr _

namespace AllowsMerge

variable {entry : FileEntry} (h : AllowsMerge K (join gameDir entry.name))
  (oldChunks : Option (List (Hash × ℕ × UInt32))) (oldFile : Option Path)
  (globalChunks : ChunkLocation)

include h

theorem writeNewFile :
    Keeps K (writeNewFile blake3 gameDir tempDir entry oldChunks oldFile globalChunks) := by
  rw [writeNewFile_eq]
  refine h.seq (h.seq (h.assembleNew _ _ _ _ _ _) fun _ => ?_) fun _ => h.rename.onErr _
  exact keeps_removeOld h.toFrame h.remove

theorem writeOrClean :
    Keeps K (writeOrClean blake3 gameDir tempDir entry oldChunks oldFile globalChunks) := by
  refine h.seq (h.writeNewFile blake3 _ _ _ _ _).attempt fun r => ?_
  rcases r with err | _
  · exact h.seq h.drop.attempt fun _ => h.pure _
  · exact h.pure _

theorem mergeEntry (old : List FileEntry) (summary : MergeSummary) :
    Keeps K (mergeEntry blake3 gameDir tempDir old summary entry) := by
  rw [mergeEntry_eq]
  refine h.seq (h.quiet quiet_isFile) fun targetExists => ?_
  split_ifs
  · exact h.pure _
  · refine h.seq (h.writeOrClean blake3 _ _ _ _ _) fun r => ?_
    rcases r with err | _ <;> exact h.pure _

omit h in
theorem mergeEntries (hK : FaultIo.Frame K) (old : List FileEntry) :
    ∀ (entries : List FileEntry) (summary),
    (∀ f ∈ entries, AllowsMerge K (join gameDir f.name)) →
      Keeps K (mergeEntries blake3 gameDir tempDir old entries summary)
  | [], _, _ => hK.pure _
  | entry :: entries, summary, h =>
    hK.seq ((h entry List.mem_cons_self).mergeEntry blake3 _ _ old summary) fun _ =>
      mergeEntries hK old entries _ fun f hf => h f (List.mem_cons_of_mem _ hf)

end AllowsMerge

theorem keeps_deleteFiles (hK : FaultIo.Frame K) : ∀ (names : List String) (summary),
    (∀ name ∈ names, Keeps K (removeFile (join gameDir name) : FsIo Unit)) →
      Keeps K (deleteFiles gameDir names summary)
  | [], _, _ => hK.pure _
  | name :: names, summary, h => by
    have hrest := fun s => keeps_deleteFiles hK names s fun n hn => h n (List.mem_cons_of_mem _ hn)
    refine hK.seq (hK.quiet quiet_pathExists) fun b => ?_
    cases b
    · exact hrest _
    · exact hK.seq ((h name List.mem_cons_self).onErr _) fun _ => hrest _

theorem keeps_mergeFiles (hK : FaultIo.Frame K) (iter : IterOrder String) (new : GameIndex)
    (old : Option GameIndex) (hnew : ∀ f ∈ new.files, AllowsMerge K (join gameDir f.name))
    (hold : ∀ f ∈ filesOf old, Keeps K (removeFile (join gameDir f.name) : FsIo Unit)) :
    Keeps K (mergeFiles blake3 gameDir tempDir iter new old) := by
  refine hK.seq (AllowsMerge.mergeEntries blake3 gameDir tempDir hK _ _ _ hnew) fun _ => ?_
  refine keeps_deleteFiles _ hK _ _ fun name hname => ?_
  obtain ⟨⟨f, hf, rfl⟩, -⟩ := mem_namesDifference.1 ((iter.perm _).mem_iff.1 hname)
  exact hold f hf

end Calls

section Touches

variable {A : Access → Place → Prop}

/-- What the merge of a file with this target does. -/
structure Allows (A : Access → Place → Prop) (target : Path) : Prop where
  mkdir : ∀ q, q <+: target.dropLast → A .mkdir (resolve q)
  create : A .create (resolve (newPathOf target))
  remove : A .remove (resolve target)
  removeNew : A .remove (resolve (newPathOf target))
  rename : A .rename (resolve target)
  renameNew : A .rename (resolve (newPathOf target))

theorem Allows.merge {target : Path} (hopen : ∀ place, A .open place) (h : Allows A target) :
    AllowsMerge (Touches A) target where
  toFrame := Touches.frame
  opens _ := (ensures_openFile (hopen _)).keeps
  reads _ := keeps_readFile (hopen _)
  mkdir q hq := keeps_mkdir (h.mkdir q hq)
  create := ensures_createFile h.create
  write := keeps_writeInto h.create
  drop := keeps_removeFile h.removeNew
  remove := keeps_removeFile h.remove
  rename := keeps_renameFile h.renameNew h.rename

end Touches

section Names

theorem digitChar_ne_slash : ∀ n < 16, Nat.digitChar n ≠ '/' := by decide

theorem slash_notMem_hexFixed : ∀ w n, '/' ∉ hexFixed w n
  | 0, _ => by simp [hexFixed]
  | w + 1, n => by
    have hd := digitChar_ne_slash (n % 16) (Nat.mod_lt n (by decide))
    simp [hexFixed, slash_notMem_hexFixed w, Ne.symm hd]

theorem toList_blockName (hash : Hash) :
    (blockName hash).toList = hexChars hash.bytes ++ ".blk".toList := by
  simp [blockName, hex]

theorem slash_notMem_blockName (hash : Hash) : '/' ∉ (blockName hash).toList := by
  simp [toList_blockName, hexChars, slash_notMem_hexFixed]

theorem components_blockName (hash : Hash) :
    components (blockName hash) = [.normal (blockName hash).toList] := by
  have hlen : 4 ≤ (blockName hash).toList.length := by simp [toList_blockName]
  refine components_of_name (slash_notMem_blockName hash) ?_ ?_ ?_ <;>
    (intro h; rw [h] at hlen; simp at hlen)

theorem tempBlock_eq (dir : Path) (hash : Hash) :
    tempBlock dir hash = dir ++ [.normal (blockName hash).toList] := by
  simp [tempBlock, join, isAbsolute_of_name (slash_notMem_blockName hash), components_blockName]

end Names

section Confined

/-- What a merge may touch: below the game's directory, and the way to it. Opening a file changes
nothing. -/
def MergeAccess (gameDir : Path) : Access → Place → Prop
  | .open, _ => True
  | .mkdir, place => resolve gameDir <+: place ∨ ∃ q, q <+: gameDir ∧ place = resolve q
  | _, place => ∃ q, q ≠ [] ∧ place = resolve gameDir ++ q

/-- What a chunk source may touch: it opens files below the game's directories. -/
def ReadAccess (gameDir tempDir : Path) : Access → Place → Prop
  | .open, place => ∃ q, q ≠ [] ∧ (place = resolve gameDir ++ q ∨ place = resolve tempDir ++ q)
  | _, _ => False

theorem allows_confined (gameDir : Path) {name : String} (h : Confined name) :
    Allows (MergeAccess gameDir) (join gameDir name) := by
  have htarget := h.resolve_join gameDir
  have hnew := h.resolve_withExtension gameDir "new".toList
  refine ⟨fun q hq => ?_, hnew, htarget, hnew, htarget, hnew⟩
  rcases h.resolve_prefix gameDir hq with hq | hq
  · exact .inr ⟨q, hq, rfl⟩
  · exact .inl hq

theorem mem_chunkLocations {files : List FileEntry} {hash : Hash} {loc : String × ℕ × UInt32}
    (h : (chunkLocations files).lookup hash = some loc) : ∃ f ∈ files, f.name = loc.1 := by
  have hmem : (hash, loc) ∈ chunkLocations files := by
    obtain ⟨l₁, l₂, hl, -⟩ := List.lookup_eq_some_iff.1 h
    simp [hl]
  simp only [chunkLocations, List.mem_flatMap, List.mem_map, Prod.mk.injEq] at hmem
  obtain ⟨f, hf, e, -, -, rfl⟩ := hmem
  exact ⟨f, hf, rfl⟩

theorem quiet_readRange (file : Place) (offset : ℕ) (len : UInt32) :
    Quiet (CafeStore.readRange file offset len) :=
  Quiet.bind (quiet_context quiet_flushFile) fun _ =>
    quiet_context (quiet_readLoop _ (quiet_readFrom file) _ _)

theorem keeps_readChunk (dataDir : Path) (gameId : UInt64) (index : Option GameIndex)
    (hash : Hash) (h : ∀ f ∈ filesOf index, Confined f.name) :
    Keeps (Touches (ReadAccess (gameDir dataDir gameId) (tempDir dataDir gameId)))
      (CafeStore.readChunk ⟨gameId, dataDir, index.map fun m => chunkLocations m.files⟩ hash) := by
  have htemp : ∃ q, q ≠ [] ∧
      resolve (tempBlock (tempDir dataDir gameId) hash)
        = resolve (tempDir dataDir gameId) ++ q := by
    refine ⟨[(blockName hash).toList], by simp, ?_⟩
    rw [tempBlock_eq, resolve_append]
    rfl
  refine keeps_seq (keeps_quiet quiet_isFile) fun b => ?_
  cases b
  · simp only [Bool.false_eq_true, if_false]
    split
    · exact keeps_quiet (Quiet.pure _)
    rename_i loc hloc
    obtain ⟨f, hf, hname⟩ : ∃ f ∈ filesOf index, f.name = loc.1 := by
      rcases index with _ | m
      · cases hloc
      · exact mem_chunkLocations hloc
    obtain ⟨q, hq, hplace⟩ := (h f hf).resolve_join (gameDir dataDir gameId)
    rw [hname] at hplace
    have hfile : Keeps (Touches (ReadAccess (gameDir dataDir gameId) (tempDir dataDir gameId)))
        (openFile (join (gameDir dataDir gameId) loc.1) : FsIo Place) :=
      (ensures_openFile ⟨q, hq, .inl hplace⟩).keeps
    refine keeps_seq hfile.attempt fun r => ?_
    rcases r with e | file
    · exact keeps_quiet (Quiet.pure _)
    · exact keeps_quiet (Quiet.bind (quiet_readRange _ _ _) fun _ => Quiet.pure _)
  · obtain ⟨q, hq, hplace⟩ := htemp
    exact keeps_seq ((keeps_readFile ⟨q, hq, .inr hplace⟩).onErr _) fun _ =>
      keeps_quiet (Quiet.pure _)

/-- A version whose names stay below the directory they are joined to is merged and served within
it, on every disk and under every schedule of faults. -/
theorem confined_names_stay_inside (blake3 : Bytes → Hash) (new : GameIndex)
    (old : Option GameIndex) (hnew : ∀ f ∈ new.files, Confined f.name)
    (hold : ∀ f ∈ filesOf old, Confined f.name) :
    (∀ (gameDir tempDir : Path) (iter : IterOrder String) (d : Disk)
      (faults : List (Fault AnyError)),
      Touches (MergeAccess gameDir) d
        ((mergeFiles blake3 gameDir tempDir iter new old).run ⟨d, faults⟩).2.state)
    ∧ ∀ (dataDir : Path) (gameId : UInt64) (hash : Hash) (d : Disk)
      (faults : List (Fault AnyError)),
      Touches (ReadAccess (gameDir dataDir gameId) (tempDir dataDir gameId)) d
        ((CafeStore.readChunk ⟨gameId, dataDir, old.map fun m => chunkLocations m.files⟩ hash).run
          ⟨d, faults⟩).2.state := by
  refine ⟨fun gameDir tempDir iter d faults => ?_, fun dataDir gameId hash d faults => ?_⟩
  · refine Keeps.run (keeps_mergeFiles blake3 gameDir tempDir Touches.frame iter new old
      (fun f hf => (allows_confined gameDir (hnew f hf)).merge fun _ => trivial) fun f hf => ?_)
      d faults
    exact keeps_removeFile (allows_confined gameDir (hold f hf)).remove
  · exact Keeps.run (keeps_readChunk dataDir gameId old hash hold) d faults

theorem confined_names_stay_inside_nested :
    Confined "bin/a.dat" ∧ Confined "b/../c"
    ∧ Touches (MergeAccess [.normal ['g']]) (.ofList [([], .dir)])
      ((mergeFiles (fun bytes => .fill (UInt8.ofNat bytes.length)) [.normal ['g']] [.normal ['t']]
        ⟨id, fun _ => .refl _⟩ ⟨1, [⟨"bin/a.dat", .fill 0, []⟩], .fill 0⟩
        (some ⟨1, [⟨"b/../c", .fill 0, []⟩], .fill 0⟩)).run
          ⟨.ofList [([], .dir)], []⟩).2.state := by
  have ha : Confined "bin/a.dat" := ⟨by decide, 1, by decide⟩
  have hc : Confined "b/../c" := ⟨by decide, 0, by decide⟩
  refine ⟨ha, hc, (confined_names_stay_inside _ _ _ ?_ ?_).1 _ _ _ _ _⟩
  · simpa using ha
  · simpa [filesOf] using hc

/-- A chunk that only the map of the current version knows is read from the file it names. -/
theorem exec_readChunk_real {self : CafeStore} {hash : Hash} {loc : String × ℕ × UInt32} {d : Disk}
    {place : Place}
    (htemp : d.isFile (tempBlock (tempDir self.dataDir self.gameId) hash) = false)
    (hloc : (self.current.bind fun map => map.lookup hash) = some loc)
    (hfind : d.find (join (gameDir self.dataDir self.gameId) loc.1) = .ok place)
    (hnode : d.node place ≠ none) : (exec (self.readChunk hash) d).2 = d.note place .open := by
  have hopen : exec (openFile (join (gameDir self.dataDir self.gameId) loc.1) : FsIo Place) d
      = (.ok place, d.note place .open) := exec_openFile hfind hnode
  have hread : Quiet (CafeStore.readRange place loc.2.1 loc.2.2 >>= fun data =>
      (pure (some data) : FsIo _)) := Quiet.bind (quiet_readRange _ _ _) fun _ => Quiet.pure _
  unfold CafeStore.readChunk
  simp only [exec_bind, exec_isFile, htemp, hloc, Bool.false_eq_true, if_false]
  rw [CafeStore.readReal, exec_bind, exec_attempt, hopen]
  exact hread.exec _

/-- A file next to the game's directory, as a manifest can name it. -/
def climbingFile : FileEntry := ⟨"../x", .fill 0, [⟨.fill 1, 0⟩]⟩

/-- A game's directory with that file beside it. -/
def besideGame : Disk := .ofList [([], .dir), ([['d']], .dir), ([['d'], "games".toList], .dir),
  ([['d'], "games".toList, ['1']], .dir), ([['d'], "games".toList, ['x']], .file [])]

theorem decode_climbing (blake3 : Bytes → Hash) :
    GameIndex.decode blake3 (GameIndex.build blake3 [climbingFile]).encode
      = .ok (GameIndex.build blake3 [climbingFile]) := by
  refine (decode_eq_ok blake3).2 ⟨0, build_layout blake3 (by decide) ?_⟩
  simp only [List.mem_singleton, forall_eq]
  exact ⟨by decide, by decide⟩

/-- Whatever the hash function, a manifest that `decode` accepts makes a merge create a file, and a
chunk source open one, outside the directories. -/
theorem climbing_name_escapes :
    (¬ ∃ blake3 : Bytes → Hash, ∀ (bytes : Bytes) (new : GameIndex),
      GameIndex.decode blake3 bytes = .ok new →
      ∀ (gameDir tempDir : Path) (iter : IterOrder String) (d : Disk),
        Touches (MergeAccess gameDir) d
          (exec (mergeFiles blake3 gameDir tempDir iter new none) d).2)
    ∧ ¬ ∃ blake3 : Bytes → Hash, ∀ (bytes : Bytes) (index : GameIndex),
      GameIndex.decode blake3 bytes = .ok index →
      ∀ (dataDir : Path) (gameId : UInt64) (hash : Hash) (d : Disk),
        Touches (ReadAccess (gameDir dataDir gameId) (tempDir dataDir gameId)) d
          (exec (CafeStore.readChunk ⟨gameId, dataDir, some (chunkLocations index.files)⟩ hash) d).2
    := by
  constructor
  · rintro ⟨blake3, h⟩
    have hlog := (h _ _ (decode_climbing blake3) [.normal ['g']] [.normal ['t']]
      ⟨id, fun _ => .refl _⟩ (.ofList [([], .dir), ([['g']], .dir)])).log
    have hrun : (exec (mergeFiles blake3 [.normal ['g']] [.normal ['t']] ⟨id, fun _ => .refl _⟩
        (GameIndex.build blake3 [climbingFile]) none) (.ofList [([], .dir), ([['g']], .dir)])).2.log
        = [(.remove, ["x.new".toList]), (.create, ["x.new".toList])] := rfl
    rw [hrun] at hlog
    rcases hlog (.create, ["x.new".toList]) (by simp) with hnil | ⟨q, -, hq⟩
    · cases hnil
    · exact absurd (List.cons.inj hq).1 (by decide)
  · rintro ⟨blake3, h⟩
    have hlog := (h _ _ (decode_climbing blake3) [.normal ['d']] 1 (.fill 1) besideGame).log
    have htemp : besideGame.isFile (tempBlock (tempDir [.normal ['d']] 1) (.fill 1)) = false := by
      decide
    have hfind : besideGame.find (join (gameDir [.normal ['d']] 1) "../x")
        = .ok [['d'], "games".toList, ['x']] := by decide
    have hgame : resolve (gameDir [.normal ['d']] 1) = [['d'], "games".toList, ['1']] := by decide
    have htempDir : resolve (tempDir [.normal ['d']] 1)
        = [['d'], ".blazenet".toList, "temp".toList, ['1']] := by decide
    have hloc : (chunkLocations [climbingFile]).lookup (.fill 1) = some ("../x", 0, 0) := by decide
    have hrun : (exec (CafeStore.readChunk
      ⟨1, [.normal ['d']], some (chunkLocations [climbingFile])⟩
        (.fill 1)) besideGame).2 = besideGame.note [['d'], "games".toList, ['x']] .open :=
      exec_readChunk_real htemp hloc hfind (by decide)
    rw [show (GameIndex.build blake3 [climbingFile]).files = [climbingFile] from rfl, hrun] at hlog
    rcases hlog (.open, [['d'], "games".toList, ['x']]) List.mem_cons_self
      with hnil | ⟨q, -, hq | hq⟩
    · cases hnil
    · simp [hgame] at hq
    · simp [htempDir] at hq

end Confined

end BlazeNet
