import BlazeNet.CafeOrder
import BlazeNet.Lib.FsTree
import BlazeNet.Proofs.Delivery
import BlazeNet.Proofs.DownloadSources
import BlazeNet.Proofs.Rounds
import BlazeNet.Proofs.TempHashes

/-!
# A task that nothing disturbs goes through

Each phase of a task keeps the cafe in order: the directories are made where they are missing, a
download adds blocks that have their hashes, the merge turns the old version into the new one, and
the save records it. So one version after another is installed (`undisturbed_tasks_install`).
-/

namespace BlazeNet

open Wire FaultIo Io RustStd UnixFs

variable {blake3 : Bytes → Hash} {bytes : Hash → Bytes} {p : Place} {gameId : UInt64}
  {old : Option GameIndex} {d d' : Disk}

section Places

theorem gameDir_place : gameDir (ofPlace p) gameId = ofPlace (gamePlace p gameId) :=
  gameDir_ofPlace p gameId

theorem tempDir_place : tempDir (ofPlace p) gameId = ofPlace (tempPlace p gameId) :=
  tempDir_ofPlace p gameId

theorem resolve_pointer : resolve (currentVersionPath (ofPlace p) gameId)
    = manifestsPlace p gameId ++ ["current.version".toList] := by
  have hpath := currentVersionPath_eq ⟨gameId, ofPlace p, none⟩
  have hhidden := resolve_hidden ⟨gameId, ofPlace p, none⟩
  dsimp only at hpath hhidden
  rw [hpath, resolve_base, hhidden, resolve_ofPlace, manifestsPlace, List.append_assoc,
    List.append_assoc]
  rfl

theorem manifestDir_ofPlace :
    manifestDir (ofPlace p) gameId = ofPlace (manifestsPlace p gameId) := by
  have hpath := manifestDir_eq ⟨gameId, ofPlace p, none⟩
  dsimp only at hpath
  rw [hpath, CafeStore.base, join_name _ (by decide) (by decide) (by decide) (by decide),
    List.append_assoc, ← ofPlace_append, ← ofPlace_append]
  rfl

theorem manifestPath_ofPlace (current : Option ChunkLocation) (version : UInt64) :
    (CafeStore.mk gameId (ofPlace p) current).manifestPath version
      = ofPlace (manifestsPlace p gameId ++ [versionName version]) := by
  rw [CafeStore.manifestPath, manifestDir_ofPlace, join_versionName, ofPlace_append]

theorem currentVersionPath_ofPlace : currentVersionPath (ofPlace p) gameId
    = ofPlace (manifestsPlace p gameId ++ ["current.version".toList]) := by
  rw [currentVersionPath, manifestDir_ofPlace,
    join_name _ (by decide) (by decide) (by decide) (by decide), ofPlace_append]

/-- One of the directories that a task makes. -/
def WayOf (p : Place) (gameId : UInt64) (way : Place) : Prop :=
  way = gamePlace p gameId ∨ way = tempPlace p gameId ∨ way = manifestsPlace p gameId

/-- What lies right in the directories of the blocks and of the manifests is on no way. -/
theorem not_prefix_way {way : Place} (hway : WayOf p gameId way) (name : Name) :
    ¬ tempPlace p gameId ++ [name] <+: way ∧ ¬ manifestsPlace p gameId ++ [name] <+: way := by
  rcases hway with rfl | rfl | rfl <;> constructor <;> intro h <;>
    simpa [gamePlace, tempPlace, manifestsPlace] using h.length_le

end Places

section Frames

theorem BlocksInOrder.congr {t : Place} (h : BlocksInOrder blake3 t d)
    (hsame : ∀ name, d'.node (t ++ [name]) = d.node (t ++ [name])) : BlocksInOrder blake3 t d' where
  names name hname := h.names name (hsame name ▸ hname)
  blocks hash := by
    rw [blockPlace, hsame]
    exact h.blocks hash

/-- Which version is recorded depends on the files of its directory alone. -/
theorem CafeInOrder.record_congr (h : CafeInOrder blake3 bytes p gameId old d)
    (hsame : ∀ name, d'.content (manifestsPlace p gameId ++ [name])
      = d.content (manifestsPlace p gameId ++ [name])) :
    (old = none → d'.content (resolve (currentVersionPath (ofPlace p) gameId)) = none)
      ∧ ∀ index ∈ old, ∃ version manifest,
        (CafeStore.mk gameId (ofPlace p) none).storedVersion d' = some version
        ∧ (CafeStore.mk gameId (ofPlace p) none).storedManifest version d' = some manifest
        ∧ GameIndex.decode blake3 manifest = .ok index := by
  refine ⟨fun hold => ?_, fun index hindex => ?_⟩
  · rw [resolve_pointer, hsame, ← resolve_pointer]
    exact h.unrecorded hold
  · obtain ⟨version, manifest, hversion, hmanifest, hdecode⟩ := h.recorded index hindex
    refine ⟨version, manifest, ?_, ?_, hdecode⟩
    · rw [← hversion]
      simp only [CafeStore.storedVersion, resolve_pointer, hsame]
    · rw [← hmanifest]
      simp only [CafeStore.storedManifest, manifestPath_ofPlace, resolve_ofPlace, hsame]

end Frames

section Dirs

/-- The directories on one of the ways are made. -/
theorem CafeInOrder.dirs (h : CafeInOrder blake3 bytes p gameId old d) {way : Place}
    (hway : WayOf p gameId way) (hwf : d'.Wf)
    (hnode : ∀ q, d'.node q = if q <+: way then some .dir else d.node q) :
    CafeInOrder blake3 bytes p gameId old d' := by
  have hcontent : ∀ q, d'.content q = d.content q := fun q => by
    by_cases hq : q <+: way
    · have hfree : d.content q = none := h.ways q (by rcases hway with rfl | rfl | rfl <;> tauto)
      rw [hfree, Disk.content, hnode, if_pos hq]
    · rw [Disk.content, Disk.content, hnode, if_neg hq]
  obtain ⟨hunrecorded, hrecorded⟩ := h.record_congr fun name => hcontent _
  refine ⟨hwf, fun q hq => (hcontent q).trans (h.ways q hq), fun name => ?_, hunrecorded, hrecorded,
    h.known, fun q => (hcontent _).trans (h.files q), h.blocks.congr fun name => ?_⟩
  · rw [hnode, if_neg (not_prefix_way hway name).2]
    exact h.records name
  · rw [hnode, if_neg (not_prefix_way hway name).1]

/-- The directories that a task sees to first are there. -/
theorem CafeInOrder.exec_cafeDirs (h : CafeInOrder blake3 bytes p gameId old d)
    (opened : Option CafeStore)
    (hopened : opened.isSome → d.node (gamePlace p gameId) = some .dir) :
    ∃ d', exec (cafeDirs (ofPlace p) gameId opened) d = (.ok (), d')
      ∧ CafeInOrder blake3 bytes p gameId old d' ∧ d'.node (gamePlace p gameId) = some .dir
      ∧ d'.node (tempPlace p gameId) = some .dir
      ∧ ∀ q, d'.node q = d.node q ∨ q <+: gamePlace p gameId ∨ q <+: tempPlace p gameId := by
  have hmk : ∀ (e : Disk) (way : Place), CafeInOrder blake3 bytes p gameId old e →
      WayOf p gameId way → ∃ e', exec (createDirAll (ofPlace way) : FsIo Unit) e = (.ok (), e')
        ∧ CafeInOrder blake3 bytes p gameId old e'
        ∧ ∀ q, e'.node q = if q <+: way then some .dir else e.node q := fun e way he hway => by
    have hfree : ∀ q, q <+: way → e.content q = none := fun q hq =>
      he.ways q (by rcases hway with rfl | rfl | rfl <;> tauto)
    obtain ⟨e', hrun, hwf, hnode⟩ := @exec_createDirAll AnyError _ _ _ he.wf hfree
    exact ⟨e', hrun, he.dirs hway hwf hnode, hnode⟩
  obtain ⟨d₁, hrun₁, h₁, hnode₁⟩ := hmk _ _ h (.inr (.inl rfl))
  unfold cafeDirs
  rw [gameDir_place, tempDir_place, exec_bind, exec_context_ok hrun₁]
  rcases opened with _ | cafe
  · obtain ⟨d₂, hrun₂, h₂, hnode₂⟩ := hmk _ _ h₁ (.inl rfl)
    obtain ⟨d₃, hrun₃, h₃, hnode₃⟩ := hmk _ _ h₂ (.inr (.inl rfl))
    refine ⟨d₃, ?_, h₃, ?_, ?_, fun q => ?_⟩
    · dsimp only
      rw [exec_bind, exec_context_ok hrun₂]
      exact exec_context_ok hrun₃
    · rw [hnode₃, hnode₂, if_pos (List.prefix_refl _), ite_self]
    · rw [hnode₃, if_pos (List.prefix_refl _)]
    · rw [hnode₃, hnode₂, hnode₁]
      split_ifs <;> tauto
  · refine ⟨d₁, rfl, h₁, ?_, ?_, fun q => ?_⟩
    · rw [hnode₁, hopened rfl, ite_self]
    · rw [hnode₁, if_pos (List.prefix_refl _)]
    · rw [hnode₁]
      split_ifs <;> tauto

end Dirs

section Prepare

variable {index : GameIndex} {opened : Option CafeStore} {temp : HashSet Hash}

/-- In a directory that is in order the listing finds the blocks. -/
theorem exec_collectTempHashes {t : Place} (hd : d.Wf) (ht : d.node t = some .dir)
    (h : BlocksInOrder blake3 t d) : ∃ temp, exec (collectTempHashes (ofPlace t)) d = (.ok temp, d)
      ∧ ∀ hash, hash ∈ temp ↔ d.node (blockPlace t hash) ≠ none := by
  have hlist := run_nil (readDir (ofPlace t) : FsIo (List Name)) d
  rw [exec_readDir hd ht] at hlist
  -- a name that spells a hash, or is cut, is that of a block
  have hname : ∀ stem, stem ++ ".blk".toList ∈ d.children t →
      ¬ CutInside stem ∧ ∀ hash, Spells stem hash → stem = hexChars hash.bytes := by
    intro stem hstem
    rw [← parseHex_eq_error]
    rcases h.names _ (mem_children.1 hstem) with hnone | ⟨hash, hhash⟩
    · rw [tempHash_of_stem] at hnone
      refine ⟨by rw [hnone]; simp, fun hash hs => ?_⟩
      rw [← parseHex_eq_some, hnone] at hs
      cases hs
    · rw [toList_blockName] at hhash
      obtain rfl := List.append_cancel_right hhash
      refine ⟨?_, fun hash' hs => by rw [hs.unique (spells_hexChars hash)]⟩
      rw [parseHex_eq_some.2 (spells_hexChars hash)]
      simp
  rcases run_collectTempHashes hlist with ⟨⟨stem, hstem, hcut⟩, -⟩ | ⟨-, temp, hrun, hspell⟩
  · exact absurd hcut (hname stem hstem).1
  · rw [run_nil, Prod.mk.injEq, World.mk.injEq] at hrun
    refine ⟨temp, Prod.ext hrun.1 hrun.2.1, fun hash => ?_⟩
    rw [hspell, blockPlace, ← mem_children, toList_blockName]
    constructor
    · rintro ⟨stem, hstem, hs⟩
      rwa [(hname stem hstem).2 hash hs] at hstem
    · exact fun hmem => ⟨_, hmem, spells_hexChars hash⟩

theorem looks_repairChunks (dir : Path) : ∀ (files : List FileEntry) (repair : HashSet Hash),
    Looks (repairChunks dir files repair)
  | [], _ => Looks.pure _
  | _ :: files, _ => Looks.isFile.bind fun there => by
    cases there
    · exact looks_repairChunks dir files _
    · exact looks_repairChunks dir files _

/-- What a plan has found out. -/
theorem planCafe_ready {dataDir : Path} {cafe : CafeStore} {ready : CafeReady}
    (hrun : exec (planCafe blake3 dataDir gameId index cafe) d = (.ok ready, d')) :
    ready.cafe = cafe ∧ (exec (cafe.currentManifestBytes >>= decodeOld blake3) d).1 = .ok ready.old
      ∧ (exec (collectTempHashes (tempDir dataDir gameId)) d).1 = .ok ready.temp
      ∧ ∃ log, d' = d.relog log := by
  obtain ⟨found, d₁, hbytes, hrun⟩ := exec_bind_ok hrun
  obtain ⟨old, d₂, hold, hrun⟩ := exec_bind_ok hrun
  obtain ⟨temp, d₃, htemp, hrun⟩ := exec_bind_ok hrun
  obtain ⟨repair, d₄, hrepair, hrun⟩ := exec_bind_ok hrun
  have hlast := hrun
  rw [exec_pure, Prod.mk.injEq, Except.ok.injEq] at hlast
  obtain ⟨rfl, rfl⟩ := hlast
  obtain ⟨log₁, h₁⟩ := (looks_currentManifestBytes cafe).here d
  rw [hbytes] at h₁
  obtain rfl : d₁ = d.relog log₁ := congrArg Prod.snd h₁
  have hdecodes : Looks (decodeOld blake3 found) := looks_decodeOld found
  obtain ⟨log₂, h₂⟩ := hdecodes d log₁
  rw [hold] at h₂
  obtain rfl : d₂ = d.relog log₂ := congrArg Prod.snd h₂
  obtain ⟨log₃, h₃⟩ := looks_collectTempHashes (tempDir dataDir gameId) d log₂
  rw [htemp] at h₃
  obtain rfl : d₃ = d.relog log₃ := congrArg Prod.snd h₃
  obtain ⟨log₄, h₄⟩ := looks_repairChunks (gameDir dataDir gameId) index.files HashSet.empty d log₃
  rw [hrepair] at h₄
  refine ⟨rfl, ?_, (congrArg Prod.fst h₃).symm, log₄, congrArg Prod.snd h₄⟩
  rw [exec_bind, hbytes]
  simp only [hold]

theorem looks_setCurrent (self : CafeStore) (manifest : Bytes) :
    Looks (self.setCurrent blake3 manifest) := by
  unfold CafeStore.setCurrent
  rcases GameIndex.decode blake3 manifest with e | index
  · exact Looks.stop _
  · exact Looks.pure _

/-- Which manifest is in place does not depend on the map of the store. -/
theorem currentManifestBytes_cafeOf {dataDir : Path} {current : Option (Option ChunkLocation)}
    (map : Option ChunkLocation) :
    (cafeOf dataDir gameId (current.map (⟨gameId, dataDir, ·⟩))).currentManifestBytes
      = (CafeStore.mk gameId dataDir map).currentManifestBytes := by
  rcases current with _ | map' <;> rfl

/-- What `run_cafe` has found out in a state when it asks for chunks. -/
theorem prepareCafe_ready {dataDir : Path} {current : Option (Option ChunkLocation)} {start : Disk}
    {ready : CafeReady}
    (h : CafeState blake3 dataDir gameId (current.map (⟨gameId, dataDir, ·⟩)) start d old temp)
    (hrun : exec (prepareCafe blake3 dataDir gameId (current.map (⟨gameId, dataDir, ·⟩)) index)
      start = (.ok ready, d')) :
    OfGame dataDir gameId ready.cafe ∧ ready.old = old ∧ ready.temp = temp
      ∧ ∃ log, d' = d.relog log := by
  have hdirs := h.dirs
  unfold cafeDirs at hdirs
  obtain ⟨⟨⟩, d₁, htempDir, hdirs⟩ := exec_bind_ok hdirs
  rw [prepareCafe, exec_bind, htempDir] at hrun
  dsimp only at hrun
  obtain ⟨cafe, d₂, hof, ⟨log, rfl⟩, hplan⟩ : ∃ cafe d₂, OfGame dataDir gameId cafe
      ∧ (∃ log, d₂ = d.relog log)
      ∧ exec (planCafe blake3 dataDir gameId index cafe) d₂ = (.ok ready, d') := by
    rcases current with _ | map
    · obtain ⟨cafe, d₂, hcafe, hplan⟩ := exec_bind_ok hrun
      have hensures : Ensures (UnixFs.Within fun _ => False) (OfGame dataDir gameId)
        (CafeStore.openStore blake3 dataDir gameId) := ensures_openStore
      have hof := (hensures (fun _ => True) d₁ [] (by simp)).2 cafe
      rw [run_nil, hcafe] at hof
      refine ⟨cafe, d₂, hof rfl, ?_, hplan⟩
      obtain ⟨⟨⟩, e₁, hgame, hcafe⟩ := exec_bind_ok hcafe
      obtain ⟨⟨⟩, e₂, htemp, hcafe⟩ := exec_bind_ok hcafe
      obtain ⟨⟨⟩, e₃, hgame', hdirs⟩ := exec_bind_ok hdirs
      obtain ⟨-, rfl⟩ := Prod.mk.inj (hgame.symm.trans hgame')
      obtain ⟨-, rfl⟩ := Prod.mk.inj (htemp.symm.trans hdirs)
      obtain ⟨found, e₄, hbytes, hcafe⟩ := exec_bind_ok hcafe
      obtain ⟨log, hlog⟩ := (looks_currentManifestBytes ⟨gameId, dataDir, none⟩).here e₂
      rw [hbytes] at hlog
      obtain rfl : e₄ = e₂.relog log := congrArg Prod.snd hlog
      rcases found with _ | bytes
      · exact ⟨log, (congrArg Prod.snd hcafe).symm⟩
      · have hlooks : Looks (CafeStore.setCurrent blake3 ⟨gameId, dataDir, none⟩ bytes) :=
          looks_setCurrent ⟨gameId, dataDir, none⟩ bytes
        obtain ⟨log', hlog'⟩ := hlooks e₂ log
        exact ⟨log', congrArg Prod.snd (hcafe.symm.trans hlog')⟩
    · obtain ⟨cafe, d₂, hcafe, hplan⟩ := exec_bind_ok hrun
      obtain ⟨hmap, rfl⟩ := Prod.mk.inj hcafe
      obtain ⟨-, rfl⟩ := Prod.mk.inj hdirs
      exact ⟨cafe, d₁, Except.ok.inj hmap ▸ ⟨rfl, rfl⟩, ⟨d₁.log, rfl⟩, hplan⟩
  obtain ⟨hstore, hold, htemp, log', rfl⟩ := planCafe_ready hplan
  obtain ⟨id, dir, map⟩ := cafe
  obtain ⟨rfl, rfl⟩ := hof
  refine ⟨hstore ▸ ⟨rfl, rfl⟩, ?_, ?_, log', rfl⟩
  · have holds : Looks ((CafeStore.mk id dir map).currentManifestBytes >>= decodeOld blake3) :=
      (looks_currentManifestBytes _).bind looks_decodeOld
    obtain ⟨_, hlooks⟩ := holds d log
    rw [hlooks] at hold
    have hsame := h.old
    rw [currentManifestBytes_cafeOf map] at hsame
    dsimp only at hold
    rw [hsame] at hold
    exact (Except.ok.inj hold).symm
  · obtain ⟨_, hlooks⟩ := looks_collectTempHashes (tempDir dir id) d log
    have hsame := h.temp
    rw [hlooks] at htemp
    dsimp only at htemp
    rw [hsame] at htemp
    exact (Except.ok.inj htemp).symm

/-- A cafe in order, once the task has asked what it needs. -/
structure Asked (blake3 : Bytes → Hash) (bytes : Hash → Bytes) (p : Place) (gameId : UInt64)
    (old : Option GameIndex) (index : GameIndex) (d d' : Disk) (ready : CafeReady) : Prop where
  order : CafeInOrder blake3 bytes p gameId old d'
  game : d'.node (gamePlace p gameId) = some .dir
  temp : d'.node (tempPlace p gameId) = some .dir
  store : OfGame (ofPlace p) gameId ready.cafe
  version : ready.old = old
  blocks : ∀ hash, hash ∈ ready.temp ↔ d'.node (blockPlace (tempPlace p gameId) hash) ≠ none
  asks : ∀ hash ∈ (UpdatePlan.compute index old ready.temp).chunksToDownload, hash ∈ ready.missing
  nodes : ∀ q, d'.node q = d.node q ∨ q <+: gamePlace p gameId ∨ q <+: tempPlace p gameId

theorem CafeInOrder.exec_old (h : CafeInOrder blake3 bytes p gameId old d)
    (htemp : d.node (tempPlace p gameId) = some .dir) (current : Option ChunkLocation) :
    (exec ((CafeStore.mk gameId (ofPlace p) current).currentManifestBytes >>= decodeOld blake3) d).1
      = .ok old := by
  have hdir : d.isDir (tempDir (ofPlace p) gameId) := by
    rw [tempDir_place, h.wf.isDir_ofPlace]
    exact decide_eq_true htemp
  have hbase : d.isDir (CafeStore.mk gameId (ofPlace p) current).base := isDir_base hdir
  rcases old with _ | index
  · rw [exec_bind, exec_currentManifestBytes_none h.wf hbase (h.unrecorded rfl)]
    rfl
  · obtain ⟨version, manifest, hversion, hmanifest, hdecode⟩ := h.recorded index rfl
    obtain ⟨-, log, -, hrun⟩ := exec_currentManifestBytes_some (v := version) (b := manifest) h.wf
      hbase ⟨hversion, hmanifest⟩
    rw [exec_bind, hrun]
    simp only [decodeOld, hdecode]
    rfl

theorem CafeInOrder.prepare (h : CafeInOrder blake3 bytes p gameId old d)
    (current : Option (Option ChunkLocation))
    (hopened : current.isSome → d.node (gamePlace p gameId) = some .dir) (index : GameIndex) :
    ∃ ready d', exec (prepareCafe blake3 (ofPlace p) gameId
        (current.map (⟨gameId, ofPlace p, ·⟩)) index) d = (.ok ready, d')
      ∧ Asked blake3 bytes p gameId old index d d' ready := by
  obtain ⟨d₁, hdirs, h₁, hgame, htemp, hnode⟩ :=
    h.exec_cafeDirs (current.map (⟨gameId, ofPlace p, ·⟩)) (by simpa using hopened)
  obtain ⟨temp, hlist, hmem⟩ := exec_collectTempHashes h₁.wf htemp h₁.blocks
  have hstate : CafeState blake3 (ofPlace p) gameId (current.map (⟨gameId, ofPlace p, ·⟩)) d d₁ old
      temp := by
    refine ⟨hdirs, ?_, ?_⟩
    · rw [currentManifestBytes_cafeOf none]
      exact h₁.exec_old htemp none
    · rw [tempDir_place, hlist]
  obtain ⟨ready, d', hrun, hmissing⟩ := exec_prepareCafe index hstate
  obtain ⟨hstore, hold, rfl, log, rfl⟩ := prepareCafe_ready hstate hrun
  exact ⟨ready, d₁.relog log, hrun, ⟨h₁.wf.congr fun _ => rfl, h₁.ways, h₁.records, h₁.unrecorded,
    h₁.recorded, h₁.known, h₁.files, h₁.blocks.names, h₁.blocks.blocks⟩, hgame, htemp, hstore, hold,
    hmem, fun hash hh => (hmissing hash).2 (.inl hh), hnode⟩

end Prepare

section Fetch

/-- An event makes calls of the sink only for chunks of its fetch. -/
def OwnChunks {τ : Type} (blake3 : Bytes → Hash) (task : FetchTask) (e : Event) (_ : τ) : Prop :=
  ∀ hash data, Delivers blake3 task e hash data → hash ∈ task.hashes

section Own

variable {τ Sock : Type} {net : NetText Sock} {sink : Hash → Bytes → Io AnyError τ Unit}

theorem along_own : ∀ (events : List Event) (pool : Pool τ), (∀ task ∈ pool.tasks, task.Sound) →
    Pool.Along blake3 sink (OwnChunks blake3) events pool
  | [], _, _ => trivial
  | _ :: events, _, hs => ⟨fun task htask _ _ hdelivers =>
      mem_hashes_of_delivers (hs task (List.mem_of_getElem? htask)) hdelivers,
    fun pool' h => along_own events pool' (Pool.sound_step hs h)⟩

theorem roundsAlong_own : ∀ (inputs : List RoundInput) (exclude : List String)
    (unresolved : List Hash) (s : τ),
    RoundsAlong net blake3 sink (OwnChunks blake3) inputs exclude unresolved s
  | [], _, _, _ => trivial
  | _ :: inputs, _, _, s => ⟨fun groups _ _ => along_own _ _
      (fun task htask => by
        obtain ⟨group, -, rfl⟩ := List.mem_map.1 htask
        exact fun _ hh => hh),
    fun r s' _ => roundsAlong_own inputs r.exclude r.unresolved s'⟩

end Own

variable (p gameId) in
/-- A call of the sink leaves the other places as they are. -/
theorem touches_cafeSink (hash : Hash) (data : Bytes) :
    Keeps (Touches fun a q => a = .open ∨ q = blockPlace (tempPlace p gameId) hash)
      (cafeSink (ofPlace p) gameId hash data) := by
  refine (keeps_writeFile ?_ data).onErr _
  rw [tempDir_place, tempBlock_ofPlace, resolve_ofPlace]
  exact .inr rfl

theorem node_cafeSink {hash : Hash} {data : Bytes} {w w' : World AnyError Disk}
    {r : Except (Stop AnyError) Unit}
    (hrun : (cafeSink (ofPlace p) gameId hash data).run w = (r, w')) {q : Place}
    (hq : q ≠ blockPlace (tempPlace p gameId) hash) : w'.state.node q = w.state.node q := by
  have htouches := (touches_cafeSink p gameId hash data).run w.state w.faults
  rw [show (cafeSink (ofPlace p) gameId hash data).run ⟨w.state, w.faults⟩ = _ from hrun]
    at htouches
  rcases htouches.node q with hsame | ⟨a, ha, hopen | hblock⟩
  · exact hsame
  · exact absurd hopen ha
  · exact absurd hblock hq

/-- A call that succeeds leaves the data in the block. -/
theorem stored_cafeSink {hash : Hash} {data : Bytes} {w w' : World AnyError Disk}
    (hrun : (cafeSink (ofPlace p) gameId hash data).run w = (.ok (), w')) :
    w'.state.node (blockPlace (tempPlace p gameId) hash) = some (.file data) := by
  rw [cafeSink, run_context, tempDir_place, tempBlock_ofPlace] at hrun
  rcases hwrite :
    (writeFile (ofPlace (blockPlace (tempPlace p gameId) hash)) data : FsIo Unit).run w
    with ⟨e | ⟨⟩, w₁⟩
  · rw [hwrite] at hrun
    cases hrun
  · rw [hwrite] at hrun
    obtain rfl : w₁ = w' := congrArg Prod.snd hrun
    have hcontent := content_of_written hwrite
    rwa [resolve_ofPlace, Disk.content_eq_some] at hcontent

theorem CafeInOrder.exec_cafeSink (h : CafeInOrder blake3 bytes p gameId old d)
    (htemp : d.node (tempPlace p gameId) = some .dir) (hash : Hash) (data : Bytes) :
    ∃ d', exec (cafeSink (ofPlace p) gameId hash data) d = (.ok (), d') := by
  obtain ⟨d', hwrite, -⟩ := @exec_writeFile AnyError _ _ _ _
    (h.wf.find_below (n := (blockName hash).toList) htemp)
    (fun hdir => by
      rcases h.blocks.blocks hash with hnone | ⟨_, hdata, -⟩
      · exact absurd (hnone.symm.trans hdir) nofun
      · exact absurd (hdata.symm.trans hdir) nofun) data
  refine ⟨d', ?_⟩
  rw [cafeSink, tempDir_place, tempBlock_ofPlace]
  exact exec_context_ok hwrite

/-- What is true of a block with data of its hash, and of any that the sink leaves alone, is kept by
the sink of a cafe, except by a call that fails for the block. -/
theorem sinkKeeps_block {R : Hash → Option Node → Prop}
    (hR : ∀ data, R (blake3 data) (some (.file data))) :
    SinkKeeps blake3 (recordSink (cafeSink (ofPlace p) gameId))
      (fun s hash => R hash (s.1.node (blockPlace (tempPlace p gameId) hash)))
      (OwnChunks blake3) where
  ok hash data s fs w hdata hcall := by
    rw [run_recordSink] at hcall
    rcases hsink : (cafeSink (ofPlace p) gameId hash data).run ⟨s.1, fs⟩ with ⟨e | ⟨⟩, w₁⟩ <;>
      rw [hsink] at hcall <;> cases hcall
    have hstored : R hash (w₁.state.node (blockPlace (tempPlace p gameId) hash)) := by
      rw [stored_cafeSink hsink, ← hdata]
      exact hR data
    refine ⟨hstored, fun h hh => ?_⟩
    by_cases hne : h = hash
    · exact hne ▸ hstored
    · dsimp only
      rwa [node_cafeSink hsink fun he => hne (Producer.blockPlace_injective he)]
  err task e s hash data err w hown hdelivers hcall h hh := by
    rw [run_recordSink] at hcall
    rcases hsink : (cafeSink (ofPlace p) gameId hash data).run ⟨s.1, e.faults⟩
      with ⟨e' | ⟨⟩, w₁⟩ <;>
      rw [hsink] at hcall <;> cases hcall
    by_cases hne : h = hash
    · exact .inr (hne ▸ hown hash data hdelivers)
    · refine .inl ?_
      dsimp only
      rwa [node_cafeSink hsink fun he => hne (Producer.blockPlace_injective he)]

/-- A block with data of its hash. -/
def Stored (blake3 : Bytes → Hash) (hash : Hash) (node : Option Node) : Prop :=
  ∃ data, node = some (.file data) ∧ blake3 data = hash

variable {Sock : Type} {net : NetText Sock} {cfg : Config} {input : DownloadInput}
  {missing out : List Hash}

/-- A download that returns well stores all it was asked for, and spoils no block. -/
theorem stored_of_download (hrun : downloadMissing net cfg blake3 (cafeSink (ofPlace p) gameId)
      gameId missing [] input d = some (.ok out, d')) (hash : Hash) :
    (hash ∈ missing → Stored blake3 hash (d'.node (blockPlace (tempPlace p gameId) hash)))
      ∧ (Stored blake3 hash (d.node (blockPlace (tempPlace p gameId) hash)) →
        Stored blake3 hash (d'.node (blockPlace (tempPlace p gameId) hash)))
      ∧ (d.node (blockPlace (tempPlace p gameId) hash) = none →
        d'.node (blockPlace (tempPlace p gameId) hash) = none
          ∨ Stored blake3 hash (d'.node (blockPlace (tempPlace p gameId) hash))) := by
  have hstored : ∀ data, Stored blake3 (blake3 data) (some (.file data)) := fun data =>
    ⟨data, rfl, rfl⟩
  have hone : ∀ {R : Hash → Option Node → Prop}, (∀ data, R (blake3 data) (some (.file data))) →
      hash ∈ missing ∨ R hash (d.node (blockPlace (tempPlace p gameId) hash)) →
        R hash (d'.node (blockPlace (tempPlace p gameId) hash)) := fun {R} hR hcase => by
    have hcases : ∀ c ∈ [hash], c ∈ missing ∨ R c (d.node (blockPlace (tempPlace p gameId) c)) :=
      fun c hc => List.mem_singleton.1 hc ▸ hcase
    exact downloadMissing_have (sinkKeeps_block hR) hcases (roundsAlong_own _ _ _ _) hrun hash
      (List.mem_singleton_self _)
  refine ⟨fun hmem => hone hstored (.inl hmem), fun hh => hone hstored (.inr hh), fun hnone => ?_⟩
  exact hone (R := fun hash node => node = none ∨ Stored blake3 hash node)
    (fun data => .inr (hstored data)) (.inr (.inl hnone))

/-- Where only blocks have come, and each has its hash, the cafe is in order still. -/
theorem CafeInOrder.congr (h : CafeInOrder blake3 bytes p gameId old d) (hwf : d'.Wf)
    (hsame : ∀ q, (∀ hash, q ≠ blockPlace (tempPlace p gameId) hash) → d'.node q = d.node q)
    (hblocks : ∀ hash, d'.node (blockPlace (tempPlace p gameId) hash) = none
      ∨ Stored blake3 hash (d'.node (blockPlace (tempPlace p gameId) hash))) :
    CafeInOrder blake3 bytes p gameId old d' := by
  have hways : ∀ q, q <+: gamePlace p gameId ∨ q <+: tempPlace p gameId
      ∨ q <+: manifestsPlace p gameId → d'.node q = d.node q :=
        fun q hq => hsame q fun hash he => by
    subst he
    rcases hq with hq | hq | hq
    exacts [(not_prefix_way (.inl rfl) _).1 hq, (not_prefix_way (.inr (.inl rfl)) _).1 hq,
      (not_prefix_way (.inr (.inr rfl)) _).1 hq]
  have hrecords : ∀ name, d'.node (manifestsPlace p gameId ++ [name])
      = d.node (manifestsPlace p gameId ++ [name]) := fun name => hsame _ fun hash he => by
    simp [manifestsPlace, tempPlace, blockPlace] at he
  have hfiles : ∀ q, d'.node (gamePlace p gameId ++ q) = d.node (gamePlace p gameId ++ q) :=
    fun q => hsame _ fun hash he => by simp [gamePlace, tempPlace, blockPlace] at he
  obtain ⟨hunrecorded, hrecorded⟩ := h.record_congr fun name => Disk.content_congr (hrecords name)
  refine ⟨hwf, fun q hq => ?_, fun name => (hrecords name) ▸ h.records name, hunrecorded, hrecorded,
    h.known, fun q => ?_, fun name hname => ?_, fun hash => ?_⟩
  · rw [Disk.content_congr (hways q hq)]
    exact h.ways q hq
  · rw [Disk.content_congr (hfiles q), h.files]
  · by_cases hblock : ∃ hash, tempPlace p gameId ++ [name] = blockPlace (tempPlace p gameId) hash
    · obtain ⟨hash, he⟩ := hblock
      exact .inr ⟨hash, by simpa [blockPlace] using he⟩
    · rw [hsame _ fun hash he => hblock ⟨hash, he⟩] at hname
      exact h.blocks.names name hname
  · exact hblocks hash

/-- Once all is downloaded, the blocks are there that the merge may ask for. -/
structure Supplied (blake3 : Bytes → Hash) (bytes : Hash → Bytes) (p : Place) (gameId : UInt64)
    (old : Option GameIndex) (index : GameIndex) (temp : HashSet Hash) (d d' : Disk) : Prop where
  order : CafeInOrder blake3 bytes p gameId old d'
  game : d'.node (gamePlace p gameId) = some .dir
  stored : ∀ hash ∈ temp.elems ++ (UpdatePlan.compute index old temp).chunksToDownload,
    Stored blake3 hash (d'.node (blockPlace (tempPlace p gameId) hash))
  files : ∀ q, d'.node (gamePlace p gameId ++ q) = d.node (gamePlace p gameId ++ q)

theorem Asked.fetch {t : CafeTask} {index : GameIndex} {ready : CafeReady} {start : Disk}
    (h : Asked blake3 bytes p gameId old index start d ready)
    (hf : t.Fetches blake3 p gameId net cfg input ready.missing d) :
    ∃ d', exec (t.download.run (cafeSink (ofPlace p) gameId) ready.missing) d = (.ok (), d')
      ∧ Supplied blake3 bytes p gameId old index ready.temp d d' := by
  obtain ⟨out, d', hdownload, hrun⟩ := hf
  have htouches := (t.download.through (K := Touches fun a q => a = .open
      ∨ ∃ hash, q = blockPlace (tempPlace p gameId) hash) Touches.frame
    (fun hash data S e => wp_mono (touches_cafeSink p gameId hash data S e) fun _ _ ht =>
      ht.mono fun _ _ ha => ha.imp_right fun hq => ⟨hash, hq⟩) ready.missing).exec d
  have hwithin : ∀ hash data, Keeps (UnixFs.Within fun _ => True)
      (cafeSink (ofPlace p) gameId hash data) := fun _ _ => (within_writeFile trivial _).onErr _
  have hwf := (t.download.through UnixFs.Within.frame hwithin ready.missing).exec d
  rw [hrun] at htouches hwf
  have hsame : ∀ q, (∀ hash, q ≠ blockPlace (tempPlace p gameId) hash) → d'.node q = d.node q :=
    fun q hq => by
      refine (htouches.node q).resolve_right ?_
      rintro ⟨a, ha, hA⟩
      obtain ⟨hash, he⟩ := hA.resolve_left ha
      exact hq hash he
  have hstored := stored_of_download hdownload
  refine ⟨d', hrun, h.order.congr (hwf.wf h.order.wf) hsame fun hash => ?_, ?_, fun hash hh => ?_,
    fun q => hsame _ fun hash he => by simp [gamePlace, tempPlace, blockPlace] at he⟩
  · rcases h.order.blocks.blocks hash with hnone | hsome
    · exact (hstored hash).2.2 hnone
    · exact .inr ((hstored hash).2.1 hsome)
  · rw [hsame _ fun hash he => by simp [gamePlace, tempPlace, blockPlace] at he, h.game]
  · rcases List.mem_append.1 hh with htemp | hasked
    · refine (hstored hash).2.1 ?_
      exact (h.order.blocks.blocks hash).resolve_left
        ((h.blocks hash).1 (HashSet.mem_iff.2 htemp))
    · exact (hstored hash).1 (h.asks hash hasked)

end Fetch

section Merge

variable {bytes' : Hash → Bytes} {g : Place} {index : GameIndex} {temp : HashSet Hash}
  {start : Disk}

theorem contentOf_congr {f : FileEntry} (h : ∀ c ∈ f.chunks, bytes' c.hash = bytes c.hash) :
    contentOf bytes' f = contentOf bytes f := List.flatMap_congr fun c hc => h c hc

theorem map_contentOf_congr {files : List FileEntry}
    (h : ∀ f ∈ files, ∀ c ∈ f.chunks, bytes' c.hash = bytes c.hash) (q : Place) :
    (files.find? fun f => placeOf f.name = q).map (contentOf bytes')
      = (files.find? fun f => placeOf f.name = q).map (contentOf bytes) :=
  Option.map_congr fun f hf => contentOf_congr (h f (List.mem_of_find?_eq_some hf))

theorem Consistent.congr {files : List FileEntry} (h : Consistent blake3 bytes files)
    (hsame : ∀ f ∈ files, ∀ c ∈ f.chunks, bytes' c.hash = bytes c.hash) :
    Consistent blake3 bytes' files where
  lengths f hf c hc := by rw [hsame f hf c hc]; exact h.lengths f hf c hc
  hashes f hf := by rw [contentOf_congr (hsame f hf)]; exact h.hashes f hf

/-- Whether a version can be merged depends on the bytes of its chunks, and on the directories that
are in the way. -/
theorem Mergeable.congr {old new : List FileEntry} (h : Mergeable bytes d g old new)
    (hplain : ∀ f ∈ new, PlainName f.name)
    (hbytes : ∀ f ∈ old ++ new, ∀ c ∈ f.chunks, bytes' c.hash = bytes c.hash)
    (hdirs : ∀ q, q ≠ [] → d'.node (g ++ q) = some .dir → d.node (g ++ q) = some .dir) :
    Mergeable bytes' d' g old new := by
  intro done entry rest hsplit
  have hentry : entry ∈ new := by simp [hsplit]
  have hne := (hplain entry hentry).ne_nil
  obtain ⟨hmerge, hkept⟩ := h done entry rest hsplit
  refine ⟨fun hneeds => ?_, fun prev hprev hhash => ?_⟩
  · have hcan := hmerge hneeds
    refine ⟨hcan.ownNew, fun hdir => hcan.target (hdirs _ hne hdir),
      fun hdir => hcan.temporary (hdirs _ (by rw [newOf_eq hne]; simp) hdir), hcan.below,
      fun c hc hown rel offset len hloc f hf hneeds' hrel => ?_⟩
    rw [contentOf_congr (hbytes f (by simp [hsplit, hf])), hbytes entry (by simp [hentry]) c hc]
    exact hcan.reuse c hc hown rel offset len hloc f hf hneeds' hrel
  · rw [contentOf_congr (hbytes prev (List.mem_append_left _ (mem_of_getFile hprev).1)),
      contentOf_congr (hbytes entry (by simp [hentry]))]
    exact hkept prev hprev hhash

theorem PlainName.confined {name : String} (h : PlainName name) : Confined name := by
  have hdepth : ∀ (q : Place) (n : ℕ), depth n (ofPlace q) = some (n + q.length) := by
    intro q
    induction q with
    | nil => exact fun n => rfl
    | cons name q ih =>
      intro n
      rw [List.length_cons, ← Nat.add_assoc, Nat.add_right_comm]
      exact ih (n + 1)
  obtain ⟨k, hk⟩ := Nat.exists_eq_succ_of_ne_zero (List.length_pos_of_ne_nil h.ne_nil).ne'
  refine ⟨h.1, k, ?_⟩
  rw [h.components_eq, hdepth, hk, Nat.zero_add]

/-- A merge changes nothing but what is below the game's directory, or on the way to it. -/
theorem node_of_merge {access : Access} {q : Place} (hne : access ≠ .open)
    (h : MergeAccess (ofPlace g) access q) : g <+: q ∨ q <+: g := by
  rcases access <;> simp only [MergeAccess, resolve_ofPlace] at h
  case mkdir =>
    refine h.imp_right fun ⟨path, hpath, hq⟩ => ?_
    have htake : path = ofPlace (g.take path.length) := by
      conv_lhs => rw [List.prefix_iff_eq_take.1 hpath]
      simp only [ofPlace, List.map_take]
    rw [hq, htake, resolve_ofPlace]
    exact List.take_prefix _ _
  case «open» => exact absurd rfl hne
  all_goals
    obtain ⟨q', -, rfl⟩ := h
    exact .inl (List.prefix_append _ _)

/-- The version is merged, and the rest of the disk is as it was. -/
structure MergedIn (bytes : Hash → Bytes) (g : Place) (index : GameIndex) (d d' : Disk) : Prop where
  wf : d'.Wf
  installed : Installed bytes d' g index.files
  others : ∀ q, ¬ g <+: q → ¬ q <+: g → d'.node q = d.node q

theorem Supplied.merge (h : Supplied blake3 bytes p gameId old index temp start d)
    (hnames : GoodNames (filesOf old) index.files) (hknown : Known blake3 bytes index.files)
    (hok : Mergeable bytes start (gamePlace p gameId) (filesOf old) index.files)
    (iter : IterOrder String) :
    ∃ s d', exec (mergeFiles blake3 (gameDir (ofPlace p) gameId) (tempDir (ofPlace p) gameId) iter
        index old) d = (.ok s, d') ∧ s.failed = []
      ∧ MergedIn bytes (gamePlace p gameId) index d d' := by
  -- a block that is there has the bytes of its chunk
  set bytes' : Hash → Bytes := fun hash =>
    (d.content (blockPlace (tempPlace p gameId) hash)).getD (bytes hash) with hbytes'
  have hsame : ∀ f ∈ filesOf old ++ index.files, ∀ c ∈ f.chunks, bytes' c.hash = bytes c.hash := by
    intro f hf c hc
    rcases h.order.blocks.blocks c.hash with hnone | ⟨data, hdata, hhash⟩
    · simp [hbytes', Disk.content, hnone]
    · have hapart : data = bytes c.hash := (List.mem_append.1 hf).elim
        (fun hf => h.order.known.apart f hf c hc data hhash)
        fun hf => hknown.apart f hf c hc data hhash
      simp [hbytes', Disk.content, hdata, hapart]
  have hold : ∀ f ∈ filesOf old, ∀ c ∈ f.chunks, bytes' c.hash = bytes c.hash := fun f hf =>
    hsame f (List.mem_append_left _ hf)
  have hnew : ∀ f ∈ index.files, ∀ c ∈ f.chunks, bytes' c.hash = bytes c.hash := fun f hf =>
    hsame f (List.mem_append_right _ hf)
  have hready : Ready blake3 bytes' d (gamePlace p gameId) (tempPlace p gameId) index old temp := by
    refine ⟨h.order.wf, hnames, h.order.known.toConsistent.congr hold,
      (hknown.toConsistent.congr hnew).hashes, ⟨h.game, fun q => ?_⟩, ?_, fun hash hh => ?_⟩
    · rw [h.order.files, map_contentOf_congr hold]
    · simp [gamePlace, tempPlace]
    · obtain ⟨data, hdata, -⟩ := h.stored hash hh
      simp [hbytes', Disk.content, hdata]
  have hmergeable : Mergeable bytes' d (gamePlace p gameId) (filesOf old) index.files :=
    hok.congr (fun f hf => hnames.plain (List.mem_append_right _ hf)) hsame
      fun q _ hdir => by rwa [← h.files]
  obtain ⟨s, d', hrun, hfailed, -, hinstalled⟩ := updated_of_mergeable hready iter hmergeable
  have hconfined : ∀ f ∈ filesOf old ++ index.files, Confined f.name := fun f hf =>
    (hnames.plain hf).confined
  have htouches := (keeps_mergeFiles blake3 (ofPlace (gamePlace p gameId))
    (ofPlace (tempPlace p gameId))
    (Touches.frame (A := MergeAccess (ofPlace (gamePlace p gameId)))) iter index old
    (fun f hf => (allows_confined _ (hconfined f (List.mem_append_right _ hf))).merge
      fun _ => trivial)
    fun f hf => keeps_removeFile
      (allows_confined _ (hconfined f (List.mem_append_left _ hf))).remove).exec d
  have hwf := (keeps_mergeFiles blake3 (ofPlace (gamePlace p gameId)) (ofPlace (tempPlace p gameId))
    (UnixFs.Within.frame (P := fun _ => True)) iter index old
    (fun _ _ => allowsMerge_within trivial trivial) fun _ _ => within_removeFile trivial).exec d
  rw [hrun] at htouches hwf
  refine ⟨s, d', by rw [gameDir_place, tempDir_place]; exact hrun, hfailed, hwf.wf h.order.wf,
    ⟨hinstalled.dir, fun q => ?_⟩, fun q hbelow habove => ?_⟩
  · rw [hinstalled.files, map_contentOf_congr hnew]
  · refine (htouches.node q).resolve_right ?_
    rintro ⟨a, ha, hA⟩
    exact (node_of_merge ha hA).elim hbelow habove

end Merge

section Save

variable {index : GameIndex} {version : UInt64} {manifest : Bytes}

/-- What lies in the directories of the blocks and of the manifests is neither below the game's
directory nor on the way to it. -/
theorem beside_game {q : Place}
    (hq : tempPlace p gameId <+: q ∨ manifestsPlace p gameId <+: q) :
    ¬ gamePlace p gameId <+: q ∧ ¬ q <+: gamePlace p gameId := by
  have hapart : ∀ way, way = tempPlace p gameId ∨ way = manifestsPlace p gameId →
      ¬ gamePlace p gameId <+: way ∧ ¬ way <+: gamePlace p gameId := by
    rintro way (rfl | rfl) <;> constructor <;> simp [gamePlace, tempPlace, manifestsPlace]
  obtain ⟨way, hway, hpre⟩ : ∃ way, (way = tempPlace p gameId ∨ way = manifestsPlace p gameId)
      ∧ way <+: q := hq.elim (fun h => ⟨_, .inl rfl, h⟩) fun h => ⟨_, .inr rfl, h⟩
  refine ⟨fun hg => ?_, fun hg => (hapart way hway).2 (hpre.trans hg)⟩
  rcases List.prefix_or_prefix_of_prefix hg hpre with h | h
  · exact (hapart way hway).1 h
  · exact (hapart way hway).2 h

variable (version) in
/-- A save that nothing disturbs writes the two files. -/
theorem exec_saveManifest {cafe : CafeStore} (hcafe : OfGame (ofPlace p) gameId cafe) (hd : d.Wf)
    (hway : ∀ q, q <+: manifestsPlace p gameId → d.content q = none)
    (hrecords : ∀ name, d.node (manifestsPlace p gameId ++ [name]) ≠ some .dir)
    (hdecode : GameIndex.decode blake3 manifest = .ok index) :
    ∃ d', exec (cafe.saveManifest blake3 version manifest) d
        = (.ok ⟨gameId, ofPlace p, some (chunkLocations index.files)⟩, d')
      ∧ ∀ q, d'.node q = if q = manifestsPlace p gameId ++ ["current.version".toList] then
          some (.file (pointerBytes version))
        else if q = manifestsPlace p gameId ++ [versionName version] then some (.file manifest)
        else if q <+: manifestsPlace p gameId then some .dir else d.node q := by
  obtain ⟨id, dir, current⟩ := cafe
  obtain ⟨rfl, rfl⟩ : id = gameId ∧ dir = ofPlace p := hcafe
  obtain ⟨d₁, hdirs, hd₁, hnode₁⟩ := @exec_createDirAll AnyError _ _ _ hd hway
  have hdir₁ : d₁.node (manifestsPlace p id) = some .dir := by
    rw [hnode₁, if_pos (List.prefix_refl _)]
  have hrecords₁ : ∀ name, d₁.node (manifestsPlace p id ++ [name]) ≠ some .dir := fun name => by
    rw [hnode₁, if_neg (not_prefix_way (.inr (.inr rfl)) name).2]
    exact hrecords name
  obtain ⟨d₂, hmanifest, hnode₂⟩ := @exec_writeFile AnyError _ _ _ _
    (hd₁.find_below (n := versionName version) hdir₁) (hrecords₁ _) manifest
  have hd₂ : d₂.Wf := hd₁.of_update (n := versionName version) hdir₁ (hrecords₁ _)
    fun q hq => by rw [hnode₂, if_neg hq]
  have hdir₂ : d₂.node (manifestsPlace p id) = some .dir := by
    rw [hnode₂, if_neg (by simp), hdir₁]
  obtain ⟨d₃, hpointer, hnode₃⟩ := @exec_writeFile AnyError _ _ _ _
    (hd₂.find_below (n := "current.version".toList) hdir₂)
    (by rw [hnode₂]; split_ifs <;> simp [hrecords₁]) (pointerBytes version)
  refine ⟨d₃, ?_, fun q => by rw [hnode₃, hnode₂, hnode₁]⟩
  rw [CafeStore.saveManifest]
  dsimp only
  rw [manifestDir_ofPlace, exec_bind, exec_context_ok hdirs]
  dsimp only
  rw [manifestPath_ofPlace, exec_bind, exec_context_ok hmanifest]
  dsimp only
  rw [currentVersionPath_ofPlace, ← pointerBytes, exec_bind, exec_context_ok hpointer]
  dsimp only
  rw [CafeStore.setCurrent, hdecode]
  rfl

/-- The merge puts no file in the way of the directories. -/
theorem MergedIn.ways (h : MergedIn bytes (gamePlace p gameId) index d d')
    (horder : CafeInOrder blake3 bytes p gameId old d) {q : Place} (hq : q <+: gamePlace p gameId
      ∨ q <+: tempPlace p gameId ∨ q <+: manifestsPlace p gameId) : d'.content q = none := by
  by_cases hgame : q <+: gamePlace p gameId
  · rw [Disk.content, h.wf.dir_of_prefix_dir h.installed.dir hgame]
  · rw [Disk.content_congr (h.others q (fun hg => ?_) hgame), horder.ways q hq]
    rcases hq with hq | hq | hq
    · exact hgame hq
    · exact (beside_game (.inl (List.prefix_refl _))).1 (hg.trans hq)
    · exact (beside_game (.inr (List.prefix_refl _))).1 (hg.trans hq)

theorem MergedIn.save (h : MergedIn bytes (gamePlace p gameId) index d d')
    (horder : CafeInOrder blake3 bytes p gameId old d) (hknown : Known blake3 bytes index.files)
    {cafe : CafeStore} (hcafe : OfGame (ofPlace p) gameId cafe)
    (hdecode : GameIndex.decode blake3 manifest = .ok index) (version : UInt64) :
    ∃ d'', exec (cafe.saveManifest blake3 version manifest) d'
        = (.ok ⟨gameId, ofPlace p, some (chunkLocations index.files)⟩, d'')
      ∧ CafeInOrder blake3 bytes p gameId (some index) d''
      ∧ (CafeStore.mk gameId (ofPlace p) none).storedVersion d'' = some version
      ∧ (CafeStore.mk gameId (ofPlace p) none).storedManifest version d'' = some manifest := by
  have hbeside : ∀ {q}, tempPlace p gameId <+: q ∨ manifestsPlace p gameId <+: q →
      d'.node q = d.node q := fun hq => h.others _ (beside_game hq).1 (beside_game hq).2
  have hrecords : ∀ name, d'.node (manifestsPlace p gameId ++ [name]) ≠ some .dir := fun name => by
    rw [hbeside (.inr (List.prefix_append _ _))]
    exact horder.records name
  obtain ⟨e, hrun, hnode⟩ := exec_saveManifest version hcafe h.wf
    (fun q hq => h.ways horder (.inr (.inr hq))) hrecords hdecode
  have hwf := (within_saveManifest blake3 version manifest cafe).exec d'
  rw [hrun] at hwf
  have hpointer : e.content (manifestsPlace p gameId ++ ["current.version".toList])
      = some (pointerBytes version) := Disk.content_eq_some.2 (by rw [hnode, if_pos rfl])
  have hmanifest : e.content (manifestsPlace p gameId ++ [versionName version])
      = some manifest := by
    refine Disk.content_eq_some.2 ?_
    rw [hnode, if_neg, if_pos rfl]
    simpa using versionName_ne_current version
  -- all else is as the merge has left it
  have hkept : ∀ q, ¬ manifestsPlace p gameId <+: q → ¬ q <+: manifestsPlace p gameId →
      e.node q = d'.node q := fun q hbelow hway => by
    rw [hnode, if_neg, if_neg, if_neg hway] <;>
    · rintro rfl
      exact hbelow (List.prefix_append _ _)
  have hgame : ∀ q, e.node (gamePlace p gameId ++ q) = d'.node (gamePlace p gameId ++ q) := fun q =>
    hkept _ (by simp [gamePlace, manifestsPlace]) (by simp [gamePlace, manifestsPlace])
  have htemp : ∀ name,
      e.node (tempPlace p gameId ++ [name]) = d.node (tempPlace p gameId ++ [name]) :=
    fun name => by
      rw [hkept _ (by simp [tempPlace, manifestsPlace]) (by simp [tempPlace, manifestsPlace]),
        hbeside (.inl (List.prefix_append _ _))]
  have hversion : (CafeStore.mk gameId (ofPlace p) none).storedVersion e = some version := by
    rw [CafeStore.storedVersion, resolve_pointer, hpointer]
    exact pointed_pointerBytes version
  have hstored :
      (CafeStore.mk gameId (ofPlace p) none).storedManifest version e = some manifest := by
    rw [CafeStore.storedManifest, manifestPath_ofPlace, resolve_ofPlace, hmanifest]
  refine ⟨e, hrun, ⟨hwf.wf h.wf, fun q hq => ?_, fun name => ?_, by simp, fun index' hindex => ?_,
    hknown, fun q => ?_, horder.blocks.congr htemp⟩, hversion, hstored⟩
  · by_cases hm : q <+: manifestsPlace p gameId
    · rw [Disk.content, hnode, if_neg, if_neg, if_pos hm] <;>
      · rintro rfl
        exact (not_prefix_way (.inr (.inr rfl)) _).2 hm
    · rw [Disk.content_congr (hkept q (fun hbelow => ?_) hm), h.ways horder hq]
      rcases hq with hq | hq | hq
      · exact (beside_game (.inr hbelow)).2 hq
      · simpa [tempPlace, manifestsPlace] using hbelow.trans hq
      · exact hm hq
  · rw [hnode]
    split_ifs with h₁ h₂ h₃
    · simp
    · simp
    · exact absurd h₃ (not_prefix_way (.inr (.inr rfl)) name).2
    · exact hrecords name
  · obtain rfl := Option.some.inj hindex
    exact ⟨version, manifest, hversion, hstored, hdecode⟩
  · rw [Disk.content_congr (hgame q)]
    exact h.installed.files q

end Save

section Tasks

variable {Sock : Type} {net : NetText Sock} {cfg : Config} {index : GameIndex} {t : CafeTask}

theorem reportChunks_ok : ∀ (hashes : List Hash) {outcomes : List (Except AnyError Unit)},
    (∀ r ∈ outcomes, r = .ok ()) → reportChunks hashes outcomes = (.ok (), hashes)
  | [], _, _ => rfl
  | hash :: hashes, outcomes, h => by
    have hhead : outcomes.headD (.ok ()) = .ok () := by
      rcases outcomes with _ | ⟨r, outcomes⟩
      · rfl
      · exact h r List.mem_cons_self
    rw [reportChunks, hhead]
    simp only [reportChunks_ok hashes fun r hr => h r (List.mem_of_mem_tail hr)]

/-- What a task that nothing disturbs returns and leaves. -/
structure Completed (blake3 : Bytes → Hash) (bytes : Hash → Bytes) (p : Place) (gameId : UInt64)
    (t : CafeTask) (index : GameIndex) (d d' : Disk) : Prop where
  run : t.run blake3 (ofPlace p) gameId d
    = (.ok (⟨gameId, ofPlace p, some (chunkLocations index.files)⟩,
        index.chunkSet.mergeSort hashLe), ⟨d', []⟩)
  order : CafeInOrder blake3 bytes p gameId (some index) d'
  inPlace : InPlace blake3 (ofPlace p) gameId t.version t.manifest d'

theorem CafeTask.Undisturbed.completes
    (ht : t.Undisturbed blake3 bytes p gameId net cfg old index d)
    (h : CafeInOrder blake3 bytes p gameId old d) :
    ∃ d', Completed blake3 bytes p gameId t index d d' := by
  obtain ⟨ready, d₁, hprepare, hasked⟩ := h.prepare t.current ht.opened index
  obtain ⟨input, hfetches⟩ := ht.fetches ready d₁ hprepare
  obtain ⟨d₂, hdownload, hsupplied⟩ := hasked.fetch hfetches
  have hmergeable : Mergeable bytes d₁ (gamePlace p gameId) (filesOf old) index.files := by
    refine ht.mergeable.congr (fun f hf => ht.names.plain (List.mem_append_right _ hf))
      (fun _ _ _ _ => rfl) fun q hq hdir => ?_
    · rcases hasked.nodes (gamePlace p gameId ++ q) with hsame | hpre | hpre
      · rwa [← hsame]
      · exact absurd (by simpa using hpre.length_le) hq
      · exact absurd ((List.prefix_append _ q).trans hpre)
          (beside_game (.inl (List.prefix_refl _))).1
  obtain ⟨s, d₃, hmerge, hfailed, hmerged⟩ :=
    hsupplied.merge ht.names ht.known hmergeable t.iter
  obtain ⟨d₄, hsave, horder, hversion, hmanifest⟩ := hmerged.save hsupplied.order ht.known
    hasked.store ht.decodes t.version
  have hbefore : exec (t.beforeSave blake3 (ofPlace p) gameId index) d = (.ok ready.cafe, d₃) := by
    rw [CafeTask.beforeSave, exec_bind, hprepare]
    dsimp only
    rw [exec_bind, hdownload]
    dsimp only
    rw [hasked.version, exec_bind, hmerge]
    simp only [hfailed]
    rfl
  refine ⟨d₄, ?_, horder, hversion, hmanifest, fun f hf => ?_⟩
  · have hprog : exec (t.prog blake3 (ofPlace p) gameId) d = (.ok (⟨gameId, ofPlace p,
        some (chunkLocations index.files)⟩, index.chunkSet.mergeSort hashLe), d₄) := by
      rw [prog_eq ht.decodes, exec_bind, hbefore]
      dsimp only
      rw [exec_bind, hsave]
      simp only [CafeTask.report, reportChunks_ok _ ht.reports]
      rfl
    rw [CafeTask.run, ht.faults, run_nil, hprog]
  · rw [versionFiles_ok ht.decodes] at hf
    have hplain := ht.names.plain (List.mem_append_right _ hf)
    refine ⟨contentOf bytes f, ?_, (ht.known.hashes f hf).symm⟩
    rw [gameDir_place, hplain.join_eq, resolve_ofPlace, horder.files,
      show filesOf (some index) = index.files from rfl, (find?_place ht.names.new_inj).2 ⟨hf, rfl⟩]
    rfl

/-- One version after another is installed: a task that nothing disturbs, and none of those before
it, returns well and reports all its chunks; then its version is recorded, each of its files is in
the directory of the game with the bytes of its chunks, and no other file is there. -/
theorem undisturbed_tasks_install (net : NetText Sock) (cfg : Config) (blake3 : Bytes → Hash)
    (bytes : Hash → Bytes) (p : Place) (gameId : UInt64) : ∀ {old : Option GameIndex} {d : Disk},
    CafeInOrder blake3 bytes p gameId old d → ∀ (done : List CafeTask) (t : CafeTask),
    UndisturbedRun blake3 bytes p gameId net cfg old d (done ++ [t]) →
      ∃ index, GameIndex.decode blake3 t.manifest = .ok index
        ∧ Completed blake3 bytes p gameId t index
          ((CafeHistory.mk d []).after blake3 (ofPlace p) gameId done).disk
          ((CafeHistory.mk d []).after blake3 (ofPlace p) gameId (done ++ [t])).disk
  | old, d, h, [], t, hrun => by
    obtain ⟨index, ht, -⟩ := hrun
    obtain ⟨d', hdone⟩ := ht.completes h
    refine ⟨index, ht.decodes, ?_⟩
    have hafter : ((CafeHistory.mk d []).after blake3 (ofPlace p) gameId ([] ++ [t])).disk
        = d' := by
      rw [CafeHistory.after, List.nil_append, List.foldl_cons, List.foldl_nil, CafeHistory.step,
        hdone.run]
    rw [hafter]
    exact hdone
  | old, d, h, t₀ :: done, t, hrun => by
    obtain ⟨index₀, ht₀, hrest⟩ := hrun
    obtain ⟨d', hdone⟩ := ht₀.completes h
    rw [hdone.run] at hrest
    obtain ⟨index, hdecode, hcompleted⟩ :=
      undisturbed_tasks_install net cfg blake3 bytes p gameId hdone.order done t hrest
    refine ⟨index, hdecode, ?_⟩
    have hafter : ∀ tasks, (CafeHistory.mk d []).after blake3 (ofPlace p) gameId (t₀ :: tasks)
        = (CafeHistory.mk d' []).after blake3 (ofPlace p) gameId tasks := fun tasks => by
      rw [CafeHistory.after, List.foldl_cons, CafeHistory.step, hdone.run]
      rfl
    rw [List.cons_append, hafter, hafter]
    exact hcompleted

end Tasks

section Installed

open Producer (treeHash)

/-- A disk with nothing on it. -/
def blankDisk : Disk := .ofList [([], .dir)]

/-- A peer has the chunk of the tree. -/
def treeInput : DownloadInput where
  endpoint := .ok ()
  first := ⟨fun _ => .ok [peerAt "a" "1.2.3.4:42001"], [⟨0, .connected, []⟩, ⟨0, .chunk [1], []⟩]⟩
  second := ⟨fun _ => .ok [], []⟩
  fallback := []

theorem node_blankDisk (q : Place) : blankDisk.node q = if q = [] then some .dir else none := by
  split_ifs with hq
  · rw [hq]
    rfl
  · refine Option.eq_none_iff_forall_ne_some.2 fun n hn => hq ?_
    have hmem := Disk.mem_entries_of_node hn
    rw [show blankDisk.nodes.entries = [⟨[], .dir⟩] from rfl] at hmem
    simpa using congrArg Sigma.fst (List.mem_singleton.1 hmem)

theorem cafeInOrder_blankDisk (blake3 : Bytes → Hash) (bytes : Hash → Bytes) (p : Place)
    (gameId : UInt64) : CafeInOrder blake3 bytes p gameId none blankDisk := by
  have hcontent : ∀ q, blankDisk.content q = none := fun q => by
    rw [Disk.content, node_blankDisk]
    split_ifs <;> rfl
  refine ⟨Disk.wf_of_entries (by decide) (by decide), fun q _ => hcontent q, fun name => ?_,
    fun _ => hcontent _, by simp, ⟨⟨by simp [filesOf], by simp [filesOf]⟩, by simp [filesOf]⟩,
    fun q => hcontent _, fun name hname => ?_, fun hash => .inl ?_⟩
  · simp [node_blankDisk]
  · simp [node_blankDisk] at hname
  · simp [node_blankDisk, blockPlace]

theorem known_treeIndex : Known treeHash (fun _ => [1]) treeIndex.files := by
  rw [files_treeIndex]
  refine ⟨⟨by decide, fun f hf => ?_⟩, fun f hf c hc data hdata => ?_⟩
  · obtain rfl := List.mem_singleton.1 hf
    decide
  · obtain rfl := List.mem_singleton.1 hf
    obtain rfl := List.mem_singleton.1 hc
    by_contra hne
    simp only [treeHash, if_neg hne] at hdata
    exact absurd hdata (by decide)

theorem goodNames_treeIndex : GoodNames [] treeIndex.files := by
  rw [files_treeIndex]
  refine ⟨fun f hf => ?_, by simp, by simp, by simp, by simp⟩
  obtain rfl := List.mem_singleton.1 hf
  unfold NormalName
  decide

theorem mergeable_treeIndex (p : Place) (gameId : UInt64) :
    Mergeable (fun _ => [1]) blankDisk (gamePlace p gameId) [] treeIndex.files := by
  rw [files_treeIndex]
  intro done entry rest hsplit
  obtain ⟨rfl, rfl⟩ : done = [] ∧ entry = ⟨"b/c", .fill 1, [⟨.fill 1, 1⟩]⟩ := by
    rcases done with _ | ⟨f, done⟩
    · exact ⟨rfl, (List.cons.inj hsplit).1.symm⟩
    · have := (List.cons.inj hsplit).2
      simp at this
  refine ⟨fun _ => ⟨by decide, ?_, ?_, by simp, by simp⟩, fun prev hprev => by cases hprev⟩
  · simp [node_blankDisk, gamePlace]
  · simp [node_blankDisk, gamePlace]

/-- The chunk of the tree comes from the peer. -/
theorem downloadMissing_treeInput {sink : Hash → Bytes → FsIo Unit}
    (hsink : exec (sink (.fill 1) [1]) d = (.ok (), d')) :
    downloadMissing plainNet (cafeConfig none) treeHash sink 1 [.fill 1] [] treeInput d
      = some (.ok [.fill 1], d') := by
  have hrun : (recordSink sink (.fill 1) [1]).run ⟨(d, []), []⟩
      = (.ok (), ⟨(d', [.fill 1]), []⟩) := by
    rw [run_recordSink, run_nil, hsink]
    rfl
  have hgroups : groupHashes plainNet treeInput.first.answers [] [.fill 1] [] []
      = .ok ([(⟨"a", some "1.2.3.4:42001", false⟩, [.fill 1])], []) := by
    rfl
  have hstored : (storeChunk treeHash (recordSink sink) (.fill 1) [1]).run ⟨(d, []), []⟩
      = (.ok true, ⟨(d', [.fill 1]), []⟩) := by
    rw [storeChunk, if_neg (by decide), run_bind, hrun]
    rfl
  have hfetched : (fetchNext treeHash (recordSink sink) [.fill 1] (.reading [.fill 1] .empty)
      (.chunk [1])).run ⟨(d, []), []⟩
        = (.ok (.finished (.ok ⟨1, 1, []⟩)), ⟨(d', [.fill 1]), []⟩) := by
    rw [fetchNext, run_bind, run_attempt, hstored]
    rfl
  have hstep : Pool.step treeHash (recordSink sink) ⟨0, .chunk [1], []⟩
      ⟨(d, []), [⟨"a", [.fill 1], .reading [.fill 1] .empty⟩], []⟩
        = some ⟨(d', [.fill 1]), [⟨"a", [.fill 1], .finished (.ok ⟨1, 1, []⟩)⟩], [0]⟩ := by
    simp only [Pool.step, List.getElem?_cons_zero]
    rw [hfetched]
    rfl
  have hconnected : Pool.step treeHash (recordSink sink) ⟨0, .connected, []⟩
      (startPool (spawned [(⟨"a", some "1.2.3.4:42001", false⟩, [.fill 1])]) (d, []))
        = some ⟨(d, []), [⟨"a", [.fill 1], .reading [.fill 1] .empty⟩], []⟩ := rfl
  have hpool : Pool.run treeHash (recordSink sink) treeInput.first.events
      (startPool (spawned [(⟨"a", some "1.2.3.4:42001", false⟩, [.fill 1])]) (d, []))
        = some ⟨(d', [.fill 1]), [⟨"a", [.fill 1], .finished (.ok ⟨1, 1, []⟩)⟩], [0]⟩ := by
    rw [show treeInput.first.events = [⟨0, .connected, []⟩, ⟨0, .chunk [1], []⟩] from rfl, Pool.run,
      hconnected]
    dsimp only
    rw [Pool.run, hstep]
    rfl
  have hround : runRound plainNet treeHash (recordSink sink) treeInput.first [] [.fill 1] (d, [])
      = some (.ok ⟨[], [], false⟩, (d', [.fill 1])) := by
    rw [runRound, hgroups]
    dsimp only
    rw [if_neg (by decide), hpool]
    rfl
  rw [downloadMissing, downloadRun, if_neg (by decide),
    show originTarget plainNet (cafeConfig none) = .ok none
    from rfl, show treeInput.endpoint = .ok () from rfl]
  dsimp only
  rw [runRounds, if_neg (by decide), hround]
  rfl

theorem missing_treeIndex : (exec (prepareCafe treeHash (ofPlace ["data".toList]) 1 none treeIndex)
    blankDisk).1.toOption.map CafeReady.missing = some [.fill 1] := by
  have hsorted : ([.fill 1, .fill 1] : List Hash).mergeSort hashLe = [.fill 1, .fill 1] :=
    List.mergeSort_of_pairwise (by decide)
  have hmissing : ([.fill 1] : List Hash)
      = (([.fill 1, .fill 1] : List Hash).mergeSort hashLe).dedup := by
    rw [hsorted]
    decide
  -- the file is neither planned nor on disk, so its chunk is asked for twice
  rw [hmissing]
  rfl

theorem undisturbed_installTree : (installTree []).Undisturbed treeHash (fun _ => [1])
    ["data".toList] 1 plainNet (cafeConfig none) none treeIndex blankDisk where
  decodes := decode_treeIndex
  opened := nofun
  faults := rfl
  names := goodNames_treeIndex
  known := known_treeIndex
  mergeable := mergeable_treeIndex _ _
  reports := nofun
  fetches ready d' hrun := by
    have hcafe := cafeInOrder_blankDisk treeHash (fun _ => [1]) ["data".toList] 1
    obtain ⟨ready', d₁, hprepare, hasked⟩ := hcafe.prepare none nofun treeIndex
    obtain ⟨h₁, rfl⟩ := Prod.mk.inj (hprepare.symm.trans hrun)
    obtain rfl := Except.ok.inj h₁
    have hmissing := missing_treeIndex
    rw [show exec (prepareCafe treeHash (ofPlace ["data".toList]) 1 none treeIndex) blankDisk
      = (.ok ready', d₁) from hprepare] at hmissing
    obtain ⟨d₂, hsink⟩ := hasked.order.exec_cafeSink hasked.temp (.fill 1) [1]
    rw [Option.some.inj hmissing]
    refine ⟨treeInput, [.fill 1], d₂, downloadMissing_treeInput hsink, ?_⟩
    change exec (each (fun hash => cafeSink (ofPlace ["data".toList]) 1 hash [1]) [.fill 1]) d₁ = _
    rw [each, exec_andThen, hsink]
    rfl

theorem undisturbed_tasks_install_fresh : ∃ index,
    GameIndex.decode treeHash (installTree []).manifest = .ok index
      ∧ Completed treeHash (fun _ => [1]) ["data".toList] 1 (installTree []) index
        ((CafeHistory.mk blankDisk []).after treeHash (ofPlace ["data".toList]) 1 []).disk
        ((CafeHistory.mk blankDisk []).after treeHash (ofPlace ["data".toList]) 1
          ([] ++ [installTree []])).disk :=
  undisturbed_tasks_install plainNet (cafeConfig none) treeHash (fun _ => [1]) ["data".toList] 1
    (cafeInOrder_blankDisk _ _ _ _) [] (installTree [])
    ⟨treeIndex, undisturbed_installTree, trivial⟩

end Installed

end BlazeNet
