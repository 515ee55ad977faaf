import BlazeNet.CafeSaves
import BlazeNet.Proofs.Executor
import BlazeNet.Proofs.Producer
import BlazeNet.Proofs.Publish

/-!
# When a save that stops leaves the old or the new version

The store opens if and only if `current.version` is missing, or names a version with a manifest
that can be decoded. Where a save stops says what has been written of the two files, so it says
what the store finds.
-/

namespace BlazeNet

open Wire FaultIo Io RustStd UnixFs

variable {blake3 : Bytes → Hash} {self : CafeStore} {d d' : Disk} {version : UInt64}
  {manifest : Bytes}

section Places

/-- `.blazenet` in the data directory. -/
def CafeStore.base (self : CafeStore) : Path := join self.dataDir ".blazenet"

def CafeStore.gameName (self : CafeStore) : Name := (toString self.gameId.toNat).toList

def versionName (version : UInt64) : Name := (toString version.toNat ++ ".gameindex").toList

theorem digit_of_mem_toString {n : UInt64} {c : Char} (h : c ∈ (toString n.toNat).toList) :
    c.isDigit := by
  rw [Nat.toString_eq_repr, Nat.toList_repr] at h
  exact Nat.isDigit_of_mem_toDigits (by decide) (by decide) h

theorem join_toString (base : Path) (n : UInt64) :
    join base (toString n.toNat) = base ++ ofPlace [(toString n.toNat).toList] := by
  have hdot : ∀ rest, (toString n.toNat).toList ≠ '.' :: rest := fun rest h => by
    have := digit_of_mem_toString (n := n) (h ▸ List.mem_cons_self)
    exact absurd this (by decide)
  refine join_name base (fun h => absurd (digit_of_mem_toString h) (by decide)) ?_ (hdot _) (hdot _)
  rw [Nat.toString_eq_repr, Nat.toList_repr]
  exact Nat.toDigits_ne_nil

theorem join_versionName (base : Path) (version : UInt64) :
    join base (toString version.toNat ++ ".gameindex") = base ++ ofPlace [versionName version] := by
  have hlen : 10 ≤ (toString version.toNat ++ ".gameindex").toList.length := by
    simp [String.toList_append]
  refine join_name base (Producer.slash_notMem_manifestName version) ?_ ?_ ?_ <;>
  · intro h
    rw [h] at hlen
    simp at hlen

theorem tempDir_eq (self : CafeStore) :
    tempDir self.dataDir self.gameId = self.base ++ ofPlace ["temp".toList, self.gameName] := by
  rw [tempDir, join_toString, join_name _ (by decide) (by decide) (by decide) (by decide),
    List.append_assoc]
  rfl

theorem manifestDir_eq (self : CafeStore) : manifestDir self.dataDir self.gameId
    = self.base ++ ofPlace ["manifests".toList, self.gameName] := by
  rw [manifestDir, join_toString, join_name _ (by decide) (by decide) (by decide) (by decide),
    List.append_assoc]
  rfl

theorem currentVersionPath_eq (self : CafeStore) : currentVersionPath self.dataDir self.gameId
    = self.base ++ ofPlace ["manifests".toList, self.gameName, "current.version".toList] := by
  rw [currentVersionPath, manifestDir_eq,
    join_name _ (by decide) (by decide) (by decide) (by decide), List.append_assoc]
  rfl

theorem manifestPath_eq (self : CafeStore) (version : UInt64) : self.manifestPath version
    = self.base ++ ofPlace ["manifests".toList, self.gameName, versionName version] := by
  rw [CafeStore.manifestPath, manifestDir_eq, join_versionName, List.append_assoc]
  rfl

theorem versionName_injective {v v' : UInt64} (h : versionName v = versionName v') : v = v' := by
  unfold versionName at h
  rw [String.toList_append, String.toList_append] at h
  have hdigits := List.append_cancel_right h
  rw [Nat.toString_eq_repr, Nat.toString_eq_repr, Nat.toList_repr, Nat.toList_repr] at hdigits
  exact toDigits_injective hdigits

theorem versionName_ne_current (version : UInt64) :
    versionName version ≠ "current.version".toList := by
  intro h
  have := congrArg List.getLast? h
  simp [versionName, String.toList_append] at this

/-- `.blazenet` is a directory where that of the temporary blocks is. -/
theorem isDir_base (h : d.isDir (tempDir self.dataDir self.gameId)) : d.isDir self.base := by
  rw [tempDir_eq] at h
  obtain ⟨hf, -⟩ := Disk.isDir_iff.1 h
  rw [Disk.find, Disk.walk_append] at hf
  rcases hw : d.walk [] self.base with e | place
  · rw [hw] at hf
    cases hf
  · obtain rfl := Disk.find_eq hw
    rw [hw] at hf
    refine Disk.isDir_iff.2 ⟨hw, ?_⟩
    rcases hn : d.node (resolve self.base) with _ | b | _
    · simp [ofPlace, Disk.walk, hn] at hf
    · simp [ofPlace, Disk.walk, hn] at hf
    · rfl

end Places

section Reads

/-- What the two files stand for. -/
def CafeStore.Holds (self : CafeStore) (d : Disk) : Option (UInt64 × Bytes) → Prop
  | none => d.content (resolve (currentVersionPath self.dataDir self.gameId)) = none
  | some (version, manifest) =>
    self.storedVersion d = some version ∧ self.storedManifest version d = some manifest

theorem resolve_base (self : CafeStore) (q : Place) :
    resolve (self.base ++ ofPlace q) = resolve self.base ++ q := by
  rw [resolve_append, foldl_climb_ofPlace]

theorem CafeStore.Holds.unique {o o' : Option (UInt64 × Bytes)} (h : self.Holds d o)
    (h' : self.Holds d o') :
    o = o' := by
  rcases o with _ | ⟨v, b⟩ <;> rcases o' with _ | ⟨v', b'⟩
  · rfl
  · have hnone : self.storedVersion d = none := by rw [CafeStore.storedVersion, h]; rfl
    exact absurd (hnone.symm.trans h'.1) (by simp)
  · have hnone : self.storedVersion d = none := by rw [CafeStore.storedVersion, h']; rfl
    exact absurd (hnone.symm.trans h.1) (by simp)
  · obtain rfl := Option.some.inj (h.1.symm.trans h'.1)
    obtain rfl := Option.some.inj (h.2.symm.trans h'.2)
    rfl

variable (hd : d.Wf) (hbase : d.isDir self.base)
include hd hbase

theorem exec_isFile_pointer :
    exec (isFile (currentVersionPath self.dataDir self.gameId) : FsIo Bool) d
      = (.ok (d.content (resolve (currentVersionPath self.dataDir self.gameId))).isSome, d) := by
  rw [exec_isFile, currentVersionPath_eq, hd.isFile_append hbase, resolve_base]

theorem exec_currentVersion_none (h : self.Holds d none) :
    exec self.currentVersion d = (.ok none, d) := by
  have hnone : d.content (resolve (currentVersionPath self.dataDir self.gameId)) = none := h
  rw [CafeStore.currentVersion, exec_bind, exec_isFile_pointer hd hbase, hnone]
  rfl

theorem exec_currentVersion_some {bytes : Bytes}
    (h : d.content (resolve (currentVersionPath self.dataDir self.gameId)) = some bytes) :
    (∃ v log, pointed bytes = some v ∧ exec self.currentVersion d = (.ok (some v), d.relog log))
      ∨ ∃ e log, pointed bytes = none ∧ exec self.currentVersion d = (.error e, d.relog log) := by
  obtain ⟨log, hread⟩ : ∃ log, exec (UnixFs.readFile
      (currentVersionPath self.dataDir self.gameId) : FsIo Bytes) d = (.ok bytes, d.relog log) := by
    rw [currentVersionPath_eq, resolve_base] at h
    rw [currentVersionPath_eq]
    exact exec_readFile_append hd hbase h
  rw [CafeStore.currentVersion, exec_bind, exec_isFile_pointer hd hbase, h]
  simp only [Option.isSome_some, if_true]
  rw [exec_bind, exec_context_ok hread]
  dsimp only
  rcases htext : fromUtf8 bytes with _ | text
  · exact .inr ⟨_, log, by simp [pointed, htext], exec_stop _ _⟩
  · dsimp only
    rcases hparse : parseU64 (trim text.toList) with _ | v
    · exact .inr ⟨_, log, by simp [pointed, htext, hparse], exec_stop _ _⟩
    · exact .inl ⟨v, log, by simp [pointed, htext, hparse], rfl⟩

theorem exec_currentManifestBytes_none (h : self.Holds d none) :
    exec self.currentManifestBytes d = (.ok none, d) := by
  rw [CafeStore.currentManifestBytes, exec_bind, exec_currentVersion_none hd hbase h]
  rfl

theorem exec_currentManifestBytes_some {v : UInt64} {b : Bytes} (h : self.Holds d (some (v, b))) :
    ∃ log log', exec self.currentVersion d = (.ok (some v), d.relog log)
      ∧ exec self.currentManifestBytes d = (.ok (some b), d.relog log') := by
  obtain ⟨bytes, hbytes, hv⟩ := Option.bind_eq_some_iff.1 h.1
  rcases exec_currentVersion_some hd hbase hbytes with ⟨v', log, hv', hrun⟩ | ⟨e, log, hv', -⟩
  · obtain rfl := Option.some.inj (hv.symm.trans hv')
    have hb : d.content (resolve (self.manifestPath v)) = some b := h.2
    rw [manifestPath_eq, resolve_base] at hb
    obtain ⟨log', hread⟩ := exec_readFile_append (ε := AnyError) (d := d.relog log)
      (hd.congr fun _ => rfl) (by simpa using hbase) hb
    refine ⟨log, log', hrun, ?_⟩
    rw [CafeStore.currentManifestBytes, exec_bind, hrun]
    dsimp only
    rw [exec_bind, manifestPath_eq, exec_context_ok hread]
    rfl
  · rw [hv] at hv'
    cases hv'

theorem exec_currentManifestBytes_error (h : ∀ o, ¬ self.Holds d o) :
    ∃ e log, exec self.currentManifestBytes d = (.error e, d.relog log) := by
  rcases hp : d.content (resolve (currentVersionPath self.dataDir self.gameId)) with _ | bytes
  · exact absurd hp (h none)
  rcases exec_currentVersion_some hd hbase hp with ⟨v, log, hv, hrun⟩ | ⟨e, log, -, hrun⟩
  · have hstored : self.storedVersion d = some v := by rw [CafeStore.storedVersion, hp]; exact hv
    have hb : d.content (resolve (self.manifestPath v)) = none := by
      rcases hb : d.content (resolve (self.manifestPath v)) with _ | b
      · rfl
      · exact absurd ⟨hstored, hb⟩ (h (some (v, b)))
    rw [manifestPath_eq, resolve_base] at hb
    obtain ⟨e, hread⟩ := exec_readFile_none (ε := AnyError) (d := d.relog log) hb
    refine ⟨.err (e.context "读取当前版本清单失败"), log, ?_⟩
    rw [CafeStore.currentManifestBytes, exec_bind, hrun]
    dsimp only
    rw [exec_bind, manifestPath_eq, exec_context_err hread]
  · refine ⟨e, log, ?_⟩
    rw [CafeStore.currentManifestBytes, exec_bind, hrun]

theorem pair_of_holds {o : Option (UInt64 × Bytes)} (h : self.Holds d o) :
    self.pair d = (.ok (o.map Prod.fst), .ok (o.map Prod.snd)) := by
  rcases o with _ | ⟨v, b⟩
  · rw [CafeStore.pair, exec_currentVersion_none hd hbase h,
      exec_currentManifestBytes_none hd hbase h]
    rfl
  · obtain ⟨log, log', hv, hb⟩ := exec_currentManifestBytes_some hd hbase h
    rw [CafeStore.pair, hv, hb]
    rfl

end Reads

section Opens

theorem pair_congr {store : CafeStore} (hdir : store.dataDir = self.dataDir)
    (hid : store.gameId = self.gameId) : store.pair d = self.pair d := by
  obtain ⟨gameId, dataDir, current⟩ := self
  obtain ⟨gameId', dataDir', current'⟩ := store
  obtain rfl : dataDir' = dataDir := hdir
  obtain rfl : gameId' = gameId := hid
  rfl

/-- The store before it has a map. -/
def CafeStore.blank (self : CafeStore) : CafeStore := ⟨self.gameId, self.dataDir, none⟩

theorem holds_blank {o : Option (UInt64 × Bytes)} : self.blank.Holds d o ↔ self.Holds d o := by
  cases o <;> rfl

variable (hd : d.Wf) (hgame : d.isDir (gameDir self.dataDir self.gameId))
  (htemp : d.isDir (tempDir self.dataDir self.gameId))
include hd hgame htemp

omit hd in
/-- The directories are there, so the store opens on the two files. -/
theorem exec_openCafe (blake3 : Bytes → Hash) :
    exec (CafeStore.openStore blake3 self.dataDir self.gameId) d = exec (do
      match ← self.blank.currentManifestBytes with
      | some bytes => self.blank.setCurrent blake3 bytes
      | none => pure self.blank) d := by
  rw [CafeStore.openStore, exec_bind, exec_context_ok (exec_createDirAll_isDir hgame)]
  dsimp only
  rw [exec_bind, exec_context_ok (exec_createDirAll_isDir htemp)]
  rfl

omit hd hgame htemp in
theorem pair_relog (self : CafeStore) (d : Disk) (log : List (Access × Place)) :
    self.pair (d.relog log) = self.pair d := by
  obtain ⟨log₁, h₁⟩ := looks_currentVersion self d log
  obtain ⟨log₂, h₂⟩ := looks_currentManifestBytes self d log
  rw [CafeStore.pair, h₁, h₂]
  rfl

theorem openStore_of_holds {o : Option (UInt64 × Bytes)} (h : self.Holds d o)
    (hdecodes : ∀ p ∈ o, Decodes blake3 p.2) : ∃ store log,
      exec (CafeStore.openStore blake3 self.dataDir self.gameId) d = (.ok store, d.relog log)
        ∧ store.pair (d.relog log) = self.pair d := by
  have hbase : d.isDir self.blank.base := isDir_base htemp
  rw [exec_openCafe hgame htemp, exec_bind]
  rcases o with _ | ⟨v, b⟩
  · rw [exec_currentManifestBytes_none hd hbase (holds_blank.2 h)]
    exact ⟨_, d.log, rfl, pair_congr rfl rfl⟩
  · obtain ⟨-, log, -, hsome⟩ := exec_currentManifestBytes_some hd hbase (holds_blank.2 h)
    obtain ⟨index, hindex⟩ := hdecodes (v, b) rfl
    rw [hsome]
    dsimp only
    rw [CafeStore.setCurrent, hindex]
    exact ⟨_, log, rfl, (pair_congr rfl rfl).trans (pair_relog self d log)⟩

theorem holds_of_openStore {store : CafeStore}
    (h : exec (CafeStore.openStore blake3 self.dataDir self.gameId) d = (.ok store, d')) :
    ∃ o, self.Holds d o ∧ ∀ p ∈ o, Decodes blake3 p.2 := by
  have hbase : d.isDir self.blank.base := isDir_base htemp
  rw [exec_openCafe hgame htemp, exec_bind] at h
  by_cases hholds : ∃ o, self.Holds d o
  · obtain ⟨o, ho⟩ := hholds
    refine ⟨o, ho, fun p hp => ?_⟩
    obtain rfl : o = some p := hp
    obtain ⟨-, log, -, hsome⟩ := exec_currentManifestBytes_some hd hbase (holds_blank.2 ho)
    rw [hsome] at h
    dsimp only at h
    rcases hdecode : GameIndex.decode blake3 p.2 with e | index
    · rw [CafeStore.setCurrent, hdecode] at h
      cases h
    · exact ⟨index, hdecode⟩
  · have hnone : ∀ o, ¬ self.blank.Holds d o := fun o ho => hholds ⟨o, holds_blank.1 ho⟩
    obtain ⟨e, log, herror⟩ := exec_currentManifestBytes_error hd hbase hnone
    rw [herror] at h
    cases h

end Opens

section Stops

theorem pointer_ne_manifestPath (self : CafeStore) (version : UInt64) :
    resolve (currentVersionPath self.dataDir self.gameId)
      ≠ resolve (self.manifestPath version) := by
  rw [currentVersionPath_eq, manifestPath_eq, resolve_base, resolve_base]
  intro h
  have := List.append_cancel_left h
  exact versionName_ne_current version (by simpa using this.symm)

theorem manifestPath_ne {v : UInt64} (h : v ≠ version) :
    resolve (self.manifestPath v) ≠ resolve (self.manifestPath version) := by
  rw [manifestPath_eq, manifestPath_eq, resolve_base, resolve_base]
  intro he
  have := List.append_cancel_left he
  exact h (versionName_injective (by simpa using this))

/-- What lies at the place of the pointer. -/
def CafeStore.pointer (self : CafeStore) (d : Disk) : Option Bytes :=
  d.content (resolve (currentVersionPath self.dataDir self.gameId))

/-- The two files that a save writes, where it stops. -/
def CafeStore.FilesLeft (self : CafeStore) (version : UInt64) (manifest : Bytes) (d d' : Disk) :
    SaveStop → Prop
  | .before => self.pointer d' = self.pointer d
      ∧ self.storedManifest version d' = self.storedManifest version d
  | .manifest n => self.pointer d' = self.pointer d
      ∧ self.storedManifest version d' = some (manifest.take n)
  | .pointer n => self.pointer d' = some ((pointerBytes version).take n)
      ∧ self.storedManifest version d' = some manifest
  | .after => self.pointer d' = some (pointerBytes version)
      ∧ self.storedManifest version d' = some manifest

/-- The disk that a save leaves. -/
structure CafeStore.Left (cafe : CafeStore) (version : UInt64) (manifest : Bytes) (d d' : Disk)
    (stop : SaveStop) : Prop where
  wf : d.Wf → d'.Wf
  dirs : DirsStay d d'
  others : ∀ v, v ≠ version → cafe.storedManifest v d' = cafe.storedManifest v d
  files : cafe.FilesLeft version manifest d d' stop

def stopIn (text : String) : Stop AnyError → Stop AnyError
  | .err e => .err (e.context text)
  | .killed => .killed

theorem run_context {σ α : Type} (text : String) (p : Io AnyError σ α) (w : World AnyError σ) :
    (context text p).run w = ((p.run w).1.mapError (stopIn text), (p.run w).2) := by
  rw [context, run_onErr]
  rcases p.run w with ⟨(e | _) | a, w'⟩ <;> rfl

/-- The disk once the directory and the manifest have been seen to. -/
structure CafeStore.ManifestLeft (cafe : CafeStore) (version : UInt64) (d d' : Disk) : Prop where
  wf : d.Wf → d'.Wf
  dirs : DirsStay d d'
  others : ∀ v, v ≠ version → cafe.storedManifest v d' = cafe.storedManifest v d
  pointer : cafe.pointer d' = cafe.pointer d

theorem manifestLeft_writeFile {d₁ d₂ : Disk} (h₁ : UnixFs.Within (fun _ => False) d d₁)
    (hdirs₁ : DirsStay d d₁)
    (h₂ : UnixFs.Within (· = resolve (self.manifestPath version)) d₁ d₂) (hdirs₂ : DirsStay d₁ d₂) :
    self.ManifestLeft version d d₂ := by
  refine ⟨h₂.wf ∘ h₁.wf, DirsStay.frame.trans _ _ _ hdirs₁ hdirs₂, fun v hv => ?_, ?_⟩
  · exact (h₂.content _ (manifestPath_ne hv)).trans (h₁.content _ id)
  · exact (h₂.content _ (pointer_ne_manifestPath self version)).trans (h₁.content _ id)

theorem left_of_manifest {d₂ d₃ : Disk} (h : self.ManifestLeft version d d₂)
    (h₃ : UnixFs.Within (· = resolve (currentVersionPath self.dataDir self.gameId)) d₂ d₃)
    (hdirs₃ : DirsStay d₂ d₃) {stop : SaveStop}
    (hfiles : self.storedManifest version d₃ = self.storedManifest version d₂ →
      self.FilesLeft version manifest d d₃ stop) :
    self.Left version manifest d d₃ stop := by
  have hmanifest : ∀ v, self.storedManifest v d₃ = self.storedManifest v d₂ := fun v =>
    h₃.content _ (pointer_ne_manifestPath self v).symm
  exact ⟨h₃.wf ∘ h.wf, DirsStay.frame.trans _ _ _ h.dirs hdirs₃,
    fun v hv => (hmanifest v).trans (h.others v hv), hfiles (hmanifest version)⟩

/-- What a save leaves is said by where it stops. -/
theorem left_saveManifest (blake3 : Bytes → Hash) (self : CafeStore) (version : UInt64)
    (manifest : Bytes) (w : World AnyError Disk) :
    self.Left version manifest w.state ((self.saveManifest blake3 version manifest).run w).2.state
        (self.saveStop version manifest w)
      ∧ ((∃ store, ((self.saveManifest blake3 version manifest).run w).1 = .ok store)
        ↔ self.saveStop version manifest w = .after ∧ Decodes blake3 manifest) := by
  have h₁ : Keeps (UnixFs.Within fun _ => False)
      (createDirAll (manifestDir self.dataDir self.gameId) : FsIo Unit) := within_createDirAll
  have hdirs₁ : Keeps DirsStay
      (createDirAll (manifestDir self.dataDir self.gameId) : FsIo Unit) := dirsStay_createDirAll
  have h₁ := h₁.run w.state w.faults
  have hdirs₁ := hdirs₁.run w.state w.faults
  simp only [CafeStore.saveManifest, CafeStore.saveStop, run_bind, run_context]
  rcases hmk : (createDirAll (manifestDir self.dataDir self.gameId) : FsIo Unit).run w with
    ⟨e | _, w₁⟩ <;> rw [hmk] at h₁ hdirs₁
  · simp only [Except.mapError]
    refine ⟨⟨h₁.wf, hdirs₁, fun v _ => h₁.content _ id, h₁.content _ id, h₁.content _ id⟩, ?_⟩
    simp
  simp only [Except.mapError]
  have h₂ : Keeps (UnixFs.Within (· = resolve (self.manifestPath version)))
      (writeFile (self.manifestPath version) manifest : FsIo Unit) :=
    within_writeFile (P := (· = resolve (self.manifestPath version))) rfl manifest
  have hdirs₂ : Keeps DirsStay (writeFile (self.manifestPath version) manifest : FsIo Unit) :=
    dirsStay_writeFile manifest
  have h₂ := h₂.run w₁.state w₁.faults
  have hdirs₂ := hdirs₂.run w₁.state w₁.faults
  rcases hmf : (writeFile (self.manifestPath version) manifest : FsIo Unit).run w₁ with
    ⟨e | _, w₂⟩ <;> rw [hmf] at h₂ hdirs₂
  all_goals
    have hleft := manifestLeft_writeFile h₁ hdirs₁ h₂ hdirs₂
  · have hcontent := content_of_stopped hmf
    refine ⟨⟨hleft.wf, hleft.dirs, hleft.others, ?_⟩, ?_⟩
    · rcases hstop : writeStop (self.manifestPath version) manifest w₁ with _ | n
      · rw [hstop] at hcontent
        exact ⟨hleft.pointer, hcontent.trans (h₁.content _ id)⟩
      · rw [hstop] at hcontent
        exact ⟨hleft.pointer, hcontent⟩
    · rcases writeStop (self.manifestPath version) manifest w₁ with _ | n <;> simp
  simp only
  have hmanifest : self.storedManifest version w₂.state = some manifest := content_of_written hmf
  have h₃ : Keeps (UnixFs.Within (· = resolve (currentVersionPath self.dataDir self.gameId)))
      (writeFile (currentVersionPath self.dataDir self.gameId) (pointerBytes version)
        : FsIo Unit) :=
    within_writeFile (P := (· = resolve (currentVersionPath self.dataDir self.gameId))) rfl _
  have hdirs₃ : Keeps DirsStay (writeFile (currentVersionPath self.dataDir self.gameId)
      (pointerBytes version) : FsIo Unit) := dirsStay_writeFile _
  have h₃ := h₃.run w₂.state w₂.faults
  have hdirs₃ := hdirs₃.run w₂.state w₂.faults
  rw [show nameBytes (toString version.toNat) = pointerBytes version from rfl]
  rcases hpf : (writeFile (currentVersionPath self.dataDir self.gameId) (pointerBytes version)
    : FsIo Unit).run w₂ with ⟨e | _, w₃⟩ <;> rw [hpf] at h₃ hdirs₃
  · have hcontent := content_of_stopped hpf
    refine ⟨left_of_manifest hleft h₃ hdirs₃ fun hm => ?_, ?_⟩
    · rcases hstop : writeStop (currentVersionPath self.dataDir self.gameId)
        (pointerBytes version) w₂ with _ | n
      · rw [hstop] at hcontent
        refine ⟨hcontent.trans hleft.pointer, hm.trans ?_⟩
        rw [hmanifest, List.take_length]
      · rw [hstop] at hcontent
        exact ⟨hcontent, hm.trans hmanifest⟩
    · rcases writeStop (currentVersionPath self.dataDir self.gameId) (pointerBytes version) w₂
        with _ | n <;> simp
  · have hfiles : self.storedManifest version w₃.state = self.storedManifest version w₂.state →
        self.FilesLeft version manifest w.state w₃.state .after := fun hm =>
      ⟨content_of_written hpf, hm.trans hmanifest⟩
    have hafter := left_of_manifest hleft h₃ hdirs₃ hfiles
    simp only [CafeStore.setCurrent, Decodes]
    rcases hdecode : GameIndex.decode blake3 manifest with e | index
    · refine ⟨hafter, ?_, ?_⟩
      · rintro ⟨_, h⟩
        cases h
      · rintro ⟨-, _, h⟩
        cases h
    · exact ⟨hafter, fun _ => ⟨trivial, index, rfl⟩, fun _ => ⟨_, rfl⟩⟩

end Stops

section Recovery

theorem pointed_pointerBytes (version : UInt64) :
    pointed (pointerBytes version) = some version := by
  have htext : (toString version.toNat).toList = Nat.toDigits 10 version.toNat := by
    rw [Nat.toString_eq_repr, Nat.toList_repr]
  rw [pointed, pointerBytes, fromUtf8_eq_some.2 rfl, Option.bind_some, trim_of_notWhite, htext,
    parseU64_toDigits]
  exact fun c hc => isWhite_of_isDigit (digit_of_mem_toString hc)

theorem storedVersion_eq (self : CafeStore) (d : Disk) :
    self.storedVersion d = (self.pointer d).bind pointed := rfl

variable {o : Option (UInt64 × Bytes)}

theorem holds_some {v : UInt64} {b bytes : Bytes} (hp : self.pointer d = some bytes)
    (hv : pointed bytes = some v) (hb : self.storedManifest v d = some b) :
    self.Holds d (some (v, b)) := ⟨by rw [storedVersion_eq, hp]; exact hv, hb⟩

theorem holds_congr (hpointer : self.pointer d' = self.pointer d)
    (hmanifest : ∀ p ∈ o, self.storedManifest p.1 d' = self.storedManifest p.1 d)
    (h : self.Holds d o) : self.Holds d' o := by
  rcases o with _ | ⟨v, b⟩
  · exact hpointer.trans h
  · exact ⟨by rw [storedVersion_eq, hpointer]; exact h.1, (hmanifest (v, b) rfl).trans h.2⟩

/-- The store opens on `d'` with the pair that was there or the new one. -/
def CafeStore.Recovered (blake3 : Bytes → Hash) (self : CafeStore) (version : UInt64)
    (manifest : Bytes) (o : Option (UInt64 × Bytes)) (d' : Disk) : Prop :=
  ∃ o', self.Holds d' o' ∧ (∀ p ∈ o', Decodes blake3 p.2) ∧ (o' = o ∨ o' = some (version, manifest))

/-- On a disk that stands for `o'` only that can be found. -/
theorem recovered_iff {o' : Option (UInt64 × Bytes)} (h : self.Holds d' o') :
    self.Recovered blake3 version manifest o d'
      ↔ (∀ p ∈ o', Decodes blake3 p.2) ∧ (o' = o ∨ o' = some (version, manifest)) := by
  constructor
  · rintro ⟨o'', h'', hrest⟩
    rwa [CafeStore.Holds.unique h h'']
  · exact fun hrest => ⟨o', h, hrest⟩

variable (ho : self.Holds d o) (hdecodes : ∀ p ∈ o, Decodes blake3 p.2)
include ho hdecodes

theorem recovered_manifest {n : ℕ} (h : self.Left version manifest d d' (.manifest n)) :
    self.Recovered blake3 version manifest o d'
      ↔ self.StopSafe blake3 version manifest d (.manifest n) := by
  obtain ⟨hpointer, hmanifest⟩ := h.files
  by_cases hsame : self.storedVersion d = some version
  · -- the manifest in place is overwritten
    obtain ⟨b, rfl⟩ : ∃ b, o = some (version, b) := by
      rcases o with _ | ⟨v, b⟩
      · have hnone : self.pointer d = none := ho
        rw [storedVersion_eq, hnone] at hsame
        cases hsame
      · exact ⟨b, by rw [Option.some.inj (ho.1.symm.trans hsame)]⟩
    have hstored : self.storedManifest version d = some b := ho.2
    have hnew : self.Holds d' (some (version, manifest.take n)) :=
      ⟨by rw [storedVersion_eq, hpointer]; exact hsame, hmanifest⟩
    rw [recovered_iff hnew, CafeStore.StopSafe, hstored]
    simp only [hsame, true_imp_iff, Option.mem_some_iff, forall_eq', Option.some.injEq,
      Prod.mk.injEq, true_and]
    constructor
    · rintro ⟨hd, he | he⟩
      · exact .inl he.symm
      · exact .inr ⟨he, he ▸ hd⟩
    · rintro (he | ⟨he, hd⟩)
      · exact ⟨he ▸ hdecodes _ rfl, .inl he.symm⟩
      · exact ⟨he.symm ▸ hd, .inr he⟩
  · have hold : self.Holds d' o :=
      holds_congr hpointer (fun p hp => h.others p.1 fun he => hsame ?_) ho
    · exact ⟨fun _ hs => absurd hs hsame, fun _ => (recovered_iff hold).2 ⟨hdecodes, .inl rfl⟩⟩
    · obtain rfl : o = some p := hp
      exact he ▸ ho.1

theorem recovered_pointer {n : ℕ} (h : self.Left version manifest d d' (.pointer n)) :
    self.Recovered blake3 version manifest o d'
      ↔ self.StopSafe blake3 version manifest d (.pointer n) := by
  obtain ⟨hpointer, hmanifest⟩ := h.files
  rcases hv : pointed ((pointerBytes version).take n) with _ | v
  · -- the store does not open
    refine ⟨?_, by rintro ⟨v, h, -⟩; rw [hv] at h; cases h⟩
    rintro ⟨o', ho', -⟩
    rcases o' with _ | p
    · exact absurd (hpointer.symm.trans ho') (by simp)
    · have := ho'.1
      rw [storedVersion_eq, hpointer, Option.bind_some, hv] at this
      cases this
  have hsafe : self.StopSafe blake3 version manifest d (.pointer n)
      ↔ v = version ∧ Decodes blake3 manifest ∨ v ≠ version ∧ self.storedVersion d = some v := by
    simp [CafeStore.StopSafe, hv]
  rw [hsafe]
  by_cases hvv : v = version
  · -- the new version is named already
    subst hvv
    rw [recovered_iff (holds_some hpointer hv hmanifest)]
    simp
  · simp only [hvv, false_and, false_or, ne_eq, not_false_eq_true, true_and]
    constructor
    · rintro ⟨o', ho', -, hcase⟩
      have hnamed : self.storedVersion d' = some v := by
        rw [storedVersion_eq, hpointer]
        exact hv
      rcases o' with _ | p
      · have hnone : self.pointer d' = none := ho'
        rw [storedVersion_eq, hnone] at hnamed
        cases hnamed
      · obtain rfl : p.1 = v := Option.some.inj (ho'.1.symm.trans hnamed)
        rcases hcase with rfl | hcase
        · exact ho.1
        · exact absurd (congrArg Prod.fst (Option.some.inj hcase)) hvv
    · intro hstored
      rcases o with _ | ⟨u, b⟩
      · have hnone : self.pointer d = none := ho
        rw [storedVersion_eq, hnone] at hstored
        cases hstored
      · obtain rfl : u = v := Option.some.inj (ho.1.symm.trans hstored)
        have hb : self.storedManifest u d' = some b := (h.others u hvv).trans ho.2
        exact (recovered_iff (holds_some hpointer hv hb)).2 ⟨hdecodes, .inl rfl⟩

theorem recovered_iff_stopSafe {stop : SaveStop} (h : self.Left version manifest d d' stop) :
    self.Recovered blake3 version manifest o d' ↔ self.StopSafe blake3 version manifest d stop := by
  cases stop with
  | before =>
    obtain ⟨hpointer, hmanifest⟩ := h.files
    have hold : self.Holds d' o := by
      refine holds_congr hpointer (fun p _ => ?_) ho
      by_cases hp : p.1 = version
      · rw [hp, hmanifest]
      · exact h.others p.1 hp
    exact iff_of_true ((recovered_iff hold).2 ⟨hdecodes, .inl rfl⟩) trivial
  | manifest n => exact recovered_manifest ho hdecodes h
  | pointer n => exact recovered_pointer ho hdecodes h
  | after =>
    obtain ⟨hpointer, hmanifest⟩ := h.files
    rw [recovered_iff (holds_some hpointer (pointed_pointerBytes version) hmanifest)]
    simp [CafeStore.StopSafe]

end Recovery

section Saves

theorem CafeStore.Opened.holds (h : self.Opened blake3 d) :
    ∃ o, self.Holds d o ∧ ∀ p ∈ o, Decodes blake3 p.2 := by
  obtain ⟨store, d', hopen⟩ := h.opens
  exact holds_of_openStore h.wf h.game h.temp hopen

theorem CafeStore.Opened.of_holds {o : Option (UInt64 × Bytes)}
    (h : self.Opened blake3 d) (hwf : d'.Wf)
    (hdirs : DirsStay d d') (ho : self.Holds d' o) (hdecodes : ∀ p ∈ o, Decodes blake3 p.2) :
    self.Opened blake3 d' := by
  have hgame := Disk.isDir_of_dirsStay hdirs h.game
  have htemp := Disk.isDir_of_dirsStay hdirs h.temp
  obtain ⟨store, log, hopen, -⟩ := openStore_of_holds hwf hgame htemp ho hdecodes
  exact ⟨hwf, hgame, htemp, store, _, hopen⟩

/-- The pair tells what the files stand for. -/
theorem pair_eq_iff {d₁ : Disk} {o₁ : Option (UInt64 × Bytes)} (o₂ : Option (UInt64 × Bytes))
    (h₁ : d₁.Wf) (hbase₁ : d₁.isDir self.base) (ho₁ : self.Holds d₁ o₁) :
    self.pair d₁ = (.ok (o₂.map Prod.fst), .ok (o₂.map Prod.snd)) ↔ o₁ = o₂ := by
  rw [pair_of_holds h₁ hbase₁ ho₁]
  constructor
  · intro h
    simp only [Prod.mk.injEq, Except.ok.injEq] at h
    rcases o₁ with _ | p <;> rcases o₂ with _ | q
    · rfl
    · cases h.1
    · cases h.1
    · exact congrArg some (Prod.ext (Option.some.inj h.1) (Option.some.inj h.2))
  · rintro rfl
    rfl

/-- A stop does harm just where the store does not recover. -/
theorem recovers_iff_stopsSafely (h : self.Opened blake3 d) (faults : List (Fault AnyError)) :
    self.Recovers blake3 d version manifest faults
      ↔ self.StopsSafely blake3 d version manifest faults := by
  obtain ⟨o, ho, hdecodes⟩ := h.holds
  obtain ⟨hleft, hok⟩ := left_saveManifest blake3 self version manifest ⟨d, faults⟩
  have hsafe := recovered_iff_stopSafe ho hdecodes hleft
  have hpair := pair_of_holds h.wf (isDir_base h.temp) ho
  rw [CafeStore.StopsSafely, ← hsafe]
  rcases hrun : (self.saveManifest blake3 version manifest).run ⟨d, faults⟩ with ⟨e | store, w'⟩
  all_goals
    rw [hrun] at hleft hok hsafe
    have hwf' := hleft.wf h.wf
    have hgame' := Disk.isDir_of_dirsStay hleft.dirs h.game
    have htemp' := Disk.isDir_of_dirsStay hleft.dirs h.temp
  · constructor
    · intro hrec
      obtain ⟨store, d'', hopen, hcase⟩ := hrec e w' hrun
      obtain ⟨o', ho', hdecodes'⟩ := holds_of_openStore hwf' hgame' htemp' hopen
      obtain ⟨store', log, hopen', hpair'⟩ := openStore_of_holds hwf' hgame' htemp' ho' hdecodes'
      obtain ⟨hs, rfl⟩ := Prod.mk.inj (hopen.symm.trans hopen')
      obtain rfl : store = store' := Except.ok.inj hs
      rw [hpair', hpair] at hcase
      exact ⟨o', ho', hdecodes', hcase.imp (pair_eq_iff _ hwf' (isDir_base htemp') ho').1
        (pair_eq_iff (some (version, manifest)) hwf' (isDir_base htemp') ho').1⟩
    · rintro ⟨o', ho', hdecodes', hcase⟩ e₂ w₂ hrun₂
      obtain ⟨-, rfl⟩ := Prod.mk.inj (hrun.symm.trans hrun₂)
      obtain ⟨store, log, hopen, hpair'⟩ := openStore_of_holds hwf' hgame' htemp' ho' hdecodes'
      refine ⟨store, _, hopen, ?_⟩
      rw [hpair', hpair]
      exact hcase.imp (pair_eq_iff _ hwf' (isDir_base htemp') ho').2
        (pair_eq_iff (some (version, manifest)) hwf' (isDir_base htemp') ho').2
  · obtain ⟨hstop, hnew⟩ := hok.1 ⟨store, rfl⟩
    rw [hstop] at hleft hsafe
    refine iff_of_true (fun e₂ w₂ hrun₂ => ?_) (hsafe.2 hnew)
    cases hrun.symm.trans hrun₂

/-- A save that stops safely, or not at all, leaves a store that opens. -/
theorem opened_save (h : self.Opened blake3 d) {faults : List (Fault AnyError)}
    (hstop : self.StopsSafely blake3 d version manifest faults) :
    self.Opened blake3 (self.leaves blake3 d (.save version manifest faults)) := by
  obtain ⟨o, ho, hdecodes⟩ := h.holds
  obtain ⟨hleft, -⟩ := left_saveManifest blake3 self version manifest ⟨d, faults⟩
  obtain ⟨o', ho', hdecodes', -⟩ := (recovered_iff_stopSafe ho hdecodes hleft).2 hstop
  exact h.of_holds (hleft.wf h.wf) hleft.dirs ho' hdecodes'

theorem opened_reopen (h : self.Opened blake3 d) :
    self.Opened blake3 (self.leaves blake3 d .reopen) := by
  obtain ⟨o, ho, hdecodes⟩ := h.holds
  obtain ⟨store, log, hopen, -⟩ := openStore_of_holds h.wf h.game h.temp ho hdecodes
  rw [CafeStore.leaves, hopen]
  exact h.of_holds (h.wf.congr fun _ => rfl) (fun _ hp => hp)
    (holds_congr rfl (fun _ _ => rfl) ho) hdecodes

/-- Over a run of saves with any faults and of restarts, from a store that has been opened, each
save that fails or dies leaves a store that opens with the old or the new pair if and only if each
one stops where it does no harm. -/
theorem eachSave_recovers_iff (blake3 : Bytes → Hash) (self : CafeStore) (d : Disk)
    (steps : List CafeStep) (h : self.Opened blake3 d) :
    self.EachSave blake3 (self.Recovers blake3) d steps
      ↔ self.EachSave blake3 (self.StopsSafely blake3) d steps := by
  induction steps generalizing d with
  | nil => exact Iff.rfl
  | cons step steps ih =>
    cases step with
    | save version manifest faults =>
      simp only [CafeStore.EachSave]
      rw [recovers_iff_stopsSafely h faults]
      exact and_congr_right fun hstop => ih _ (opened_save h hstop)
    | reopen => exact ih _ (opened_reopen h)

theorem not_stopSafe_pointer {n : ℕ} (h : pointed ((pointerBytes version).take n) = none) :
    ¬ self.StopSafe blake3 version manifest d (.pointer n) := by
  rintro ⟨v, hv, -⟩
  rw [h] at hv
  cases hv

/-- The store of a cafe that has version 1. -/
def cafeStoreA : CafeStore := ⟨1, components "/data", none⟩

theorem opened_cafeWithA : cafeStoreA.Opened (fun _ => .fill 0) cafeWithA := by
  have hwf : cafeWithA.Wf := Disk.wf_of_entries (by decide +kernel) (by decide +kernel)
  have hgame : cafeWithA.isDir (gameDir cafeStoreA.dataDir cafeStoreA.gameId) := by decide +kernel
  have htemp : cafeWithA.isDir (tempDir cafeStoreA.dataDir cafeStoreA.gameId) := by decide +kernel
  have hholds : cafeStoreA.Holds cafeWithA (some (1, (versionOf "a.bin").encode)) :=
    ⟨by decide +kernel, by decide +kernel⟩
  have hdecodes : Decodes (fun _ => .fill 0) (versionOf "a.bin").encode :=
    ⟨versionOf "a.bin", by decide +kernel⟩
  obtain ⟨store, log, hopen, -⟩ := openStore_of_holds hwf hgame htemp hholds fun p hp => by
    rw [← Option.mem_some_iff.1 hp]
    exact hdecodes
  exact ⟨hwf, hgame, htemp, store, _, hopen⟩

/-- The process dies in the middle of a manifest; the save is made again after a restart. -/
def savedAgain : List CafeStep :=
  [.save 2 (versionOf "b.bin").encode [.none, .none, .none, .kill 3], .reopen,
    .save 2 (versionOf "b.bin").encode [], .reopen]

theorem eachSave_recovers_iff_saved :
    cafeStoreA.EachSave (fun _ => .fill 0) (cafeStoreA.Recovers fun _ => .fill 0) cafeWithA
      savedAgain := by
  refine (eachSave_recovers_iff _ cafeStoreA cafeWithA savedAgain opened_cafeWithA).2
    ⟨?_, ?_, trivial⟩
  · have hstop : cafeStoreA.saveStop 2 (versionOf "b.bin").encode
        ⟨cafeWithA, [.none, .none, .none, .kill 3]⟩ = .manifest 3 := by decide +kernel
    have hstored : cafeStoreA.storedVersion cafeWithA = some 1 := by decide +kernel
    rw [CafeStore.StopsSafely, hstop, CafeStore.StopSafe, hstored]
    exact fun hsame => absurd (Option.some.inj hsame) (by decide)
  · have hstop : cafeStoreA.saveStop 2 (versionOf "b.bin").encode
        ⟨((cafeStoreA.leaves (fun _ => .fill 0) (cafeStoreA.leaves (fun _ => .fill 0) cafeWithA
          (.save 2 (versionOf "b.bin").encode [.none, .none, .none, .kill 3])) .reopen)), []⟩
          = .after := by decide +kernel
    rw [CafeStore.StopsSafely, hstop]
    exact ⟨versionOf "b.bin", by decide +kernel⟩

/-- `current.version` has been emptied to have version 2 written into it. -/
theorem saveStop_emptied : cafeStoreA.saveStop 2 (versionOf "b.bin").encode
    ⟨cafeWithA, [.none, .none, .none, .none, .none, .kill 0]⟩ = .pointer 0 := by decide +kernel

theorem not_stopsSafely_emptied : ¬ cafeStoreA.StopsSafely (fun _ => .fill 0) cafeWithA 2
    (versionOf "b.bin").encode [.none, .none, .none, .none, .none, .kill 0] := by
  unfold CafeStore.StopsSafely
  rw [saveStop_emptied]
  exact not_stopSafe_pointer (by decide +kernel)

/-- The process dies there: the store does not open any more. -/
theorem recovers_emptiedPointer : ¬ ∀ (blake3 : Bytes → Hash) (self : CafeStore) (d : Disk)
    (version : UInt64) (manifest : Bytes) (faults : List (Fault AnyError)),
    self.Opened blake3 d → self.Recovers blake3 d version manifest faults := by
  intro h
  have hrec := h (fun _ => .fill 0) cafeStoreA cafeWithA 2 (versionOf "b.bin").encode
    [.none, .none, .none, .none, .none, .kill 0] opened_cafeWithA
  rw [recovers_iff_stopsSafely opened_cafeWithA] at hrec
  exact not_stopsSafely_emptied hrec

end Saves

end BlazeNet
