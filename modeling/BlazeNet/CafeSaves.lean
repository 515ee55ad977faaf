import BlazeNet.CafeStore
import BlazeNet.Lib.FsContent

/-!
# What a save leaves behind

`save_manifest` writes the manifest of the version, then `current.version`, and then decodes the
manifest. A call that fails, a kill and a restart find the two files as they were written by then.
-/

namespace BlazeNet

open Wire FaultIo Io RustStd UnixFs

section Stops

/-- Where a save stops. -/
inductive SaveStop where
  /-- Neither file has been begun. -/
  | before
  | manifest (written : ℕ)
  | pointer (written : ℕ)
  /-- Both files are written. -/
  | after
  deriving DecidableEq

variable (blake3 : Bytes → Hash) (self : CafeStore) (version : UInt64) (manifest : Bytes)

def pointerBytes : Bytes := nameBytes (toString version.toNat)

/-- Where the faults stop a save. -/
def CafeStore.saveStop (w : World AnyError Disk) : SaveStop :=
  let path := self.manifestPath version
  let pointer := currentVersionPath self.dataDir self.gameId
  match (createDirAll (manifestDir self.dataDir self.gameId) : FsIo Unit).run w with
  | (.error _, _) => .before
  | (.ok _, w₁) => match (writeFile path manifest : FsIo Unit).run w₁ with
    | (.error _, _) => match writeStop path manifest w₁ with
      | none => .before
      | some n => .manifest n
    | (.ok _, w₂) => match (writeFile pointer (pointerBytes version) : FsIo Unit).run w₂ with
      | (.error _, _) => match writeStop pointer (pointerBytes version) w₂ with
        | none => .manifest manifest.length
        | some n => .pointer n
      | (.ok _, _) => .after

/-- The version a content of `current.version` stands for. -/
def pointed (bytes : Bytes) : Option UInt64 :=
  (fromUtf8 bytes).bind fun text => parseU64 (trim text.toList)

def CafeStore.storedVersion (d : Disk) : Option UInt64 :=
  (d.content (resolve (currentVersionPath self.dataDir self.gameId))).bind pointed

def CafeStore.storedManifest (d : Disk) : Option Bytes :=
  d.content (resolve (self.manifestPath version))

def Decodes : Prop := ∃ index, GameIndex.decode blake3 manifest = .ok index

/-- A stop that does no harm: a manifest in the place of the current one is that one still, or
complete and readable; a pointer names a version whose manifest is in place. -/
def CafeStore.StopSafe (d : Disk) : SaveStop → Prop
  | .before => True
  | .manifest n => self.storedVersion d = some version →
      self.storedManifest version d = some (manifest.take n)
        ∨ manifest.take n = manifest ∧ Decodes blake3 manifest
  | .pointer n => ∃ v, pointed ((pointerBytes version).take n) = some v
      ∧ (v = version ∧ Decodes blake3 manifest ∨ v ≠ version ∧ self.storedVersion d = some v)
  | .after => Decodes blake3 manifest

end Stops

section Saves

/-- The directory of a store that has been opened. -/
structure CafeStore.Opened (blake3 : Bytes → Hash) (cafe : CafeStore) (d : Disk) : Prop where
  wf : d.Wf
  game : d.isDir (gameDir cafe.dataDir cafe.gameId)
  temp : d.isDir (tempDir cafe.dataDir cafe.gameId)
  opens : ∃ store d', exec (openStore blake3 cafe.dataDir cafe.gameId) d = (.ok store, d')

variable (blake3 : Bytes → Hash) (self : CafeStore)

/-- What `current_version` and `current_manifest_bytes` give. -/
def CafeStore.pair (d : Disk) :
    Except (Stop AnyError) (Option UInt64) × Except (Stop AnyError) (Option Bytes) :=
  ((exec self.currentVersion d).1, (exec self.currentManifestBytes d).1)

/-- If the save fails or the process dies in it, the store opens on what is left, with the pair it
had or the new one. -/
def CafeStore.Recovers (d : Disk) (version : UInt64) (manifest : Bytes)
    (faults : List (Fault AnyError)) : Prop :=
  ∀ e w', (self.saveManifest blake3 version manifest).run ⟨d, faults⟩ = (.error e, w') →
    ∃ store d', exec (openStore blake3 self.dataDir self.gameId) w'.state = (.ok store, d')
      ∧ (store.pair d' = self.pair d ∨ store.pair d' = (.ok (some version), .ok (some manifest)))

inductive CafeStep where
  | save (version : UInt64) (manifest : Bytes) (faults : List (Fault AnyError))
  | reopen

def CafeStore.leaves (d : Disk) : CafeStep → Disk
  | .save version manifest faults =>
    ((self.saveManifest blake3 version manifest).run ⟨d, faults⟩).2.state
  | .reopen => (exec (openStore blake3 self.dataDir self.gameId) d).2

/-- `P` holds of each save of a run, on the disk it finds. -/
def CafeStore.EachSave (P : Disk → UInt64 → Bytes → List (Fault AnyError) → Prop) :
    Disk → List CafeStep → Prop
  | _, [] => True
  | d, .save version manifest faults :: steps => P d version manifest faults
      ∧ EachSave P (self.leaves blake3 d (.save version manifest faults)) steps
  | d, .reopen :: steps => EachSave P (self.leaves blake3 d .reopen) steps

/-- The save stops where it does no harm, or not at all. -/
def CafeStore.StopsSafely (d : Disk) (version : UInt64) (manifest : Bytes)
    (faults : List (Fault AnyError)) : Prop :=
  self.StopSafe blake3 version manifest d (self.saveStop version manifest ⟨d, faults⟩)

end Saves

end BlazeNet
