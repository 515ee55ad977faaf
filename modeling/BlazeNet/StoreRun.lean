import BlazeNet.Storage

/-!
# Runs of a block store

A store is opened, used and lost with its process, over and over, on the files of one directory;
every call meets faults of its own. Beside the run goes the record of what was stored: a chunk
whose hash has a place keeps it, another one is written at the end of the pack, and a compaction
writes the live chunks again from the start.
-/

namespace BlazeNet

open Wire FaultIo Io RustStd GameStore

/-- The calls on an open store. The compaction is told the outcome of its floating-point test. -/
inductive StoreOp where
  | append (hash : Hash) (data : Bytes)
  | appendBatch (chunks : List (Hash × Bytes))
  | compact (live : HashSet Hash) (belowThreshold : ℕ → ℕ → Bool) (availableSpace : ℕ)
  | read (hash : Hash)
  | contains (hash : Hash)
  | entries

inductive StoreReply where
  | place (loc : ℕ × UInt32)
  | places (locs : List (ℕ × UInt32))
  | compacted (done : Bool)
  | chunk (data : Option Bytes)
  | found (yes : Bool)
  | items (list : List (String × ℕ × UInt32))

def StoreOp.prog : StoreOp → StoreIo StoreReply
  | .append hash data => do return .place (← appendChunk hash data)
  | .appendBatch chunks => do return .places (← appendChunksBatch chunks)
  | .compact live below space => do return .compacted (← GameStore.compact live below space)
  | .read hash => do return .chunk (← readChunk hash)
  | .contains hash => do return .found (← GameStore.contains hash)
  | .entries => do return .items (← GameStore.entries)

inductive StoreSys where
  | closed (dir : GameDir)
  | opened (store : OpenStore)

def OpenStore.dir (s : OpenStore) : GameDir := ⟨some s.index, some s.pack, s.packCompact⟩

def StoreSys.dir : StoreSys → GameDir
  | .closed dir => dir
  | .opened s => s.dir

/-- A fresh handle on the directory; the handle there was is dropped first. -/
def StoreSys.reopen (gameId : UInt64) (sys : StoreSys) (faults : List (Fault AnyError)) :
    StoreSys :=
  match (openStore gameId).run ⟨sys.dir, faults⟩ with
  | (.ok self, w) => .opened
      ⟨self, w.state.index.getD ∅, w.state.pack.getD [], w.state.packCompact⟩
  | (.error _, w) => .closed w.state

section Record

/-- What was stored: the offset its bytes were written at, and the bytes. -/
abbrev Places := Hash → Option (ℕ × Bytes)

/-- The end of what is written, and the places. -/
structure Record where
  size : ℕ
  places : Places

def Record.empty : Record := ⟨0, fun _ => none⟩

def Record.store (r : Record) (c : Hash × Bytes) : Record :=
  if (r.places c.1).isSome then r
  else ⟨r.size + c.2.length, Function.update r.places c.1 (some (r.size, c.2))⟩

def Record.storeAll (r : Record) (cs : List (Hash × Bytes)) : Record := cs.foldl Record.store r

/-- The live chunks in the order a compaction of `s` lays them out. -/
def liveSorted (s : OpenStore) (live : HashSet Hash) : List Location :=
  (liveLocations s.self.gameId (s.index.toList.filter fun e =>
    (hexFixed 16 s.self.gameId.toNat).isPrefixOf e.1.toList) live).mergeSort locationLe

def liveChunks (s : OpenStore) (live : HashSet Hash) (g : Places) : List (Hash × Bytes) :=
  (liveSorted s live).filterMap fun l => (g l.1).map fun p => (l.1, p.2)

/-- What is stored once `op`, called on `s`, has replied. -/
def StoreOp.written (op : StoreOp) (s : OpenStore) (g : Places) (reply : StoreReply) : Places :=
  match op with
  | .append hash data => (Record.store ⟨s.self.size, g⟩ (hash, data)).places
  | .appendBatch chunks => (Record.storeAll ⟨s.self.size, g⟩ chunks).places
  | .compact live _ _ => match reply with
    | .compacted true => (Record.empty.storeAll (liveChunks s live g)).places
    | _ => g
  | _ => g

end Record

section Runs

variable {γ : Type}

/-- One call of `op`: the store after it, and what `note` makes of the reply. An error leaves the
store open; a killed process leaves its directory. -/
def StoreOp.call (note : StoreOp → OpenStore → γ → StoreReply → γ) (op : StoreOp) (s : OpenStore)
    (g : γ) (faults : List (Fault AnyError)) : StoreSys × γ :=
  match op.prog.run ⟨s, faults⟩ with
  | (.ok reply, w) => (.opened w.state, note op s g reply)
  | (.error (.err _), w) => (.opened w.state, g)
  | (.error .killed, w) => (.closed w.state.dir, g)

inductive StoreStep where
  | reopen (faults : List (Fault AnyError))
  | call (op : StoreOp) (faults : List (Fault AnyError))

def StoreStep.apply (gameId : UInt64) (note : StoreOp → OpenStore → γ → StoreReply → γ) :
    StoreStep → StoreSys × γ → StoreSys × γ
  | .reopen faults, (sys, g) => (sys.reopen gameId faults, g)
  | .call op faults, (.opened s, g) => op.call note s g faults
  | .call _ _, (.closed dir, g) => (.closed dir, g)

def runSteps (gameId : UInt64) (note : StoreOp → OpenStore → γ → StoreReply → γ) (g : γ)
    (steps : List StoreStep) : StoreSys × γ :=
  steps.foldl (fun st step => step.apply gameId note st) (.closed ⟨none, none, none⟩, g)

/-- The run from an empty directory, with the places of what was stored. -/
def placesRun (gameId : UInt64) (steps : List StoreStep) : StoreSys × Places :=
  runSteps gameId StoreOp.written (fun _ => none) steps

end Runs

section Conditions

/-- Every chunk of `cs` that gets a place gets one below 4 GiB, and is itself below 4 GiB long. -/
def Within : Record → List (Hash × Bytes) → Prop
  | _, [] => True
  | r, c :: cs =>
    (r.places c.1 = none → r.size < 2 ^ 32 ∧ c.2.length < 2 ^ 32) ∧ Within (r.store c) cs

/-- A compaction of `s` goes on to rewrite the pack. -/
def Rewrites (s : OpenStore) (live : HashSet Hash) (belowThreshold : ℕ → ℕ → Bool)
    (availableSpace : ℕ) : Prop :=
  s.self.size ≠ 0 ∧ belowThreshold (totalLen (liveSorted s live)) s.self.size = false
    ∧ totalLen (liveSorted s live) ≤ availableSpace

instance (s : OpenStore) (live : HashSet Hash) (below : ℕ → ℕ → Bool) (space : ℕ) :
    Decidable (Rewrites s live below space) := inferInstanceAs (Decidable (_ ∧ _ ∧ _))

/-- No chunk that `op` writes on `s` lies past what 32 bits can say. -/
def StoreOp.OffsetsFit (op : StoreOp) (s : OpenStore) (g : Places) : Prop :=
  match op with
  | .append hash data => Within ⟨s.self.size, g⟩ [(hash, data)]
  | .appendBatch chunks => Within ⟨s.self.size, g⟩ chunks
  | .compact live below space =>
    Rewrites s live below space → Within Record.empty (liveChunks s live g)
  | _ => True

/-- A fault that leaves an atomic call undone. -/
def Undone : Fault AnyError → Prop
  | .fail _ _ => True
  | .kill n => n = 0
  | _ => False

/-- The faults a compaction meets once the new pack is written: they stop the rename from being
made, or stop nothing. -/
def StoreOp.SwitchUndisturbed (op : StoreOp) (s : OpenStore) (faults : List (Fault AnyError)) :
    Prop :=
  match op with
  | .compact live below space => ∀ plan w,
    (compactRewrite live below space).run ⟨s, faults⟩ = (.ok (some plan), w) →
      (∃ f rest, w.faults = f :: rest ∧ Undone f) ∨ ∀ f ∈ w.faults, Benign f
  | _ => True

def StoreStep.Addressable : StoreStep → StoreSys × Places → Prop
  | .call op faults, (.opened s, g) => op.OffsetsFit s g ∧ op.SwitchUndisturbed s faults
  | _, _ => True

end Conditions

section Spec

/-- What a block store is for: a map that only grows, until a compaction trims it. -/
abbrev ChunkMap := Hash → Option Bytes

def ChunkMap.insertOnce (m : ChunkMap) (c : Hash × Bytes) : ChunkMap :=
  if (m c.1).isSome then m else Function.update m c.1 (some c.2)

def StoreOp.spec (op : StoreOp) (_ : OpenStore) (m : ChunkMap) (reply : StoreReply) : ChunkMap :=
  match op with
  | .append hash data => m.insertOnce (hash, data)
  | .appendBatch chunks => chunks.foldl ChunkMap.insertOnce m
  | .compact live _ _ => match reply with
    | .compacted true => fun h => if h ∈ live then m h else none
    | _ => m
  | _ => m

/-- The run from an empty directory, with the map it should be showing. -/
def mapRun (gameId : UInt64) (steps : List StoreStep) : StoreSys × ChunkMap :=
  runSteps gameId StoreOp.spec (fun _ => none) steps

def StoreStep.faults : StoreStep → List (Fault AnyError)
  | .reopen faults => faults
  | .call _ faults => faults

/-- All I/O of the step succeeds; a transfer may still be cut up. -/
def StoreStep.IoSucceeds (step : StoreStep) : Prop := ∀ f ∈ step.faults, Benign f

/-- The lookups on `s` answer as `m` does. -/
structure Shows (gameId : UInt64) (s : OpenStore) (m : ChunkMap) : Prop where
  read : ∀ h, exec (readChunk h) s = (.ok (m h), s)
  contains : ∀ h, exec (GameStore.contains h) s = (.ok (m h).isSome, s)
  entries : ∃ items, exec GameStore.entries s = (.ok items, s) ∧ (items.map (·.1)).Nodup
    ∧ (∀ h d, m h = some d → ∃ o, (key gameId h, o, UInt32.ofNat d.length) ∈ items)
    ∧ ∀ e ∈ items, ∃ h d, m h = some d ∧ e.1 = key gameId h ∧ e.2.2.toNat = d.length
      ∧ pread s.pack e.2.1 d.length = d

/-- What a call that replied has done to `s`, seen from the map `m` shown before it. -/
def StoreOp.Effect (op : StoreOp) (m : ChunkMap) (s : OpenStore) (reply : StoreReply)
    (s' : OpenStore) : Prop :=
  match op, reply with
  | .append hash _, .place _ => (m hash).isSome → s' = s
  | .appendBatch chunks, .places _ => (∀ c ∈ chunks, (m c.1).isSome) → s' = s
  | .compact live _ _, .compacted true =>
    s'.self.size = ((live.elems.filterMap m).map List.length).sum
  | .compact _ _ _, .compacted false => s' = s
  | .read hash, .chunk data => data = m hash ∧ s' = s
  | .contains hash, .found yes => yes = (m hash).isSome ∧ s' = s
  | .entries, .items _ => s' = s
  | _, _ => False

end Spec

section Stops

/-- The bytes at a place of a pack; `none` where the pack ends before. -/
def placeIn (file : Bytes) (value : UInt64) : Option Bytes :=
  if (unpack value).1 + (unpack value).2.toNat ≤ max (unpack value).1 file.length then
    some (pread file (unpack value).1 (unpack value).2.toNat)
  else none

variable (s : OpenStore) (live : HashSet Hash) (belowThreshold : ℕ → ℕ → Bool)
  (availableSpace : ℕ) (faults : List (Fault AnyError))

/-- Every place of the index holds in `file` what it holds in the open pack. -/
def OpenStore.SamePlaces (file : Bytes) : Prop :=
  ∀ hash value, s.index[key s.self.gameId hash]? = some value →
    placeIn file value = placeIn (packFileRef.content s) value

/-- The pack that a compaction writes: the live chunks in the order of their hashes. -/
def OpenStore.rewritten : Bytes :=
  (liveSorted s live).flatMap fun l => pread s.pack l.2.1 l.2.2.toNat

/-- The new pack gets written, and its rename meets no fault that leaves it undone. -/
def RenameMade : Prop :=
  ∃ plan w, (compactRewrite live belowThreshold availableSpace).run
    ⟨s, faults⟩ = (.ok (some plan), w)
    ∧ ¬ ∃ f rest, w.faults = f :: rest ∧ Undone f

/-- Every place of the index holds the same in the file that is at the path of the pack where the
compaction stops: the old one before the rename, the new one after it. -/
def HarmlessStop : Prop :=
  (¬ RenameMade s live belowThreshold availableSpace faults → s.SamePlaces s.pack)
    ∧ (RenameMade s live belowThreshold availableSpace faults → s.SamePlaces (s.rewritten live))

/-- Opened again on the files that `s'` has left, the store reads every chunk as `s` does. -/
def ReadsKept (s s' : OpenStore) : Prop :=
  ∃ s'', StoreSys.reopen s.self.gameId (.closed s'.dir) [] = .opened s''
    ∧ ∀ hash, (exec (readChunk hash) s'').1 = (exec (readChunk hash) s).1

end Stops

end BlazeNet
