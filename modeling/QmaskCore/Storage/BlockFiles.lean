import QmaskCore.Lib.Device
import QmaskCore.Primitives.BlockCodec
import QmaskCore.Storage.BlockData

/-!
The block files byte by byte, on a disk that can fail.

`BlockData` counts what a file holds in blocks. Here a file is its bytes, and a
call is the list of its writes, so that the process can end between any two of
them, or inside one, and a power failure can take back what is not durable.
`BlockFilesOp` are the calls and the failures; after a failure a new process
opens what is left.
-/

namespace QmaskCore

/-- How a block looks in a file. -/
structure BlockFormat where
  tx : TxCodec
  /-- `MAINNET_MAGIC`. -/
  magic : List UInt8
  verifyNetworkMagic : List UInt8 → Bool

/-- The magic is recognised. -/
structure BlockFormat.Sound (F : BlockFormat) : Prop where
  length : F.magic.length = 4
  verified : F.verifyNetworkMagic F.magic = true

/-- The block data of one process: its disk and the number of its current file. -/
structure BlockFiles where
  device : Device BlockIndexDB
  mLastBlockFile : Nat

/-- A call that stores a block. -/
inductive StoreCall where
  | writeBlock (block : Block) (height : Nat) (chainWork : Bytes32)
  | writeBlockConnected (block : Block) (height : Nat) (chainWork : Bytes32) (undo : BlockUndo)

def StoreCall.block : StoreCall → Block
  | writeBlock block _ _ => block
  | writeBlockConnected block _ _ _ => block

/-- What happens to the block data. -/
inductive BlockFilesOp where
  | complete (call : StoreCall)
  /-- The process ends after `k` writes of a call, `torn` bytes into the next, and
  another starts. With neither it ends between two calls. -/
  | stop (call : StoreCall) (k torn : Nat)
  /-- The same, and the power fails: the database comes back as it was at some
  point, and anything may stand where bytes were not durable. -/
  | powerFailure (call : StoreCall) (k torn kept : Nat) (tails : Nat → List UInt8)

def BlockFilesOp.storeCall : BlockFilesOp → StoreCall
  | complete call => call
  | stop call _ _ => call
  | powerFailure call _ _ _ _ => call

namespace BlockFiles

open Device

/-- An empty data directory. -/
def empty : BlockFiles := ⟨Device.new BlockDisk.empty.db, 0⟩

/-- The constructor reads the number of the last file back. -/
def open' (device : Device BlockIndexDB) : BlockFiles := ⟨device, device.db.lastBlockFile.getD 0⟩

def file (s : BlockFiles) (nFile : Nat) : List UInt8 := (s.device.files nFile).bytes

def readBlockIndex (s : BlockFiles) (blockHash : Bytes32) : Option BlockIndexEntry :=
  s.device.db.index.lookup blockHash

section

variable (P : Params) (F : BlockFormat)

/-! ### Writing -/

/-- `MAX_BLOCK_FILE_SIZE`, as the 32 bits it is compared in. -/
def maxFileSize : UInt32 := 128 * 1024 * 1024

/-- The writes that append a block to a file. -/
def appendRecord (nFile : Nat) (data : List UInt8) : List (Write BlockIndexDB) :=
  [.append nFile (F.magic ++ writeLE32 (UInt32.ofNat data.length)), .append nFile data, .fsync nFile]

/-- The current file has no room for the block. -/
@[irreducible] def rollsOver (block : Block) (s : BlockFiles) : Bool :=
  let dataSize := UInt32.ofNat (block.serialize F.tx).length
  let currentSize := UInt32.ofNat (s.file s.mLastBlockFile).length
  maxFileSize < currentSize + dataSize + 8

/-- Where a block goes, and the writes that put it there. -/
def writeBlockToDisk (block : Block) (s : BlockFiles) : DiskBlockPos × List (Write BlockIndexDB) :=
  let data := block.serialize F.tx
  if s.rollsOver F block then
    let nFile := s.mLastBlockFile + 1
    (⟨nFile, 0⟩, .put (fun db => { db with lastBlockFile := some nFile }) :: appendRecord F nFile data)
  else
    let currentSize := UInt32.ofNat (s.file s.mLastBlockFile).length
    (⟨s.mLastBlockFile, currentSize.toNat⟩, appendRecord F s.mLastBlockFile data)

/-- The entry of the file is brought up to date with that of a block. -/
def updateFileInfo (entry : BlockIndexEntry) (db : BlockIndexDB) : BlockIndexDB :=
  BlockData.putFileInfo entry.blockPos.nFile (BlockData.updatedFileInfo db entry) db

/-- The writes of a call behind those that append the block. -/
def recordEntry (entry : BlockIndexEntry) : StoreCall → List (Write BlockIndexDB)
  | .writeBlock block _ _ =>
      let blockHash := block.getHash P.sha256
      .put (BlockData.putIndex blockHash entry) ::
        (block.transactions.map fun tx => .put (BlockData.putTxIndex blockHash · tx)) ++
        [.put (updateFileInfo entry)]
  | .writeBlockConnected block _ _ undo =>
      let blockHash := block.getHash P.sha256
      [.batch fun db =>
        BlockData.putFileInfo entry.blockPos.nFile (BlockData.updatedFileInfo db entry)
          (block.transactions.foldl (BlockData.putTxIndex blockHash)
            (BlockData.putUndo blockHash undo (BlockData.putIndex blockHash entry db)))]

/-- The entry a call makes for its block. -/
def entryOf (pos : DiskBlockPos) : StoreCall → BlockIndexEntry
  | .writeBlock block height chainWork => BlockData.indexEntry block height chainWork pos
  | .writeBlockConnected block height chainWork _ => BlockData.indexEntry block height chainWork pos

/-- All writes of a call. -/
def writesOf (call : StoreCall) (s : BlockFiles) : List (Write BlockIndexDB) :=
  let out := s.writeBlockToDisk F call.block
  out.2 ++ recordEntry P (entryOf out.1 call) call

def apply (s : BlockFiles) : BlockFilesOp → BlockFiles
  | .complete call =>
      ⟨(s.writesOf P F call).foldl Device.write s.device, (s.writeBlockToDisk F call.block).1.nFile⟩
  | .stop call k torn =>
      open' ((interrupted (s.writesOf P F call) k torn).foldl Device.write s.device)
  | .powerFailure call k torn kept tails =>
      open' (((interrupted (s.writesOf P F call) k torn).foldl Device.write s.device).powerFailure
        kept tails)

/-! ### Reading -/

/-- `ReadBlockFromDisk`. -/
def readBlock (s : BlockFiles) (pos : DiskBlockPos) : Option Block :=
  let rest := (s.file pos.nFile).drop pos.nPos
  if rest.length < 8 then none
  else if F.verifyNetworkMagic (rest.take 4) = false then none
  else
    let dataSize := readLE32 (rest.drop 4)
    if dataSize = 0 ∨ P.maxBlockSize < dataSize then none
    else
      let data := rest.drop 8
      if data.length < dataSize.toNat then none
      else Block.deserialize F.tx (data.take dataSize.toNat)

/-- Every entry of the index leads to its own block. -/
def Readable (s : BlockFiles) : Prop :=
  ∀ blockHash entry, s.readBlockIndex blockHash = some entry →
    ∃ block, s.readBlock P F entry.blockPos = some block ∧ block.getHash P.sha256 = blockHash

/-- A call that starts a new file finds it empty. -/
def StartsFresh (s : BlockFiles) (op : BlockFilesOp) : Prop :=
  s.rollsOver F op.storeCall.block = true → s.file (s.mLastBlockFile + 1) = []

end

end BlockFiles

end QmaskCore
