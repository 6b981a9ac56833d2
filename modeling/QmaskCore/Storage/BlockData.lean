import QmaskCore.Lib.AssocList
import QmaskCore.Storage.BlockUndo

/-!
`BlockData`: block files and the index that points into them.

A block file is the list of the blocks appended to it; a `DiskBlockPos` is the
byte offset at which a block starts, and `recordAt` walks the file to it. The
index database holds the entries, the undo records in their serialized form
and the transaction index. `writeBlock_spec` and `writeBlockConnected_spec` say
that a new block is read where its entry points and that every older block
stays where it was.

File numbers, offsets and heights are counted without a bound: the source
keeps them in 32 bits.
-/

namespace QmaskCore

structure BlockFileInfo where
  nBlocks : Nat
  nSize : Nat
  nHeightFirst : Nat
  nHeightLast : Nat
  nTimeFirst : UInt64
  nTimeLast : UInt64
deriving DecidableEq

def BlockFileInfo.empty : BlockFileInfo := ⟨0, 0, 0, 0, 0, 0⟩

structure DiskBlockPos where
  nFile : Nat
  nPos : Nat
deriving DecidableEq

structure BlockIndexEntry where
  nVersion : UInt32
  hashPrev : Bytes32
  hashMerkleRoot : Bytes32
  nTime : UInt64
  nHeight : Nat
  nBits : UInt32
  nNonce : UInt32
  nChainWork : Bytes32
  blockPos : DiskBlockPos
  nTx : Nat
  hasData : Bool
deriving DecidableEq

/-- The index database. -/
structure BlockIndexDB where
  /-- `DB_BLOCK_INDEX` -/
  index : AList fun _ : Bytes32 => BlockIndexEntry
  /-- `DB_BLOCK_UNDO` -/
  undo : AList fun _ : Bytes32 => List UInt8
  /-- `DB_TX_INDEX` -/
  txIndex : AList fun _ : Bytes32 => Bytes32
  /-- `DB_BLOCK_FILES` -/
  fileInfo : AList fun _ : Nat => BlockFileInfo
  /-- `DB_LAST_BLOCK` -/
  lastBlockFile : Option Nat
deriving DecidableEq

/-- What survives of the block data when the process ends. -/
structure BlockDisk where
  db : BlockIndexDB
  files : AList fun _ : Nat => List Block
deriving DecidableEq

def BlockDisk.empty : BlockDisk := ⟨⟨∅, ∅, ∅, ∅, none⟩, ∅⟩

structure BlockData where
  disk : BlockDisk
  mLastBlockFile : Nat
  mHistory : List BlockDisk
deriving DecidableEq

def maxBlockFileSize : Nat := 128 * 1024 * 1024

/-- The bytes a block takes in a file, its magic and length in front. -/
def recordSize (P : Params) (block : Block) : Nat := block.getSerializedSize P + 8

def fileSize (P : Params) (file : List Block) : Nat := (file.map (recordSize P)).sum

/-- The block that starts at an offset of a file. -/
def recordAt (P : Params) : List Block → Nat → Option Block
  | [], _ => none
  | block :: file, nPos =>
      if nPos = 0 then some block
      else if nPos < recordSize P block then none
      else recordAt P file (nPos - recordSize P block)

theorem recordSize_pos (P : Params) (block : Block) : 0 < recordSize P block := by
  unfold recordSize
  omega

/-- What can be read from a file can still be read once more is appended. -/
theorem recordAt_append_of_some {P : Params} {block new : Block} : ∀ {file : List Block}
    {nPos : Nat}, recordAt P file nPos = some block →
    recordAt P (file ++ [new]) nPos = some block := by
  intro file
  induction file with
  | nil => exact fun found => nomatch found
  | cons first file ih =>
      intro nPos found
      rw [List.cons_append, recordAt]
      rw [recordAt] at found
      split
      · rename_i start
        rwa [if_pos start] at found
      · rename_i start
        rw [if_neg start] at found
        split
        · rename_i inside
          rw [if_pos inside] at found
          cases found
        · rename_i inside
          rw [if_neg inside] at found
          exact ih found

/-- A block appended to a file is read at the file's former end. -/
theorem recordAt_fileSize (P : Params) (new : Block) : ∀ file : List Block,
    recordAt P (file ++ [new]) (fileSize P file) = some new := by
  intro file
  induction file with
  | nil => rfl
  | cons first file ih =>
      have start := recordSize_pos P first
      have size : fileSize P (first :: file) = recordSize P first + fileSize P file := rfl
      rw [List.cons_append, recordAt, size, if_neg (by omega), if_neg (by omega),
        Nat.add_sub_cancel_left, ih]

namespace BlockData

/-- The constructor: the number of the last file is read back. -/
def ofDisk (disk : BlockDisk) : BlockData := ⟨disk, disk.db.lastBlockFile.getD 0, []⟩

/-- A write to the index database. -/
def writeDB (d : BlockData) (f : BlockIndexDB → BlockIndexDB) : BlockData :=
  let disk := { d.disk with db := f d.disk.db }
  { d with disk, mHistory := d.mHistory ++ [disk] }

def file (d : BlockData) (nFile : Nat) : List Block := (d.disk.files.lookup nFile).getD []

/-- A block is appended to the current file. -/
def appendBlock (d : BlockData) (block : Block) : BlockData :=
  let disk := { d.disk with
    files := d.disk.files.insert d.mLastBlockFile (d.file d.mLastBlockFile ++ [block]) }
  { d with disk, mHistory := d.mHistory ++ [disk] }

def writeLastBlockFile (d : BlockData) (nFile : Nat) : BlockData :=
  { d with mLastBlockFile := nFile }.writeDB fun db => { db with lastBlockFile := some nFile }

def writeBlockToDisk (P : Params) (block : Block) (d : BlockData) : DiskBlockPos × BlockData :=
  let dataSize := block.getSerializedSize P
  let currentSize := fileSize P (d.file d.mLastBlockFile)
  if maxBlockFileSize < currentSize + dataSize + 8 then
    let d := d.writeLastBlockFile (d.mLastBlockFile + 1)
    (⟨d.mLastBlockFile, 0⟩, d.appendBlock block)
  else (⟨d.mLastBlockFile, currentSize⟩, d.appendBlock block)

/-- The record at a position, whatever its size. -/
def recordAt (P : Params) (d : BlockData) (pos : DiskBlockPos) : Option Block :=
  QmaskCore.recordAt P (d.file pos.nFile) pos.nPos

/-- `ReadBlockFromDisk` refuses a record whose size is not that of a block. -/
def readBlock (P : Params) (d : BlockData) (pos : DiskBlockPos) : Option Block :=
  match d.recordAt P pos with
  | none => none
  | some block =>
      let dataSize := block.getSerializedSize P
      if dataSize = 0 ∨ P.maxBlockSize.toNat < dataSize then none else some block

def readBlockIndex (d : BlockData) (blockHash : Bytes32) : Option BlockIndexEntry :=
  d.disk.db.index.lookup blockHash

def hasBlock (d : BlockData) (blockHash : Bytes32) : Bool := (d.readBlockIndex blockHash).isSome

def readTxIndex (d : BlockData) (txid : Bytes32) : Option Bytes32 := d.disk.db.txIndex.lookup txid

def readBlockUndo (d : BlockData) (blockHash : Bytes32) : Option BlockUndo :=
  match d.disk.db.undo.lookup blockHash with
  | none => none
  | some blob => BlockUndo.deserialize blob

/-- The entry both ways of storing a block write. -/
def indexEntry (block : Block) (height : Nat) (chainWork : Bytes32) (pos : DiskBlockPos) :
    BlockIndexEntry where
  nVersion := block.header.version
  hashPrev := block.header.prevBlockHash
  hashMerkleRoot := block.header.merkleRoot
  nTime := block.header.timestamp
  nHeight := height
  nBits := block.header.bits
  nNonce := block.header.nonce
  nChainWork := chainWork
  blockPos := pos
  nTx := block.transactions.length
  hasData := true

/-- The record of a file once a block has been added to it. -/
def updatedFileInfo (db : BlockIndexDB) (entry : BlockIndexEntry) : BlockFileInfo :=
  let info := (db.fileInfo.lookup entry.blockPos.nFile).getD .empty
  let first : Bool := info.nBlocks + 1 = 1
  { nBlocks := info.nBlocks + 1
    nSize := entry.blockPos.nPos
    nHeightFirst :=
      if first || entry.nHeight < info.nHeightFirst then entry.nHeight else info.nHeightFirst
    nHeightLast :=
      if first || info.nHeightLast < entry.nHeight then entry.nHeight else info.nHeightLast
    nTimeFirst := if first || entry.nTime < info.nTimeFirst then entry.nTime else info.nTimeFirst
    nTimeLast := if first || info.nTimeLast < entry.nTime then entry.nTime else info.nTimeLast }

def putIndex (blockHash : Bytes32) (entry : BlockIndexEntry) (db : BlockIndexDB) : BlockIndexDB :=
  { db with index := db.index.insert blockHash entry }

def putTxIndex (blockHash : Bytes32) (db : BlockIndexDB) (tx : Transaction) : BlockIndexDB :=
  { db with txIndex := db.txIndex.insert tx.hash blockHash }

def putFileInfo (nFile : Nat) (info : BlockFileInfo) (db : BlockIndexDB) : BlockIndexDB :=
  { db with fileInfo := db.fileInfo.insert nFile info }

def putUndo (blockHash : Bytes32) (undo : BlockUndo) (db : BlockIndexDB) : BlockIndexDB :=
  { db with undo := db.undo.insert blockHash undo.serialize }

/-- A block is stored, in one write for its entry, one for each transaction and
one for the file. -/
def writeBlock (P : Params) (block : Block) (height : Nat) (chainWork : Bytes32) (d : BlockData) :
    BlockData :=
  let (pos, d) := d.writeBlockToDisk P block
  let entry := indexEntry block height chainWork pos
  let blockHash := block.getHash P.sha256
  let d := d.writeDB (putIndex blockHash entry)
  let d := block.transactions.foldl (fun d tx => d.writeDB (putTxIndex blockHash · tx)) d
  d.writeDB fun db => putFileInfo pos.nFile (updatedFileInfo db entry) db

/-- A block is stored together with its undo record, in one batch. -/
def writeBlockConnected (P : Params) (block : Block) (height : Nat) (chainWork : Bytes32)
    (undo : BlockUndo) (d : BlockData) : BlockData :=
  let (pos, d) := d.writeBlockToDisk P block
  let entry := indexEntry block height chainWork pos
  let blockHash := block.getHash P.sha256
  d.writeDB fun db =>
    putFileInfo pos.nFile (updatedFileInfo db entry)
      (block.transactions.foldl (putTxIndex blockHash)
        (putUndo blockHash undo (putIndex blockHash entry db)))

/-! ### What storing a block does -/

/-- No file lies behind the current one. -/
def FilesEnd (d : BlockData) : Prop := ∀ n, d.mLastBlockFile < n → d.file n = []

/-- A block is in the files and the index points at it; what was in the files
is still there. -/
structure Recorded (P : Params) (block : Block) (height : Nat) (chainWork : Bytes32)
    (d d' : BlockData) : Prop where
  entry : ∃ pos, d'.recordAt P pos = some block ∧
    d'.disk.db.index =
      d.disk.db.index.insert (block.getHash P.sha256) (indexEntry block height chainWork pos)
  kept : ∀ {pos b}, d.recordAt P pos = some b → d'.recordAt P pos = some b
  files : d'.FilesEnd

theorem file_appendBlock (d : BlockData) (block : Block) (n : Nat) :
    (d.appendBlock block).file n =
      if n = d.mLastBlockFile then d.file n ++ [block] else d.file n := by
  change ((d.disk.files.insert _ _).lookup n).getD [] = _
  split
  · rename_i same
    rw [same, AList.lookup_insert]
    rfl
  · rename_i other
    rw [AList.lookup_insert_ne other]
    rfl

/-- A block appended to the current file is read at its end, and no record is lost. -/
theorem appendBlock_spec {P : Params} {d : BlockData} (files : d.FilesEnd) (block : Block) :
    (d.appendBlock block).recordAt P
        ⟨d.mLastBlockFile, fileSize P (d.file d.mLastBlockFile)⟩ = some block ∧
      (∀ {pos b}, d.recordAt P pos = some b → (d.appendBlock block).recordAt P pos = some b) ∧
      (d.appendBlock block).FilesEnd := by
  refine ⟨?_, fun found => ?_, fun n above => ?_⟩
  · rw [recordAt, file_appendBlock, if_pos rfl]
    exact recordAt_fileSize P block _
  · rw [recordAt, file_appendBlock]
    split
    · exact recordAt_append_of_some found
    · exact found
  · have above : d.mLastBlockFile < n := above
    rw [file_appendBlock, if_neg (by omega)]
    exact files n above

/-- A block reaches the files, and the index is as before. -/
theorem writeBlockToDisk_spec {P : Params} {d : BlockData} (files : d.FilesEnd) (block : Block) :
    (d.writeBlockToDisk P block).2.recordAt P (d.writeBlockToDisk P block).1 = some block ∧
      (∀ {pos b}, d.recordAt P pos = some b →
        (d.writeBlockToDisk P block).2.recordAt P pos = some b) ∧
      (d.writeBlockToDisk P block).2.FilesEnd ∧
      (d.writeBlockToDisk P block).2.disk.db.index = d.disk.db.index ∧
      (d.writeBlockToDisk P block).2.disk.db.undo = d.disk.db.undo := by
  unfold writeBlockToDisk
  dsimp only
  split
  · -- The current file is full: the block opens the next one, which is empty.
    have ended : (d.writeLastBlockFile (d.mLastBlockFile + 1)).FilesEnd :=
      fun n above => files n (Nat.lt_of_succ_lt above)
    have empty : (d.writeLastBlockFile (d.mLastBlockFile + 1)).file
        (d.writeLastBlockFile (d.mLastBlockFile + 1)).mLastBlockFile = [] :=
      files _ (Nat.lt_succ_self _)
    obtain ⟨here, kept, ended⟩ := appendBlock_spec ended block (P := P)
    rw [empty] at here
    exact ⟨here, fun found => kept found, ended, rfl, rfl⟩
  · obtain ⟨here, kept, ended⟩ := appendBlock_spec files block (P := P)
    exact ⟨here, kept, ended, rfl, rfl⟩

theorem disk_foldl_putTxIndex (blockHash : Bytes32) : ∀ (txs : List Transaction) (db : BlockIndexDB),
    (txs.foldl (putTxIndex blockHash) db).index = db.index ∧
      (txs.foldl (putTxIndex blockHash) db).undo = db.undo := by
  intro txs
  induction txs with
  | nil => exact fun _ => ⟨rfl, rfl⟩
  | cons tx txs ih => exact fun db => ih (putTxIndex blockHash db tx)

/-- Entries of the transaction index written one by one change nothing else. -/
theorem foldl_writeDB_putTxIndex (blockHash : Bytes32) : ∀ (txs : List Transaction) (d : BlockData),
    let d' := txs.foldl (fun d tx => d.writeDB (putTxIndex blockHash · tx)) d
    d'.disk.files = d.disk.files ∧ d'.mLastBlockFile = d.mLastBlockFile ∧
      d'.disk.db.index = d.disk.db.index ∧ d'.disk.db.undo = d.disk.db.undo := by
  intro txs
  induction txs with
  | nil => exact fun _ => ⟨rfl, rfl, rfl, rfl⟩
  | cons tx txs ih => exact fun d => ih (d.writeDB (putTxIndex blockHash · tx))

/-- Data with the same files has the same records. -/
theorem recordAt_congr {P : Params} {d d' : BlockData} (same : d'.disk.files = d.disk.files)
    (pos : DiskBlockPos) : d'.recordAt P pos = d.recordAt P pos := by
  rw [recordAt, recordAt, file, file, same]

theorem FilesEnd.congr {d d' : BlockData} (files : d.FilesEnd)
    (same : d'.disk.files = d.disk.files) (last : d'.mLastBlockFile = d.mLastBlockFile) :
    d'.FilesEnd := by
  intro n above
  rw [file, same]
  exact files n (last ▸ above)

theorem writeBlock_spec {P : Params} {d : BlockData} (files : d.FilesEnd) (block : Block)
    (height : Nat) (chainWork : Bytes32) :
    Recorded P block height chainWork d (d.writeBlock P block height chainWork) ∧
      (d.writeBlock P block height chainWork).disk.db.undo = d.disk.db.undo := by
  obtain ⟨here, kept, ended, index, undo⟩ := writeBlockToDisk_spec files block (P := P)
  unfold writeBlock
  dsimp only
  generalize d.writeBlockToDisk P block = out at here kept ended index undo ⊢
  have same := foldl_writeDB_putTxIndex (block.getHash P.sha256) block.transactions
    (out.2.writeDB (putIndex (block.getHash P.sha256) (indexEntry block height chainWork out.1)))
  generalize block.transactions.foldl _ _ = d₁ at same ⊢
  obtain ⟨sameFiles, sameLast, sameIndex, sameUndo⟩ := same
  have sameFiles' : (d₁.writeDB fun db => putFileInfo out.1.nFile
      (updatedFileInfo db (indexEntry block height chainWork out.1)) db).disk.files =
      out.2.disk.files := sameFiles
  refine ⟨⟨⟨out.1, ?_, ?_⟩, fun found => ?_, ended.congr sameFiles' sameLast⟩, ?_⟩
  · rw [recordAt_congr sameFiles', here]
  · change d₁.disk.db.index = _
    rw [sameIndex, ← index]
    rfl
  · rw [recordAt_congr sameFiles', kept found]
  · change d₁.disk.db.undo = _
    rw [sameUndo, ← undo]
    rfl

theorem writeBlockConnected_spec {P : Params} {d : BlockData} (files : d.FilesEnd) (block : Block)
    (height : Nat) (chainWork : Bytes32) (record : BlockUndo) :
    Recorded P block height chainWork d
        (d.writeBlockConnected P block height chainWork record) ∧
      (d.writeBlockConnected P block height chainWork record).disk.db.undo =
        d.disk.db.undo.insert (block.getHash P.sha256) record.serialize := by
  obtain ⟨here, kept, ended, index, undo⟩ := writeBlockToDisk_spec files block (P := P)
  unfold writeBlockConnected
  dsimp only
  generalize d.writeBlockToDisk P block = out at here kept ended index undo ⊢
  obtain ⟨sameIndex, sameUndo⟩ := disk_foldl_putTxIndex (block.getHash P.sha256) block.transactions
    (putUndo (block.getHash P.sha256) record
      (putIndex (block.getHash P.sha256) (indexEntry block height chainWork out.1) out.2.disk.db))
  refine ⟨⟨⟨out.1, here, ?_⟩, kept, ended⟩, ?_⟩
  · refine sameIndex.trans ?_
    rw [← index]
    rfl
  · refine sameUndo.trans ?_
    rw [← undo]
    rfl

end BlockData

end QmaskCore
