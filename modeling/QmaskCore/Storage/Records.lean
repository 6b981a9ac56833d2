import QmaskCore.Storage.Positions

/-!
The bytes of the block files hold the blocks `BlockData` counts.

`Abstracts` relates block data byte by byte to block data block by block. A call
that completes does the same to both (`Abstracts.writeBlock`,
`Abstracts.writeBlockConnected`), and a block is read from the one where it is
read from the other (`Abstracts.readBlock`).
-/

namespace QmaskCore

open Device BlockFiles

/-- The size of a transaction is the number of its bytes. -/
def BlockFormat.Sized (P : Params) (F : BlockFormat) : Prop :=
  ∀ tx, P.getSerializedSize tx = (F.tx.serialize tx).length

/-- Every file is the bytes of its blocks, and the databases are the same. -/
structure Abstracts (P : Params) (F : BlockFormat) (s : BlockFiles) (d : BlockData) : Prop where
  db : s.device.db = d.disk.db
  last : s.mLastBlockFile = d.mLastBlockFile
  files : ∀ n, s.file n = (d.file n).flatMap (record F)

namespace Abstracts

variable {P : Params} {F : BlockFormat} {s : BlockFiles} {d : BlockData}

theorem getSerializedSize_eq (sized : F.Sized P) (block : Block) :
    block.getSerializedSize P = (block.serialize F.tx).length := by
  have each : (fun tx => 4 + P.getSerializedSize tx) = fun tx => 4 + (F.tx.serialize tx).length :=
    funext fun tx => congrArg (4 + ·) (sized tx)
  rw [Block.length_serialize, Block.getSerializedSize, each]

theorem recordSize_eq (format : F.Sound) (sized : F.Sized P) (block : Block) :
    recordSize P block = (record F block).length := by
  rw [recordSize, getSerializedSize_eq sized, length_record format]

theorem fileSize_eq (format : F.Sound) (sized : F.Sized P) (blocks : List Block) :
    fileSize P blocks = (blocks.flatMap (record F)).length := by
  rw [fileSize, List.length_flatMap, funext (recordSize_eq format sized)]

/-- Both take the same file for a block. -/
theorem rollsOver_iff (format : F.Sound) (sized : F.Sized P)
    (room : P.maxBlockSize.toNat + 8 ≤ maxFileSize.toNat) (abs : Abstracts P F s d)
    (sound : Sound P F s) {block : Block} (storable : Storable P F block) :
    s.rollsOver F block = true ↔ maxBlockFileSize <
      fileSize P (d.file d.mLastBlockFile) + block.getSerializedSize P + 8 := by
  have limit : maxFileSize.toNat = maxBlockFileSize := rfl
  rw [← Bool.not_eq_false, rollsOver_eq_false room sound storable, abs.last, abs.files,
    ← fileSize_eq format sized, ← getSerializedSize_eq sized, limit, Nat.not_le]

/-- Both put a block in the same place. -/
theorem writeBlockToDisk (format : F.Sound) (sized : F.Sized P)
    (room : P.maxBlockSize.toNat + 8 ≤ maxFileSize.toNat) (abs : Abstracts P F s d)
    (sound : Sound P F s) {block : Block} (storable : Storable P F block) :
    let out := s.writeBlockToDisk F block
    let out' := d.writeBlockToDisk P block
    out.1 = out'.1 ∧ (out.2.foldl Device.write s.device).db = out'.2.disk.db ∧
      out'.2.mLastBlockFile = out.1.nFile ∧
      ∀ n, out'.2.file n = if n = out.1.nFile then d.file n ++ [block] else d.file n := by
  unfold BlockFiles.writeBlockToDisk BlockData.writeBlockToDisk
  dsimp only
  by_cases full : s.rollsOver F block = true
  · rw [if_pos full, if_pos ((abs.rollsOver_iff format sized room sound storable).mp full), abs.last]
    refine ⟨rfl, ?_, rfl, fun n => ?_⟩
    · change { s.device.db with lastBlockFile := some (d.mLastBlockFile + 1) } =
        { d.disk.db with lastBlockFile := some (d.mLastBlockFile + 1) }
      rw [abs.db]
    · rw [BlockData.file_appendBlock]
      rfl
  · have fits := mt (abs.rollsOver_iff format sized room sound storable).mpr full
    rw [if_neg full, if_neg fits, toNat_currentSize sound, abs.last, abs.files,
      ← fileSize_eq format sized]
    refine ⟨rfl, abs.db, rfl, fun n => ?_⟩
    rw [BlockData.file_appendBlock]

theorem foldl_putTxIndex (blockHash : Bytes32) : ∀ (txs : List Transaction)
    (device : Device BlockIndexDB) (d : BlockData), device.db = d.disk.db →
    ((txs.map fun tx => Write.put (BlockData.putTxIndex blockHash · tx)).foldl Device.write
      device).db = (txs.foldl (fun d tx => d.writeDB (BlockData.putTxIndex blockHash · tx)) d).disk.db := by
  intro txs
  induction txs with
  | nil => exact fun _ _ same => same
  | cons tx txs ih =>
      intro device d same
      refine ih _ _ ?_
      exact congrArg (BlockData.putTxIndex blockHash · tx) same

/-- A call that completed, once both have the same database and current file. -/
theorem complete {call : StoreCall} {d' : BlockData} (abs : Abstracts P F s d)
    (db : (s.apply P F (.complete call)).device.db = d'.disk.db)
    (last : d'.mLastBlockFile = (s.writeBlockToDisk F call.block).1.nFile)
    (files : ∀ n, d'.file n = if n = (s.writeBlockToDisk F call.block).1.nFile then
      d.file n ++ [call.block] else d.file n) :
    Abstracts P F (s.apply P F (.complete call)) d' where
  db := db
  last := last.symm
  files n := by
    have bytes := device_complete (P := P) (F := F) s call n
    dsimp only at bytes
    rw [files n]
    split
    · rename_i same
      rw [mLastBlockFile_complete, if_pos same] at bytes
      rw [bytes.1, abs.files, List.flatMap_append, List.flatMap_singleton]
    · rename_i other
      rw [mLastBlockFile_complete, if_neg other] at bytes
      rw [bytes.1, abs.files]

theorem writeBlock (format : F.Sound) (sized : F.Sized P)
    (room : P.maxBlockSize.toNat + 8 ≤ maxFileSize.toNat) (abs : Abstracts P F s d)
    (sound : Sound P F s) {block : Block} (storable : Storable P F block) (height : Nat)
    (chainWork : Bytes32) :
    Abstracts P F (s.apply P F (.complete (.writeBlock block height chainWork)))
      (d.writeBlock P block height chainWork) := by
  obtain ⟨pos, db, last, files⟩ := abs.writeBlockToDisk format sized room sound storable
  have indexed := congrArg (BlockData.putIndex (block.getHash P.sha256)
    (BlockData.indexEntry block height chainWork (d.writeBlockToDisk P block).1)) db
  have txs := foldl_putTxIndex (block.getHash P.sha256) block.transactions
    (((s.writeBlockToDisk F block).2.foldl Device.write s.device).write
      (.put (BlockData.putIndex (block.getHash P.sha256)
        (BlockData.indexEntry block height chainWork (d.writeBlockToDisk P block).1))))
    ((d.writeBlockToDisk P block).2.writeDB (BlockData.putIndex (block.getHash P.sha256)
      (BlockData.indexEntry block height chainWork (d.writeBlockToDisk P block).1))) indexed
  obtain ⟨sameFiles, sameLast, -, -⟩ := BlockData.foldl_writeDB_putTxIndex (block.getHash P.sha256)
    block.transactions ((d.writeBlockToDisk P block).2.writeDB
      (BlockData.putIndex (block.getHash P.sha256)
        (BlockData.indexEntry block height chainWork (d.writeBlockToDisk P block).1)))
  refine complete abs ?_ (sameLast.trans last) fun n => ?_
  · rw [BlockFiles.apply, writesOf, StoreCall.block, pos]
    dsimp only
    rw [List.foldl_append, entryOf, recordEntry, List.foldl_append, List.foldl_cons]
    exact congrArg (updateFileInfo _) txs
  · refine Eq.trans ?_ (files n)
    exact congrArg (fun files : AList fun _ : Nat => List Block => (files.lookup n).getD []) sameFiles

theorem writeBlockConnected (format : F.Sound) (sized : F.Sized P)
    (room : P.maxBlockSize.toNat + 8 ≤ maxFileSize.toNat) (abs : Abstracts P F s d)
    (sound : Sound P F s) {block : Block} (storable : Storable P F block) (height : Nat)
    (chainWork : Bytes32) (undo : BlockUndo) :
    Abstracts P F (s.apply P F (.complete (.writeBlockConnected block height chainWork undo)))
      (d.writeBlockConnected P block height chainWork undo) := by
  obtain ⟨pos, db, last, files⟩ := abs.writeBlockToDisk format sized room sound storable
  refine complete abs ?_ last files
  rw [BlockFiles.apply, writesOf, StoreCall.block, pos]
  dsimp only
  rw [List.foldl_append, entryOf, recordEntry]
  exact congrArg (fun db => BlockData.putFileInfo _ (BlockData.updatedFileInfo db
    (BlockData.indexEntry block height chainWork (d.writeBlockToDisk P block).1))
    (block.transactions.foldl (BlockData.putTxIndex (block.getHash P.sha256))
      (BlockData.putUndo (block.getHash P.sha256) undo (BlockData.putIndex (block.getHash P.sha256)
        (BlockData.indexEntry block height chainWork (d.writeBlockToDisk P block).1) db)))) db

/-- A record is found where its bytes stand. -/
theorem split_of_recordAt (format : F.Sound) (sized : F.Sized P) {block : Block} :
    ∀ {blocks : List Block} {nPos : Nat}, recordAt P blocks nPos = some block →
    ∃ before behind, blocks.flatMap (record F) = before ++ record F block ++ behind ∧
      before.length = nPos := by
  intro blocks
  induction blocks with
  | nil => exact fun found => nomatch found
  | cons first blocks ih =>
      intro nPos found
      rw [recordAt] at found
      split at found
      · rename_i start
        cases found
        exact ⟨[], blocks.flatMap (record F), rfl, start.symm⟩
      split at found
      · cases found
      · rename_i behindFirst
        obtain ⟨before, behind, bytes, start⟩ := ih found
        refine ⟨record F first ++ before, behind, ?_, ?_⟩
        · rw [List.flatMap_cons, bytes]
          simp only [List.append_assoc]
        · rw [List.length_append, start, ← recordSize_eq format sized]
          omega

/-- What `BlockData` reads at a position is read from the bytes there. -/
theorem readBlock (format : F.Sound) (sized : F.Sized P) (abs : Abstracts P F s d)
    {pos : DiskBlockPos} {block : Block} (storable : Storable P F block)
    (read : d.readBlock P pos = some block) : s.readBlock P F pos = some block := by
  have found : d.recordAt P pos = some block := by
    unfold BlockData.readBlock at read
    split at read
    · cases read
    · rename_i other found
      dsimp only at read
      split at read
      · cases read
      · cases read
        exact found
  obtain ⟨before, behind, bytes, start⟩ := split_of_recordAt format sized found
  exact readBlock_of_stored format storable ((abs.files pos.nFile).trans bytes) start

end Abstracts

end QmaskCore
