import QmaskCore.SmallNetwork
import QmaskCore.Storage.BlockFiles

/-!
Does an index entry lead to its own block?

`Stored` says that the bytes of a block stand at a position; more bytes behind
them change nothing, so what is stored in the durable bytes of a file stays so.
`Sound` asks this of every entry the database can come back with. A call keeps
it, completed or not, when a new file it starts is empty (`Sound.apply`), so all
entries can be read along every run of such calls, whatever fails
(`entries_readable`).
-/

namespace QmaskCore

open Device

namespace BlockFiles

section

variable {P : Params} {F : BlockFormat} {s : BlockFiles}

/-- The bytes of a block in a file. -/
def record (F : BlockFormat) (block : Block) : List UInt8 :=
  F.magic ++ writeLE32 (UInt32.ofNat (block.serialize F.tx).length) ++ block.serialize F.tx

/-- A block of the size `CheckBlock` lets through that can be read back. -/
structure Storable (P : Params) (F : BlockFormat) (block : Block) : Prop where
  size : (block.serialize F.tx).length ≤ P.maxBlockSize.toNat
  inverts : Block.deserialize F.tx (block.serialize F.tx) = some block

/-- A block with the hash stands at a position. -/
def Stored (P : Params) (F : BlockFormat) (files : Nat → List UInt8) (pos : DiskBlockPos)
    (blockHash : Bytes32) : Prop :=
  ∃ before block behind, files pos.nFile = before ++ record F block ++ behind ∧
    before.length = pos.nPos ∧ block.getHash P.sha256 = blockHash ∧ Storable P F block

/-- Every entry of a database leads to a block with the hash it is filed under. -/
def Leads (P : Params) (F : BlockFormat) (files : Nat → List UInt8) (db : BlockIndexDB) : Prop :=
  ∀ blockHash entry, db.index.lookup blockHash = some entry →
    Stored P F files entry.blockPos blockHash

theorem Stored.grows {a b : Nat → List UInt8} (grows : Grows a b) {pos : DiskBlockPos}
    {blockHash : Bytes32} (stored : Stored P F a pos blockHash) : Stored P F b pos blockHash := by
  obtain ⟨before, block, behind, bytes, start, named, storable⟩ := stored
  obtain ⟨more, longer⟩ := grows pos.nFile
  refine ⟨before, block, behind ++ more, ?_, start, named, storable⟩
  rw [← longer, bytes, List.append_assoc _ behind]

theorem monotone_leads : Monotone (Leads P F) :=
  fun _ _ _ grows leads blockHash entry found => (leads blockHash entry found).grows grows

/-! ### Reading -/

/-- A block that stands at a position is read there. -/
theorem readBlock_of_stored (format : F.Sound) {pos : DiskBlockPos} {before behind : List UInt8}
    {block : Block} (storable : Storable P F block)
    (bytes : s.file pos.nFile = before ++ record F block ++ behind)
    (start : before.length = pos.nPos) : s.readBlock P F pos = some block := by
  have size : (UInt32.ofNat (block.serialize F.tx).length).toNat = (block.serialize F.tx).length :=
    UInt32.toNat_ofNat_of_lt' (storable.size.trans_lt (UInt32.toNat_lt _))
  have positive : UInt32.ofNat (block.serialize F.tx).length ≠ 0 := by
    intro zero
    rw [zero, Block.length_serialize, BlockHeader.serializedSize] at size
    have zero : (0 : UInt32).toNat = 0 := rfl
    omega
  have fits : ¬ P.maxBlockSize < UInt32.ofNat (block.serialize F.tx).length := by
    rw [UInt32.lt_iff_toNat_lt, size]
    exact Nat.not_lt.mpr storable.size
  have rest : (s.file pos.nFile).drop pos.nPos =
      F.magic ++ (writeLE32 (UInt32.ofNat (block.serialize F.tx).length) ++
        (block.serialize F.tx ++ behind)) := by
    rw [bytes, ← start, List.append_assoc, List.drop_left' rfl, record]
    simp only [List.append_assoc]
  have header : (F.magic ++ writeLE32 (UInt32.ofNat (block.serialize F.tx).length)).length = 8 := by
    rw [List.length_append, format.length, length_writeLE32]
  rw [readBlock, rest, if_neg (by simp [format.length]; omega), List.take_left' format.length,
    format.verified, if_neg Bool.true_eq_false.mp, List.drop_left' format.length]
  dsimp only
  rw [readLE32_writeLE32, if_neg (not_or.mpr ⟨positive, fits⟩), ← List.append_assoc,
    List.drop_left' header, size, if_neg (by simp), List.take_left' rfl, storable.inverts]

/-! ### Writing -/

/-- What the block data must be like: whatever a power failure leaves, its
entries lead to their blocks, and no file is too long. -/
structure Sound (P : Params) (F : BlockFormat) (s : BlockFiles) : Prop where
  safe : Safe (Leads P F) s.device
  short : ∀ n, (s.file n).length ≤ maxFileSize.toNat

theorem Sound.readable (format : F.Sound) (sound : Sound P F s) : Readable P F s := by
  intro blockHash entry found
  have whole : Grows s.device.syncedBytes s.file := fun n => List.take_prefix _ _
  obtain ⟨before, block, behind, bytes, start, named, storable⟩ :=
    (sound.safe.now blockHash entry found).grows whole
  exact ⟨block, readBlock_of_stored format storable bytes start, named⟩

/-- The sizes involved do not overflow their 32 bits. -/
theorem rollsOver_eq_false (room : P.maxBlockSize.toNat + 8 ≤ maxFileSize.toNat)
    (sound : Sound P F s) {block : Block} (storable : Storable P F block) :
    s.rollsOver F block = false ↔
      (s.file s.mLastBlockFile).length + (block.serialize F.tx).length + 8 ≤ maxFileSize.toNat := by
  have limit : maxFileSize.toNat = 134217728 := rfl
  have eight : (8 : UInt32).toNat = 8 := rfl
  have short := sound.short s.mLastBlockFile
  have size := storable.size
  rw [limit] at room short ⊢
  unfold rollsOver
  generalize s.file s.mLastBlockFile = bytes at short ⊢
  generalize block.serialize F.tx = data at size ⊢
  dsimp only
  rw [decide_eq_false_iff_not, UInt32.not_lt, UInt32.le_iff_toNat_le, UInt32.toNat_add,
    UInt32.toNat_add, UInt32.toNat_ofNat', UInt32.toNat_ofNat', limit, eight]
  omega

theorem toNat_currentSize (sound : Sound P F s) :
    (UInt32.ofNat (s.file s.mLastBlockFile).length).toNat = (s.file s.mLastBlockFile).length :=
  UInt32.toNat_ofNat_of_lt' ((sound.short _).trans_lt (UInt32.toNat_lt _))

/-- Once a block is appended and the file synced, all of the file is durable. -/
theorem syncedBytes_appendRecord (d : Device BlockIndexDB) (n : Nat) (block : Block) :
    ((appendRecord F n (block.serialize F.tx)).foldl Device.write d).syncedBytes n =
      (d.files n).bytes ++ record F block := by
  simp [appendRecord, Device.write, syncedBytes, record]

theorem length_record (format : F.Sound) (block : Block) :
    (record F block).length = (block.serialize F.tx).length + 8 := by
  rw [record, List.length_append, List.length_append, format.length, length_writeLE32]
  omega

theorem added_appendRecord (format : F.Sound) (n m : Nat) (block : Block) :
    ((appendRecord F n (block.serialize F.tx)).map (·.added m)).sum =
      if m = n then (block.serialize F.tx).length + 8 else 0 := by
  have header : (F.magic ++ writeLE32 (UInt32.ofNat (block.serialize F.tx).length)).length = 8 := by
    rw [List.length_append, format.length, length_writeLE32]
  simp only [appendRecord, List.map_cons, Write.added, header, List.map_nil, List.sum_cons,
    List.sum_nil]
  split
  · omega
  · rfl

/-- A block on its way to the disk: nothing is lost, it ends up durable where its
position says, and its file has room for it. -/
theorem writeBlockToDisk_spec (format : F.Sound)
    (room : P.maxBlockSize.toNat + 8 ≤ maxFileSize.toNat) (sound : Sound P F s) {block : Block}
    (storable : Storable P F block)
    (fresh : s.rollsOver F block = true → s.file (s.mLastBlockFile + 1) = []) :
    let out := s.writeBlockToDisk F block
    Run.Meets Device.write (Keeps (Leads P F)) out.2 s.device ∧
      Stored P F (out.2.foldl Device.write s.device).syncedBytes out.1 (block.getHash P.sha256) ∧
      ∀ n, (s.file n).length + (out.2.map (·.added n)).sum ≤ maxFileSize.toNat := by
  unfold writeBlockToDisk
  dsimp only
  cases full : s.rollsOver F block with
  | false =>
      rw [if_neg Bool.false_ne_true]
      have fits := (rollsOver_eq_false room sound storable).mp full
      refine ⟨⟨trivial, trivial, trivial, trivial⟩, ?_, fun n => ?_⟩
      · refine ⟨s.file s.mLastBlockFile, block, [], ?_, (toNat_currentSize sound).symm, rfl, storable⟩
        rw [syncedBytes_appendRecord, List.append_nil]
        rfl
      · rw [added_appendRecord format]
        split
        · rename_i same
          rw [same]
          omega
        · exact sound.short n
  | true =>
      rw [if_pos rfl]
      have empty := fresh full
      refine ⟨⟨sound.safe.now, trivial, trivial, trivial, trivial⟩, ?_, fun n => ?_⟩
      · refine ⟨[], block, [], ?_, rfl, rfl, storable⟩
        rw [List.foldl_cons, syncedBytes_appendRecord, List.nil_append, List.append_nil]
        change s.file (s.mLastBlockFile + 1) ++ record F block = _
        rw [empty, List.nil_append]
      · rw [List.map_cons, List.sum_cons, added_appendRecord format]
        simp only [Write.added, Nat.zero_add]
        split
        · rename_i same
          have size := storable.size
          rw [same, empty, List.length_nil]
          omega
        · exact sound.short n

/-- Writes to the database that leave its index alone. -/
theorem meets_puts : ∀ {puts : List (BlockIndexDB → BlockIndexDB)} {d : Device BlockIndexDB},
    (∀ f ∈ puts, ∀ db : BlockIndexDB, (f db).index = db.index) →
    Leads P F d.syncedBytes d.db →
    Run.Meets Device.write (Keeps (Leads P F)) (puts.map .put) d := by
  intro puts
  induction puts with
  | nil => exact fun _ _ => trivial
  | cons f puts ih =>
      intro d same leads
      have next : Leads P F d.syncedBytes (f d.db) := by
        intro blockHash entry found
        rw [same f List.mem_cons_self] at found
        exact leads blockHash entry found
      exact ⟨next, ih (fun g mem => same g (List.mem_cons_of_mem _ mem)) next⟩

/-- The entry of a block that is durable goes into the index. -/
theorem Leads.insert {files : Nat → List UInt8} {db db' : BlockIndexDB} {blockHash : Bytes32}
    {entry : BlockIndexEntry} (leads : Leads P F files db)
    (stored : Stored P F files entry.blockPos blockHash)
    (index : db'.index = db.index.insert blockHash entry) : Leads P F files db' := by
  intro hash found at'
  rw [index, AList.lookup_insert_if] at at'
  split at at'
  · rename_i same
    cases at'
    exact same ▸ stored
  · exact leads hash found at'

/-- Each write behind those of the block itself keeps what the database says true. -/
theorem meets_recordEntry {call : StoreCall} {pos : DiskBlockPos} {d : Device BlockIndexDB}
    (leads : Leads P F d.syncedBytes d.db)
    (stored : Stored P F d.syncedBytes pos (call.block.getHash P.sha256)) :
    Run.Meets Device.write (Keeps (Leads P F)) (recordEntry P (entryOf pos call) call) d := by
  cases call with
  | writeBlock block height chainWork =>
      have first : Leads P F d.syncedBytes (BlockData.putIndex (block.getHash P.sha256)
          (BlockData.indexEntry block height chainWork pos) d.db) :=
        leads.insert stored rfl
      have rest := @meets_puts P F ((block.transactions.map fun tx db =>
        BlockData.putTxIndex (block.getHash P.sha256) db tx) ++
          [updateFileInfo (BlockData.indexEntry block height chainWork pos)])
        (d.write (.put (BlockData.putIndex (block.getHash P.sha256)
          (BlockData.indexEntry block height chainWork pos)))) (fun f mem db => ?_) first
      · rw [List.map_append, List.map_map] at rest
        exact ⟨first, rest⟩
      · rcases List.mem_append.mp mem with tx | last
        · obtain ⟨tx, -, rfl⟩ := List.mem_map.mp tx
          rfl
        · rw [List.mem_singleton.mp last]
          rfl
  | writeBlockConnected block height chainWork undo =>
      refine ⟨@Leads.insert P F d.syncedBytes d.db _ _
        (BlockData.indexEntry block height chainWork pos) leads stored ?_, trivial⟩
      exact (BlockData.disk_foldl_putTxIndex _ _ _).1

/-- Every write of a call keeps what the database says true, and no file gets too long. -/
theorem writesOf_spec (format : F.Sound) (room : P.maxBlockSize.toNat + 8 ≤ maxFileSize.toNat)
    (sound : Sound P F s) {call : StoreCall} (storable : Storable P F call.block)
    (fresh : s.rollsOver F call.block = true → s.file (s.mLastBlockFile + 1) = []) :
    Run.Meets Device.write (Keeps (Leads P F)) (s.writesOf P F call) s.device ∧
      ∀ n, (s.file n).length + ((s.writesOf P F call).map (·.added n)).sum ≤ maxFileSize.toNat := by
  obtain ⟨append, stored, short⟩ := writeBlockToDisk_spec format room sound storable fresh
  have safe := sound.safe.writes monotone_leads append
  refine ⟨Run.meets_append.mpr ⟨append, meets_recordEntry safe.now stored⟩, fun n => ?_⟩
  have none : ((recordEntry P (entryOf (s.writeBlockToDisk F call.block).1 call) call).map
      (·.added n)).sum = 0 := by
    cases call with
    | writeBlock block height chainWork => simp [recordEntry, Write.added, Function.comp_def]
    | writeBlockConnected block height chainWork undo => rfl
  rw [writesOf, List.map_append, List.sum_append, none, Nat.add_zero]
  exact short n

/-! ### What a call leaves -/

/-- Writes to the database alone, that leave its index alone. -/
theorem foldl_puts : ∀ {puts : List (BlockIndexDB → BlockIndexDB)} {d : Device BlockIndexDB},
    (∀ f ∈ puts, ∀ db : BlockIndexDB, (f db).index = db.index) →
    ((puts.map Write.put).foldl Device.write d).files = d.files ∧
      ((puts.map Write.put).foldl Device.write d).db.index = d.db.index := by
  intro puts
  induction puts with
  | nil => exact fun _ => ⟨rfl, rfl⟩
  | cons f puts ih =>
      intro d same
      obtain ⟨files, index⟩ := ih (d := d.write (.put f)) fun g mem =>
        same g (List.mem_cons_of_mem _ mem)
      exact ⟨files, index.trans (same f List.mem_cons_self d.db)⟩

/-- The writes behind those of the block touch no file; they file its entry. -/
theorem recordEntry_spec (entry : BlockIndexEntry) (call : StoreCall) (d : Device BlockIndexDB) :
    let d' := (recordEntry P entry call).foldl Device.write d
    d'.files = d.files ∧ d'.db.index = d.db.index.insert (call.block.getHash P.sha256) entry := by
  cases call with
  | writeBlock block height chainWork =>
      have later := @foldl_puts ((block.transactions.map fun tx db =>
          BlockData.putTxIndex (block.getHash P.sha256) db tx) ++ [updateFileInfo entry])
        (d := d.write (.put (BlockData.putIndex (block.getHash P.sha256) entry)))
        (fun f mem db => ?_)
      · rw [List.map_append, List.map_map] at later
        exact later
      · rcases List.mem_append.mp mem with tx | last
        · obtain ⟨tx, -, rfl⟩ := List.mem_map.mp tx
          rfl
        · rw [List.mem_singleton.mp last]
          rfl
  | writeBlockConnected block height chainWork undo =>
      exact ⟨rfl, (BlockData.disk_foldl_putTxIndex (block.getHash P.sha256) block.transactions
        (BlockData.putUndo (block.getHash P.sha256) undo
          (BlockData.putIndex (block.getHash P.sha256) entry d.db))).1⟩

theorem mLastBlockFile_complete (s : BlockFiles) (call : StoreCall) :
    (s.apply P F (.complete call)).mLastBlockFile = (s.writeBlockToDisk F call.block).1.nFile := rfl

/-- The block data a call that completed leaves: the block is durable behind what
its file held. -/
theorem device_complete (s : BlockFiles) (call : StoreCall) (n : Nat) :
    let s' := s.apply P F (.complete call)
    if n = s'.mLastBlockFile then
      s'.file n = s.file n ++ record F call.block ∧ s'.device.syncedBytes n = s'.file n
    else s'.file n = s.file n ∧ s'.device.syncedBytes n = s.device.syncedBytes n := by
  have appended : ∀ (m : Nat) (d : Device BlockIndexDB),
      ((appendRecord F m (call.block.serialize F.tx)).foldl Device.write d).files =
        Function.update d.files m ⟨(d.files m).bytes ++ record F call.block,
          ((d.files m).bytes ++ record F call.block).length⟩ := by
    intro m d
    simp [appendRecord, Device.write, record, Function.update_idem]
  have files : (s.apply P F (.complete call)).device.files =
      Function.update s.device.files (s.writeBlockToDisk F call.block).1.nFile
        ⟨(s.device.files (s.writeBlockToDisk F call.block).1.nFile).bytes ++ record F call.block,
          ((s.device.files (s.writeBlockToDisk F call.block).1.nFile).bytes ++
            record F call.block).length⟩ := by
    simp only [apply, writesOf, List.foldl_append, (recordEntry_spec (P := P) _ _ _).1]
    unfold writeBlockToDisk
    split
    · exact appended _ _
    · exact appended _ _
  simp only [file, syncedBytes, files, mLastBlockFile_complete]
  split
  · rename_i same
    subst same
    simp
  · rename_i other
    simp [Function.update_of_ne other]

/-- The entry of the block points where the block was meant to go. -/
theorem readBlockIndex_complete (s : BlockFiles) (call : StoreCall) :
    (s.apply P F (.complete call)).readBlockIndex (call.block.getHash P.sha256) =
      some (entryOf (s.writeBlockToDisk F call.block).1 call) := by
  unfold readBlockIndex apply writesOf
  dsimp only
  rw [List.foldl_append, (recordEntry_spec _ call _).2, AList.lookup_insert]

theorem lastBlockFile_foldl_putTxIndex (blockHash : Bytes32) : ∀ (txs : List Transaction)
    (db : BlockIndexDB),
    (txs.foldl (BlockData.putTxIndex blockHash) db).lastBlockFile = db.lastBlockFile := by
  intro txs
  induction txs with
  | nil => exact fun _ => rfl
  | cons tx txs ih => exact fun db => ih (BlockData.putTxIndex blockHash db tx)

/-- Storing a connected block makes the whole database durable. -/
theorem db_writeBlockConnected (s : BlockFiles) (block : Block) (height : Nat) (chainWork : Bytes32)
    (undo : BlockUndo) (stays : ¬ s.rollsOver F block = true) :
    let s' := s.apply P F (.complete (.writeBlockConnected block height chainWork undo))
    s'.device.durable = [s'.device.db] ∧
      s'.device.db.lastBlockFile = s.device.db.lastBlockFile := by
  unfold apply writesOf writeBlockToDisk
  dsimp only
  rw [StoreCall.block, if_neg stays, List.foldl_append]
  refine ⟨rfl, ?_⟩
  generalize block.serialize F.tx = data
  exact lastBlockFile_foldl_putTxIndex _ _ _

/-- A call that starts a file which holds another block leaves an entry that
leads to that block. -/
theorem not_readable_of_stale (format : F.Sound) {call : StoreCall} {other : Block}
    {behind : List UInt8} (full : s.rollsOver F call.block = true) (storable : Storable P F other)
    (stale : s.file (s.mLastBlockFile + 1) = record F other ++ behind)
    (differs : other.getHash P.sha256 ≠ call.block.getHash P.sha256) :
    ¬ Readable P F (s.apply P F (.complete call)) := by
  intro readable
  have pos : (s.writeBlockToDisk F call.block).1 = ⟨s.mLastBlockFile + 1, 0⟩ := by
    rw [writeBlockToDisk, if_pos full]
  have entry := readBlockIndex_complete (P := P) (F := F) s call
  rw [pos] at entry
  obtain ⟨block, read, named⟩ := readable _ _ entry
  have left := device_complete (P := P) (F := F) s call (s.mLastBlockFile + 1)
  have last : (s.apply P F (.complete call)).mLastBlockFile = s.mLastBlockFile + 1 :=
    congrArg DiskBlockPos.nFile pos
  rw [if_pos last.symm, stale, List.append_assoc] at left
  have start : (entryOf ⟨s.mLastBlockFile + 1, 0⟩ call).blockPos = ⟨s.mLastBlockFile + 1, 0⟩ := by
    cases call <;> rfl
  rw [start, @readBlock_of_stored P F _ format ⟨s.mLastBlockFile + 1, 0⟩ [] _ other storable left.1
    rfl] at read
  cases read
  exact differs named

/-! ### Runs -/

/-- A call or a failure leaves the block data sound when the file a call starts is new. -/
theorem Sound.apply (format : F.Sound) (room : P.maxBlockSize.toNat + 8 ≤ maxFileSize.toNat)
    (sound : Sound P F s) {op : BlockFilesOp} (storable : Storable P F op.storeCall.block)
    (fresh : s.StartsFresh F op) : Sound P F (s.apply P F op) := by
  obtain ⟨keep, short⟩ := writesOf_spec format room sound storable fresh
  have stopped (k torn n : Nat) : ((((interrupted (s.writesOf P F op.storeCall) k torn).foldl
      Device.write s.device).files n).bytes).length ≤ maxFileSize.toNat := by
    rw [length_writes]
    exact (Nat.add_le_add_left (added_interrupted_le n _ k torn) _).trans (short n)
  cases op with
  | complete call =>
      refine ⟨sound.safe.writes monotone_leads keep, fun n => ?_⟩
      have length := @length_writes _ n (s.writesOf P F call) s.device
      exact length.trans_le (short n)
  | stop call k torn => exact ⟨sound.safe.interrupted monotone_leads keep k torn, stopped k torn⟩
  | powerFailure call k torn kept tails =>
      refine ⟨(sound.safe.interrupted monotone_leads keep k torn).powerFailure monotone_leads kept
        tails, fun n => ?_⟩
      exact (length_powerFailure_le kept tails n).trans (stopped k torn n)

theorem sound_empty : Sound P F empty := by
  have nothing : Leads P F empty.device.syncedBytes empty.device.db := by
    intro blockHash entry found
    cases found
  refine ⟨⟨nothing, fun db mem => ?_⟩, fun n => Nat.zero_le _⟩
  cases List.mem_singleton.mp mem
  exact nothing

end

end BlockFiles

open BlockFiles in
/-- **Entries lead to their blocks.** Along every run of calls, ended processes and
power failures in which a call that starts a new file finds it empty, every
entry of the index leads to a block that can be read and has its hash. -/
theorem entries_readable {P : Params} {F : BlockFormat} (format : F.Sound)
    (room : P.maxBlockSize.toNat + 8 ≤ maxFileSize.toNat) {ops : List BlockFilesOp}
    (storable : ∀ op ∈ ops, Storable P F op.storeCall.block)
    (fresh : Run.Meets (BlockFiles.apply P F) (StartsFresh F) ops empty) :
    Readable P F (ops.foldl (BlockFiles.apply P F) empty) := by
  suffices sound : ∀ {ops : List BlockFilesOp} {s : BlockFiles}, Sound P F s →
      (∀ op ∈ ops, Storable P F op.storeCall.block) →
      Run.Meets (BlockFiles.apply P F) (StartsFresh F) ops s →
      Sound P F (ops.foldl (BlockFiles.apply P F) s) from
    (sound sound_empty storable fresh).readable format
  intro ops
  induction ops with
  | nil => exact fun sound _ _ => sound
  | cons op ops ih =>
      intro s sound storable fresh
      have next := sound.apply format room (storable op List.mem_cons_self) fresh.1
      exact ih next (fun op mem => storable op (List.mem_cons_of_mem _ mem)) fresh.2

/-! ### Blocks with one large transaction -/

namespace SmallNetwork

/-- The network with the block size of the main one. -/
def wideNetwork : Params := { smallNetwork with maxBlockSize := 2000000 }

/-- The only transaction there is takes `size` bytes. -/
def padded (size : Nat) : BlockFormat where
  tx := ⟨fun _ => List.replicate size 0, fun _ => some (mint 2 10)⟩
  magic := [1, 2, 3, 4]
  verifyNetworkMagic magic := magic = [1, 2, 3, 4]

theorem sound_padded (size : Nat) : (padded size).Sound := ⟨rfl, rfl⟩

def numbered (nonce : UInt32) : Block :=
  ⟨⟨1, 0, 0, 0, 10, 1, 1, nonce⟩, [mint 2 10], fits_two⟩

theorem length_numbered (size : Nat) (nonce : UInt32) :
    ((numbered nonce).serialize (padded size).tx).length = size + 128 := by
  rw [Block.length_serialize]
  simp [numbered, padded, BlockHeader.serializedSize]
  omega

theorem storable_numbered {size : Nat} (some : size ≠ 0) (fits : size + 128 ≤ 2000000)
    (nonce : UInt32) : BlockFiles.Storable wideNetwork (padded size) (numbered nonce) where
  size := by
    rw [length_numbered]
    exact fits
  inverts := by
    refine Block.deserialize_serialize fun tx mem => ?_
    rw [List.mem_singleton.mp mem]
    refine ⟨⟨rfl, ?_⟩, fun empty => some ?_⟩
    · simp only [padded, List.length_replicate]
      omega
    · exact List.length_replicate.symm.trans (congrArg List.length empty)

end SmallNetwork

open SmallNetwork in
/-- The power fails while the second block is written; it is written again. -/
theorem entries_readable_padded :
    let ops : List BlockFilesOp := [.complete (.writeBlock (numbered 1) 1 0),
      .powerFailure (.writeBlock (numbered 2) 1 0) 1 5 1 fun _ => [0],
      .complete (.writeBlockConnected (numbered 2) 1 0 ⟨[]⟩)]
    let s := ops.foldl (BlockFiles.apply wideNetwork (padded 4)) BlockFiles.empty
    (s.readBlockIndex ((numbered 1).getHash wideNetwork.sha256)).isSome ∧
      (s.file 0).length = 281 ∧ BlockFiles.Readable wideNetwork (padded 4) s := by
  have fresh : Run.Meets (BlockFiles.apply wideNetwork (padded 4))
      (BlockFiles.StartsFresh (padded 4))
      [.complete (.writeBlock (numbered 1) 1 0),
        .powerFailure (.writeBlock (numbered 2) 1 0) 1 5 1 fun _ => [0],
        .complete (.writeBlockConnected (numbered 2) 1 0 ⟨[]⟩)] BlockFiles.empty := by
    refine ⟨fun _ => ?_, fun _ => ?_, fun _ => ?_, trivial⟩ <;> decide +kernel
  refine ⟨by decide +kernel, by decide +kernel, ?_⟩
  refine entries_readable (sound_padded 4) (by decide) (fun op mem => ?_) fresh
  have storable := fun nonce => storable_numbered (by decide : 4 ≠ 0) (by decide) nonce
  simp only [List.mem_cons, List.not_mem_nil, or_false] at mem
  rcases mem with rfl | rfl | rfl
  · exact storable 1
  · exact storable 2
  · exact storable 2

namespace SmallNetwork

/-- A block of close to two million bytes. -/
def bulky : BlockFormat := padded 1999800

def store (nonce : UInt32) : StoreCall := .writeBlockConnected (numbered nonce) 1 0 ⟨[]⟩

/-- `n` blocks are in the first file and nothing else happened. -/
structure Filled (n : Nat) (s : BlockFiles) : Prop where
  sound : BlockFiles.Sound wideNetwork bulky s
  last : s.mLastBlockFile = 0
  recorded : s.device.durable = [s.device.db] ∧ s.device.db.lastBlockFile = none
  length : (s.file 0).length = n * 1999936
  synced : s.device.syncedBytes 0 = s.file 0
  next : s.file 1 = []

theorem storable_bulky (nonce : UInt32) :
    BlockFiles.Storable wideNetwork bulky (numbered nonce) :=
  storable_numbered (by decide) (by decide) nonce

/-- The first file takes 67 of these blocks. -/
theorem Filled.rollsOver_iff {n : Nat} {s : BlockFiles} (filled : Filled n s) (nonce : UInt32) :
    s.rollsOver bulky (numbered nonce) = true ↔ 67 ≤ n := by
  have fits := BlockFiles.rollsOver_eq_false (by decide) filled.sound (storable_bulky nonce)
  rw [filled.last, filled.length, bulky, length_numbered] at fits
  have limit : BlockFiles.maxFileSize.toNat = 134217728 := rfl
  rw [limit] at fits
  rw [← Bool.not_eq_false, bulky, fits]
  omega

theorem Filled.step {n : Nat} {s : BlockFiles} (filled : Filled n s) (few : n < 67) :
    Filled (n + 1) (s.apply wideNetwork bulky (.complete (store 1))) := by
  have stays : ¬ s.rollsOver bulky (store 1).block = true := by
    rw [store, StoreCall.block, filled.rollsOver_iff]
    omega
  have pos : (s.writeBlockToDisk bulky (store 1).block).1.nFile = 0 := by
    rw [BlockFiles.writeBlockToDisk, if_neg stays]
    exact filled.last
  have sound := @BlockFiles.Sound.apply _ _ s (sound_padded _) (by decide) filled.sound
    (.complete (store 1))    (storable_bulky 1) (fun full => absurd full stays)
  have last := (BlockFiles.mLastBlockFile_complete (P := wideNetwork) s (store 1)).trans pos
  have first := BlockFiles.device_complete (P := wideNetwork) (F := bulky) s (store 1) 0
  have second := BlockFiles.device_complete (P := wideNetwork) (F := bulky) s (store 1) 1
  rw [if_pos last.symm] at first
  rw [if_neg (by rw [last]; decide)] at second
  refine ⟨sound, last, ?_, ?_, first.2, second.1.trans filled.next⟩
  · have recorded := BlockFiles.db_writeBlockConnected (P := wideNetwork) s (numbered 1) 1 0 ⟨[]⟩ stays
    exact ⟨recorded.1, recorded.2.trans filled.recorded.2⟩
  · have added : (BlockFiles.record bulky (numbered 1)).length = 1999936 := by
      rw [bulky, BlockFiles.length_record (sound_padded _), length_numbered]
    rw [first.1, List.length_append, filled.length, store, StoreCall.block, added]
    omega

/-- A file that is full, with nothing in the next. -/
def full : BlockFiles :=
  (List.replicate 67 (BlockFilesOp.complete (store 1))).foldl (BlockFiles.apply wideNetwork bulky)
    BlockFiles.empty

theorem filled_full : Filled 67 full := by
  suffices filled : ∀ (k n : Nat) (s : BlockFiles), Filled n s → n + k ≤ 67 →
      Filled (n + k) ((List.replicate k (BlockFilesOp.complete (store 1))).foldl
        (BlockFiles.apply wideNetwork bulky) s) by
    refine filled 67 0 BlockFiles.empty ?_ le_rfl
    exact ⟨BlockFiles.sound_empty, rfl, ⟨rfl, rfl⟩, rfl, rfl, rfl⟩
  intro k
  induction k with
  | zero => exact fun n s filled _ => filled
  | succ k ih =>
      intro n s filled few
      rw [List.replicate_succ, List.foldl_cons, Nat.add_comm k, ← Nat.add_assoc]
      exact ih (n + 1) _ (filled.step (by omega)) (by omega)

/-- The power fails once a block is in the second file, and takes the number of
that file. -/
def failure : BlockFilesOp :=
  .powerFailure (.writeBlock (numbered 2) 2 0) 4 0 0 fun _ => []

theorem Filled.failure {s : BlockFiles} (filled : Filled 67 s) :
    let t := s.apply wideNetwork bulky failure
    t.mLastBlockFile = 0 ∧ t.file 0 = s.file 0 ∧ t.file 1 = BlockFiles.record bulky (numbered 2) := by
  have rolls := (filled.rollsOver_iff 2).mpr le_rfl
  have device : (s.apply wideNetwork bulky SmallNetwork.failure).device =
      ((Device.interrupted (BlockFiles.writesOf wideNetwork bulky (.writeBlock (numbered 2) 2 0) s)
        4 0).foldl Device.write s.device).powerFailure 0 fun _ => [] := rfl
  have done : Device.interrupted
      (BlockFiles.writesOf wideNetwork bulky (.writeBlock (numbered 2) 2 0) s) 4 0 =
      .put (fun db => { db with lastBlockFile := some (s.mLastBlockFile + 1) }) ::
        BlockFiles.appendRecord bulky (s.mLastBlockFile + 1)
          ((numbered 2).serialize bulky.tx) := by
    rw [BlockFiles.writesOf, BlockFiles.writeBlockToDisk, StoreCall.block, if_pos rolls]
    rfl
  rw [done, filled.last] at device
  have bytes (n : Nat) : (s.apply wideNetwork bulky SmallNetwork.failure).file n =
      if n = 1 then BlockFiles.record bulky (numbered 2) else s.device.syncedBytes n := by
    rw [BlockFiles.file, device, Device.bytes_powerFailure_nil, List.foldl_cons]
    split
    · rename_i one
      rw [one, BlockFiles.syncedBytes_appendRecord]
      have next : ((s.device.write (.put fun db => { db with lastBlockFile := some (0 + 1) })).files
          1).bytes = [] := filled.next
      rw [next, List.nil_append]
    · rename_i other
      simp [BlockFiles.appendRecord, Device.write, Device.syncedBytes, Function.update_of_ne other]
  refine ⟨?_, ?_, ?_⟩
  · have recorded : (s.apply wideNetwork bulky SmallNetwork.failure).device.db = s.device.db := by
      rw [device]
      simp [Device.powerFailure, BlockFiles.appendRecord, Device.write, filled.recorded.1]
    change (s.apply wideNetwork bulky SmallNetwork.failure).device.db.lastBlockFile.getD 0 = 0
    rw [recorded, filled.recorded.2]
    rfl
  · rw [bytes, if_neg (by decide), filled.synced]
  · rw [bytes, if_pos rfl]

end SmallNetwork

open SmallNetwork in
/-- A block starts the second file, and before its entry is durable the power
fails, so that the number of the file is lost. The next block starts the second
file again: its entry leads to the block before it. -/
theorem entries_lead_astray :
    (∀ nonce, BlockFiles.Storable wideNetwork bulky (numbered nonce)) ∧
      ¬ BlockFiles.Readable wideNetwork bulky
        ((List.replicate 67 (BlockFilesOp.complete (store 1)) ++ [failure, .complete (store 3)]).foldl
          (BlockFiles.apply wideNetwork bulky) BlockFiles.empty) := by
  refine ⟨storable_bulky, ?_⟩
  rw [List.foldl_append]
  change ¬ BlockFiles.Readable wideNetwork bulky (BlockFiles.apply wideNetwork bulky
    (BlockFiles.apply wideNetwork bulky full failure) (.complete (store 3)))
  obtain ⟨last, first, second⟩ := filled_full.failure
  have sound : BlockFiles.Sound wideNetwork bulky (BlockFiles.apply wideNetwork bulky full failure) := by
    refine filled_full.sound.apply (sound_padded _) (by decide) (storable_bulky 2) fun _ => ?_
    rw [filled_full.last]
    exact filled_full.next
  generalize BlockFiles.apply wideNetwork bulky full failure = t at last first second sound ⊢
  have rolls : t.rollsOver bulky (store 3).block = true := by
    have fits := BlockFiles.rollsOver_eq_false (by decide) sound (storable_bulky 3)
    have limit : BlockFiles.maxFileSize.toNat = 134217728 := rfl
    rw [last, first, filled_full.length, bulky, length_numbered, limit] at fits
    rw [store, StoreCall.block, ← Bool.not_eq_false, bulky, fits]
    omega
  have stale : t.file (t.mLastBlockFile + 1) = BlockFiles.record bulky (numbered 2) ++ [] := by
    rw [last, second, List.append_nil]
  exact BlockFiles.not_readable_of_stale (sound_padded _) rolls (storable_bulky 2) stale
    (by decide +kernel)

end QmaskCore
