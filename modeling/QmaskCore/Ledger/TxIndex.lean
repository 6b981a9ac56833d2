import QmaskCore.Ledger.Locator

/-!
Which chain does `GetTransaction` answer about?

The transaction index names, for each id, the block last stored or connected
with it, and nothing is written when a block is disconnected. `TxIndexed` says
what the index knows: an entry names a stored block that carries the id, and
every transaction of a stored block has an entry. So the answers are about the
active chain exactly while every entry names a block of it.
-/

namespace QmaskCore

def Block.Carries (block : Block) (txid : Bytes32) : Prop :=
  ∃ tx ∈ block.transactions, tx.hash = txid

namespace BlockData

variable {P : Params}

/-! ### What storing a block writes to the transaction index -/

theorem txIndex_foldl (blockHash txid : Bytes32) : ∀ (txs : List Transaction) (db : BlockIndexDB),
    (txs.foldl (putTxIndex blockHash) db).txIndex.lookup txid =
      if txid ∈ txs.map (·.hash) then some blockHash else db.txIndex.lookup txid := by
  intro txs
  induction txs with
  | nil => exact fun _ => rfl
  | cons tx txs ih =>
      intro db
      rw [List.foldl_cons, ih, putTxIndex, AList.lookup_insert_if]
      by_cases here : txid = tx.hash <;> by_cases later : txid ∈ txs.map (·.hash) <;>
        simp_all

theorem db_foldl_writeDB (blockHash : Bytes32) : ∀ (txs : List Transaction) (d : BlockData),
    (txs.foldl (fun d tx => d.writeDB (putTxIndex blockHash · tx)) d).disk.db =
      txs.foldl (putTxIndex blockHash) d.disk.db := by
  intro txs
  induction txs with
  | nil => exact fun _ => rfl
  | cons tx txs ih => exact fun d => ih (d.writeDB (putTxIndex blockHash · tx))

theorem txIndex_writeBlockToDisk (block : Block) (d : BlockData) :
    (d.writeBlockToDisk P block).2.disk.db.txIndex = d.disk.db.txIndex := by
  unfold writeBlockToDisk
  dsimp only
  split
  · rfl
  · rfl

/-- Every transaction of a block that is stored is found in it from then on. -/
def Names (P : Params) (block : Block) (d d' : BlockData) : Prop :=
  ∀ txid, d'.readTxIndex txid =
    if txid ∈ block.transactions.map (·.hash) then some (block.getHash P.sha256)
    else d.readTxIndex txid

theorem names_writeBlock (block : Block) (height : Nat) (chainWork : Bytes32) (d : BlockData) :
    Names P block d (d.writeBlock P block height chainWork) := by
  intro txid
  have same := txIndex_writeBlockToDisk (P := P) block d
  unfold writeBlock
  dsimp only
  generalize d.writeBlockToDisk P block = out at same ⊢
  have fold := db_foldl_writeDB (block.getHash P.sha256) block.transactions
    (out.2.writeDB (putIndex (block.getHash P.sha256) (indexEntry block height chainWork out.1)))
  generalize block.transactions.foldl _ _ = d₁ at fold ⊢
  change d₁.disk.db.txIndex.lookup txid = _
  rw [fold, txIndex_foldl]
  change (if _ then _ else out.2.disk.db.txIndex.lookup txid) = _
  rw [same]
  rfl

theorem names_writeBlockConnected (block : Block) (height : Nat) (chainWork : Bytes32)
    (undo : BlockUndo) (d : BlockData) :
    Names P block d (d.writeBlockConnected P block height chainWork undo) := by
  intro txid
  have same := txIndex_writeBlockToDisk (P := P) block d
  unfold writeBlockConnected
  dsimp only
  generalize d.writeBlockToDisk P block = out at same ⊢
  change AList.lookup txid (BlockIndexDB.txIndex (block.transactions.foldl _ _)) = _
  rw [txIndex_foldl]
  change (if _ then _ else out.2.disk.db.txIndex.lookup txid) = _
  rw [same]
  rfl

end BlockData

/-- The index after a block was recorded under its hash. -/
theorem BlockData.Recorded.readBlockIndex {P : Params} {block : Block} {height : Nat}
    {chainWork : Bytes32} {d d' : BlockData} (recorded : Recorded P block height chainWork d d') :
    ∃ pos, d'.recordAt P pos = some block ∧ ∀ blockHash, d'.readBlockIndex blockHash =
      if blockHash = block.getHash P.sha256 then some (indexEntry block height chainWork pos)
      else d.readBlockIndex blockHash := by
  obtain ⟨pos, here, index⟩ := recorded.entry
  refine ⟨pos, here, fun blockHash => ?_⟩
  rw [BlockData.readBlockIndex, index, AList.lookup_insert_if]
  rfl

/-! ### What the index knows -/

/-- The blocks that come to `ConnectBlock` of a run can be read back, and no other
block brought has the hash of one of them. -/
def WholeBlocks (P : Params) (ops : List ChainOp) : Prop :=
  ∀ block, Direct ops block → block.Readable P ∧
    ∀ other ∈ P.buildGenesisBlock :: brought ops,
      other.getHash P.sha256 = block.getHash P.sha256 → other = block

theorem wholeBlocks_accepts (P : Params) (deliveries : List (UInt64 × Block)) :
    WholeBlocks P (accepts deliveries) :=
  fun _ direct => absurd direct not_direct_accepts

/-- The block stored under a hash, read through the index. -/
def BlockData.blockAt (P : Params) (d : BlockData) (blockHash : Bytes32) : Option Block :=
  (d.readBlockIndex blockHash).bind fun entry => d.recordAt P entry.blockPos

/-- An entry of the transaction index names a stored block that carries the id.
A stored block is one that was brought, can be read, and has all its
transactions in the index. -/
structure TxIndexed (P : Params) (ops : List ChainOp) (d : BlockData) : Prop where
  named : ∀ {txid blockHash}, d.readTxIndex txid = some blockHash →
    ∃ block, d.blockAt P blockHash = some block ∧ block.Carries txid
  keyed : ∀ {blockHash block}, d.blockAt P blockHash = some block →
    block.getHash P.sha256 = blockHash
  stored : ∀ {blockHash entry}, d.readBlockIndex blockHash = some entry →
    ∃ block, d.blockAt P blockHash = some block ∧ block.Readable P ∧
      block ∈ P.buildGenesisBlock :: brought ops ∧
      ∀ tx ∈ block.transactions, ∃ other, d.readTxIndex tx.hash = some other
  files : d.FilesEnd

namespace TxIndexed

variable {P : Params} {ops : List ChainOp} {d d' : BlockData} {block : Block}

/-- A block is recorded: one that was not known, or one known as it is. -/
theorem recorded (indexed : TxIndexed P ops d) {height : Nat} {chainWork : Bytes32}
    (recorded : BlockData.Recorded P block height chainWork d d') (names : BlockData.Names P block d d')
    (readable : block.Readable P) (brought : block ∈ P.buildGenesisBlock :: brought ops)
    (same : ∀ b, d.blockAt P (block.getHash P.sha256) = some b → b = block) :
    TxIndexed P ops d' := by
  obtain ⟨pos, here, read⟩ := recorded.readBlockIndex
  have top : d'.blockAt P (block.getHash P.sha256) = some block := by
    rw [BlockData.blockAt, read, if_pos rfl]
    exact here
  have other {blockHash : Bytes32} (differ : blockHash ≠ block.getHash P.sha256) {b : Block}
      (at' : d.blockAt P blockHash = some b) : d'.blockAt P blockHash = some b := by
    rw [BlockData.blockAt, read, if_neg differ]
    obtain ⟨entry, found, record⟩ := Option.bind_eq_some_iff.mp at'
    rw [found]
    exact recorded.kept record
  have kept {blockHash : Bytes32} {b : Block} (at' : d.blockAt P blockHash = some b) :
      d'.blockAt P blockHash = some b := by
    by_cases here : blockHash = block.getHash P.sha256
    · subst here
      rw [same b at']
      exact top
    · exact other here at'
  constructor
  · intro txid blockHash named
    rw [names txid] at named
    split at named
    · rename_i carried
      cases named
      exact ⟨block, top, List.mem_map.mp carried⟩
    · obtain ⟨b, at', carries⟩ := indexed.named named
      exact ⟨b, kept at', carries⟩
  · intro blockHash b at'
    by_cases here : blockHash = block.getHash P.sha256
    · subst here
      cases top.symm.trans at'
      rfl
    · rw [BlockData.blockAt, read, if_neg here] at at'
      obtain ⟨entry, found, record⟩ := Option.bind_eq_some_iff.mp at'
      obtain ⟨b₀, at₀, -⟩ := indexed.stored found
      have now := other here at₀
      rw [BlockData.blockAt, read, if_neg here, found, Option.bind_some, record] at now
      cases now
      exact indexed.keyed at₀
  · intro blockHash entry found
    have listed {b : Block} (before : ∀ tx ∈ b.transactions, ∃ other, d.readTxIndex tx.hash = some other) :
        ∀ tx ∈ b.transactions, ∃ other, d'.readTxIndex tx.hash = some other := by
      intro tx mem
      rw [names tx.hash]
      split
      · exact ⟨_, rfl⟩
      · exact before tx mem
    by_cases here : blockHash = block.getHash P.sha256
    · subst here
      refine ⟨block, top, readable, brought, fun tx mem => ?_⟩
      rw [names tx.hash, if_pos (List.mem_map_of_mem mem)]
      exact ⟨_, rfl⟩
    · rw [read, if_neg here] at found
      obtain ⟨b, at', fits, came, before⟩ := indexed.stored found
      exact ⟨b, kept at', fits, came, listed before⟩
  · exact recorded.files

/-- The history has no part in it. -/
theorem withHistory (indexed : TxIndexed P ops d) (history : List BlockDisk) :
    TxIndexed P ops { d with mHistory := history } :=
  ⟨indexed.named, indexed.keyed, indexed.stored, indexed.files⟩

theorem blockAt_of_reads {s : ChainState} (indexed : TxIndexed P ops s.mBlockData)
    (read : s.Reads P block) : s.mBlockData.blockAt P (block.getHash P.sha256) = some block := by
  obtain ⟨blockHash, entry, found, record⟩ := read
  have at' : s.mBlockData.blockAt P blockHash = some block := by
    change s.mBlockData.readBlockIndex blockHash = some entry at found
    rw [BlockData.blockAt, found, Option.bind_some]
    unfold BlockData.readBlock at record
    split at record
    · cases record
    · rename_i there
      dsimp only at record
      split at record
      · cases record
      · cases record
        exact there
  rw [indexed.keyed at']
  exact at'

theorem connectBlockLocked (whole : WholeBlocks P ops) {s : ChainState}
    (from' : s.Reads P block ∨ Direct ops block) (indexed : TxIndexed P ops s.mBlockData) :
    TxIndexed P ops (s.connectBlockLocked P block).2.mBlockData := by
  have known : block.Readable P ∧ block ∈ P.buildGenesisBlock :: brought ops ∧
      ∀ b, s.mBlockData.blockAt P (block.getHash P.sha256) = some b → b = block := by
    rcases from' with read | direct
    · have here := indexed.blockAt_of_reads read
      obtain ⟨entry, found, -⟩ := Option.bind_eq_some_iff.mp here
      obtain ⟨b, at', fits, came, -⟩ := indexed.stored found
      cases here.symm.trans at'
      exact ⟨fits, came, fun b' there => Option.some.inj (there.symm.trans here)⟩
    · obtain ⟨fits, alone⟩ := whole block direct
      refine ⟨fits, List.mem_cons_of_mem _ (List.mem_filterMap.mpr ⟨_, direct, rfl⟩),
        fun b there => ?_⟩
      obtain ⟨entry, found, -⟩ := Option.bind_eq_some_iff.mp there
      obtain ⟨b', at', -, came, -⟩ := indexed.stored found
      cases there.symm.trans at'
      exact alone b came (indexed.keyed there)
  rw [ChainState.connectBlockLocked]
  dsimp only
  split
  · exact indexed
  · generalize applied : s.onUTXOSet _ = out
    have same : out.2.mBlockData = s.mBlockData := by
      rw [← applied]
      rfl
    rcases out with ⟨_ | undo, s₁⟩
    · exact same ▸ indexed
    · dsimp only at same ⊢
      let work := P.addChainWork s₁.mBestChain.chainWork block.header.bits
      let d : BlockData := { s.mBlockData with mHistory := [] }
      have written := (BlockData.writeBlockConnected_spec (P := P) (d := d) indexed.files block
        (s.mBestChain.height + 1) work undo).1
      have names := BlockData.names_writeBlockConnected (P := P) block (s.mBestChain.height + 1)
        work undo d
      have next := ((indexed.withHistory []).recorded written names known.1 known.2.1
        known.2.2).withHistory []
      split
      · change TxIndexed P ops { BlockData.writeBlockConnected P block _ work undo
          { s₁.mBlockData with mHistory := [] } with mHistory := [] }
        rw [same]
        exact next
      · change TxIndexed P ops { BlockData.writeBlockConnected P block _ work undo
          { s₁.mBlockData with mHistory := [] } with mHistory := [] }
        rw [same]
        exact next

theorem mBlockData_disconnectTipLocked (s : ChainState) :
    (s.disconnectTipLocked P).2.mBlockData = s.mBlockData := by
  rw [ChainState.disconnectTipLocked]
  dsimp only
  split
  · rfl
  · split
    · rfl
    · split
      · rfl
      · split
        · rfl
        · rename_i block _ _ undo _
          generalize undone : s.onUTXOSet _ = out
          have same : out.2.mBlockData = s.mBlockData := by
            rw [← undone]
            rfl
          rcases out with ⟨_ | _, s₁⟩
          · exact same
          · dsimp only at same ⊢
            split
            · exact same
            · exact same

theorem keepsIn (whole : WholeBlocks P ops) :
    ChainState.KeepsIn P ops fun s => TxIndexed P ops s.mBlockData where
  connect from' indexed := indexed.connectBlockLocked whole from'
  disconnect {s} indexed := by
    rw [mBlockData_disconnectTipLocked]
    exact indexed
  store {s time block parent} mem new admitted height chainWork indexed := by
    have written := (BlockData.writeBlock_spec (P := P)
      (d := { s.mBlockData with mHistory := [] }) indexed.files block height chainWork).1
    refine ((indexed.withHistory []).recorded written
      (BlockData.names_writeBlock block height chainWork _) ?_
      (List.mem_cons_of_mem _ (List.mem_filterMap.mpr ⟨_, mem, rfl⟩)) ?_).withHistory []
    · have valid : BlockValidation.validateBlock P time s.mUTXOSet.view
          (UInt32.ofNat (parent.nHeight + 1)) block = .ok () := by
        simp only [ChainState.admits, Bool.and_eq_true, decide_eq_true_eq] at admitted
        exact admitted.2
      exact (BlockValidation.validateBlock_ok valid).size
    · intro b at'
      obtain ⟨entry, found, -⟩ := Option.bind_eq_some_iff.mp at'
      change s.mBlockData.readBlockIndex _ = some entry at found
      rw [BlockData.hasBlock, found] at new
      cases new

theorem empty : TxIndexed P ops (.ofDisk .empty) := ⟨nofun, nofun, nofun, fun _ _ => rfl⟩

/-- A node opened on an empty disk has stored genesis. -/
theorem opened (sound : P.SoundGenesis) (fits : P.buildGenesisBlock.Readable P) {s : ChainState}
    (opened : ChainState.initializeState P (.ofDisk .empty) = .ok s) :
    TxIndexed P ops s.mBlockData := by
  obtain ⟨s₀, made, rfl⟩ := initializeState_empty sound opened
  have stored : TxIndexed P ops s₀.mBlockData := by
    rw [ChainState.initializeGenesisLocked, if_neg sound.nonzero] at made
    dsimp only at made
    split at made
    · cases made
    · generalize applied : (ChainState.ofDisk .empty).onUTXOSet _ = out at made
      have same : out.2.mBlockData = .ofDisk .empty := by
        rw [← applied]
        rfl
      rcases out with ⟨_ | _, s₁⟩
      · cases made
      · cases made
        have written := (BlockData.writeBlock_spec (P := P) (d := .ofDisk .empty)
          (fun _ _ => rfl) P.buildGenesisBlock 0
          (P.addChainWork 0 P.buildGenesisBlock.header.bits)).1
        have genesis := (empty : TxIndexed P ops (.ofDisk .empty)).recorded written
          (BlockData.names_writeBlock P.buildGenesisBlock 0 _ _) fits List.mem_cons_self
          fun _ read => by cases read
        change TxIndexed P ops { BlockData.writeBlock P P.buildGenesisBlock 0
          (P.addChainWork 0 P.buildGenesisBlock.header.bits)
          { s₁.mBlockData with mHistory := [] } with mHistory := [] }
        rw [same]
        exact genesis.withHistory []
  rw [ChainState.mBlockData_buildHeightIndexLocked]
  exact stored

end TxIndexed

/-! ### What is answered -/

namespace ChainState

/-- The active block at a height, read from disk. -/
def ActiveBlock (P : Params) (s : ChainState) (height : Nat) (blockHash : Bytes32) (block : Block) :
    Prop :=
  s.getBlockHashByHeightLocked height = some blockHash ∧
    ∃ entry, s.readBlockIndex blockHash = some entry ∧
      s.mBlockData.readBlock P entry.blockPos = some block

/-- `GetTransaction` finds the transactions of the active chain, where they are. -/
def AnswersActive (P : Params) (s : ChainState) : Prop :=
  ∀ txid, ((s.getTransaction P txid).isSome = true ↔
      ∃ height blockHash block, s.ActiveBlock P height blockHash block ∧ block.Carries txid) ∧
    ∀ tx blockHash height, s.getTransaction P txid = some (tx, blockHash, height) →
      tx.hash = txid ∧ ∃ block, s.ActiveBlock P height blockHash block ∧ tx ∈ block.transactions

/-- Each entry of the transaction index names a block of the active chain. -/
def IndexActive (s : ChainState) : Prop :=
  ∀ txid blockHash, s.mBlockData.readTxIndex txid = some blockHash →
    ∃ height, s.getBlockHashByHeightLocked height = some blockHash

/-- Every stored block is on the active chain. -/
def AllActive (s : ChainState) : Prop :=
  ∀ blockHash, s.mBlockData.hasBlock blockHash = true →
    ∃ height, s.getBlockHashByHeightLocked height = some blockHash

end ChainState

section

variable {P : Params} {ops : List ChainOp} {s : ChainState} {L : Ledger}

/-- What the index holds for a stored block. -/
theorem TxIndexed.readBlock (indexed : TxIndexed P ops s.mBlockData) {blockHash : Bytes32}
    {entry : BlockIndexEntry} (found : s.readBlockIndex blockHash = some entry) :
    ∃ block, s.mBlockData.readBlock P entry.blockPos = some block ∧
      s.mBlockData.blockAt P blockHash = some block ∧
      ∀ tx ∈ block.transactions, ∃ other, s.mBlockData.readTxIndex tx.hash = some other := by
  obtain ⟨block, at', fits, -, listed⟩ := indexed.stored found
  have record : s.mBlockData.recordAt P entry.blockPos = some block := by
    have found : s.mBlockData.readBlockIndex blockHash = some entry := found
    rwa [BlockData.blockAt, found] at at'
  exact ⟨block, by rw [BlockData.readBlock_of_record record, if_pos fits], at', listed⟩

/-- The transaction an entry of the index leads to. -/
theorem TxIndexed.getTransaction (indexed : TxIndexed P ops s.mBlockData) {txid blockHash : Bytes32}
    (named : s.mBlockData.readTxIndex txid = some blockHash) :
    ∃ tx entry block, s.getTransaction P txid = some (tx, blockHash, entry.nHeight) ∧
      tx.hash = txid ∧ tx ∈ block.transactions ∧ s.readBlockIndex blockHash = some entry ∧
      s.mBlockData.readBlock P entry.blockPos = some block := by
  obtain ⟨block, at', carried⟩ := indexed.named named
  obtain ⟨entry, found, -⟩ := Option.bind_eq_some_iff.mp at'
  obtain ⟨block', read, at'', -⟩ := indexed.readBlock (s := s) found
  obtain rfl : block = block' := Option.some.inj (at'.symm.trans at'')
  obtain ⟨tx, first⟩ : ∃ tx, block.transactions.find? (·.hash = txid) = some tx := by
    refine Option.isSome_iff_exists.mp (List.find?_isSome.mpr ?_)
    obtain ⟨tx, mem, same⟩ := carried
    exact ⟨tx, mem, decide_eq_true same⟩
  refine ⟨tx, entry, block, ?_, by simpa using List.find?_some first,
    List.mem_of_find?_eq_some first, found, read⟩
  rw [ChainState.getTransaction, named]
  dsimp only
  rw [show s.readBlockIndex blockHash = some entry from found]
  dsimp only
  rw [read]
  dsimp only
  rw [first, Option.map_some]

/-- The height in the entry of an active block is where it is. -/
theorem Represents.height_of_active (rep : Represents P s L) {height : Nat} {blockHash : Bytes32}
    {entry : BlockIndexEntry} (active : s.getBlockHashByHeightLocked height = some blockHash)
    (found : s.readBlockIndex blockHash = some entry) : entry.nHeight = height := by
  have le : height ≤ L.chain.length := by
    by_contra above
    rw [rep.getBlockHashByHeight_above (not_le.mp above)] at active
    cases active
  rw [rep.getBlockHashByHeight_hashAt le] at active
  obtain ⟨st, stored, level⟩ := Ledger.tree_hashAt rep.valid le
  rw [Option.some.inj active] at stored
  obtain ⟨pos, read, -⟩ := rep.stored stored
  cases read.symm.trans found
  exact level

theorem TxIndexed.answersActive_iff (indexed : TxIndexed P ops s.mBlockData)
    (rep : Represents P s L) : s.AnswersActive P ↔ s.IndexActive := by
  constructor
  · intro answers txid blockHash named
    obtain ⟨tx, entry, block, found, -⟩ := indexed.getTransaction named
    obtain ⟨-, block', active, -⟩ := (answers txid).2 tx blockHash entry.nHeight found
    exact ⟨_, active.1⟩
  · intro active txid
    refine ⟨⟨fun found => ?_, ?_⟩, fun tx blockHash height found => ?_⟩
    · cases named : s.mBlockData.readTxIndex txid with
      | none =>
          rw [ChainState.getTransaction, named] at found
          cases found
      | some blockHash =>
          obtain ⟨tx, entry, block, -, same, mem, read, record⟩ := indexed.getTransaction named
          obtain ⟨height, here⟩ := active txid blockHash named
          exact ⟨height, blockHash, block, ⟨here, entry, read, record⟩, tx, mem, same⟩
    · rintro ⟨height, blockHash, block, ⟨here, entry, read, record⟩, tx, mem, rfl⟩
      obtain ⟨block', record', -, listed⟩ := indexed.readBlock read
      cases record.symm.trans record'
      obtain ⟨other, named⟩ := listed tx mem
      obtain ⟨tx', entry', block', found, -⟩ := indexed.getTransaction named
      rw [found]
      rfl
    · cases named : s.mBlockData.readTxIndex txid with
      | none =>
          rw [ChainState.getTransaction, named] at found
          cases found
      | some other =>
          obtain ⟨tx', entry, block, found', same, mem, read, record⟩ :=
            indexed.getTransaction named
          cases found.symm.trans found'
          obtain ⟨height, here⟩ := active txid blockHash named
          rw [rep.height_of_active here read]
          exact ⟨same, block, ⟨here, entry, read, record⟩, mem⟩

end

/-- **When `GetTransaction` answers about the active chain.** After any life of a
new node: exactly while each entry of the transaction index names a block of the
active chain, and so as long as no stored block lies off it. -/
theorem transactions_answered_iff {P : Params} (sound : P.SoundGenesis)
    (fits : P.buildGenesisBlock.Readable P) {s₀ : ChainState}
    (opened : ChainState.initializeState P (.ofDisk .empty) = .ok s₀) {ops : List NodeOp}
    (fine : Deliverable P (calls ops)) (whole : WholeBlocks P (calls ops)) :
    ∃ s, s₀.life P ops = .ok s ∧ (s.AnswersActive P ↔ s.IndexActive) ∧
      (s.AllActive → s.AnswersActive P) := by
  obtain ⟨s, ran, rep, -⟩ := lived sound opened fine
  have indexed : TxIndexed P (calls ops) s.mBlockData :=
    life_keeps fine (TxIndexed.keepsIn whole)
      (fun saved ran indexed => by
        rw [saved.blockData_restart ran]
        exact indexed.withHistory [])
      (fun _ mem => mem) (represents_initial sound opened) (saved_initial sound opened)
      Ledger.holds_initial (TxIndexed.opened sound fits opened) ran
  refine ⟨s, ran, indexed.answersActive_iff rep, fun all =>
    (indexed.answersActive_iff rep).mpr fun txid blockHash named => ?_⟩
  obtain ⟨tx, entry, block, -, -, -, read, -⟩ := indexed.getTransaction named
  refine all blockHash ?_
  change (s.readBlockIndex blockHash).isSome = true
  rw [read]
  rfl

namespace SmallNetwork

/-- Another block on genesis, with the same coinbase. -/
def rivalOne : Block := mine smallNetwork.genesisHash 1 2 [mint 2 10] fits_two

end SmallNetwork

open SmallNetwork in
theorem transactions_answered_iff_blockOne :
    ∃ s, node.life smallNetwork [.call (.acceptBlock 20 blockOne)] = .ok s ∧
      (s.AnswersActive smallNetwork ↔ s.IndexActive) ∧
      (s.AllActive → s.AnswersActive smallNetwork) :=
  transactions_answered_iff soundGenesis_smallNetwork (by decide +kernel) node_opened
    (deliverable_accepts smallNetwork [(20, blockOne)])
    (wholeBlocks_accepts smallNetwork [(20, blockOne)])

open SmallNetwork in
/-- Once a side block with the coinbase of the tip is stored, its hash is answered. -/
theorem transaction_found_off_chain :
    ∃ s, node.life smallNetwork
        [.call (.acceptBlock 20 blockOne), .call (.acceptBlock 20 rivalOne)] = .ok s ∧
      s.getTransaction smallNetwork 2 =
        some (mint 2 10, rivalOne.getHash smallNetwork.sha256, 1) ∧
      s.getBlockHashByHeightLocked 1 = some (blockOne.getHash smallNetwork.sha256) ∧
      ¬ s.AnswersActive smallNetwork := by
  let s := node.run smallNetwork [.acceptBlock 20 blockOne, .acceptBlock 20 rivalOne]
  have found : s.getTransaction smallNetwork 2 =
      some (mint 2 10, rivalOne.getHash smallNetwork.sha256, 1) := by decide +kernel
  have top : s.getBlockHashByHeightLocked 1 = some (blockOne.getHash smallNetwork.sha256) := by
    decide +kernel
  refine ⟨s, rfl, found, top, fun answers => ?_⟩
  obtain ⟨-, block, active, -⟩ := (answers 2).2 _ _ _ found
  have same := top.symm.trans active.1
  revert same
  decide +kernel

end QmaskCore
