import QmaskCore.Storage.CoinDB

/-!
Undo records: the coins a block spent, kept to put them back.

`BlockUndo.serialize` and `BlockUndo.deserialize` are the record's two forms.
`deserialize_serialize` is the round trip, for records whose counts pass the
reader's own bounds, which every record of a connected block does.
-/

namespace QmaskCore

structure TxUndo where
  spentCoins : List Coin
deriving DecidableEq

structure BlockUndo where
  txUndo : List TxUndo
deriving DecidableEq

def coinBlobSize : Nat := 8 + 4 + 1 + 1 + 32

def flagByte (b : Bool) : UInt8 := if b then 1 else 0

def writeCoin (c : Coin) : List UInt8 :=
  writeLE64 c.value.toUInt64 ++ writeLE32 c.height ++ [flagByte c.isCoinbase, flagByte c.isSpent] ++
    c.pubkeyHash.toBytes

/-- The coin at the head of the bytes. -/
def readCoin (rest : List UInt8) : Coin where
  value := (readLE64 rest).toInt64
  height := readLE32 (rest.drop 8)
  isCoinbase := rest[12]?.any (· ≠ 0)
  isSpent := rest[13]?.any (· ≠ 0)
  pubkeyHash := Bytes32.ofBytes ((rest.drop 14).take 32)

def readCoins : Nat → List UInt8 → List Coin
  | 0, _ => []
  | n + 1, rest => readCoin rest :: readCoins n (rest.drop coinBlobSize)

def TxUndo.serialize (tu : TxUndo) : List UInt8 :=
  writeLE32 (UInt32.ofNat tu.spentCoins.length) ++ tu.spentCoins.flatMap writeCoin

def BlockUndo.serialize (undo : BlockUndo) : List UInt8 :=
  writeLE32 (UInt32.ofNat undo.txUndo.length) ++ undo.txUndo.flatMap TxUndo.serialize

/-- `n` transactions' records from the head of the bytes, `none` where the source throws. -/
def readTxUndos : Nat → List UInt8 → Option (List TxUndo)
  | 0, _ => some []
  | n + 1, rest =>
      if rest.length < 4 then none
      else
        let coinCount := (readLE32 rest).toNat
        let rest := rest.drop 4
        if Block.maxTransactions < coinCount then none
        else if rest.length < coinCount * coinBlobSize then none
        else
          match readTxUndos n (rest.drop (coinCount * coinBlobSize)) with
          | none => none
          | some tus => some (⟨readCoins coinCount rest⟩ :: tus)

def BlockUndo.deserialize (data : List UInt8) : Option BlockUndo :=
  if data.length < 4 then none
  else
    let txCount := (readLE32 data).toNat
    if Block.maxTransactions < txCount then none
    else (readTxUndos txCount (data.drop 4)).map BlockUndo.mk

/-- The counts a reader accepts. -/
structure BlockUndo.Readable (undo : BlockUndo) : Prop where
  transactions : undo.txUndo.length ≤ Block.maxTransactions
  coins : ∀ tu ∈ undo.txUndo, tu.spentCoins.length ≤ Block.maxTransactions

@[simp] theorem length_writeCoin (c : Coin) : (writeCoin c).length = coinBlobSize := by
  simp [writeCoin, coinBlobSize]

@[simp] theorem readCoin_writeCoin (c : Coin) (rest : List UInt8) :
    readCoin (writeCoin c ++ rest) = c := by
  have flag (b : Bool) : (some (flagByte b)).any (· ≠ 0) = b := by cases b <;> rfl
  have value : (readLE64 (writeCoin c ++ rest)).toInt64 = c.value := by
    simp [writeCoin, List.append_assoc]
  have height : readLE32 ((writeCoin c ++ rest).drop 8) = c.height := by
    simp only [writeCoin, List.append_assoc]
    rw [List.drop_left' (length_writeLE64 _), readLE32_writeLE32]
  have tail : (writeCoin c ++ rest).drop 12 =
      flagByte c.isCoinbase :: flagByte c.isSpent :: (c.pubkeyHash.toBytes ++ rest) := by
    simp only [writeCoin, List.append_assoc]
    rw [← List.append_assoc (writeLE64 _), List.drop_left' (by simp)]
    rfl
  have coinbase : (writeCoin c ++ rest)[12]? = some (flagByte c.isCoinbase) := by
    have := congrArg (·[0]?) tail
    simpa using this
  have spent : (writeCoin c ++ rest)[13]? = some (flagByte c.isSpent) := by
    have := congrArg (·[1]?) tail
    simpa using this
  have hash : ((writeCoin c ++ rest).drop 14).take 32 = c.pubkeyHash.toBytes := by
    rw [show (14 : Nat) = 12 + 2 from rfl, ← List.drop_drop, tail]
    simp [List.take_left' c.pubkeyHash.length_toBytes]
  rw [readCoin, value, height, coinbase, spent, hash, flag, flag, Bytes32.ofBytes_toBytes]

@[simp] theorem readCoins_flatMap (coins : List Coin) (rest : List UInt8) :
    readCoins coins.length (coins.flatMap writeCoin ++ rest) = coins := by
  induction coins with
  | nil => rfl
  | cons c coins ih =>
      rw [List.length_cons, readCoins, List.flatMap_cons, List.append_assoc, readCoin_writeCoin,
        List.drop_left' (length_writeCoin c), ih]

theorem length_flatMap_writeCoin (coins : List Coin) :
    (coins.flatMap writeCoin).length = coins.length * coinBlobSize := by
  induction coins with
  | nil => simp
  | cons c coins ih =>
      rw [List.flatMap_cons, List.length_append, ih, length_writeCoin, List.length_cons]
      ring

/-- A count within the reader's bound survives its four bytes. -/
theorem toNat_count {n : Nat} (le : n ≤ Block.maxTransactions) : (UInt32.ofNat n).toNat = n := by
  have small : Block.maxTransactions < UInt32.size := by decide
  exact UInt32.toNat_ofNat_of_lt' (by omega)

theorem readTxUndos_serialize : ∀ {tus : List TxUndo},
    (∀ tu ∈ tus, tu.spentCoins.length ≤ Block.maxTransactions) →
    readTxUndos tus.length (tus.flatMap TxUndo.serialize) = some tus := by
  intro tus
  induction tus with
  | nil => exact fun _ => rfl
  | cons tu tus ih =>
      intro small
      have count := toNat_count (small tu List.mem_cons_self)
      have room := length_flatMap_writeCoin tu.spentCoins
      have rest := ih fun t mem => small t (List.mem_cons_of_mem _ mem)
      rw [List.length_cons, readTxUndos, List.flatMap_cons, TxUndo.serialize, List.append_assoc,
        if_neg (by simp), readLE32_writeLE32, count, List.drop_left' (length_writeLE32 _)]
      dsimp only
      rw [if_neg (not_lt.mpr (small tu List.mem_cons_self)), if_neg (by simp [room]),
        List.drop_left' room, rest, readCoins_flatMap]

/-- An undo record is read back as it was written. -/
theorem BlockUndo.deserialize_serialize {undo : BlockUndo} (readable : undo.Readable) :
    BlockUndo.deserialize undo.serialize = some undo := by
  have count := toNat_count readable.transactions
  rw [BlockUndo.deserialize, BlockUndo.serialize, if_neg (by simp), readLE32_writeLE32, count,
    List.drop_left' (length_writeLE32 _)]
  dsimp only
  rw [if_neg (not_lt.mpr readable.transactions), readTxUndos_serialize readable.coins]
  rfl

end QmaskCore
