import QmaskCore.Mempool.Assembly
import QmaskCore.Mining.NonceLoop
import QmaskCore.Storage.ChainState

/-!
`Miner::BuildBlockTemplate`.

A template is a coinbase and the best paid transactions of the pool, up to the
first that does not fit. `fill_spec` says what is taken, `fill_eq_none` when the
block overflows, and `buildBlockTemplate_spec` what a template is like.
-/

namespace QmaskCore

/-- A transaction of one input and one output, as `AddInput` and `AddOutput`
make it. One whose input is null is a coinbase. -/
structure TxMaker where
  make : TxInput → TxOutput → Transaction
  inputs : ∀ i o, (make i o).inputs = [i]
  outputs : ∀ i o, (make i o).outputs = [o]
  coinbase : ∀ i o, i.prevTxHash = 0 → i.outputIndex = 0xFFFFFFFF → (make i o).isCoinbase = true

/-- `BlockHeader::CURRENT_VERSION`. -/
def BlockHeader.currentVersion : UInt32 := 1

/-- `AddTransaction` for each of a list, `none` where one throws. -/
def Block.addTransactions : List Transaction → Block → Option Block
  | [], b => some b
  | tx :: txs, b =>
      match b.addTransaction tx with
      | none => none
      | some b => b.addTransactions txs

namespace Miner

/-- `BuildCoinbase`. -/
def buildCoinbase (M : TxMaker) (height : UInt32) (value : UInt64) (coinbaseOutputHash : Bytes32)
    (extraNonce : UInt64) : Transaction :=
  let marker := put32 height ++ put64 extraNonce ++ List.replicate 20 0
  M.make ⟨0, 0xFFFFFFFF, Bytes32.ofBytes marker, 0, 0, []⟩
    (.payTo value.toInt64 coinbaseOutputHash)

/-! ### Fees -/

/-- The total of the coins spent, `none` where one is missing or it wraps around. -/
def totalIn (s : ChainState) : UInt64 → List TxInput → Option UInt64
  | total, [] => some total
  | total, input :: inputs =>
      match s.getCoin input.outpoint with
      | none => none
      | some coin =>
          let newIn := total + coin.value.toUInt64
          if newIn < total then none else totalIn s newIn inputs

def totalOut : UInt64 → List TxOutput → Option UInt64
  | total, [] => some total
  | total, out :: outs =>
      let newOut := total + out.value.toUInt64
      if newOut < total then none else totalOut newOut outs

/-- `ComputeTxFee`, `none` where it returns false. -/
def computeTxFee (s : ChainState) (tx : Transaction) : Option UInt64 :=
  if tx.isCoinbase then some 0
  else
    match totalIn s 0 tx.inputs with
    | none => none
    | some totalIn =>
        match totalOut 0 tx.outputs with
        | none => none
        | some totalOut => if totalIn < totalOut then none else some (totalIn - totalOut)

/-! ### Templates -/

section

variable (P : Params) (M : TxMaker) (s : ChainState)

/-- The transactions taken behind those of `sizeProbe`, `none` where it is full.
The first too many is taken out again by filling the probe anew, which cannot
throw. -/
def fill : Block → List Transaction → Option (List Transaction)
  | _, [] => some []
  | sizeProbe, tx :: pending =>
      if (computeTxFee s tx).isNone then fill sizeProbe pending
      else
        match sizeProbe.addTransaction tx with
        | none => none
        | some sizeProbe =>
            if P.maxBlockSize.toNat < sizeProbe.getSerializedSize P then some []
            else (fill sizeProbe pending).map (tx :: ·)

/-- The time of a template: the clock, or the first second that is allowed. -/
def templateTime (nowSeconds : UInt64) : UInt64 :=
  let mtp := s.getMedianTimePast P
  let mtp := if mtp < P.genesisTimestamp then P.genesisTimestamp else mtp
  if nowSeconds ≤ mtp then mtp + 1 else nowSeconds

/-- The header before the roots are known. -/
def templateHeader (nowSeconds : UInt64) : BlockHeader where
  version := BlockHeader.currentVersion
  prevBlockHash := s.mBestChain.blockHash
  merkleRoot := 0
  leafRoot := 0
  timestamp := templateTime P s nowSeconds
  height := UInt32.ofNat (s.mBestChain.height + 1)
  bits := s.getNextBits P
  nonce := 0

def templateCoinbase (coinbaseOutputHash : Bytes32) (nowMillis : UInt64) : Transaction :=
  let height := UInt32.ofNat (s.mBestChain.height + 1)
  buildCoinbase M height (P.getBlockSubsidy height.toUInt64) coinbaseOutputHash nowMillis

/-- `BuildBlockTemplate`, `none` where it throws. The fees of the block are not
paid out: `totalFees` stays zero. -/
def buildBlockTemplate {Rate : Type} (mMempool : Option (Mempool Rate)) (coinbaseOutputHash : Bytes32)
    (nowMillis nowSeconds : UInt64) : Option Block :=
  let empty : Block := ⟨templateHeader P s nowSeconds, [], Nat.zero_le _⟩
  let coinbase := templateCoinbase P M s coinbaseOutputHash nowMillis
  let body :=
    match mMempool with
    | none => some []
    | some pool =>
        match empty.addTransaction coinbase with
        | none => none
        | some sizeProbe => fill P s sizeProbe (pool.getTransactions Block.maxTransactions)
  match body with
  | none => none
  | some body => (empty.addTransactions (coinbase :: body)).map (Block.updateRoots P.sha256)

end

end Miner

/-! ### Adding to a block -/

section

variable {P : Params} {b b' : Block} {tx : Transaction}

theorem Block.addTransaction_eq_none :
    b.addTransaction tx = none ↔ Block.maxTransactions ≤ b.transactions.length := by
  rw [addTransaction]
  split
  · rename_i room
    simpa using room
  · rename_i full
    simpa using full

theorem Block.addTransaction_eq_some (added : b.addTransaction tx = some b') :
    b'.header = b.header ∧ b'.transactions = b.transactions ++ [tx] := by
  rw [addTransaction] at added
  split at added
  · cases added
    exact ⟨rfl, rfl⟩
  · cases added

theorem Block.addTransactions_eq_some : ∀ {txs : List Transaction} {b b' : Block},
    b.addTransactions txs = some b' →
    b'.header = b.header ∧ b'.transactions = b.transactions ++ txs := by
  intro txs
  induction txs with
  | nil =>
      intro b b' added
      cases added
      exact ⟨rfl, (List.append_nil _).symm⟩
  | cons tx txs ih =>
      intro b b' added
      rw [addTransactions] at added
      cases first : b.addTransaction tx with
      | none =>
          rw [first] at added
          cases added
      | some next =>
          rw [first] at added
          obtain ⟨header, whole⟩ := Block.addTransaction_eq_some first
          obtain ⟨header', whole'⟩ := ih added
          refine ⟨header'.trans header, ?_⟩
          rw [whole', whole, List.append_assoc, List.singleton_append]

/-- There is room for as many as fit under the limit. -/
theorem Block.addTransactions_isSome : ∀ {txs : List Transaction} {b : Block},
    b.transactions.length + txs.length ≤ Block.maxTransactions →
    (b.addTransactions txs).isSome = true := by
  intro txs
  induction txs with
  | nil => exact fun _ => rfl
  | cons tx txs ih =>
      intro b fits
      rw [List.length_cons] at fits
      rw [addTransactions]
      cases first : b.addTransaction tx with
      | none =>
          have full := Block.addTransaction_eq_none.mp first
          omega
      | some next =>
          refine ih ?_
          rw [(Block.addTransaction_eq_some first).2, List.length_append, List.length_singleton]
          omega

/-- The bytes transactions add to a block. -/
def Params.sizeOf (P : Params) (txs : List Transaction) : Nat :=
  (txs.map fun tx => 4 + P.getSerializedSize tx).sum

@[simp] theorem Params.sizeOf_cons (tx : Transaction) (txs : List Transaction) :
    P.sizeOf (tx :: txs) = 4 + P.getSerializedSize tx + P.sizeOf txs := by
  simp [sizeOf]

theorem Block.getSerializedSize_addTransaction (added : b.addTransaction tx = some b') :
    b'.getSerializedSize P = b.getSerializedSize P + (4 + P.getSerializedSize tx) := by
  rw [getSerializedSize, getSerializedSize, (Block.addTransaction_eq_some added).2,
    List.map_append, List.sum_append]
  simp [Nat.add_assoc]

end

namespace Miner

variable {P : Params} {M : TxMaker} {s : ChainState}

/-- What is taken comes from the list, in order, and fits. -/
theorem fill_spec : ∀ {pending body : List Transaction} {sizeProbe : Block},
    fill P s sizeProbe pending = some body →
    body.Sublist pending ∧
      sizeProbe.transactions.length + body.length ≤ Block.maxTransactions ∧
      (body ≠ [] → sizeProbe.getSerializedSize P + P.sizeOf body ≤ P.maxBlockSize.toNat) := by
  intro pending
  induction pending with
  | nil =>
      intro body sizeProbe filled
      cases filled
      exact ⟨.slnil, sizeProbe.transactions_le, fun some => absurd rfl some⟩
  | cons tx pending ih =>
      intro body sizeProbe filled
      rw [fill] at filled
      split at filled
      · obtain ⟨sub, rest⟩ := ih filled
        exact ⟨sub.cons tx, rest⟩
      · cases added : sizeProbe.addTransaction tx with
        | none =>
            rw [added] at filled
            cases filled
        | some next =>
            rw [added] at filled
            dsimp only at filled
            split at filled
            · cases filled
              exact ⟨List.nil_sublist _, sizeProbe.transactions_le, fun some => absurd rfl some⟩
            · rename_i fits
              obtain ⟨rest, later, rfl⟩ := Option.map_eq_some_iff.mp filled
              obtain ⟨sub, count, size⟩ := ih later
              have grown := Block.getSerializedSize_addTransaction (P := P) added
              rw [(Block.addTransaction_eq_some added).2, List.length_append,
                List.length_singleton] at count
              refine ⟨sub.cons_cons tx, by rw [List.length_cons]; omega, fun _ => ?_⟩
              rw [Params.sizeOf_cons, ← Nat.add_assoc, ← grown]
              by_cases last : rest = []
              · rw [last]
                exact Nat.not_lt.mp fits
              · exact size last

/-- The block overflows where the transactions with a fee are more than the
places left and those of the places fit by their size. -/
theorem fill_eq_none : ∀ {pending : List Transaction} {sizeProbe : Block},
    fill P s sizeProbe pending = none ↔
      let payable := pending.filter fun tx => (computeTxFee s tx).isSome
      let room := Block.maxTransactions - sizeProbe.transactions.length
      room < payable.length ∧ (room = 0 ∨
        sizeProbe.getSerializedSize P + P.sizeOf (payable.take room) ≤ P.maxBlockSize.toNat) := by
  intro pending
  induction pending with
  | nil => simp [fill]
  | cons tx pending ih =>
      intro sizeProbe
      rw [fill]
      cases fee : computeTxFee s tx with
      | none =>
          rw [List.filter_cons_of_neg (by simp [fee])]
          exact ih
      | some _ =>
          rw [List.filter_cons_of_pos (by simp [fee]), if_neg (by simp)]
          dsimp only
          cases added : sizeProbe.addTransaction tx with
          | none =>
              have full := Block.addTransaction_eq_none.mp added
              simp [Nat.sub_eq_zero_of_le full]
          | some next =>
              have free : ¬ Block.maxTransactions ≤ sizeProbe.transactions.length := by
                rw [← Block.addTransaction_eq_none, added]
                nofun
              have grown := Block.getSerializedSize_addTransaction (P := P) added
              have room : Block.maxTransactions - sizeProbe.transactions.length =
                  Block.maxTransactions - next.transactions.length + 1 := by
                rw [(Block.addTransaction_eq_some added).2, List.length_append,
                  List.length_singleton]
                omega
              dsimp only
              rw [room, List.take_succ_cons, Params.sizeOf_cons, ← Nat.add_assoc, ← grown,
                List.length_cons]
              split
              · rename_i large
                simp only [reduceCtorEq, false_iff]
                rintro ⟨-, zero | fits⟩ <;> omega
              · rename_i fits
                rw [Option.map_eq_none_iff, ih]
                dsimp only
                constructor
                · rintro ⟨more, none | size⟩
                  · refine ⟨by omega, .inr ?_⟩
                    rw [none, List.take_zero]
                    exact Nat.not_lt.mp fits
                  · exact ⟨by omega, .inr size⟩
                · rintro ⟨more, none | size⟩
                  · omega
                  · exact ⟨by omega, .inr size⟩

/-! ### The template -/

/-- As many transactions of the pool as a block has places are paid, and with the
coinbase all but the last fit by their size: the last finds no place. -/
def Crowded {Rate : Type} (P : Params) (M : TxMaker) (s : ChainState) (pool : Mempool Rate)
    (coinbaseOutputHash : Bytes32) (nowMillis : UInt64) : Prop :=
  let pending := pool.getTransactions Block.maxTransactions
  pending.length = Block.maxTransactions ∧ (∀ tx ∈ pending, (computeTxFee s tx).isSome = true) ∧
    BlockHeader.serializedSize + 4 +
      P.sizeOf (templateCoinbase P M s coinbaseOutputHash nowMillis :: pending.dropLast) ≤
        P.maxBlockSize.toNat

section

variable {Rate : Type} {pool : Mempool Rate} {coinbaseOutputHash : Bytes32}
  {nowMillis nowSeconds : UInt64} {block : Block}

/-- The probe is a block of the coinbase alone. -/
theorem exists_sizeProbe (header : BlockHeader) (coinbase : Transaction) :
    ∃ sizeProbe, Block.addTransaction coinbase ⟨header, [], Nat.zero_le _⟩ = some sizeProbe ∧
      sizeProbe.transactions = [coinbase] ∧
      sizeProbe.getSerializedSize P = BlockHeader.serializedSize + 4 + P.sizeOf [coinbase] :=
  ⟨_, dif_pos (show 0 < Block.maxTransactions by decide), rfl, rfl⟩

/-- A template is the coinbase and transactions of the pool behind it, and it
carries their roots. -/
theorem buildBlockTemplate_spec
    (built : buildBlockTemplate P M s (some pool) coinbaseOutputHash nowMillis nowSeconds =
      some block) :
    ∃ body, block.transactions = templateCoinbase P M s coinbaseOutputHash nowMillis :: body ∧
      body.Sublist (pool.getTransactions Block.maxTransactions) ∧
      (body ≠ [] → block.getSerializedSize P ≤ P.maxBlockSize.toNat) ∧
      block.header = { templateHeader P s nowSeconds with
        merkleRoot := block.computeMerkleRoot P.sha256
        leafRoot := block.computeLeafRoot P.sha256 } := by
  obtain ⟨sizeProbe, first, -, probe⟩ := exists_sizeProbe (P := P) (templateHeader P s nowSeconds)
    (templateCoinbase P M s coinbaseOutputHash nowMillis)
  rw [buildBlockTemplate, first] at built
  dsimp only at built
  cases filled : fill P s sizeProbe (pool.getTransactions Block.maxTransactions) with
  | none =>
      rw [filled] at built
      cases built
  | some body =>
      rw [filled] at built
      obtain ⟨whole, added, rfl⟩ := Option.map_eq_some_iff.mp built
      obtain ⟨header, transactions⟩ := Block.addTransactions_eq_some added
      obtain ⟨sub, -, size⟩ := fill_spec filled
      refine ⟨body, transactions, sub, fun some => le_trans (le_of_eq ?_) (size some), ?_⟩
      · rw [probe, Params.sizeOf, Params.sizeOf, Block.getSerializedSize, Block.updateRoots,
          transactions]
        simp [Nat.add_assoc]
      · rw [Block.updateRoots, header]
        rfl

/-- A template is built unless the pool leaves the coinbase no place. -/
theorem buildBlockTemplate_isSome :
    (buildBlockTemplate P M s (some pool) coinbaseOutputHash nowMillis nowSeconds).isSome = true ↔
      ¬ Crowded P M s pool coinbaseOutputHash nowMillis := by
  obtain ⟨sizeProbe, first, alone, probe⟩ := exists_sizeProbe (P := P)
    (templateHeader P s nowSeconds) (templateCoinbase P M s coinbaseOutputHash nowMillis)
  have crowded : fill P s sizeProbe (pool.getTransactions Block.maxTransactions) = none ↔
      Crowded P M s pool coinbaseOutputHash nowMillis := by
    have few : (pool.getTransactions Block.maxTransactions).length ≤ Block.maxTransactions := by
      rw [Mempool.getTransactions_eq, List.length_map]
      exact List.length_take_le ..
    rw [fill_eq_none, alone, probe, Crowded, List.length_singleton]
    generalize pool.getTransactions Block.maxTransactions = pending at few
    have cost : P.sizeOf (templateCoinbase P M s coinbaseOutputHash nowMillis :: pending.dropLast) =
        P.sizeOf [templateCoinbase P M s coinbaseOutputHash nowMillis] +
          P.sizeOf (pending.take (pending.length - 1)) := by
      rw [List.dropLast_eq_take]
      simp [Params.sizeOf]
    have places : Block.maxTransactions - 1 ≠ 0 := by decide
    dsimp only
    rw [cost, ← Nat.add_assoc]
    constructor
    · rintro ⟨more, size⟩
      have within := List.length_filter_le (fun tx => (computeTxFee s tx).isSome) pending
      have all : pending.filter (fun tx => (computeTxFee s tx).isSome) = pending :=
        List.filter_sublist.eq_of_length (by omega)
      rw [all] at more size
      have full : pending.length = Block.maxTransactions := by omega
      rw [full]
      exact ⟨rfl, List.filter_eq_self.mp all, size.resolve_left places⟩
    · rintro ⟨full, payable, size⟩
      rw [List.filter_eq_self.mpr payable, ← full]
      rw [full] at size ⊢
      exact ⟨by omega, .inr size⟩
  rw [← crowded, buildBlockTemplate, first]
  dsimp only
  cases filled : fill P s sizeProbe (pool.getTransactions Block.maxTransactions) with
  | none => simp
  | some body =>
      obtain ⟨-, count, -⟩ := fill_spec filled
      rw [alone] at count
      let empty : Block := ⟨templateHeader P s nowSeconds, [], Nat.zero_le _⟩
      have places : empty.transactions.length +
          (templateCoinbase P M s coinbaseOutputHash nowMillis :: body).length ≤
            Block.maxTransactions := by
        simpa [empty, Nat.add_comm] using count
      simpa using Block.addTransactions_isSome places

end

end Miner

end QmaskCore
