import QmaskCore.Ledger.ActiveChain
import QmaskCore.Ledger.Extends
import QmaskCore.Validation.Transfer

/-!
Each active block keeps the rules on its own ancestors.

A block of a side branch is validated against the coins of whatever chain is
active when it comes, and connecting it later asks less than validation does.
`own_rules` closes the gap: a transaction both chains hold is one transaction,
so an input names the same coin on either chain, and what the block creates
itself cannot have been on the other chain, where its leaves were still free.
`active_blocks_ruled` is the statement for the node.
-/

namespace QmaskCore

/-- Among some blocks an id names one transaction, and a coinbase one block. -/
structure DistinctAmong (stored : Block → Prop) : Prop where
  injective : ∀ b, stored b → ∀ b', stored b' → ∀ tx ∈ b.transactions, ∀ tx' ∈ b'.transactions,
    tx.hash = tx'.hash → tx = tx'
  coinbases : ∀ b, stored b → ∀ b', stored b' → ∀ tx ∈ b.coinbase?, ∀ tx' ∈ b'.coinbase?,
    tx.hash = tx'.hash → b = b'

theorem DistinctAmong.mono {stored less : Block → Prop} (ids : DistinctAmong stored)
    (sub : ∀ b, less b → stored b) : DistinctAmong less where
  injective b here b' there := ids.injective b (sub b here) b' (sub b' there)
  coinbases b here b' there := ids.coinbases b (sub b here) b' (sub b' there)

/-- A block the node holds: it is in the index and can be found in its file. -/
def ChainState.Retains (P : Params) (s : ChainState) (block : Block) : Prop :=
  ∃ blockHash entry, s.readBlockIndex blockHash = some entry ∧
    s.mBlockData.recordAt P entry.blockPos = some block

/-! ### What goes through, payment by payment -/

section

variable {P : Params} {height : UInt32}

/-- A coin there is after some transactions was there before them or is one of theirs. -/
theorem CoinStore.getCoin_afterAll_cases {o : OutPoint} {c : Coin} : ∀ {txs : List Transaction}
    {V : CoinStore}, (V.afterAll height txs).getCoin o = some c →
    V.getCoin o = some c ∨ ∃ tx ∈ txs, tx.creates height o = some c := by
  intro txs
  induction txs with
  | nil => exact fun found => .inl found
  | cons tx txs ih =>
      intro V found
      rcases ih (V := V.after height tx) found with before | ⟨tx', mem, new⟩
      · rw [CoinStore.getCoin_after] at before
        cases new : tx.creates height o with
        | some c' =>
            rw [new, Option.some_or] at before
            exact .inr ⟨tx, List.mem_cons_self, new.trans before⟩
        | none =>
            rw [new, Option.none_or] at before
            split at before
            · cases before
            · exact .inl before
      · exact .inr ⟨tx', List.mem_cons_of_mem _ mem, new⟩

/-- Each payment was payable in the store those before it left. -/
theorem PaysAll.each : ∀ {done : List (Transaction × List Coin)} {V : CoinStore},
    PaysAll P height V done → ∀ d ∈ done, ∃ before, (∀ tx ∈ before, tx ∈ done.map (·.1)) ∧
      Payable P (V.afterAll height before) d.1 d.2 := by
  intro done
  induction done with
  | nil => simp
  | cons first done ih =>
      rintro V ⟨payable, pays⟩ d mem
      rcases List.mem_cons.mp mem with rfl | mem
      · exact ⟨[], by simp, payable⟩
      · obtain ⟨before, sub, payable⟩ := ih pays d mem
        refine ⟨first.1 :: before, fun tx listed => ?_, payable⟩
        rcases List.mem_cons.mp listed with rfl | listed
        · exact List.mem_cons_self
        · exact List.mem_cons_of_mem _ (sub tx listed)

/-- The same in a block: what comes before a payment is of the block. -/
theorem AppliesWith.each {V : CoinStore} {block : Block} {done : List (Transaction × List Coin)}
    (applies : AppliesWith P height V block done) {tx : Transaction} (mem : tx ∈ block.payments) :
    ∃ before coins, (∀ tx' ∈ before, tx' ∈ block.transactions) ∧
      Payable P (V.afterAll height before) tx coins := by
  rw [applies.all] at mem
  obtain ⟨d, memDone, rfl⟩ := List.mem_map.mp mem
  obtain ⟨before, sub, payable⟩ := applies.pays.each d memDone
  refine ⟨block.coinbase?.toList ++ before, d.2, fun tx' listed => ?_, ?_⟩
  · rw [block.transactions_eq, applies.all]
    exact List.mem_append.mpr ((List.mem_append.mp listed).imp_right (sub tx'))
  · rwa [CoinStore.afterAll, List.foldl_append]

end

/-- The coins of one transaction under one outpoint differ in the height only. -/
theorem Transaction.creates_alike {tx : Transaction} {h h' : UInt32} {o : OutPoint} {c d : Coin}
    (here : tx.creates h o = some c) (there : tx.creates h' o = some d)
    (same : tx.isCoinbase = true → h = h') : c.Alike d := by
  unfold Transaction.creates Transaction.newCoinAt at here there
  split at here
  · rename_i own
    rw [if_pos own] at there
    obtain ⟨out, listed, becomes⟩ := Option.bind_eq_some_iff.mp here
    obtain ⟨out', listed', becomes'⟩ := Option.bind_eq_some_iff.mp there
    obtain rfl : out = out' := Option.some.inj (listed.symm.trans listed')
    obtain ⟨-, key, paid, rfl⟩ := TxOutput.toCoin_eq_some becomes
    obtain ⟨-, key', paid', rfl⟩ := TxOutput.toCoin_eq_some becomes'
    obtain rfl : key = key' := Option.some.inj (paid.symm.trans paid')
    exact ⟨rfl, rfl, rfl, rfl, same⟩
  · cases here

/-! ### Blocks of one tree -/

namespace Ledger

variable {P : Params} {given : Block → Prop} {L L' : Ledger}

def Stores (L : Ledger) (block : Block) : Prop :=
  ∃ blockHash st, L.tree blockHash = some st ∧ st.block = block

theorem Moves.stores (moves : Moves P given (fun _ => False) L L') (valid : L.Valid P)
    {block : Block} (stored : L.Stores block) : L'.Stores block := by
  obtain ⟨blockHash, st, found, same⟩ := stored
  exact ⟨blockHash, st, moves.tree_le valid found, same⟩

namespace Valid

variable {chain : List Connected}

/-- The blocks of a chain and genesis are stored. -/
theorem stores (valid : L.Valid P) (linked : Linked P L.tree (chain.map (·.block))) {b : Block}
    (mem : b ∈ P.buildGenesisBlock :: chain.map (·.block)) : L.Stores b := by
  rcases List.mem_cons.mp mem with rfl | mem
  · exact ⟨_, _, valid.genesis, rfl⟩
  · obtain ⟨st, stored, same, -⟩ := linked.height_le b mem
    exact ⟨_, st, stored, same⟩

/-- A transaction of a chain belongs to a block of it, whose height it has. -/
theorem made (valid : L.Valid P) {m : Transaction × UInt32} :
    ∀ {chain : List Connected}, Linked P L.tree (chain.map (·.block)) → m ∈ madeBy P chain →
    ∃ b ∈ P.buildGenesisBlock :: chain.map (·.block), m.1 ∈ b.transactions ∧
      m.2 = b.header.height := by
  intro chain
  induction chain with
  | nil =>
      intro _ mem
      obtain ⟨tx, listed, rfl⟩ := List.mem_map.mp mem
      exact ⟨_, List.mem_cons_self, listed, valid.sound.header.2.symm⟩
  | cons c rest ih =>
      rintro ⟨stored, -, below⟩ mem
      rcases List.mem_append.mp mem with here | lower
      · obtain ⟨tx, listed, rfl⟩ := List.mem_map.mp here
        refine ⟨c.block, List.mem_cons_of_mem _ List.mem_cons_self, listed, ?_⟩
        have height := valid.height_of_tree stored
        rw [height_topBlock, List.length_cons, List.length_map] at height
        rw [nextHeight, ← height]
        exact UInt32.ofNat_toNat
      · obtain ⟨b, memB, listed, height⟩ := ih below lower
        refine ⟨b, ?_, listed, height⟩
        rcases List.mem_cons.mp memB with genesis | memB
        · exact List.mem_cons.mpr (.inl genesis)
        · exact List.mem_cons_of_mem _ (List.mem_cons_of_mem _ memB)

/-- A block that would be the next of a chain is not one of it. -/
theorem next_not_mem (valid : L.Valid P) (linked : Linked P L.tree (chain.map (·.block)))
    {block : Block} (height : block.header.height.toNat = chain.length + 1) :
    block ∉ P.buildGenesisBlock :: chain.map (·.block) := by
  intro mem
  rcases List.mem_cons.mp mem with rfl | mem
  · rw [valid.sound.header.2] at height
    cases height
  · obtain ⟨st, stored, same, -, le⟩ := linked.height_le block mem
    have level := valid.height_of_tree stored
    rw [same, height] at level
    rw [List.length_map] at le
    omega

/-- A stored block that a chain does not hold is fresh on it. -/
theorem fresh (valid : L.Valid P) (ids : DistinctAmong L.Stores)
    (linked : Linked P L.tree (chain.map (·.block)))
    (one : ∀ b ∈ P.buildGenesisBlock :: chain.map (·.block), b.OneCoinbase) {block : Block}
    (stored : L.Stores block) (new : block ∉ P.buildGenesisBlock :: chain.map (·.block)) :
    Fresh P block chain where
  injective := by
    have inBlock : ∀ tx ∈ block.transactions ++ (madeBy P chain).map (·.1),
        ∃ b, L.Stores b ∧ tx ∈ b.transactions := by
      intro tx mem
      rcases List.mem_append.mp mem with own | made
      · exact ⟨block, stored, own⟩
      · obtain ⟨m, memM, rfl⟩ := List.mem_map.mp made
        obtain ⟨b, memB, listed, -⟩ := valid.made linked memM
        exact ⟨b, valid.stores linked memB, listed⟩
    intro tx mem tx' mem' same
    obtain ⟨b, here, listed⟩ := inBlock tx mem
    obtain ⟨b', here', listed'⟩ := inBlock tx' mem'
    exact ids.injective b here b' here' tx listed tx' listed' same
  coinbase := by
    intro tx coinbase m mem same
    obtain ⟨b, memB, listed, -⟩ := valid.made linked mem
    have below := valid.stores linked memB
    have own : tx ∈ block.transactions := by
      rw [block.transactions_eq, coinbase]
      simp
    have equal : m.1 = tx := ids.injective b below block stored m.1 listed tx own same
    rw [equal] at listed
    have first := (one b memB).eq_coinbase listed (block.isCoinbase_of_mem coinbase)
    have itself := ids.coinbases block stored b below tx coinbase tx first rfl
    exact new (itself ▸ memB)

/-- Transactions of two chains with one hash are the same, and at one height when
they are coinbases. -/
theorem made_once (valid : L.Valid P) (ids : DistinctAmong L.Stores) {chain' : List Connected}
    (linked : Linked P L.tree (chain.map (·.block)))
    (linked' : Linked P L.tree (chain'.map (·.block)))
    (one : ∀ b ∈ P.buildGenesisBlock :: chain.map (·.block), b.OneCoinbase)
    (one' : ∀ b ∈ P.buildGenesisBlock :: chain'.map (·.block), b.OneCoinbase)
    {m m' : Transaction × UInt32} (mem : m ∈ madeBy P chain) (mem' : m' ∈ madeBy P chain')
    (same : m.1.hash = m'.1.hash) : m.1 = m'.1 ∧ (m.1.isCoinbase = true → m.2 = m'.2) := by
  obtain ⟨b, memB, listed, height⟩ := valid.made linked mem
  obtain ⟨b', memB', listed', height'⟩ := valid.made linked' mem'
  have stored := valid.stores linked memB
  have stored' := valid.stores linked' memB'
  have equal := ids.injective b stored b' stored' _ listed _ listed' same
  refine ⟨equal, fun coinbase => ?_⟩
  have first := (one b memB).eq_coinbase listed coinbase
  have first' := (one' b' memB').eq_coinbase listed' (equal ▸ coinbase)
  rw [height, height', ids.coinbases b stored b' stored' _ first _ first' same]

end Valid

/-- The blocks of a chain that applies, and genesis, have their only coinbase in front. -/
theorem one_of_applied (sound : P.SoundGenesis) : ∀ {chain : List Connected}, Applied P chain →
    ∀ b ∈ P.buildGenesisBlock :: chain.map (·.block), b.OneCoinbase := by
  intro chain
  induction chain with
  | nil =>
      intro _ b mem
      rw [List.mem_singleton.mp mem]
      simp [Block.OneCoinbase, sound.single]
  | cons c rest ih =>
      rintro ⟨applies, below⟩ b mem
      rcases List.mem_cons.mp mem with genesis | mem
      · exact ih below b (List.mem_cons.mpr (.inl genesis))
      · rcases List.mem_cons.mp mem with rfl | mem
        · exact applies.one
        · exact ih below b (List.mem_cons_of_mem _ mem)

/-- What a stored block is like, genesis included: each payment spends something. -/
theorem Moves.lively (start : (initial P).Valid P)
    (moves : Moves P given (fun _ => False) (initial P) L) {block : Block}
    (stored : L.Stores block) : block.Lively P := by
  refine Block.lively_of_spends fun tx mem => ?_
  obtain ⟨blockHash, st, found, rfl⟩ := stored
  by_cases genesis : blockHash = P.genesisHash
  · rw [genesis, (Moves.valid moves (fun _ => nofun) start).genesis] at found
    cases found
    change tx ∈ P.buildGenesisBlock.payments at mem
    rw [start.sound.single] at mem
    cases mem
  · obtain ⟨now, L₀, parent, -, -, -, -, admitted, -⟩ := Moves.admitted start moves found genesis
    exact ((rules_of_admits admitted).payments tx mem).spendsSome

/-- When ids are distinct among the stored blocks, the coins are those of the chain. -/
theorem Moves.exact_of_distinct (start : (initial P).Valid P)
    (moves : Moves P given (fun _ => False) (initial P) L) (ids : DistinctAmong L.Stores) :
    L.Exact P := by
  induction moves with
  | refl => exact exact_initial P
  | @tail L L' before move ih =>
      have valid := Moves.valid before (fun _ => nofun) start
      have lively {block : Block} (stored : L.Stores block) : block.Lively P :=
        Moves.lively start before stored
      have distinct : DistinctAmong L.Stores := by
        refine ids.mono fun b stored => ?_
        exact Moves.stores (.single move) valid stored
      have exact := ih distinct
      have one := one_of_applied valid.sound exact.applied
      cases move with
      | store _ _ _ _ => exact ⟨exact.applied, exact.coins⟩
      | @connect blockHash st stored =>
          have here : L.Stores st.block := ⟨blockHash, st, stored, rfl⟩
          refine exact.connect (lively here) (valid.shape stored) fun next => ?_
          refine valid.fresh distinct valid.linked one here ?_
          exact valid.next_not_mem valid.linked (by simpa using (height_of_follows next).1)
      | connectDirect none _ => exact none.elim
      | disconnect =>
          have linked := valid.linked
          unfold blocks at linked
          refine exact.disconnect (fun c rest chain => ?_) fun c rest chain => ?_
          all_goals rw [chain] at linked one
          · exact lively (valid.stores linked (List.mem_cons_of_mem _ List.mem_cons_self))
          · refine valid.fresh distinct linked.2.2 (fun b mem => one b ?_)
              (valid.stores linked (List.mem_cons_of_mem _ List.mem_cons_self)) ?_
            · rcases List.mem_cons.mp mem with genesis | mem
              · exact List.mem_cons.mpr (.inl genesis)
              · exact List.mem_cons_of_mem _ (List.mem_cons_of_mem _ mem)
            · refine valid.next_not_mem linked.2.2 ?_
              have height := valid.height_of_tree linked.1
              rw [height_topBlock, List.length_cons, List.length_map] at height
              exact height

end Ledger

/-! ### On the block's own ancestors -/

/-- No transaction of a block creates a coin of a chain the block is fresh on and
was validated against: a payment of the block still has its leaves to reveal. -/
theorem Fresh.apart {P : Params} {block : Block} {chain : List Connected} {V : CoinStore}
    {height height' : UInt32} (fresh : Fresh P block chain) (sourced : Sourced V (madeBy P chain))
    (rules : BlockRules P V.view height block) {tx : Transaction} (mem : tx ∈ block.transactions)
    {o : OutPoint} {c d : Coin} (held : V.getCoin o = some c)
    (new : tx.creates height' o = some d) : False := by
  obtain ⟨m, made, created⟩ := sourced.coins held
  have own := Transaction.mem_outpoints.mp (Transaction.mem_outpoints_of_newCoinAt created)
  have own' := Transaction.mem_outpoints.mp (Transaction.mem_outpoints_of_newCoinAt new)
  have same : m.1.hash = tx.hash := own.1.symm.trans own'.1
  have equal : m.1 = tx := fresh.injective m.1
    (List.mem_append_right _ (List.mem_map_of_mem made)) tx (List.mem_append_left _ mem) same
  rw [block.transactions_eq] at mem
  rcases List.mem_append.mp mem with coinbase | payment
  · exact fresh.coinbase tx (by simpa using coinbase) m made same
  · have passed := rules.payments tx payment
    obtain ⟨input, inputs, shape⟩ := List.exists_cons_of_ne_nil passed.spendsSome
    obtain ⟨present, parses⟩ := passed.parse input (by simp [shape])
    obtain ⟨key, keys, first⟩ := List.exists_cons_of_ne_nil (TxInput.leaves_ne_nil present parses)
    have revealed : key ∈ tx.reveals := by
      rw [tx.reveals_payment (rules.one tx payment)]
      simp [shape, first]
    have unspent : V.isNoiseLeafSpent key = false :=
      rules.reveals.2 key (List.mem_flatMap.mpr ⟨tx, payment, revealed⟩)
    have spent := sourced.leaves m made key (equal ▸ revealed)
    simp [CoinStore.isNoiseLeafSpent, spent] at unspent

namespace Ledger

variable {P : Params} {given : Block → Prop} {L : Ledger}

theorem check_of_admits {now : UInt64} {block : Block} {parent : StoredBlock}
    (admitted : L.admits P now block parent = true) :
    BlockValidation.checkBlockTransactionsWithUTXO P L.coins.view
      (UInt32.ofNat (parent.height + 1)) block = .ok () := by
  simp only [admits, BlockValidation.validateBlock, Bool.and_eq_true, decide_eq_true_eq,
    Checks.bind_eq_ok, Checks.exists_unit_iff] at admitted
  exact admitted.2.2.2

/-- A block of the active chain passes its check on the coins of the chain below it. -/
theorem own_rules (start : (initial P).Valid P)
    (moves : Moves P given (fun _ => False) (initial P) L) (ids : DistinctAmong L.Stores)
    {c : Connected} {rest : List Connected}
    (linked : Linked P L.tree ((c :: rest).map (·.block))) (applied : Applied P (c :: rest)) :
    BlockValidation.checkBlockTransactionsWithUTXO P (chainCoins P rest).view (nextHeight rest)
      c.block = .ok () := by
  have valid := Moves.valid moves (fun _ => nofun) start
  have above : c.block.getHash P.sha256 ≠ P.genesisHash := by
    intro genesis
    have zero := (valid.height_eq_zero linked.1).mpr genesis
    rw [height_topBlock] at zero
    cases zero
  -- The ledger `L₀` validated the block, on whatever chain was active then.
  obtain ⟨now, L₀, parent, before, since, new, -, admitted, grown⟩ :=
    Moves.admitted start moves linked.1 above
  have valid₀ := Moves.valid before (fun _ => nofun) start
  have exact₀ : L₀.Exact P := by
    refine Moves.exact_of_distinct start before (ids.mono fun b => ?_)
    exact Moves.stores since valid₀
  have rules := rules_of_admits admitted
  have passed := check_of_admits admitted
  have level : parent.height + 1 = rest.length + 1 := by
    have same := congrArg StoredBlock.height grown
    rw [height_topBlock, List.length_cons, List.length_map] at same
    exact same.symm
  rw [level] at passed
  have linked₀ : Linked P L.tree (L₀.chain.map (·.block)) :=
    Linked.mono (Moves.tree_le since valid₀) valid₀.linked
  have one₀ := one_of_applied valid.sound exact₀.applied
  have one := one_of_applied valid.sound applied.2
  have sourced₀ : Sourced L₀.coins (madeBy P L₀.chain) := exact₀.coins ▸ exact₀.applied.backed.sourced
  have sourced := applied.2.backed.sourced
  have fresh₀ : Fresh P c.block L₀.chain := by
    refine valid.fresh ids linked₀ one₀ ⟨_, _, linked.1, rfl⟩ fun mem => ?_
    obtain ⟨key, st, stored, same⟩ := valid₀.stores valid₀.linked mem
    rw [← (valid₀.planted stored).keyed, same] at stored
    cases new.symm.trans stored
  rw [← passed]
  refine (BlockValidation.checkBlockTransactionsWithUTXO_alike fun tx mem => ?_).symm
  have mem : tx ∈ c.block.payments := by
    obtain ⟨coinbase, first, -, -⟩ := rules.coinbase
    rw [c.block.transactions_eq, show c.block.coinbase? = some coinbase from first] at mem
    exact mem
  obtain ⟨earlier, spent, sub, payable⟩ := applied.1.each mem
  constructor
  · intro input listed
    obtain ⟨coins, found₀, -⟩ := (rules.payments tx mem).covers
    obtain ⟨c₀, held₀⟩ := CoinsView.getCoin_of_coinsOf found₀ input listed
    obtain ⟨d, found⟩ := CoinsView.getCoin_of_coinsOf payable.found input listed
    rcases CoinStore.getCoin_afterAll_cases found with held | ⟨tx', memTx, created⟩
    · obtain ⟨m₀, made₀, created₀⟩ := sourced₀.coins held₀
      obtain ⟨m, made, created⟩ := sourced.coins held
      have own₀ := Transaction.mem_outpoints.mp (Transaction.mem_outpoints_of_newCoinAt created₀)
      have own := Transaction.mem_outpoints.mp (Transaction.mem_outpoints_of_newCoinAt created)
      obtain ⟨equal, heights⟩ := valid.made_once ids linked₀ linked.2.2 one₀ one made₀ made
        (own₀.1.symm.trans own.1)
      rw [equal] at created₀ heights
      exact ⟨c₀, d, held₀, held, Transaction.creates_alike created₀ created heights⟩
    · exact (fresh₀.apart sourced₀ rules (sub tx' memTx) held₀ created).elim
  · intro keys listed key memKey
    rw [← (rules.payments tx mem).wanted] at listed
    obtain ⟨input, memInput, rfl⟩ := List.mem_map.mp listed
    have revealed : key ∈ leavesOf tx.inputs := List.mem_flatMap.mpr ⟨input, memInput, memKey⟩
    have free₀ : L₀.coins.view.isNoiseLeafSpent key = false := by
      refine rules.reveals.2 key (List.mem_flatMap.mpr ⟨tx, mem, ?_⟩)
      rwa [tx.reveals_payment (rules.one tx mem)]
    have free := payable.claim.2 key revealed
    rw [free₀]
    simp only [CoinStore.isNoiseLeafSpent, CoinStore.leaves_afterAll, Finset.mem_union,
      decide_eq_false_iff_not, not_or] at free
    exact (decide_eq_false free.2).symm

end Ledger

/-- The node stores the blocks of its ledger's tree. -/
theorem Represents.retains_iff {P : Params} {s : ChainState} {L : Ledger} (rep : Represents P s L)
    {block : Block} : s.Retains P block ↔ L.Stores block := by
  constructor
  · rintro ⟨blockHash, entry, read, record⟩
    cases stored : L.tree blockHash with
    | none =>
        rw [rep.absent stored] at read
        cases read
    | some st =>
        obtain ⟨pos, read', record'⟩ := rep.stored stored
        cases read.symm.trans read'
        exact ⟨blockHash, st, stored, Option.some.inj (record'.symm.trans record)⟩
  · rintro ⟨blockHash, st, found, rfl⟩
    obtain ⟨pos, read, record⟩ := rep.stored found
    exact ⟨blockHash, _, read, record⟩

/-- **Active blocks keep every rule on their own ancestors.** After any deliveries
to a new node, each block of the active chain passes the check against the coins
at its height on the store that its own ancestors come to, whatever chain was
active when the block was validated, as long as ids are distinct among the
blocks the node stores. -/
theorem active_blocks_ruled {P : Params} (sound : P.SoundGenesis) {s₀ : ChainState}
    (opened : ChainState.initializeState P (.ofDisk .empty) = .ok s₀)
    (deliveries : List (UInt64 × Block))
    (ids : DistinctAmong ((s₀.acceptAll P deliveries).Retains P)) :
    ∃ chain, (s₀.acceptAll P deliveries).activeChain P = some chain ∧
      ∀ above block below, chain = above ++ block :: below →
        ∃ V, chainStore P below = some V ∧
          BlockValidation.checkBlockTransactionsWithUTXO P V.view (nextHeight below) block =
            .ok () := by
  obtain ⟨L, rep, moves⟩ := accepted deliveries sound opened
  have start := (represents_initial sound opened).valid
  have ids : DistinctAmong L.Stores := ids.mono fun b stored => rep.retains_iff.mpr stored
  have exact := Ledger.Moves.exact_of_distinct start moves ids
  refine ⟨_, rep.activeChain_eq, fun above block below split => ?_⟩
  obtain ⟨upper, lower, whole, -, lowerEq⟩ := List.map_eq_append_iff.mp split
  obtain ⟨c, rest, rfl, rfl, rfl⟩ := List.map_eq_cons_iff.mp lowerEq
  have part : L.chain.drop upper.length = c :: rest := by
    rw [whole, List.drop_left]
  have linked : Ledger.Linked P L.tree ((c :: rest).map (·.block)) := by
    rw [← part, List.map_drop]
    exact rep.valid.linked.drop _
  have applied : Applied P (c :: rest) := part ▸ exact.applied.drop _
  have passed := Ledger.own_rules start moves ids linked applied
  refine ⟨_, chainStore_eq sound applied.2, ?_⟩
  rwa [show nextHeight (rest.map (·.block)) = nextHeight rest by simp [nextHeight]]

open SmallNetwork in
theorem active_blocks_ruled_blockOne :
    ∃ chain, (node.acceptAll smallNetwork [(20, blockOne)]).activeChain smallNetwork = some chain ∧
      ∀ above block below, chain = above ++ block :: below →
        ∃ V, chainStore smallNetwork below = some V ∧
          BlockValidation.checkBlockTransactionsWithUTXO smallNetwork V.view (nextHeight below)
            block = .ok () := by
  refine active_blocks_ruled soundGenesis_smallNetwork node_opened [(20, blockOne)] ?_
  obtain ⟨L, rep, moves⟩ := accepted [(20, blockOne)] soundGenesis_smallNetwork node_opened
  have start := (represents_initial soundGenesis_smallNetwork node_opened).valid
  have holds := Ledger.Moves.holds moves (fun _ => nofun) start Ledger.holds_initial
  have two : ∀ b, (node.acceptAll smallNetwork [(20, blockOne)]).Retains smallNetwork b →
      b ∈ [smallNetwork.buildGenesisBlock, blockOne] := by
    intro b stored
    obtain ⟨blockHash, st, found, rfl⟩ := rep.retains_iff.mp stored
    rcases holds _ _ found with genesis | ⟨now, given⟩ | none
    · simp [genesis]
    · simp only [List.mem_singleton, Prod.mk.injEq] at given
      simp [given.2]
    · exact none.elim
  constructor
  · have names : ∀ b ∈ [smallNetwork.buildGenesisBlock, blockOne],
        ∀ b' ∈ [smallNetwork.buildGenesisBlock, blockOne], ∀ tx ∈ b.transactions,
        ∀ tx' ∈ b'.transactions, tx.hash = tx'.hash → tx = tx' := by decide +kernel
    exact fun b here b' there => names b (two b here) b' (two b' there)
  · have names : ∀ b ∈ [smallNetwork.buildGenesisBlock, blockOne],
        ∀ b' ∈ [smallNetwork.buildGenesisBlock, blockOne], ∀ tx ∈ b.coinbase?,
        ∀ tx' ∈ b'.coinbase?, tx.hash = tx'.hash → b = b' := by decide +kernel
    exact fun b here b' there => names b (two b here) b' (two b' there)

end QmaskCore
