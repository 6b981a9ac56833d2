import QmaskCore.Ledger.ActiveChain
import QmaskCore.Ledger.AllOrNothing
import QmaskCore.Ledger.Checkpoints
import QmaskCore.Ledger.Headers
import QmaskCore.Ledger.Overwrites

/-!
A branch that is refused half way.

`ActivateBestChainLocked` disconnects the active chain down to the fork, connects
the new branch and, when a block of it is refused, takes back what it connected
and nothing more. The old chain comes back only if nothing of it was taken off,
and its coins only if nothing was stored over one (`CoinStore.Lost`).
`failed_accept_unchanged_iff` says exactly when a refusal leaves no trace.
-/

namespace QmaskCore

/-! ### What taking back loses -/

/-- Transactions that do not touch an outpoint do not store over it. -/
theorem clobbers_of_not_touches {o : OutPoint} : ∀ {txs : List Transaction},
    touches o txs = false → clobbers o txs = false := by
  intro txs
  induction txs with
  | nil => exact fun _ => rfl
  | cons tx txs ih =>
      intro apart
      simp only [touches_cons, Bool.or_eq_false_iff, decide_eq_false_iff_not] at apart
      rw [clobbers, if_neg apart.1.1, if_neg apart.1.2, ih apart.2]

/-- What is stored over first decides. -/
theorem clobbers_append (o : OutPoint) (second : List Transaction) : ∀ first : List Transaction,
    clobbers o (first ++ second) =
      if touches o first then clobbers o first else clobbers o second := by
  intro first
  induction first with
  | nil => rfl
  | cons tx first ih =>
      rw [List.cons_append, clobbers, clobbers, ih, touches_cons]
      by_cases spent : o ∈ tx.spends
      · simp [spent]
      · by_cases own : o ∈ tx.outpoints
        · simp [spent, own]
        · simp [spent, own]

/-- `U` is `V` without the coins the transactions would store over. -/
structure CoinStore.Lost (V U : CoinStore) (txs : List Transaction) : Prop where
  coins : ∀ o, U.getCoin o = if clobbers o txs then none else V.getCoin o
  leaves : U.leaves = V.leaves

namespace CoinStore.Lost

variable {V U : CoinStore}

theorem refl (V : CoinStore) : V.Lost V [] := ⟨fun _ => rfl, rfl⟩

/-- Nothing is lost where nothing held is stored over. -/
theorem eq_iff {txs : List Transaction} (lost : V.Lost U txs) :
    U = V ↔ ∀ o, clobbers o txs = true → V.getCoin o = none := by
  constructor
  · rintro rfl o hit
    have coin := lost.coins o
    rwa [if_pos hit] at coin
  · intro kept
    refine CoinStore.ext_view (fun o => ?_) fun key => by rw [lost.leaves]
    rw [lost.coins]
    split
    · rename_i hit
      exact (kept o hit).symm
    · rfl

/-- Transactions applied and taken back. -/
theorem of_undone {height : UInt32} {done : List (Transaction × List Coin)}
    (back : RevertibleAll height V done) :
    V.Lost ((V.afterAll height (done.map (·.1))).undoneAll done) (done.map (·.1)) :=
  ⟨getCoin_undoneAll back, leaves_undoneAll back⟩

theorem leaves_undoneAll_congr {W : CoinStore} (same : U.leaves = W.leaves) :
    ∀ (done : List (Transaction × List Coin)),
    (U.undoneAll done).leaves = (W.undoneAll done).leaves := by
  intro done
  induction done with
  | nil => exact same
  | cons d done ih =>
      refine (leaves_undone _ _ _).trans (Eq.trans ?_ (leaves_undone _ _ _).symm)
      exact congrArg (· \ d.1.reveals.toFinset) ih

/-- A loss above transactions, and then these taken back too. -/
theorem below {height : UInt32} {done : List (Transaction × List Coin)} {later : List Transaction}
    (back : RevertibleAll height V done)
    (lost : (V.afterAll height (done.map (·.1))).Lost U later) :
    V.Lost (U.undoneAll done) (done.map (·.1) ++ later) where
  coins := by
    intro o
    rw [getCoin_undoneAll_of U back, clobbers_append, lost.coins]
    cases touched : touches o (done.map (·.1)) with
    | true => simp
    | false =>
        rw [CoinStore.getCoin_afterAll_of_not_touches touched, clobbers_of_not_touches touched]
        simp
  leaves := (leaves_undoneAll_congr lost.leaves done).trans (leaves_undoneAll back)

end CoinStore.Lost

/-! ### A branch connected on top -/

/-- The transactions that connecting blocks one after the other puts into the
coins, up to and with the first block that is refused. -/
def attempts (P : Params) : List Block → CoinStore → List Block → List Transaction
  | _, _, [] => []
  | chain, V, block :: news =>
      let height := nextHeight chain
      if follows P chain block = false then []
      else
        match applyBlockTwoPhase P block height V with
        | (none, _) => (block.attempted P height V).map (·.1)
        | (some _, V) => block.transactions ++ attempts P (block :: chain) V news

namespace Ledger

variable {P : Params} {L : Ledger}

theorem rollback_append (valid : L.Valid P) (legible : L.Legible P) :
    ∀ {first : List Bytes32} (second : List Bytes32), first.length ≤ L.blocks.length →
    L.rollback P (first ++ second) = (L.rollback P first).rollback P second := by
  intro first
  induction first generalizing L with
  | nil => exact fun _ _ => rfl
  | cons blockHash first ih =>
      intro second enough
      cases whole : L.blocks with
      | nil => simp [whole] at enough
      | cons b rest =>
          obtain ⟨L', ran, blocks, tree, valid'⟩ := disconnect_eq valid legible whole
          rw [List.cons_append, rollback, rollback, ran]
          refine ih valid' (legible.congr tree) second ?_
          rw [whole, List.length_cons, List.length_cons] at enough
          rw [blocks]
          omega

/-- What was connected before a branch comes off after it. -/
theorem connectBranch_append : ∀ {news : List Block} (first second : List Bytes32) {L : Ledger},
    L.Valid P → L.Legible P → L.Found P news →
    first.length ≤ L.blocks.length →
    L.connectBranch P (news.map (·.getHash P.sha256)) (first ++ second) =
      match L.connectBranch P (news.map (·.getHash P.sha256)) first with
      | (true, U) => (true, U)
      | (false, U) => (false, U.rollback P second) := by
  intro news
  induction news with
  | nil => exact fun _ _ _ _ _ _ _ => rfl
  | cons b news ih =>
      intro first second L valid legible found enough
      obtain ⟨st, here, rfl, readable⟩ := found b List.mem_cons_self
      have tree := valid.tree_connect here
      have valid' := valid.connect (valid.agrees here) (valid.shape here)
      obtain ⟨ok, L', ran, blocks⟩ := blocks_connect (P := P) L st.block
      rw [ran] at tree valid'
      rw [List.map_cons, connectBranch, connectBranch, here]
      dsimp only
      rw [if_pos readable, if_pos readable, ran]
      cases ok with
      | false =>
          dsimp only
          rw [rollback_append valid' (legible.congr tree) second (by rw [blocks]; exact enough)]
      | true =>
          have lower : (st.block.getHash P.sha256 :: first).length ≤ L'.blocks.length := by
            rw [blocks]
            exact Nat.succ_le_succ enough
          exact ih _ second valid' (legible.congr tree) (found.tail tree) lower

/-- A block that is refused loses what it stored over. -/
theorem connect_refused (valid : L.Valid P) {block : Block} (shape : block.Shaped)
    {L' : Ledger} (refused : L.connect P block = (false, L')) (news : List Block) :
    L'.chain = L.chain ∧ L.coins.Lost L'.coins (attempts P L.blocks L.coins (block :: news)) := by
  have level : nextHeight L.blocks = nextHeight L.chain := by simp [nextHeight]
  rw [connect] at refused
  rw [attempts, level]
  dsimp only at refused ⊢
  split at refused
  · rename_i low
    cases refused
    rw [if_pos low]
    exact ⟨rfl, .refl _⟩
  · rename_i next
    rw [if_neg next]
    rcases applyBlockTwoPhase_eq valid.backed.nullFree shape with ⟨-, ran⟩ | ⟨tried, ran⟩
    · rw [ran] at refused
      cases refused
    · rw [ran] at refused ⊢
      cases refused
      exact ⟨rfl, .of_undone tried.pays.revertibleAll⟩

/-- A block comes off that others were refused on top of. -/
theorem taken_back {L' U : Ledger} {block : Block} {news : List Block}
    {done : List (Transaction × List Coin)} (next : follows P L.blocks block = true)
    (applies : AppliesWith P (nextHeight L.chain) L.coins block done)
    (readable : block.Readable P) {blockHash : Bytes32}
    (same : L' = { L.put P (topBlock P (block :: L.blocks)) with
      chain := ⟨block, done⟩ :: L.chain
      coins := L.coins.afterAll (nextHeight L.chain) block.transactions })
    (chain : U.chain = L'.chain) (lost : L'.coins.Lost U.coins (attempts P L'.blocks L'.coins news)) :
    (U.rollback P [blockHash]).chain = L.chain ∧
      L.coins.Lost (U.rollback P [blockHash]).coins
        (attempts P L.blocks L.coins (block :: news)) := by
  subst same
  have level : nextHeight L.blocks = nextHeight L.chain := by simp [nextHeight]
  rw [rollback, disconnect, chain]
  dsimp only
  rw [if_pos readable]
  refine ⟨rfl, ?_⟩
  rw [attempts, if_neg (by simp [next]), level, applies.apply]
  dsimp only [rollback]
  rw [← applies.map_fst]
  refine .below applies.pays.revertibleAll ?_
  rw [applies.map_fst]
  exact lost

/-- A branch that is refused leaves the chain, and the coins but those stored over. -/
theorem connectBranch_refused : ∀ {news : List Block} {L U : Ledger}, L.Valid P → L.Legible P →
    L.Found P news → L.connectBranch P (news.map (·.getHash P.sha256)) [] = (false, U) →
    U.chain = L.chain ∧ L.coins.Lost U.coins (attempts P L.blocks L.coins news) := by
  intro news
  induction news with
  | nil => exact fun _ _ _ refused => nomatch refused
  | cons b news ih =>
      intro L U valid legible found refused
      obtain ⟨st, here, rfl, readable⟩ := found b List.mem_cons_self
      have shape := valid.shape here
      have tree := valid.tree_connect here
      have valid' := valid.connect (valid.agrees here) shape
      rw [List.map_cons, connectBranch, here] at refused
      dsimp only at refused
      rw [if_pos readable] at refused
      cases ran : L.connect P st.block with
      | mk ok L' =>
          rw [ran] at refused tree valid'
          dsimp only at tree valid'
          cases ok with
          | false =>
              cases refused
              exact connect_refused valid shape ran news
          | true =>
              obtain ⟨next, applies, same⟩ := connect_eq_true valid shape (by rw [ran])
              rw [ran] at same
              have legible' : L'.Legible P := legible.congr tree
              have found' := found.tail tree
              -- The rest of the branch is refused, and then this block is taken back.
              have apart := connectBranch_append [] [st.block.getHash P.sha256] valid' legible' found'
                (Nat.zero_le _)
              rw [List.nil_append] at apart
              dsimp only at refused
              rw [apart] at refused
              cases later : L'.connectBranch P (news.map (·.getHash P.sha256)) [] with
              | mk ok U' =>
                  rw [later] at refused
                  cases ok with
                  | true => cases refused
                  | false =>
                      cases refused
                      obtain ⟨chain, lost⟩ := ih valid' legible' found' later
                      exact taken_back next applies readable same chain lost

/-- A block whose chain goes through the tip is refused: the chain stays, and
the coins but those stored over. -/
theorem accept_refused (valid : L.Valid P) (legible : L.Legible P) {now : UInt64} {block : Block}
    {parent : StoredBlock} (heavier : L.Overtakes P now block parent) {extra : List Block}
    (linked : Linked P L.tree (extra ++ L.blocks))
    (top : topBlock P (extra ++ L.blocks) = parent)
    (tip : (chainTip P (extra ++ L.blocks)).blockHash = block.header.prevBlockHash) {U : Ledger}
    (refused : L.accept P now block = (false, U)) :
    U.chain = L.chain ∧
      L.coins.Lost U.coins (attempts P L.blocks L.coins (extra.reverse ++ [block])) := by
  obtain ⟨valid₁, legible₁, linked₁, -, accepted⟩ :=
    heavier.activates valid legible linked top tip
  obtain ⟨news, below, L₂, split, shared, apart, -, -, -, found, -, still, ran⟩ :=
    activate_eq valid₁ legible₁ linked₁ (List.cons_ne_nil _ _)
  -- What is shared is the whole active chain.
  have both : news = block :: extra ∧ below = L.blocks := by
    obtain ⟨upper, whole⟩ := shared
    rw [blocks_put] at whole
    have same : (block :: extra) ++ upper = news := by
      rw [← whole, ← List.cons_append, ← List.append_assoc] at split
      exact List.append_cancel_right split
    cases upper with
    | nil => exact ⟨by rw [← same, List.append_nil], whole⟩
    | cons b upper =>
        have inNews : b ∈ news := by
          rw [← same]
          simp
        have isOn : L.onChain P (b.getHash P.sha256) = true := by
          rw [onChain, List.any_eq_true, ← whole]
          exact ⟨b, by simp, decide_eq_true rfl⟩
        cases (apart b inNews).symm.trans isOn
  obtain ⟨rfl, rfl⟩ := both
  obtain rfl := still rfl
  rw [accepted, ran] at refused
  obtain ⟨chain, lost⟩ := connectBranch_refused valid₁ legible₁ found refused
  rw [blocks_put, List.reverse_cons] at lost
  exact ⟨chain, lost⟩

end Ledger

/-! ### The node -/

/-- The branch of a block goes on from the tip, and what it gets to apply stores
nothing over an unspent coin. -/
def ChainState.LosesNothing (P : Params) (s : ChainState) (block : Block) : Prop :=
  ∃ chain extra parent, s.activeChain P = some chain ∧
    s.readBlockIndex block.header.prevBlockHash = some parent ∧
    s.blocksDown P parent.nHeight block.header.prevBlockHash = some (extra ++ chain) ∧
    ∀ o, clobbers o (attempts P chain s.mUTXOSet.toCoinStore (extra.reverse ++ [block])) = true →
      s.getCoin o = none

theorem Represents.unchanged_iff {P : Params} {s s' : ChainState} {L U : Ledger}
    (rep : Represents P s L) (rep' : Represents P s' U) :
    s.Unchanged s' ↔ U.tip P = L.tip P ∧ U.coins = L.coins := by
  have coins : s.coins.toCoinStore = L.coins := rep.coins
  constructor
  · intro same
    have tip := same.tip
    rw [ChainState.unchanged_iff tip, rep'.coins, coins] at same
    exact ⟨by rw [← rep.tip, ← rep'.tip, tip], same⟩
  · rintro ⟨tip, same⟩
    rw [ChainState.unchanged_iff (by rw [rep.tip, rep'.tip, tip]), rep'.coins, coins, same]

/-- The walk down from a block's parent lists the parent's chain. -/
theorem Represents.losesNothing_iff {P : Params} {s : ChainState} {L : Ledger}
    (rep : Represents P s L) {block : Block} {below : List Block}
    (linked : Ledger.Linked P L.tree below)
    (tip : (chainTip P below).blockHash = block.header.prevBlockHash) :
    s.LosesNothing P block ↔ ∃ extra, below = extra ++ L.blocks ∧
      ∀ o, clobbers o (attempts P L.blocks L.coins (extra.reverse ++ [block])) = true →
        L.coins.getCoin o = none := by
  obtain ⟨pos, read⟩ := rep.readTop linked
  have height : (BlockData.indexEntry (topBlock P below).block (topBlock P below).height
      (topBlock P below).work pos).nHeight = below.length := height_topBlock P below
  have coin (o : OutPoint) : s.getCoin o = L.coins.getCoin o := by
    rw [← rep.coins, UTXOSet.getCoin_toCoinStore]
    rfl
  unfold ChainState.LosesNothing
  rw [rep.activeChain_eq, rep.coins, ← tip, read]
  simp only [Option.some.injEq, coin]
  constructor
  · rintro ⟨chain, extra, parent, rfl, rfl, walked, kept⟩
    rw [height, rep.blocksDown_eq linked, Option.some.injEq] at walked
    exact ⟨extra, walked, kept⟩
  · rintro ⟨extra, split, kept⟩
    refine ⟨_, extra, _, rfl, rfl, ?_, kept⟩
    rw [height, rep.blocksDown_eq linked, split]

/-- **When a refusal leaves no trace.** In every state that deliveries to a new
node lead to, a block that `AcceptBlock` answers with false leaves the tip, the
coins and the leaves as they were exactly when it does not overtake the tip, so
that it was refused before it was stored, or loses nothing. -/
theorem failed_accept_unchanged_iff {P : Params} (sound : P.SoundGenesis) {s₀ : ChainState}
    (opened : ChainState.initializeState P (.ofDisk .empty) = .ok s₀)
    (deliveries : List (UInt64 × Block)) (now : UInt64) (block : Block)
    (refused : ((s₀.acceptAll P deliveries).acceptBlock P now block).1 = false) :
    (s₀.acceptAll P deliveries).Unchanged
        ((s₀.acceptAll P deliveries).acceptBlock P now block).2 ↔
      ((s₀.acceptAll P deliveries).Overtakes P now block →
        (s₀.acceptAll P deliveries).LosesNothing P block) := by
  obtain ⟨L, rep, moves⟩ := accepted deliveries sound opened
  have start := (represents_initial sound opened).valid
  have legible : L.Legible P := Ledger.Moves.legible start moves
  have went : Matches P ((s₀.acceptAll P deliveries).acceptBlock P now block)
      (L.accept P now block) := rep.acceptBlock_sim
  have onward : Ledger.Moves P (fun _ => True) (fun _ => False) L (L.accept P now block).2 :=
    Ledger.accept_moves now trivial L
  rw [rep.unchanged_iff went.state]
  rw [went.answer] at refused
  generalize s₀.acceptAll P deliveries = s at rep
  cases ran : L.accept P now block with
  | mk ok U =>
      have after := went.state.valid
      rw [ran] at refused onward after
      obtain rfl : ok = false := refused
      by_cases heavier : ∃ parent, L.Overtakes P now block parent
      · obtain ⟨parent, heavier⟩ := heavier
        obtain ⟨below, linked, top, tip⟩ := rep.valid.chain_of_tree _ heavier.2.1 rfl
        rw [rep.overtakes_iff heavier.2.1, imp_iff_right heavier, rep.losesNothing_iff linked tip]
        constructor
        · rintro ⟨sameTip, sameCoins⟩
          -- The tip tells the chain, and the parent's chain goes through it.
          have kept := Ledger.Linked.mono (onward.tree_le rep.valid) rep.valid.linked
          have sameChain : U.blocks = L.blocks := by
            refine Ledger.Linked.eq_of_top ?_ after.linked kept
              (congrArg ChainTip.blockHash sameTip)
            rw [after.tip_nil]
            exact after.genesis
          have through := Ledger.accept_overtakes rep.valid legible heavier linked top tip
            (List.suffix_rfl (l := L.blocks))
          rw [ran, sameChain] at through
          obtain ⟨extra, rfl⟩ := through.mp List.suffix_rfl
          obtain ⟨-, lost⟩ := Ledger.accept_refused rep.valid legible heavier linked top tip ran
          exact ⟨extra, rfl, lost.eq_iff.mp sameCoins⟩
        · rintro ⟨extra, rfl, kept⟩
          obtain ⟨chain, lost⟩ := Ledger.accept_refused rep.valid legible heavier linked top tip ran
          refine ⟨?_, lost.eq_iff.mpr kept⟩
          rw [Ledger.tip, Ledger.blocks, chain]
          rfl
      · have stays : ∀ parent, ¬ L.Overtakes P now block parent := not_exists.mp heavier
        obtain rfl := Ledger.accept_refused_stays stays ran
        refine iff_of_true ⟨rfl, rfl⟩ fun goes => ?_
        cases found : U.tree block.header.prevBlockHash with
        | none =>
            obtain ⟨-, parent, read, -⟩ := goes
            rw [rep.absent found] at read
            cases read
        | some parent => exact absurd ((rep.overtakes_iff found).mp goes) (stays parent)

namespace SmallNetwork

/-- A block on the other branch whose bits are not those the difficulty rule asks for. -/
def wrongTwo : Block := withBits 2 branchTwo

def forkedNode : ChainState := node.acceptAll smallNetwork [(20, blockOne), (20, branchOne)]

end SmallNetwork

open SmallNetwork in
theorem failed_accept_unchanged_iff_wrongTwo :
    forkedNode.Unchanged (forkedNode.acceptBlock smallNetwork 20 wrongTwo).2 ↔
      (forkedNode.Overtakes smallNetwork 20 wrongTwo →
        forkedNode.LosesNothing smallNetwork wrongTwo) :=
  failed_accept_unchanged_iff soundGenesis_smallNetwork node_opened
    [(20, blockOne), (20, branchOne)] 20 wrongTwo (by decide +kernel)

open SmallNetwork in
/-- A heavier branch is refused, and the branch that was active is not active again. -/
theorem tip_lost_by_failed_accept :
    (forkedNode.acceptBlock smallNetwork 20 wrongTwo).1 = false ∧
      forkedNode.mBestChain.blockHash = blockOne.getHash smallNetwork.sha256 ∧
      (forkedNode.acceptBlock smallNetwork 20 wrongTwo).2.mBestChain.blockHash =
        smallNetwork.genesisHash := by
  decide +kernel

end QmaskCore
