import QmaskCore.Ledger.Locator
import QmaskCore.Net.AnyOrder
import QmaskCore.Net.BlockSync

/-!
A download is safe and does not get stuck.

`Along` is the invariant of a node that downloads the chain of another one: where
it stands, what is parked, what the messages on their way are about, that all it
waits for is on its way, and that there is something on its way as long as it is
behind. Every step keeps it (`Along.step`), whichever node moves, whatever the
clock says and however old requests are. So the node is always on part of the
chain of its peer, and when no message is left it has all of it.
-/

namespace QmaskCore

variable {P : Params} {chain : List Connected}

/-! ### The node ahead -/

theorem Ledger.hashAt_eq (L : Ledger) (height : Nat) :
    L.hashAt P height = hashOf P L.chain height := by
  rw [hashAt, hashOf, lowest, List.map_drop]
  rfl

namespace ChainState.On

variable {s : ChainState} {c : Connected} {height : Nat}

theorem mBestChain (on : s.On P chain) : s.mBestChain.height = chain.length := by
  obtain ⟨L, rep, rfl⟩ := on
  exact rep.height

theorem hasBlock (on : s.On P chain) (le : height ≤ chain.length) :
    s.mBlockData.hasBlock (hashOf P chain height) = true := by
  obtain ⟨L, rep, rfl⟩ := on
  obtain ⟨st, stored, -⟩ := Ledger.tree_hashAt rep.valid le
  rw [rep.hasBlock_eq, ← L.hashAt_eq, stored]
  rfl

/-- It serves each block of its chain. -/
theorem getBlock (on : s.On P chain) (route : Route P chain)
    (at' : chain.reverse[height]? = some c) :
    s.getBlock P (hashOf P chain (height + 1)) = some c.block := by
  obtain ⟨L, rep, rfl⟩ := on
  have above := route.above at'
  have stored := (rep.valid.linked.drop (L.chain.length - (height + 1))).top
    rep.valid.genesisHash rep.valid.genesis
  rw [Ledger.blocks, ← List.map_drop] at stored
  change L.tree (hashOf P L.chain (height + 1)) =
    some (topBlock P ((lowest (height + 1) L.chain).map (·.block))) at stored
  rw [above.top] at stored
  obtain ⟨pos, read, record⟩ := rep.stored stored
  rw [ChainState.getBlock, read]
  exact (BlockData.readBlock_of_record record).trans (if_pos above.passes.readable)

/-- It answers the locator of a node on part of its chain with what comes after. -/
theorem getBlockHashesAfterLocator (on : s.On P chain) {heights : List Nat}
    (lists : ListsDown height 0 heights) (le : height ≤ chain.length) (max : Nat) :
    s.getBlockHashesAfterLocator (heights.map (hashOf P chain)) max =
      ((List.range' (height + 1) (chain.length - height)).take max).map (hashOf P chain) := by
  obtain ⟨L, rep, rfl⟩ := on
  have apart : HashesApart L L := fun {_ _ _} here there => by
    rw [Option.some.inj (here.symm.trans there)]
  have same : L.hashAt P = hashOf P L.chain := funext L.hashAt_eq
  have fork := rep.findForkPoint_eq rep.valid apart fun h mem => (lists.within h mem).trans le
  have first : heights.find? (fun h => s.getBlockHashByHeightLocked h = some (L.hashAt P h)) =
      some height := by
    obtain ⟨rest, rfl⟩ := List.head?_eq_some_iff.mp lists.first
    rw [List.find?_cons, decide_eq_true (rep.getBlockHashByHeight_hashAt le)]
  rw [ChainState.getBlockHashesAfterLocator, ← same, fork.trans first]
  dsimp only
  rw [rep.getBlockHashByHeight_hashAt le]
  exact rep.getBlockHashesAfter_hashAt le max

end ChainState.On

/-! ### The node behind -/

theorem ChainState.UpTo.getBlockLocator {s : ChainState} {height : Nat}
    (upTo : s.UpTo P chain height) (le : height ≤ chain.length) : ∃ heights,
      ListsDown height 0 heights ∧ ∀ fuel, 42 ≤ fuel →
        s.getBlockLocator fuel = some (heights.map (hashOf P chain)) := by
  obtain ⟨L, rep, bare⟩ := upTo
  obtain ⟨heights, lists, ends⟩ := rep.getBlockLocator_eq
  have here : L.chain.length = height := by rw [bare.length, length_lowest le]
  rw [here] at lists
  refine ⟨heights, lists, fun fuel enough => ?_⟩
  rw [ends fuel enough]
  refine congrArg some (List.map_congr_left fun h mem => ?_)
  rw [Ledger.hashAt, bare.drop_blocks le, here, hashOf]
  have below := lists.within h mem
  rw [show height - (height - h) = h by omega]

namespace InFlight

theorem mem_of_sublist {t t' : InFlight} (sub : t'.entries.Sublist t.entries) {hash : Bytes32}
    (mem : hash ∈ t') : hash ∈ t := by
  exact AList.mem_keys.mpr ((sub.map Sigma.fst).subset (AList.mem_keys.mp mem))

/-- A request is refused only while others are outstanding. -/
theorem request_cases (timeout : Int) {window : Option Nat} {perPeer : Nat} (hash : Bytes32)
    (peer : NodeId) (now : Int) (t : InFlight) (opens : ∀ n ∈ window, 0 < n) (serves : 0 < perPeer) :
    (∀ x ∈ (request timeout window perPeer hash peer now t).2, x ∈ t ∨
        (request timeout window perPeer hash peer now t).1 = true ∧ x = hash) ∧
      ((request timeout window perPeer hash peer now t).1 = true ∨ ∃ other, other ∈ t) := by
  have kept {x : Bytes32} : x ∈ t.expire timeout now → x ∈ t :=
    mem_of_sublist (expire_sublist timeout now t)
  have first (long : 0 < (t.expire timeout now).entries.length) : ∃ other, other ∈ t := by
    obtain ⟨entry, listed⟩ := List.exists_mem_of_length_pos long
    exact ⟨entry.1, kept (AList.mem_keys.mpr (List.mem_map_of_mem listed))⟩
  rw [request]
  by_cases asked : hash ∈ t.expire timeout now
  · rw [if_pos asked]
    exact ⟨fun x mem => .inl (kept mem), .inr ⟨hash, kept asked⟩⟩
  rw [if_neg asked]
  by_cases full : (!(t.expire timeout now).room window) = true
  · rw [if_pos full]
    refine ⟨fun x mem => .inl (kept mem), .inr (first ?_)⟩
    cases window with
    | none => simp [room] at full
    | some n =>
        have positive := opens n rfl
        simp only [room, Option.all_some, Bool.not_eq_true', decide_eq_false_iff_not] at full
        omega
  rw [if_neg full]
  by_cases many : perPeer ≤ (t.expire timeout now).heldBy peer
  · rw [if_pos many]
    exact ⟨fun x mem => .inl (kept mem),
      .inr (first (serves.trans_le (many.trans List.countP_le_length)))⟩
  rw [if_neg many]
  refine ⟨fun x mem => ?_, .inl rfl⟩
  rcases (AList.mem_insert _).mp mem with rfl | before
  · exact .inr ⟨rfl, rfl⟩
  · exact .inl (kept before)

end InFlight

namespace SyncNode

/-- Of an inventory a node asks for blocks it does not have. It passes over one it
does not have only while there are others it waits for. -/
theorem askFor_spec (s : ChainState) (peer : NodeId) (now : Nat → Int) :
    ∀ (i : Nat) (hashes : List Bytes32) (m : ConnManager),
      (askFor s peer now i hashes m).1.Sublist hashes ∧
      (∀ hash ∈ (askFor s peer now i hashes m).1, s.mBlockData.hasBlock hash = false) ∧
      (∀ hash ∈ (askFor s peer now i hashes m).2.mBlocksInFlight,
        hash ∈ m.mBlocksInFlight ∨ hash ∈ (askFor s peer now i hashes m).1) ∧
      (∀ hash ∈ hashes, s.mBlockData.hasBlock hash = false →
        (∃ other, other ∈ m.mBlocksInFlight) ∨ (askFor s peer now i hashes m).1 ≠ []) ∧
      (askFor s peer now i hashes m).2.nodes = m.nodes := by
  intro i hashes
  induction hashes generalizing i with
  | nil => exact fun m => ⟨List.Sublist.slnil, by simp [askFor], fun _ => .inl, by simp, rfl⟩
  | cons hash hashes ih =>
      intro m
      rw [askFor]
      by_cases has : s.mBlockData.hasBlock hash = true
      · rw [if_pos has]
        obtain ⟨sub, lacks, waits, asks, same⟩ := ih (i + 1) m
        refine ⟨sub.cons hash, lacks, waits, fun other listed lacked => ?_, same⟩
        rcases List.mem_cons.mp listed with rfl | rest
        · rw [has] at lacked
          cases lacked
        · exact asks other rest lacked
      · rw [if_neg has]
        have opens : ∀ n ∈ some blockDownloadWindow, 0 < n := by simp [blockDownloadWindow]
        have serves : 0 < maxBlocksInFlightPerPeer := by decide
        have cases' := InFlight.request_cases blockInFlightTimeoutSec hash peer (now i)
          m.mBlocksInFlight opens serves
        rw [ConnManager.shouldRequestBlock]
        generalize InFlight.request blockInFlightTimeoutSec (some blockDownloadWindow)
          maxBlocksInFlightPerPeer hash peer (now i) m.mBlocksInFlight = out at cases' ⊢
        obtain ⟨answer, t⟩ := out
        obtain ⟨grows, refused⟩ := cases'
        obtain ⟨sub, lacks, waits, asks, same⟩ := ih (i + 1) { m with mBlocksInFlight := t }
        cases answer with
        | false =>
            refine ⟨sub.cons hash, lacks, fun other mem => ?_, fun other listed lacked => ?_, same⟩
            · exact (waits other mem).imp_left fun mem => (grows other mem).resolve_right (by simp)
            · exact .inl (refused.resolve_left (by simp))
        | true =>
            refine ⟨sub.cons_cons hash, ?_, fun other mem => ?_, fun _ _ _ => .inr (by simp), same⟩
            · exact List.forall_mem_cons.mpr ⟨Bool.eq_false_iff.mpr has, lacks⟩
            · rcases waits other mem with before | here
              · rcases grows other before with kept | ⟨-, rfl⟩
                · exact .inl kept
                · exact .inr List.mem_cons_self
              · exact .inr (List.mem_cons_of_mem _ here)

end SyncNode

/-! ### A block of the chain comes -/

namespace BlockIntake.Settled

open OrphanPool

variable {clock : Nat → UInt64} {came : List Block} {height : Nat} {k : BlockIntake} {c : Connected}

/-- All that is parked lies above the gap. -/
theorem above_gap (settled : Settled P chain came height k) {orphan : Bytes32 × Block}
    (mem : orphan ∈ k.orphans.gOrphanBlocks) : ∃ i c, height < i ∧ chain.reverse[i]? = some c ∧
      orphan = (hashOf P chain i, c.block) := by
  obtain ⟨i, c, low, at', listed, rfl⟩ := (settled.parked.mem_iff orphan).mp mem
  refine ⟨i, c, Nat.lt_of_le_of_ne low ?_, at', rfl⟩
  rintro rfl
  exact settled.gap c at' listed

/-- What a node got is found from where it stands and what it parked. -/
theorem of_pool (route : Route P chain) (le : height ≤ chain.length)
    (upTo : k.chainState.UpTo P chain height)
    (order : k.orphans.gOrphanOrder = k.orphans.gOrphanBlocks.map (·.1))
    (nodup : k.orphans.gOrphanBlocks.Nodup)
    (only : ∀ orphan ∈ k.orphans.gOrphanBlocks, ∃ i c, height < i ∧ chain.reverse[i]? = some c ∧
      orphan = (hashOf P chain i, c.block)) : ∃ came, Settled P chain came height k := by
  refine ⟨(chain.reverse.take height).map (·.block) ++ k.orphans.gOrphanBlocks.map (·.2), ?_⟩
  have low {i : Nat} {c : Connected} (high : height ≤ i) (at' : chain.reverse[i]? = some c) :
      c.block ∉ (chain.reverse.take height).map (·.block) := by
    intro mem
    obtain ⟨d, listed, same⟩ := List.mem_map.mp mem
    obtain ⟨j, there⟩ := List.mem_iff_getElem?.mp listed
    rw [List.getElem?_take] at there
    split at there
    · exact block_ne route (by omega) there at' same
    · cases there
  refine ⟨le, upTo, fun i c below at' => ?_, fun c at' mem => ?_, order, nodup, fun orphan => ?_⟩
  · refine List.mem_append_left _ (List.mem_map_of_mem (List.mem_iff_getElem?.mpr ⟨i, ?_⟩))
    rw [List.getElem?_take_of_lt below, at']
  · rcases List.mem_append.mp mem with below | parked
    · exact low le_rfl at' below
    · obtain ⟨orphan, listed, same⟩ := List.mem_map.mp parked
      obtain ⟨i, d, above, there, rfl⟩ := only orphan listed
      exact block_ne route (Nat.ne_of_gt above) there at' same
  · constructor
    · intro mem
      obtain ⟨i, c, above, at', rfl⟩ := only orphan mem
      exact ⟨i, c, above.le, at', List.mem_append_right _ (List.mem_map_of_mem mem), rfl⟩
    · rintro ⟨i, c, above, at', mem, rfl⟩
      obtain ⟨orphan, listed, same⟩ :=
        List.mem_map.mp ((List.mem_append.mp mem).resolve_left (low above at'))
      obtain ⟨j, d, -, there, rfl⟩ := only orphan listed
      obtain rfl : j = i := by
        by_contra apart
        exact block_ne route apart there at' same
      rwa [← Option.some.inj (there.symm.trans at')]

/-- A block above the gap is parked, and the oldest go when there are too many. -/
theorem parks (settled : Settled P chain came height k) (route : Route P chain) {j : Nat}
    (at' : chain.reverse[j]? = some c) (high : height < j) : ∃ came,
      Settled P chain came height
        { k with orphans := k.orphans.parkOrphanBlock P.sha256 (hashOf P chain j) c.block } := by
  rw [parkOrphanBlock_eq settled.parked.order]
  split
  · exact ⟨came, settled⟩
  · rename_i apart
    have sub := k.orphans.gOrphanBlocks.drop_sublist
      (k.orphans.gOrphanBlocks.length + 1 - maxOrphanBlocks)
    refine of_pool route settled.le settled.upTo (by simp) ?_ fun orphan mem => ?_
    · refine List.nodup_append.mpr
        ⟨settled.parked.nodup.sublist sub, List.nodup_singleton _, fun a before b here same => ?_⟩
      rw [same, List.mem_singleton.mp here] at before
      exact apart (List.mem_map_of_mem (f := fun orphan => (orphan.1, orphan.2.getHash P.sha256))
        (sub.subset before))
    · rcases List.mem_append.mp mem with before | here
      · exact settled.above_gap (sub.subset before)
      · exact ⟨j, c, high, at', List.mem_singleton.mp here⟩

/-- The step lemma of a node that is sent a block of the chain: it goes up when the
block is the next one, and asks the peer unless it has the block. -/
theorem onBlock_along (settled : Settled P chain came height k) (route : Route P chain)
    (due : ∀ n, ∀ c ∈ chain, Due (clock n) c.block) {j : Nat} (at' : chain.reverse[j]? = some c) :
    ∃ top came, height ≤ top ∧ Settled P chain came top (k.onBlock P clock c.block).1 ∧
      (k.onBlock P clock c.block).2 = decide (height ≤ j) ∧
      (j < height → top = height ∧ (k.onBlock P clock c.block).1 = k) ∧
      (j = height → height < top ∧ (k.onBlock P clock c.block).1.orphans.gOrphanBlocks.Sublist
        k.orphans.gOrphanBlocks) := by
  rcases Nat.lt_trichotomy j height with low | rfl | high
  · rw [onBlock_below settled.upTo route settled.le at' low]
    exact ⟨height, came, le_rfl, settled, by simp [low], fun _ => ⟨rfl, rfl⟩, by omega⟩
  · obtain ⟨top, k', up, next, called, fewer⟩ := settled.onBlock_next route due at'
    rw [called]
    exact ⟨top, _, up.le, next, by simp, by omega, fun _ => ⟨up, fewer⟩⟩
  · rw [onBlock_above settled.upTo route settled.le at' high]
    obtain ⟨came, parked⟩ := settled.parks route at' high
    exact ⟨height, came, le_rfl, parked, by simp [high.le], by omega, by omega⟩

end BlockIntake.Settled

/-! ### Messages on their way -/

namespace SyncMessage

/-- The hash of a block that is sent. -/
def blocks (P : Params) : SyncMessage → List Bytes32
  | .block sent => [sent.getHash P.sha256]
  | _ => []

/-- The hashes of the blocks that are asked for. -/
def items : SyncMessage → List Bytes32
  | .getData hashes => hashes
  | _ => []

end SyncMessage

/-- A node asks in one message, if it asks at all. -/
theorem SyncMessage.items_question (asked : List Bytes32) :
    (if asked.isEmpty then [] else [SyncMessage.getData asked]).flatMap (·.items) = asked := by
  cases asked with
  | nil => rfl
  | cons hash asked => simp [SyncMessage.items]

/-- The blocks that will come to `a`, in the order they come in: those on their
way, then those it asked for. -/
def BlockSync.coming (P : Params) (sys : BlockSync) : List Bytes32 :=
  sys.toA.flatMap (·.blocks P) ++ sys.toB.flatMap (·.items)

/-- The hash of a block of a chain above a height. -/
def AboveAt (P : Params) (chain : List Connected) (height : Nat) (hash : Bytes32) : Prop :=
  ∃ i, height < i ∧ i ≤ chain.length ∧ hash = hashOf P chain i

/-- What comes to a node that has the chain up to a height: inventories that start
no higher, and blocks of the chain. -/
inductive ToA (P : Params) (chain : List Connected) (height : Nat) : SyncMessage → Prop
  | inv {k m : Nat} (low : k ≤ height) (within : k + m ≤ chain.length) (few : m ≤ maxGetDataSize) :
      ToA P chain height (.inv ((List.range' (k + 1) m).map (hashOf P chain)))
  | block {j : Nat} {c : Connected} (at' : chain.reverse[j]? = some c) :
      ToA P chain height (.block c.block)

/-- What it sent: locators from where it stood, and questions for blocks of the
chain. The blocks are those it relays. -/
inductive ToB (P : Params) (chain : List Connected) (height : Nat) : SyncMessage → Prop
  | getBlocks {k : Nat} {heights : List Nat} (low : k ≤ height) (lists : ListsDown k 0 heights) :
      ToB P chain height (.getBlocks (heights.map (hashOf P chain)))
  | getData {hashes : List Bytes32} (theirs : ∀ hash ∈ hashes, AboveAt P chain 0 hash)
      (few : hashes.length ≤ maxGetDataSize) : ToB P chain height (.getData hashes)
  | block {j : Nat} {c : Connected} (at' : chain.reverse[j]? = some c) :
      ToB P chain height (.block c.block)

theorem ToA.mono {height top : Nat} {msg : SyncMessage} (fine : ToA P chain height msg)
    (le : height ≤ top) : ToA P chain top msg := by
  cases fine with
  | inv low within few => exact .inv (low.trans le) within few
  | block at' => exact .block at'

theorem ToB.mono {height top : Nat} {msg : SyncMessage} (fine : ToB P chain height msg)
    (le : height ≤ top) : ToB P chain top msg := by
  cases fine with
  | getBlocks low lists => exact .getBlocks (low.trans le) lists
  | getData theirs few => exact .getData theirs few
  | block at' => exact .block at'

/-- What a node waits for is above where it stands, or among some blocks. -/
def Waits (P : Params) (chain : List Connected) (height : Nat) (t : InFlight)
    (among : List Bytes32) : Prop :=
  ∀ hash ∈ t, AboveAt P chain height hash ∨ hash ∈ among

/-- A node that is behind has something on its way that takes it further: a block
above it, or its locator, or the answer to that. Of what it waits for only blocks
above it come after the answer. -/
inductive Pending (P : Params) (chain : List Connected) (height : Nat) (t : InFlight)
    (toA toB : List SyncMessage) : Prop
  | done (all : height = chain.length)
  | block {hash : Bytes32} (above : AboveAt P chain height hash)
      (mem : hash ∈ toA.flatMap (·.blocks P) ++ toB.flatMap (·.items))
  | getBlocks {heights : List Nat} (front behind : List SyncMessage)
      (sent : toB = front ++ .getBlocks (heights.map (hashOf P chain)) :: behind)
      (lists : ListsDown height 0 heights)
      (waits : Waits P chain height t (toA.flatMap (·.blocks P) ++ front.flatMap (·.items)))
  | inv {m : Nat} (front behind : List SyncMessage) (some : 0 < m)
      (sent : toA =
        front ++ .inv ((List.range' (height + 1) m).map (hashOf P chain)) :: behind)
      (waits : Waits P chain height t (front.flatMap (·.blocks P)))

namespace Pending

variable {height : Nat} {t t' : InFlight} {toA toB : List SyncMessage}

/-- More messages do no harm, nor does waiting for more blocks above. -/
theorem append (pending : Pending P chain height t toA toB)
    (grows : ∀ hash ∈ t', hash ∈ t ∨ AboveAt P chain height hash) (moreA moreB : List SyncMessage) :
    Pending P chain height t' (toA ++ moreA) (toB ++ moreB) := by
  have still {among among' : List Bytes32} (waits : Waits P chain height t among)
      (sub : ∀ hash ∈ among, hash ∈ among') : Waits P chain height t' among' := by
    intro hash mem
    rcases grows hash mem with before | above
    · exact (waits hash before).imp_right (sub hash)
    · exact .inl above
  cases pending with
  | done all => exact .done all
  | block above mem =>
      refine .block above ?_
      rw [List.flatMap_append, List.flatMap_append]
      rcases List.mem_append.mp mem with here | there
      · exact List.mem_append_left _ (List.mem_append_left _ here)
      · exact List.mem_append_right _ (List.mem_append_left _ there)
  | @getBlocks _ front behind sent lists waits =>
      refine .getBlocks front (behind ++ moreB) ?_ lists (still waits ?_)
      · rw [sent, List.append_assoc, List.cons_append]
      · intro hash mem
        rw [List.flatMap_append]
        exact (List.mem_append.mp mem).elim
          (fun here => List.mem_append_left _ (List.mem_append_left _ here))
          (List.mem_append_right _)
  | @inv _ front behind some sent waits =>
      refine .inv front (behind ++ moreA) some ?_ (still waits fun _ => id)
      rw [sent, List.append_assoc, List.cons_append]

/-- An inventory is answered by a question for what is above and not waited for. -/
theorem told {hashes asked : List Bytes32} {asks : List SyncMessage}
    (pending : Pending P chain height t (.inv hashes :: toA) toB)
    (grows : ∀ hash ∈ t', hash ∈ t ∨ AboveAt P chain height hash)
    (question : asks.flatMap (·.items) = asked)
    (above : ∀ hash ∈ asked, AboveAt P chain height hash)
    (coming : ∀ hash ∈ t, hash ∈ toA.flatMap (·.blocks P) ++ toB.flatMap (·.items))
    (next : hashOf P chain (height + 1) ∈ hashes → (∃ other, other ∈ t) ∨ asked ≠ []) :
    Pending P chain height t' toA (toB ++ asks) := by
  have quiet : (SyncMessage.inv hashes :: toA).flatMap (·.blocks P) = toA.flatMap (·.blocks P) := rfl
  have later {hash : Bytes32} (mem : hash ∈ toA.flatMap (·.blocks P) ++ toB.flatMap (·.items)) :
      hash ∈ toA.flatMap (·.blocks P) ++ (toB ++ asks).flatMap (·.items) := by
    rw [List.flatMap_append, ← List.append_assoc]
    exact List.mem_append_left _ mem
  cases pending with
  | done all => exact .done all
  | block high mem => exact .block high (later (quiet ▸ mem))
  | getBlocks front behind sent lists waits =>
      have pending : Pending P chain height t toA toB :=
        .getBlocks front behind sent lists (quiet ▸ waits)
      simpa using pending.append grows [] asks
  | @inv m front behind some' sent waits =>
      rcases front with - | ⟨first, front⟩
      · have first : hashOf P chain (height + 1) ∈ hashes := by
          rw [SyncMessage.inv.inj (List.cons.inj sent).1]
          exact List.mem_map_of_mem (List.mem_range'_1.mpr ⟨le_rfl, by omega⟩)
        rcases next first with ⟨other, waited⟩ | some'
        · have high := (waits other waited).resolve_right (by simp)
          exact .block high (later (coming other waited))
        · obtain ⟨hash, mem⟩ := List.exists_mem_of_ne_nil asked some'
          refine .block (above hash mem) ?_
          rw [List.flatMap_append, question]
          exact List.mem_append_right _ (List.mem_append_right _ mem)
      · obtain ⟨rfl, rfl⟩ := List.cons.inj sent
        have pending : Pending P chain height t
            (front ++ .inv ((List.range' (height + 1) m).map (hashOf P chain)) :: behind) toB :=
          .inv front behind some' rfl waits
        simpa using pending.append grows [] asks

/-- What is behind a block on the link, other than it. -/
theorem behind_block {block : Block} {rest : List Bytes32} {x : Bytes32}
    (apart : x ≠ block.getHash P.sha256)
    (mem : x ∈ (SyncMessage.block block :: toA).flatMap (·.blocks P) ++ rest) :
    x ∈ toA.flatMap (·.blocks P) ++ rest := by
  rw [List.flatMap_cons, SyncMessage.blocks, List.append_assoc] at mem
  exact (List.mem_append.mp mem).resolve_left fun here => apart (List.mem_singleton.mp here)

/-- A block that is not above brings nothing on. -/
theorem taken {block : Block} (pending : Pending P chain height t (.block block :: toA) toB)
    (below : ¬ AboveAt P chain height (block.getHash P.sha256))
    (fewer : ∀ x ∈ t', x ≠ block.getHash P.sha256 ∧ x ∈ t) : Pending P chain height t' toA toB := by
  cases pending with
  | done all => exact .done all
  | block above mem => exact .block above (behind_block (fun same => below (same ▸ above)) mem)
  | getBlocks front behind sent lists waits =>
      exact .getBlocks front behind sent lists fun x mem =>
        (waits x (fewer x mem).2).imp_right (behind_block (fewer x mem).1)
  | @inv _ front behind some' sent waits =>
      rcases front with - | ⟨first, front⟩
      · cases (List.cons.inj sent).1
      · obtain ⟨rfl, rfl⟩ := List.cons.inj sent
        refine .inv front behind some' rfl fun x mem =>
          (waits x (fewer x mem).2).imp_right fun among => ?_
        rw [← List.append_nil (front.flatMap _)]
        exact behind_block (fewer x mem).1 ((List.append_nil _).symm ▸ among)

end Pending

/-- A node downloads a chain. -/
structure Along (P : Params) (chain : List Connected) (start : BlockSync) (height : Nat)
    (sys : BlockSync) : Prop where
  behind : ∃ came, BlockIntake.Settled P chain came height sys.a.intake
  ahead : sys.b.intake = start.b.intake
  toA : ∀ msg ∈ sys.toA, ToA P chain height msg
  toB : ∀ msg ∈ sys.toB, ToB P chain height msg
  waits : ∀ hash ∈ sys.a.connManager.mBlocksInFlight, hash ∈ sys.coming P
  pending : Pending P chain height sys.a.connManager.mBlocksInFlight sys.toA sys.toB
  nodes : sys.a.connManager.nodes = start.a.connManager.nodes ∧
    sys.b.connManager.nodes = start.b.connManager.nodes
  heights : sys.a.bestHeight = start.a.bestHeight ∧ sys.b.bestHeight = start.b.bestHeight

namespace SyncNode

variable {clock : Nat → UInt64} {height : Nat} {k : SyncNode}

/-! ### What the nodes answer -/

/-- The node ahead lists the blocks above the height a locator is from. -/
theorem handleGetBlocks_ahead (on : k.intake.chainState.On P chain) {heights : List Nat}
    (lists : ListsDown height 0 heights) (le : height ≤ chain.length) :
    k.handleGetBlocks (heights.map (hashOf P chain)) = (k, if height = chain.length then [] else
      [.inv ((List.range' (height + 1) (min maxGetDataSize (chain.length - height))).map
        (hashOf P chain))]) := by
  have few := lists.few
  have some' : heights.length ≠ 0 := by
    obtain ⟨rest, rfl⟩ := List.head?_eq_some_iff.mp lists.first
    simp
  have part (n max : Nat) : (List.range' (height + 1) n).take max =
      List.range' (height + 1) (min max n) := by
    rcases le_total n max with fits | long
    · rw [List.take_range'_of_length_le fits, min_eq_right fits]
    · rw [List.take_range'_of_length_ge long, min_eq_left long]
  rw [handleGetBlocks, List.length_map, if_neg (by omega), on.getBlockHashesAfterLocator lists le,
    part]
  dsimp only
  by_cases all : height = chain.length
  · rw [if_pos all, all, Nat.sub_self, Nat.min_zero]
    rfl
  · rw [if_neg all, if_neg]
    rw [List.isEmpty_iff, List.map_eq_nil_iff, List.range'_eq_nil_iff]
    have room : 0 < maxGetDataSize := by decide
    omega

/-- It sends what it is asked for. -/
theorem handleGetData_ahead (height : Nat) (on : k.intake.chainState.On P chain)
    (route : Route P chain) {hashes : List Bytes32} (theirs : ∀ hash ∈ hashes, AboveAt P chain 0 hash)
    (few : hashes.length ≤ maxGetDataSize) : ∃ out, k.handleGetData P hashes = (k, out) ∧
      (∀ msg ∈ out, ToA P chain height msg) ∧ out.flatMap (·.blocks P) = hashes ∧
      out.length = hashes.length ∧ ∀ msg ∈ out, ∃ b, msg = .block b := by
  refine ⟨_, if_neg (by omega), ?_⟩
  induction hashes with
  | nil => simp
  | cons hash hashes ih =>
      obtain ⟨here, rest⟩ := List.forall_mem_cons.mp theirs
      obtain ⟨fine, same, long, blocks⟩ := ih rest (Nat.le_of_succ_le few)
      obtain ⟨i, above, within, rfl⟩ := here
      obtain ⟨j, rfl⟩ := Nat.exists_eq_add_of_lt above
      rw [Nat.zero_add] at within ⊢
      obtain ⟨c, at'⟩ : ∃ c, chain.reverse[j]? = some c :=
        ⟨_, List.getElem?_eq_getElem (by rw [List.length_reverse]; exact within)⟩
      rw [List.filterMap_cons, on.getBlock route at', List.map_cons]
      refine ⟨List.forall_mem_cons.mpr ⟨.block at', fine⟩, ?_, ?_,
        List.forall_mem_cons.mpr ⟨⟨c.block, rfl⟩, blocks⟩⟩
      · rw [List.flatMap_cons, same, SyncMessage.blocks, (route.above at').hash]
        rfl
      · rw [List.length_cons, long, List.length_cons]

/-- It has every block of its chain. -/
theorem handleBlock_ahead (on : k.intake.chainState.On P chain) (route : Route P chain) {j : Nat}
    {c : Connected} (at' : chain.reverse[j]? = some c) (world : SyncWorld) :
    k.handleBlock P clock world c.block =
      ({ k with connManager := k.connManager.clearInFlight (c.block.getHash P.sha256) }, []) := by
  have known : k.intake.chainState.mBlockData.hasBlock (c.block.getHash P.sha256) = true := by
    rw [(route.above at').hash]
    exact on.hasBlock (OrphanPool.Parked.lt_of_at at')
  rw [handleBlock, BlockIntake.onBlock, if_pos known]
  dsimp only
  rw [List.drop_length]
  rfl

/-- A node behind asks with a locator from where it stands. -/
theorem requestBlocksFrom_behind (upTo : k.intake.chainState.UpTo P chain height)
    (le : height ≤ chain.length) : ∃ heights, ListsDown height 0 heights ∧
      k.requestBlocksFrom = [.getBlocks (heights.map (hashOf P chain))] := by
  obtain ⟨heights, lists, ends⟩ := upTo.getBlockLocator le
  refine ⟨heights, lists, ?_⟩
  rw [requestBlocksFrom, ends locatorTurns (by decide)]
  obtain ⟨rest, rfl⟩ := List.head?_eq_some_iff.mp lists.first
  rfl

/-- What a node does with the block of the chain at a place: where it stands then,
what it relays and what it asks. -/
structure Takes (P : Params) (chain : List Connected) (j height top : Nat) (k k' : SyncNode)
    (relays asks : List SyncMessage) : Prop where
  behind : ∃ came, BlockIntake.Settled P chain came top k'.intake
  le : height ≤ top
  known : j < height → top = height ∧ relays = [] ∧ asks = [] ∧ k'.intake = k.intake
  next : j = height → height < top ∧
    k'.intake.orphans.gOrphanBlocks.Sublist k.intake.orphans.gOrphanBlocks
  asks : height ≤ j → ∃ heights, ListsDown top 0 heights ∧
    asks = [.getBlocks (heights.map (hashOf P chain))]
  few : relays.length ≤ k.intake.orphans.gOrphanBlocks.length + 1
  theirs : ∀ msg ∈ relays,
    ∃ (i : Nat) (d : Connected), chain.reverse[i]? = some d ∧ msg = .block d.block
  connManager : k'.connManager = k.connManager.clearInFlight (hashOf P chain (j + 1))
  bestHeight : k'.bestHeight = k.bestHeight

theorem handleBlock_behind {came : List Block}
    (settled : BlockIntake.Settled P chain came height k.intake) (route : Route P chain)
    (due : ∀ n, ∀ c ∈ chain, Due (clock n) c.block) {j : Nat} {c : Connected}
    (at' : chain.reverse[j]? = some c) (world : SyncWorld) : ∃ k' relays asks top,
      k.handleBlock P clock world c.block = (k', relays ++ asks) ∧
        Takes P chain j height top k k' relays asks := by
  obtain ⟨top, came', le, settled', asks, known, next⟩ := settled.onBlock_along route due at'
  obtain ⟨more, relayed, few, theirs⟩ := k.intake.onBlock_relayed P clock c.block
  rw [handleBlock, (route.above at').hash]
  generalize k.intake.onBlock P clock c.block = out at settled' asks known next relayed ⊢
  obtain ⟨intake, asked⟩ := out
  dsimp only at settled' asks known next relayed ⊢
  rw [relayed, List.drop_left]
  refine ⟨_, _, _, top, rfl, ⟨came', settled'⟩, le, fun low => ?_, next, fun high => ?_,
    (List.length_map _).trans_le ((List.length_filter_le _ _).trans ?_), fun msg mem => ?_, rfl, rfl⟩
  · obtain ⟨here, rfl⟩ := known low
    obtain rfl : more = [] := List.append_cancel_left (relayed.symm.trans (List.append_nil _).symm)
    rw [asks, decide_eq_false (not_le.mpr low)]
    exact ⟨here, rfl, rfl, rfl⟩
  · rw [asks, decide_eq_true high]
    exact requestBlocksFrom_behind settled'.upTo settled'.le
  · rwa [List.length_zipIdx]
  · obtain ⟨⟨block, i⟩, listed, rfl⟩ := List.mem_map.mp mem
    have listed := List.fst_mem_of_mem_zipIdx (List.mem_of_mem_filter listed)
    rcases theirs block listed with rfl | parked
    · exact ⟨j, c, at', rfl⟩
    · obtain ⟨orphan, there, rfl⟩ := List.mem_map.mp parked
      obtain ⟨i, d, -, above, rfl⟩ := settled.above_gap there
      exact ⟨i, d, above, rfl⟩

end SyncNode

/-! ### A step -/

namespace Along

variable {clock : Nat → UInt64} {start sys : BlockSync} {height : Nat} {a b : SyncNode}
  {toA toB out : List SyncMessage} {msg : SyncMessage}

theorem height_eq (along : Along P chain start height sys) :
    sys.a.intake.chainState.mBestChain.height = height := by
  obtain ⟨came, settled⟩ := along.behind
  exact settled.upTo.mBestChain settled.le

/-- An answer is on its way in the place of the question. -/
theorem coming_served (a b b' : SyncNode) (sends : out.flatMap (·.blocks P) = msg.items) :
    (BlockSync.mk a b' (toA ++ out) toB).coming P = (BlockSync.mk a b toA (msg :: toB)).coming P := by
  rw [BlockSync.coming, BlockSync.coming, List.flatMap_append, sends, List.flatMap_cons,
    List.append_assoc]

/-- The node ahead takes a message and answers it. -/
theorem served (along : Along P chain start height ⟨a, b, toA, msg :: toB⟩) {b' : SyncNode}
    (intake : b'.intake = b.intake) (nodes : b'.connManager.nodes = b.connManager.nodes)
    (best : b'.bestHeight = b.bestHeight) (fine : ∀ m ∈ out, ToA P chain height m)
    (sends : out.flatMap (·.blocks P) = msg.items)
    (answers : ∀ heights, ListsDown height 0 heights →
      msg = .getBlocks (heights.map (hashOf P chain)) → height ≠ chain.length →
      ∃ m, 0 < m ∧ out = [.inv ((List.range' (height + 1) m).map (hashOf P chain))]) :
    Along P chain start height ⟨a, b', toA ++ out, toB⟩ := by
  have coming : (toA ++ out).flatMap (·.blocks P) ++ toB.flatMap (·.items) =
      toA.flatMap (·.blocks P) ++ (msg :: toB).flatMap (·.items) :=
    coming_served a b b' sends
  refine ⟨along.behind, intake.trans along.ahead, fun m mem => ?_,
    fun m mem => along.toB m (List.mem_cons_of_mem _ mem), fun hash mem => ?_, ?_,
    ⟨along.nodes.1, nodes.trans along.nodes.2⟩, along.heights.1, best.trans along.heights.2⟩
  · exact (List.mem_append.mp mem).elim (along.toA m) (fine m)
  · rw [BlockSync.coming, coming]
    exact along.waits hash mem
  · cases along.pending with
    | done all => exact .done all
    | block above mem => exact .block above (coming ▸ mem)
    | @getBlocks _ front behind sent lists waits =>
        rcases front with - | ⟨first, front⟩
        · obtain ⟨rfl, rfl⟩ := List.cons.inj sent
          by_cases all : height = chain.length
          · exact .done all
          · obtain ⟨m, some', rfl⟩ := answers _ lists rfl all
            refine .inv toA [] some' rfl ?_
            simpa using waits
        · obtain ⟨rfl, rfl⟩ := List.cons.inj sent
          refine .getBlocks front behind rfl lists ?_
          rwa [List.flatMap_append, sends, List.append_assoc, ← List.flatMap_cons]
    | @inv _ front behind some' sent waits =>
        refine .inv front (behind ++ out) some' ?_ waits
        dsimp only at sent ⊢
        rw [sent, List.append_assoc, List.cons_append]

/-- The node behind takes an inventory. -/
theorem told (along : Along P chain start height ⟨a, b, msg :: toA, toB⟩) (route : Route P chain)
    {k m : Nat} (same : msg = .inv ((List.range' (k + 1) m).map (hashOf P chain)))
    (within : k + m ≤ chain.length) (few : m ≤ maxGetDataSize) (clock : Nat → UInt64)
    (world : SyncWorld) :
    Along P chain start height ⟨(a.receive P clock world msg).1, b, toA,
      toB ++ (a.receive P clock world msg).2⟩ := by
  subst same
  obtain ⟨came, settled⟩ := along.behind
  generalize listed : (List.range' (k + 1) m).map (hashOf P chain) = hashes at along ⊢
  have length : hashes.length = m := by rw [← listed, List.length_map, List.length_range']
  have fits : ¬ maxInvSize < hashes.length := by
    rw [length, maxInvSize]
    have thousand : maxGetDataSize = 1000 := rfl
    omega
  have quiet : (SyncMessage.inv hashes :: toA).flatMap (·.blocks P) = toA.flatMap (·.blocks P) := rfl
  have spec := SyncNode.askFor_spec a.intake.chainState a.peer world.now 0 hashes a.connManager
  rw [SyncNode.receive, SyncNode.handleInv, if_neg fits]
  generalize SyncNode.askFor a.intake.chainState a.peer world.now 0 hashes a.connManager = out
    at spec ⊢
  obtain ⟨asked, connManager⟩ := out
  obtain ⟨sub, lacks, waits, asks, nodes⟩ := spec
  dsimp only at sub lacks waits asks nodes ⊢
  have sent := SyncMessage.items_question asked
  have above : ∀ hash ∈ asked, AboveAt P chain height hash := by
    intro hash mem
    have among := sub.subset mem
    rw [← listed] at among
    obtain ⟨i, range, rfl⟩ := List.mem_map.mp among
    have bounds := List.mem_range'_1.mp range
    have lacked := lacks _ mem
    refine ⟨i, not_le.mp fun below => ?_, by omega, rfl⟩
    rw [(settled.upTo.hasBlock_hashOf route settled.le (by omega)).mpr below] at lacked
    cases lacked
  have grows : ∀ hash ∈ connManager.mBlocksInFlight,
      hash ∈ a.connManager.mBlocksInFlight ∨ AboveAt P chain height hash :=
    fun hash mem => (waits hash mem).imp_right (above hash)
  have coming : (BlockSync.mk { a with connManager } b toA
      (toB ++ if asked.isEmpty then [] else [SyncMessage.getData asked])).coming P =
      (BlockSync.mk a b (.inv hashes :: toA) toB).coming P ++ asked := by
    rw [BlockSync.coming, BlockSync.coming, List.flatMap_append, sent, quiet, List.append_assoc]
  refine ⟨⟨came, settled⟩, along.ahead, fun m mem => along.toA m (List.mem_cons_of_mem _ mem),
    fun msg mem => ?_, fun hash mem => ?_, ?_, ⟨nodes.trans along.nodes.1, along.nodes.2⟩,
    along.heights⟩
  · rcases List.mem_append.mp mem with before | new
    · exact along.toB msg before
    · split at new
      · cases new
      · rw [List.mem_singleton.mp new]
        refine .getData (fun hash mem => ?_) (by rw [← length] at few; exact sub.length_le.trans few)
        obtain ⟨i, high, within, same⟩ := above hash mem
        exact ⟨i, Nat.zero_lt_of_lt high, within, same⟩
  · rw [coming, List.mem_append]
    exact (waits hash mem).imp_left (along.waits hash)
  · by_cases all : height = chain.length
    · exact .done all
    have next : height + 1 ≤ chain.length := Nat.lt_of_le_of_ne settled.le all
    have lacked : a.intake.chainState.mBlockData.hasBlock (hashOf P chain (height + 1)) = false := by
      rw [Bool.eq_false_iff]
      exact mt (settled.upTo.hasBlock_hashOf route settled.le next).mp (by omega)
    exact along.pending.told grows sent above along.waits fun first => asks _ first lacked

/-- The node behind takes a block. -/
theorem taken {j : Nat} {c : Connected}
    (along : Along P chain start height ⟨a, b, .block c.block :: toA, toB⟩) (route : Route P chain)
    (due : ∀ n, ∀ c ∈ chain, Due (clock n) c.block) (at' : chain.reverse[j]? = some c)
    (world : SyncWorld) : ∃ top, height ≤ top ∧
      Along P chain start top ⟨(a.receive P clock world (.block c.block)).1, b, toA,
        toB ++ (a.receive P clock world (.block c.block)).2⟩ := by
  obtain ⟨came, settled⟩ := along.behind
  obtain ⟨a', relays, asks, top, called, takes⟩ :=
    SyncNode.handleBlock_behind settled route due at' world
  have hash := (route.above at').hash
  have inside := OrphanPool.Parked.lt_of_at at'
  rw [SyncNode.receive, called]
  dsimp only at takes ⊢
  -- The block is no longer waited for, and no longer on its way.
  have fewer : ∀ x ∈ a'.connManager.mBlocksInFlight,
      x ≠ c.block.getHash P.sha256 ∧ x ∈ a.connManager.mBlocksInFlight := by
    intro x mem
    rw [takes.connManager] at mem
    rw [hash]
    exact AList.mem_erase.mp mem
  have quiet : relays.flatMap (·.items) = [] := by
    rw [List.flatMap_eq_nil_iff]
    intro msg mem
    obtain ⟨i, d, -, rfl⟩ := takes.theirs msg mem
    rfl
  have waits {x : Bytes32} (mem : x ∈ a'.connManager.mBlocksInFlight) :
      x ∈ toA.flatMap (·.blocks P) ++ toB.flatMap (·.items) :=
    Pending.behind_block (fewer x mem).1 (along.waits x (fewer x mem).2)
  refine ⟨top, takes.le, takes.behind, along.ahead,
    fun msg mem => (along.toA msg (List.mem_cons_of_mem _ mem)).mono takes.le, fun msg mem => ?_,
    fun x mem => ?_, ?_, ⟨by rw [takes.connManager]; exact along.nodes.1, along.nodes.2⟩,
    ⟨takes.bestHeight.trans along.heights.1, along.heights.2⟩⟩
  · rcases List.mem_append.mp mem with before | new
    · exact (along.toB msg before).mono takes.le
    rcases List.mem_append.mp new with relayed | asked
    · obtain ⟨i, d, above, rfl⟩ := takes.theirs msg relayed
      exact .block above
    · rcases Nat.lt_or_ge j height with low | high
      · rw [(takes.known low).2.2.1] at asked
        cases asked
      · obtain ⟨heights, lists, rfl⟩ := takes.asks high
        rw [List.mem_singleton.mp asked]
        exact .getBlocks le_rfl lists
  · rw [BlockSync.coming, List.flatMap_append, ← List.append_assoc]
    exact List.mem_append_left _ (waits mem)
  · rcases Nat.lt_or_ge j height with low | high
    · obtain ⟨rfl, rfl, rfl, -⟩ := takes.known low
      have below : ¬ AboveAt P chain top (c.block.getHash P.sha256) := by
        rintro ⟨i, high, within, same⟩
        have equal := route.apart (Nat.succ_le_of_lt inside) within (hash.symm.trans same)
        omega
      simpa using along.pending.taken below fewer
    · obtain ⟨heights, lists, rfl⟩ := takes.asks high
      refine .getBlocks (toB ++ relays) [] (List.append_assoc _ _ _).symm lists
        fun x mem => .inr ?_
      rw [List.flatMap_append, quiet, List.append_nil]
      exact waits mem

/-- The step lemma: whoever moves, the download goes on. -/
theorem step (along : Along P chain start height sys) (route : Route P chain)
    (due : ∀ n, ∀ c ∈ chain, Due (clock n) c.block) (on : start.b.intake.chainState.On P chain)
    (low : start.b.bestHeight ≤ chain.length) (event : SyncEvent) :
    ∃ top, height ≤ top ∧ Along P chain start top (sys.step P clock event) := by
  obtain ⟨a, b, toA, toB⟩ := sys
  have on' : b.intake.chainState.On P chain := along.ahead ▸ on
  obtain ⟨came, settled⟩ := along.behind
  cases event with
  | atA world =>
      rcases toA with - | ⟨msg, toA⟩
      · exact ⟨height, le_rfl, along⟩
      · cases along.toA msg List.mem_cons_self with
        | inv low within few =>
            exact ⟨height, le_rfl, along.told route rfl within few clock world⟩
        | block at' => exact along.taken route due at' world
  | atB world =>
      rcases toB with - | ⟨msg, toB⟩
      · exact ⟨height, le_rfl, along⟩
      · refine ⟨height, le_rfl, ?_⟩
        cases along.toB msg List.mem_cons_self with
        | @getBlocks k heights low lists =>
            have le := low.trans settled.le
            have answer := SyncNode.handleGetBlocks_ahead on' lists le
            rw [BlockSync.step]
            dsimp only [SyncNode.receive]
            rw [answer]
            refine along.served rfl rfl rfl (fun msg mem => ?_) ?_
              fun heights' lists' same behind => ?_
            · split at mem
              · cases mem
              · rw [List.mem_singleton.mp mem]
                exact .inv low (by omega) (min_le_left _ _)
            · split
              · rfl
              · rfl
            · have answer' := SyncNode.handleGetBlocks_ahead on' lists' settled.le
              rw [← SyncMessage.getBlocks.inj same, answer, if_neg behind] at answer'
              refine ⟨_, ?_, congrArg Prod.snd answer'⟩
              have room : 0 < maxGetDataSize := by decide
              have le := settled.le
              omega
        | getData theirs few =>
            obtain ⟨out, answer, fine, sends, -⟩ :=
              SyncNode.handleGetData_ahead height on' route theirs few
            rw [BlockSync.step]
            dsimp only [SyncNode.receive]
            rw [answer]
            exact along.served rfl rfl rfl fine sends fun _ _ other => by cases other
        | block at' =>
            rw [BlockSync.step]
            dsimp only [SyncNode.receive]
            rw [SyncNode.handleBlock_ahead on' route at' world]
            exact along.served rfl rfl rfl (by simp) rfl fun _ _ other => by cases other
  | lookA =>
      refine ⟨height, le_rfl, ?_⟩
      rw [BlockSync.step, SyncNode.maybeStartSync]
      split
      · rwa [List.append_nil]
      · obtain ⟨heights, lists, asked⟩ :=
          SyncNode.requestBlocksFrom_behind settled.upTo settled.le
        rw [asked]
        refine ⟨along.behind, along.ahead, along.toA, fun msg mem => ?_, fun x mem => ?_, ?_,
          along.nodes, along.heights⟩
        · rcases List.mem_append.mp mem with before | new
          · exact along.toB msg before
          · rw [List.mem_singleton.mp new]
            exact .getBlocks le_rfl lists
        · rw [BlockSync.coming, List.flatMap_append, ← List.append_assoc]
          exact List.mem_append_left _ (along.waits x mem)
        · simpa using along.pending.append (fun _ => .inl) [] _
  | lookB =>
      refine ⟨height, le_rfl, ?_⟩
      have level : b.bestHeight ≤ b.intake.chainState.mBestChain.height := by
        rw [on'.mBestChain]
        exact along.heights.2.trans_le low
      rw [BlockSync.step, SyncNode.maybeStartSync, if_pos level, List.append_nil]
      exact along

/-- The run lemma. -/
theorem run (route : Route P chain) (due : ∀ n, ∀ c ∈ chain, Due (clock n) c.block)
    (on : start.b.intake.chainState.On P chain) (low : start.b.bestHeight ≤ chain.length) :
    ∀ (events : List SyncEvent) {height : Nat} {sys : BlockSync},
      Along P chain start height sys →
      ∃ top, height ≤ top ∧ Along P chain start top (sys.run P clock events) := by
  intro events
  induction events with
  | nil => exact fun along => ⟨_, le_rfl, along⟩
  | cons event events ih =>
      intro height sys along
      obtain ⟨top, le, next⟩ := along.step route due on low event
      obtain ⟨last, le', after⟩ := ih next
      exact ⟨last, le.trans le', after⟩

/-- A download starts when a new node meets one with a chain. -/
theorem connected {s₀ : ChainState} (sound : P.SoundGenesis)
    (opened : ChainState.initializeState P (.ofDisk .empty) = .ok s₀)
    (fresh : a.intake = .new s₀) (idle : a.connManager.mBlocksInFlight = ∅)
    (on : b.intake.chainState.On P chain) :
    Along P chain (.connected a b) 0 (.connected a b) ∧
      (BlockSync.connected a b).b.bestHeight = 0 := by
  have settled : BlockIntake.Settled P chain [] 0 a.intake := fresh ▸ .new sound opened chain
  have ground : a.intake.chainState.mBestChain.height = 0 :=
    settled.upTo.mBestChain (Nat.zero_le _)
  have quiet : (BlockSync.connected a b).toA = [] := by
    refine if_pos ?_
    dsimp only
    rw [ground]
    exact Nat.zero_le _
  have nothing {x : Bytes32} : x ∉ a.connManager.mBlocksInFlight := by
    rw [idle]
    exact AList.notMem_empty x
  have asks : (BlockSync.connected a b).toB = [] ∧ chain.length = 0 ∨ ∃ heights,
      ListsDown 0 0 heights ∧
        (BlockSync.connected a b).toB = [.getBlocks (heights.map (hashOf P chain))] := by
    obtain ⟨heights, lists, asked⟩ := SyncNode.requestBlocksFrom_behind
      (k := (BlockSync.connected a b).a) settled.upTo (Nat.zero_le _)
    have start : (BlockSync.connected a b).toB =
        if chain.length ≤ 0 then [] else (BlockSync.connected a b).a.requestBlocksFrom := by
      rw [← ground, ← on.mBestChain]
      rfl
    rw [start, asked]
    by_cases short : chain.length ≤ 0
    · exact .inl ⟨if_pos short, Nat.le_zero.mp short⟩
    · exact .inr ⟨heights, lists, if_neg short⟩
  refine ⟨⟨⟨[], settled⟩, rfl, by simp [quiet], fun msg mem => ?_,
    fun x waited => absurd waited nothing, ?_, ⟨rfl, rfl⟩, ⟨rfl, rfl⟩⟩, ground⟩
  · rcases asks with ⟨none', -⟩ | ⟨heights, lists, asked⟩
    · rw [none'] at mem
      cases mem
    · rw [asked] at mem
      rw [List.mem_singleton.mp mem]
      exact .getBlocks le_rfl lists
  · rcases asks with ⟨-, all⟩ | ⟨heights, lists, asked⟩
    · exact .done all.symm
    · exact .getBlocks [] [] asked lists fun x waited => absurd waited nothing

end Along

namespace BlockSync

end BlockSync

namespace SmallNetwork

/-- A new node, and one with two blocks. -/
def newcomer : SyncNode := ⟨.new node, ConnManager.new.connect, 1, 0⟩

def holder : SyncNode := ⟨.new (node.acceptAll smallNetwork upToTwo), ConnManager.new.connect, 1, 0⟩

def oneMoment : SyncWorld := ⟨fun _ => 20, fun _ => false⟩

/-- The two take turns until no message is left. -/
def wholeDownload : List SyncEvent :=
  [.atB oneMoment, .atA oneMoment, .atB oneMoment, .atA oneMoment, .atA oneMoment, .atB oneMoment,
    .atB oneMoment, .atB oneMoment, .atB oneMoment, .atA oneMoment]

theorem intake_newcomer : newcomer.intake = .new node := by
  rw [newcomer]

theorem chainState_holder : holder.intake.chainState = node.acceptAll smallNetwork upToTwo := by
  rw [holder, BlockIntake.new]

end SmallNetwork

end QmaskCore
