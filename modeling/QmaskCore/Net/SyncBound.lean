import QmaskCore.Net.SyncSafety

/-!
A download takes a bounded number of messages.

As long as the clock shows one time throughout a message, a node asks for the
first blocks it wants, as many as there is room for (`SyncNode.askFor_steady`).
So blocks come from the bottom up (`Climbs`), and nothing is ever parked. Each
message is worth what can still come of it (`SyncMessage.worth`), and each one
that is taken leaves less.
-/

namespace QmaskCore

/-- The clock shows one time throughout a message. -/
def SyncWorld.Steady (world : SyncWorld) : Prop := ∀ i, world.now i = world.now 0

namespace InFlight

/-- How many more blocks may be asked of a peer. -/
def free (peer : NodeId) (t : InFlight) : Nat :=
  min (blockDownloadWindow - t.entries.length) (maxBlocksInFlightPerPeer - t.heldBy peer)

/-- What was given up is given up once. -/
theorem expire_expire (timeout now : Int) (t : InFlight) :
    (t.expire timeout now).expire timeout now = t.expire timeout now :=
  AList.ext (List.filter_eq_self.mpr fun _ mem => (List.mem_filter.mp mem).2)

/-- A request of this moment is not given up. -/
theorem expire_insert {timeout now : Int} {t : InFlight} (current : t.expire timeout now = t)
    (patient : 0 ≤ timeout) {hash : Bytes32} (new : hash ∉ t) (peer : NodeId) :
    expire timeout now (t.insert hash ⟨peer, now⟩) = t.insert hash ⟨peer, now⟩ := by
  refine AList.ext ?_
  have rest : t.entries.filter (fun e => !decide (timeout < now - e.2.requestedAt)) = t.entries :=
    congrArg AList.entries current
  change ((t.insert hash ⟨peer, now⟩).entries.filter fun e =>
    !decide (timeout < now - e.2.requestedAt)) = _
  rw [AList.entries_insert_of_notMem new, List.filter_cons_of_pos, rest]
  simpa using patient

theorem free_insert {t : InFlight} {hash : Bytes32} (new : hash ∉ t) (peer : NodeId) (now : Int) :
    free peer (t.insert hash ⟨peer, now⟩) = free peer t - 1 := by
  rw [free, heldBy, AList.entries_insert_of_notMem new, List.countP_cons_of_pos (by simp),
    List.length_cons, free, heldBy]
  omega

end InFlight

namespace SyncNode

/-- In one moment a node asks for the first blocks it wants, as many as it may. -/
theorem askFor_steady (s : ChainState) (peer : NodeId) {clock : Nat → Int} {now : Int}
    (steady : ∀ i, clock i = now) : ∀ (hashes : List Bytes32) (i : Nat) (m : ConnManager),
    hashes.Nodup → (askFor s peer clock i hashes m).1 =
      (hashes.filter fun hash => !s.mBlockData.hasBlock hash &&
        !decide (hash ∈ m.mBlocksInFlight.expire blockInFlightTimeoutSec now)).take
          ((m.mBlocksInFlight.expire blockInFlightTimeoutSec now).free peer) := by
  intro hashes
  induction hashes with
  | nil => exact fun i m _ => by simp [askFor]
  | cons hash hashes ih =>
      intro i m nodup
      obtain ⟨apart, nodup⟩ := List.nodup_cons.mp nodup
      rw [askFor]
      by_cases has : s.mBlockData.hasBlock hash = true
      · rw [if_pos has, ih _ _ nodup, List.filter_cons_of_neg (by simp [has])]
      rw [if_neg has, ConnManager.shouldRequestBlock, InFlight.request, steady]
      have once := InFlight.expire_expire blockInFlightTimeoutSec now m.mBlocksInFlight
      generalize m.mBlocksInFlight.expire blockInFlightTimeoutSec now = t at once ⊢
      by_cases asked : hash ∈ t
      · rw [if_pos asked]
        dsimp only
        rw [ih _ _ nodup, once, List.filter_cons_of_neg (by simp [asked])]
      rw [if_neg asked, List.filter_cons_of_pos (by simp [has, asked])]
      have refused (none' : t.free peer = 0) :
          (askFor s peer clock (i + 1) hashes { m with mBlocksInFlight := t }).1 =
            (hash :: hashes.filter fun hash => !s.mBlockData.hasBlock hash &&
              !decide (hash ∈ t)).take (t.free peer) := by
        rw [ih _ _ nodup, once, none', List.take_zero, List.take_zero]
      by_cases full : (!t.room (some blockDownloadWindow)) = true
      · rw [if_pos full]
        refine refused ?_
        simp only [InFlight.room, Option.all_some, Bool.not_eq_true', decide_eq_false_iff_not] at full
        rw [InFlight.free]
        omega
      rw [if_neg full]
      by_cases many : maxBlocksInFlightPerPeer ≤ t.heldBy peer
      · rw [if_pos many]
        refine refused ?_
        rw [InFlight.free]
        omega
      rw [if_neg many]
      dsimp only
      have room : t.free peer ≠ 0 := by
        simp only [InFlight.room, Option.all_some, Bool.not_eq_true', decide_eq_false_iff_not] at full
        rw [InFlight.free]
        omega
      obtain ⟨n, more⟩ := Nat.exists_eq_succ_of_ne_zero room
      rw [ih _ _ nodup, InFlight.expire_insert once (by decide) asked, InFlight.free_insert asked,
        more, Nat.succ_sub_one, List.take_succ_cons]
      congr 2
      refine List.filter_congr fun other mem => ?_
      have ne : other ≠ hash := fun same => apart (same ▸ mem)
      simp [AList.mem_insert, ne]

end SyncNode

/-! ### From the bottom up -/

variable {P : Params} {chain : List Connected}

/-- Blocks of a chain come, none of them more than one above those before it and the
height a node starts from. -/
def Climbs (P : Params) (chain : List Connected) : Nat → List Bytes32 → Prop
  | _, [] => True
  | top, hash :: rest => ∃ i, 0 < i ∧ i ≤ top + 1 ∧ i ≤ chain.length ∧
      hash = hashOf P chain i ∧ Climbs P chain (max top i) rest

namespace Climbs

theorem mono : ∀ {l : List Bytes32} {top top' : Nat}, Climbs P chain top l → top ≤ top' →
    Climbs P chain top' l := by
  intro l
  induction l with
  | nil => exact fun _ _ => trivial
  | cons hash rest ih =>
      rintro top top' ⟨i, positive, le, within, same, climbs⟩ more
      exact ⟨i, positive, by omega, within, same, ih climbs (max_le_max_right i more)⟩

/-- More blocks follow when they go on from all that come before them. -/
theorem append (route : Route P chain) {l' : List Bytes32} : ∀ {l : List Bytes32} {top : Nat},
    Climbs P chain top l →
    (∀ top', top ≤ top' → (∀ i ≤ chain.length, hashOf P chain i ∈ l → i ≤ top') →
      Climbs P chain top' l') → Climbs P chain top (l ++ l') := by
  intro l
  induction l with
  | nil => exact fun _ goes => goes _ le_rfl (by simp)
  | cons hash rest ih =>
      rintro top ⟨i, positive, le, within, rfl, climbs⟩ goes
      refine ⟨i, positive, le, within, rfl, ih climbs fun top' more bounded => ?_⟩
      refine goes top' (le_of_max_le_left more) fun j inside mem => ?_
      rcases List.mem_cons.mp mem with same | later
      · rw [route.apart inside within same]
        exact le_of_max_le_right more
      · exact bounded j inside later

/-- Of consecutive blocks the first few that are not among those at hand. -/
theorem first {wanted : Bytes32 → Bool} : ∀ (m : Nat) {k top r : Nat}, k ≤ top →
    k + m ≤ chain.length → (∀ i, k < i → i ≤ k + m → wanted (hashOf P chain i) = false → i ≤ top) →
    Climbs P chain top
      ((((List.range' (k + 1) m).map (hashOf P chain)).filter wanted).take r) := by
  intro m
  induction m with
  | zero => exact fun _ _ _ => by simp [Climbs]
  | succ m ih =>
      intro k top r le within skipped
      rw [List.range'_succ, List.map_cons]
      cases want : wanted (hashOf P chain (k + 1)) with
      | false =>
          rw [List.filter_cons_of_neg (by simp [want])]
          exact ih (skipped _ (Nat.lt_succ_self k) (by omega) want) (by omega)
            fun i low high => skipped i (by omega) (by omega)
      | true =>
          rw [List.filter_cons_of_pos want]
          cases r with
          | zero => trivial
          | succ r =>
              refine ⟨k + 1, Nat.succ_pos k, Nat.succ_le_succ le, by omega, rfl, ?_⟩
              exact ih (le_max_right _ _) (by omega) fun i low high unwanted =>
                (skipped i (by omega) (by omega) unwanted).trans (le_max_left _ _)

end Climbs

/-! ### What messages are worth -/

namespace SyncMessage

/-- More than what a node can send for a message is worth. -/
def worth : SyncMessage → Nat
  | .getBlocks _ => 19
  | .inv _ => 18
  | .getData hashes => 1 + hashes.length
  | .block _ => 1

def worthAll : List SyncMessage → Nat
  | [] => 0
  | msg :: rest => msg.worth + worthAll rest

@[simp] theorem worthAll_append (l l' : List SyncMessage) :
    worthAll (l ++ l') = worthAll l + worthAll l' := by
  induction l with
  | nil => simp [worthAll]
  | cons msg rest ih => rw [List.cons_append, worthAll, worthAll, ih, Nat.add_assoc]

theorem length_le_worthAll (l : List SyncMessage) : l.length ≤ worthAll l := by
  induction l with
  | nil => exact le_rfl
  | cons msg rest ih =>
      have one : 0 < msg.worth := by cases msg <;> simp [worth]
      rw [worthAll, List.length_cons]
      omega

/-- Blocks are worth one each. -/
theorem worthAll_blocks {l : List SyncMessage} (blocks : ∀ msg ∈ l, ∃ b, msg = .block b) :
    worthAll l = l.length := by
  induction l with
  | nil => rfl
  | cons msg rest ih =>
      obtain ⟨⟨b, rfl⟩, later⟩ := List.forall_mem_cons.mp blocks
      rw [worthAll, ih later, worth, List.length_cons, Nat.add_comm]

end SyncMessage

/-- A look at the peer puts a question on its way. -/
def SyncEvent.looks : SyncEvent → Nat
  | .lookA | .lookB => 1
  | _ => 0

def SyncEvent.Steady : SyncEvent → Prop
  | .atA world | .atB world => world.Steady
  | _ => True

namespace BlockSync

/-- Whether a message is taken. -/
def takes (sys : BlockSync) : SyncEvent → Nat
  | .atA _ => if sys.toA.isEmpty then 0 else 1
  | .atB _ => if sys.toB.isEmpty then 0 else 1
  | _ => 0

/-- How many messages are taken in a run. -/
def taken (P : Params) (clock : Nat → UInt64) : List SyncEvent → BlockSync → Nat
  | [], _ => 0
  | event :: events, sys => sys.takes event + taken P clock events (sys.step P clock event)

def looked : List SyncEvent → Nat
  | [] => 0
  | event :: events => event.looks + looked events

/-- What is left of a download of `n` blocks. -/
def left (n : Nat) (sys : BlockSync) : Nat :=
  20 * (n - sys.a.intake.chainState.mBestChain.height) +
    (SyncMessage.worthAll sys.toA + SyncMessage.worthAll sys.toB)

end BlockSync

/-- A download in which nothing is parked and blocks come from the bottom up. -/
structure Brisk (P : Params) (chain : List Connected) (start : BlockSync) (height : Nat)
    (sys : BlockSync) : Prop where
  along : Along P chain start height sys
  climbs : Climbs P chain height (sys.coming P)
  bare : sys.a.intake.orphans.gOrphanBlocks = []

/-- What a step of such a download leaves. -/
structure Leaves (P : Params) (chain : List Connected) (event : SyncEvent)
    (sys sys' : BlockSync) : Prop where
  climbs : Climbs P chain sys'.a.intake.chainState.mBestChain.height (sys'.coming P)
  bare : sys'.a.intake.orphans.gOrphanBlocks = []
  less : sys'.left chain.length + sys.takes event ≤ sys.left chain.length + 19 * event.looks

namespace Brisk

open SyncMessage

variable {clock : Nat → UInt64} {start : BlockSync} {height : Nat} {a b : SyncNode}
  {toA toB : List SyncMessage} {msg : SyncMessage} {world : SyncWorld}

theorem climbs' {sys : BlockSync} (brisk : Brisk P chain start height sys) :
    Climbs P chain sys.a.intake.chainState.mBestChain.height (sys.coming P) := by
  rw [brisk.along.height_eq]
  exact brisk.climbs

/-- An answer of the node ahead is worth less than the question. -/
theorem served (brisk : Brisk P chain start height ⟨a, b, toA, msg :: toB⟩) {b' : SyncNode}
    {out : List SyncMessage} (sends : out.flatMap (·.blocks P) = msg.items)
    (less : worthAll out < msg.worth) :
    Leaves P chain (.atB world) ⟨a, b, toA, msg :: toB⟩ ⟨a, b', toA ++ out, toB⟩ := by
  refine ⟨?_, brisk.bare, ?_⟩
  · rw [Along.coming_served a b b' sends]
    exact brisk.climbs'
  · simp only [BlockSync.left, BlockSync.takes, SyncEvent.looks, worthAll_append, worthAll,
      List.isEmpty_cons, Bool.false_eq_true, if_false]
    omega

/-- So is what a node asks for when it takes an inventory. -/
theorem told (brisk : Brisk P chain start height ⟨a, b, msg :: toA, toB⟩) (route : Route P chain)
    (steady : world.Steady) {k m : Nat}
    (same : msg = .inv ((List.range' (k + 1) m).map (hashOf P chain))) (low : k ≤ height)
    (within : k + m ≤ chain.length) (few : m ≤ maxGetDataSize) (clock : Nat → UInt64) :
    Leaves P chain (.atA world) ⟨a, b, msg :: toA, toB⟩ ⟨(a.receive P clock world msg).1, b, toA,
      toB ++ (a.receive P clock world msg).2⟩ := by
  subst same
  obtain ⟨came, settled⟩ := brisk.along.behind
  generalize listed : (List.range' (k + 1) m).map (hashOf P chain) = hashes at brisk ⊢
  have length : hashes.length = m := by rw [← listed, List.length_map, List.length_range']
  have fits : ¬ maxInvSize < hashes.length := by
    rw [length, maxInvSize]
    have thousand : maxGetDataSize = 1000 := rfl
    omega
  have nodup : hashes.Nodup := by
    rw [← listed]
    refine (List.nodup_map_iff_inj_on List.nodup_range').mpr fun i here j there equal => ?_
    have bounds := List.mem_range'_1.mp here
    have bounds' := List.mem_range'_1.mp there
    exact route.apart (by omega) (by omega) equal
  have asks := SyncNode.askFor_steady a.intake.chainState a.peer steady hashes 0 a.connManager nodup
  have here := brisk.along.height_eq
  rw [SyncNode.receive, SyncNode.handleInv, if_neg fits]
  generalize SyncNode.askFor a.intake.chainState a.peer world.now 0 hashes a.connManager = out
    at asks ⊢
  obtain ⟨asked, connManager⟩ := out
  dsimp only at asks here ⊢
  refine ⟨?_, brisk.bare, ?_⟩
  · rw [BlockSync.coming, List.flatMap_append, items_question, ← List.append_assoc]
    dsimp only
    rw [here]
    refine Climbs.append route brisk.climbs fun top' more bounded => ?_
    rw [asks, ← listed]
    refine Climbs.first m (low.trans more) within fun i above below skipped => ?_
    simp only [Bool.and_eq_false_iff, Bool.not_eq_false', decide_eq_true_eq] at skipped
    rcases skipped with has | waited
    · exact ((settled.upTo.hasBlock_hashOf route settled.le (by omega)).mp has).trans more
    · have waited := InFlight.mem_of_sublist (InFlight.expire_sublist _ _ _) waited
      exact bounded i (by omega) (brisk.along.waits _ waited)
  · have few : asked.length ≤ 16 := by
      rw [asks]
      refine (List.length_take_le _ _).trans ((min_le_right _ _).trans (Nat.sub_le _ _))
    have worth : worthAll (if asked.isEmpty then [] else [SyncMessage.getData asked]) ≤ 17 := by
      split
      · exact Nat.zero_le _
      · simp only [worthAll, SyncMessage.worth]
        omega
    simp only [BlockSync.left, BlockSync.takes, SyncEvent.looks, worthAll_append, worthAll,
      SyncMessage.worth, List.isEmpty_cons, Bool.false_eq_true, if_false]
    omega

/-- A block that comes is the next one or known, so the node goes up or takes one
message less to its end. -/
theorem took {j : Nat} {c : Connected}
    (brisk : Brisk P chain start height ⟨a, b, .block c.block :: toA, toB⟩) (route : Route P chain)
    (due : ∀ n, ∀ c ∈ chain, Due (clock n) c.block) (at' : chain.reverse[j]? = some c) :
    Leaves P chain (.atA world) ⟨a, b, .block c.block :: toA, toB⟩
      ⟨(a.receive P clock world (.block c.block)).1, b, toA,
        toB ++ (a.receive P clock world (.block c.block)).2⟩ := by
  obtain ⟨came, settled⟩ := brisk.along.behind
  obtain ⟨a', relays, asks, top, called, takes⟩ :=
    SyncNode.handleBlock_behind settled route due at' world
  have hash := (route.above at').hash
  have inside := OrphanPool.Parked.lt_of_at at'
  obtain ⟨i, positive, le, within, same, climbs⟩ : Climbs P chain height
      (hashOf P chain (j + 1) :: (toA.flatMap (·.blocks P) ++ toB.flatMap (·.items))) := by
    rw [← hash]
    exact brisk.climbs
  obtain rfl := route.apart (Nat.succ_le_of_lt inside) within same
  have low : j ≤ height := Nat.le_of_succ_le_succ le
  have here := brisk.along.height_eq
  have quiet : relays.flatMap (·.items) = [] := by
    rw [List.flatMap_eq_nil_iff]
    intro msg mem
    obtain ⟨i, d, -, rfl⟩ := takes.theirs msg mem
    rfl
  have fewRelays : worthAll relays ≤ 1 := by
    have few := takes.few
    rw [brisk.bare] at few
    rw [worthAll_blocks fun msg mem => by
      obtain ⟨i, d, -, rfl⟩ := takes.theirs msg mem
      exact ⟨d.block, rfl⟩]
    exact few
  rw [SyncNode.receive, called]
  dsimp only at takes here ⊢
  obtain ⟨came', settled'⟩ := takes.behind
  have there : a'.intake.chainState.mBestChain.height = top :=
    settled'.upTo.mBestChain settled'.le
  rcases Nat.lt_or_ge j height with known | next
  · obtain ⟨rfl, rfl, rfl, unmoved⟩ := takes.known known
    refine ⟨?_, unmoved ▸ brisk.bare, ?_⟩
    · rw [BlockSync.coming, List.append_nil, List.append_nil, there]
      rwa [max_eq_left known] at climbs
    · simp only [BlockSync.left, BlockSync.takes, SyncEvent.looks, worthAll_append, worthAll,
        SyncMessage.worth, List.isEmpty_cons, Bool.false_eq_true, if_false, there, here]
      omega
  · obtain ⟨up, fewer⟩ := takes.next (Nat.le_antisymm low next)
    obtain ⟨heights, lists, rfl⟩ := takes.asks next
    rw [brisk.bare] at fewer
    have high := settled'.le
    refine ⟨?_, List.sublist_nil.mp fewer, ?_⟩
    · rw [BlockSync.coming, List.flatMap_append, List.flatMap_append, quiet, there]
      have later := climbs.mono (max_le up.le (Nat.succ_le_of_lt (low.trans_lt up)))
      simpa [SyncMessage.items] using later
    · simp only [BlockSync.left, BlockSync.takes, SyncEvent.looks, worthAll_append, worthAll,
        SyncMessage.worth, List.isEmpty_cons, Bool.false_eq_true, if_false, there, here]
      omega

/-- A look adds one question at most. -/
theorem maybeStartSync_worth {k : SyncNode} (upTo : k.intake.chainState.UpTo P chain height)
    (le : height ≤ chain.length) :
    k.maybeStartSync.flatMap (·.items) = [] ∧ worthAll k.maybeStartSync ≤ 19 := by
  obtain ⟨heights, -, asks⟩ := SyncNode.requestBlocksFrom_behind upTo le
  rw [SyncNode.maybeStartSync, asks]
  split
  · exact ⟨rfl, Nat.zero_le _⟩
  · exact ⟨rfl, le_rfl⟩

theorem leaves {sys : BlockSync} (brisk : Brisk P chain start height sys) (route : Route P chain)
    (due : ∀ n, ∀ c ∈ chain, Due (clock n) c.block) (on : start.b.intake.chainState.On P chain)
    (low : start.b.bestHeight ≤ chain.length) {event : SyncEvent} (steady : event.Steady) :
    Leaves P chain event sys (sys.step P clock event) := by
  obtain ⟨a, b, toA, toB⟩ := sys
  have on' : b.intake.chainState.On P chain := brisk.along.ahead ▸ on
  obtain ⟨came, settled⟩ := brisk.along.behind
  cases event with
  | atA world =>
      rcases toA with - | ⟨msg, toA⟩
      · exact ⟨brisk.climbs', brisk.bare, le_rfl⟩
      · cases brisk.along.toA msg List.mem_cons_self with
        | inv low within few => exact brisk.told route steady rfl low within few clock
        | block at' => exact brisk.took route due at'
  | atB world =>
      rcases toB with - | ⟨msg, toB⟩
      · exact ⟨brisk.climbs', brisk.bare, le_rfl⟩
      · cases brisk.along.toB msg List.mem_cons_self with
        | getBlocks low lists =>
            rw [BlockSync.step]
            dsimp only [SyncNode.receive]
            rw [SyncNode.handleGetBlocks_ahead on' lists (low.trans settled.le)]
            refine brisk.served ?_ ?_
            · split <;> rfl
            · split
              · exact Nat.succ_pos _
              · exact Nat.lt_succ_self _
        | getData theirs few =>
            obtain ⟨out, answer, -, sends, long, blocks⟩ :=
              SyncNode.handleGetData_ahead height on' route theirs few
            rw [BlockSync.step]
            dsimp only [SyncNode.receive]
            rw [answer]
            refine brisk.served sends ?_
            rw [worthAll_blocks blocks, long, worth]
            exact Nat.lt_add_of_pos_left Nat.one_pos
        | block at' =>
            rw [BlockSync.step]
            dsimp only [SyncNode.receive]
            rw [SyncNode.handleBlock_ahead on' route at' world]
            exact brisk.served rfl (Nat.succ_pos _)
  | lookA =>
      obtain ⟨quiet, worth⟩ := maybeStartSync_worth settled.upTo settled.le
      dsimp only at quiet worth
      refine ⟨?_, brisk.bare, ?_⟩
      · rw [BlockSync.step, BlockSync.coming, List.flatMap_append, quiet, List.append_nil]
        exact brisk.climbs'
      · simp only [BlockSync.step, BlockSync.left, BlockSync.takes, SyncEvent.looks, worthAll_append]
        omega
  | lookB =>
      have level : b.bestHeight ≤ b.intake.chainState.mBestChain.height := by
        rw [on'.mBestChain]
        exact brisk.along.heights.2.trans_le low
      rw [BlockSync.step, SyncNode.maybeStartSync, if_pos level, List.append_nil]
      exact ⟨brisk.climbs', brisk.bare, Nat.le_add_right _ _⟩

/-- The step lemma. -/
theorem step {sys : BlockSync} (brisk : Brisk P chain start height sys) (route : Route P chain)
    (due : ∀ n, ∀ c ∈ chain, Due (clock n) c.block) (on : start.b.intake.chainState.On P chain)
    (low : start.b.bestHeight ≤ chain.length) {event : SyncEvent} (steady : event.Steady) :
    ∃ top, Brisk P chain start top (sys.step P clock event) ∧
      (sys.step P clock event).left chain.length + sys.takes event ≤
        sys.left chain.length + 19 * event.looks := by
  obtain ⟨top, -, along⟩ := brisk.along.step route due on low event
  have leaves : Leaves P chain event sys (sys.step P clock event) :=
    brisk.leaves route due on low steady
  exact ⟨top, ⟨along, along.height_eq ▸ leaves.climbs, leaves.bare⟩, leaves.less⟩

/-- The run lemma. -/
theorem run (route : Route P chain) (due : ∀ n, ∀ c ∈ chain, Due (clock n) c.block)
    (on : start.b.intake.chainState.On P chain) (low : start.b.bestHeight ≤ chain.length) :
    ∀ (events : List SyncEvent) {height : Nat} {sys : BlockSync}, Brisk P chain start height sys →
      (∀ event ∈ events, event.Steady) → ∃ top, Brisk P chain start top (sys.run P clock events) ∧
        (sys.run P clock events).left chain.length + BlockSync.taken P clock events sys ≤
          sys.left chain.length + 19 * BlockSync.looked events := by
  intro events
  induction events with
  | nil => exact fun brisk _ => ⟨_, brisk, le_rfl⟩
  | cons event events ih =>
      intro height sys brisk steady
      obtain ⟨first, later⟩ := List.forall_mem_cons.mp steady
      obtain ⟨top, next, less⟩ := brisk.step route due on low first
      obtain ⟨last, after, less'⟩ := ih next later
      refine ⟨last, after, ?_⟩
      rw [BlockSync.taken, BlockSync.looked, BlockSync.run, List.foldl_cons]
      rw [BlockSync.run] at less'
      omega

end Brisk

namespace BlockSync

end BlockSync

open SmallNetwork in
example : BlockSync.taken smallNetwork (fun _ => 20) wholeDownload
    (BlockSync.connected newcomer holder) = 10 := by
  decide +kernel

end QmaskCore
