import QmaskCore.Net.Promotion

/-!
The two tables of `AddrMan`.

`Tidy` says that every address is in one slot of the two tables, the one it is
assigned. Adding, trying and promoting keep it, by way of what they do to the
slots: an address is taken out (`Filed.remove`) or put where it belongs
(`Filed.place`). Loading a file keeps it as long as no address that a connection
succeeded to finds its slot of `mTried` free (`filed_loadEntry_iff`): such an
address is put there and left in `mNew`.
-/

namespace QmaskCore

open Scan

namespace AddrMan

inductive Table where
  | new
  | tried
deriving DecidableEq

def slots (m : AddrMan) : Table → Slots
  | .new => m.mNew
  | .tried => m.mTried

/-- The slot of the table names the address. -/
def Holds (m : AddrMan) (t : Table) (slot : Nat × Nat) (key : List UInt8) : Prop :=
  (m.slots t).lookup slot = some key

variable (sha256 : List UInt8 → List UInt8)

/-- The slot of a table an entry is assigned. -/
def slotFor (m : AddrMan) : Table → AddrEntry → List UInt8 → Nat × Nat
  | .new => m.newSlot sha256
  | .tried => m.triedSlot sha256

/-- Every slot names an address that is known, which is in no other slot of the
two tables and assigned to this one; and every address is in a slot. -/
structure Tidy (m : AddrMan) : Prop where
  named : ∀ t slot key, m.Holds t slot key → key ∈ m.mEntries
  single : ∀ key ∈ m.mEntries, ∃! place : Table × (Nat × Nat), m.Holds place.1 place.2 key
  assigned : ∀ t slot key e, m.Holds t slot key → m.mEntries.lookup key = some e →
    slot = m.slotFor sha256 t e key

/-- The same, told by the table an address is in. -/
structure Filed (m : AddrMan) : Prop where
  named : ∀ t slot key, m.Holds t slot key →
    ∃ e, m.mEntries.lookup key = some e ∧ slot = m.slotFor sha256 t e key
  placed : ∀ key e, m.mEntries.lookup key = some e →
    ∃! t, m.Holds t (m.slotFor sha256 t e key) key

variable {sha256} {m m' : AddrMan}

theorem filed_iff_tidy : m.Filed sha256 ↔ m.Tidy sha256 := by
  constructor
  · intro filed
    refine ⟨?_, ?_, ?_⟩
    · intro t slot key found
      obtain ⟨e, there, -⟩ := filed.named t slot key found
      exact AList.lookup_isSome.mp (by rw [there, Option.isSome_some])
    · intro key mem
      obtain ⟨e, there⟩ := Option.isSome_iff_exists.mp (AList.lookup_isSome.mpr mem)
      obtain ⟨t, here, only⟩ := filed.placed key e there
      refine ⟨⟨t, m.slotFor sha256 t e key⟩, here, ?_⟩
      rintro ⟨t', slot⟩ found
      obtain ⟨e', there', rfl⟩ := filed.named t' slot key found
      rw [there] at there'
      cases there'
      rw [only t' found]
    · intro t slot key e found there
      obtain ⟨e', there', same⟩ := filed.named t slot key found
      rw [there] at there'
      cases there'
      exact same
  · intro tidy
    refine ⟨?_, ?_⟩
    · intro t slot key found
      have mem := tidy.named t slot key found
      obtain ⟨e, there⟩ := Option.isSome_iff_exists.mp (AList.lookup_isSome.mpr mem)
      exact ⟨e, there, tidy.assigned t slot key e found there⟩
    · intro key e there
      have mem : key ∈ m.mEntries := AList.lookup_isSome.mp (by rw [there, Option.isSome_some])
      obtain ⟨⟨t, slot⟩, found, only⟩ := tidy.single key mem
      obtain rfl := tidy.assigned t slot key e found there
      exact ⟨t, found, fun t' found' => congrArg Prod.fst (only ⟨t', _⟩ found')⟩

theorem isInTried_eq_true {key : List UInt8} :
    m.isInTried key = true ↔ ∃ slot, m.Holds .tried slot key := by
  simp only [isInTried, List.any_eq_true, decide_eq_true_eq]
  constructor
  · rintro ⟨x, mem, rfl⟩
    exact ⟨x.1, AList.mem_lookup_iff.mpr mem⟩
  · rintro ⟨slot, found⟩
    exact ⟨⟨slot, key⟩, AList.mem_lookup_iff.mp found, rfl⟩

/-! ### Taking out and putting in -/

/-- The key of the table is all the slots take from it. -/
theorem slotFor_congr (same : m'.mKey = m.mKey) (t : Table) (e : AddrEntry) (key : List UInt8) :
    m'.slotFor sha256 t e key = m.slotFor sha256 t e key := by
  cases t with
  | new => simp only [slotFor, newSlot, newBucketFor, positionIn, same]
  | tried => simp only [slotFor, triedSlot, triedBucketFor, positionIn, same]

/-- Of an entry they take its address and its source. -/
theorem slotFor_congr_entry {e e' : AddrEntry} (ip : e'.ip = e.ip) (port : e'.port = e.port)
    (source : e'.source = e.source) (t : Table) (key : List UInt8) :
    m.slotFor sha256 t e' key = m.slotFor sha256 t e key := by
  cases t with
  | new => simp only [slotFor, newSlot, newBucketFor, ip, source]
  | tried => simp only [slotFor, triedSlot, triedBucketFor, AddrEntry.key, ip, port]

namespace Filed

/-- What is known of an address changes, but not where it is. -/
theorem touch (filed : m.Filed sha256) {key : List UInt8} {e e' : AddrEntry}
    (there : m.mEntries.lookup key = some e) (ip : e'.ip = e.ip) (port : e'.port = e.port)
    (source : e'.source = e.source) :
    Filed sha256 { m with mEntries := m.mEntries.insert key e' } := by
  let m' : AddrMan := { m with mEntries := m.mEntries.insert key e' }
  have slot (t : Table) (e : AddrEntry) (k : List UInt8) :
      m'.slotFor sha256 t e k = m.slotFor sha256 t e k := slotFor_congr rfl t e k
  have kept (t : Table) (s : Nat × Nat) (k : List UInt8) : m'.Holds t s k ↔ m.Holds t s k := by
    cases t with
    | new => exact Iff.rfl
    | tried => exact Iff.rfl
  have known (k : List UInt8) : m'.mEntries.lookup k =
      if k = key then some e' else m.mEntries.lookup k := AList.lookup_insert_if ..
  show m'.Filed sha256
  refine ⟨fun t s k found => ?_, fun k f found => ?_⟩
  · obtain ⟨f, before, same⟩ := filed.named t s k ((kept t s k).mp found)
    by_cases here : k = key
    · subst here
      rw [there] at before
      cases before
      refine ⟨e', by rw [known, if_pos rfl], ?_⟩
      rw [slot, slotFor_congr_entry ip port source, same]
    · exact ⟨f, by rw [known, if_neg here, before], by rw [slot, same]⟩
  · simp only [kept, slot]
    rw [known] at found
    split at found
    · rename_i here
      subst here
      cases found
      simp only [slotFor_congr_entry ip port source]
      exact filed.placed k e there
    · exact filed.placed k f found

/-- An address is forgotten, and its slot is empty. -/
theorem remove (filed : m.Filed sha256) {key : List UInt8} (same : m'.mKey = m.mKey)
    (entries : ∀ k, m'.mEntries.lookup k = if k = key then none else m.mEntries.lookup k)
    (slots : ∀ t s k, m'.Holds t s k ↔ m.Holds t s k ∧ k ≠ key) : m'.Filed sha256 := by
  have slot (t : Table) (e : AddrEntry) (k : List UInt8) :
      m'.slotFor sha256 t e k = m.slotFor sha256 t e k := slotFor_congr same t e k
  refine ⟨fun t s k found => ?_, fun k e found => ?_⟩
  · obtain ⟨found, other⟩ := (slots t s k).mp found
    rw [entries, if_neg other]
    simp only [slot]
    exact filed.named t s k found
  · rw [entries] at found
    split at found
    · cases found
    · rename_i other
      simp only [slots, slot, ne_eq, other, not_false_eq_true, and_true]
      exact filed.placed k e found

/-- An address not known before is put into the slot it is assigned; the one
that was there is forgotten. -/
theorem place (filed : m.Filed sha256) {t : Table} {key : List UInt8} {e : AddrEntry}
    (same : m'.mKey = m.mKey) (fresh : m.mEntries.lookup key = none)
    (mine : m'.mEntries.lookup key = some e)
    (others : ∀ k, k ≠ key → ∀ f, m'.mEntries.lookup k = some f ↔
      m.mEntries.lookup k = some f ∧ ¬ m.Holds t (m.slotFor sha256 t e key) k)
    (here : ∀ s k, m'.Holds t s k ↔
      if s = m.slotFor sha256 t e key then k = key else m.Holds t s k)
    (there : ∀ t', t' ≠ t → ∀ s k, m'.Holds t' s k ↔ m.Holds t' s k) : m'.Filed sha256 := by
  have slot (t : Table) (e : AddrEntry) (k : List UInt8) :
      m'.slotFor sha256 t e k = m.slotFor sha256 t e k := slotFor_congr same t e k
  have unknown {t' : Table} {s : Nat × Nat} {k : List UInt8} (found : m.Holds t' s k) :
      k ≠ key := by
    rintro rfl
    obtain ⟨f, known, -⟩ := filed.named t' s k found
    rw [fresh] at known
    cases known
  refine ⟨fun t' s k found => ?_, fun k f found => ?_⟩
  · simp only [slot]
    by_cases table : t' = t
    · subst table
      rw [here] at found
      split at found
      · rename_i at_slot
        exact ⟨e, found ▸ mine, by rw [at_slot, found]⟩
      · rename_i elsewhere
        obtain ⟨f, known, at_slot⟩ := filed.named t' s k found
        refine ⟨f, (others k (unknown found) f).mpr ⟨known, fun displaced => ?_⟩, at_slot⟩
        obtain ⟨f', known', at_slot'⟩ := filed.named t' _ k displaced
        rw [known] at known'
        cases known'
        exact elsewhere (at_slot.trans at_slot'.symm)
    · rw [there t' table] at found
      obtain ⟨f, known, rfl⟩ := filed.named t' s k found
      refine ⟨f, (others k (unknown found) f).mpr ⟨known, fun displaced => ?_⟩, rfl⟩
      obtain ⟨f', known', at_slot'⟩ := filed.named t _ k displaced
      rw [known] at known'
      cases known'
      rw [at_slot'] at displaced
      exact table ((filed.placed k f known).unique found displaced)
  · simp only [slot]
    by_cases new : k = key
    · subst new
      rw [mine] at found
      cases found
      refine ⟨t, (here _ k).mpr (by rw [if_pos rfl]), fun t' found => ?_⟩
      by_contra table
      exact unknown ((there t' table _ k).mp found) rfl
    · obtain ⟨known, free⟩ := (others k new f).mp found
      have unmoved (t' : Table) : m'.Holds t' (m.slotFor sha256 t' f k) k ↔
          m.Holds t' (m.slotFor sha256 t' f k) k := by
        by_cases table : t' = t
        · subst table
          rw [here]
          split
          · rename_i at_slot
            rw [at_slot]
            exact ⟨fun same => absurd same new, fun found => absurd found free⟩
          · exact Iff.rfl
        · exact there t' table _ k
      simp only [unmoved]
      exact filed.placed k f known

/-! ### The operations -/

theorem not_holds_of_fresh (filed : m.Filed sha256) {key : List UInt8}
    (fresh : m.mEntries.lookup key = none) (t : Table) (s : Nat × Nat) : ¬ m.Holds t s key := by
  intro found
  obtain ⟨f, known, -⟩ := filed.named t s key found
  rw [fresh] at known
  cases known

theorem not_holds_both (filed : m.Filed sha256) {key : List UInt8} {s s' : Nat × Nat}
    (new : m.Holds .new s key) : ¬ m.Holds .tried s' key := by
  intro tried
  obtain ⟨f, known, rfl⟩ := filed.named .new s key new
  obtain ⟨f', known', rfl⟩ := filed.named .tried s' key tried
  rw [known] at known'
  cases known'
  cases (filed.placed key f known).unique new tried

/-- The address goes into its slot of `mNew`, in place of the one that was there. -/
theorem enter (filed : m.Filed sha256) {e : AddrEntry} {key : List UInt8}
    {entries : AList fun _ : List UInt8 => AddrEntry} (fresh : m.mEntries.lookup key = none)
    (mine : entries.lookup key = some e)
    (others : ∀ k, k ≠ key → ∀ f, entries.lookup k = some f ↔
      m.mEntries.lookup k = some f ∧ ¬ m.Holds .new (m.newSlot sha256 e key) k) :
    Filed sha256 { m with
      mEntries := entries
      mNew := m.mNew.insert (m.newSlot sha256 e key) key } := by
  refine filed.place (t := .new) rfl fresh mine others (fun s k => ?_) (fun t other s k => ?_)
  · show (m.mNew.insert (m.newSlot sha256 e key) key).lookup s = some k ↔
      if s = m.newSlot sha256 e key then k = key else m.mNew.lookup s = some k
    rw [AList.lookup_insert_if]
    split
    · rw [Option.some.injEq]
      exact eq_comm
    · exact Iff.rfl
  · cases t with
    | new => exact absurd rfl other
    | tried => exact Iff.rfl

theorem addLocked (filed : m.Filed sha256) (e : AddrEntry) (now : Int) :
    (m.addLocked sha256 e now).2.Filed sha256 := by
  unfold AddrMan.addLocked
  dsimp only
  split
  · rename_i existing there
    exact filed.touch there rfl rfl rfl
  rename_i fresh
  have mine : (m.mEntries.insert e.key e).lookup e.key = some e := AList.lookup_insert _
  have kept {k : List UInt8} (other : k ≠ e.key) :
      (m.mEntries.insert e.key e).lookup k = m.mEntries.lookup k := AList.lookup_insert_ne other
  split
  · rename_i free
    refine filed.enter fresh mine fun k other f => ?_
    rw [kept other]
    refine (and_iff_left ?_).symm
    intro displaced
    exact absurd (free.symm.trans displaced) nofun
  rename_i d there
  have holds : m.Holds .new (m.newSlot sha256 e e.key) d := there
  obtain ⟨f, known, -⟩ := filed.named .new _ d holds
  have other : d ≠ e.key := fun same => filed.not_holds_of_fresh fresh .new _ (same ▸ holds)
  rw [if_neg other, kept other, known]
  dsimp only
  split
  · -- refused: the key is taken out again
    refine @remove sha256 m _ filed e.key rfl (fun k => ?_) (fun t s k => ?_)
    · rw [AList.lookup_erase_if]
      split
      · rfl
      · exact kept ‹_›
    · refine (and_iff_left_of_imp ?_).symm
      rintro found rfl
      exact filed.not_holds_of_fresh fresh t s found
  · split
    · rename_i tried
      obtain ⟨s, at_slot⟩ := isInTried_eq_true.mp tried
      exact absurd at_slot (filed.not_holds_both holds)
    · refine filed.enter fresh ?_ fun k new f => ?_
      · rw [AList.lookup_erase_if, if_neg other.symm, mine]
      · rw [AList.lookup_erase_if, ← kept new]
        by_cases same : k = d
        · rw [if_pos same, same]
          exact ⟨nofun, fun found => absurd holds found.2⟩
        · rw [if_neg same]
          refine (and_iff_left ?_).symm
          intro found
          exact same (Option.some.inj (found.symm.trans holds))

theorem add (filed : m.Filed sha256) (ip : List UInt8) (port : UInt16) (services : UInt32)
    (source : List UInt8) (now : Int) :
    (m.add sha256 ip port services source now).2.Filed sha256 := by
  unfold AddrMan.add
  split
  · exact filed
  · exact filed.addLocked _ now

theorem attempt (filed : m.Filed sha256) (ip : List UInt8) (port : UInt16) (now : Int) :
    (m.attempt ip port now).Filed sha256 := by
  unfold AddrMan.attempt
  dsimp only
  split
  · exact filed
  · rename_i e there
    exact filed.touch there rfl rfl rfl

/-- An address leaves `mNew` for its slot of `mTried`; the one that was there is
forgotten. -/
theorem promote (filed : m.Filed sha256) {e : AddrEntry} {key : List UInt8}
    {entries : AList fun _ : List UInt8 => AddrEntry} (untried : ¬ m.isInTried key = true)
    (mine : entries.lookup key = some e)
    (others : ∀ k, k ≠ key → ∀ f, entries.lookup k = some f ↔
      m.mEntries.lookup k = some f ∧ ¬ m.Holds .tried (m.triedSlot sha256 e key) k) :
    Filed sha256 { m with
      mEntries := entries
      mTried := m.mTried.insert (m.triedSlot sha256 e key) key
      mNew := m.mNew.filter fun _ k => k ≠ key } := by
  let out : AddrMan := { m with
    mEntries := m.mEntries.erase key
    mNew := m.mNew.filter fun _ k => k ≠ key }
  have dropped (s : Nat × Nat) (k : List UInt8) :
      (m.mNew.filter fun _ k => k ≠ key).lookup s = some k ↔ m.mNew.lookup s = some k ∧ k ≠ key := by
    rw [AList.lookup_filter, decide_eq_true_eq]
  have absent : out.Filed sha256 := by
    refine @remove sha256 m out filed key rfl (AList.lookup_erase_if _ key) (fun t s k => ?_)
    cases t with
    | new => exact dropped s k
    | tried =>
        refine (and_iff_left_of_imp ?_).symm
        rintro found rfl
        exact untried (isInTried_eq_true.mpr ⟨s, found⟩)
  refine absent.place (t := .tried) rfl (AList.lookup_erase _ _) mine (fun k new f => ?_)
    (fun s k => ?_) (fun t other s k => ?_)
  · rw [others k new f]
    show _ ↔ (m.mEntries.erase key).lookup k = some f ∧ _
    rw [AList.lookup_erase_ne new]
    exact Iff.rfl
  · show (m.mTried.insert (m.triedSlot sha256 e key) key).lookup s = some k ↔
      if s = m.triedSlot sha256 e key then k = key else m.mTried.lookup s = some k
    rw [AList.lookup_insert_if]
    split
    · rw [Option.some.injEq]
      exact eq_comm
    · exact Iff.rfl
  · cases t with
    | new => exact Iff.rfl
    | tried => exact absurd rfl other

/-- The one whose slot is taken goes back to `mNew`, if its slot there is free. -/
theorem good (filed : m.Filed sha256) (ip : List UInt8) (port : UInt16) (now : Int) :
    (m.good sha256 ip port now).Filed sha256 := by
  unfold AddrMan.good
  dsimp only
  generalize AddrEntry.keyOf ip port = key
  split
  · exact filed
  rename_i e there
  have touched := @touch sha256 m filed key e
    { e with lastSuccess := now, lastSeen := now, attempts := 0 } there rfl rfl rfl
  generalize { e with lastSuccess := now, lastSeen := now, attempts := 0 } = e at touched ⊢
  have mine : (m.mEntries.insert key e).lookup key = some e := AList.lookup_insert _
  generalize m.mEntries.insert key e = entries at touched mine ⊢
  split
  · exact touched
  rename_i untried
  split
  · rename_i free
    refine touched.promote untried mine fun k _ f => (and_iff_left ?_).symm
    intro displaced
    exact absurd (free.symm.trans displaced) nofun
  rename_i d taken
  let m₁ : AddrMan := { m with mEntries := entries }
  have holds : m₁.Holds .tried (m₁.triedSlot sha256 e key) d := taken
  have other : d ≠ key := fun same =>
    untried (isInTried_eq_true.mpr ⟨_, same ▸ holds⟩)
  obtain ⟨f, known, -⟩ := touched.named .tried _ d holds
  have displaced (k : List UInt8) : m₁.Holds .tried (m₁.triedSlot sha256 e key) k ↔ k = d := by
    constructor
    · exact fun found => Option.some.inj (found.symm.trans holds)
    · rintro rfl
      exact holds
  have without : Filed sha256 { m with
      mEntries := entries.erase d
      mTried := m.mTried.insert (m.triedSlot sha256 e key) key
      mNew := m.mNew.filter fun _ k => k ≠ key } := by
    refine touched.promote untried ?_ fun k _ g => ?_
    · rw [AList.lookup_erase_if, if_neg other.symm, mine]
    · show _ ↔ entries.lookup k = some g ∧ ¬ m₁.Holds .tried (m₁.triedSlot sha256 e key) k
      rw [displaced, AList.lookup_erase_if]
      split
      · rename_i same
        exact ⟨nofun, fun found => absurd same found.2⟩
      · exact (and_iff_left ‹_›).symm
  rw [if_neg other, show entries.lookup d = some f from known]
  dsimp only
  split
  · exact without
  · rename_i free
    refine without.enter (AList.lookup_erase _ _) known fun k new g => ?_
    show entries.lookup k = some g ↔ (entries.erase d).lookup k = some g ∧ _
    rw [AList.lookup_erase_ne new]
    refine (and_iff_left ?_).symm
    intro found
    exact free (AList.lookup_isSome.mp (Option.isSome_iff_exists.mpr ⟨k, found⟩))

end Filed

/-! ### Loading -/

variable (sha256) in
/-- The entry is of an address that a connection succeeded to, and that is known
and finds its slot of `mTried` free once the entry has been added. -/
def Promotes (now : Int) (m : AddrMan) (e : AddrEntry) : Prop :=
  e.isTerrible now = false ∧ e.lastSuccess ≠ 0 ∧
    ∃ e', (m.addLocked sha256 e now).2.mEntries.lookup e.key = some e' ∧
      (m.addLocked sha256 e now).2.triedSlot sha256 e' e.key ∉ (m.addLocked sha256 e now).2.mTried

/-- **A line of the file.** Loading it keeps the tables just when it promotes
nothing. -/
theorem filed_loadEntry_iff (filed : m.Filed sha256) (e : AddrEntry) (now : Int) :
    (m.loadEntry sha256 now e).Filed sha256 ↔ ¬ m.Promotes sha256 now e := by
  have added := filed.addLocked e now
  constructor
  · rintro loaded ⟨fine, success, e', known, free⟩
    rw [AddrMan.loadEntry, fine] at loaded
    dsimp only at loaded
    rw [if_neg Bool.false_ne_true, if_neg success, known] at loaded
    dsimp only at loaded
    rw [if_neg free] at loaded
    obtain ⟨t, at_slot, -⟩ := added.placed e.key e' known
    cases t with
    | new =>
        let slot := (m.addLocked sha256 e now).2.triedSlot sha256 e' e.key
        have promoted : ((m.addLocked sha256 e now).2.mTried.insert slot e.key).lookup slot =
            some e.key := AList.lookup_insert _
        exact loaded.not_holds_both at_slot promoted
    | tried =>
        exact free (AList.lookup_isSome.mp (Option.isSome_iff_exists.mpr ⟨e.key, at_slot⟩))
  · intro calm
    unfold AddrMan.loadEntry
    dsimp only
    split
    · exact filed
    rename_i fine
    split
    · exact added
    rename_i success
    split
    · exact added
    rename_i e' known
    split
    · exact added
    · rename_i free
      exact absurd ⟨Bool.eq_false_iff.mpr fine, success, e', known, free⟩ calm

/-! ### Runs -/

inductive TableOp where
  | add (ip : List UInt8) (port : UInt16) (services : UInt32) (source : List UInt8) (now : Int)
  | attempt (ip : List UInt8) (port : UInt16) (now : Int)
  | good (ip : List UInt8) (port : UInt16) (now : Int)
  | load (file : List UInt8) (now : Int)
  | sweep (now : Int)

section

variable (sha256)

def tableStep (m : AddrMan) : TableOp → AddrMan
  | .add ip port services source now => (m.add sha256 ip port services source now).2
  | .attempt ip port now => m.attempt ip port now
  | .good ip port now => m.good sha256 ip port now
  | .load file now => m.load sha256 file now
  | .sweep _ => m

/-- No line of a file that is loaded promotes its address. -/
def Demoted (m : AddrMan) : TableOp → Prop
  | .load file now => Run.Meets (loadEntry sha256 now) (fun m e => ¬ m.Promotes sha256 now e)
      ((getlines file []).filterMap readEntry) m
  | _ => True

end

theorem Filed.step (filed : m.Filed sha256) {op : TableOp} (demoted : m.Demoted sha256 op) :
    (m.tableStep sha256 op).Filed sha256 := by
  cases op with
  | add ip port services source now => exact filed.add ip port services source now
  | attempt ip port now => exact filed.attempt ip port now
  | good ip port now => exact filed.good ip port now
  | load file now =>
      refine Run.Meets.invariant (fun m e filed calm => ?_) filed demoted
      exact (filed_loadEntry_iff filed e now).mpr calm
  | sweep now => exact filed

theorem filed_new (key : UInt64) : (new key).Filed sha256 := by
  refine ⟨fun t slot k found => ?_, fun k e found => nomatch found⟩
  cases t with
  | new => cases found
  | tried => cases found

/-- **Tables.** Whatever is added, tried, promoted and loaded, in any order and
with any digest: as long as no load promotes an address, every address is in
one slot, its own. -/
theorem tables_tidy {key : UInt64} {ops : List TableOp}
    (demoted : Run.Meets (tableStep sha256) (Demoted sha256) ops (new key)) :
    (ops.foldl (tableStep sha256) (new key)).Tidy sha256 := by
  refine filed_iff_tidy.mp (Run.Meets.invariant ?_ (filed_new key) demoted)
  exact fun m op filed demoted => filed.step demoted

/-! ### A file with one address -/

/-- A digest that is the same for all texts. -/
def flat (_ : List UInt8) : List UInt8 := List.replicate 32 0

def home : List UInt8 := text "1.2.3.4"

/-- A connection to the address succeeded, and it is loaded into a slot of either
table. -/
theorem loaded_into_both :
    ¬ ∀ ops : List TableOp, (ops.foldl (tableStep flat) (new 0)).Tidy flat := by
  intro all
  let file := text "1.2.3.4 8333 0 100 0 100 0 1.2.3.4\n"
  have filed := filed_iff_tidy.mpr (all [.load file 100])
  have inNew : ((new 0).load flat file 100).mNew.lookup (0, 0) =
      some (AddrEntry.keyOf home 8333) := by decide +kernel
  have inTried : ((new 0).load flat file 100).mTried.lookup (0, 0) =
      some (AddrEntry.keyOf home 8333) := by decide +kernel
  exact filed.not_holds_both inNew inTried

/-- An address nobody has connected to is loaded, found to answer, and offered
again. -/
theorem loaded_and_promoted :
    ([.load (text "1.2.3.4 8333 0 100 0 0 0 1.2.3.4\n") 100, .attempt home 8333 110,
      .good home 8333 110, .add home 8333 0 home 120].foldl (tableStep flat) (new 0)).Tidy flat := by
  refine tables_tidy ⟨Run.meets_of_forall ?_ _, trivial, trivial, trivial, trivial⟩
  have untried : ∀ e ∈ (getlines (text "1.2.3.4 8333 0 100 0 0 0 1.2.3.4\n") []).filterMap readEntry,
      e.lastSuccess = 0 := by decide +kernel
  exact fun e mem m promotes => promotes.2.1 (untried e mem)

end AddrMan

end QmaskCore
