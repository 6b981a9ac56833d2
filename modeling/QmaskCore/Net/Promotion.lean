import QmaskCore.Lib.Runs
import QmaskCore.Net.AddrMan

/-!
Who is promoted to `mTried`.

`AddrMan.Earned` says that a slot of `mTried` and a time of success are there
only for addresses a connection to which succeeded. Every operation keeps it,
and so does a restart when the file reads back as it was written, which needs
that no text in it contains one of its separators (`readEntry_saveLine`).
-/

namespace QmaskCore

open Scan Inet

namespace AddrEntry

/-- The key of an entry tells its address and its port. -/
theorem keyOf_inj {ip ip' : List UInt8} {port port' : UInt16}
    (same : keyOf ip port = keyOf ip' port') : ip = ip' ∧ port = port' := by
  have noColon {n : Nat} : (58 : UInt8) ∉ decimal n := fun mem =>
    absurd (isDigit_decimal mem) (by decide)
  have split := congrArg List.reverse same
  simp only [keyOf, List.reverse_append, List.reverse_cons, List.append_assoc,
    List.singleton_append] at split
  have stop : ∀ b ∈ (58 :: ip.reverse).head?, (b ≠ 58 : Bool) = false := by simp
  have stop' : ∀ b ∈ (58 :: ip'.reverse).head?, (b ≠ 58 : Bool) = false := by simp
  have digits {n : Nat} : ∀ b ∈ (decimal n).reverse, (b ≠ 58 : Bool) = true := by
    intro b mem
    exact decide_eq_true fun colon => noColon (colon ▸ List.mem_reverse.mp mem)
  obtain ⟨taken, left⟩ := takeWhile_append_of_head (p := fun b => b ≠ 58) digits stop
  obtain ⟨taken', left'⟩ := takeWhile_append_of_head (p := fun b => b ≠ 58) digits stop'
  rw [split] at taken left
  have ports : decimal port.toNat = decimal port'.toNat :=
    List.reverse_injective (taken.symm.trans taken')
  have ips := List.reverse_injective (List.cons.inj (left.symm.trans left')).2
  refine ⟨ips, UInt16.toNat.inj ?_⟩
  rw [← magnitude_decimal port.toNat, ports, magnitude_decimal]

end AddrEntry

namespace AddrMan

/-! ### Reading back a line -/

/-- No text of the entry contains a separator of the file. -/
structure Plain (e : AddrEntry) : Prop where
  ip : ∀ b ∈ e.ip, isSpace b = false
  source : 10 ∉ e.source

/-- A line that is read back gives the entry it was written for, up to the end of
the source. -/
theorem readEntry_saveLine {e e' : AddrEntry} (plain : Plain e) (ne : e.ip ≠ [])
    (read : readEntry (saveLine e) = some e') :
    e'.ip = e.ip ∧ e'.port = e.port ∧ e'.lastSuccess = e.lastSuccess := by
  have blank {s : List UInt8} : ∀ b ∈ (32 :: s).head?, isDigit b = false := by simp [isDigit]
  have first {s : List UInt8} : word (e.ip ++ 32 :: s) = some (e.ip, 32 :: s) :=
    word_append ne plain.ip (by simp [isSpace])
  unfold saveLine at read
  generalize (if e.source = [] then e.ip else e.source) = last at read
  simp only [readEntry, first, Option.bind_eq_bind, Option.bind_some,
    Option.bind_eq_some_iff, unsigned_blank] at read
  obtain ⟨⟨port, s⟩, atPort, ⟨services, s₂⟩, atServices, ⟨lastSeen, s₃⟩, atSeen, ⟨lastTry, s₄⟩, atTry,
    ⟨lastSuccess, s₅⟩, atSuccess, ⟨attempts, s₆⟩, atAttempts, ⟨source, s₇⟩, -, read⟩ := read
  obtain ⟨rfl, rfl⟩ := unsigned_decimal blank atPort
  obtain ⟨rfl, rfl⟩ := unsigned_decimal blank atServices
  obtain ⟨rfl, rfl⟩ := signed_decimalInt blank atSeen
  obtain ⟨rfl, rfl⟩ := signed_decimalInt blank atTry
  obtain ⟨rfl, rfl⟩ := signed_decimalInt blank atSuccess
  split at read
  · cases read
  · cases read
    exact ⟨rfl, UInt16.ofNat_toNat, rfl⟩

theorem mem_decimalInt {z : Int} {b : UInt8} (mem : b ∈ decimalInt z) :
    b = 45 ∨ isDigit b = true := by
  cases z with
  | ofNat n => exact .inr (isDigit_decimal mem)
  | negSucc n => exact (List.mem_cons.mp mem).imp_right isDigit_decimal

/-- A plain entry takes up one line. -/
theorem saveLine_one_line {e : AddrEntry} (plain : Plain e) : 10 ∉ saveLine e := by
  have noIp : 10 ∉ e.ip := fun mem => absurd (plain.ip 10 mem) (by decide)
  have noNat {n : Nat} : 10 ∉ decimal n := fun mem => absurd (isDigit_decimal mem) (by decide)
  have noInt {z : Int} : 10 ∉ decimalInt z := fun mem =>
    (mem_decimalInt mem).elim (by decide) (by decide)
  have noLast : 10 ∉ (if e.source = [] then e.ip else e.source) := by
    split
    · exact noIp
    · exact plain.source
  unfold saveLine
  generalize (if e.source = [] then e.ip else e.source) = last at noLast
  simp [noIp, noNat, noInt, noLast]

theorem getlines_line {line : List UInt8} (whole : 10 ∉ line) (rest seen : List UInt8) :
    getlines (line ++ 10 :: rest) seen = (seen ++ line) :: getlines rest [] := by
  induction line generalizing seen with
  | nil => simp [getlines]
  | cons b line ih =>
      have other : b ≠ 10 := fun newline => whole (newline ▸ List.mem_cons_self)
      rw [List.cons_append, getlines, if_neg other,
        ih fun mem => whole (List.mem_cons_of_mem _ mem), List.append_assoc, List.singleton_append]

/-- The lines of the file are the lines that were written. -/
theorem getlines_saved : ∀ {entries : List AddrEntry}, (∀ e ∈ entries, Plain e) →
    getlines (entries.flatMap fun e => saveLine e ++ [10]) [] = entries.map saveLine
  | [], _ => rfl
  | e :: entries, plain => by
      rw [List.flatMap_cons, List.append_assoc, List.singleton_append,
        getlines_line (saveLine_one_line (plain e List.mem_cons_self)), List.nil_append,
        getlines_saved fun e' mem => plain e' (List.mem_cons_of_mem _ mem), List.map_cons]

theorem mem_inKeyOrder {m : AddrMan} {e : AddrEntry} :
    e ∈ m.inKeyOrder ↔ ∃ key, m.mEntries.lookup key = some e := by
  simp only [inKeyOrder, List.mem_map, List.mem_mergeSort]
  constructor
  · rintro ⟨⟨key, e⟩, mem, rfl⟩
    exact ⟨key, AList.mem_lookup_iff.mpr mem⟩
  · rintro ⟨key, found⟩
    exact ⟨⟨key, e⟩, AList.mem_lookup_iff.mp found, rfl⟩

/-! ### What was earned -/

/-- A time of success is there only if the address won it. -/
structure Fair (won : List UInt8 → UInt16 → Prop) (e : AddrEntry) : Prop where
  ip : e.ip ≠ []
  success : e.lastSuccess ≠ 0 → won e.ip e.port

/-- Only addresses that won hold a slot of `mTried`, or a time of success. -/
structure Earned (won : List UInt8 → UInt16 → Prop) (m : AddrMan) : Prop where
  keyed : ∀ key e, m.mEntries.lookup key = some e → key = e.key ∧ Fair won e
  tried : ∀ slot key, m.mTried.lookup slot = some key →
    ∃ ip port, key = AddrEntry.keyOf ip port ∧ won ip port

variable {won won' : List UInt8 → UInt16 → Prop} {m : AddrMan} {sha256 : List UInt8 → List UInt8}

theorem earned_new (key : UInt64) : Earned won (new key) :=
  ⟨fun _ _ found => (nomatch found), fun _ _ found => (nomatch found)⟩

namespace Earned

theorem mono (earned : Earned won m) (more : ∀ ip port, won ip port → won' ip port) :
    Earned won' m where
  keyed key e found := by
    obtain ⟨keyed, fair⟩ := earned.keyed key e found
    exact ⟨keyed, fair.ip, fun success => more _ _ (fair.success success)⟩
  tried slot key found := by
    obtain ⟨ip, port, keyed, wins⟩ := earned.tried slot key found
    exact ⟨ip, port, keyed, more ip port wins⟩

/-- The slots of `mNew` do not matter. -/
theorem slots (earned : Earned won m) (slots : Slots) : Earned won { m with mNew := slots } :=
  ⟨earned.keyed, earned.tried⟩

theorem insert (earned : Earned won m) {e : AddrEntry} (fair : Fair won e) :
    Earned won { m with mEntries := m.mEntries.insert e.key e } where
  keyed key e' found := by
    rw [AList.lookup_insert_if] at found
    split at found
    · cases found
      exact ⟨‹_›, fair⟩
    · exact earned.keyed key e' found
  tried := earned.tried

theorem erase (earned : Earned won m) (key : List UInt8) :
    Earned won { m with mEntries := m.mEntries.erase key } where
  keyed key' e found := by
    rw [AList.lookup_erase_if] at found
    split at found
    · cases found
    · exact earned.keyed key' e found
  tried := earned.tried

theorem promote (earned : Earned won m) (slot : Nat × Nat) {ip : List UInt8} {port : UInt16}
    (wins : won ip port) :
    Earned won { m with mTried := m.mTried.insert slot (AddrEntry.keyOf ip port) } where
  keyed := earned.keyed
  tried slot' key found := by
    rw [AList.lookup_insert_if] at found
    split at found
    · cases found
      exact ⟨ip, port, rfl, wins⟩
    · exact earned.tried slot' key found

theorem addLocked (earned : Earned won m) {e : AddrEntry} (fair : Fair won e) (now : Int) :
    Earned won (m.addLocked sha256 e now).2 := by
  unfold AddrMan.addLocked
  dsimp only
  split
  · rename_i existing found
    obtain ⟨keyed, before⟩ := earned.keyed _ _ found
    rw [show e.key = AddrEntry.key { existing with
      lastSeen := if existing.lastSeen < e.lastSeen then e.lastSeen else existing.lastSeen
      services := if e.services ≠ 0 then e.services else existing.services } from keyed]
    exact earned.insert ⟨before.ip, before.success⟩
  · have entered := earned.insert fair
    split
    · exact entered.slots _
    split
    · exact entered.slots _
    split
    · exact entered.slots _
    split
    · exact entered.erase _
    split
    · exact entered.slots _
    · exact (entered.erase _).slots _

theorem add (earned : Earned won m) (ip : List UInt8) (port : UInt16) (services : UInt32)
    (source : List UInt8) (now : Int) :
    Earned won (m.add sha256 ip port services source now).2 := by
  unfold AddrMan.add
  split
  · exact earned
  · rename_i given
    exact earned.addLocked ⟨fun empty => given (.inl empty), fun success => absurd rfl success⟩ now

theorem attempt (earned : Earned won m) (ip : List UInt8) (port : UInt16) (now : Int) :
    Earned won (m.attempt ip port now) := by
  unfold AddrMan.attempt
  dsimp only
  split
  · exact earned
  · rename_i e found
    obtain ⟨keyed, before⟩ := earned.keyed _ _ found
    rw [show AddrEntry.keyOf ip port =
      AddrEntry.key { e with lastTry := now, attempts := e.attempts + 1 } from keyed]
    exact earned.insert ⟨before.ip, before.success⟩

/-- A connection that succeeded wins for its own address. -/
theorem good (earned : Earned won m) {ip : List UInt8} {port : UInt16} (wins : won ip port)
    (now : Int) : Earned won (m.good sha256 ip port now) := by
  unfold AddrMan.good
  dsimp only
  split
  · exact earned
  rename_i e found
  obtain ⟨keyed, before⟩ := earned.keyed _ _ found
  obtain ⟨rfl, rfl⟩ := AddrEntry.keyOf_inj keyed
  have entered := earned.insert (e := { e with lastSuccess := now, lastSeen := now, attempts := 0 })
    ⟨before.ip, fun _ => wins⟩
  split
  · exact entered
  have promoted := fun slot => entered.promote slot wins
  split
  · exact (promoted _).slots _
  split
  · exact (promoted _).slots _
  split
  · exact (promoted _).slots _
  split
  · exact ((promoted _).slots _).erase _
  · exact (promoted _).slots _

theorem loadEntry (earned : Earned won m) {e : AddrEntry} (fair : Fair won e) (now : Int) :
    Earned won (m.loadEntry sha256 now e) := by
  unfold AddrMan.loadEntry
  split
  · exact earned
  dsimp only
  have added : Earned won (m.addLocked sha256 e now).2 := earned.addLocked fair now
  split
  · exact added
  rename_i success
  split
  · exact added
  split
  · exact added
  · exact added.promote _ (fair.success success)

theorem loadEntries (earned : Earned won m) (now : Int) : ∀ {entries : List AddrEntry},
    (∀ e ∈ entries, Fair won e) → Earned won (entries.foldl (AddrMan.loadEntry sha256 now) m) := by
  intro entries
  induction entries generalizing m with
  | nil => exact fun _ => earned
  | cons e entries ih =>
      intro fair
      exact ih (earned.loadEntry (fair e List.mem_cons_self) now)
        fun e' mem => fair e' (List.mem_cons_of_mem _ mem)

/-- What a table of plain entries saves comes back fair. -/
theorem restart (earned : Earned won m)
    (plain : ∀ key e, m.mEntries.lookup key = some e → Plain e) (key : UInt64) (now : Int) :
    Earned won ((new key).load sha256 m.save now) := by
  have plain' : ∀ e ∈ m.inKeyOrder, Plain e := fun e mem => by
    obtain ⟨key, found⟩ := mem_inKeyOrder.mp mem
    exact plain key e found
  rw [load, save, getlines_saved plain']
  refine loadEntries (earned_new key) now fun e' mem => ?_
  obtain ⟨line, written, read⟩ := List.mem_filterMap.mp mem
  obtain ⟨e, mem, rfl⟩ := List.mem_map.mp written
  obtain ⟨key', found⟩ := mem_inKeyOrder.mp mem
  obtain ⟨-, fair⟩ := earned.keyed key' e found
  obtain ⟨ip, port, success⟩ := readEntry_saveLine (plain' e mem) fair.ip read
  refine ⟨ip ▸ fair.ip, ?_⟩
  rw [ip, port, success]
  exact fair.success

end Earned

/-! ### Runs -/

/-- A restart finds no blank in an address of the table, and no end of a line in a
source. -/
def Clean (m : AddrMan) : AddrOp → Prop
  | .restart _ _ => ∀ key e, m.mEntries.lookup key = some e → Plain e
  | _ => True

/-- Every restart of the run is clean. -/
def AllClean (sha256 : List UInt8 → List UInt8) (key : UInt64) (ops : List AddrOp) : Prop :=
  Run.Meets (step sha256) Clean ops (new key)

/-- Some connection to the address succeeded. -/
def Won (ops : List AddrOp) (ip : List UInt8) (port : UInt16) : Prop :=
  ∃ now, AddrOp.good ip port now ∈ ops

theorem step_earned {before : List AddrOp} {op : AddrOp} (earned : Earned (Won before) m)
    (clean : Clean m op) : Earned (Won (before ++ [op])) (step sha256 m op) := by
  have earned : Earned (Won (before ++ [op])) m :=
    earned.mono fun _ _ ⟨now, mem⟩ => ⟨now, List.mem_append_left _ mem⟩
  cases op with
  | add ip port services source now =>
      rw [step]
      split
      · exact earned.add ip port services source now
      · exact earned
  | attempt ip port now => exact earned.attempt ip port now
  | good ip port now =>
      exact earned.good ⟨now, List.mem_append_right _ (List.mem_singleton_self _)⟩ now
  | sweep now => exact earned
  | restart newKey now => exact earned.restart clean newKey now

theorem run_earned {key : UInt64} {ops : List AddrOp} (clean : AllClean sha256 key ops) :
    Earned (Won ops) (run sha256 key ops) :=
  @Run.Meets.history _ _ _ _ (fun before m => Earned (Won before) m) (fun _ _ _ => step_earned)
    ops [] _ (earned_new key) clean

/-- **Only a connection that succeeded promotes an address.** As long as no
separator of the file is in a text of the table when the node restarts, a slot
of `mTried` is held only by an address that `Good` was called for, and only
such an address has a time of success. -/
theorem promoted_by_good {key : UInt64} {ops : List AddrOp}
    (clean : AllClean sha256 key ops) :
    (∀ slot k, (run sha256 key ops).mTried.lookup slot = some k →
      ∃ ip port now, k = AddrEntry.keyOf ip port ∧ AddrOp.good ip port now ∈ ops) ∧
    ∀ k e, (run sha256 key ops).mEntries.lookup k = some e → e.lastSuccess ≠ 0 →
      ∃ now, AddrOp.good e.ip e.port now ∈ ops := by
  have earned := run_earned clean
  constructor
  · intro slot k found
    obtain ⟨ip, port, keyed, now, mem⟩ := earned.tried slot k found
    exact ⟨ip, port, now, keyed, mem⟩
  · intro k e found success
    exact (earned.keyed k e found).2.success success

private def seed : List UInt8 := text "9.9.9.9"

theorem promoted_by_good_seed :
    let ops := [.add seed 80 0 [] 1700000000, .good seed 80 1700000001, .restart 1 1700000002]
    let m := run (fun _ => []) 0 ops
    m.mTried.lookup (0, 0) = some (AddrEntry.keyOf seed 80) ∧
      ∃ ip port now, AddrEntry.keyOf seed 80 = AddrEntry.keyOf ip port ∧
        AddrOp.good ip port now ∈ ops := by
  have placed : (run (fun _ => []) 0 [.add seed 80 0 [] 1700000000, .good seed 80 1700000001,
      .restart 1 1700000002]).mTried.lookup (0, 0) = some (AddrEntry.keyOf seed 80) := by
    decide +kernel
  have clean : AllClean (fun _ => []) 0 [.add seed 80 0 [] 1700000000, .good seed 80 1700000001,
      .restart 1 1700000002] := by
    refine ⟨trivial, trivial, ?_, trivial⟩
    intro key e found
    have entries : (run (fun _ => []) 0 [.add seed 80 0 [] 1700000000,
        .good seed 80 1700000001]).mEntries.entries =
          [⟨AddrEntry.keyOf seed 80, seed, 80, 0, 1700000001, 0, 1700000001, 0, seed⟩] := by
      decide +kernel
    have only := List.mem_singleton.mp (entries ▸ AList.mem_lookup_iff.mp found)
    rw [show e = ⟨seed, 80, 0, 1700000001, 0, 1700000001, 0, seed⟩ from
      congrArg (fun entry => entry.2) only]
    have solid : (seed.all fun b => !isSpace b) = true := by decide
    exact ⟨by simpa using solid, by decide⟩
  exact ⟨placed, (promoted_by_good clean).1 _ _ placed⟩

/-- A stranger announces an address whose text goes on with the other words of a
line. It is saved as it stands, and the line reads back as another address that
was connected to: the stranger's choice is promoted. -/
theorem announced_address_promoted :
    ¬ ∀ (sha256 : List UInt8 → List UInt8) (key : UInt64) (ops : List AddrOp) (slot : Nat × Nat)
      (k : List UInt8), (run sha256 key ops).mTried.lookup slot = some k →
        ∃ ip port now, k = AddrEntry.keyOf ip port ∧ AddrOp.good ip port now ∈ ops := by
  intro earned
  have promoted : (run (fun _ => []) 0 [.add (text "9.9.9.9 80 0 1700000000 0 1 0 s") 8333 0 []
      1700000000, .restart 1 1700000000]).mTried.lookup (0, 0) =
        some (AddrEntry.keyOf seed 80) := by
    decide +kernel
  obtain ⟨ip, port, now, -, mem⟩ := earned _ _ _ _ _ promoted
  simp at mem

end AddrMan

end QmaskCore
