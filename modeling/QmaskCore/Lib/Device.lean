import Mathlib.Algebra.Ring.Nat
import Mathlib.Data.List.Infix
import Mathlib.Logic.Function.Basic
import QmaskCore.Lib.Runs

/-!
A disk that can lose what was not made durable.

A `Device` holds files that are only appended to and a database with contents of
any type. Bytes survive a power failure once the file was synced; a write to the
database does once a synchronous one follows it. `Safe good` says that `good`
holds of the durable bytes and of every content the database can come back with.
As long as more bytes can not break it (`Grows`), it is enough that every write
to the database keeps it (`Keeps`): then it survives every write, a stop in the
middle of a list of writes, and a power failure.
-/

/-- What a file holds, and how much of it is durable. -/
structure Device.File where
  bytes : List UInt8
  synced : Nat

structure Device (δ : Type) where
  files : Nat → Device.File
  db : δ
  /-- The contents a power failure can leave, the oldest first. -/
  durable : List δ

namespace Device

variable {δ : Type}

inductive Write (δ : Type) where
  | append (n : Nat) (bytes : List UInt8)
  | fsync (n : Nat)
  | put (f : δ → δ)
  /-- A synchronous write. -/
  | batch (f : δ → δ)

/-- Empty files beside a database. -/
def new (db : δ) : Device δ := ⟨fun _ => ⟨[], 0⟩, db, [db]⟩

def write (d : Device δ) : Write δ → Device δ
  | .append n bytes =>
      { d with files := Function.update d.files n ⟨(d.files n).bytes ++ bytes, (d.files n).synced⟩ }
  | .fsync n =>
      { d with files := Function.update d.files n ⟨(d.files n).bytes, (d.files n).bytes.length⟩ }
  | .put f => { d with db := f d.db, durable := d.durable ++ [f d.db] }
  | .batch f => { d with db := f d.db, durable := [f d.db] }

/-- The writes that were done when the process ends behind the `k`-th, `torn`
bytes into the next. -/
def interrupted (writes : List (Write δ)) (k torn : Nat) : List (Write δ) :=
  writes.take k ++
    match writes[k]? with
    | some (.append n bytes) => [.append n (bytes.take torn)]
    | _ => []

/-- The database comes back with its `kept`-th content, and any bytes may follow
the durable ones of a file, as many as there were at most. -/
def powerFailure (kept : Nat) (tails : Nat → List UInt8) (d : Device δ) : Device δ :=
  let db := d.durable.getD kept d.db
  { files := fun n =>
      let file := d.files n
      let bytes := file.bytes.take file.synced ++ (tails n).take (file.bytes.length - file.synced)
      ⟨bytes, bytes.length⟩
    db
    durable := [db] }

/-- The bytes of a file that a power failure leaves alone. -/
def syncedBytes (d : Device δ) (n : Nat) : List UInt8 := (d.files n).bytes.take (d.files n).synced

/-! ### What stays -/

/-- No file lost its beginning. -/
def Grows (a b : Nat → List UInt8) : Prop := ∀ n, a n <+: b n

theorem Grows.refl (a : Nat → List UInt8) : Grows a a := fun n => List.prefix_refl (a n)

/-- More bytes make no difference. -/
def Monotone (good : (Nat → List UInt8) → δ → Prop) : Prop :=
  ∀ a b db, Grows a b → good a db → good b db

/-- The property holds of whatever a power failure can leave. -/
structure Safe (good : (Nat → List UInt8) → δ → Prop) (d : Device δ) : Prop where
  now : good d.syncedBytes d.db
  later : ∀ db ∈ d.durable, good d.syncedBytes db

/-- A write to the database keeps the property. -/
def Keeps (good : (Nat → List UInt8) → δ → Prop) (d : Device δ) : Write δ → Prop
  | .append _ _ => True
  | .fsync _ => True
  | .put f => good d.syncedBytes (f d.db)
  | .batch f => good d.syncedBytes (f d.db)

section

variable {good : (Nat → List UInt8) → δ → Prop} {d : Device δ}

theorem grows_append (n : Nat) (bytes : List UInt8) :
    Grows d.syncedBytes (d.write (.append n bytes)).syncedBytes := by
  intro m
  unfold syncedBytes write
  by_cases same : m = n
  · subst same
    simp only [Function.update_self]
    rw [List.take_append]
    exact List.prefix_append _ _
  · simp only [Function.update_of_ne same]
    exact List.prefix_refl _

theorem grows_fsync (n : Nat) : Grows d.syncedBytes (d.write (.fsync n)).syncedBytes := by
  intro m
  unfold syncedBytes write
  by_cases same : m = n
  · subst same
    simp only [Function.update_self, List.take_length]
    exact List.take_prefix _ _
  · simp only [Function.update_of_ne same]
    exact List.prefix_refl _

theorem Safe.grows (mono : Monotone good) (safe : Safe good d) {d' : Device δ}
    (grows : Grows d.syncedBytes d'.syncedBytes) (db : d'.db = d.db) (durable : d'.durable = d.durable) :
    Safe good d' where
  now := db ▸ mono _ _ _ grows safe.now
  later content mem := mono _ _ _ grows (safe.later content (durable ▸ mem))

theorem Safe.write (mono : Monotone good) (safe : Safe good d) {w : Write δ} (keeps : Keeps good d w) :
    Safe good (d.write w) := by
  cases w with
  | append n bytes => exact safe.grows mono (grows_append n bytes) rfl rfl
  | fsync n => exact safe.grows mono (grows_fsync n) rfl rfl
  | put f =>
      refine ⟨keeps, fun content mem => ?_⟩
      rcases List.mem_append.mp mem with before | last
      · exact safe.later content before
      · cases List.mem_singleton.mp last
        exact keeps
  | batch f =>
      refine ⟨keeps, fun content mem => ?_⟩
      cases List.mem_singleton.mp mem
      exact keeps

theorem Safe.writes (mono : Monotone good) (safe : Safe good d) {writes : List (Write δ)}
    (keep : Run.Meets Device.write (Keeps good) writes d) : Safe good (writes.foldl Device.write d) :=
  @Run.Meets.invariant _ _ Device.write (Keeps good) (Safe good)
    (fun _ _ safe keeps => safe.write mono keeps) writes d safe keep

/-- What a power failure leaves behind the durable bytes comes on top of them. -/
theorem Safe.powerFailure (mono : Monotone good) (safe : Safe good d) (kept : Nat)
    (tails : Nat → List UInt8) : Safe good (d.powerFailure kept tails) := by
  have grows : Grows d.syncedBytes (d.powerFailure kept tails).syncedBytes := by
    intro n
    rw [syncedBytes, syncedBytes, Device.powerFailure]
    simp only [List.take_length]
    exact List.prefix_append _ _
  have left : good d.syncedBytes (d.durable.getD kept d.db) := by
    rw [List.getD_eq_getElem?_getD]
    cases found : d.durable[kept]? with
    | none => exact safe.now
    | some content => exact safe.later content (List.mem_of_getElem? found)
  refine ⟨mono _ _ _ grows left, fun content mem => ?_⟩
  cases List.mem_singleton.mp mem
  exact mono _ _ _ grows left

/-- Writes that were stopped are some of the writes, and perhaps part of one. -/
theorem Safe.interrupted (mono : Monotone good) (safe : Safe good d) {writes : List (Write δ)}
    (keep : Run.Meets Device.write (Keeps good) writes d) (k torn : Nat) :
    Safe good ((Device.interrupted writes k torn).foldl Device.write d) := by
  unfold Device.interrupted
  rw [List.foldl_append]
  have taken := Safe.writes mono safe (keep.take k)
  split
  · rename_i n bytes _
    exact @Safe.write δ good _ mono taken (.append n (bytes.take torn)) trivial
  · exact taken

/-- Where nothing else comes back, a file is its durable bytes. -/
theorem bytes_powerFailure_nil (kept n : Nat) :
    ((d.powerFailure kept fun _ => []).files n).bytes = d.syncedBytes n := by
  simp [Device.powerFailure, syncedBytes]

/-! ### How long files get -/

/-- The bytes a write adds to a file. -/
def Write.added (n : Nat) : Write δ → Nat
  | .append m bytes => if n = m then bytes.length else 0
  | _ => 0

theorem length_write (w : Write δ) (n : Nat) :
    ((d.write w).files n).bytes.length = (d.files n).bytes.length + w.added n := by
  cases w with
  | append m bytes =>
      by_cases same : n = m
      · subst same
        simp [Device.write, Write.added]
      · simp [Device.write, Write.added, same]
  | fsync m =>
      by_cases same : n = m
      · subst same
        simp [Device.write, Write.added]
      · simp [Device.write, Write.added, Function.update_of_ne same]
  | put f => rfl
  | batch f => rfl

theorem length_writes (n : Nat) : ∀ {writes : List (Write δ)} {d : Device δ},
    ((writes.foldl Device.write d).files n).bytes.length =
      (d.files n).bytes.length + (writes.map (·.added n)).sum := by
  intro writes
  induction writes with
  | nil => exact fun {d} => rfl
  | cons w writes ih =>
      intro d
      rw [List.foldl_cons, ih, length_write, List.map_cons, List.sum_cons, Nat.add_assoc]

/-- Writes that were stopped add no more than all of them. -/
theorem added_interrupted_le (n : Nat) (writes : List (Write δ)) (k torn : Nat) :
    ((Device.interrupted writes k torn).map (·.added n)).sum ≤ (writes.map (·.added n)).sum := by
  unfold Device.interrupted
  conv_rhs => rw [← List.take_append_drop k writes]
  rw [List.map_append, List.sum_append, List.map_append, List.sum_append]
  refine Nat.add_le_add_left ?_ _
  split
  · rename_i m bytes next
    obtain ⟨inside, next⟩ := List.getElem?_eq_some_iff.mp next
    rw [List.drop_eq_getElem_cons inside, next, List.map_cons, List.sum_cons, List.map_cons,
      List.sum_cons, List.map_nil, List.sum_nil, Nat.add_zero]
    refine Nat.le_add_right_of_le ?_
    simp only [Write.added]
    split
    · rw [List.length_take]
      exact Nat.min_le_right _ _
    · exact le_rfl
  · exact Nat.zero_le _

theorem length_powerFailure_le (kept : Nat) (tails : Nat → List UInt8) (n : Nat) :
    ((d.powerFailure kept tails).files n).bytes.length ≤ (d.files n).bytes.length := by
  simp only [Device.powerFailure, List.length_append, List.length_take]
  omega

end

end Device
