import Mathlib.Data.List.Forall2
import Mathlib.Tactic.SplitIfs
import Mathlib.Tactic.Tauto

/-!
Readers of a byte buffer.

A reader takes bytes off the front of what is left of a buffer, or fails: because
it says so, or because it reads past the end, which nothing stops it from.
`Accepts` says exactly which bytes a reader takes and what it makes of them, and
`Within` that it never reads past the end when so many bytes are left. Both go
along the way a reader is put together.
-/

namespace ByteReader

inductive Fault where
  | thrown (what : String)
  | outOfBounds
  deriving DecidableEq, Repr

abbrev Reader := StateT (List UInt8) (Except Fault)

/-- The next `n` bytes, whether they are there or not. -/
def bytes (n : Nat) : Reader (List UInt8) := fun rest =>
  if rest.length < n then .error .outOfBounds else .ok (rest.take n, rest.drop n)

/-- The reader goes on only when `n` bytes are left. -/
def need (n : Nat) (what : String) : Reader Unit := fun rest =>
  if rest.length < n then .error (.thrown what) else .ok ((), rest)

def refuse (wrong : Prop) [Decidable wrong] (what : String) : Reader Unit := fun rest =>
  if wrong then .error (.thrown what) else .ok ((), rest)

/-- `count` items, one after the other. -/
def items {α : Type} (r : Reader α) : (count : Nat) → Reader (List α)
  | 0 => pure []
  | count + 1 => do
      let item ← r
      let more ← items r count
      return item :: more

variable {α β : Type}

theorem bind_eq (r : Reader α) (f : α → Reader β) (data : List UInt8) :
    (r >>= f) data = match r data with
      | .error fault => .error fault
      | .ok (a, rest) => f a rest := by
  change (r data).bind (fun out => f out.1 out.2) = _
  cases r data <;> rfl

theorem bind_eq_ok {r : Reader α} {f : α → Reader β} {data rest : List UInt8} {b : β} :
    (r >>= f) data = .ok (b, rest) ↔
      ∃ a mid, r data = .ok (a, mid) ∧ f a mid = .ok (b, rest) := by
  rw [bind_eq]
  cases read : r data with
  | error fault => simp
  | ok out =>
      obtain ⟨a, mid⟩ := out
      simp

theorem need_bind (n : Nat) (what : String) (f : Unit → Reader β) (data : List UInt8) :
    (need n what >>= f) data = if data.length < n then .error (.thrown what) else f () data := by
  rw [bind_eq, need]
  split_ifs <;> rfl

theorem refuse_bind (wrong : Prop) [Decidable wrong] (what : String) (f : Unit → Reader β)
    (data : List UInt8) :
    (refuse wrong what >>= f) data = if wrong then .error (.thrown what) else f () data := by
  rw [bind_eq, refuse]
  split_ifs <;> rfl

/-! ### What a reader takes -/

/-- The reader takes the bytes that `L` relates to what it makes of them, and no others. -/
def Accepts (r : Reader α) (L : α → List UInt8 → Prop) : Prop :=
  ∀ data a rest, r data = .ok (a, rest) ↔ ∃ taken, L a taken ∧ data = taken ++ rest

theorem Accepts.congr {r : Reader α} {L L' : α → List UInt8 → Prop} (accepts : Accepts r L)
    (same : ∀ a taken, L a taken ↔ L' a taken) : Accepts r L' := by
  intro data a rest
  rw [accepts]
  exact exists_congr fun taken => and_congr_left' (same a taken)

theorem accepts_bytes (n : Nat) : Accepts (bytes n) fun b taken => b = taken ∧ taken.length = n := by
  intro data b rest
  rw [bytes]
  split
  · rename_i short
    refine ⟨nofun, ?_⟩
    rintro ⟨taken, ⟨-, length⟩, rfl⟩
    rw [List.length_append] at short
    omega
  · rename_i long
    simp only [Except.ok.injEq, Prod.mk.injEq]
    constructor
    · rintro ⟨rfl, rfl⟩
      exact ⟨_, ⟨rfl, List.length_take_of_le (Nat.le_of_not_lt long)⟩,
        (List.take_append_drop n data).symm⟩
    · rintro ⟨taken, ⟨rfl, rfl⟩, rfl⟩
      exact ⟨List.take_left, List.drop_left⟩

theorem accepts_pure (a : α) : Accepts (pure a) fun b taken => b = a ∧ taken = [] := by
  intro data b rest
  change Except.ok (a, data) = .ok (b, rest) ↔ _
  constructor
  · rintro ⟨⟩
    exact ⟨[], ⟨rfl, rfl⟩, rfl⟩
  · rintro ⟨taken, ⟨rfl, rfl⟩, rfl⟩
    rfl

/-- What two readers take one after the other. -/
theorem Accepts.bind {r : Reader α} {f : α → Reader β} {L : α → List UInt8 → Prop}
    {M : α → β → List UInt8 → Prop} (first : Accepts r L) (second : ∀ a, Accepts (f a) (M a)) :
    Accepts (r >>= f) fun b taken =>
      ∃ a front back, L a front ∧ M a b back ∧ taken = front ++ back := by
  intro data b rest
  rw [bind_eq_ok]
  constructor
  · rintro ⟨a, mid, read, readBack⟩
    obtain ⟨front, inL, rfl⟩ := (first _ _ _).mp read
    obtain ⟨back, inM, rfl⟩ := (second a _ _ _).mp readBack
    exact ⟨front ++ back, ⟨a, front, back, inL, inM, rfl⟩, (List.append_assoc ..).symm⟩
  · rintro ⟨taken, ⟨a, front, back, inL, inM, rfl⟩, rfl⟩
    exact ⟨a, back ++ rest, (first _ _ _).mpr ⟨front, inL, List.append_assoc ..⟩,
      (second a _ _ _).mpr ⟨back, inM, rfl⟩⟩

theorem Accepts.map {r : Reader α} {L : α → List UInt8 → Prop} (accepts : Accepts r L) (f : α → β) :
    Accepts (f <$> r) fun b taken => ∃ a, b = f a ∧ L a taken := by
  have both := accepts.bind fun a => accepts_pure (f a)
  rw [← map_eq_pure_bind] at both
  refine both.congr fun b taken => ?_
  constructor
  · rintro ⟨a, front, _, inL, ⟨rfl, rfl⟩, rfl⟩
    exact ⟨a, rfl, by rwa [List.append_nil]⟩
  · rintro ⟨a, rfl, inL⟩
    exact ⟨a, taken, [], inL, ⟨rfl, rfl⟩, (List.append_nil _).symm⟩

/-- Asking for bytes that are read in any case changes nothing. -/
theorem Accepts.need {r : Reader α} {L : α → List UInt8 → Prop} (accepts : Accepts r L) {n : Nat}
    (takes : ∀ a taken, L a taken → n ≤ taken.length) (what : String) :
    Accepts (need n what >>= fun _ => r) L := by
  intro data a rest
  rw [need_bind]
  split
  · rename_i short
    refine ⟨nofun, ?_⟩
    rintro ⟨taken, inL, rfl⟩
    have long := takes a taken inL
    rw [List.length_append] at short
    omega
  · exact accepts data a rest

/-- A field that is written in one way only, and what follows it. -/
theorem Accepts.field {r : Reader α} {f : α → Reader β} {write : α → List UInt8}
    {M : α → β → List UInt8 → Prop} (first : Accepts r fun a taken => taken = write a)
    (second : ∀ a, Accepts (f a) (M a)) :
    Accepts (r >>= f) fun b taken => ∃ a back, M a b back ∧ taken = write a ++ back := by
  refine (first.bind second).congr fun b taken => ?_
  constructor
  · rintro ⟨a, _, back, rfl, inM, rfl⟩
    exact ⟨a, back, inM, rfl⟩
  · rintro ⟨a, back, inM, rfl⟩
    exact ⟨a, write a, back, rfl, inM, rfl⟩

theorem Accepts.refuse {f : Unit → Reader β} {M : β → List UInt8 → Prop} (accepts : Accepts (f ()) M)
    (wrong : Prop) [Decidable wrong] (what : String) :
    Accepts (ByteReader.refuse wrong what >>= f) fun b taken => ¬ wrong ∧ M b taken := by
  intro data b rest
  rw [refuse_bind]
  split
  · rename_i bad
    exact ⟨nofun, fun ⟨_, ⟨fine, _⟩, _⟩ => absurd bad fine⟩
  · rename_i fine
    rw [accepts]
    exact exists_congr fun taken => and_congr_left' (iff_and_self.mpr fun _ => fine)

/-- A byte string of a length that is known, at the end. -/
theorem accepts_rest (n : Nat) (what : String) (f : List UInt8 → β) :
    Accepts (ByteReader.need n what >>= fun _ => bytes n >>= fun b => pure (f b)) fun c taken =>
      c = f taken ∧ taken.length = n := by
  have read : Accepts (bytes n >>= fun b => pure (f b)) fun c taken =>
      c = f taken ∧ taken.length = n := by
    refine ((accepts_bytes n).bind fun b => accepts_pure (f b)).congr fun c taken => ?_
    constructor
    · rintro ⟨b, _, _, ⟨rfl, length⟩, ⟨rfl, rfl⟩, rfl⟩
      rw [List.append_nil]
      exact ⟨rfl, length⟩
    · rintro ⟨rfl, length⟩
      exact ⟨taken, taken, [], ⟨rfl, length⟩, ⟨rfl, rfl⟩, (List.append_nil _).symm⟩
  exact read.need (fun _ taken inL => Nat.le_of_eq inL.2.symm) what

theorem accepts_items {r : Reader α} {L : α → List UInt8 → Prop} (accepts : Accepts r L) :
    ∀ count, Accepts (items r count) fun l taken =>
      l.length = count ∧ ∃ parts, List.Forall₂ L l parts ∧ taken = parts.flatten := by
  intro count
  induction count with
  | zero =>
      refine (accepts_pure []).congr fun l taken => ?_
      constructor
      · rintro ⟨rfl, rfl⟩
        exact ⟨rfl, [], .nil, rfl⟩
      · rintro ⟨none, parts, parted, rfl⟩
        cases parted with
        | nil => exact ⟨rfl, rfl⟩
        | cons => cases none
  | succ count ih =>
      refine (accepts.bind fun item => ih.bind fun more => accepts_pure (item :: more)).congr
        fun l taken => ?_
      constructor
      · rintro
          ⟨item, front, _, inL, ⟨more, back, _, ⟨length, parts, parted, rfl⟩, ⟨rfl, rfl⟩, rfl⟩, rfl⟩
        exact ⟨congrArg (· + 1) length, front :: parts, .cons inL parted, by simp⟩
      · rintro ⟨length, parts, parted, rfl⟩
        cases parted with
        | nil => cases length
        | @cons item front more parts inL parted =>
            exact ⟨item, front, parts.flatten, inL,
              ⟨more, parts.flatten, [], ⟨Nat.succ_inj.mp length, parts, parted, rfl⟩, ⟨rfl, rfl⟩,
                (List.append_nil _).symm⟩, rfl⟩

/-- What is read off the front is one thing only. -/
theorem Accepts.unique {r : Reader α} {L : α → List UInt8 → Prop} (accepts : Accepts r L) {a b : α}
    {s t x y : List UInt8} (left : L a s) (right : L b t) (same : s ++ x = t ++ y) :
    a = b ∧ x = y := by
  have readLeft := (accepts (s ++ x) a x).mpr ⟨s, left, rfl⟩
  have readRight := (accepts (s ++ x) b y).mpr ⟨t, right, same⟩
  rw [readLeft] at readRight
  simpa using readRight

theorem forall₂_written {write : α → List UInt8} {ok : α → Prop} : ∀ {l : List α}
    {parts : List (List UInt8)}, List.Forall₂ (fun a part => part = write a ∧ ok a) l parts ↔
      parts = l.map write ∧ ∀ a ∈ l, ok a
  | [], parts => by simp
  | a :: l, [] => by simp
  | a :: l, part :: parts => by
      rw [List.forall₂_cons, forall₂_written, List.map_cons, List.cons.injEq, List.forall_mem_cons]
      tauto

/-- Items that are written in one way only. -/
theorem accepts_items_field {r : Reader α} {write : α → List UInt8} {ok : α → Prop}
    (accepts : Accepts r fun a taken => taken = write a ∧ ok a) (count : Nat) :
    Accepts (items r count) fun l taken =>
      l.length = count ∧ (∀ a ∈ l, ok a) ∧ taken = l.flatMap write := by
  refine (accepts_items accepts count).congr fun l taken => and_congr_right fun _ => ?_
  constructor
  · rintro ⟨parts, parted, rfl⟩
    obtain ⟨rfl, fine⟩ := forall₂_written.mp parted
    exact ⟨fine, List.flatMap_def.symm⟩
  · rintro ⟨fine, rfl⟩
    exact ⟨_, forall₂_written.mpr ⟨rfl, fine⟩, List.flatMap_def⟩

/-! ### Reading past the end -/

/-- When `n` bytes are left the reader stays inside the buffer. -/
def Within (n : Nat) (r : Reader α) : Prop :=
  ∀ data, n ≤ data.length → r data ≠ .error .outOfBounds

theorem within_pure (n : Nat) (a : α) : Within n (pure a) := fun _ _ => nofun

theorem Within.mono {n m : Nat} {r : Reader α} (within : Within n r) (le : n ≤ m) : Within m r :=
  fun data long => within data (Nat.le_trans le long)

/-- The bytes that are read are no longer left. -/
theorem Within.bytes {n k : Nat} {f : List UInt8 → Reader β} (within : ∀ b, Within n (f b)) :
    Within (n + k) (ByteReader.bytes k >>= f) := by
  intro data long
  rw [bind_eq, ByteReader.bytes, if_neg (by omega)]
  exact within _ _ (by rw [List.length_drop]; omega)

theorem Within.field {n k : Nat} {g : List UInt8 → α} {f : α → Reader β}
    (within : ∀ a, Within n (f a)) : Within (n + k) (g <$> ByteReader.bytes k >>= f) := by
  rw [bind_map_left]
  exact Within.bytes fun b => within (g b)

theorem Within.last {n k : Nat} {g : List UInt8 → α} (le : k ≤ n) :
    Within n (g <$> ByteReader.bytes k) := by
  have read : Within (0 + k) (g <$> ByteReader.bytes k >>= pure) :=
    Within.field fun a => within_pure 0 a
  rw [bind_pure, Nat.zero_add] at read
  exact read.mono le

theorem Within.refuse {n : Nat} {wrong : Prop} [Decidable wrong] {what : String}
    {f : Unit → Reader β} (within : ¬ wrong → Within n (f ())) :
    Within n (ByteReader.refuse wrong what >>= f) := by
  intro data long
  rw [refuse_bind]
  split
  · simp
  · rename_i fine
    exact within fine data long

/-- What was asked for is there. -/
theorem Within.need {n m : Nat} {what : String} {f : Unit → Reader β} (within : Within n (f ())) :
    Within m (ByteReader.need n what >>= f) := by
  intro data _
  rw [need_bind]
  split
  · simp
  · rename_i long
    exact within data (Nat.le_of_not_lt long)

theorem Within.bind {n : Nat} {r : Reader α} {f : α → Reader β} (first : Within n r)
    (second : ∀ a, Within 0 (f a)) : Within n (r >>= f) := by
  intro data long
  have inside := first data long
  rw [bind_eq]
  cases read : r data with
  | error fault => simpa [read] using inside
  | ok out => exact second out.1 out.2 (Nat.zero_le _)

theorem Within.items {r : Reader α} (within : Within 0 r) : ∀ count, Within 0 (ByteReader.items r count)
  | 0 => within_pure 0 []
  | count + 1 => within.bind fun item => (Within.items within count).bind fun more =>
      within_pure 0 (item :: more)

end ByteReader
