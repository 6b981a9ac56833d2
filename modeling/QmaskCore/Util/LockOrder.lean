import Mathlib.Data.Finset.Range
import Mathlib.Data.List.Nodup
import Mathlib.Logic.Function.Basic
import QmaskCore.Lib.WaitsFor

/-!
`lockorder.cpp`: the lock order checker of a debug build.

`EnterLock` runs before a mutex is locked and `LeaveLock` after it is unlocked, so
what the checker believes a thread holds and what it owns are apart while it waits
or leaves. `System` has both, and its steps are those of `TrackedLock` on threads
that interleave in any order. `WellLocked` is what every run keeps.

`enterLock_aborts_iff` is when the process is stopped, in terms of what threads
owned earlier in the run. `deadlock_iff` is what is left: two threads never wait
for each other, three or more may. `ordered_run` is the discipline that rules out
both.
-/

namespace QmaskCore

namespace LockOrder

/-! ### The checker -/

structure LockSite (M : Type) where
  mutex : M
  name : String
  file : String
  line : Int

abbrev LockStack (M : Type) := List (LockSite M)

@[ext]
structure Registry (T M : Type) where
  -- A thread without an entry has an empty stack.
  lockStacks : T → LockStack M
  orders : M × M → Option (LockStack M × LockStack M)
  consistent : Bool

/-- Why the process is stopped. -/
inductive Report (M : Type) where
  | doubleLock (site held : LockSite M)
  | conflict (taking : LockSite M) (earlier current : LockStack M)

variable {T M : Type}

def describe (stack : LockStack M) : String :=
  stack.foldl (fun ss site => ss ++ "\n      " ++ site.name ++ " at " ++ site.file ++ ":" ++
    toString site.line) ""

def Report.text : Report M → String
  | .doubleLock site held =>
      "DOUBLE LOCK - " ++ site.name ++ " at " ++ site.file ++ ":" ++ toString site.line ++
        " is already held by this thread, taken at " ++ held.file ++ ":" ++ toString held.line ++
        ". Locking a non-recursive mutex twice from one thread is undefined behaviour."
  | .conflict taking earlier current =>
      "LOCK ORDER CONFLICT - two code paths take the same two locks in " ++
        "opposite orders, which will deadlock the node when they overlap." ++
        "\n\n  Taking " ++ taking.name ++ " at " ++ taking.file ++ ":" ++ toString taking.line ++
        "\n  while this thread holds:" ++ describe current ++
        "\n\n  But another path took them the other way round:" ++ describe earlier ++
        "\n\n  Fix the order in one of the two places rather than hoping " ++
        "the two never run together."

namespace Registry

def new : Registry T M := ⟨fun _ => [], fun _ => none, true⟩

variable [DecidableEq T] [DecidableEq M]

/-- `orders[forward]` is set. -/
def record (first second : M) (attempted : LockStack M) (reg : Registry T M) : Registry T M :=
  { reg with orders := Function.update reg.orders (first, second) (some (attempted, attempted)) }

/-- The loop over the locks that are held, `attempted` being all of them with the new one. -/
def recordOrders (site : LockSite M) (attempted : LockStack M) :
    LockStack M → Registry T M → Registry T M × Option (Report M)
  | [], reg => (reg, none)
  | held :: rest, reg =>
      if (reg.orders (held.mutex, site.mutex)).isSome then recordOrders site attempted rest reg
      else
        match reg.orders (site.mutex, held.mutex) with
        | some (earlier, _) =>
            ({ reg with consistent := false }, some (.conflict site earlier attempted))
        | none => recordOrders site attempted rest (reg.record held.mutex site.mutex attempted)

def enterLock (t : T) (site : LockSite M) (reg : Registry T M) :
    Registry T M × Option (Report M) :=
  let stack := reg.lockStacks t
  match stack.find? fun held => held.mutex = site.mutex with
  | some held => (reg, some (.doubleLock site held))
  | none =>
      match recordOrders site (stack ++ [site]) stack reg with
      | (reg, some report) => (reg, some report)
      | (reg, none) =>
          ({ reg with lockStacks := Function.update reg.lockStacks t (stack ++ [site]) }, none)

/-- The last entry of a mutex is taken out. -/
def eraseLast (stack : LockStack M) (mutex : M) : LockStack M :=
  (stack.reverse.eraseP fun held => held.mutex = mutex).reverse

def leaveLock (t : T) (mutex : M) (reg : Registry T M) : Registry T M :=
  { reg with lockStacks := Function.update reg.lockStacks t (eraseLast (reg.lockStacks t) mutex) }

def holdsLock (t : T) (mutex : M) (reg : Registry T M) : Bool :=
  (reg.lockStacks t).any fun held => held.mutex = mutex

def lockOrderIsConsistent (reg : Registry T M) : Bool := reg.consistent

def heldLocks (t : T) (reg : Registry T M) : String :=
  match reg.lockStacks t with
  | [] => "(none)"
  | stack => describe stack

/-- What `AssertLockHeld` stops the process with. -/
def assertLockHeld (t : T) (mutex : M) (name file : String) (line : Int) (reg : Registry T M) :
    Option String :=
  if reg.holdsLock t mutex then none
  else some ("LOCK NOT HELD - " ++ name ++ " was expected to be held at " ++ file ++ ":" ++
    toString line ++ ", but this thread holds:" ++ reg.heldLocks t ++
    "\n  A function that reads shared state without the lock its " ++
    "caller was supposed to take will read torn values under load.")

/-- What `AssertLockNotHeld` stops the process with. -/
def assertLockNotHeld (t : T) (mutex : M) (name file : String) (line : Int)
    (reg : Registry T M) : Option String :=
  if ¬ reg.holdsLock t mutex then none
  else some ("LOCK HELD WHEN IT SHOULD NOT BE - " ++ name ++ " at " ++ file ++ ":" ++
    toString line ++ ". This usually means a function that takes the lock itself was " ++
    "called from inside a section that already holds it, which on a " ++
    "non-recursive mutex is a deadlock with itself.")

end Registry

/-! ### Threads that lock -/

/-- Where a thread is in `TrackedLock`: between `EnterLock` and the mutex it waits
for, or between a mutex given back and `LeaveLock`, or in neither. -/
inductive Phase (M : Type) where
  | running
  | waiting (mutex : M)
  | leaving (mutex : M)
deriving DecidableEq

@[ext]
structure System (T M : Type) where
  reg : Registry T M
  phase : T → Phase M
  owner : M → Option T
  aborted : Option (Report M)

/-- The steps of a `TrackedLock`, from its construction to its end. -/
inductive Act (T M : Type) where
  | enter (t : T) (site : LockSite M)
  | acquire (t : T)
  | unlock (t : T) (mutex : M)
  | leave (t : T)

namespace System

def new : System T M := ⟨.new, fun _ => .running, fun _ => none, none⟩

variable [DecidableEq T] [DecidableEq M]

/-- A step, of a process that runs. Only a mutex nobody owns is acquired, and a
thread gives back what it owns. -/
def step (s : System T M) (act : Act T M) : Option (System T M) :=
  if s.aborted.isSome then none
  else
    match act with
    | .enter t site =>
        if s.phase t = .running then
          match s.reg.enterLock t site with
          | (reg, some report) => some { s with reg, aborted := some report }
          | (reg, none) =>
              some { s with reg, phase := Function.update s.phase t (.waiting site.mutex) }
        else none
    | .acquire t =>
        match s.phase t with
        | .waiting mutex =>
            if s.owner mutex = none then
              some { s with
                owner := Function.update s.owner mutex (some t)
                phase := Function.update s.phase t .running }
            else none
        | _ => none
    | .unlock t mutex =>
        if s.phase t = .running ∧ s.owner mutex = some t then
          some { s with
            owner := Function.update s.owner mutex none
            phase := Function.update s.phase t (.leaving mutex) }
        else none
    | .leave t =>
        match s.phase t with
        | .leaving mutex =>
            some { s with
              reg := s.reg.leaveLock t mutex
              phase := Function.update s.phase t .running }
        | _ => none

/-- The steps of all threads, one after the other. -/
def run (s : System T M) (acts : List (Act T M)) : Option (System T M) := acts.foldlM step s

/-- A thread waits for a mutex. -/
def Waits (s : System T M) (t : T) (mutex : M) : Prop := s.phase t = .waiting mutex

def Owns (s : System T M) (t : T) (mutex : M) : Prop := s.owner mutex = some t

/-- The mutexes on the stack of a thread. -/
def stacked (s : System T M) (t : T) : List M := (s.reg.lockStacks t).map (·.mutex)

end System

/-! ### What the checker records -/

namespace Registry

/-- The first was held when the second was taken. -/
def Recorded (reg : Registry T M) (first second : M) : Prop :=
  (reg.orders (first, second)).isSome = true

variable [DecidableEq M]

theorem recorded_record {reg : Registry T M} {first second : M} {attempted : LockStack M}
    {a b : M} : (reg.record first second attempted).Recorded a b ↔
      reg.Recorded a b ∨ b = second ∧ a = first := by
  simp only [Recorded, record, Function.update_apply, Prod.mk.injEq]
  split
  · rename_i same
    simp [same]
  · rename_i other
    simp [show ¬ (b = second ∧ a = first) from fun same => other same.symm]

/-- Recording goes through when no lock that is held was ever taken after the new one. -/
theorem recordOrders_none {site : LockSite M} {attempted : LockStack M} :
    ∀ {held : LockStack M} {reg reg' : Registry T M}, site.mutex ∉ held.map (·.mutex) →
      recordOrders site attempted held reg = (reg', none) →
      reg'.lockStacks = reg.lockStacks ∧ reg'.consistent = reg.consistent ∧
      (∀ a b, reg'.Recorded a b ↔
        reg.Recorded a b ∨ b = site.mutex ∧ a ∈ held.map (·.mutex)) ∧
      ∀ h ∈ held.map (·.mutex), reg.Recorded site.mutex h → reg.Recorded h site.mutex
  | [], reg, reg', _, done => by
      obtain ⟨rfl, -⟩ := Prod.mk.inj done
      simp
  | held :: rest, reg, reg', fresh, done => by
      obtain ⟨apart, fresh⟩ := not_or.mp (List.mem_cons.not.mp fresh)
      simp only [List.map_cons, List.mem_cons, forall_eq_or_imp]
      rw [recordOrders] at done
      split at done
      · rename_i known
        obtain ⟨same, flag, recorded, ordered⟩ := recordOrders_none fresh done
        refine ⟨same, flag, fun a b => ?_, fun _ => known, ordered⟩
        rw [recorded]
        constructor
        · rintro (old | ⟨rfl, mem⟩)
          · exact .inl old
          · exact .inr ⟨rfl, .inr mem⟩
        · rintro (old | ⟨rfl, rfl | mem⟩)
          · exact .inl old
          · exact .inl known
          · exact .inr ⟨rfl, mem⟩
      · split at done
        · cases done
        · rename_i unknown reverse
          have never : ¬ reg.Recorded site.mutex held.mutex := by simp [Recorded, reverse]
          obtain ⟨same, flag, recorded, ordered⟩ := recordOrders_none fresh done
          refine ⟨same, flag, fun a b => ?_, fun taken => absurd taken never, fun h mem taken => ?_⟩
          · rw [recorded, recorded_record, or_assoc, ← and_or_left]
          · rcases recorded_record.mp (ordered h mem (recorded_record.mpr (.inl taken))) with
              old | ⟨-, rfl⟩
            · exact old
            · exact absurd taken never

/-- What stops it is a lock that was taken after the new one. -/
theorem recordOrders_report {site : LockSite M} {attempted : LockStack M} :
    ∀ {held : LockStack M} {reg reg' : Registry T M} {report : Report M},
      site.mutex ∉ held.map (·.mutex) →
      recordOrders site attempted held reg = (reg', some report) →
      ∃ h ∈ held.map (·.mutex), reg.Recorded site.mutex h
  | [], _, _, _, _, done => by cases (Prod.mk.inj done).2
  | held :: rest, reg, reg', report, fresh, done => by
      obtain ⟨apart, fresh⟩ := not_or.mp (List.mem_cons.not.mp fresh)
      rw [recordOrders] at done
      split at done
      · obtain ⟨h, mem, taken⟩ := recordOrders_report fresh done
        exact ⟨h, List.mem_cons_of_mem _ mem, taken⟩
      · split at done
        · rename_i reverse
          exact ⟨held.mutex, List.mem_cons_self, by simp [Recorded, reverse]⟩
        · obtain ⟨h, mem, taken⟩ := recordOrders_report fresh done
          refine ⟨h, List.mem_cons_of_mem _ mem, ?_⟩
          rcases recorded_record.mp taken with old | ⟨-, same⟩
          · exact old
          · exact absurd same apart

/-- What `EnterLock` leaves behind when it goes through. -/
structure Entered (t : T) (site : LockSite M) (reg reg' : Registry T M) [DecidableEq T] : Prop where
  fresh : site.mutex ∉ (reg.lockStacks t).map (·.mutex)
  consistent : reg'.consistent = reg.consistent
  pushed : reg'.lockStacks = Function.update reg.lockStacks t (reg.lockStacks t ++ [site])
  recorded : ∀ a b, reg'.Recorded a b ↔
    reg.Recorded a b ∨ b = site.mutex ∧ a ∈ (reg.lockStacks t).map (·.mutex)
  unopposed : ∀ h ∈ (reg.lockStacks t).map (·.mutex),
    reg.Recorded site.mutex h → reg.Recorded h site.mutex

variable [DecidableEq T]

omit [DecidableEq T] in
theorem not_mem_of_find? {stack : LockStack M} {mutex : M}
    (absent : stack.find? (fun held => held.mutex = mutex) = none) :
    mutex ∉ stack.map (·.mutex) := by
  intro mem
  obtain ⟨held, mem, same⟩ := List.mem_map.mp mem
  exact absurd (List.find?_eq_none.mp absent held mem) (by simp [same])

theorem enterLock_none {t : T} {site : LockSite M} {reg reg' : Registry T M}
    (done : reg.enterLock t site = (reg', none)) : Entered t site reg reg' := by
  rw [enterLock] at done
  split at done
  · cases (Prod.mk.inj done).2
  · rename_i absent
    have fresh := not_mem_of_find? absent
    split at done
    · cases (Prod.mk.inj done).2
    · rename_i between recording
      obtain ⟨rfl, -⟩ := Prod.mk.inj done
      obtain ⟨kept, flag, recorded, unopposed⟩ := recordOrders_none fresh recording
      exact ⟨fresh, flag, by rw [kept], recorded, unopposed⟩

/-- It stops for a lock that is held already, or for one that was taken after the new one. -/
theorem enterLock_report {t : T} {site : LockSite M} {reg reg' : Registry T M}
    {report : Report M} (done : reg.enterLock t site = (reg', some report)) :
    site.mutex ∈ (reg.lockStacks t).map (·.mutex) ∨
      ∃ h ∈ (reg.lockStacks t).map (·.mutex), reg.Recorded site.mutex h := by
  rw [enterLock] at done
  split at done
  · rename_i held found
    refine .inl (List.mem_map.mpr ⟨held, List.mem_of_find?_eq_some found, ?_⟩)
    simpa using List.find?_some found
  · rename_i absent
    have fresh := not_mem_of_find? absent
    split at done
    · rename_i recording
      exact .inr (recordOrders_report fresh recording)
    · cases (Prod.mk.inj done).2

theorem map_eraseLast (stack : LockStack M) (mutex : M) :
    (eraseLast stack mutex).map (·.mutex) =
      ((stack.map (·.mutex)).reverse.erase mutex).reverse := by
  rw [eraseLast, List.erase_eq_eraseP', ← List.map_reverse, List.eraseP_map, List.map_reverse]
  rfl

end Registry

/-! ### What every step keeps -/

namespace System

variable [DecidableEq T] [DecidableEq M]

/-- The steps that do not stop the process. -/
inductive Step (s : System T M) : Act T M → System T M → Prop
  | enter {t : T} {site : LockSite M} {reg : Registry T M} (running : s.phase t = .running)
      (entered : s.reg.Entered t site reg) :
      Step s (.enter t site)
        { s with reg, phase := Function.update s.phase t (.waiting site.mutex) }
  | acquire {t : T} {mutex : M} (waits : s.phase t = .waiting mutex)
      (free : s.owner mutex = none) :
      Step s (.acquire t) { s with
        owner := Function.update s.owner mutex (some t)
        phase := Function.update s.phase t .running }
  | unlock {t : T} {mutex : M} (running : s.phase t = .running) (owns : s.Owns t mutex) :
      Step s (.unlock t mutex) { s with
        owner := Function.update s.owner mutex none
        phase := Function.update s.phase t (.leaving mutex) }
  | leave {t : T} {mutex : M} (leaves : s.phase t = .leaving mutex) :
      Step s (.leave t) { s with
        reg := s.reg.leaveLock t mutex
        phase := Function.update s.phase t .running }

/-- A step keeps the process going, or it is one of `EnterLock`, which stops it. -/
theorem step_cases {s s' : System T M} {act : Act T M} (taken : s.step act = some s') :
    s.aborted = none ∧ (Step s act s' ∨ ∃ t site reg report, act = .enter t site ∧
      s.phase t = .running ∧ s' = { s with reg, aborted := some report }) := by
  unfold step at taken
  split at taken
  · cases taken
  · rename_i running
    refine ⟨Option.not_isSome_iff_eq_none.mp running, ?_⟩
    cases act with
    | enter t site =>
        simp only at taken
        split at taken
        · rename_i free
          split at taken
          · exact .inr ⟨t, site, _, _, rfl, free, (Option.some.inj taken).symm⟩
          · rename_i entering
            obtain rfl := Option.some.inj taken
            exact .inl (.enter free (Registry.enterLock_none entering))
        · cases taken
    | acquire t =>
        simp only at taken
        split at taken
        · rename_i waits
          split at taken
          · rename_i free
            obtain rfl := Option.some.inj taken
            exact .inl (.acquire waits free)
          · cases taken
        · cases taken
    | unlock t mutex =>
        simp only at taken
        split at taken
        · rename_i both
          obtain rfl := Option.some.inj taken
          exact .inl (.unlock both.1 both.2)
        · cases taken
    | leave t =>
        simp only at taken
        split at taken
        · rename_i leaves
          obtain rfl := Option.some.inj taken
          exact .inl (.leave leaves)
        · cases taken

theorem step_of_running {s s' : System T M} {act : Act T M} (taken : s.step act = some s')
    (goes : s'.aborted = none) : s.aborted = none ∧ Step s act s' := by
  obtain ⟨went, kept | ⟨t, site, reg, report, -, -, rfl⟩⟩ := step_cases taken
  · exact ⟨went, kept⟩
  · cases goes

theorem Step.aborted {s s' : System T M} {act : Act T M} (taken : Step s act s') :
    s'.aborted = s.aborted := by
  cases taken <;> rfl

/-- What the checker believes and what the threads own, in a process that runs. -/
structure WellLocked (s : System T M) : Prop where
  nodup : ∀ t, (s.stacked t).Nodup
  mem_stacked : ∀ t m, m ∈ s.stacked t ↔
    s.Owns t m ∨ s.phase t = .waiting m ∨ s.phase t = .leaving m
  apart : ∀ t m, s.phase t = .waiting m ∨ s.phase t = .leaving m → ¬ s.Owns t m
  last : ∀ t m, s.phase t = .waiting m → ∃ below, s.stacked t = below ++ [m]
  ordered : ∀ t, (s.stacked t).Pairwise s.reg.Recorded
  asymm : ∀ a b, s.reg.Recorded a b → ¬ s.reg.Recorded b a
  consistent : s.reg.consistent = true

omit [DecidableEq T] [DecidableEq M] in
theorem wellLocked_new : (new : System T M).WellLocked where
  nodup _ := List.nodup_nil
  mem_stacked _ _ := by simp [new, stacked, Registry.new, Owns]
  apart _ _ := by simp [new]
  last _ _ := by simp [new]
  ordered _ := List.Pairwise.nil
  asymm _ _ := by simp [new, Registry.new, Registry.Recorded]
  consistent := rfl

namespace WellLocked

variable {s : System T M} {t : T} {m : M}

omit [DecidableEq T] [DecidableEq M] in
/-- A thread that runs has on its stack what it owns. -/
theorem mem_iff_owns (locked : s.WellLocked) (running : s.phase t = .running) :
    m ∈ s.stacked t ↔ s.Owns t m := by
  simp [locked.mem_stacked, running]

omit [DecidableEq M] in
theorem enter (locked : s.WellLocked) {site : LockSite M} {reg : Registry T M}
    (running : s.phase t = .running) (entered : s.reg.Entered t site reg) :
    WellLocked { s with reg, phase := Function.update s.phase t (.waiting site.mutex) } := by
  set s' : System T M := { s with reg, phase := Function.update s.phase t (.waiting site.mutex) }
  have own : s'.stacked t = s.stacked t ++ [site.mutex] := by
    simp [s', stacked, entered.pushed]
  have other : ∀ {u}, u ≠ t → s'.stacked u = s.stacked u := by
    intro u ne
    simp [s', stacked, entered.pushed, ne]
  have fresh : site.mutex ∉ s.stacked t := entered.fresh
  have old : ∀ {a b}, s.reg.Recorded a b → reg.Recorded a b := fun before =>
    (entered.recorded _ _).mpr (.inl before)
  have phase : s'.phase t = .waiting site.mutex := Function.update_self ..
  have phases : ∀ {u}, u ≠ t → s'.phase u = s.phase u := fun ne => Function.update_of_ne ne ..
  refine ⟨fun u => ?_, fun u n => ?_, fun u n => ?_, fun u n => ?_, fun u => ?_, ?_,
    entered.consistent.trans locked.consistent⟩
  · by_cases same : u = t
    · subst same
      rw [own, ← List.concat_eq_append]
      exact (locked.nodup u).concat fresh
    · rw [other same]
      exact locked.nodup u
  · by_cases same : u = t
    · subst same
      rw [own, phase, List.mem_append, locked.mem_iff_owns running, List.mem_singleton]
      simp [s', Owns, eq_comm]
    · rw [other same, phases same]
      exact locked.mem_stacked u n
  · by_cases same : u = t
    · subst same
      rw [phase]
      rintro (waits | leaves)
      · obtain rfl := Phase.waiting.inj waits
        exact fun owns => fresh ((locked.mem_iff_owns running).mpr owns)
      · cases leaves
    · rw [phases same]
      exact locked.apart u n
  · by_cases same : u = t
    · subst same
      rw [phase]
      intro waits
      obtain rfl := Phase.waiting.inj waits
      exact ⟨_, own⟩
    · rw [phases same, other same]
      exact locked.last u n
  · by_cases same : u = t
    · subst same
      rw [own, List.pairwise_append]
      refine ⟨(locked.ordered u).imp old, List.pairwise_singleton _ _, fun a mem b single => ?_⟩
      rw [List.mem_singleton] at single
      exact (entered.recorded _ _).mpr (.inr ⟨single, mem⟩)
    · rw [other same]
      exact (locked.ordered u).imp old
  · intro a b there back
    rcases (entered.recorded a b).mp there with there | ⟨rfl, memA⟩
    · rcases (entered.recorded b a).mp back with back | ⟨rfl, memB⟩
      · exact locked.asymm a b there back
      · exact locked.asymm _ _ there (entered.unopposed b memB there)
    · rcases (entered.recorded _ a).mp back with back | ⟨rfl, memB⟩
      · exact locked.asymm _ _ back (entered.unopposed a memA back)
      · exact fresh memB

theorem acquire (locked : s.WellLocked) (waits : s.phase t = .waiting m) (free : s.owner m = none) :
    WellLocked { s with
      owner := Function.update s.owner m (some t)
      phase := Function.update s.phase t .running } := by
  set s' : System T M := { s with
    owner := Function.update s.owner m (some t)
    phase := Function.update s.phase t .running }
  have phase : s'.phase t = .running := Function.update_self ..
  have phases : ∀ {u}, u ≠ t → s'.phase u = s.phase u := fun ne => Function.update_of_ne ne ..
  have owns : ∀ {u n}, s'.Owns u n ↔ if n = m then u = t else s.Owns u n := by
    intro u n
    by_cases same : n = m
    · subst same
      simp [s', Owns, eq_comm]
    · simp [s', Owns, same]
  have unowned : ∀ {u}, ¬ s.Owns u m := by simp [Owns, free]
  refine ⟨locked.nodup, fun u n => ?_, fun u n => ?_, fun u n => ?_, locked.ordered,
    locked.asymm, locked.consistent⟩
  · have before := locked.mem_stacked u n
    rw [show s'.stacked u = s.stacked u from rfl, before, owns]
    by_cases same : u = t
    · subst same
      rw [phase, waits]
      by_cases new : n = m
      · simp [new]
      · simp [new, Ne.symm new]
    · rw [phases same]
      by_cases new : n = m
      · subst new
        simp [same, unowned]
      · simp [new]
  · by_cases same : u = t
    · subst same
      simp [phase]
    · rw [phases same, owns]
      intro held
      split
      · exact same
      · exact locked.apart u n held
  · by_cases same : u = t
    · subst same
      simp [phase]
    · rw [phases same]
      exact locked.last u n

theorem unlock (locked : s.WellLocked) (running : s.phase t = .running) (owned : s.Owns t m) :
    WellLocked { s with
      owner := Function.update s.owner m none
      phase := Function.update s.phase t (.leaving m) } := by
  set s' : System T M := { s with
    owner := Function.update s.owner m none
    phase := Function.update s.phase t (.leaving m) }
  have phase : s'.phase t = .leaving m := Function.update_self ..
  have phases : ∀ {u}, u ≠ t → s'.phase u = s.phase u := fun ne => Function.update_of_ne ne ..
  have owns : ∀ {u n}, s'.Owns u n ↔ n ≠ m ∧ s.Owns u n := by
    intro u n
    by_cases same : n = m
    · subst same
      simp [s', Owns]
    · simp [s', Owns, same]
  have only : ∀ {u}, s.Owns u m → u = t := fun also => Option.some.inj (also.symm.trans owned)
  refine ⟨locked.nodup, fun u n => ?_, fun u n => ?_, fun u n => ?_, locked.ordered,
    locked.asymm, locked.consistent⟩
  · rw [show s'.stacked u = s.stacked u from rfl, locked.mem_stacked u n, owns]
    by_cases same : u = t
    · subst same
      rw [phase, running]
      by_cases new : n = m
      · subst new
        simp [owned]
      · simp [new, Ne.symm new]
    · rw [phases same]
      by_cases new : n = m
      · subst new
        simp [show ¬ s.Owns u n from fun also => same (only also)]
      · simp [new]
  · by_cases same : u = t
    · subst same
      rw [phase, owns]
      rintro (waits | leaves)
      · cases waits
      · obtain rfl := Phase.leaving.inj leaves
        exact fun both => both.1 rfl
    · rw [phases same, owns]
      exact fun held both => locked.apart u n held both.2
  · by_cases same : u = t
    · subst same
      simp [phase]
    · rw [phases same]
      exact locked.last u n

theorem leave (locked : s.WellLocked) (leaves : s.phase t = .leaving m) :
    WellLocked { s with
      reg := s.reg.leaveLock t m
      phase := Function.update s.phase t .running } := by
  set s' : System T M := { s with
    reg := s.reg.leaveLock t m
    phase := Function.update s.phase t .running }
  have phase : s'.phase t = .running := Function.update_self ..
  have phases : ∀ {u}, u ≠ t → s'.phase u = s.phase u := fun ne => Function.update_of_ne ne ..
  have own : s'.stacked t = ((s.stacked t).reverse.erase m).reverse := by
    simp [s', stacked, Registry.leaveLock, Registry.map_eraseLast]
  have other : ∀ {u}, u ≠ t → s'.stacked u = s.stacked u := by
    intro u ne
    simp [s', stacked, Registry.leaveLock, ne]
  have nodup := List.nodup_reverse.mpr (locked.nodup t)
  have erased : ∀ {n}, n ∈ s'.stacked t ↔ n ≠ m ∧ n ∈ s.stacked t := by
    intro n
    rw [own, List.mem_reverse, nodup.mem_erase_iff, List.mem_reverse]
  have sublist : (s'.stacked t).Sublist (s.stacked t) := by
    rw [own, ← List.reverse_sublist, List.reverse_reverse]
    exact List.erase_sublist
  refine ⟨fun u => ?_, fun u n => ?_, fun u n => ?_, fun u n => ?_, fun u => ?_,
    locked.asymm, locked.consistent⟩
  · by_cases same : u = t
    · subst same
      exact (locked.nodup u).sublist sublist
    · rw [other same]
      exact locked.nodup u
  · by_cases same : u = t
    · subst same
      rw [erased, phase, locked.mem_stacked, leaves]
      have apart := locked.apart u m (.inr leaves)
      by_cases new : n = m
      · subst new
        simp [show ¬ s'.Owns u n from apart]
      · simp [new, Ne.symm new, show s'.Owns u n ↔ s.Owns u n from .rfl]
    · rw [other same, phases same]
      exact locked.mem_stacked u n
  · by_cases same : u = t
    · subst same
      simp [phase]
    · rw [phases same]
      exact locked.apart u n
  · by_cases same : u = t
    · subst same
      simp [phase]
    · rw [phases same, other same]
      exact locked.last u n
  · by_cases same : u = t
    · subst same
      exact (locked.ordered u).sublist sublist
    · rw [other same]
      exact locked.ordered u

theorem step {s' : System T M} {act : Act T M} (locked : s.WellLocked) (taken : Step s act s') :
    s'.WellLocked := by
  cases taken with
  | enter running entered => exact locked.enter running entered
  | acquire waits free => exact locked.acquire waits free
  | unlock running owns => exact locked.unlock running owns
  | leave leaves => exact locked.leave leaves

omit [DecidableEq T] [DecidableEq M] in
/-- A thread that waits holds only what was recorded before what it waits for. -/
theorem recorded_of_waits (locked : s.WellLocked) {h : M} (owns : s.Owns t h)
    (waits : s.Waits t m) : s.reg.Recorded h m := by
  obtain ⟨below, whole⟩ := locked.last t m waits
  have mem := (locked.mem_stacked t h).mpr (.inl owns)
  have apart := locked.apart t m (.inl waits)
  have ordered := locked.ordered t
  rw [whole] at mem ordered
  rcases List.mem_append.mp mem with under | top
  · exact (List.pairwise_append.mp ordered).2.2 h under m (List.mem_singleton_self m)
  · rw [List.mem_singleton] at top
    exact absurd (top ▸ owns) apart

end WellLocked

omit [DecidableEq T] in
/-- What the asserts see. A thread that runs is told of exactly what it owns. -/
theorem holdsLock_iff {s : System T M} (locked : s.WellLocked) (t : T) (m : M) :
    s.reg.holdsLock t m = true ↔ s.Owns t m ∨ s.phase t = .waiting m ∨ s.phase t = .leaving m := by
  rw [← locked.mem_stacked, Registry.holdsLock, stacked]
  simp [List.any_eq_true]

/-! ### Runs -/

/-- What holds of a new process and is kept by its steps, the steps so far at hand. -/
theorem run_history {s₀ : System T M} {p : List (Act T M) → System T M → Prop} (start : p [] s₀)
    (keeps : ∀ before s act s', s₀.run before = some s → p before s → Step s act s' →
      p (before ++ [act]) s') {acts : List (Act T M)} :
    ∀ {s}, s₀.run acts = some s → s.aborted = none → p acts s := by
  induction acts using List.reverseRecOn with
  | nil =>
      intro s ran _
      obtain rfl := Option.some.inj ran
      exact start
  | append_singleton acts act ih =>
      intro s ran goes
      rw [run, List.foldlM_append, Option.bind_eq_bind, Option.bind_eq_some_iff] at ran
      obtain ⟨between, ran, last⟩ := ran
      rw [List.foldlM_cons, Option.bind_eq_bind, Option.bind_eq_some_iff] at last
      obtain ⟨s', taken, done⟩ := last
      obtain rfl := Option.some.inj done
      obtain ⟨went, taken⟩ := step_of_running taken goes
      exact keeps acts between act s' ran (ih ran went) taken

theorem wellLocked_run {acts : List (Act T M)} {s : System T M} (ran : new.run acts = some s)
    (goes : s.aborted = none) : s.WellLocked :=
  run_history (p := fun _ s => s.WellLocked) wellLocked_new
    (fun _ _ _ _ _ locked taken => locked.step taken) ran goes

/-- In the run a thread that owned the first entered for the second. -/
def Took (acts : List (Act T M)) (first second : M) : Prop :=
  ∃ before t site after s, acts = before ++ .enter t site :: after ∧ site.mutex = second ∧
    new.run before = some s ∧ s.Owns t first

theorem took_append_singleton {acts : List (Act T M)} {act : Act T M} {s : System T M}
    (ran : new.run acts = some s) {a b : M} : Took (acts ++ [act]) a b ↔
      Took acts a b ∨ ∃ t site, act = .enter t site ∧ site.mutex = b ∧ s.Owns t a := by
  constructor
  · rintro ⟨before, t, site, after, s', split, same, ran', owns⟩
    rcases after.eq_nil_or_concat with rfl | ⟨more, last, rfl⟩
    · obtain ⟨rfl, lastEq⟩ := List.append_inj' split rfl
      obtain rfl := Option.some.inj (ran.symm.trans ran')
      exact .inr ⟨t, site, List.singleton_inj.mp lastEq, same, owns⟩
    · have split : acts ++ [act] = (before ++ .enter t site :: more) ++ [last] := by
        simpa using split
      obtain ⟨rfl, -⟩ := List.append_inj' split rfl
      exact .inl ⟨before, t, site, more, s', rfl, same, ran', owns⟩
  · rintro (⟨before, t, site, after, s', rfl, same, ran', owns⟩ | ⟨t, site, rfl, same, owns⟩)
    · exact ⟨before, t, site, after ++ [act], s', by simp, same, ran', owns⟩
    · exact ⟨acts, t, site, [], s, rfl, same, ran, owns⟩

/-- What is recorded is what was done. -/
theorem recorded_iff_took {acts : List (Act T M)} {s : System T M} (ran : new.run acts = some s)
    (goes : s.aborted = none) (a b : M) : s.reg.Recorded a b ↔ Took acts a b := by
  refine (run_history (p := fun acts s => s.WellLocked ∧ ∀ a b, s.reg.Recorded a b ↔ Took acts a b)
    ⟨wellLocked_new, fun a b => ?_⟩ ?_ ran goes).2 a b
  · simp [new, Registry.new, Registry.Recorded, Took]
  · rintro before s act s' ran ⟨locked, ih⟩ taken
    refine ⟨locked.step taken, fun a b => ?_⟩
    rw [took_append_singleton ran, ← ih]
    cases taken with
    | @enter t site reg running entered =>
        change reg.Recorded a b ↔ _
        rw [entered.recorded]
        change _ ∨ b = site.mutex ∧ a ∈ s.stacked t ↔ _
        rw [locked.mem_iff_owns running]
        constructor
        · rintro (old | ⟨rfl, owns⟩)
          · exact .inl old
          · exact .inr ⟨t, site, rfl, rfl, owns⟩
        · rintro (old | ⟨u, other, same, rfl, owns⟩)
          · exact .inl old
          · obtain ⟨rfl, rfl⟩ := Act.enter.inj same
            exact .inr ⟨rfl, owns⟩
    | acquire waits free => simp
    | unlock running owns => simp
    | leave leaves => simp [Registry.Recorded, Registry.leaveLock]

/-! ### When the process is stopped -/

theorem stopped_iff {acts : List (Act T M)} {s : System T M}
    (ran : new.run acts = some s) (goes : s.aborted = none) {t : T} (running : s.phase t = .running)
    (site : LockSite M) : (∃ s', s.step (.enter t site) = some s' ∧ s'.aborted.isSome) ↔
      s.Owns t site.mutex ∨ ∃ held, s.Owns t held ∧ Took acts site.mutex held := by
  have locked := wellLocked_run ran goes
  have stacked : ∀ m, m ∈ (s.reg.lockStacks t).map (·.mutex) ↔ s.Owns t m := fun m =>
    locked.mem_iff_owns running
  rcases entering : s.reg.enterLock t site with ⟨reg, _ | report⟩
  · have entered := Registry.enterLock_none entering
    constructor
    · rintro ⟨s', taken, stopped⟩
      have same : s' = { s with reg, phase := Function.update s.phase t (.waiting site.mutex) } := by
        simpa [System.step, goes, running, entering] using taken.symm
      simp [same, goes] at stopped
    · rintro (owns | ⟨held, owns, took⟩)
      · exact absurd ((stacked _).mpr owns) entered.fresh
      · have there := (recorded_iff_took ran goes _ _).mpr took
        exact absurd there (locked.asymm _ _
          (entered.unopposed held ((stacked held).mpr owns) there))
  · constructor
    · intro _
      rcases Registry.enterLock_report entering with own | ⟨held, mem, there⟩
      · exact .inl ((stacked _).mp own)
      · exact .inr ⟨held, (stacked held).mp mem, (recorded_iff_took ran goes _ _).mp there⟩
    · intro _
      exact ⟨{ s with reg, aborted := some report }, by simp [System.step, goes, running, entering],
        rfl⟩

/-- **What the checker knows.** Whatever the threads did before and in which order,
while the process runs: a thread between its calls is told that it holds a mutex
exactly when it owns it, and `EnterLock` stops it exactly when it owns the mutex
already, or owns one that some thread took earlier in the run while it owned this
mutex. Nobody is ever told that the orders are not consistent. -/
theorem checker_exact {acts : List (Act T M)} {s : System T M}
    (ran : new.run acts = some s) (goes : s.aborted = none) {t : T}
    (running : s.phase t = .running) : s.reg.lockOrderIsConsistent = true ∧
      (∀ m, s.reg.holdsLock t m = true ↔ s.Owns t m) ∧
      ∀ site, (∃ s', s.step (.enter t site) = some s' ∧ s'.aborted.isSome) ↔
        s.Owns t site.mutex ∨ ∃ held, s.Owns t held ∧ Took acts site.mutex held := by
  have locked := wellLocked_run ran goes
  refine ⟨locked.consistent, fun m => ?_, stopped_iff ran goes running⟩
  rw [holdsLock_iff locked, ← locked.mem_stacked, locked.mem_iff_owns running]

/-! ### Deadlocks that are left -/

/-- Threads that wait for each other's mutexes. -/
def Deadlocked (s : System T M) (D : Finset T) : Prop := WaitsFor.Deadlocked s.Waits s.Owns D

/-- A deadlock goes round locks of which each was once held when the next was taken. -/
theorem Deadlocked.cycle {acts : List (Act T M)} {s : System T M} (ran : new.run acts = some s)
    (goes : s.aborted = none) {D : Finset T} (dead : s.Deadlocked D) :
    ∃ m, Relation.TransGen (Took acts) m m := by
  have locked := wellLocked_run ran goes
  exact WaitsFor.Deadlocked.cycle dead fun _ _ _ owns waits =>
    (recorded_iff_took ran goes _ _).mp (locked.recorded_of_waits owns waits)

/-- No two threads wait for each other in a process that was not stopped. -/
theorem Deadlocked.three_le {acts : List (Act T M)} {s : System T M} (ran : new.run acts = some s)
    (goes : s.aborted = none) {D : Finset T} (dead : s.Deadlocked D) : 3 ≤ D.card := by
  have locked := wellLocked_run ran goes
  exact WaitsFor.Deadlocked.three_le dead
    (fun _ _ _ owns waits => locked.recorded_of_waits owns waits) locked.asymm

/-! ### A discipline -/

/-- Whoever enters for a mutex owns only what comes before it. -/
def Disciplined (lt : M → M → Prop) (acts : List (Act T M)) : Prop :=
  ∀ before t site after s, acts = before ++ .enter t site :: after → new.run before = some s →
    ∀ held, s.Owns t held → lt held site.mutex

theorem Disciplined.of_took {lt : M → M → Prop} {acts : List (Act T M)}
    (disciplined : Disciplined lt acts) {a b : M} (took : Took acts a b) : lt a b := by
  obtain ⟨before, t, site, after, s, split, rfl, ran, owns⟩ := took
  exact disciplined before t site after s split ran a owns

theorem Disciplined.front {lt : M → M → Prop} {acts more : List (Act T M)}
    (disciplined : Disciplined lt (acts ++ more)) : Disciplined lt acts := by
  intro before t site after s split
  exact disciplined before t site (after ++ more) s (by rw [split, List.append_assoc]; rfl)

/-- **Locks taken in an order.** When every thread of a run takes its locks along one
strict order of the mutexes, the process is never stopped and no threads deadlock. -/
theorem ordered_run {lt : M → M → Prop} [IsStrictOrder M lt] {acts : List (Act T M)}
    {s : System T M} (disciplined : Disciplined lt acts) (ran : new.run acts = some s) :
    s.aborted = none ∧ ∀ D, ¬ s.Deadlocked D := by
  have goes : s.aborted = none := by
    induction acts using List.reverseRecOn generalizing s with
    | nil =>
        obtain rfl := Option.some.inj ran
        rfl
    | append_singleton acts act ih =>
        rw [run, List.foldlM_append, Option.bind_eq_bind, Option.bind_eq_some_iff] at ran
        obtain ⟨between, ran, last⟩ := ran
        rw [List.foldlM_cons, Option.bind_eq_bind, Option.bind_eq_some_iff] at last
        obtain ⟨s', taken, done⟩ := last
        obtain rfl := Option.some.inj done
        have went := ih disciplined.front ran
        obtain ⟨-, kept | ⟨t, site, reg, report, rfl, running, rfl⟩⟩ := step_cases taken
        · rw [kept.aborted, went]
        · rcases (stopped_iff ran went running site).mp ⟨_, taken, rfl⟩ with
            owns | ⟨held, owns, took⟩
          · exact absurd (disciplined acts t site [] between rfl ran _ owns) (irrefl _)
          · exact absurd (disciplined.front.of_took took)
              (asymm (disciplined acts t site [] between rfl ran _ owns))
  refine ⟨goes, fun D dead => ?_⟩
  obtain ⟨m, cycle⟩ := Deadlocked.cycle ran goes dead
  have ordered : Relation.TransGen lt m m :=
    Relation.TransGen.mono (fun _ _ took => disciplined.of_took took) _ _ cycle
  rw [Relation.transGen_eq_self] at ordered
  exact irrefl _ ordered

/-! ### Threads in a ring -/

/-- A site of a mutex. -/
def siteOf (m : Nat) : LockSite Nat := ⟨m, "mutex", "file", 1⟩

/-- Each thread takes its own mutex. -/
def takeOwn (k : Nat) : List (Act Nat Nat) :=
  (List.range k).flatMap fun i => [.enter i (siteOf i), .acquire i]

/-- Each thread enters for the mutex of the next. -/
def enterNext (n k : Nat) : List (Act Nat Nat) :=
  (List.range k).map fun i => .enter i (siteOf ((i + 1) % n))

/-- The first threads own their mutexes. -/
def owned (k : Nat) : System Nat Nat where
  reg := ⟨fun t => if t < k then [siteOf t] else [], fun _ => none, true⟩
  phase _ := .running
  owner m := if m < k then some m else none
  aborted := none

/-- And the first of them wait for the next. -/
def ring (n k : Nat) : System Nat Nat where
  reg.lockStacks t := if t < k then [siteOf t, siteOf ((t + 1) % n)]
    else if t < n then [siteOf t] else []
  reg.orders p := if p.1 < k ∧ p.2 = (p.1 + 1) % n
    then some ([siteOf p.1, siteOf p.2], [siteOf p.1, siteOf p.2]) else none
  reg.consistent := true
  phase t := if t < k then .waiting ((t + 1) % n) else .running
  owner m := if m < n then some m else none
  aborted := none

/-- One more of the first numbers. -/
theorem update_below {α : Type} (f g : Nat → α) (k : Nat) :
    Function.update (fun t => if t < k then f t else g t) k (f k) =
      fun t => if t < k + 1 then f t else g t := by
  funext t
  by_cases same : t = k
  · simp [same]
  · rw [Function.update_of_ne same]
    simp [show t < k ↔ t < k + 1 by omega]

theorem run_append {s s' : System T M} {acts : List (Act T M)} (ran : s.run acts = some s')
    (more : List (Act T M)) : s.run (acts ++ more) = s'.run more := by
  rw [run] at ran
  rw [run, List.foldlM_append, ran]
  rfl

/-- `EnterLock` of a thread without locks. -/
theorem enterLock_none (reg : Registry T M) {t : T} (without : reg.lockStacks t = [])
    (site : LockSite M) : reg.enterLock t site =
      ({ reg with lockStacks := Function.update reg.lockStacks t [site] }, none) := by
  simp [Registry.enterLock, Registry.recordOrders, without]

/-- One more thread takes its mutex. -/
theorem run_owned (k : Nat) :
    (owned k).run [.enter k (siteOf k), .acquire k] = some (owned (k + 1)) := by
  have bare : (owned k).reg.lockStacks k = [] := if_neg (Nat.lt_irrefl k)
  have entered := enterLock_none (owned k).reg bare (siteOf k)
  have pushed := update_below (fun t => [siteOf t]) (fun _ => []) k
  have taken := update_below some (fun _ => none) k
  have free : (owned k).owner k = none := if_neg (Nat.lt_irrefl k)
  have back : Function.update (Function.update (owned k).phase k (.waiting k)) k .running =
      (owned (k + 1)).phase := by
    rw [Function.update_idem]
    exact Function.update_eq_self k _
  have first : (owned k).step (.enter k (siteOf k)) = some { owned k with
      reg := { (owned k).reg with
        lockStacks := Function.update (owned k).reg.lockStacks k [siteOf k] }
      phase := Function.update (owned k).phase k (.waiting k) } := by
    rw [step, if_neg (by simp [owned])]
    simp only [entered]
    rfl
  rw [run, List.foldlM_cons, first, Option.bind_eq_bind, Option.bind_some, List.foldlM_cons, step,
    if_neg (by simp [owned])]
  simp only [Function.update_self, free, if_true]
  exact congrArg some (System.ext (Registry.ext pushed rfl rfl) back taken rfl)

theorem run_takeOwn : ∀ k, new.run (takeOwn k) = some (owned k)
  | 0 => by simp [takeOwn, owned, new, Registry.new, run]
  | k + 1 => by
      have split : takeOwn (k + 1) = takeOwn k ++ [.enter k (siteOf k), .acquire k] := by
        simp [takeOwn, List.range_succ]
      rw [split, run_append (run_takeOwn k), run_owned]

/-- `EnterLock` of a thread with one lock, no order being known. -/
theorem enterLock_one {reg : Registry T M} {t : T} {held site : LockSite M}
    (one : reg.lockStacks t = [held]) (apart : held.mutex ≠ site.mutex)
    (there : reg.orders (held.mutex, site.mutex) = none)
    (back : reg.orders (site.mutex, held.mutex) = none) :
    reg.enterLock t site = ({ reg.record held.mutex site.mutex [held, site] with
      lockStacks := Function.update reg.lockStacks t [held, site] }, none) := by
  simp [Registry.enterLock, Registry.recordOrders, one, apart, there, back, Registry.record]

theorem next_ne {n k : Nat} (two : 2 ≤ n) (inside : k < n) : k ≠ (k + 1) % n := by
  rcases Nat.lt_or_ge (k + 1) n with less | wraps
  · rw [Nat.mod_eq_of_lt less]
    omega
  · rw [show k + 1 = n by omega, Nat.mod_self]
    omega

/-- No lock of the ring was taken in the other order, as it has three at least. -/
theorem orders_ring {n k : Nat} (three : 3 ≤ n) (inside : k < n) :
    (ring n k).reg.orders ((k + 1) % n, k) = none := by
  refine if_neg ?_
  rintro ⟨below, back⟩
  simp only at below back
  rcases Nat.lt_or_ge (k + 1) n with less | wraps
  · rw [Nat.mod_eq_of_lt less] at below
    omega
  · rw [show k + 1 = n by omega, Nat.mod_self, Nat.mod_eq_of_lt (by omega)] at back
    omega

/-- The next thread enters. -/
theorem step_ring {n k : Nat} (three : 3 ≤ n) (inside : k < n) :
    (ring n k).step (.enter k (siteOf ((k + 1) % n))) = some (ring n (k + 1)) := by
  have one : (ring n k).reg.lockStacks k = [siteOf k] := by simp [ring, inside]
  have entered : (ring n k).reg.enterLock k (siteOf ((k + 1) % n)) = _ :=
    enterLock_one one (next_ne (by omega) inside) (by simp [ring, siteOf])
      (orders_ring three inside)
  have recorded : Function.update (ring n k).reg.orders (k, (k + 1) % n)
      (some ([siteOf k, siteOf ((k + 1) % n)], [siteOf k, siteOf ((k + 1) % n)])) =
        (ring n (k + 1)).reg.orders := by
    funext ⟨a, b⟩
    rw [Function.update_apply]
    by_cases same : a = k
    · subst same
      by_cases next : b = (a + 1) % n
      · simp [ring, next]
      · simp [ring, next]
    · simp [ring, same, show a < k ↔ a < k + 1 by omega]
  have pushed := update_below (fun t => [siteOf t, siteOf ((t + 1) % n)])
    (fun t => if t < n then [siteOf t] else []) k
  have phases := update_below (fun t => Phase.waiting ((t + 1) % n)) (fun _ => .running) k
  have free : (ring n k).phase k = .running := by simp [ring]
  have goes : (ring n k).aborted = none := rfl
  simp only [step, goes, Option.isSome_none, Bool.false_eq_true, if_false, free, if_true, entered]
  exact congrArg some (System.ext (Registry.ext pushed recorded rfl) phases rfl rfl)

theorem run_enterNext {n : Nat} (three : 3 ≤ n) : ∀ k ≤ n,
    (ring n 0).run (enterNext n k) = some (ring n k)
  | 0, _ => rfl
  | k + 1, inside => by
      have split : enterNext n (k + 1) =
          enterNext n k ++ [.enter k (siteOf ((k + 1) % n))] := by
        simp [enterNext, List.range_succ]
      rw [split, run_append (run_enterNext three k (Nat.le_of_succ_le inside)), run,
        List.foldlM_cons, step_ring three inside]
      rfl

theorem ring_zero (n : Nat) : ring n 0 = owned n := by
  simp [ring, owned]

/-- **Deadlocks that are left.** A run the checker did not stop can leave a given
number of threads waiting for each other exactly when there are three of them at
least. -/
theorem deadlock_iff (n : Nat) : (∃ (acts : List (Act Nat Nat)) (s : System Nat Nat)
      (D : Finset Nat), new.run acts = some s ∧ s.aborted = none ∧ D.card = n ∧ s.Deadlocked D) ↔
    3 ≤ n := by
  constructor
  · rintro ⟨acts, s, D, ran, goes, rfl, dead⟩
    exact Deadlocked.three_le ran goes dead
  · intro three
    have ran : new.run (takeOwn n ++ enterNext n n) = some (ring n n) := by
      rw [run_append (run_takeOwn n), ← ring_zero]
      exact run_enterNext three n le_rfl
    refine ⟨_, ring n n, Finset.range n, ran, rfl, Finset.card_range n, ?_, fun t mem => ?_⟩
    · exact Finset.nonempty_range_iff.mpr (by omega)
    · have inside := Finset.mem_range.mp mem
      have next : (t + 1) % n < n := Nat.mod_lt _ (by omega)
      refine ⟨(t + 1) % n, by simp [Waits, ring, inside], (t + 1) % n, ?_, ?_⟩
      · exact Finset.mem_range.mpr next
      · simp [Owns, ring, next]

/-! ### One thread that takes two mutexes -/

theorem checker_exact_owned : (owned 1).reg.lockOrderIsConsistent = true ∧
    (∀ m, (owned 1).reg.holdsLock 0 m = true ↔ (owned 1).Owns 0 m) ∧
    ∀ site, (∃ s', (owned 1).step (.enter 0 site) = some s' ∧ s'.aborted.isSome) ↔
      (owned 1).Owns 0 site.mutex ∨
        ∃ held, (owned 1).Owns 0 held ∧ Took (takeOwn 1) site.mutex held :=
  checker_exact (run_takeOwn 1) rfl rfl

/-- The second while it owns the first. -/
def takeSecond : List (Act Nat Nat) :=
  [.enter 0 (siteOf 0), .acquire 0, .enter 0 (siteOf 1)]

theorem disciplined_takeSecond : Disciplined (· < ·) takeSecond := by
  intro before t site after s split ran held owns
  rcases before with _ | ⟨first, _ | ⟨second, _ | ⟨third, rest⟩⟩⟩ <;>
    simp only [takeSecond, List.nil_append, List.cons_append, List.cons.injEq] at split
  · obtain rfl := Option.some.inj ran
    cases owns
  · cases split.2.1
  · obtain ⟨rfl, rfl, same, -⟩ := split
    obtain ⟨-, rfl⟩ := Act.enter.inj same
    obtain rfl := Option.some.inj ((run_takeOwn 1).symm.trans ran)
    have both : held = 0 ∧ held = t := by simpa [Owns, owned] using owns
    exact both.1 ▸ Nat.zero_lt_one
  · simp at split

theorem ordered_run_takeSecond : ∃ s, new.run takeSecond = some s ∧ s.aborted = none ∧
    ∀ D, ¬ s.Deadlocked D := by
  have goes : (new.run takeSecond).isSome = true := by decide +kernel
  obtain ⟨s, ran⟩ := Option.isSome_iff_exists.mp goes
  exact ⟨s, ran, ordered_run disciplined_takeSecond ran⟩

end System

end LockOrder

end QmaskCore
