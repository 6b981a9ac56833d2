import QmaskCore.Lib.Runs
import QmaskCore.Mempool.Restart

/-!
How old a transaction gets, across restarts.

`Unexpired` is what expiry is for: the pool holds nothing that was last
submitted longer ago. `Load` reads the time an entry was written with, but
enters what it takes with its own, so a transaction outlives each restart by the
whole of its time (`rejuvenated_parent`). `unexpired_run` says that where no
`Load` does so, nothing is held too long.
-/

namespace QmaskCore

namespace Mempool

/-- The pool of a process, and what `Save` has last written. -/
structure WithFile (Rate : Type) where
  pool : Mempool Rate
  file : Option (List PersistedEntry)

inductive Event (Rate : Type) where
  /-- `AddTransaction`, called by anyone but `Load`. -/
  | submit (tx : Transaction) (fee now : Int64)
  | save (indexOrder : List Entry → List Entry) (perm : ∀ l, (indexOrder l).Perm l)
  /-- The process starts again and calls `Load`. -/
  | load (admission : Mempool Rate → Transaction → Option Int) (now : Int64)

/-- When the pool is used. -/
def Event.time {Rate : Type} : Event Rate → Option Int
  | .submit _ _ now => some now.toInt
  | .save _ _ => none
  | .load _ now => some now.toInt

section

variable {Rate : Type} (C : TxCodec) (A : RateArith Rate) (P : Params) (maxBytes : Nat)

/-- Without a file `Load` does nothing. -/
def happen (s : WithFile Rate) : Event Rate → WithFile Rate
  | .submit tx fee now => { s with pool := (addTransaction A P tx fee.toInt now.toInt s.pool).2 }
  | .save indexOrder _ => { s with file := some (s.pool.snapshot indexOrder) }
  | .load admission now =>
      match s.file with
      | none => { s with pool := new A maxBytes }
      | some entries =>
          { s with pool :=
              (Mempool.load C A P admission now.toInt now.toInt (Mempool.save C entries)
                (new A maxBytes)).pool }

def launched : WithFile Rate := ⟨new A maxBytes, none⟩

def life (events : List (Event Rate)) : WithFile Rate :=
  events.foldl (happen C A P maxBytes) (launched A maxBytes)

/-- Someone has submitted the transaction at that time or later. -/
def SubmittedSince (events : List (Event Rate)) (tx : Transaction) (t : Int) : Prop :=
  ∃ fee now, .submit tx fee now ∈ events ∧ t ≤ now.toInt

/-- What the pool holds at a time was submitted no longer ago than it may be
held. -/
def Unexpired (events : List (Event Rate)) (t : Int) (s : Mempool Rate) : Prop :=
  ∀ h e, s.mIndex.lookup h = some e → SubmittedSince events e.tx (t - expirySeconds)

variable {C A P maxBytes}

/-- `Load` comes to enter a transaction: it is not past expiry, passes the
admission check and is new to the pool, which accepts it. -/
def Enters (A : RateArith Rate) (P : Params) (admission : Mempool Rate → Transaction → Option Int)
    (now : Int) (tx : Transaction) (entryTime : Int) (s : Mempool Rate) : Prop :=
  ¬ (0 < entryTime ∧ expirySeconds < now - entryTime) ∧ hasTransaction s tx.hash = false ∧
    ∃ fee, admission s tx = some fee ∧ (s.expireLocked now).Admits A P tx fee now

/-- Whatever a `Load` comes to enter, it was written with no earlier time. -/
def KeepsTimes (C : TxCodec) (A : RateArith Rate) (P : Params) (maxBytes : Nat)
    (s : WithFile Rate) : Event Rate → Prop
  | .submit _ _ _ => True
  | .save _ _ => True
  | .load admission now =>
      ∀ entries before p after, s.file = some entries → readable C entries = before ++ p :: after →
        Enters A P admission now.toInt p.tx (Int64.ofInt p.entryTime).toInt
          (offerAll A P admission now.toInt now.toInt before ⟨new A maxBytes, 0, []⟩).pool →
        now.toInt ≤ p.entryTime

/-! ### Reading back -/

/-- Every entry of the pool was entered by this `Load`, from one written with no
earlier time. -/
structure Reentered (now : Int) (entries : List PersistedEntry) (s : Mempool Rate) : Prop where
  ok : s.Consistent
  entry : ∀ h e, s.mIndex.lookup h = some e →
    e.entryTime = now ∧ ∃ p ∈ entries, p.tx = e.tx ∧ now ≤ p.entryTime

theorem Reentered.offer {admission : Mempool Rate → Transaction → Option Int} {now : Int}
    {before : List PersistedEntry} {p : PersistedEntry} {l : Loaded Rate}
    (done : Reentered now before l.pool)
    (keeps : Enters A P admission now p.tx (Int64.ofInt p.entryTime).toInt l.pool →
      now ≤ p.entryTime) :
    Reentered now (before ++ [p])
      (offer A P admission now now p.tx (Int64.ofInt p.entryTime).toInt l).pool := by
  have idle : Reentered now (before ++ [p]) l.pool := by
    refine ⟨done.ok, fun h e found => ?_⟩
    obtain ⟨time, q, mem, rest⟩ := done.entry h e found
    exact ⟨time, q, List.mem_append_left _ mem, rest⟩
  unfold Mempool.offer
  split
  · exact idle
  · rename_i young
    cases accepted : admission l.pool p.tx with
    | none => exact idle
    | some fee =>
        dsimp only
        split
        · exact idle
        · rename_i absent
          have added : Reentered now (before ++ [p])
              (addTransaction A P p.tx fee now l.pool).2 := by
            refine ⟨done.ok.addTransaction p.tx fee now, fun h e found => ?_⟩
            rcases lookup_addTransaction done.ok.toWF found with ⟨there, -⟩ | ⟨admits, same, time⟩
            · exact idle.entry h e there
            · have enters : Enters A P admission now p.tx (Int64.ofInt p.entryTime).toInt l.pool :=
                ⟨young, Bool.eq_false_iff.mpr absent, fee, accepted, admits⟩
              exact ⟨time, p, by simp, same.symm, keeps enters⟩
          generalize addTransaction A P p.tx fee now l.pool = out at added ⊢
          obtain ⟨_ | _, pool⟩ := out
          · exact added
          · exact added

theorem reentered_offerAll {admission : Mempool Rate → Transaction → Option Int} {now : Int}
    {l : Loaded Rate} (start : Reentered now [] l.pool) : ∀ entries : List PersistedEntry,
    (∀ before p after, entries = before ++ p :: after →
      Enters A P admission now p.tx (Int64.ofInt p.entryTime).toInt
        (offerAll A P admission now now before l).pool → now ≤ p.entryTime) →
    Reentered now entries (offerAll A P admission now now entries l).pool := by
  intro entries
  induction entries using List.reverseRecOn with
  | nil => exact fun _ => start
  | append_singleton entries p ih =>
      intro keeps
      have before := ih fun front q after split =>
        keeps front q (after ++ [p]) (by rw [split, List.append_assoc, List.cons_append])
      rw [offerAll, List.foldl_append]
      exact before.offer (keeps entries p [] rfl)

/-! ### Runs -/

theorem SubmittedSince.append {events : List (Event Rate)} {tx : Transaction} {t : Int}
    (since : SubmittedSince events tx t) (later : List (Event Rate)) :
    SubmittedSince (events ++ later) tx t := by
  obtain ⟨fee, now, mem, le⟩ := since
  exact ⟨fee, now, List.mem_append_left _ mem, le⟩

theorem SubmittedSince.mono {events : List (Event Rate)} {tx : Transaction} {t u : Int}
    (since : SubmittedSince events tx u) (le : t ≤ u) : SubmittedSince events tx t := by
  obtain ⟨fee, now, mem, le'⟩ := since
  exact ⟨fee, now, mem, le.trans le'⟩

/-- Entries carry times no later than a submission of theirs. -/
structure Dated (events : List (Event Rate)) (s : WithFile Rate) : Prop where
  ok : s.pool.Consistent
  held : ∀ h e, s.pool.mIndex.lookup h = some e →
    (∃ t : Int64, e.entryTime = t.toInt) ∧ SubmittedSince events e.tx e.entryTime
  written : ∀ entries, s.file = some entries → ∀ p ∈ entries,
    (∃ t : Int64, p.entryTime = t.toInt) ∧ SubmittedSince events p.tx p.entryTime

theorem dated_launched : Dated ([] : List (Event Rate)) (launched A maxBytes) where
  ok := consistent_new A maxBytes
  held _ _ found := nomatch found
  written _ saved := nomatch saved

theorem Reentered.new (A : RateArith Rate) (maxBytes : Nat) (now : Int)
    (entries : List PersistedEntry) : Reentered now entries (new A maxBytes) :=
  ⟨consistent_new A maxBytes, fun _ _ found => nomatch found⟩

variable {events : List (Event Rate)} {s : WithFile Rate} {event : Event Rate}

/-- What a `Load` that keeps times leaves in the pool. -/
theorem Dated.load (dated : Dated events s)
    (carries : ∀ tx fee now, .submit tx fee now ∈ events → C.Carries tx)
    {entries : List PersistedEntry} (file : s.file = some entries)
    {admission : Mempool Rate → Transaction → Option Int} {now : Int64}
    (keeps : KeepsTimes C A P maxBytes s (.load admission now)) :
    Reentered now.toInt entries (Mempool.load C A P admission now.toInt now.toInt
      (Mempool.save C entries) (Mempool.new A maxBytes)).pool := by
  have carried : ∀ p ∈ entries, C.Carries p.tx := by
    intro p mem
    obtain ⟨-, fee, time, submitted, -⟩ := dated.written entries file p mem
    exact carries p.tx fee time submitted
  rw [load_save C A P admission now.toInt now.toInt carried]
  split
  · exact .new A maxBytes now.toInt entries
  · have read := reentered_offerAll (l := ⟨Mempool.new A maxBytes, 0, []⟩)
      (.new A maxBytes now.toInt []) (readable C entries)
      fun before p after split enters => keeps entries before p after file split enters
    refine ⟨read.ok, fun h e found => ?_⟩
    obtain ⟨time, p, mem, rest⟩ := read.entry h e found
    exact ⟨time, p, (readable_sublist C entries).subset mem, rest⟩

/-- One event keeps the times, and what is held after it is not too old. -/
theorem Dated.happen (dated : Dated events s)
    (carries : ∀ tx fee now, .submit tx fee now ∈ events → C.Carries tx)
    (keeps : KeepsTimes C A P maxBytes s event) :
    Dated (events ++ [event]) (happen C A P maxBytes s event) ∧
      ∀ t, event.time = some t → ∀ h e,
        (Mempool.happen C A P maxBytes s event).pool.mIndex.lookup h = some e →
          t - expirySeconds ≤ e.entryTime := by
  have positive : 0 < expirySeconds := by decide
  have written : ∀ entries, s.file = some entries → ∀ p ∈ entries,
      (∃ t : Int64, p.entryTime = t.toInt) ∧ SubmittedSince (events ++ [event]) p.tx p.entryTime :=
    fun entries file p mem => (dated.written entries file p mem).imp_right (·.append _)
  have held : ∀ h e, s.pool.mIndex.lookup h = some e →
      (∃ t : Int64, e.entryTime = t.toInt) ∧ SubmittedSince (events ++ [event]) e.tx e.entryTime :=
    fun h e found => (dated.held h e found).imp_right (·.append _)
  cases event with
  | submit tx fee now =>
      refine ⟨⟨dated.ok.addTransaction tx fee.toInt now.toInt, fun h e found => ?_, written⟩, ?_⟩
      · rcases lookup_addTransaction dated.ok.toWF found with ⟨there, -⟩ | ⟨-, same, time⟩
        · exact held h e there
        · exact ⟨⟨now, time⟩, fee, now, by simp [same], time.le⟩
      · rintro t ⟨⟩ h e found
        rcases lookup_addTransaction dated.ok.toWF found with ⟨-, young⟩ | ⟨-, -, time⟩
        · exact young
        · omega
  | save indexOrder perm =>
      refine ⟨⟨dated.ok, held, ?_⟩, fun t none => nomatch none⟩
      rintro entries ⟨⟩ p mem
      obtain ⟨h, e, found, rfl⟩ := (mem_snapshot perm).mp mem
      exact held h e found
  | load admission now =>
      cases file : s.file with
      | none =>
          have empty : Mempool.happen C A P maxBytes s (.load admission now) =
              { s with pool := new A maxBytes } := by
            rw [Mempool.happen, file]
          rw [empty]
          exact ⟨⟨consistent_new A maxBytes, fun _ _ found => (nomatch found), written⟩,
            fun _ _ _ _ found => (nomatch found)⟩
      | some entries =>
          have back := dated.load carries file keeps
          have read : Mempool.happen C A P maxBytes s (.load admission now) =
              { s with pool := (Mempool.load C A P admission now.toInt now.toInt
                (Mempool.save C entries) (new A maxBytes)).pool } := by
            rw [Mempool.happen, file]
          rw [read]
          refine ⟨⟨back.ok, fun h e found => ?_, written⟩, ?_⟩
          · obtain ⟨time, p, mem, same, le⟩ := back.entry h e found
            exact ⟨⟨now, time⟩, same ▸ (written entries file p mem).2.mono (time ▸ le)⟩
          · rintro t ⟨⟩ h e found
            have time := (back.entry h e found).1
            omega

/-- **Restarts.** In every run whose `Load`s enter nothing later than it was
written with, whatever is in the pool after an addition or a `Load` was
submitted no longer ago than it may be held. -/
theorem unexpired_run {t : Int}
    (carries : ∀ tx fee now, .submit tx fee now ∈ events ++ [event] → C.Carries tx)
    (keeps : Run.Meets (Mempool.happen C A P maxBytes) (KeepsTimes C A P maxBytes)
      (events ++ [event]) (launched A maxBytes))
    (time : event.time = some t) :
    Unexpired (events ++ [event]) t (life C A P maxBytes (events ++ [event])).pool := by
  let inv (before : List (Event Rate)) (s : WithFile Rate) :=
    (∀ tx fee now, .submit tx fee now ∈ before → C.Carries tx) ∧ Dated before s
  let carried (_ : WithFile Rate) (event : Event Rate) :=
    ∀ tx fee now, event = .submit tx fee now → C.Carries tx
  obtain ⟨earlier, last, -⟩ := Run.meets_append.mp keeps
  have known : Run.Meets (Mempool.happen C A P maxBytes) carried events (launched A maxBytes) := by
    refine Run.meets_of_forall (fun a mem _ tx fee now same => ?_) _
    subst same
    exact carries tx fee now (List.mem_append_left _ mem)
  have step (before s a) (holds : inv before s)
      (meets : KeepsTimes C A P maxBytes s a ∧ carried s a) :
      inv (before ++ [a]) (Mempool.happen C A P maxBytes s a) := by
    refine ⟨fun tx fee now mem => ?_, (holds.2.happen holds.1 meets.1).1⟩
    rcases List.mem_append.mp mem with mem | mem
    · exact holds.1 tx fee now mem
    · exact meets.2 tx fee now (List.mem_singleton.mp mem).symm
  have start : inv [] (launched A maxBytes) := ⟨fun _ _ _ mem => (nomatch mem), dated_launched⟩
  obtain ⟨submitted, dated⟩ := Run.Meets.history step start (earlier.and known)
  obtain ⟨after, young⟩ := dated.happen submitted last
  intro h e found
  rw [life, List.foldl_append] at found
  exact (after.held h e found).2.mono (young t time h e found)

end

end Mempool

namespace SmallNetwork

/-- Offers are taken as they come, for the same fee. -/
def readily (_ : Mempool Int) (_ : Transaction) : Option Int := some 10

def familyLife (events : List (Mempool.Event Int)) : Mempool.WithFile Int :=
  Mempool.life familyCodec rates smallNetwork 1000 events

/-- A payment, a restart as its time runs out, and another payment after that. -/
def outlived : List (Mempool.Event Int) :=
  [.submit parent 10 1, .save id fun _ => .refl _, .load readily 1209601, .submit child 10 1209602]

/-- The same with the restart at once. -/
def restarted : List (Mempool.Event Int) :=
  [.submit parent 10 1, .save id fun _ => .refl _, .load readily 1]

theorem carries_parent : familyCodec.Carries parent := by
  constructor <;> decide +kernel

theorem mem_outlived {tx : Transaction} {fee now : Int64}
    (mem : Mempool.Event.submit tx fee now ∈ outlived) :
    tx = parent ∧ now = 1 ∨ tx = child := by
  simp only [outlived, List.mem_cons, Mempool.Event.submit.injEq, reduceCtorEq, false_or,
    List.not_mem_nil, or_false] at mem
  rcases mem with ⟨same, -, time⟩ | ⟨same, -⟩
  · exact .inl ⟨same, time⟩
  · exact .inr same

end SmallNetwork

open SmallNetwork in
/-- A payment submitted once is in the pool after its time is over. -/
theorem rejuvenated_parent :
    ((familyLife (outlived.take 1)).pool.mIndex.lookup parent.hash).isSome = true ∧
    ((familyLife outlived).pool.mIndex.lookup parent.hash).isSome = true ∧
    (∀ fee now, .submit parent fee now ∈ outlived → now.toInt + Mempool.expirySeconds < 1209602) ∧
    ¬ Mempool.Unexpired outlived 1209602 (familyLife outlived).pool := by
  have once {fee now : Int64} (mem : .submit parent fee now ∈ outlived) :
      now.toInt + Mempool.expirySeconds < 1209602 := by
    rcases mem_outlived mem with ⟨-, rfl⟩ | other
    · decide
    · exact absurd (congrArg (·.hash) other) (by decide)
  have held : ((familyLife outlived).pool.mIndex.lookup parent.hash).map (·.tx) = some parent := by
    decide +kernel
  refine ⟨by decide +kernel, by decide +kernel, fun fee now => once, fun unexpired => ?_⟩
  obtain ⟨e, found, same⟩ := Option.map_eq_some_iff.mp held
  obtain ⟨fee, now, mem, since⟩ := unexpired _ e found
  rw [same] at mem
  have late := once mem
  omega

open SmallNetwork in
/-- With the restart in the second of the payment the time stays the same. -/
theorem unexpired_run_restarted :
    Mempool.Unexpired restarted 1 (familyLife restarted).pool ∧
    ((familyLife restarted).pool.mIndex.lookup parent.hash).isSome = true := by
  have written : (familyLife (restarted.take 2)).file = some [⟨parent, 10, 1⟩] := by
    decide +kernel
  have whole : Mempool.Unexpired (restarted.take 2 ++ [.load readily 1]) 1
      (Mempool.life familyCodec rates smallNetwork 1000
        (restarted.take 2 ++ [.load readily 1])).pool := by
    refine Mempool.unexpired_run (fun tx fee now mem => ?_) ⟨trivial, trivial, ?_, trivial⟩ rfl
    · have same : tx = parent ∧ fee = 10 ∧ now = 1 := by
        simpa [restarted, reduceCtorEq] using mem
      rw [same.1]
      exact carries_parent
    · intro entries before p after file split _
      have only := Option.some.inj (written.symm.trans file)
      have mem : p ∈ Mempool.readable familyCodec entries := by
        rw [split]
        simp
      have here := (Mempool.readable_sublist familyCodec entries).subset mem
      rw [← only] at here
      rw [List.mem_singleton.mp here]
      decide
  exact ⟨whole, by decide +kernel⟩

end QmaskCore
