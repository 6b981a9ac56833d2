import QmaskCore.Mining.NonceLoop

/-!
The time of the header the nonce loop finds.

`lastTime` follows the clock through the turns of a run: a time is written at a
refresh and when the nonces run out, and neither looks at the chain. A header is
found with the time of its last turn and, but for the nonce, as it was
(`runNonceLoop_found`).
-/

namespace QmaskCore

namespace Miner

/-- The time of the header in a turn, which may be one that refreshes it. -/
def refreshed (r : Reading) (localHashes time : UInt64) : UInt64 :=
  if localHashes &&& 0xFFFF = 0 ∧ time + 60 < r.nowSeconds then r.nowSeconds else time

/-- The time of the header in the last turn of a run that begins at a time, a
nonce and a count. -/
def lastTime : List Reading → UInt64 → UInt32 → UInt64 → UInt64
  | [], time, _, _ => time
  | r :: rest, time, nonce, localHashes =>
      let localHashes := localHashes + 1
      let time := refreshed r localHashes time
      if rest = [] then time
      else if nonce = 0xFFFFFFFF then lastTime rest r.secondsAtWrap 0 localHashes
      else lastTime rest time (nonce + 1) localHashes

/-- On to the next turn. -/
theorem lastTime_cons (r : Reading) {rest : List Reading} (more : rest ≠ []) (time : UInt64)
    (nonce : UInt32) (localHashes : UInt64) :
    lastTime (r :: rest) time nonce localHashes =
      if nonce = 0xFFFFFFFF then lastTime rest r.secondsAtWrap 0 (localHashes + 1)
      else lastTime rest (refreshed r (localHashes + 1) time) (nonce + 1) (localHashes + 1) := by
  rw [lastTime]
  exact if_neg more

variable {transform : Sha256Transform} {target : ArithUint256} {builtOn : Bytes32}
  {startMs : UInt64}

theorem poll_spec {r : Reading} {s t : LoopState}
    (polled : poll transform builtOn startMs r s = some t) :
    t.hdr = s.hdr.setTimestamp (refreshed r (s.localHashes + 1) s.hdr.timestamp) ∧
      t.nonce = s.nonce ∧ t.localHashes = s.localHashes + 1 := by
  rw [poll] at polled
  rw [refreshed]
  split at polled
  · dsimp only at polled
    split at polled
    · rename_i checked
      split at polled
      · cases polled
      · split at polled
        · cases polled
        · split at polled
          · rename_i late
            cases polled
            rw [if_pos ⟨checked, late⟩]
            exact ⟨rfl, rfl, rfl⟩
          · rename_i early
            cases polled
            rw [if_neg fun both => early both.2]
            exact ⟨rfl, rfl, rfl⟩
    · rename_i unchecked
      cases polled
      rw [if_neg fun both => unchecked both.1]
      exact ⟨rfl, rfl, rfl⟩
  · cases polled

theorem advance_wrap (transform : Sha256Transform) (r : Reading) {s : LoopState} (wrap : s.nonce = 0xFFFFFFFF) :
    (advance transform r s.patched).hdr = s.hdr.setTimestamp r.secondsAtWrap ∧
      (advance transform r s.patched).nonce = 0 ∧
      (advance transform r s.patched).localHashes = s.localHashes := by
  have wraps : s.patched.nonce = 0xFFFFFFFF := wrap
  rw [advance, if_pos wraps]
  exact ⟨rfl, rfl, rfl⟩

theorem advance_next (transform : Sha256Transform) (r : Reading) {s : LoopState} (next : s.nonce ≠ 0xFFFFFFFF) :
    (advance transform r s.patched).hdr = s.hdr ∧
      (advance transform r s.patched).nonce = s.nonce + 1 ∧
      (advance transform r s.patched).localHashes = s.localHashes := by
  have goes : s.patched.nonce ≠ 0xFFFFFFFF := next
  rw [advance, if_neg goes]
  exact ⟨rfl, rfl, rfl⟩

/-- A header that is found in the last of the turns is the one the run began
with, at the time of that turn and with some nonce. -/
theorem turns_found : ∀ {readings : List Reading} {s : LoopState} {hdr : BlockHeader},
    turns transform target builtOn startMs readings s = some (true, hdr) →
    turns transform target builtOn startMs readings.dropLast s = none →
    ∃ nonce, hdr = (s.hdr.setTimestamp
      (lastTime readings s.hdr.timestamp s.nonce s.localHashes)).setNonce nonce := by
  intro readings
  induction readings with
  | nil => nofun
  | cons r rest ih =>
      intro s hdr found going
      rw [turns] at found
      cases polled : poll transform builtOn startMs r s with
      | none =>
          rw [polled] at found
          cases found
      | some t =>
          rw [polled] at found
          obtain ⟨header, nonce, hashes⟩ := poll_spec polled
          dsimp only at found
          cases rest with
          | nil =>
              split at found
              · cases found
                exact ⟨t.nonce, by rw [header]; rfl⟩
              · cases found
          | cons r' rest =>
              rw [List.dropLast_cons_cons, turns, polled] at going
              dsimp only at going
              split at going
              · cases going
              · rename_i missed
                rw [if_neg missed] at found
                obtain ⟨last, whole⟩ := ih found going
                refine ⟨last, whole.trans ?_⟩
                rw [lastTime_cons r (List.cons_ne_nil _ _), ← nonce, ← hashes]
                by_cases wrap : t.nonce = 0xFFFFFFFF
                · obtain ⟨next, first, count⟩ := advance_wrap transform r wrap
                  rw [if_pos wrap, next, first, count, header]
                  rfl
                · obtain ⟨next, up, count⟩ := advance_next transform r wrap
                  rw [if_neg wrap, next, up, count, header, hashes]
                  rfl

theorem runNonceLoop_found {hdr found : BlockHeader} {unset : Prepared} {readings : List Reading}
    (ran : runNonceLoop transform hdr unset startMs readings = some (true, found))
    (whole : runNonceLoop transform hdr unset startMs readings.dropLast = none) :
    ∃ nonce, found =
      (hdr.setTimestamp (lastTime readings hdr.timestamp hdr.nonce 0)).setNonce nonce := by
  rw [runNonceLoop] at ran whole
  dsimp only at ran whole
  split at ran
  · cases ran
  · rename_i usable
    rw [if_neg usable] at whole
    exact turns_found ran whole

/-- The hash of a header that is found is at most the target of its bits. -/
theorem runNonceLoop_meets {hdr found : BlockHeader} {unset : Prepared} {readings : List Reading}
    (ran : runNonceLoop transform hdr unset startMs readings = some (true, found)) :
    MeetsTarget transform found := by
  rw [runNonceLoop] at ran
  generalize expanded : ArithUint256.setCompact hdr.bits = out at ran
  obtain ⟨target, neg, tooLarge⟩ := out
  dsimp only at ran
  split at ran
  · cases ran
  · obtain ⟨solved, -⟩ := (ready_begin hdr unset).turns (congrArg Prod.fst expanded).symm readings
    have hit := List.find?_some ((solved found).mp ran)
    exact of_decide_eq_true hit

end Miner

end QmaskCore
