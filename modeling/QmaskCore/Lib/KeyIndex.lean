import QmaskCore.Lib.AssocList

/-!
An index of an association list.

`m.Indexes s keys` says that `m` maps exactly the keys of the entries of `s`,
each to where its entry is. Entering an entry whose keys are free keeps it
(`Indexes.insert`), and so does taking one out with its keys
(`Indexes.erase`). Two entries never share a key (`Indexes.unique`).
-/

namespace AList

variable {α β κ : Type} [DecidableEq α] [DecidableEq κ]

/-- `m` holds, under each key of an entry of `s`, where the entry is, and
nothing else. -/
def Indexes (m : AList fun _ : κ => α) (s : AList fun _ : α => β) (keys : β → List κ) : Prop :=
  ∀ k a, m.lookup k = some a ↔ ∃ b, s.lookup a = some b ∧ k ∈ keys b

variable {m : AList fun _ : κ => α} {s : AList fun _ : α => β} {keys : β → List κ} {a : α} {b : β}

theorem indexes_empty (keys : β → List κ) :
    (∅ : AList fun _ : κ => α).Indexes (∅ : AList fun _ : α => β) keys :=
  fun _ _ => iff_of_false (fun found => nomatch found) fun ⟨_, found, _⟩ => nomatch found

theorem Indexes.lookup (ix : m.Indexes s keys) (found : s.lookup a = some b) {k : κ}
    (key : k ∈ keys b) : m.lookup k = some a :=
  (ix _ _).mpr ⟨b, found, key⟩

theorem Indexes.unique (ix : m.Indexes s keys) {a' : α} {b' : β} {k : κ}
    (found : s.lookup a = some b) (found' : s.lookup a' = some b') (key : k ∈ keys b)
    (key' : k ∈ keys b') : a = a' :=
  Option.some.inj ((ix.lookup found key).symm.trans (ix.lookup found' key'))

theorem Indexes.insert (ix : m.Indexes s keys) (new : s.lookup a = none)
    (free : ∀ k ∈ keys b, m.lookup k = none) :
    ((keys b).foldl (fun m k => m.insert k a) m).Indexes (s.insert a b) keys := by
  intro k a'
  rw [lookup_foldl_insert, lookup_insert_if]
  by_cases mine : k ∈ keys b <;> by_cases same : a' = a
  · simp [mine, same]
  · rw [if_pos mine, if_neg same]
    refine iff_of_false (fun here => same (Option.some.inj here).symm) ?_
    rintro ⟨b', found, key⟩
    have taken := ix.lookup found key
    rw [free k mine] at taken
    cases taken
  · rw [if_neg mine, if_pos same, ix]
    refine iff_of_false ?_ fun ⟨b', here, key⟩ => mine (Option.some.inj here ▸ key)
    rintro ⟨b', found, -⟩
    rw [same, new] at found
    cases found
  · rw [if_neg mine, if_neg same]
    exact ix k a'

theorem Indexes.erase (ix : m.Indexes s keys) (found : s.lookup a = some b) :
    ((keys b).foldl (fun m k => m.erase k) m).Indexes (s.erase a) keys := by
  intro k a'
  rw [lookup_foldl_erase, lookup_erase_if]
  by_cases mine : k ∈ keys b <;> by_cases same : a' = a
  · simp [mine, same]
  · rw [if_pos mine, if_neg same]
    refine iff_of_false (fun here => nomatch here) ?_
    rintro ⟨b', found', key⟩
    exact same (ix.unique found' found key mine)
  · rw [if_neg mine, if_pos same, ix]
    refine iff_of_false ?_ fun ⟨b', here, _⟩ => nomatch here
    rintro ⟨b', found', key⟩
    rw [same, found] at found'
    cases found'
    exact mine key
  · rw [if_neg mine, if_neg same]
    exact ix k a'

/-- Taking entries away shortens the index, when one with a key goes. -/
theorem Indexes.length_lt {m' : AList fun _ : κ => α} {s' : AList fun _ : α => β} {k : κ}
    (ix : m.Indexes s keys) (ix' : m'.Indexes s' keys)
    (sub : ∀ {a b}, s'.lookup a = some b → s.lookup a = some b) (found : s.lookup a = some b)
    (key : k ∈ keys b) (gone : s'.lookup a = none) : m'.keys.length < m.keys.length := by
  have before {k : κ} {a : α} (there : m'.lookup k = some a) : m.lookup k = some a := by
    obtain ⟨b, found, key⟩ := (ix' _ _).mp there
    exact ix.lookup (sub found) key
  have out : k ∉ m'.keys := by
    intro mem
    obtain ⟨a', there⟩ := Option.isSome_iff_exists.mp (AList.lookup_isSome.mpr mem)
    obtain rfl : a' = a := Option.some.inj ((before there).symm.trans (ix.lookup found key))
    obtain ⟨b', left, -⟩ := (ix' _ _).mp there
    rw [gone] at left
    cases left
  have distinct : (k :: m'.keys).Nodup := List.nodup_cons.mpr ⟨out, m'.keys_nodup⟩
  have inside : (k :: m'.keys) ⊆ m.keys := by
    intro j mem
    rcases List.mem_cons.mp mem with rfl | mem
    · exact AList.lookup_isSome.mp (Option.isSome_of_eq_some (ix.lookup found key))
    · obtain ⟨a', there⟩ := Option.isSome_iff_exists.mp (AList.lookup_isSome.mpr mem)
      exact AList.lookup_isSome.mp (Option.isSome_of_eq_some (before there))
  exact (List.subperm_of_subset distinct inside).length_le

end AList
