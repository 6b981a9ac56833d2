import Mathlib.Data.Finset.Card
import Mathlib.Logic.Relation

/-!
Breadth-first search with a queue.

`search` is the loop that walks a queue and appends to it what a node leads to
and has not been queued yet. `search_spec` says that, on a finite set the edges
do not leave, what ends up in the queue is what can be reached from its start.
`reach_added` says what is reached when a node is added that leads nowhere.
-/

namespace QmaskCore

namespace Search

open Relation (ReflTransGen)

variable {α : Type} [DecidableEq α]

/-- The nodes of a list that have not been seen, each once. -/
def fresh : List α → List α → List α
  | _, [] => []
  | seen, a :: rest => if a ∈ seen then fresh seen rest else a :: fresh (seen ++ [a]) rest

/-- `queue` holds all nodes seen, `pending` those of them still to be looked at. -/
def search (next : α → List α) : Nat → List α → List α → List α
  | 0, queue, _ => queue
  | _ + 1, queue, [] => queue
  | fuel + 1, queue, a :: pending =>
      let found := fresh queue (next a)
      search next fuel (queue ++ found) (pending ++ found)

theorem mem_fresh {b : α} : ∀ {l seen : List α}, b ∈ fresh seen l ↔ b ∈ l ∧ b ∉ seen := by
  intro l
  induction l with
  | nil => simp [fresh]
  | cons a rest ih =>
      intro seen
      rw [fresh]
      split
      · rw [ih, List.mem_cons]
        constructor
        · exact fun found => ⟨.inr found.1, found.2⟩
        · rintro ⟨rfl | mem, unseen⟩
          · contradiction
          · exact ⟨mem, unseen⟩
      · rename_i new
        rw [List.mem_cons, ih, List.mem_append, List.mem_singleton, List.mem_cons]
        constructor
        · rintro (rfl | ⟨mem, unseen⟩)
          · exact ⟨.inl rfl, new⟩
          · exact ⟨.inr mem, fun seen => unseen (.inl seen)⟩
        · rintro ⟨rfl | mem, unseen⟩
          · exact .inl rfl
          · by_cases same : b = a
            · exact .inl same
            · exact .inr ⟨mem, fun seen => seen.elim unseen same⟩

theorem nodup_append_fresh : ∀ {l seen : List α}, seen.Nodup → (seen ++ fresh seen l).Nodup := by
  intro l
  induction l with
  | nil => exact fun distinct => by simpa [fresh]
  | cons a rest ih =>
      intro seen distinct
      rw [fresh]
      split
      · exact ih distinct
      · rename_i new
        have longer : (seen ++ [a]).Nodup := by
          refine List.nodup_append.mpr ⟨distinct, List.nodup_singleton a, ?_⟩
          rintro b mem _ only rfl
          rw [List.mem_singleton] at only
          exact new (only ▸ mem)
        have rest := ih longer
        rwa [List.append_assoc, List.singleton_append] at rest

/-- What the loop keeps: `done` are the nodes looked at. -/
structure Walk (next : α → List α) (U : Finset α) (starts done pending : List α) : Prop where
  distinct : (done ++ pending).Nodup
  inside : ∀ a ∈ done ++ pending, a ∈ U
  reached : ∀ b ∈ done ++ pending, ∃ a ∈ starts, ReflTransGen (fun x y => y ∈ next x) a b
  started : ∀ a ∈ starts, a ∈ done ++ pending
  closed : ∀ a ∈ done, ∀ b ∈ next a, b ∈ done ++ pending

variable {next : α → List α} {U : Finset α} {starts : List α}

theorem Walk.step {done pending : List α} {a : α} (walk : Walk next U starts done (a :: pending))
    (closed : ∀ a ∈ U, ∀ b ∈ next a, b ∈ U) :
    Walk next U starts (done ++ [a]) (pending ++ fresh (done ++ a :: pending) (next a)) := by
  have same : done ++ [a] ++ (pending ++ fresh (done ++ a :: pending) (next a)) =
      done ++ a :: pending ++ fresh (done ++ a :: pending) (next a) := by simp
  have here : a ∈ done ++ a :: pending := by simp
  refine ⟨same ▸ nodup_append_fresh walk.distinct, ?_, ?_, ?_, ?_⟩
  · intro b mem
    rw [same] at mem
    rcases List.mem_append.mp mem with seen | new
    · exact walk.inside b seen
    · exact closed a (walk.inside a here) b (mem_fresh.mp new).1
  · intro b mem
    rw [same] at mem
    rcases List.mem_append.mp mem with seen | new
    · exact walk.reached b seen
    · obtain ⟨s, start, path⟩ := walk.reached a here
      exact ⟨s, start, path.tail (mem_fresh.mp new).1⟩
  · intro b start
    rw [same]
    exact List.mem_append_left _ (walk.started b start)
  · intro b looked c leads
    rw [same]
    rcases List.mem_append.mp looked with earlier | now
    · exact List.mem_append_left _ (walk.closed b earlier c leads)
    · obtain rfl := List.mem_singleton.mp now
      by_cases seen : c ∈ done ++ b :: pending
      · exact List.mem_append_left _ seen
      · exact List.mem_append_right _ (mem_fresh.mpr ⟨leads, seen⟩)

/-- With fuel for every node that can be seen the loop ends with nothing pending. -/
theorem Walk.search (closed : ∀ a ∈ U, ∀ b ∈ next a, b ∈ U) : ∀ (fuel : Nat)
    {done pending : List α}, Walk next U starts done pending → U.card ≤ fuel + done.length →
    Walk next U starts (Search.search next fuel (done ++ pending) pending) [] := by
  intro fuel
  have ended {done : List α} (walk : Walk next U starts done []) :
      Walk next U starts (done ++ []) [] := by rwa [List.append_nil]
  induction fuel with
  | zero =>
      intro done pending walk enough
      have few : (done ++ pending).length ≤ U.card := by
        rw [← List.toFinset_card_of_nodup walk.distinct]
        exact Finset.card_le_card fun a mem => walk.inside a (List.mem_toFinset.mp mem)
      rw [List.length_append] at few
      obtain rfl : pending = [] := List.eq_nil_of_length_eq_zero (by omega)
      exact ended walk
  | succ fuel ih =>
      intro done pending walk enough
      cases pending with
      | nil => exact ended walk
      | cons a pending =>
          have next := ih (walk.step closed) (by
            rw [List.length_append, List.length_singleton]
            omega)
          rw [Search.search]
          simpa using next

/-- **Search.** On a finite set that the edges do not leave, the queue ends up
with what can be reached, each node once. -/
theorem search_spec {fuel : Nat} (distinct : starts.Nodup) (inside : ∀ a ∈ starts, a ∈ U)
    (closed : ∀ a ∈ U, ∀ b ∈ next a, b ∈ U) (enough : U.card ≤ fuel) :
    (search next fuel starts starts).Nodup ∧ ∀ b, b ∈ search next fuel starts starts ↔
      ∃ a ∈ starts, ReflTransGen (fun x y => y ∈ next x) a b := by
  have walk : Walk next U starts [] starts :=
    ⟨distinct, inside, fun b mem => ⟨b, mem, .refl⟩, fun _ mem => mem, fun _ mem => nomatch mem⟩
  have whole := walk.search closed fuel (by simpa using enough)
  simp only [List.nil_append] at whole
  refine ⟨by simpa using whole.distinct, fun b => ⟨fun mem => whole.reached b (by simpa), ?_⟩⟩
  rintro ⟨a, start, path⟩
  induction path with
  | refl => simpa using whole.started a start
  | tail _ leads ih => simpa using whole.closed _ ih _ leads

omit [DecidableEq α] in
/-- A node is added with the edges that lead into it. -/
theorem reach_added {R R' : α → α → Prop} {into : α → Prop} {new : α}
    (edges : ∀ a b, R' a b → R a b ∨ b = new ∧ (a = new ∨ into a))
    (old : ∀ a b, R a b → R' a b) (led : ∀ a, into a → R' a new) (sink : ∀ b, ¬ R new b)
    {a b : α} : ReflTransGen R' a b ↔
      ReflTransGen R a b ∨ b = new ∧ ∃ p, into p ∧ ReflTransGen R a p := by
  constructor
  · intro path
    induction path with
    | refl => exact .inl .refl
    | tail _ edge ih =>
        rcases edges _ _ edge with same | ⟨rfl, rfl | source⟩
        · rcases ih with path | ⟨rfl, -⟩
          · exact .inl (path.tail same)
          · exact absurd same (sink _)
        · exact ih
        · rcases ih with path | ⟨rfl, through⟩
          · exact .inr ⟨rfl, _, source, path⟩
          · exact .inr ⟨rfl, through⟩
  · rintro (path | ⟨rfl, p, source, path⟩)
    · exact path.lift id old
    · exact (path.lift id old).tail (led p source)

end Search

end QmaskCore
