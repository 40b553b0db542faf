import LanguageTest.Linux.LRURefinement

namespace LanguageTest.LRU
open Recency (Entries Op keys)

variable {K V : Type} {conv : K → Int} {null : V} {cap : Nat}

theorem initial_refines : Refines conv cap (initial cap : State K V) [] := by
  constructor <;> simp [initial]

/-- A call that meets the condition answers as the abstract cache does. -/
theorem step_refines [DecidableEq K] {s : State K V} {l : Entries K V} (hcap : 1 ≤ cap)
    (op : Op K V) (h : Refines conv cap s l) (hc : NoClash conv op s) :
    Runs (Template.step conv null op) s fun r u =>
      r = (Recency.step cap null op l).1 ∧ Refines conv cap u (Recency.step cap null op l).2 := by
  cases op with
  | get key =>
    rw [Template.step, runs_bind]
    refine (get_refines h hc).mono fun r u hu => ?_
    exact runs_pure.mpr ⟨congrArg some hu.1, hu.2⟩
  | put key value =>
    rw [Template.step, runs_bind]
    refine (put_refines hcap h hc).mono fun _ u hu => ?_
    exact runs_pure.mpr ⟨rfl, hu⟩

/-- One more call of a run that meets the condition. -/
theorem step_follows [DecidableEq K] {s : State K V} {ops : List (Op K V)} {rs : List (Option V)}
    (hcap : 1 ≤ cap) (op : Op K V)
    (h : Follows (Recency.step cap null) (Refines conv cap) [] ops rs s)
    (hc : NoClash conv op s) :
    Runs (Template.step conv null op) s fun r u =>
      Follows (Recency.step cap null) (Refines conv cap) [] (ops ++ [op]) (rs ++ [r]) u := by
  exact (step_refines hcap op h.2 hc).mono fun r u hu => h.next hu.1 hu.2

theorem readState_bind {α : Type} {f : State K V → Program (State K V) α} {s : State K V} :
    (readState >>= f) s = f s s := rfl

/-- The last entry may leave the map first or the list first. -/
theorem evict_eq {α : Type} {k : Program (State Int Int) α} :
    (do
      mapErase (← listBack).key
      popBack
      k) =
    (do
      let n ← listBack
      popBack
      mapErase n.key
      k) := by
  funext s
  cases h : s.list.getLast? <;>
    simp [listBack, popBack, mapErase, StateT.bind, Except.bind, bind, h]

theorem LeetCode.put_eq (key value : Int) : LeetCode.put key value = LRUCache.put key value := by
  funext s
  rw [LeetCode.put, LRUCache.put, Template.put, readState_bind, readState_bind, id]
  cases s.m key with
  | some p => rfl
  | none => simp only [readState_bind, eq_comm (a := s.cap), evict_eq, id]

theorem LRUCache.step_eq : LRUCache.step = Template.step id (-1) := by
  funext op
  cases op <;> rfl

theorem LeetCode.step_eq : LeetCode.step = LRUCache.step := by
  funext op
  cases op with
  | get key => rfl
  | put key value => rw [LeetCode.step, LRUCache.step, LeetCode.put_eq]

/-- The caches with `int` keys are least recently used caches, in every run. -/
theorem run_refines (hcap : 1 ≤ cap) (ops : List (Op Int Int)) :
    Runs (LRUCache.run ops) (initial cap)
      (Follows (Recency.step cap (-1)) (Refines id cap) [] ops) ∧
    Runs (LeetCode.run ops) (initial cap)
      (Follows (Recency.step cap (-1)) (Refines id cap) [] ops) := by
  rw [LeetCode.run, LRUCache.run, LeetCode.step_eq, and_self, LRUCache.step_eq]
  refine runs_all _ ops ?_ ⟨rfl, initial_refines⟩
  intro pre op post rs s _ hi
  refine step_follows hcap op hi ?_
  -- An `int` key is its own conversion, so keys that convert alike are the same.
  cases op with
  | get key => exact fun n _ hn => hn
  | put key value => exact fun n _ hn => .inl hn

theorem run_refines_sample :
    Runs (LRUCache.run [.put 1 1, .put 2 2, .get 1, .put 3 3, .get 2]) (initial 2)
      (Follows (Recency.step 2 (-1)) (Refines id 2) []
        [.put 1 1, .put 2 2, .get 1, .put 3 3, .get 2]) :=
  (run_refines (by decide) _).1

example :
    ((LRUCache.run [.put 1 1, .put 2 2, .get 1, .put 3 3, .get 2] (initial 2)).toOption.map
      Prod.fst) = some [none, none, some 1, none, some (-1)] := by
  decide +kernel

/-- The list holds the entries of the abstract cache, and the map refers to exactly their nodes. -/
structure Holds (conv : K → Int) (s : State K V) (l : Entries K V) : Prop where
  entries : s.list.map entry = l
  index : ∀ i p, s.m i = some p ↔ ∃ n ∈ s.list, n.id = p ∧ conv n.key = i

theorem Refines.holds {s : State K V} {l : Entries K V} (h : Refines conv cap s l) :
    Holds conv s l :=
  ⟨h.entries, h.index⟩

/-- Only the last entry of a full cache may give its place to another key. -/
theorem last_of_put [DecidableEq K] {s : State K V} {l : Entries K V} {n : Node K V}
    {xs ys : List (Node K V)} {key : K} {value : V} (h : Refines conv cap s l)
    (hl : s.list = xs ++ n :: ys) (hk : key ∉ keys l)
    (hp : (key, value) :: (xs ++ ys).map entry = Recency.put cap l key value) :
    s.count = s.cap ∧ s.list.getLast? = some n := by
  have hsplit : l = xs.map entry ++ entry n :: ys.map entry := by
    rw [← h.entries, hl, List.map_append, List.map_cons]
  by_cases hfull : l.length = cap
  · refine ⟨by rw [h.count, h.capacity, hfull], ?_⟩
    rw [Recency.put_full hk hfull, List.cons.injEq] at hp
    rcases List.eq_nil_or_concat ys with rfl | ⟨zs, m, rfl⟩
    · rw [hl, List.getLast?_concat]
    · have hn := h.keys_nodup
      rw [hsplit] at hn
      obtain ⟨hx, hy⟩ := Recency.not_mem_of_split hn
      have hmem : entry n ∈ (xs ++ zs.concat m).map entry := by
        rw [hp.2, hsplit, List.concat_eq_append, List.map_append, List.map_singleton,
          ← List.cons_append, ← List.append_assoc, List.dropLast_concat]
        simp
      rw [List.map_append, List.mem_append] at hmem
      exact absurd (hmem.imp (List.mem_map_of_mem (f := Prod.fst)) (List.mem_map_of_mem))
        (not_or.mpr ⟨hx, hy⟩)
  · rw [Recency.put_room hk hfull, List.cons.injEq] at hp
    have hlen := congrArg List.length (hp.2.trans hsplit)
    simp at hlen

/-- A call that meets another key of the same conversion changes what the cache holds. -/
theorem noClash_of_holds [DecidableEq K] {s : State K V} {l : Entries K V} (op : Op K V)
    (h : Refines conv cap s l)
    (hr : Runs (Template.step conv null op) s fun _ u =>
      Holds conv u (Recency.step cap null op l).2) : NoClash conv op s := by
  cases op with
  | get key =>
    intro n hn he
    by_contra hk
    have hnk := h.clash_not_mem hn he hk
    obtain ⟨xs, ys, hl⟩ := List.append_of_mem hn
    rw [Template.step, runs_bind, Recency.step, Recency.get_of_not_mem hnk] at hr
    obtain ⟨v, u, -, hu, -, h'⟩ := hr.and (get_hit h hl he)
    have hu' := (runs_pure.mp hu).entries
    rw [h'.entries] at hu'
    refine hnk ?_
    rw [← show _ = l from hu']
    simp
  | put key value =>
    intro n hn he
    by_cases hk : n.key = key
    · exact .inl hk
    · refine .inr ?_
      obtain ⟨xs, ys, hl⟩ := List.append_of_mem hn
      rw [Template.step, runs_bind, Recency.step] at hr
      obtain ⟨_, u, -, hu, h'⟩ := hr.and (put_hit h hl he)
      have hu' := (runs_pure.mp hu).entries
      rw [h'.entries] at hu'
      exact last_of_put h hl (h.clash_not_mem hn he hk) hu'

/-- The template cache with keys of type `K` acts as a least recently used cache over `K`
throughout a run exactly when no call of the run meets a clash of the converted keys. -/
theorem run_refines_iff [DecidableEq K] (hcap : 1 ≤ cap) (ops : List (Op K V)) :
    (∀ pre, pre <+: ops → Runs (Template.run conv null pre) (initial cap)
      (Follows (Recency.step cap null) (Holds conv) [] pre)) ↔
    StepsMeet (Template.step conv null) (NoClash conv) ops (initial cap) := by
  symm
  refine StepsMeet.iff_prefixes (Follows (Recency.step cap null) (Refines conv cap) []) ops
    ?_ ?_ (fun _ _ _ h => ⟨h.1, h.2.holds⟩) ⟨rfl, initial_refines⟩
  · exact fun pre op post rs s _ hi hc => step_follows hcap op hi hc
  · intro pre op post rs s _ hi hr
    refine noClash_of_holds op hi.2 (hr.mono fun r u hu => ?_)
    have hh := hu.2
    rwa [traceAll_append] at hh

/-- The conversion of a 64-bit key to `int`. -/
def ofInt64 (key : Int64) : Int := key.toInt32.toInt

theorem run_refines_iff_small :
    Runs (Template.run ofInt64 "null" [.put 1 "a", .get 1]) (initial 1)
      (Follows (Recency.step 1 "null") (Holds ofInt64) [] [.put 1 "a", .get 1]) := by
  refine (run_refines_iff (by decide) [.put 1 "a", .get 1]).mpr ?_ _ List.prefix_rfl
  refine ⟨by simp [NoClash, initial], fun r t ht => ⟨fun n hn _ => ?_, fun _ _ _ => trivial⟩⟩
  cases ht
  exact congrArg Node.key (List.mem_singleton.mp hn)

/-- The keys 0 and 2 ^ 32 share an entry. -/
theorem run_shares_entry :
    ¬ ∀ pre, pre <+: [.put (0 : Int64) "a", .get 4294967296] →
      Runs (Template.run ofInt64 "null" pre) (initial 1)
        (Follows (Recency.step 1 "null") (Holds ofInt64) [] pre) := by
  intro h
  obtain ⟨rs, s, hr, hs⟩ := h _ List.prefix_rfl
  have hres : ((Template.run ofInt64 "null" [.put 0 "a", .get 4294967296] (initial 1)).toOption.map
      Prod.fst) = some [none, some "a"] := by decide +kernel
  rw [hr] at hres
  obtain rfl : rs = [none, some "a"] := by simpa [Except.toOption] using hres
  exact absurd hs.1 (by decide +kernel)

end LanguageTest.LRU
