import LanguageTest.Race.TrieCounts

namespace LanguageTest.Trie

/-- What a command does to the words that count: a deletion removes those that begin with its
word. -/
def Op.onWords : Op → List (List Char) → List (List Char)
  | .insert w, words => w :: words
  | .search _, words => words
  | .delete w, words => words.filter fun v => ¬ w <+: v

def remaining (ops : List Op) : List (List Char) :=
  ops.foldl (fun words op => op.onWords words) []

/-- How many of the words begin with `p`. -/
def total (words : List (List Char)) (p : List Char) : Int := (words.countP fun v => p <+: v : Nat)

variable {maxn : Nat} {root : Trie maxn} {words : List (List Char)} {ops : List Op}
variable {w p : List Char}

/-- The counts of the trie are those of the words. -/
def Counts (root : Trie maxn) (words : List (List Char)) : Prop :=
  ∀ p, Lower p → p ≠ [] → countAt root p = total words p

theorem total_cons : total (w :: words) p = total words p + if p <+: w then 1 else 0 := by
  rw [total, List.countP_cons, total]
  split_ifs with h <;> simp_all

theorem total_zero (h : ∀ v ∈ words, ¬ p <+: v) : total words p = 0 := by
  rw [total, List.countP_eq_zero.mpr]
  · rfl
  · intro v hv
    simpa using h v hv

/-- Every word that begins with `w` begins with the prefixes of `w`. -/
theorem total_filter_ancestor (h : p <+: w) :
    total (words.filter fun v => ¬ w <+: v) p = total words p - total words w := by
  induction words with
  | nil => rfl
  | cons v words ih =>
    by_cases hw : w <+: v
    · rw [List.filter_cons_of_neg (by simpa using hw), ih, total_cons, total_cons, if_pos hw,
        if_pos (h.trans hw)]
      omega
    · rw [List.filter_cons_of_pos (by simpa using hw), total_cons, ih, total_cons, total_cons,
        if_neg hw]
      omega

theorem total_filter_other (hp : ¬ p <+: w) (hw : ¬ w <+: p) :
    total (words.filter fun v => ¬ w <+: v) p = total words p := by
  induction words with
  | nil => rfl
  | cons v words ih =>
    by_cases h : w <+: v
    · have hv : ¬ p <+: v := fun hv => (List.prefix_or_prefix_of_prefix hv h).elim hp hw
      rw [List.filter_cons_of_neg (by simpa using h), ih, total_cons, if_neg hv, Int.add_zero]
    · rw [List.filter_cons_of_pos (by simpa using h), total_cons, ih, total_cons]

theorem total_filter_longer (h : w <+: p) : total (words.filter fun v => ¬ w <+: v) p = 0 := by
  apply total_zero
  intro v hv hp
  have hw : ¬ w <+: v := by simpa using (List.mem_filter.mp hv).2
  exact hw (h.trans hp)

/-- What is left at `p` when the words that begin with `w` are removed. -/
theorem total_filter : total (words.filter fun v => ¬ w <+: v) p =
    if w <+: p ∧ p ≠ w then 0 else total words p - if p <+: w then total words w else 0 := by
  by_cases hp : p <+: w
  · rw [total_filter_ancestor hp, if_pos hp, if_neg]
    intro h
    exact h.2 (List.IsPrefix.eq_of_length_le hp h.1.length_le)
  · by_cases hw : w <+: p
    · rw [total_filter_longer hw, if_pos]
      refine ⟨hw, ?_⟩
      intro h
      exact hp (h ▸ List.prefix_rfl)
    · rw [total_filter_other hp hw, if_neg hp, if_neg (fun h => hw h.1), Int.sub_zero]

theorem filter_of_total_zero (h : total words w = 0) :
    (words.filter fun v => ¬ w <+: v) = words := by
  apply List.filter_eq_self.mpr
  intro v hv
  rw [total, Int.natCast_eq_zero, List.countP_eq_zero] at h
  simpa using h v hv

theorem step_counts (hn : 26 ≤ maxn) (h : Counts root words) (op : Op) (hl : Lower op.word)
    (hne : op.word ≠ []) :
    Runs (step op) root fun _ root' => Counts root' (op.onWords words) := by
  cases op with
  | insert w =>
    obtain ⟨root', hi, hcount⟩ := insert_spec hn hl root
    have hstep : step (.insert w) root = .ok (none, root') := by
      rw [step, show insert root w = .ok root' from hi]
      rfl
    apply (runs_of_ok hstep).mpr
    intro p hp hpne
    rw [hcount p hp, h p hp hpne, Op.onWords, total_cons]
    simp [hpne, Op.word]
  | search w =>
    have hstep : step (.search w) root = .ok (some (countAt root w ≠ 0), root) := by
      rw [step, show search root w = .ok (countAt root w) from search_ok hn hl root]
      rfl
    exact (runs_of_ok hstep).mpr h
  | delete w =>
    have hl : Lower w := hl
    have hne : w ≠ [] := hne
    by_cases hk : countAt root w = 0
    · have hstep : step (.delete w) root = .ok (none, root) := by
        rw [step, search_ok hn hl root, hk]
        rfl
      apply (runs_of_ok hstep).mpr
      rw [Op.onWords, filter_of_total_zero ((h w hl hne).symm.trans hk)]
      exact h
    · obtain ⟨root', hd, hcount⟩ := delete_spec (k := countAt root w) hn hl
        (reaches_of_countAt hn hl hk)
      have hstep : step (.delete w) root = .ok (none, root') := by
        rw [step, search_ok hn hl root]
        simp only [Bind.bind, Except.bind, ne_eq, hk, not_false_eq_true, ↓reduceIte, hd]
        rfl
      apply (runs_of_ok hstep).mpr
      intro p hp hpne
      rw [hcount p hp, h p hp hpne, h w hl hne, Op.onWords, total_filter]
      simp [hpne]

theorem remaining_append (ops : List Op) (op : Op) :
    remaining (ops ++ [op]) = op.onWords (remaining ops) := by
  simp [remaining]

theorem counts_fresh (hn : 26 ≤ maxn) : Counts (fresh : Trie maxn) [] :=
  fun _ hp _ => countAt_fresh hn hp

/-- What the commands answer about the words that count. A deletion of `w` takes from the count
of a word that does not begin with `w` only the removed words, and only if it begins them. -/
structure Answers (root : Trie maxn) (words : List (List Char)) : Prop where
  search : ∀ v, Lower v → v ≠ [] → search root v = .ok (total words v)
  delete : ∀ w v, Lower w → w ≠ [] → Lower v → v ≠ [] → ¬ w <+: v →
    Runs (step (.delete w)) root fun _ root' =>
      Trie.search root' v = .ok (total words v - if v <+: w then total words w else 0)

theorem Counts.answers (hn : 26 ≤ maxn) (h : Counts root words) : Answers root words where
  search v hv hne := by rw [search_ok hn hv, h v hv hne]
  delete w v hw hwne hv hvne hwv := by
    refine (step_counts hn h (.delete w) hw hwne).mono fun _ root' h' => ?_
    rw [search_ok hn hv, h' v hv hvne, Op.onWords, total_filter, if_neg fun hp => hwv hp.1]

/-- After any commands the trie counts the words that were inserted and not removed, and no
command has followed a NULL child. -/
theorem run_counts (hn : 26 ≤ maxn) (ops : List Op)
    (hops : ∀ op ∈ ops, Lower op.word ∧ op.word ≠ []) :
    Runs (run ops) (fresh : Trie maxn) fun _ root => Answers root (remaining ops) := by
  have hcounts : Runs (run ops) (fresh : Trie maxn) fun _ root => Counts root (remaining ops) := by
    apply runs_all (fun pre _ root => Counts root (remaining pre)) ops
    · intro pre op post rs root he h
      obtain ⟨hl, hne⟩ := hops op (by simp [he])
      rw [remaining_append]
      exact step_counts hn h op hl hne
    · exact counts_fresh hn
  exact hcounts.mono fun _ root h => h.answers hn

theorem run_counts_delete :
    Runs (run [.insert ['a', 'b'], .delete ['a'], .insert ['a', 'c']]) (fresh : Trie 26)
      fun _ root => Answers root [['a', 'c']] :=
  run_counts (by decide) [.insert ['a', 'b'], .delete ['a'], .insert ['a', 'c']] (by
    simp [Op.word, Lower])

end LanguageTest.Trie
