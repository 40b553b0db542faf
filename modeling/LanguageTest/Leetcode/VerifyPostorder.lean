import LanguageTest.Library.Postorder
import LanguageTest.Library.Rearranged

namespace LanguageTest.VerifyPostorder
open Sorting

/-- The vector `data`. -/
abbrev State := Vec Unit Int

/-- The first loop: it stops at the first element that is not less. -/
def skip (fuel : Nat) (val left : Int) : Program State Int :=
  loop (fun cur => do
    if (← element cur) < val then pure (.again (← int (cur + 1)))
    else pure (.done cur)) fuel left

/-- The second loop, whose condition is `cur++ < right`. It tells whether it ended without
`return false`. -/
def scan (fuel : Nat) (val right mid : Int) : Program State Bool :=
  loop (fun cur => do
    let next ← int (cur + 1)
    if cur < right then
      if (← element next) < val then pure (.done false)
      else pure (.again next)
    else pure (.done true)) fuel mid

def verify : Nat → Int → Int → Program State Bool
  | 0, _, _ => fail .outOfFuel
  | fuel + 1, left, right => do
    if left ≥ right then pure true
    else
      let val ← element right
      let mid ← skip (fuel + 1) val left
      if ← scan (fuel + 1) val right mid then
        (do verify fuel left (← int (mid - 1))) <&&> (do verify fuel mid (← int (right - 1)))
      else pure false

def verifyPostorder (fuel : Nat) : Program State Bool := do
  let n ← size
  if n = 0 then pure true
  else verify fuel 0 (toInt (n - 1))

/-- The elements are the same, and only indices from `a` to `b` were accessed. -/
structure Read (a b : Nat) (s t : State) : Prop where
  items : t.items = s.items
  within : s.Within a b t

/-- The answer for the elements from `l` up to, but not at, `r`. -/
def Verified (l r : Nat) (s : State) (b : Bool) (t : State) : Prop :=
  Read l (r - 1) s t ∧ (s.items.Nodup → (b = true ↔ IsPostorder (slice l r s.items)))

section
variable {s t u : State} {v : Int} {a b l r m k fuel : Nat}

theorem Read.refl : Read a b s s := ⟨rfl, Vec.Within.refl⟩

theorem Read.trans (h : Read a b s t) (h' : Read a b t u) : Read a b s u :=
  ⟨h'.items.trans h.items, h.within.trans h'.within⟩

theorem Read.length_eq (h : Read a b s t) : t.items.length = s.items.length := by rw [h.items]

theorem Read.touch (ha : a ≤ k) (hb : k ≤ b) : Read a b s (s.touch k) := by
  refine ⟨rfl, [(k : Int)], rfl, fun i hi => ?_⟩
  obtain rfl := List.mem_singleton.mp hi
  omega

theorem Read.mono {p q : Nat} (h : Read p q s t) (ha : a ≤ p) (hb : q ≤ b) : Read a b s t :=
  ⟨h.items, h.within.mono ha hb⟩

/-- The first element from `l` on that is not less. -/
theorem skip_spec (hlr : l ≤ r) (hr : r < s.items.length) (hn : s.items.length ≤ 2147483647)
    (hstop : ¬ s.items[r]! < v) (hf : r - l < fuel) :
    Runs (skip fuel v l) s fun mid t => Read l r s t ∧ ∃ m : Nat, mid = m ∧ l ≤ m ∧ m ≤ r ∧
      (∀ k, l ≤ k → k < m → s.items[k]! < v) ∧ ¬ s.items[m]! < v := by
  refine runs_loop (k := r - l) (fun k (cur : Int) t => Read l r s t ∧ ∃ c : Nat, cur = c ∧ l ≤ c ∧
    c ≤ r ∧ k = r - c ∧ ∀ k, l ≤ k → k < c → s.items[k]! < v) ?_
    ⟨Read.refl, l, rfl, le_rfl, hlr, rfl, fun k hk hkl => by omega⟩ hf
  rintro _ _ t ⟨hread, c, rfl, hlc, hcr, rfl, hbefore⟩
  have hitems := hread.items
  have htouch := hread.trans (Read.touch (s := t) hlc hcr)
  rw [runs_bind, runs_element (by rw [hitems]; omega), hitems]
  by_cases hless : s.items[c]! < v
  · have hne : c ≠ r := fun heq => hstop (heq ▸ hless)
    have hcast : (c : Int) + 1 = (c + 1 : Nat) := by omega
    rw [if_pos hless, hcast, runs_int_bind (by omega) (by omega), runs_pure]
    refine ⟨r - (c + 1), by omega, htouch, c + 1, rfl, by omega, by omega, rfl, ?_⟩
    intro k hk hkc
    rcases Nat.lt_succ_iff_lt_or_eq.mp hkc with hlt | rfl
    · exact hbefore k hk hlt
    · exact hless
  · rw [if_neg hless, runs_pure]
    exact ⟨htouch, c, rfl, hlc, hcr, hbefore, hless⟩

/-- Whether no element behind `m` is less. -/
theorem scan_spec (hlm : l ≤ m) (hmr : m ≤ r) (hr : r < s.items.length)
    (hn : s.items.length ≤ 2147483647) (hf : r - m < fuel) :
    Runs (scan fuel v r m) s fun b t => Read l r s t ∧
      (b = true ↔ ∀ k, m < k → k ≤ r → ¬ s.items[k]! < v) := by
  refine runs_loop (k := r - m) (fun k (cur : Int) t => Read l r s t ∧ ∃ c : Nat, cur = c ∧ m ≤ c ∧
    c ≤ r ∧ k = r - c ∧ ∀ k, m < k → k ≤ c → ¬ s.items[k]! < v) ?_
    ⟨Read.refl, m, rfl, le_rfl, hmr, rfl, fun k hk hkl => by omega⟩ hf
  rintro _ _ t ⟨hread, c, rfl, hmc, hcr, rfl, hbefore⟩
  have hitems := hread.items
  have hcast : (c : Int) + 1 = (c + 1 : Nat) := by omega
  rw [hcast, runs_int_bind (by omega) (by omega)]
  rcases Nat.eq_or_lt_of_le hcr with rfl | hlt
  · rw [if_neg (by omega), runs_pure]
    exact ⟨hread, iff_of_true rfl hbefore⟩
  · have htouch := hread.trans (Read.touch (s := t) (k := c + 1) (b := r) (a := l) (by omega) hlt)
    rw [if_pos (by omega), runs_bind, runs_element (by rw [hitems]; omega), hitems]
    by_cases hless : s.items[c + 1]! < v
    · rw [if_pos hless, runs_pure]
      exact ⟨htouch, iff_of_false Bool.false_ne_true fun hall => hall (c + 1) (by omega) hlt hless⟩
    · rw [if_neg hless, runs_pure]
      refine ⟨r - (c + 1), by omega, htouch, c + 1, rfl, by omega, hlt, rfl, ?_⟩
      intro k hk hkc
      rcases Nat.lt_succ_iff_lt_or_eq.mp (Nat.lt_succ_of_le hkc) with hlt | rfl
      · exact hbefore k hk (by omega)
      · exact hless

/-- What the two loops decide about a range with an element before its last one. -/
theorem isPostorder_slice {xs : List Int} (hxs : xs.Nodup) (hlm : l ≤ m) (hmr : m ≤ r)
    (hr : r < xs.length) (hless : ∀ k, l ≤ k → k < m → xs[k]! < xs[r]!)
    (hstop : ¬ xs[m]! < xs[r]!) :
    IsPostorder (slice l (r + 1) xs) ↔ (∀ k, m < k → k ≤ r → ¬ xs[k]! < xs[r]!) ∧
      IsPostorder (slice l m xs) ∧ IsPostorder (slice m r xs) := by
  have hroot : slice r (r + 1) xs = [xs[r]!] := by
    rw [slice_cons (Nat.lt_succ_self r) hr, slice_self]
  have hsplit : slice l (r + 1) xs = slice l m xs ++ (slice m r xs ++ [xs[r]!]) := by
    rw [← hroot, ← slice_append hmr (Nat.le_succ r), ← slice_append hlm (by omega)]
  have hhead : ∀ x ∈ (slice m r xs).head?, ¬ x < xs[r]! := by
    intro x hx
    rcases Nat.eq_or_lt_of_le hmr with rfl | hlt
    · rw [slice_self] at hx
      exact absurd hx (Option.not_mem_none x)
    · rw [slice_cons hlt hr.le, List.head?_cons, Option.mem_some_iff] at hx
      exact hx ▸ hstop
  have hbefore : ∀ x ∈ slice l m xs, x < xs[r]! := by
    intro x hx
    obtain ⟨k, hlk, hkm, rfl⟩ := (mem_slice (by omega)).mp hx
    exact hless k hlk hkm
  rw [hsplit, isPostorder_iff hbefore hhead]
  refine and_congr_left fun _ => ?_
  constructor
  · intro hgreater k hmk hkr
    rcases Nat.eq_or_lt_of_le hkr with rfl | hlt
    · exact lt_irrefl _
    · exact (hgreater _ ((mem_slice hr.le).mpr ⟨k, hmk.le, hlt, rfl⟩)).not_gt
  · intro hnot x hx
    obtain ⟨k, hmk, hkr, rfl⟩ := (mem_slice hr.le).mp hx
    -- no other element equals the root
    have hne : xs[r]! ≠ xs[k]! := by
      rw [getElem!_pos xs r hr, getElem!_pos xs k (by omega)]
      exact fun heq => hkr.ne' (hxs.getElem_inj_iff.mp heq)
    rcases Nat.eq_or_lt_of_le hmk with rfl | hlt
    · exact lt_of_le_of_ne (not_lt.mp hstop) hne
    · exact lt_of_le_of_ne (not_lt.mp (hnot k hlt hkr.le)) hne

theorem isPostorder_short {xs : List Int} (hr : r ≤ xs.length) (hlr : r ≤ l + 1) :
    IsPostorder (slice l r xs) := by
  rcases Nat.lt_or_ge l r with hlt | hge
  · obtain rfl : r = l + 1 := by omega
    rw [slice_cons (Nat.lt_succ_self l) hr, slice_self]
    exact isPostorder_singleton
  · have hnil : slice l r xs = [] := by rw [slice, Nat.sub_eq_zero_of_le hge, List.take_zero]
    rw [hnil]
    exact isPostorder_nil

/-- The two calls, when each of them is right about its range. -/
theorem calls_spec (hlm : l ≤ m) (hmr : m ≤ r) (hr : r ≤ 2147483647)
    (hleft : ∀ t : State, t.items = s.items →
      Runs (verify fuel l ((m : Int) - 1)) t (Verified l m t))
    (hright : ∀ t : State, t.items = s.items →
      Runs (verify fuel m ((r : Int) - 1)) t (Verified m r t)) :
    Runs ((do verify fuel l (← int ((m : Int) - 1))) <&&>
      (do verify fuel m (← int ((r : Int) - 1)))) s fun b t => Read l r s t ∧ (s.items.Nodup →
        (b = true ↔ IsPostorder (slice l m s.items) ∧ IsPostorder (slice m r s.items))) := by
  rw [runs_andM, runs_int_bind (by omega) (by omega)]
  refine (hleft s rfl).mono ?_
  rintro b t ⟨ht, hb⟩
  have ht := ht.mono (Nat.le_refl l) (show m - 1 ≤ r by omega)
  cases b with
  | false =>
    refine ⟨ht, fun hxs => iff_of_false Bool.false_ne_true fun hpost => ?_⟩
    exact absurd ((hb hxs).mpr hpost.1) Bool.false_ne_true
  | true =>
    rw [if_pos rfl, runs_int_bind (by omega) (by omega)]
    refine (hright t ht.items).mono ?_
    rintro b u ⟨hu, hb'⟩
    rw [ht.items] at hb'
    refine ⟨ht.trans (hu.mono hlm (by omega)), fun hxs => (hb' hxs).trans ?_⟩
    exact (and_iff_right ((hb hxs).mp rfl)).symm

theorem verify_spec (hlr : l ≤ r) (hr : r ≤ s.items.length) (hn : s.items.length ≤ 2147483647)
    (hf : r - l < fuel) : Runs (verify fuel l ((r : Int) - 1)) s (Verified l r s) := by
  induction fuel generalizing l r s with
  | zero => omega
  | succ fuel ih =>
    rw [verify]
    rcases Nat.lt_or_ge (l + 1) r with hlt | hge
    · obtain ⟨r, rfl⟩ : ∃ q, r = q + 1 := ⟨r - 1, by omega⟩
      have hcast : ((r + 1 : Nat) : Int) - 1 = r := by omega
      rw [if_neg (by omega), hcast, runs_bind, runs_element hr, runs_bind]
      have htouch : Read l r s (s.touch r) := Read.touch (by omega) le_rfl
      refine (skip_spec (s := s.touch r) (v := s.items[r]!) (by omega) hr hn (lt_irrefl _)
        (by omega)).mono ?_
      rintro _ t ⟨ht, m, rfl, hlm, hmr, hless, hstop⟩
      have ht := htouch.trans ht
      have htlength := ht.length_eq
      rw [Vec.touch_items] at hless hstop
      rw [runs_bind]
      refine (scan_spec (s := t) (v := s.items[r]!) hlm hmr (by omega) (by omega)
        (by omega)).mono ?_
      rintro b u ⟨hu, hb⟩
      have hu := ht.trans hu
      have hulength := hu.length_eq
      rw [ht.items] at hb
      have hsplit (hxs : s.items.Nodup) := isPostorder_slice hxs hlm hmr hr hless hstop
      cases b with
      | false =>
        refine runs_pure.mpr ⟨hu, fun hxs => iff_of_false Bool.false_ne_true fun hpost => ?_⟩
        exact absurd (hb.mpr ((hsplit hxs).mp hpost).1) Bool.false_ne_true
      | true =>
        rw [if_pos rfl]
        refine (calls_spec (s := u) hlm hmr (by omega)
          (fun v hv => ih hlm (by rw [hv]; omega) (by rw [hv]; omega) (by omega))
          (fun v hv => ih hmr (by rw [hv]; omega) (by rw [hv]; omega) (by omega))).mono ?_
        rintro b v ⟨hv, hb'⟩
        rw [hu.items] at hb'
        refine ⟨hu.trans hv, fun hxs => (hb' hxs).trans ?_⟩
        rw [hsplit hxs]
        exact (and_iff_right (hb.mp rfl)).symm
    · rw [if_pos (by omega), runs_pure]
      exact ⟨Read.refl, fun _ => iff_of_true rfl (isPostorder_short hr hge)⟩

end

/-- A decision procedure for post-order sequences, each of whose calls reads only its range. -/
theorem verifyPostorder_iff (s : State) (hdistinct : s.items.Nodup)
    (hn : s.items.length ≤ 2147483647) (fuel : Nat) (hf : s.items.length < fuel) :
    (Runs (verifyPostorder fuel) s fun b t => t.items = s.items ∧
      (b = true ↔ IsPostorder s.items)) ∧
    ∀ left right : Int, 0 ≤ left → right < s.items.length →
      Runs (verify fuel left right) s fun _ t => ∃ log : List Int,
        t.touched = s.touched ++ log ∧ ∀ i ∈ log, left ≤ i ∧ i ≤ right := by
  constructor
  · rw [verifyPostorder, runs_bind, runs_size]
    rcases Nat.eq_zero_or_pos s.items.length with hzero | hpos
    · rw [if_pos hzero, runs_pure, List.length_eq_zero_iff.mp hzero]
      exact ⟨rfl, iff_of_true rfl isPostorder_nil⟩
    · have hcast : ((s.items.length - 1 : Nat) : Int) = (s.items.length : Int) - 1 := by omega
      rw [if_neg hpos.ne', toInt_of_lt (by omega), hcast]
      refine (verify_spec (l := 0) (Nat.zero_le _) le_rfl hn hf).mono fun b t ⟨hread, hb⟩ => ?_
      have hall : slice 0 s.items.length s.items = s.items := List.take_length
      rw [hall] at hb
      exact ⟨hread.items, hb hdistinct⟩
  · intro left right hleft hright
    obtain ⟨fuel, rfl⟩ : ∃ f, fuel = f + 1 := ⟨fuel - 1, by omega⟩
    by_cases hle : left ≥ right
    · rw [verify, if_pos hle, runs_pure]
      exact ⟨[], (List.append_nil _).symm, by simp⟩
    · obtain ⟨l, rfl⟩ : ∃ l : Nat, left = l := ⟨left.toNat, by omega⟩
      obtain ⟨r, rfl⟩ : ∃ r : Nat, right = ((r + 1 : Nat) : Int) - 1 := ⟨right.toNat, by omega⟩
      refine (verify_spec (l := l) (r := r + 1) (by omega) (by omega) hn (by omega)).mono ?_
      rintro b t ⟨⟨-, log, htouched, hlog⟩, -⟩
      refine ⟨log, htouched, fun i hi => ?_⟩
      have hrange := hlog i hi
      omega

theorem verifyPostorder_iff_sample :
    (Runs (verifyPostorder 6) ⟨(), [1, 3, 2, 6, 5], []⟩ fun b t => t.items = [1, 3, 2, 6, 5] ∧
      (b = true ↔ IsPostorder [(1 : Int), 3, 2, 6, 5])) ∧
    ∀ left right : Int, 0 ≤ left → right < ([(1 : Int), 3, 2, 6, 5].length : Nat) →
      Runs (verify 6 left right) ⟨(), [1, 3, 2, 6, 5], []⟩ fun _ t => ∃ log : List Int,
        t.touched = [] ++ log ∧ ∀ i ∈ log, left ≤ i ∧ i ≤ right :=
  verifyPostorder_iff ⟨(), [1, 3, 2, 6, 5], []⟩ (by decide) (by decide) 6 (by decide)

/-- A root with a greater number before the less ones. -/
def mixed (n : Nat) : List Int := 1 :: (List.range n).map (fun k : Nat => -(k : Int) - 1) ++ [0]

section
variable {n fuel : Nat} {xs log : List Int}

theorem length_mixed : (mixed n).length = n + 2 := by
  simp [mixed]

theorem nodup_mixed : (mixed n).Nodup := by
  have hmap : ((List.range n).map fun k : Nat => -(k : Int) - 1).Nodup :=
    List.Nodup.map (fun i j (hij : -(i : Int) - 1 = -(j : Int) - 1) => by omega) List.nodup_range
  refine List.nodup_append'.mpr ⟨List.nodup_cons.mpr ⟨?_, hmap⟩, List.nodup_singleton 0, ?_⟩
  · simp only [List.mem_map, List.mem_range, not_exists, not_and]
    omega
  · intro x hx hzero
    simp only [List.mem_cons, List.mem_map, List.not_mem_nil, or_false] at hx hzero
    omega

theorem not_isPostorder_mixed (hn : 0 < n) : ¬ IsPostorder (mixed n) := by
  intro h
  obtain ⟨ls, rs, heq, -, -, hless, hgreater⟩ := IsPostorder.exists_split h
  cases ls with
  | nil =>
    have hmem : (-1 : Int) ∈ rs := by
      rw [List.nil_append] at heq
      rw [← heq]
      exact List.mem_cons_of_mem 1 (List.mem_map.mpr ⟨0, List.mem_range.mpr hn, rfl⟩)
    exact absurd (hgreater _ hmem) (by decide)
  | cons x ls =>
    obtain ⟨rfl, -⟩ := List.cons_eq_cons.mp heq
    exact absurd (hless _ List.mem_cons_self) (by decide)

/-- The last index becomes the least `int`. -/
theorem verifyPostorder_of_length (hlength : xs.length = 2147483649) :
    Runs (verifyPostorder (fuel + 1)) ⟨(), xs, log⟩ fun b _ => b = true := by
  have hlast : toInt (xs.length - 1) = -2147483648 := by
    rw [hlength]
    decide
  have hne : xs.length ≠ 0 := by omega
  rw [verifyPostorder, runs_bind, runs_size, if_neg hne, hlast, verify, if_pos (by decide),
    runs_pure]

end

theorem verifyPostorder_mixed : (mixed 2147483647).Nodup ∧ ¬ IsPostorder (mixed 2147483647) ∧
    ∀ (fuel : Nat) (log : List Int),
      Runs (verifyPostorder (fuel + 1)) ⟨(), mixed 2147483647, log⟩ fun b _ => b = true :=
  ⟨nodup_mixed, not_isPostorder_mixed (by decide), fun _ _ =>
    verifyPostorder_of_length length_mixed⟩

end LanguageTest.VerifyPostorder
