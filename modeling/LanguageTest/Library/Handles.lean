import Mathlib.Data.Fintype.Card
import Mathlib.Data.Finset.Card

namespace LanguageTest.Handles

variable {H β : Type*} [DecidableEq β]

/-- How many handles of a pool point to the value. A handle exists or not, and one that exists
may be null. -/
def number [Fintype H] (pool : H → Option (Option β)) (b : β) : Int :=
  (Finset.univ.filter fun h => pool h = some (some b)).card

/-- The numbers with `k` added for one pointer. -/
def shift (n : β → Int) (p : Option β) (k : Int) (b : β) : Int :=
  if p = some b then n b + k else n b

section
variable {n : β → Int} {k : Int} {b c : β}

@[simp] theorem shift_none : shift n none k = n := by
  funext b
  simp [shift]

@[simp] theorem shift_zero {p : Option β} : shift n p 0 = n := by
  funext b
  simp [shift]

@[simp] theorem shift_self : shift n (some b) k b = n b + k := by
  simp [shift]

theorem shift_comm {p q : Option β} {l : Int} :
    shift (shift n p k) q l = shift (shift n q l) p k := by
  funext b
  unfold shift
  split_ifs <;> omega

theorem shift_other (h : c ≠ b) : shift n (some b) k c = n c := by
  simp [shift, Ne.symm h]

end

variable [Fintype H] {pool : H → Option (Option β)} {h : H} {b : β}

theorem number_pos : 0 < number pool b ↔ ∃ h, pool h = some (some b) := by
  unfold number
  rw [Int.natCast_pos, Finset.card_pos]
  constructor
  · intro hne
    obtain ⟨v, hv⟩ := hne
    exact ⟨v, (Finset.mem_filter.mp hv).2⟩
  · intro hex
    obtain ⟨v, hv⟩ := hex
    exact ⟨v, Finset.mem_filter.mpr ⟨Finset.mem_univ v, hv⟩⟩

theorem number_empty : number (fun _ : H => none) = fun _ : β => 0 := by
  funext b
  simp [number]

/-- Two handles that point to one value. -/
theorem number_two {v w : H} (hne : v ≠ w) (hv : pool v = some (some b))
    (hw : pool w = some (some b)) : 2 ≤ number pool b := by
  have htwo : 1 < (Finset.univ.filter fun h => pool h = some (some b)).card :=
    Finset.one_lt_card.mpr ⟨v, by simp [hv], w, by simp [hw], hne⟩
  unfold number
  omega

variable [DecidableEq H]

/-- One handle apart from the others. -/
theorem number_split (pool : H → Option (Option β)) (h : H) (b : β) : number pool b =
    ((Finset.univ.erase h).filter fun v => pool v = some (some b)).card +
      if pool h = some (some b) then 1 else 0 := by
  unfold number
  rw [← Finset.insert_erase (Finset.mem_univ h), Finset.filter_insert]
  by_cases hb : pool h = some (some b)
  · rw [if_pos hb, if_pos hb, Finset.card_insert_of_notMem (by simp)]
    simp
  · rw [if_neg hb, if_neg hb]
    simp

/-- Setting a handle counts its new pointer once more and its old pointer once less. -/
theorem number_update (pool : H → Option (Option β)) (h : H) (q : Option (Option β)) :
    number (Function.update pool h q) =
      shift (shift (number pool) q.join 1) (pool h).join (-1) := by
  funext b
  have hrest : ((Finset.univ.erase h).filter fun v =>
      Function.update pool h q v = some (some b)) =
      (Finset.univ.erase h).filter fun v => pool v = some (some b) := by
    apply Finset.filter_congr
    intro v hv
    rw [Function.update_of_ne (Finset.ne_of_mem_erase hv)]
  have hnew := number_split (Function.update pool h q) h b
  have hold := number_split pool h b
  rw [hrest, Function.update_self] at hnew
  unfold shift
  simp only [Option.join_eq_some_iff]
  split_ifs at hnew hold ⊢ <;> omega

end LanguageTest.Handles
