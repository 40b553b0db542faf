import Mathlib.Data.List.Infix
import Mathlib.Data.Nat.Notation
import Mathlib.Logic.Function.Basic

namespace LanguageTest.Descriptors

/-- A descriptor. -/
abbrev Fd := Nat

/-- The number of an accepted connection. A descriptor names it only while it is open. -/
abbrev Conn := Nat

/-- The kernel behind a server: the connection that a descriptor is open for, what epoll watches it
for, and for each connection the bytes that were read from it and written to it. -/
structure Kernel (M : Type*) where
  conns : Fd → Option Conn
  watched : Fd → Option M
  accepted : Nat
  received : Conn → List UInt8
  sent : Conn → List UInt8

variable {M : Type*}

namespace Kernel

def empty : Kernel M := ⟨fun _ => none, fun _ => none, 0, fun _ => [], fun _ => []⟩

def accept (k : Kernel M) (fd : Fd) : Kernel M :=
  { k with conns := Function.update k.conns fd (some k.accepted), accepted := k.accepted + 1 }

def watch (k : Kernel M) (fd : Fd) (m : M) : Kernel M :=
  { k with watched := Function.update k.watched fd (some m) }

def unwatch (k : Kernel M) (fd : Fd) : Kernel M :=
  { k with watched := Function.update k.watched fd none }

def receive (k : Kernel M) (c : Conn) (bytes : List UInt8) : Kernel M :=
  { k with received := Function.update k.received c (k.received c ++ bytes) }

def send (k : Kernel M) (c : Conn) (bytes : List UInt8) : Kernel M :=
  { k with sent := Function.update k.sent c (k.sent c ++ bytes) }

/-- A descriptor that is closed is no longer watched. -/
def close (k : Kernel M) (fd : Fd) : Kernel M :=
  { k with
    conns := Function.update k.conns fd none
    watched := Function.update k.watched fd none }

/-- Every connection has one descriptor at most, and no bytes before it was accepted. -/
structure Sound (k : Kernel M) : Prop where
  one : ∀ f g c, k.conns f = some c → k.conns g = some c → f = g
  numbered : ∀ f c, k.conns f = some c → c < k.accepted
  fresh : ∀ c, k.accepted ≤ c → k.received c = [] ∧ k.sent c = []

section
variable {k : Kernel M} {fd : Fd} {c : Conn} {bytes : List UInt8} {m : M}

theorem sound_empty : Sound (empty : Kernel M) where
  one _ _ _ h := nomatch h
  numbered _ _ h := nomatch h
  fresh _ _ := ⟨rfl, rfl⟩

theorem Sound.accept (h : Sound k) (fd : Fd) : Sound (k.accept fd) where
  one f g c hf hg := by
    simp only [Kernel.accept, Function.update_apply] at hf hg
    split_ifs at hf hg with hfd hgd hgd
    · rw [hfd, hgd]
    · exact absurd (Option.some.inj hf) (h.numbered g c hg).ne'
    · exact absurd (Option.some.inj hg) (h.numbered f c hf).ne'
    · exact h.one f g c hf hg
  numbered f c hf := by
    simp only [Kernel.accept, Function.update_apply] at hf ⊢
    split_ifs at hf with hfd
    · exact Nat.lt_succ_of_le (Option.some.inj hf).ge
    · exact Nat.lt_succ_of_lt (h.numbered f c hf)
  fresh c hc := h.fresh c (Nat.le_of_succ_le hc)

theorem Sound.watch (h : Sound k) : Sound (k.watch fd m) := ⟨h.one, h.numbered, h.fresh⟩

theorem Sound.unwatch (h : Sound k) : Sound (k.unwatch fd) := ⟨h.one, h.numbered, h.fresh⟩

theorem Sound.close (h : Sound k) (fd : Fd) : Sound (k.close fd) where
  one f g c hf hg := by
    simp only [Kernel.close, Function.update_apply] at hf hg
    split_ifs at hf hg with hfd hgd
    exact h.one f g c hf hg
  numbered f c hf := by
    simp only [Kernel.close, Function.update_apply] at hf
    split_ifs at hf with hfd
    exact h.numbered f c hf
  fresh := h.fresh

theorem Sound.receive (h : Sound k) (hc : c < k.accepted) : Sound (k.receive c bytes) where
  one := h.one
  numbered := h.numbered
  fresh d hd := by
    have hne : d ≠ c := fun heq => absurd (heq ▸ hd) (Nat.not_le.mpr hc)
    exact ⟨(Function.update_of_ne hne ..).trans (h.fresh d hd).1, (h.fresh d hd).2⟩

theorem Sound.send (h : Sound k) (hc : c < k.accepted) : Sound (k.send c bytes) where
  one := h.one
  numbered := h.numbered
  fresh d hd := by
    have hne : d ≠ c := fun heq => absurd (heq ▸ hd) (Nat.not_le.mpr hc)
    exact ⟨(h.fresh d hd).1, (Function.update_of_ne hne ..).trans (h.fresh d hd).2⟩

end

/-- What happens to one descriptor and its connection, the others do not notice. -/
structure Local (fd : Fd) (k k' : Kernel M) : Prop where
  conns : ∀ g, g ≠ fd → k'.conns g = k.conns g
  watched : ∀ g, g ≠ fd → k'.watched g = k.watched g
  streams : ∀ c, k.conns fd ≠ some c → k'.received c = k.received c ∧ k'.sent c = k.sent c

namespace Local
variable {k k' : Kernel M} {fd : Fd} {c : Conn}

theorem refl (fd : Fd) : Local fd k k := ⟨fun _ _ => rfl, fun _ _ => rfl, fun _ _ => ⟨rfl, rfl⟩⟩

theorem accept (h : Local fd k k') : Local fd k (k'.accept fd) :=
  ⟨fun g hg => (Function.update_of_ne hg ..).trans (h.conns g hg), h.watched, h.streams⟩

theorem watch (h : Local fd k k') (m : M) : Local fd k (k'.watch fd m) :=
  ⟨h.conns, fun g hg => (Function.update_of_ne hg ..).trans (h.watched g hg), h.streams⟩

theorem unwatch (h : Local fd k k') : Local fd k (k'.unwatch fd) :=
  ⟨h.conns, fun g hg => (Function.update_of_ne hg ..).trans (h.watched g hg), h.streams⟩

theorem close (h : Local fd k k') : Local fd k (k'.close fd) :=
  ⟨fun g hg => (Function.update_of_ne hg ..).trans (h.conns g hg),
    fun g hg => (Function.update_of_ne hg ..).trans (h.watched g hg), h.streams⟩

theorem receive (h : Local fd k k') (hc : k.conns fd = some c) (bytes : List UInt8) :
    Local fd k (k'.receive c bytes) where
  conns := h.conns
  watched := h.watched
  streams d hd := by
    have hne : d ≠ c := fun heq => hd (heq ▸ hc)
    exact ⟨(Function.update_of_ne hne ..).trans (h.streams d hd).1, (h.streams d hd).2⟩

theorem send (h : Local fd k k') (hc : k.conns fd = some c) (bytes : List UInt8) :
    Local fd k (k'.send c bytes) where
  conns := h.conns
  watched := h.watched
  streams d hd := by
    have hne : d ≠ c := fun heq => hd (heq ▸ hc)
    exact ⟨(h.streams d hd).1, (Function.update_of_ne hne ..).trans (h.streams d hd).2⟩

/-- The connection of another descriptor keeps its streams. -/
theorem streams_other (h : Local fd k k') (hk : k.Sound) {g : Fd} (hg : g ≠ fd)
    (hc : k.conns g = some c) : k'.received c = k.received c ∧ k'.sent c = k.sent c :=
  h.streams c fun hfd => hg (hk.one g fd c hc hfd)

end Local

end Kernel

section Repeats
variable {α : Type*} {text out bytes : List α} {m j n : Nat}

/-- A stream of whole copies of a text, and the first elements of the next one. -/
def Repeats (text out : List α) (m j : Nat) : Prop :=
  out = (List.replicate m text).flatten ++ text.take j

theorem repeats_nil : Repeats text [] 0 0 := rfl

theorem Repeats.more (h : Repeats text out m j) (n : Nat) :
    Repeats text (out ++ (text.drop j).take n) m (j + n) := by
  rw [Repeats] at h ⊢
  rw [h, List.append_assoc, List.take_add]

/-- A copy that is whole counts. -/
theorem Repeats.whole (h : Repeats text out m text.length) : Repeats text out (m + 1) 0 := by
  rw [Repeats] at h ⊢
  rw [h, List.take_length, List.take_zero, List.append_nil, List.replicate_succ',
    List.flatten_append, List.flatten_singleton]

end Repeats

section Ends
variable {α : Type*} (ended : List α → Bool) {text more : List α}

/-- How often a text, as it comes in, has been ended. -/
def ends (text : List α) : Nat :=
  (List.range (text.length + 1)).countP fun i => ended (text.take i)

variable {ended}

theorem ends_append (text more : List α) :
    ends ended (text ++ more) = ends ended text +
      (List.range more.length).countP fun i => ended (text ++ more.take (i + 1)) := by
  have hlength : (text ++ more).length + 1 = (text.length + 1) + more.length := by
    rw [List.length_append]
    omega
  rw [ends, hlength, List.range_add, List.countP_append, List.countP_map, ends]
  congr 1
  · apply List.countP_congr
    intro i hi
    have hle : i ≤ text.length := Nat.le_of_lt_succ (List.mem_range.mp hi)
    rw [List.take_append_of_le_length hle]
  · apply List.countP_congr
    intro i hi
    have hsub : text.length + 1 + i - text.length = i + 1 := by omega
    rw [Function.comp_apply, List.take_append, List.take_of_length_le (by omega), hsub]

theorem ends_le_append : ends ended text ≤ ends ended (text ++ more) := by
  rw [ends_append]
  exact Nat.le_add_right ..

/-- What comes in and ends the text ends it once more. -/
theorem ends_lt_append (hmore : more ≠ []) (hended : ended (text ++ more) = true) :
    ends ended text < ends ended (text ++ more) := by
  rw [ends_append]
  apply Nat.lt_add_of_pos_right
  apply List.countP_pos_iff.mpr
  have hpos := List.length_pos_iff.mpr hmore
  refine ⟨more.length - 1, List.mem_range.mpr (by omega), ?_⟩
  rw [Nat.sub_add_cancel hpos, List.take_length]
  exact hended

end Ends

end LanguageTest.Descriptors
