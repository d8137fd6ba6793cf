import Mathlib

/-!
# Flat arrays that read as zero past their end

A list as an array that may be read, overwritten past its end and resized, every position it has not
been given reading as `0`. The three operations are described by their length and by
`List.getD · · 0` at every position, and `ext_getD` turns such a description into equality.
-/

namespace Snare.FlatArray

open List

variable {α : Type*} [Zero α] (data : List α)

def read (start len : Nat) : List α := (data.drop start).take len

variable (n : Nat)

def resize : List α := data.take n ++ List.replicate (n - data.length) 0

variable (start : Nat)

/-- Overwrites the elements from `start`, filling the gap a start past the end leaves with zeros. -/
def write (xs : List α) : List α :=
  let padded := data ++ List.replicate (start - data.length) 0
  padded.take start ++ xs ++ padded.drop (start + xs.length)

def tabulate (f : Nat → α) : List α := (List.range n).map f

theorem ext_getD {a b : List α} (hlen : a.length = b.length)
    (h : ∀ i, a.getD i 0 = b.getD i 0) : a = b := by
  refine ext_getElem hlen fun i hi hi' => ?_
  have := h i
  rwa [getD_eq_getElem a 0 hi, getD_eq_getElem b 0 hi'] at this

omit [Zero α] in
@[simp] theorem length_tabulate (f : Nat → α) : (tabulate n f).length = n := by
  simp [tabulate]

omit [Zero α] in
theorem tabulate_add (m n : Nat) (f : Nat → α) :
    tabulate (m + n) f = tabulate m f ++ tabulate n fun i => f (m + i) := by
  simp [tabulate, range_add]

theorem getD_tabulate (f : Nat → α) (i : Nat) :
    (tabulate n f).getD i 0 = if i < n then f i else 0 := by
  split
  · next h =>
    rw [getD_eq_getElem _ 0 (by simpa using h)]
    simp [tabulate]
  · next h => exact getD_eq_default _ 0 (by simpa using h)

@[simp] theorem length_resize : (resize data n).length = n := by
  simp only [resize, length_append, length_take, length_replicate]
  omega

theorem getD_pad (n i : Nat) : (data ++ List.replicate n 0).getD i 0 = data.getD i 0 := by
  rcases Nat.lt_or_ge i data.length with h | h
  · exact getD_append _ _ _ _ h
  · rw [getD_append_right _ _ _ _ h, getD_eq_default data 0 h]
    rcases Nat.lt_or_ge (i - data.length) n with h' | h'
    · rw [getD_eq_getElem _ 0 (by simpa using h')]
      simp
    · exact getD_eq_default _ 0 (by simpa using h')

theorem getD_take (n i : Nat) : (data.take n).getD i 0 = if i < n then data.getD i 0 else 0 := by
  simp only [getD_eq_getElem?_getD, getElem?_take]
  split <;> rfl

theorem getD_resize (n i : Nat) :
    (resize data n).getD i 0 = if i < n then data.getD i 0 else 0 := by
  rw [resize, getD_pad, getD_take]

@[simp] theorem length_write (xs : List α) :
    (write data start xs).length = max data.length (start + xs.length) := by
  simp only [write, length_append, length_take, length_drop, length_replicate]
  omega

theorem getD_write (xs : List α) (i : Nat) :
    (write data start xs).getD i 0 =
      if start ≤ i ∧ i < start + xs.length then xs.getD (i - start) 0 else data.getD i 0 := by
  set padded := data ++ List.replicate (start - data.length) 0 with hpadded
  have htake : (padded.take start).length = start := by
    simp only [hpadded, length_take, length_append, length_replicate]
    omega
  change (padded.take start ++ xs ++ padded.drop (start + xs.length)).getD i 0 = _
  rw [append_assoc]
  -- before the written elements, among them, and behind them
  rcases Nat.lt_or_ge i start with h | h
  · rw [getD_append _ _ _ _ (by omega), getD_take, if_pos h, if_neg (by omega), getD_pad]
  rw [getD_append_right _ _ _ _ (by omega), htake]
  rcases Nat.lt_or_ge i (start + xs.length) with h' | h'
  · rw [getD_append _ _ _ _ (by omega), if_pos ⟨h, h'⟩]
  · rw [getD_append_right _ _ _ _ (by omega), if_neg (by omega),
      getD_eq_getElem?_getD, getElem?_drop, ← getD_eq_getElem?_getD,
      show start + xs.length + (i - start - xs.length) = i by omega, getD_pad]

theorem read_eq_tabulate (start len : Nat) :
    read data start len =
      tabulate (min len (data.length - start)) fun i => data.getD (start + i) 0 := by
  refine ext_getD (by simp [read]) fun i => ?_
  rw [read, getD_take, getD_tabulate, getD_eq_getElem?_getD, getElem?_drop,
    ← getD_eq_getElem?_getD]
  split <;> split <;> try rfl
  · exact getD_eq_default _ 0 (by omega)
  · omega

end Snare.FlatArray
