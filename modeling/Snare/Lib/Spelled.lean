import Mathlib

/-!
# Entries by names that compare equal in several spellings

A list of entries kept in the order of a comparison under which different names may be equal. `put`
gives a name a value or takes it away: it stops at the first entry at or past the name, so it keeps
a list strictly sorted (`Sorted.put`), and a sorted list is then a map from names, each with the
spelling it was first put in (`Sorted.lookup_put`).
-/

namespace Snare.Spelled

open List

variable {κ ν : Type} (cmp : κ → κ → Ordering)

/-- Gives `name` a value, or none, where the first entry at or past it is. -/
def put (name : κ) (value : Option ν) : List (κ × ν) → List (κ × ν)
  | [] => (value.map (name, ·)).toList
  | e :: rest =>
    match cmp e.1 name with
    | .lt => e :: put name value rest
    | .eq => (value.map (e.1, ·)).toList ++ rest
    | .gt => (value.map (name, ·)).toList ++ e :: rest

/-- The first entry whose name compares equal, with its spelling. -/
def lookup (es : List (κ × ν)) (name : κ) : Option (κ × ν) := es.find? fun e => cmp e.1 name = .eq

def Sorted (es : List (κ × ν)) : Prop := es.Pairwise fun a b => cmp a.1 b.1 = .lt

/-- The map after `name` was given a value: the spelling already there is kept. -/
def assign (name : κ) (value : Option ν) (m : κ → Option (κ × ν)) (n : κ) : Option (κ × ν) :=
  if cmp n name = .eq then value.map (((m name).elim name (·.1)), ·) else m n

section
variable {cmp} {name : κ} {value : Option ν} {es : List (κ × ν)}

theorem mem_put {e : κ × ν} (he : e ∈ put cmp name value es) :
    e ∈ es ∨ value = some e.2 ∧ (e.1 = name ∨ ∃ old ∈ es, e.1 = old.1) := by
  have hnew {spelling : κ} (he : e ∈ (value.map (spelling, ·)).toList) :
      value = some e.2 ∧ e.1 = spelling := by
    obtain ⟨v, hv, rfl⟩ := by simpa using he
    exact ⟨hv, rfl⟩
  induction es with
  | nil =>
    obtain ⟨hvalue, hname⟩ := hnew he
    exact .inr ⟨hvalue, .inl hname⟩
  | cons old rest ih =>
    rw [put] at he
    split at he
    · rcases mem_cons.1 he with rfl | he
      · exact .inl mem_cons_self
      · rcases ih he with hrest | ⟨hvalue, hname | ⟨other, hother, heq⟩⟩
        · exact .inl (mem_cons_of_mem _ hrest)
        · exact .inr ⟨hvalue, .inl hname⟩
        · exact .inr ⟨hvalue, .inr ⟨other, mem_cons_of_mem _ hother, heq⟩⟩
    · rcases mem_append.1 he with he | he
      · obtain ⟨hvalue, hname⟩ := hnew he
        exact .inr ⟨hvalue, .inr ⟨old, mem_cons_self, hname⟩⟩
      · exact .inl (mem_cons_of_mem _ he)
    · rcases mem_append.1 he with he | he
      · obtain ⟨hvalue, hname⟩ := hnew he
        exact .inr ⟨hvalue, .inl hname⟩
      · exact .inl he

theorem lookup_cons (e : κ × ν) (es : List (κ × ν)) (n : κ) :
    lookup cmp (e :: es) n = if cmp e.1 n = .eq then some e else lookup cmp es n := by
  unfold lookup
  rw [find?_cons]
  split <;> simp_all

variable [Std.TransCmp cmp]

theorem Sorted.lt_tail {e : κ × ν} (h : Sorted cmp (e :: es)) (hname : cmp e.1 name ≠ .lt) :
    ∀ x ∈ es, cmp name x.1 = .lt := by
  intro x hx
  have hswap : cmp name e.1 = (cmp e.1 name).swap := Std.OrientedCmp.eq_swap
  have hle : (cmp name e.1).isLE := by
    rw [hswap]
    cases hc : cmp e.1 name with
    | lt => exact absurd hc hname
    | eq => rfl
    | gt => rfl
  exact Std.TransCmp.lt_of_isLE_of_lt hle ((pairwise_cons.1 h).1 x hx)

theorem Sorted.put (h : Sorted cmp es) (name : κ) (value : Option ν) :
    Sorted cmp (put cmp name value es) := by
  induction es with
  | nil =>
    rw [Spelled.put]
    cases value <;> simp [Sorted]
  | cons e rest ih =>
    obtain ⟨hfirst, hrest⟩ := pairwise_cons.1 h
    rw [Spelled.put]
    split
    · rename_i hlt
      refine pairwise_cons.2 ⟨fun x hx => ?_, ih hrest⟩
      rcases mem_put hx with hx | ⟨-, hx | ⟨old, hold, hx⟩⟩
      · exact hfirst x hx
      · rw [hx]
        exact hlt
      · rw [hx]
        exact hfirst old hold
    · cases value with
      | none => exact hrest
      | some v => exact pairwise_cons.2 ⟨hfirst, hrest⟩
    · rename_i hgt
      cases value with
      | none => exact h
      | some v =>
        refine pairwise_cons.2 ⟨fun x hx => ?_, h⟩
        rcases mem_cons.1 hx with rfl | hx
        · exact Std.OrientedCmp.lt_of_gt hgt
        · exact h.lt_tail (by rw [hgt]; decide) x hx

theorem lookup_eq_none {n : κ} (h : ∀ x ∈ es, cmp n x.1 = .lt) : lookup cmp es n = none := by
  refine find?_eq_none.2 fun x hx heq => ?_
  have hsymm := Std.OrientedCmp.eq_symm (of_decide_eq_true heq)
  rw [h x hx] at hsymm
  cases hsymm

/-- **A sorted list is a map from names**, and `put` assigns in it. -/
theorem Sorted.lookup_put (h : Sorted cmp es) (name : κ) (value : Option ν) (n : κ) :
    lookup cmp (Spelled.put cmp name value es) n = assign cmp name value (lookup cmp es) n := by
  have hsymm : cmp name n = .eq ↔ cmp n name = .eq :=
    ⟨Std.OrientedCmp.eq_symm, Std.OrientedCmp.eq_symm⟩
  -- a value put in front is found under the names it compares equal to
  have hfront {spelling : κ} (hname : cmp spelling name = .eq) (rest : List (κ × ν))
      (hrest : cmp n name = .eq → lookup cmp rest n = none) :
      lookup cmp ((value.map (spelling, ·)).toList ++ rest) n =
        if cmp n name = .eq then value.map (spelling, ·) else lookup cmp rest n := by
    cases value with
    | none =>
      split
      · exact hrest ‹_›
      · rfl
    | some v =>
      simp only [Option.map_some, Option.toList_some, singleton_append]
      rw [lookup_cons, Std.TransCmp.congr_left hname]
      simp only [hsymm]
  induction es with
  | nil =>
    rw [Spelled.put, ← append_nil (Option.toList _),
      hfront Std.ReflCmp.compare_self [] fun _ => rfl]
    rfl
  | cons e rest ih =>
    rw [Spelled.put]
    split
    · rename_i hlt
      have hname : lookup cmp (e :: rest) name = lookup cmp rest name := by
        rw [lookup_cons, hlt, if_neg (by decide)]
      rw [lookup_cons, ih (pairwise_cons.1 h).2]
      unfold assign
      rw [hname]
      by_cases hn : cmp n name = .eq
      · rw [if_pos hn, if_pos hn, Std.TransCmp.congr_right hn, hlt, if_neg (by decide)]
      · rw [if_neg hn, if_neg hn, lookup_cons]
    · rename_i heq
      have hafter : ∀ x ∈ rest, cmp name x.1 = .lt := h.lt_tail (by rw [heq]; decide)
      have hname : lookup cmp (e :: rest) name = some e := by
        rw [lookup_cons, if_pos heq]
      rw [hfront heq rest fun hn => lookup_eq_none fun x hx => by
        rw [Std.TransCmp.congr_left hn]
        exact hafter x hx]
      unfold assign
      rw [hname]
      by_cases hn : cmp n name = .eq
      · rw [if_pos hn, if_pos hn]
        rfl
      · rw [if_neg hn, if_neg hn, lookup_cons, if_neg]
        intro hen
        exact hn (Std.TransCmp.eq_trans (Std.OrientedCmp.eq_symm hen) heq)
    · rename_i hgt
      have hbefore : ∀ x ∈ e :: rest, cmp name x.1 = .lt := by
        intro x hx
        rcases mem_cons.1 hx with rfl | hx
        · exact Std.OrientedCmp.lt_of_gt hgt
        · exact h.lt_tail (by rw [hgt]; decide) x hx
      rw [hfront Std.ReflCmp.compare_self (e :: rest) fun hn => lookup_eq_none fun x hx => by
        rw [Std.TransCmp.congr_left hn]
        exact hbefore x hx]
      unfold assign
      rw [lookup_eq_none hbefore]
      rfl

end

end Snare.Spelled
