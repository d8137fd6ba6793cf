import Snare.Lib.Spelled

/-!
# The Windows environment block

A simulated process's environment on Windows is one flat buffer of NUL-terminated `name=value`
entries, which `set` edits in place by offsets it counts while it scans the entries. The order of
names is the system's (`RtlCompareUnicodeStrings`, ignoring case), a parameter here.

* **The buffer is its entries.** On a buffer of well-formed entries `set` is `Spelled.put` on the
  list of them (`set_flatten`), whatever their order.
* **From a sorted buffer it is a map** (`block_is_map`). `replace` installs entries as given, and on
  a buffer out of order a removal can miss its name (`removed_name_stays`).
-/

namespace Snare.Env

open List

abbrev Units := List UInt16

def ERROR_INVALID_PARAMETER : Nat := 87

/-- The pieces of a block, each up to and with its NUL. -/
def splitInclusive : Units → List Units
  | [] => []
  | c :: rest =>
    if c = 0 then [c] :: splitInclusive rest
    else
      match splitInclusive rest with
      | [] => [[c]]
      | piece :: pieces => (c :: piece) :: pieces

def entries (block : Units) : List Units := (splitInclusive block).map List.dropLast

/-- The length of an entry's name: up to the first `=` past its first unit, or `none` for an entry
with no such `=`. -/
def nameLength : Units → Option Nat
  | [] => none
  | _ :: rest => (rest.findIdx? (· == 61)).map (· + 1)

/-- An entry's name: all of it, where no `=` ends one. -/
def ownName (entry : Units) : Units := entry.take ((nameLength entry).getD entry.length)

section
variable (cmp : Units → Units → Ordering)

/-- The loop of `set`: the first entry whose name is at or past `name`, as the offset it starts at
and whether its name is equal. -/
def scan (name : Units) : List Units → Nat → Option (Nat × Bool)
  | [], _ => none
  | entry :: rest, start =>
    match cmp (ownName entry) name with
    | .lt => scan name rest (start + (entry.length + 1))
    | .eq => some (start, true)
    | .gt => some (start, false)

/-- `State::set` on the block; `none` removes the variable. -/
def set (block name : Units) (value : Option Units) : Except Nat Units :=
  if name = [] ∨ 61 ∈ name.tail then .error ERROR_INVALID_PARAMETER
  else
    let (position, equal) := (scan cmp name (entries block) 0).getD (block.length, false)
    let end_ :=
      if equal then position + (((block.drop position).findIdx? (· == 0)).elim 0 (· + 1))
      else position
    let replacement : Units :=
      match value with
      | none => []
      | some value =>
        if equal then ownName ((block.take (end_ - 1)).drop position) ++ 61 :: value ++ [0]
        else name ++ 61 :: value ++ [0]
    .ok (block.take position ++ replacement ++ block.drop end_)

/-- `SetEnvironmentStringsW`: replaces the block with `entries`, kept as given. -/
def replace (entries : List Units) : Except Nat Units :=
  if entries = [] ∨ entries.any fun entry => (nameLength entry).isNone then
    .error ERROR_INVALID_PARAMETER
  else .ok (entries.flatMap fun entry => entry ++ [0])

/-- The first entry whose name compares equal, as its name and its value. The source leaves the
lookup to the system (`RtlQueryEnvironmentVariable`); this one states what a block means. -/
def query (block name : Units) : Option (Units × Units) :=
  ((entries block).find? fun entry => cmp (ownName entry) name = .eq).map fun entry =>
    (ownName entry, entry.drop ((ownName entry).length + 1))

end

/-! ## A block of well-formed entries -/

/-- A name and a value as an entry of a block holds them. -/
structure WfEntry (e : Units × Units) : Prop where
  nonempty : e.1 ≠ []
  equals : 61 ∉ e.1.tail
  name_nul : 0 ∉ e.1
  value_nul : 0 ∉ e.2

def units (e : Units × Units) : Units := e.1 ++ 61 :: e.2

def flatten (es : List (Units × Units)) : Units := es.flatMap fun e => units e ++ [0]

section
variable {e : Units × Units} {es : List (Units × Units)}

@[simp] theorem flatten_nil : flatten [] = [] := rfl

@[simp] theorem flatten_cons (e : Units × Units) (es : List (Units × Units)) :
    flatten (e :: es) = units e ++ 0 :: flatten es := by simp [flatten]

@[simp] theorem flatten_append (es fs : List (Units × Units)) :
    flatten (es ++ fs) = flatten es ++ flatten fs := by simp [flatten]

theorem WfEntry.units_nul (h : WfEntry e) : 0 ∉ units e := by
  have := h.name_nul
  have := h.value_nul
  simp_all [units]

theorem WfEntry.nameLength (h : WfEntry e) : nameLength (units e) = some e.1.length := by
  obtain ⟨name, value⟩ := e
  obtain ⟨c, rest, rfl⟩ := exists_cons_of_ne_nil h.nonempty
  have hfind : (rest ++ 61 :: value).findIdx? (· == 61) = some rest.length := by
    rw [findIdx?_append, findIdx?_eq_none_iff.2 fun x hx => by
      simpa using fun heq : x = 61 => h.equals (heq ▸ hx)]
    simp [findIdx?_cons]
  simp [Env.nameLength, units, hfind]

theorem WfEntry.ownName (h : WfEntry e) : ownName (units e) = e.1 := by
  rw [Env.ownName, h.nameLength]
  simp [units]

theorem splitInclusive_append {xs : Units} (hxs : 0 ∉ xs) (rest : Units) :
    splitInclusive (xs ++ 0 :: rest) = (xs ++ [0]) :: splitInclusive rest := by
  induction xs with
  | nil => simp [splitInclusive]
  | cons c xs ih =>
    rw [mem_cons, not_or] at hxs
    rw [cons_append, splitInclusive, if_neg (Ne.symm hxs.1), ih hxs.2]
    rfl

theorem entries_flatten (h : ∀ e ∈ es, WfEntry e) : entries (flatten es) = es.map units := by
  induction es with
  | nil => rfl
  | cons e es ih =>
    have hrest := ih fun x hx => h x (mem_cons_of_mem e hx)
    unfold entries at hrest ⊢
    rw [flatten_cons, splitInclusive_append (h e mem_cons_self).units_nul, map_cons, hrest]
    simp

theorem query_flatten (cmp : Units → Units → Ordering) (h : ∀ e ∈ es, WfEntry e) (name : Units) :
    query cmp (flatten es) name = Spelled.lookup cmp es name := by
  unfold query Spelled.lookup
  rw [entries_flatten h]
  induction es with
  | nil => rfl
  | cons e es ih =>
    have he := h e mem_cons_self
    rw [map_cons, find?_cons, find?_cons, he.ownName]
    split
    · rw [Option.map_some, he.ownName]
      simp [units]
    · exact ih fun x hx => h x (mem_cons_of_mem e hx)

/-! ## `set` on the entries -/

variable {cmp : Units → Units → Ordering} {name : Units} {value : Option Units}

theorem scan_pass {pre : List (Units × Units)} (h : ∀ e ∈ pre, WfEntry e)
    (hpre : ∀ e ∈ pre, cmp e.1 name = .lt) (rest : List Units) (start : Nat) :
    scan cmp name (pre.map units ++ rest) start =
      scan cmp name rest (start + (flatten pre).length) := by
  induction pre generalizing start with
  | nil => rfl
  | cons e pre ih =>
    obtain ⟨he, h⟩ := forall_mem_cons.1 h
    obtain ⟨hlt, hpre⟩ := forall_mem_cons.1 hpre
    rw [map_cons, cons_append, scan, he.ownName, hlt]
    refine (ih h hpre _).trans (congrArg (scan cmp name rest) ?_)
    simp only [flatten_cons, length_append, length_cons]
    omega

theorem scan_flatten {pre rest : List (Units × Units)} (h : ∀ e ∈ pre ++ rest, WfEntry e)
    (hpre : ∀ e ∈ pre, cmp e.1 name = .lt) :
    scan cmp name (entries (flatten (pre ++ rest))) 0 =
      scan cmp name (rest.map units) (flatten pre).length := by
  rw [entries_flatten h, map_append,
    scan_pass (fun e he => h e (mem_append_left rest he)) hpre, Nat.zero_add]

theorem put_pass {pre : List (Units × Units)} (hpre : ∀ e ∈ pre, cmp e.1 name = .lt)
    (rest : List (Units × Units)) :
    Spelled.put cmp name value (pre ++ rest) = pre ++ Spelled.put cmp name value rest := by
  induction pre with
  | nil => rfl
  | cons e pre ih =>
    obtain ⟨hlt, hpre⟩ := forall_mem_cons.1 hpre
    rw [cons_append, Spelled.put, hlt]
    exact congrArg (e :: ·) (ih hpre)

theorem exists_pass (cmp : Units → Units → Ordering) (name : Units) (es : List (Units × Units)) :
    ∃ pre rest, es = pre ++ rest ∧ (∀ e ∈ pre, cmp e.1 name = .lt) ∧
      ∀ e ∈ rest.head?, cmp e.1 name ≠ .lt := by
  refine ⟨es.takeWhile fun e => cmp e.1 name = .lt, es.dropWhile fun e => cmp e.1 name = .lt,
    takeWhile_append_dropWhile.symm, fun e he => ?_, fun e he hlt => ?_⟩
  · simpa using all_eq_true.1 all_takeWhile e he
  · have hstop := head?_dropWhile_not (fun e => decide (cmp e.1 name = .lt)) es
    rw [Option.mem_def.1 he] at hstop
    simp [hlt] at hstop

/-- **The buffer is its entries**: an edit of the buffer is one of the list. -/
theorem set_flatten (h : ∀ e ∈ es, WfEntry e) (hname : ¬(name = [] ∨ 61 ∈ name.tail)) :
    set cmp (flatten es) name value = .ok (flatten (Spelled.put cmp name value es)) := by
  obtain ⟨pre, rest, rfl, hpre, hstop⟩ := exists_pass cmp name es
  rw [set, if_neg hname, scan_flatten h hpre, put_pass hpre]
  cases rest with
  | nil =>
    simp only [map_nil, scan, Option.getD_none]
    cases value <;> simp [Spelled.put, units]
  | cons e rest =>
    have he := h e (mem_append_right pre mem_cons_self)
    have hnul : (units e ++ 0 :: flatten rest).findIdx? (· == 0) = some (units e).length := by
      rw [findIdx?_append, findIdx?_eq_none_iff.2 fun x hx => by
        simpa using fun heq : x = 0 => he.units_nul (heq ▸ hx)]
      simp [findIdx?_cons]
    rw [map_cons, scan, he.ownName, Spelled.put]
    cases hc : cmp e.1 name with
    | lt => exact absurd hc (hstop e rfl)
    | gt =>
      cases value <;> simp [units]
    | eq =>
      have hentry : ((flatten pre ++ (units e ++ 0 :: flatten rest)).take
          ((flatten pre).length + ((units e).length + 1) - 1)).drop
            (flatten pre).length = units e := by
        rw [show (flatten pre).length + ((units e).length + 1) - 1 =
            (flatten pre).length + (units e).length by omega, take_length_add_append,
          drop_left, take_left]
      have hrest : (flatten pre ++ (units e ++ 0 :: flatten rest)).drop
          ((flatten pre).length + ((units e).length + 1)) = flatten rest := by
        rw [drop_length_add_append, drop_length_add_append]
        rfl
      simp only [Option.getD_some, if_true, flatten_append, flatten_cons, drop_left, hnul,
        Option.elim_some, take_left, hentry, hrest, he.ownName]
      cases value <;> simp [units]

end

/-! ## A sorted block is a map -/

section
variable (cmp : Units → Units → Ordering)

/-- A call of `SetEnvironmentVariableW`: a name, and its value or `none` to remove it. -/
abbrev Call := Units × Option Units

def Call.NulFree (c : Call) : Prop := 0 ∉ c.1 ∧ ∀ value ∈ c.2, 0 ∉ value

def called (block : Units) (c : Call) : Units :=
  match set cmp block c.1 c.2 with
  | .ok block' => block'
  | .error _ => block

/-- The variables after a call, each with its spelling: a name no entry can have is refused, and any
other is assigned. -/
def assigned (m : Units → Option (Units × Units)) (c : Call) : Units → Option (Units × Units) :=
  if c.1 = [] ∨ 61 ∈ c.1.tail then m else Spelled.assign cmp c.1 c.2 m

/-- A block of well-formed entries, strictly sorted: no two have names that compare equal. -/
def Ordered (block : Units) : Prop :=
  ∃ es, block = flatten es ∧ (∀ e ∈ es, WfEntry e) ∧ Spelled.Sorted cmp es

variable {cmp} {block name : Units} {value : Option Units} {es : List (Units × Units)}

theorem wf_put (cmp : Units → Units → Ordering) (h : ∀ e ∈ es, WfEntry e)
    (hname : ¬(name = [] ∨ 61 ∈ name.tail)) (hnul : Call.NulFree (name, value)) :
    ∀ e ∈ Spelled.put cmp name value es, WfEntry e := by
  intro e he
  rcases Spelled.mem_put he with he | ⟨hvalue, heq | ⟨old, hold, heq⟩⟩
  · exact h e he
  · rw [not_or] at hname
    exact ⟨heq ▸ hname.1, heq ▸ hname.2, heq ▸ hnul.1, hnul.2 e.2 hvalue⟩
  · obtain ⟨hnonempty, hequals, hname_nul, -⟩ := h old hold
    exact ⟨heq ▸ hnonempty, heq ▸ hequals, heq ▸ hname_nul, hnul.2 e.2 hvalue⟩

theorem Ordered.called [Std.TransCmp cmp] (h : Ordered cmp block) {c : Call} (hc : c.NulFree) :
    Ordered cmp (called cmp block c) ∧
      query cmp (called cmp block c) = assigned cmp (query cmp block) c := by
  obtain ⟨es, rfl, hwf, hsorted⟩ := h
  unfold Env.called assigned
  split_ifs with hname
  · rw [set, if_pos hname]
    exact ⟨⟨es, rfl, hwf, hsorted⟩, rfl⟩
  · rw [set_flatten hwf hname]
    have hwf' := wf_put cmp hwf hname hc
    refine ⟨⟨_, rfl, hwf', hsorted.put c.1 c.2⟩, funext fun n => ?_⟩
    rw [query_flatten cmp hwf', hsorted.lookup_put]
    exact congrArg (Spelled.assign cmp c.1 c.2 · n) (funext fun n => (query_flatten cmp hwf n).symm)

/-- **A sorted block is a map**, over any calls: it stays strictly sorted, and what a name reads is
what the calls assigned, in the spelling the variable was first given. -/
theorem block_is_map [Std.TransCmp cmp] (h : Ordered cmp block) (calls : List Call)
    (hcalls : ∀ c ∈ calls, c.NulFree) : Ordered cmp (calls.foldl (called cmp) block) ∧
      query cmp (calls.foldl (called cmp) block) = calls.foldl (assigned cmp)
        (query cmp block) := by
  induction calls generalizing block with
  | nil => exact ⟨h, rfl⟩
  | cons c calls ih =>
    obtain ⟨hc, hcalls⟩ := forall_mem_cons.1 hcalls
    obtain ⟨hordered, hquery⟩ := h.called hc
    rw [foldl_cons, foldl_cons, ← hquery]
    exact ih hordered hcalls

end

def upper (c : UInt16) : UInt16 := if 97 ≤ c ∧ c ≤ 122 then c - 32 else c

def compareUpper (a b : Units) : Ordering := compare (a.map upper) (b.map upper)

instance : Std.TransCmp compareUpper :=
  inferInstanceAs (Std.TransCmp (compareOn (List.map upper)))

/-- Setting `Path` and then `PATH` in the block `OS=nt` leaves one variable, spelled `Path`. -/
theorem block_is_map_path : Ordered compareUpper ([79, 83, 61, 110, 116, 0]) ∧ query compareUpper
        ([([80, 97, 116, 104], some [97]),
          ([80, 65, 84, 72], some [98])].foldl (called compareUpper)
          [79, 83, 61, 110, 116, 0]) [112, 97, 116, 104] = some ([80, 97, 116, 104], [98]) := by
  have hordered : Ordered compareUpper ([79, 83, 61, 110, 116, 0]) := by
    refine ⟨[([79, 83], [110, 116])], rfl, ?_, pairwise_singleton _ _⟩
    intro e he
    obtain rfl := mem_singleton.1 he
    exact ⟨by decide, by decide, by decide, by decide⟩
  refine ⟨hordered, ?_⟩
  rw [(block_is_map hordered [([80, 97, 116, 104], some [97]), ([80, 65, 84, 72], some [98])]
    (by simp [Call.NulFree])).2]
  decide +kernel

/-- `SetEnvironmentStringsW` keeps `b=1`, `a=1` in that order; removing `a` then stops at `b`, and
`a` still reads `1`. -/
theorem removed_name_stays :
    Std.TransCmp compareUpper ∧ ∃ block, replace [[98, 61, 49], [97, 61, 49]] = .ok block ∧
        set compareUpper block [97] none = .ok block ∧
        query compareUpper block [97] = some ([97], [49]) :=
  ⟨inferInstance, [98, 61, 49, 0, 97, 61, 49, 0], by decide +kernel, by decide +kernel,
    by decide +kernel⟩

end Snare.Env
