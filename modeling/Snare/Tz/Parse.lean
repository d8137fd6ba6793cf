import Snare.Tz.Zone

/-!
# Zone files and TZ strings

`parse_tzif` and `parse_posix` over arbitrary bytes. A parse ends in a value, in the `None` of
malformed input, or in a **panic**: an index or slice out of range, or an overflow.

* **`Safe`** says of a parse that it does not panic and what holds of its value; its rules follow
  the `do` blocks, so each parser's lemma is assembled from those of the parsers it calls.
* `parsePosix_safe`, `parseTzif_safe`: what the parsers return is well formed (`Rule.Wf`,
  `Zone.Wf`);
* `tzif_safe`: so a file that parses is looked up safely at every time.
-/

namespace Snare.Tz

open List

inductive Stop where
  | malformed
  | panic
  deriving DecidableEq

abbrev Parse := Except Stop

def malformed {α : Type} : Parse α := .error .malformed

/-- `?` on an `Option`. -/
def orNone {α : Type} : Option α → Parse α
  | some a => .ok a
  | none => .error .malformed

/-- An index or slice expression, or an `unwrap`. -/
def orPanic {α : Type} : Option α → Parse α
  | some a => .ok a
  | none => .error .panic

/-- A natural number of a type that holds those below `limit`. -/
def unsigned (limit n : Nat) : Parse Nat := if n < limit then .ok n else .error .panic

def usize (n : Nat) : Parse Nat := unsigned (2 ^ 64) n

/-! ## Bytes -/

/-- `xs.get(a..b)`. -/
def slice (xs : List UInt8) (a b : Nat) : Option (List UInt8) :=
  if a ≤ b ∧ b ≤ xs.length then some ((xs.take b).drop a) else none

/-- `xs.split_at(n)`. -/
def splitAt (xs : List UInt8) (n : Nat) : Option (List UInt8 × List UInt8) :=
  if n ≤ xs.length then some (xs.take n, xs.drop n) else none

/-- `xs.chunks(n)`, for `n` above 0. -/
def chunks (n : Nat) (xs : List UInt8) : List (List UInt8) :=
  if n = 0 ∨ xs = [] then [] else xs.take n :: chunks n (xs.drop n)
termination_by xs.length
decreasing_by
  have hpos : 0 < xs.length := length_pos_iff.2 (by tauto)
  rw [length_drop]
  omega

def fromBe (bytes : List UInt8) : Nat := bytes.foldl (fun n b => n * 256 + b.toNat) 0

/-- `from_be_bytes` of a signed type of `width` bytes, `None` for another number of them. -/
def signedBe (width : Nat) (bytes : List UInt8) : Option Int :=
  if bytes.length = width then
    let n := fromBe bytes
    some (if 2 * n < 256 ^ width then n else n - 256 ^ width)
  else none

/-! ## TZ strings

A parser takes the bytes it has left and returns those after what it read. -/

variable (c : UInt8)

def eat : List UInt8 → Option (List UInt8)
  | b :: rest => if b = c then some rest else none
  | [] => none

def isAlpha : Bool := (65 ≤ c && c ≤ 90) || (97 ≤ c && c ≤ 122)

def isDigit : Bool := 48 ≤ c && c ≤ 57

/-- A zone abbreviation: three or more letters, or `<...>` of letters, digits, `+` and `-`. -/
def name (s : List UInt8) : Parse (List UInt8 × List UInt8) :=
  match eat 60 s with
  | some s => do
    let quoted c := isAlpha c || isDigit c || c == 43 || c == 45
    let name := s.takeWhile quoted
    let rest ← orNone (eat 62 (s.dropWhile quoted))
    if 3 ≤ name.length then .ok (name, rest) else malformed
  | none =>
    let name := s.takeWhile isAlpha
    if 3 ≤ name.length then .ok (name, s.dropWhile isAlpha) else malformed

/-- The loop of `number` from the value read so far, a `u32`. -/
def digits (n : Nat) : List UInt8 → Parse (Nat × List UInt8)
  | [] => .ok (n, [])
  | c :: rest =>
    if isDigit c then
      let n := n * 10 + (c.toNat - 48)
      if n < 2 ^ 32 then digits n rest else malformed
    else .ok (n, c :: rest)

def number (max : Nat) (s : List UInt8) : Parse (Nat × List UInt8) := do
  let (n, rest) ← digits 0 s
  if rest.length < s.length ∧ n ≤ max then .ok (n, rest) else malformed

/-- The `hh[:mm[:ss]]` of `offset`, a `u32` of seconds. -/
def clock (maxHours : Nat) (s : List UInt8) : Parse (Nat × List UInt8) := do
  let (hours, s) ← number maxHours s
  let secs ← unsigned (2 ^ 32) (hours * 3600)
  match eat 58 s with
  | none => .ok (secs, s)
  | some s =>
    let (minutes, s) ← number 59 s
    let secs ← unsigned (2 ^ 32) (secs + minutes * 60)
    match eat 58 s with
    | none => .ok (secs, s)
    | some s =>
      let (seconds, s) ← number 59 s
      let secs ← unsigned (2 ^ 32) (secs + seconds)
      .ok (secs, s)

/-- `[+|-]hh[:mm[:ss]]` in seconds, with hours up to `maxHours`. -/
def offset (maxHours : Nat) (s : List UInt8) : Parse (Int × List UInt8) := do
  let (sign, s) : Int × List UInt8 :=
    match s with
    | 45 :: rest => (-1, rest)
    | 43 :: rest => (1, rest)
    | _ => (1, s)
  let (secs, s) ← clock maxHours s
  .ok (sign * secs, s)

variable (s : List UInt8)

/-- The day of a `date`. -/
def day : Parse (Day × List UInt8) :=
  match s with
  | [] => malformed
  | 74 :: s => do
    let (n, s) ← number 365 s
    if 1 ≤ n then .ok (.julian n, s) else malformed
  | 77 :: s => do
    let (month, s) ← number 12 s
    if month = 0 then malformed
    let s ← orNone (eat 46 s)
    let (week, s) ← number 5 s
    if week = 0 then malformed
    let s ← orNone (eat 46 s)
    let (weekday, s) ← number 6 s
    .ok (.month month week weekday, s)
  | _ => do
    let (n, s) ← number 365 s
    .ok (.ordinal n, s)

/-- `date[/time]`, the time defaulting to 02:00:00. -/
def parseChange : Parse (Change × List UInt8) := do
  let (day, s) ← day s
  match eat 47 s with
  | none => .ok ((day, 7200), s)
  | some s =>
    let (time, s) ← offset 167 s
    .ok ((day, time), s)

/-- The changes of a daylight zone: the default ones, where the string has none. -/
def changes : Parse (Change × Change) :=
  if s = [] then .ok ((.month 3 2 0, 7200), (.month 11 1 0, 7200))
  else do
    let s ← orNone (eat 44 s)
    let (start, s) ← parseChange s
    let s ← orNone (eat 44 s)
    let (end_, s) ← parseChange s
    if s = [] then .ok (start, end_) else malformed

/-- The offset of daylight time: an hour past standard time, where the string has none. -/
def dstOffset (std : Int) (s : List UInt8) : Parse (Int × List UInt8) :=
  if s = [] ∨ s.head? = some 44 then do
    let utoff ← orPanic (I32.add std 3600)
    .ok (utoff, s)
  else do
    let (west, s) ← offset 24 s
    .ok (-west, s)

def parsePosix : Parse Rule := do
  let (stdName, s) ← name s
  let (west, s) ← offset 24 s
  let std : LocalType := ⟨-west, false, stdName⟩
  if s = [] then .ok ⟨std, none⟩
  else
    let (dstName, s) ← name s
    let (utoff, s) ← dstOffset std.utoff s
    let (start, end_) ← changes s
    .ok ⟨std, some (⟨utoff, true, dstName⟩, start, end_)⟩

/-! ## Zone files -/

structure Counts where
  isutcnt : Nat
  isstdcnt : Nat
  leapcnt : Nat
  timecnt : Nat
  typecnt : Nat
  charcnt : Nat

variable (data : List UInt8)

/-- The version and the counts of the header at `at_`. -/
def header (at_ : Nat) : Parse (UInt8 × Counts) := do
  let h ← orNone (slice data at_ (← usize (at_ + 44)))
  if (← orPanic (slice h 0 4)) = [84, 90, 105, 102] then
    let count i : Parse Nat := do .ok (fromBe (← orPanic (slice h (20 + 4 * i) (24 + 4 * i))))
    let counts : Counts := ⟨← count 0, ← count 1, ← count 2, ← count 3, ← count 4, ← count 5⟩
    .ok (← orPanic h[4]?, counts)
  else malformed

/-- The length of a block; of a sum of naturals the last partial sum is the largest. -/
def blockLen (c : Counts) (time : Nat) : Parse Nat :=
  usize (c.timecnt * time + c.timecnt + c.typecnt * 6 + c.charcnt + c.leapcnt * (time + 4) +
    c.isstdcnt + c.isutcnt)

variable (version : UInt8)

/-- Where the block to read is, its counts and the bytes of its times: that of version 1, or the
second one. -/
def block (v1 : Counts) : Parse (Nat × Counts × Nat) :=
  if 50 ≤ version then do
    let second ← usize (44 + (← blockLen v1 4))
    let at_ ← usize (second + 44)
    let (_, counts) ← header data second
    .ok (at_, counts, 8)
  else .ok (44, v1, 4)

/-- A local time type of a file, with its abbreviation among `chars`. -/
def typeInfo (chars info : List UInt8) : Parse LocalType := do
  let utoff ← orPanic (signedBe 4 (← orPanic (slice info 0 4)))
  let start ← orPanic info[5]?
  let abbr ← orNone (slice chars start.toNat chars.length)
  let end_ ← orNone (abbr.findIdx? (· == 0))
  let isdst ← orPanic info[4]?
  .ok ⟨utoff, isdst != 0, abbr.take end_⟩

/-- The TZ string after the blocks. -/
def footer (at_ : Nat) : Parse (Option Rule) :=
  if 50 ≤ version then do
    let rest ← orNone (slice data at_ data.length)
    let rest ← orNone (eat 10 rest)
    let end_ ← orNone (rest.findIdx? (· == 10))
    if end_ = 0 then .ok none
    else
      let rule ← parsePosix (rest.take end_)
      .ok (some rule)
  else .ok none

/-- The zone of a block with the given counts. -/
def zoneOf (body : List UInt8) (c : Counts) (time : Nat) (rule : Parse (Option Rule)) :
    Parse Zone := do
  let (times, rest) ← orPanic (splitAt body (c.timecnt * time))
  let (indices, rest) ← orPanic (splitAt rest c.timecnt)
  let (infos, rest) ← orPanic (splitAt rest (c.typecnt * 6))
  let chars ← orPanic (slice rest 0 c.charcnt)
  let transitions ← (chunks time times).mapM fun chunk => orPanic (signedBe time chunk)
  if indices.any (c.typecnt ≤ ·.toNat) then malformed
  else
    let types ← (chunks 6 infos).mapM (typeInfo chars)
    let rule ← rule
    .ok ⟨transitions, indices.map (·.toNat), types, rule⟩

def parseTzif : Parse Zone := do
  let (version, v1) ← header data 0
  let (at_, c, time) ← block data version v1
  if c.typecnt = 0 then malformed
  else
    let end_ ← usize (at_ + (← blockLen c time))
    let body ← orNone (slice data at_ end_)
    zoneOf body c time (footer data version (at_ + body.length))

/-! ## Parses that do not panic -/

/-- The parse does not panic, and `P` holds of its value. -/
def Safe {α : Type} (P : α → Prop) : Parse α → Prop
  | .ok a => P a
  | .error .malformed => True
  | .error .panic => False

section
variable {α β : Type} {P : α → Prop} {Q : β → Prop}

theorem Safe.bind {x : Parse α} {f : α → Parse β} (hx : Safe P x)
    (hf : ∀ a, P a → Safe Q (f a)) : Safe Q (x >>= f) := by
  match x, hx with
  | .ok a, ha => exact hf a ha
  | .error .malformed, _ => trivial

theorem Safe.mono {P' : α → Prop} {x : Parse α} (hx : Safe P x) (h : ∀ a, P a → P' a) :
    Safe P' x := by
  match x, hx with
  | .ok a, ha => exact h a ha
  | .error .malformed, _ => trivial

theorem safe_orNone {x : Option α} (h : ∀ a, x = some a → P a) : Safe P (orNone x) := by
  cases x with
  | none => trivial
  | some a => exact h a rfl

theorem safe_orPanic {x : Option α} {a : α} (hx : x = some a) (ha : P a) : Safe P (orPanic x) := by
  subst hx
  exact ha

theorem safe_unsigned {limit n : Nat} {P : Nat → Prop} (hlt : n < limit) (hn : P n) :
    Safe P (unsigned limit n) := by
  rw [unsigned, if_pos hlt]
  exact hn

theorem safe_mapM {xs : List β} {f : β → Parse α} (hf : ∀ x ∈ xs, Safe P (f x)) :
    Safe (fun ys => ys.length = xs.length ∧ ∀ y ∈ ys, P y) (xs.mapM f) := by
  induction xs with
  | nil => exact ⟨rfl, by simp⟩
  | cons x xs ih =>
    rw [mapM_cons]
    refine (hf x mem_cons_self).bind fun y hy => ?_
    refine (ih fun z hz => hf z (mem_cons_of_mem x hz)).bind fun ys hys => ?_
    refine ⟨by simp [hys.1], fun z hz => ?_⟩
    rcases mem_cons.1 hz with rfl | hz
    · exact hy
    · exact hys.2 z hz

end

/-! ## TZ strings parse to rules in range -/

theorem name_safe : Safe (fun _ => True) (name s) := by
  unfold name
  split
  · refine (safe_orNone fun rest _ => trivial).bind fun rest _ => ?_
    split <;> trivial
  · dsimp only
    split <;> trivial

theorem digits_safe (n : Nat) (s : List UInt8) : Safe (fun _ => True) (digits n s) := by
  induction s generalizing n with
  | nil => trivial
  | cons c rest ih =>
    unfold digits
    split
    · dsimp only
      split
      · exact ih _
      · trivial
    · trivial

theorem number_safe (max : Nat) (s : List UInt8) : Safe (fun r => r.1 ≤ max) (number max s) := by
  refine (digits_safe 0 s).bind fun r _ => ?_
  dsimp only
  split
  · rename_i h
    exact h.2
  · trivial

theorem clock_safe {maxHours : Nat} (hmax : maxHours ≤ 167) (s : List UInt8) :
    Safe (fun r => r.1 < (maxHours + 1) * 3600) (clock maxHours s) := by
  refine (number_safe maxHours s).bind fun hours hhours => ?_
  refine (safe_unsigned (P := (· = hours.1 * 3600)) (by omega) rfl).bind fun secs hsecs => ?_
  split
  · simp only [Safe]
    omega
  · rename_i s _
    refine (number_safe 59 s).bind fun minutes hminutes => ?_
    refine (safe_unsigned (P := (· = secs + minutes.1 * 60)) (by omega) rfl).bind
      fun secs' hsecs' => ?_
    split
    · simp only [Safe]
      omega
    · rename_i s _
      refine (number_safe 59 s).bind fun seconds hseconds => ?_
      refine (safe_unsigned (P := (· = secs' + seconds.1)) (by omega) rfl).bind
        fun secs'' hsecs'' => ?_
      simp only [Safe]
      omega

theorem offset_safe {maxHours : Nat} (hmax : maxHours ≤ 167) (s : List UInt8) :
    Safe (fun r => r.1.natAbs < (maxHours + 1) * 3600) (offset maxHours s) := by
  unfold offset
  refine (clock_safe hmax _).bind fun r hr => ?_
  simp only [Safe]
  split <;> omega

theorem day_safe : Safe (fun r => r.1.Named) (day s) := by
  unfold day
  split
  · trivial
  · refine (number_safe 365 _).bind fun n hn => ?_
    dsimp only
    split
    · rename_i hpos
      exact ⟨hpos, hn⟩
    · trivial
  · refine (number_safe 12 _).bind fun month hmonth => ?_
    dsimp only
    split
    · trivial
    rename_i hmonth'
    refine (safe_orNone fun _ _ => trivial).bind fun s _ => ?_
    refine (number_safe 5 s).bind fun week hweek => ?_
    split
    · trivial
    rename_i hweek'
    refine (safe_orNone fun _ _ => trivial).bind fun s _ => ?_
    refine (number_safe 6 s).bind fun weekday hweekday => ?_
    exact ⟨⟨Nat.pos_of_ne_zero hmonth', hmonth⟩, ⟨Nat.pos_of_ne_zero hweek', hweek⟩, hweekday⟩
  · refine (number_safe 365 _).bind fun n hn => ?_
    exact hn

theorem parseChange_safe : Safe (fun r => Change.Wf r.1) (parseChange s) := by
  refine (day_safe s).bind fun d hd => ?_
  dsimp only
  split
  · exact ⟨hd, show (-604800 : Int) < 7200 by decide, show (7200 : Int) < 604800 by decide⟩
  · rename_i s _
    refine (offset_safe (by decide) s).bind fun time htime => ?_
    exact ⟨hd, show -604800 < time.1 by omega, show time.1 < 604800 by omega⟩

theorem changes_safe : Safe (fun r => Change.Wf r.1 ∧ Change.Wf r.2) (changes s) := by
  unfold changes
  split
  · refine ⟨⟨?_, by decide, by decide⟩, ?_, by decide, by decide⟩ <;> simp [Day.Named]
  · refine (safe_orNone fun _ _ => trivial).bind fun s _ => ?_
    refine (parseChange_safe s).bind fun start hstart => ?_
    refine (safe_orNone fun _ _ => trivial).bind fun s _ => ?_
    refine (parseChange_safe s).bind fun end_ hend => ?_
    dsimp only
    split
    · exact ⟨hstart, hend⟩
    · trivial

theorem dstOffset_safe {std : Int} (hstd : -90000 < std ∧ std < 90000) (s : List UInt8) :
    Safe (fun r => -93600 < r.1 ∧ r.1 < 93600) (dstOffset std s) := by
  unfold dstOffset
  split
  · refine (safe_orPanic (P := (· = std + 3600)) (ranged_eq (by omega) (by omega)) rfl).bind
      fun utoff hutoff => ?_
    simp only [Safe]
    omega
  · refine (offset_safe (by decide) s).bind fun west hwest => ?_
    simp only [Safe]
    omega

/-- **A TZ string parses to a rule in range, or not at all.** -/
theorem parsePosix_safe : Safe Rule.Wf (parsePosix s) := by
  refine (name_safe s).bind fun stdName _ => ?_
  refine (offset_safe (by decide) _).bind fun west hwest => ?_
  have hstd : -90000 < -west.1 ∧ -west.1 < 90000 := by omega
  dsimp only
  split
  · exact ⟨hstd, fun _ _ _ h => (nomatch h), rfl, fun _ h => (nomatch h)⟩
  · refine (name_safe _).bind fun dstName _ => ?_
    refine (dstOffset_safe hstd _).bind fun utoff hutoff => ?_
    refine (changes_safe _).bind fun both hboth => ?_
    refine ⟨hstd, fun dst start end_ h => ?_, rfl, fun _ h => ?_⟩
    · cases h
      exact ⟨hutoff, hboth.1, hboth.2⟩
    · cases h
      rfl

theorem parsePosix_wf {s : List UInt8} {r : Rule} (h : parsePosix s = .ok r) : r.Wf := by
  have hsafe := parsePosix_safe s
  rw [h] at hsafe
  exact hsafe

/-! ## Zone files parse to zones in range -/

theorem slice_eq {xs : List UInt8} {a b : Nat} (hab : a ≤ b) (hb : b ≤ xs.length) :
    ∃ ys, slice xs a b = some ys ∧ ys.length = b - a ∧ ys <:+: xs := by
  refine ⟨_, if_pos ⟨hab, hb⟩, by rw [length_drop, length_take, min_eq_left hb], ?_⟩
  exact (drop_suffix a _).isInfix.trans <| IsPrefix.isInfix <| take_prefix b xs

theorem slice_inv {xs ys : List UInt8} {a b : Nat} (h : slice xs a b = some ys) :
    a ≤ b ∧ b ≤ xs.length ∧ ys.length = b - a ∧ ys <:+: xs := by
  by_cases hin : a ≤ b ∧ b ≤ xs.length
  · obtain ⟨zs, hzs, hlength, hpart⟩ := slice_eq hin.1 hin.2
    obtain rfl := Option.some.inj (h.symm.trans hzs)
    exact ⟨hin.1, hin.2, hlength, hpart⟩
  · rw [slice, if_neg hin] at h
    cases h

theorem fromBe_lt (bytes : List UInt8) : fromBe bytes < 256 ^ bytes.length := by
  -- over the bytes still to come, from any number read so far
  have hfold (n : Nat) : bytes.foldl (fun n b => n * 256 + b.toNat) n <
      (n + 1) * 256 ^ bytes.length := by
    induction bytes generalizing n with
    | nil => simp
    | cons b rest ih =>
      have hb : b.toNat < 256 := b.toNat_lt
      calc rest.foldl (fun n b => n * 256 + b.toNat) (n * 256 + b.toNat)
          < (n * 256 + b.toNat + 1) * 256 ^ rest.length := ih _
        _ ≤ ((n + 1) * 256) * 256 ^ rest.length := Nat.mul_le_mul_right _ (by omega)
        _ = (n + 1) * 256 ^ (b :: rest).length := by rw [length_cons, pow_succ', mul_assoc]
  unfold fromBe
  simpa using hfold 0

theorem chunks_spec {n : Nat} (hn : 0 < n) (k : Nat) (xs : List UInt8)
    (hlength : xs.length = k * n) : (chunks n xs).length = k ∧ ∀ c ∈ chunks n xs, c.length = n := by
  induction k generalizing xs with
  | zero =>
    obtain rfl : xs = [] := eq_nil_of_length_eq_zero (by omega)
    rw [chunks, if_pos (.inr rfl)]
    exact ⟨rfl, by simp⟩
  | succ k ih =>
    rw [Nat.add_mul, Nat.one_mul] at hlength
    have hne : ¬(n = 0 ∨ xs = []) := by
      rintro (hzero | rfl)
      · omega
      · rw [length_nil] at hlength
        omega
    have hrest := ih (xs.drop n) (by rw [length_drop]; omega)
    rw [chunks, if_neg hne]
    refine ⟨by rw [length_cons, hrest.1], fun c hc => ?_⟩
    rcases mem_cons.1 hc with rfl | hc
    · rw [length_take]
      omega
    · exact hrest.2 c hc

/-- The counts of a header are `u32`s. -/
structure Counts.Wf (c : Counts) : Prop where
  isutcnt : c.isutcnt < 2 ^ 32
  isstdcnt : c.isstdcnt < 2 ^ 32
  leapcnt : c.leapcnt < 2 ^ 32
  timecnt : c.timecnt < 2 ^ 32
  typecnt : c.typecnt < 2 ^ 32
  charcnt : c.charcnt < 2 ^ 32

theorem header_safe {at_ : Nat} (hat : at_ < 2 ^ 63) :
    Safe (fun r => r.2.Wf) (header data at_) := by
  refine (safe_unsigned (P := (· = at_ + 44)) (by omega) rfl).bind fun stop hstop => ?_
  refine (safe_orNone (P := fun h => h.length = 44) fun h hh => ?_).bind fun h hh => ?_
  · have := slice_inv hh
    omega
  obtain ⟨magic, hmagic, -⟩ := @slice_eq h 0 4 (by omega) (by omega)
  refine (safe_orPanic (P := fun _ => True) hmagic trivial).bind fun _ _ => ?_
  split
  case isFalse => trivial
  have hcount (i : Nat) (hi : i < 6) : Safe (fun n => n < 2 ^ 32)
      (do .ok (fromBe (← orPanic (slice h (20 + 4 * i) (24 + 4 * i)))) : Parse Nat) := by
    obtain ⟨w, hw, hlength, -⟩ := @slice_eq h (20 + 4 * i) (24 + 4 * i) (by omega) (by omega)
    refine (safe_orPanic (P := (· = w)) hw rfl).bind fun w' hw' => ?_
    have hlt := fromBe_lt w
    rw [hlength, show 24 + 4 * i - (20 + 4 * i) = 4 by omega] at hlt
    rw [hw']
    exact hlt
  refine (hcount 0 (by omega)).bind fun isutcnt h0 => ?_
  refine (hcount 1 (by omega)).bind fun isstdcnt h1 => ?_
  refine (hcount 2 (by omega)).bind fun leapcnt h2 => ?_
  refine (hcount 3 (by omega)).bind fun timecnt h3 => ?_
  refine (hcount 4 (by omega)).bind fun typecnt h4 => ?_
  refine (hcount 5 (by omega)).bind fun charcnt h5 => ?_
  refine (safe_orPanic (P := fun _ => True)
    (getElem?_eq_getElem (show 4 < h.length by omega)) trivial).bind fun _ _ => ?_
  exact ⟨h0, h1, h2, h3, h4, h5⟩

theorem blockLen_safe {c : Counts} (hc : c.Wf) {time : Nat} (htime : time = 4 ∨ time = 8) :
    Safe (fun n => n < 2 ^ 40 ∧
      c.timecnt * time + c.timecnt + c.typecnt * 6 + c.charcnt ≤ n) (blockLen c time) := by
  obtain ⟨h0, h1, h2, h3, h4, h5⟩ := hc
  rcases htime with rfl | rfl <;> exact safe_unsigned (by omega) (by omega)

theorem block_safe {v1 : Counts} (hv1 : v1.Wf) :
    Safe (fun r => r.1 < 2 ^ 41 ∧ r.2.1.Wf ∧ (r.2.2 = 4 ∨ r.2.2 = 8)) (block data version v1) := by
  unfold block
  split
  · refine (blockLen_safe hv1 (.inl rfl)).bind fun n hn => ?_
    refine (safe_unsigned (P := (· = 44 + n)) (by omega) rfl).bind fun second hsecond => ?_
    refine (safe_unsigned (P := (· = second + 44)) (by omega) rfl).bind fun at_ hat => ?_
    refine (header_safe data (by omega)).bind fun counts hcounts => ?_
    exact ⟨show at_ < 2 ^ 41 by omega, hcounts, .inr rfl⟩
  · exact ⟨show 44 < 2 ^ 41 by decide, hv1, .inl rfl⟩

theorem typeInfo_safe (chars : List UInt8) {c : List UInt8} (hc : c.length = 6) :
    Safe (fun ty => ty.abbr ++ [0] <:+: chars) (typeInfo chars c) := by
  obtain ⟨utoff, hutoff, hlength, -⟩ := @slice_eq c 0 4 (by omega) (by omega)
  refine (safe_orPanic (P := (· = utoff)) hutoff rfl).bind fun _ heq => ?_
  subst heq
  refine (safe_orPanic (P := fun _ => True) (if_pos hlength) trivial).bind fun _ _ => ?_
  refine (safe_orPanic (P := fun _ => True)
    (getElem?_eq_getElem (show 5 < c.length by omega)) trivial).bind fun start _ => ?_
  refine (safe_orNone (P := (· <:+: chars)) fun abbr h => (slice_inv h).2.2.2).bind
    fun abbr habbr => ?_
  refine (safe_orNone (P := fun end_ => abbr.take end_ ++ [0] <:+: chars) fun end_ h => ?_).bind
    fun end_ hend => ?_
  · obtain ⟨hlt, hzero, -⟩ := findIdx?_eq_some_iff_getElem.1 h
    have htake : abbr.take (end_ + 1) = abbr.take end_ ++ [0] := by
      rw [take_succ_eq_append_getElem hlt, beq_iff_eq.1 hzero]
    rw [← htake]
    exact IsInfix.trans (IsPrefix.isInfix <| take_prefix _ _) habbr
  refine (safe_orPanic (P := fun _ => True)
    (getElem?_eq_getElem (show 4 < c.length by omega)) trivial).bind fun isdst _ => ?_
  exact hend

theorem footer_safe (at_ : Nat) :
    Safe (fun r => ∀ rule, r = some rule → rule.Wf) (footer data version at_) := by
  unfold footer
  split
  · refine (safe_orNone fun _ _ => trivial).bind fun rest _ => ?_
    refine (safe_orNone fun _ _ => trivial).bind fun rest _ => ?_
    refine (safe_orNone fun _ _ => trivial).bind fun end_ _ => ?_
    split
    · exact fun _ h => nomatch h
    · refine (parsePosix_safe _).bind fun rule hrule => ?_
      rintro _ ⟨⟩
      exact hrule
  · exact fun _ h => nomatch h

theorem splitAt_eq {xs : List UInt8} {n : Nat} (hn : n ≤ xs.length) :
    ∃ ys zs, splitAt xs n = some (ys, zs) ∧ ys.length = n ∧ zs.length = xs.length - n ∧
      zs <:+: xs :=
  ⟨_, _, if_pos hn, length_take_of_le hn, length_drop, (drop_suffix n xs).isInfix⟩

/-- What a parsed zone has: lookups in range, and the abbreviations of its types in the file. -/
def Zone.In (z : Zone) (data : List UInt8) : Prop :=
  z.Wf ∧ ∀ ty ∈ z.types, ty.abbr ++ [0] <:+: data

theorem zoneOf_safe {body : List UInt8} {c : Counts} {time : Nat} {rule : Parse (Option Rule)}
    (htypes : c.typecnt ≠ 0) (htime : 0 < time)
    (hbody : c.timecnt * time + c.timecnt + c.typecnt * 6 + c.charcnt ≤ body.length)
    (hrule : Safe (fun r => ∀ rule, r = some rule → rule.Wf) rule) :
    Safe (·.In body) (zoneOf body c time rule) := by
  obtain ⟨times, rest, hsplit, htimes, hrest, hpart⟩ :=
    @splitAt_eq body (c.timecnt * time) (by omega)
  refine (safe_orPanic (P := (· = (times, rest))) hsplit rfl).bind fun _ heq => ?_
  subst heq
  obtain ⟨indices, rest', hsplit', hindices, hrest', hpart'⟩ :=
    @splitAt_eq rest c.timecnt (by omega)
  refine (safe_orPanic (P := (· = (indices, rest'))) hsplit' rfl).bind fun _ heq => ?_
  subst heq
  obtain ⟨infos, rest'', hsplit'', hinfos, hrest'', hpart''⟩ :=
    @splitAt_eq rest' (c.typecnt * 6) (by omega)
  refine (safe_orPanic (P := (· = (infos, rest''))) hsplit'' rfl).bind fun _ heq => ?_
  subst heq
  obtain ⟨chars, hchars, -, hwithin⟩ :=
    @slice_eq rest'' 0 c.charcnt (by omega) (by omega)
  refine (safe_orPanic (P := (· = chars)) hchars rfl).bind fun _ heq => ?_
  subst heq
  have hdata := hwithin.trans (hpart''.trans (hpart'.trans hpart))
  obtain ⟨htimecnt, hchunk⟩ := chunks_spec htime c.timecnt times htimes
  obtain ⟨htypecnt, hchunk'⟩ := chunks_spec (n := 6) (by omega) c.typecnt infos hinfos
  refine (safe_mapM (P := fun _ => True) fun chunk hmem =>
    safe_orPanic (if_pos (hchunk chunk hmem)) trivial).bind fun transitions htransitions => ?_
  split
  case isTrue => trivial
  rename_i hany
  refine (safe_mapM fun chunk hmem => typeInfo_safe _ (hchunk' chunk hmem)).bind
    fun types htypes' => ?_
  refine hrule.bind fun rule hrule => ?_
  refine ⟨⟨fun hnil => htypes ?_, ?_, fun i hi => ?_, hrule⟩, fun ty hty =>
    (htypes'.2 ty hty).trans hdata⟩
  · rw [← htypecnt, ← htypes'.1]
    exact length_eq_zero_iff.2 hnil
  · rw [length_map, hindices, htransitions.1, htimecnt]
  · obtain ⟨b, hb, rfl⟩ := mem_map.1 hi
    rw [htypes'.1, htypecnt]
    by_contra hge
    exact hany (any_eq_true.2 ⟨b, hb, decide_eq_true (not_lt.1 hge)⟩)

theorem parseTzif_safe : Safe (·.In data) (parseTzif data) := by
  refine (header_safe data (by decide)).bind fun r hr => ?_
  refine (block_safe data r.1 hr).bind fun b hb => ?_
  obtain ⟨hat, hcounts, htime⟩ := hb
  dsimp only
  split
  · trivial
  · rename_i htypes
    refine (blockLen_safe hcounts htime).bind fun n hn => ?_
    refine (safe_unsigned (P := (· = b.1 + n)) (by omega) rfl).bind fun stop hstop => ?_
    refine (safe_orNone (P := fun body => body.length = n ∧ body <:+: data) fun body h => ?_).bind
      fun body hbody => ?_
    · obtain ⟨-, -, hlength, hpart⟩ := slice_inv h
      exact ⟨by omega, hpart⟩
    have hzone := zoneOf_safe htypes (show 0 < b.2.2 by omega) (by rw [hbody.1]; exact hn.2)
      (footer_safe data r.1 (b.1 + body.length))
    exact hzone.mono fun z hz => ⟨hz.1, fun ty hty => (hz.2 ty hty).trans hbody.2⟩

/-- **Parsing a file is safe.** Any bytes are either malformed or parse to a zone whose stored
indices are in range, and which gives every time a type, its names and a broken-down time (or says
that its year does not fit). -/
theorem tzif_safe (data : List UInt8) : parseTzif data = malformed ∨ ∃ z, parseTzif data = .ok z ∧
      z.indices.length = z.transitions.length ∧ (∀ i ∈ z.indices, i < z.types.length) ∧
      (∀ ty ∈ z.types, ty.abbr ++ [0] <:+: data) ∧
      ∀ os t, I64.Holds t → (∃ ty, z.at_ os t = some ty) ∧
        (∀ names, ∃ moved, z.noteConversion os t names = some moved) ∧
        (z.transitions ≠ [] → ∃ names, z.glibcNamesAt t = some names) ∧
        ∃ tm, breakDown os z t = some tm := by
  have hsafe := parseTzif_safe data
  match hparse : parseTzif data, hsafe with
  | .error .malformed, _ => exact .inl rfl
  | .ok z, ⟨hz, habbr⟩ =>
    refine .inr ⟨z, rfl, hz.indices, hz.index_lt, habbr, fun os t ht => ?_⟩
    obtain ⟨ty, hty⟩ := hz.at_ os ht
    exact ⟨⟨ty, hty⟩, hz.noteConversion os ht, fun hne => hz.glibcNamesAt hne t,
      breakDown_isSome hty⟩

end Snare.Tz
