import Snare.Fs.Tree

/-!
# Path resolution

`traversal` takes a raw path through the tree a component at a time, and puts the components of each
link it follows before those still pending.

* **The loop ends** (`exists_run`): each turn uses up a component or one of the links the limit
  allows.
* **It resolves step by step** (`Step`, `Steps`): what the loop comes to is where the steps lead,
  each link counted, and a walk of more links than the limit fails with `ELOOP`.
* **A resolved path is canonical** (`Entered`): what is above it are directories the caller may
  search, so it resolves to itself.
* **A link that leads back to itself** (`Cyclic`) is never got past.
-/

namespace Snare.Fs

open List

/-! ## Components -/

variable {raw : List Byte} {name : Name}

theorem slash_not_mem_of_mem_splitOn (h : name ∈ raw.splitOn slash) : slash ∉ name := by
  induction raw generalizing name with
  | nil =>
    rw [splitOn_nil, mem_singleton] at h
    rw [h]
    exact not_mem_nil
  | cons byte raw ih =>
    rw [splitOn_cons_eq_if_modifyHead] at h
    split at h
    · rcases mem_cons.mp h with rfl | h
      · exact not_mem_nil
      · exact ih h
    · next hne =>
      obtain ⟨first, rest, hsplit⟩ := exists_cons_of_ne_nil (splitOn_ne_nil slash raw)
      rw [hsplit] at h ih
      rcases mem_cons.mp h with rfl | h
      · intro hmem
        rcases mem_cons.mp hmem with heq | hmem
        · exact hne (by rw [heq]; exact beq_self_eq_true byte)
        · exact ih mem_cons_self hmem
      · exact ih (mem_cons_of_mem _ h)

theorem slash_not_mem_of_mem_components (h : name ∈ components raw) :
    slash ∉ name := slash_not_mem_of_mem_splitOn (mem_of_mem_filter h)

variable {path : Path}

theorem splitOn_flatMap (hname : slash ∉ name) (hpath : ∀ name ∈ path, slash ∉ name) :
    (name ++ path.flatMap (slash :: ·)).splitOn slash = name :: path := by
  induction path generalizing name with
  | nil => simpa using splitOn_eq_singleton hname
  | cons next path ih =>
    obtain ⟨hnext, hpath⟩ := forall_mem_cons.mp hpath
    rw [flatMap_cons, cons_append, splitOn_append_cons_self_of_not_mem hname,
      ih hnext hpath]

theorem components_pathBytes (hpath : ∀ name ∈ path, name ≠ [] ∧ slash ∉ name) :
    components (pathBytes path) = path := by
  unfold pathBytes components
  split
  · next h => rw [h]; decide
  · have hsplit := splitOn_flatMap (not_mem_nil : slash ∉ ([] : Name))
      fun name h => (hpath name h).2
    rw [nil_append] at hsplit
    rw [hsplit]
    simpa using fun name h => (hpath name h).1

theorem endsWithSlash_pathBytes (hne : path ≠ [])
    (hpath : ∀ name ∈ path, name ≠ [] ∧ slash ∉ name) : endsWithSlash (pathBytes path) = false := by
  obtain ⟨init, last, rfl⟩ := (eq_nil_or_concat path).resolve_left hne
  obtain ⟨hlast, hslash⟩ := hpath last (by simp)
  obtain ⟨bytes, byte, rfl⟩ := (eq_nil_or_concat last).resolve_left hlast
  have hbyte : byte ≠ slash := by
    rintro rfl
    exact hslash (by simp)
  have hbytes : pathBytes (init ++ [bytes ++ [byte]]) =
      init.flatMap (slash :: ·) ++ slash :: bytes ++ [byte] := by
    simp [pathBytes]
  rw [endsWithSlash, concat_eq_append, concat_eq_append, hbytes, getLast?_concat]
  simpa using hbyte

theorem eq_slash_of_components_eq_nil (h : components raw = []) {byte : Byte}
    (hbyte : byte ∈ raw) : byte = slash := by
  induction raw with
  | nil => cases hbyte
  | cons first raw ih =>
    rw [components, splitOn_cons_eq_if_modifyHead] at h
    split at h
    · next heq =>
      rcases mem_cons.mp hbyte with rfl | hbyte
      · exact beq_iff_eq.mp heq
      · exact ih h hbyte
    · obtain ⟨part, rest, hsplit⟩ := exists_cons_of_ne_nil (splitOn_ne_nil slash raw)
      rw [hsplit] at h
      simp at h

namespace VirtualFs

variable (fs : VirtualFs) (host : Host) (caller : Credentials) (strictDots followFinal : Bool)

/-! ## The loop, turn by turn -/

/-- Where the loop of `traversal` stands. -/
structure Walk where
  current : Path
  pending : List Name
  links : Nat

/-- One turn of the loop: it goes on, or ends where it stands or with an error. -/
def turn (w : Walk) : Walk ⊕ Except Errno (Nat × Path) :=
  match w.pending with
  | [] => .inr (.ok (w.links, w.current))
  | component :: pending =>
    match fs.lookIn caller strictDots w.current component with
    | .error errno => .inr (.error errno)
    | .ok () =>
      if component = [] ∨ component = dot then .inl ⟨w.current, pending, w.links⟩
      else if component = dotDot then .inl ⟨w.current.dropLast, pending, w.links⟩
      else
        match fs.tree.get? (w.current ++ [component]) with
        | some (.symlink _ target) =>
          if followFinal || !pending.isEmpty then
            if target = [] then .inr (.error .ENOENT)
            else if linkLimit host < w.links + 1 then .inr (.error .ELOOP)
            else
              .inl ⟨if startsWithSlash target then [] else w.current, expanded target pending,
                w.links + 1⟩
          else .inl ⟨w.current ++ [component], pending, w.links⟩
        | _ => .inl ⟨w.current ++ [component], pending, w.links⟩

/-- The loop for so many turns; `none` if it has not ended by then. -/
def run : Nat → Walk → Option (Except Errno (Nat × Path))
  | 0, _ => none
  | turns + 1, w =>
    match fs.turn host caller strictDots followFinal w with
    | .inr result => some result
    | .inl w => run turns w

/-! ## Step by step -/

def Plain (component : Name) : Prop := component ≠ [] ∧ component ≠ dot ∧ component ≠ dotDot

/-- One step of resolution: the caller may look the next component up, and a link is followed if it
is not the last or the last is followed too. The number is how many links the step follows. -/
inductive Step : Path × List Name → Nat → Path × List Name → Prop
  | stay {current : Path} {component : Name} {pending : List Name}
      (look : fs.lookIn caller strictDots current component = .ok ())
      (here : component = [] ∨ component = dot) :
      Step (current, component :: pending) 0 (current, pending)
  | up {current : Path} {pending : List Name}
      (look : fs.lookIn caller strictDots current dotDot = .ok ()) :
      Step (current, dotDot :: pending) 0 (current.dropLast, pending)
  | down {current : Path} {component : Name} {pending : List Name}
      (look : fs.lookIn caller strictDots current component = .ok ()) (plain : Plain component)
      (stop : ∀ i target, fs.tree.get? (current ++ [component]) = some (.symlink i target) →
        followFinal = false ∧ pending = []) :
      Step (current, component :: pending) 0 (current ++ [component], pending)
  | follow {current : Path} {component : Name} {pending : List Name} {i : Nat} {target : List Byte}
      (look : fs.lookIn caller strictDots current component = .ok ()) (plain : Plain component)
      (link : fs.tree.get? (current ++ [component]) = some (.symlink i target))
      (go : followFinal ∨ pending ≠ []) (leads : target ≠ []) :
      Step (current, component :: pending) 1
        (if startsWithSlash target then [] else current, expanded target pending)

inductive Steps : Path × List Name → Nat → Path × List Name → Prop
  | refl (c : Path × List Name) : Steps c 0 c
  | head {c c' c'' : Path × List Name} {n m : Nat}
      (step : fs.Step caller strictDots followFinal c n c') (steps : Steps c' m c'') :
      Steps c (n + m) c''

variable {fs host caller strictDots followFinal} {c c' : Path × List Name} {n links : Nat}

theorem Steps.trans {c'' : Path × List Name} {m : Nat}
    (h : fs.Steps caller strictDots followFinal c n c')
    (h' : fs.Steps caller strictDots followFinal c' m c'') :
    fs.Steps caller strictDots followFinal c (n + m) c'' := by
  induction h with
  | refl c => rwa [Nat.zero_add]
  | head step _ ih =>
    rw [Nat.add_assoc]
    exact .head step (ih h')

variable {current : Path}

theorem Steps.eq_of_nil
    (h : fs.Steps caller strictDots followFinal (current, []) n c) : n = 0 ∧ c = (current, []) := by
  cases h with
  | refl c => exact ⟨rfl, rfl⟩
  | head step steps => cases step

variable {component : Name}

theorem Steps.look {p : Path} {pending : List Name}
    (h : fs.Steps caller strictDots followFinal (current, component :: pending) n (p, [])) :
    fs.lookIn caller strictDots current component = .ok () := by
  cases h with
  | head step steps => cases step <;> assumption

theorem lookIn_nil (h : fs.lookIn caller strictDots current component = .ok ()) :
    fs.lookIn caller strictDots current [] = .ok () := by
  unfold lookIn at h ⊢
  split at h <;> simp_all

theorem turn_of_step (h : fs.Step caller strictDots followFinal c n c') (links : Nat) :
    fs.turn host caller strictDots followFinal ⟨c.1, c.2, links⟩ =
      if n = 1 ∧ linkLimit host < links + 1 then .inr (.error .ELOOP)
      else .inl ⟨c'.1, c'.2, links + n⟩ := by
  cases h with
  | stay look here => simp [turn, look, here]
  | up look => simp [turn, look, show dotDot ≠ [] by decide, show dotDot ≠ dot by decide]
  | @down current component pending look plain stop =>
    obtain ⟨hne, hdot, hdots⟩ := plain
    simp only [turn, look, hne, hdot, hdots, or_self, if_false, Nat.add_zero]
    split
    · next i target hlink =>
      obtain ⟨rfl, rfl⟩ := stop i target hlink
      simp
    · simp
  | @follow current component pending i target look plain link go leads =>
    obtain ⟨hne, hdot, hdots⟩ := plain
    have hgo : (followFinal || !pending.isEmpty) = true := by simpa using go
    simp only [turn, look, hne, hdot, hdots, or_self, if_false, link, hgo, if_true, leads, true_and]

variable {w : Walk}

theorem step_of_turn {w' : Walk} (h : fs.turn host caller strictDots followFinal w = .inl w') :
    ∃ n, w'.links = w.links + n ∧ (w.links ≤ linkLimit host → w'.links ≤ linkLimit host) ∧
      fs.Step caller strictDots followFinal (w.current, w.pending) n (w'.current, w'.pending) := by
  obtain ⟨current, pending, links⟩ := w
  unfold turn at h
  split at h
  · cases h
  next component pending hpending =>
  obtain rfl : _ = component :: pending := hpending
  split at h
  · cases h
  next look =>
  split at h
  · next here =>
    cases h
    exact ⟨0, rfl, id, .stay look here⟩
  next here =>
  rw [not_or] at here
  split at h
  · next heq =>
    cases h
    subst heq
    exact ⟨0, rfl, id, .up look⟩
  next hdots =>
  have plain : Plain component := ⟨here.1, here.2, hdots⟩
  split at h
  · next i target hlink =>
    split at h
    · next hgo =>
      split at h
      · cases h
      next leads =>
      split at h
      · cases h
      next hlimit =>
      cases h
      refine ⟨1, rfl, fun _ => Nat.le_of_not_lt hlimit, .follow look plain hlink ?_ leads⟩
      simpa using hgo
    · next hstop =>
      cases h
      refine ⟨0, rfl, id, .down look plain fun i target hlink => ?_⟩
      simpa using hstop
  · next hnot =>
    cases h
    exact ⟨0, rfl, id, .down look plain fun i target hlink => absurd hlink (hnot i target)⟩

theorem eq_of_turn_ok {result : Nat × Path}
    (h : fs.turn host caller strictDots followFinal w = .inr (.ok result)) :
    w.pending = [] ∧ result = (w.links, w.current) := by
  unfold turn at h
  split at h
  · next hpending =>
    cases h
    exact ⟨hpending, rfl⟩
  · repeat' split at h
    all_goals cases h

/-! ## The loop ends -/

theorem turn_decreases {w' : Walk} (h : fs.turn host caller strictDots followFinal w = .inl w')
    (hlinks : w.links ≤ linkLimit host) : linkLimit host - w'.links < linkLimit host - w.links ∨
      w'.links = w.links ∧ w'.pending.length < w.pending.length := by
  obtain ⟨n, hn, hlimit, hstep⟩ := step_of_turn h
  have := hlimit hlinks
  obtain ⟨current, pending, links⟩ := w
  obtain ⟨current', pending', links'⟩ := w'
  simp only at hn hstep hlinks this ⊢
  cases hstep with
  | stay | up | down => exact .inr ⟨hn, Nat.lt_succ_self _⟩
  | follow => omega

/-- What the loop comes to from anywhere: the recursion of `walk`. -/
def outcome (fs : VirtualFs) (host : Host) (caller : Credentials) (strictDots followFinal : Bool)
    (w : Walk) : Except Errno (Nat × Path) :=
  fs.walk caller strictDots followFinal (linkLimit host - w.links) w.links w.current w.pending

theorem exists_follow (fs : VirtualFs) (caller : Credentials) (strictDots followFinal : Bool)
    (hlinks : links ≤ linkLimit host) :
    ∃ follow, (∀ current pending, follow current pending =
        if linkLimit host < links + 1 then .error .ELOOP
        else fs.outcome host caller strictDots followFinal ⟨current, pending, links + 1⟩) ∧
      ∀ current pending, fs.outcome host caller strictDots followFinal ⟨current, pending, links⟩ =
        fs.walkTo caller strictDots followFinal links follow current pending := by
  simp only [outcome]
  cases hleft : linkLimit host - links with
  | zero =>
    refine ⟨fun _ _ => .error .ELOOP, fun _ _ => ?_, fun current pending => rfl⟩
    rw [if_pos (by omega)]
  | succ left =>
    refine ⟨fs.walk caller strictDots followFinal left (links + 1), fun _ _ => ?_,
      fun current pending => rfl⟩
    rw [if_neg (by omega), show linkLimit host - (links + 1) = left by omega]

theorem outcome_turn (w : Walk) (hlinks : w.links ≤ linkLimit host) :
    fs.outcome host caller strictDots followFinal w =
      match fs.turn host caller strictDots followFinal w with
      | .inr result => result
      | .inl w' => fs.outcome host caller strictDots followFinal w' := by
  obtain ⟨current, pending, links⟩ := w
  obtain ⟨follow, hfollow, hout⟩ := exists_follow fs caller strictDots followFinal hlinks
  rw [hout]
  cases pending with
  | nil => rfl
  | cons component pending =>
    unfold walkTo turn
    simp only at hlinks hout ⊢
    cases hlook : fs.lookIn caller strictDots current component with
    | error errno => rfl
    | ok =>
      have hdown := (hout (current ++ [component]) pending).symm
      by_cases here : component = [] ∨ component = dot
      · simp only [if_pos here]
        exact (hout current pending).symm
      by_cases hdots : component = dotDot
      · simp only [if_neg here, if_pos hdots]
        exact (hout current.dropLast pending).symm
      simp only [if_neg here, if_neg hdots]
      rcases hnode : fs.tree.get? (current ++ [component]) with - | (i | i | ⟨i, target⟩)
      · exact hdown
      · exact hdown
      · exact hdown
      · simp only [hfollow]
        generalize (if startsWithSlash target = true then [] else current) = start
        split_ifs
        · rfl
        · rfl
        · rfl
        · exact hdown

/-- **The loop ends**, and comes to what `walk` computes. -/
theorem exists_run (w : Walk) (hlinks : w.links ≤ linkLimit host) :
    ∃ turns, fs.run host caller strictDots followFinal turns w =
      some (fs.outcome host caller strictDots followFinal w) := by
  cases hturn : fs.turn host caller strictDots followFinal w with
  | inr result =>
    refine ⟨1, ?_⟩
    rw [outcome_turn w hlinks, run, hturn]
  | inl w' =>
    obtain ⟨n, -, hlimit, -⟩ := step_of_turn hturn
    have hdecreases := turn_decreases hturn hlinks
    obtain ⟨turns, hrun⟩ := exists_run w' (hlimit hlinks)
    refine ⟨turns + 1, ?_⟩
    rw [outcome_turn w hlinks, run, hturn]
    exact hrun
  termination_by (linkLimit host - w.links, w.pending.length)
  decreasing_by
    rcases hdecreases with hless | ⟨hsame, hless⟩
    · exact Prod.Lex.left _ _ hless
    · rw [hsame]
      exact Prod.Lex.right _ hless

/-! ## What the loop comes to -/

theorem outcome_of_step (h : fs.Step caller strictDots followFinal c n c')
    (hlinks : links ≤ linkLimit host) :
    fs.outcome host caller strictDots followFinal ⟨c.1, c.2, links⟩ =
      if linkLimit host < links + n then .error .ELOOP
      else fs.outcome host caller strictDots followFinal ⟨c'.1, c'.2, links + n⟩ := by
  have hn : n = 0 ∨ n = 1 := by cases h <;> simp
  rw [outcome_turn _ hlinks, turn_of_step h]
  rcases hn with rfl | rfl
  · rw [if_neg (by simp), if_neg (by omega)]
  · by_cases hlimit : linkLimit host < links + 1
    · rw [if_pos ⟨rfl, hlimit⟩, if_pos hlimit]
    · rw [if_neg (fun h => hlimit h.2), if_neg hlimit]

/-- **The loop follows the steps**, if they follow no more links than it may; and fails if they
follow more. -/
theorem outcome_of_steps (h : fs.Steps caller strictDots followFinal c n c')
    (hlinks : links ≤ linkLimit host) :
    fs.outcome host caller strictDots followFinal ⟨c.1, c.2, links⟩ =
      if linkLimit host < links + n then .error .ELOOP
      else fs.outcome host caller strictDots followFinal ⟨c'.1, c'.2, links + n⟩ := by
  induction h generalizing links with
  | refl c => rw [if_neg (by omega), Nat.add_zero]
  | @head c c' c'' n m step steps ih =>
    rw [outcome_of_step step hlinks]
    by_cases hlimit : linkLimit host < links + n
    · rw [if_pos hlimit, if_pos (by omega)]
    · rw [if_neg hlimit, ih (by omega), Nat.add_assoc]

theorem steps_of_run {turns : Nat} {p : Path}
    (h : fs.run host caller strictDots followFinal turns w = some (.ok (links, p)))
    (hlinks : w.links ≤ linkLimit host) : ∃ n, w.links + n ≤ linkLimit host ∧ links = w.links + n ∧
      fs.Steps caller strictDots followFinal (w.current, w.pending) n (p, []) := by
  induction turns generalizing w with
  | zero => cases h
  | succ turns ih =>
    rw [run] at h
    split at h
    · next result hturn =>
      cases h
      obtain ⟨hpending, hresult⟩ := eq_of_turn_ok hturn
      cases hresult
      exact ⟨0, hlinks, rfl, hpending ▸ .refl _⟩
    · next w' hturn =>
      obtain ⟨n, hn, hlimit, hstep⟩ := step_of_turn hturn
      obtain ⟨m, hm, hl, hsteps⟩ := ih h (hlimit hlinks)
      exact ⟨n + m, by omega, by omega, .head hstep hsteps⟩

/-! ## Canonical paths -/

section Entered

variable (fs caller)

/-- A directory the caller may look names up in; the root need not be declared. -/
def Enterable (path : Path) : Prop :=
  (∃ i, fs.tree.get? path = some (.dir i) ∧ caller.search (fs.ownerOf i) = .ok ()) ∨
    path = [] ∧ fs.tree.get? [] = none

/-- Where a walk has got to: a path of plain names, and what is above it can be entered. -/
structure Entered (path : Path) : Prop where
  plain : ∀ name ∈ path, Plain name ∧ slash ∉ name
  above : ∀ q, q <+: path → q ≠ path → fs.Enterable caller q

variable {fs caller} {path : Path}

theorem enterable_of_lookIn (howned : ∀ path, fs.owned path)
    (hplain : Plain component) (h : fs.lookIn caller strictDots path component = .ok ()) :
    fs.Enterable caller path := by
  obtain ⟨hne, hdot, hdots⟩ := hplain
  unfold lookIn at h
  split at h
  · simp [hne, hdot, hdots] at h
  · simp [hne, hdot, hdots] at h
  · next hnone =>
    have hroot : path = [] := by simpa [claims, howned] using h
    exact .inr ⟨hroot, hroot ▸ hnone⟩
  · next i hdir =>
    rw [if_pos hne] at h
    exact .inl ⟨i, hdir, h⟩

theorem lookIn_of_enterable (h : fs.Enterable caller path) :
    fs.lookIn caller strictDots path component = .ok () := by
  rcases h with ⟨i, hdir, hsearch⟩ | ⟨rfl, hnone⟩
  · simp [lookIn, hdir, hsearch]
  · simp [lookIn, hnone]

theorem Entered.initial {q : Path} (h : fs.Entered caller path) (hq : q <+: path) :
    fs.Entered caller q where
  plain name hname := h.plain name (hq.subset hname)
  above a ha hne := by
    refine h.above a (ha.trans hq) ?_
    rintro rfl
    exact hne (ha.eq_of_length_le hq.length_le)

theorem Entered.push {name : Name} (h : fs.Entered caller path)
    (henter : fs.Enterable caller path) (hplain : Plain name) (hslash : slash ∉ name) :
    fs.Entered caller (path ++ [name]) where
  plain name' hname' := by
    rcases mem_append.mp hname' with hold | hnew
    · exact h.plain name' hold
    · rw [mem_singleton.mp hnew]
      exact ⟨hplain, hslash⟩
  above q hq hne := by
    have hpath : q <+: path := by
      rcases prefix_concat_iff.mp hq with heq | hpath
      · exact absurd heq hne
      · exact hpath
    by_cases heq : q = path
    · exact heq ▸ henter
    · exact h.above q hpath heq

theorem Entered.step (howned : ∀ path, fs.owned path) {c c' : Path × List Name} {n : Nat}
    (hstep : fs.Step caller strictDots followFinal c n c') (h : fs.Entered caller c.1)
    (hpending : ∀ name ∈ c.2, slash ∉ name) :
    fs.Entered caller c'.1 ∧ ∀ name ∈ c'.2, slash ∉ name := by
  cases hstep with
  | stay look here => exact ⟨h, (forall_mem_cons.mp hpending).2⟩
  | up look => exact ⟨h.initial ( dropLast_prefix _), (forall_mem_cons.mp hpending).2⟩
  | down look plain stop =>
    obtain ⟨hslash, hpending⟩ := forall_mem_cons.mp hpending
    exact ⟨h.push (enterable_of_lookIn howned plain look) plain hslash, hpending⟩
  | @follow current component pending i target look plain link go leads =>
    obtain ⟨-, hpending⟩ := forall_mem_cons.mp hpending
    refine ⟨?_, fun name hname => ?_⟩
    · split
      · exact h.initial nil_prefix
      · exact h
    · unfold expanded at hname
      rw [mem_append, mem_append] at hname
      rcases hname with (hname | hname) | hname
      · exact slash_not_mem_of_mem_components hname
      · split at hname
        · rw [mem_singleton.mp hname]
          exact not_mem_nil
        · cases hname
      · exact hpending name hname

theorem Entered.steps (howned : ∀ path, fs.owned path) {c c' : Path × List Name} {n : Nat}
    (hsteps : fs.Steps caller strictDots followFinal c n c') (h : fs.Entered caller c.1)
    (hpending : ∀ name ∈ c.2, slash ∉ name) : fs.Entered caller c'.1 := by
  induction hsteps with
  | refl c => exact h
  | head step steps ih =>
    obtain ⟨h, hpending⟩ := h.step howned step hpending
    exact ih h hpending

theorem Entered.resteps {rest : Path} (h : fs.Entered caller (path ++ rest)) :
    fs.Steps caller strictDots false (path, rest) 0 (path ++ rest, []) := by
  induction rest generalizing path with
  | nil => simpa using .refl (path, [])
  | cons name rest ih =>
    have hpath : path <+: path ++ name :: rest := prefix_append ..
    have henter : fs.Enterable caller path := h.above path hpath (by simp)
    have hplain : Plain name := (h.plain name (by simp)).1
    have happend : path ++ name :: rest = path ++ [name] ++ rest := by simp
    rw [happend] at h ⊢
    refine .head (n := 0) (m := 0) (.down (lookIn_of_enterable henter) hplain ?_) (ih h)
    intro i target hlink
    refine ⟨rfl, ?_⟩
    by_contra hrest
    -- a link among what is above the path could not have been entered
    rcases h.above (path ++ [name]) (prefix_append ..) (by simpa using hrest) with
      ⟨j, hdir, -⟩ | ⟨hroot, -⟩
    · cases hlink.symm.trans hdir
    · simp at hroot

end Entered

/-! ## Cycles of links -/

section Cyclic

variable (fs caller strictDots)

/-- The link `name` of a directory is on a cycle: resolving it leads the caller, through one link or
more, back to looking it up. -/
def Cyclic (directory : Path) (name : Name) : Prop :=
  Plain name ∧ ∃ n rest, 0 < n ∧
    fs.Steps caller strictDots true (directory, [name]) n (directory, name :: rest)

variable {fs caller strictDots} {more pending : List Name}

theorem expanded_append (target : List Byte) (pending : List Name) (hmore : more ≠ []) :
    expanded target (pending ++ more) = components target ++ pending ++ more := by
  simp [expanded, hmore]

theorem expanded_eq (target : List Byte) {tail : List Name}
    (htail : tail = pending ∨ tail = pending ++ [[]]) :
    expanded target tail = components target ++ pending ∨
      expanded target tail = components target ++ pending ++ [[]] := by
  rcases htail with rfl | rfl
  · cases tail with
    | nil => by_cases hslash : endsWithSlash target <;> simp [expanded, hslash]
    | cons name tail => exact .inl (by simp [expanded])
  · exact .inr (by simp [expanded])

theorem Step.before {current : Path} {tail : List Name} {n : Nat}
    {c : Path × List Name} (h : fs.Step caller strictDots true (current, component :: tail) n c)
    (hmore : more ≠ [])
    (htail : tail = pending ∨ tail = pending ++ [[]]) :
    ∃ pending', (c.2 = pending' ∨ c.2 = pending' ++ [[]]) ∧
      fs.Step caller strictDots followFinal (current, component :: (pending ++ more)) n
        (c.1, pending' ++ more) := by
  cases h with
  | stay look here => exact ⟨pending, htail, .stay look here⟩
  | up look => exact ⟨pending, htail, .up look⟩
  | down look plain stop =>
    exact ⟨pending, htail, .down look plain fun i target hlink => nomatch (stop i target hlink).1⟩
  | @follow _ _ _ i target look plain link go leads =>
    refine ⟨components target ++ pending, expanded_eq target htail, ?_⟩
    rw [← expanded_append target pending hmore]
    exact .follow look plain link (.inr (by simp [hmore])) leads

variable {directory : Path} {name : Name}

theorem Steps.before {c : Path × List Name} {n : Nat} {rest : List Name} (hname : Plain name)
    (h : fs.Steps caller strictDots true c n (directory, name :: rest))
    (hmore : more ≠ []) (hpending : c.2 = pending ∨ c.2 = pending ++ [[]]) :
    ∃ rest', fs.Steps caller strictDots followFinal (c.1, pending ++ more) n
      (directory, name :: (rest' ++ more)) := by
  generalize hend : (directory, name :: rest) = c' at h
  induction h generalizing pending with
  | refl c =>
    subst hend
    rcases hpending with rfl | hpending
    · exact ⟨rest, .refl _⟩
    · cases pending with
      | nil => exact absurd (List.cons.inj hpending).1 hname.1
      | cons first pending =>
        obtain ⟨rfl, -⟩ := List.cons.inj hpending
        exact ⟨pending, .refl _⟩
  | @head c c₁ c₂ n m step steps ih =>
    obtain ⟨current, _ | ⟨component, tail⟩⟩ := c
    · cases step
    cases pending with
    | nil =>
      -- the empty component a trailing slash leaves is the last
      obtain ⟨rfl, rfl⟩ : component = [] ∧ tail = [] := by simpa using hpending
      have hc₁ : c₁ = (current, []) := by
        cases step with
        | stay look here => rfl
        | down look plain stop => exact absurd rfl plain.1
        | follow look plain link go leads => exact absurd rfl plain.1
      rw [hc₁] at steps
      cases hend.trans steps.eq_of_nil.2
    | cons first pending =>
      obtain ⟨rfl, htail⟩ : component = first ∧ (tail = pending ∨ tail = pending ++ [[]]) := by
        simpa [← and_or_left] using hpending
      obtain ⟨pending', hpending', hstep⟩ := step.before hmore htail
      obtain ⟨rest', hsteps⟩ := ih hpending' hend
      exact ⟨rest', .head hstep hsteps⟩

/-- **From a link on a cycle** resolution comes back to it, whatever is pending after it. -/
theorem Cyclic.returns (h : fs.Cyclic caller strictDots directory name)
    (hgo : followFinal ∨ pending ≠ []) : ∃ n pending', 0 < n ∧ (followFinal ∨ pending' ≠ []) ∧
      fs.Steps caller strictDots followFinal (directory, name :: pending) n
        (directory, name :: pending') := by
  obtain ⟨hname, n, rest, hn, hsteps⟩ := h
  by_cases hpending : pending = []
  · subst hpending
    obtain rfl : followFinal = true := hgo.resolve_right (· rfl)
    exact ⟨n, rest, hn, .inl rfl, hsteps⟩
  · obtain ⟨rest', hsteps⟩ := hsteps.before hname hpending (.inl rfl)
    exact ⟨n, rest' ++ pending, hn, .inr (by simp [hpending]), hsteps⟩

theorem Cyclic.endless (h : fs.Cyclic caller strictDots directory name) (k : Nat)
    (hgo : followFinal ∨ pending ≠ []) :
    ∃ n c, k ≤ n ∧ fs.Steps caller strictDots followFinal (directory, name :: pending) n c := by
  induction k generalizing pending with
  | zero => exact ⟨0, _, Nat.le_refl 0, .refl _⟩
  | succ k ih =>
    obtain ⟨n, pending', hn, hgo', hsteps⟩ := h.returns hgo
    obtain ⟨m, c, hm, hsteps'⟩ := ih hgo'
    exact ⟨n + m, c, by omega, hsteps.trans hsteps'⟩

end Cyclic

/-! ## `traversal` -/

def pendingOf (host : Host) (raw : List Byte) (followFinal : Bool) : List Name :=
  components raw ++ if endsWithSlash raw && (followFinal || host == .macos) then [[]] else []

theorem pendingOf_ne_nil (followFinal : Bool) {raw : List Byte} (habsolute : startsWithSlash raw) :
    pendingOf .macos raw followFinal ≠ [] := by
  intro hnil
  obtain ⟨hcomponents, hslash⟩ := append_eq_nil_iff.mp hnil
  have hraw : raw ≠ [] := by
    rintro rfl
    cases habsolute
  have hlast := eq_slash_of_components_eq_nil hcomponents (getLast_mem hraw)
  have hends : endsWithSlash raw = true := by
    rw [endsWithSlash, getLast?_eq_some_getLast hraw, hlast]
    exact beq_self_eq_true _
  simp [hends] at hslash

theorem slash_not_mem_pendingOf (host : Host) (raw : List Byte) (followFinal : Bool) :
    ∀ name ∈ pendingOf host raw followFinal, slash ∉ name := by
  intro name hname
  rcases mem_append.mp hname with hname | hname
  · exact slash_not_mem_of_mem_components hname
  · split at hname
    · rw [mem_singleton.mp hname]
      exact not_mem_nil
    · cases hname

section Traversal

variable (howned : ∀ path, fs.owned path)
include howned

theorem traversal_eq (raw : List Byte) (path : Path) :
    fs.traversal host caller raw path strictDots followFinal =
      match fs.outcome host caller strictDots followFinal
        ⟨[], pendingOf host raw followFinal, 0⟩ with
      | .error errno => .error errno
      | .ok (links, current) =>
        if 0 < links ∧ fs.passthrough current then .error .EXDEV
        else if 0 < links ∧ fs.deny current then .error .EACCES
        else .ok current := by
  simp only [traversal, claims, howned, Bool.true_or, Bool.not_true, Bool.false_and,
    Bool.false_eq_true, if_false, false_and, or_false]
  rfl

variable {raw : List Byte} {path p : Path}

theorem steps_of_traversal (h : fs.traversal host caller raw path strictDots followFinal = .ok p) :
    (∃ n ≤ linkLimit host, fs.Steps caller strictDots followFinal
      ([], pendingOf host raw followFinal) n (p, [])) ∧ fs.Entered caller p := by
  rw [traversal_eq howned] at h
  split at h
  · cases h
  next links current houtcome =>
  have hp : current = p := by
    split at h
    · cases h
    · split at h
      · cases h
      · exact Except.ok.inj h
  subst hp
  obtain ⟨turns, hrun⟩ : ∃ turns, fs.run host caller strictDots followFinal turns
      ⟨[], pendingOf host raw followFinal, 0⟩ = some (.ok (links, current)) :=
    houtcome ▸ exists_run _ (Nat.zero_le _)
  obtain ⟨n, hn, -, hsteps⟩ := steps_of_run hrun (Nat.zero_le _)
  rw [Nat.zero_add] at hn
  refine ⟨⟨n, hn, hsteps⟩, Entered.steps howned hsteps ⟨nofun, fun q hq hne => ?_⟩
    (slash_not_mem_pendingOf host raw followFinal)⟩
  exact absurd (prefix_nil.mp hq) hne

/-- **A resolved path resolves to itself**, its last component not followed. -/
theorem traversal_again (habsolute : startsWithSlash raw)
    (h : fs.traversal host caller raw path strictDots followFinal = .ok p) (path' : Path) :
    fs.traversal host caller (pathBytes p) path' strictDots false = .ok p := by
  obtain ⟨⟨n, -, hsteps⟩, hentered⟩ := steps_of_traversal howned h
  have hsplit : ∀ name ∈ p, name ≠ [] ∧ slash ∉ name :=
    fun name hname => ⟨(hentered.plain name hname).1.1, (hentered.plain name hname).2⟩
  -- nothing is pending but the path's own names and, for the root on macOS, its trailing slash
  have hagain : fs.Steps caller strictDots false ([], pendingOf host (pathBytes p) false) 0
      (p, []) := by
    by_cases hroot : p = []
    · subst hroot
      cases host with
      | linux => exact .refl _
      | macos =>
        obtain ⟨component, pending, hpending⟩ :=
          exists_cons_of_ne_nil (pendingOf_ne_nil followFinal habsolute)
        rw [hpending] at hsteps
        exact .head (.stay (lookIn_nil hsteps.look) (.inl rfl)) (.refl _)
    · have hpending : pendingOf host (pathBytes p) false = p := by
        simp [pendingOf, components_pathBytes hsplit, endsWithSlash_pathBytes hroot hsplit]
      rw [hpending]
      exact (Entered.resteps hentered : fs.Steps caller strictDots false ([], p) 0 ([] ++ p, []))
  have hdone : fs.outcome host caller strictDots false ⟨p, [], 0⟩ = .ok (0, p) :=
    outcome_turn _ (Nat.zero_le _)
  rw [traversal_eq howned, outcome_of_steps hagain (Nat.zero_le _), if_neg (by simp)]
  simp only [Nat.add_zero, hdone, Nat.lt_irrefl, false_and, if_false]

variable {n : Nat}

theorem eq_of_steps {p' : Path}
    (h : fs.traversal host caller raw path strictDots followFinal = .ok p)
    (hsteps : fs.Steps caller strictDots followFinal ([], pendingOf host raw followFinal) n (p',
    [])) :
    p' = p := by
  have hdone {links : Nat} (hlinks : links ≤ linkLimit host) :
      fs.outcome host caller strictDots followFinal ⟨p', [], links⟩ = .ok (links, p') :=
    outcome_turn _ hlinks
  rw [traversal_eq howned, outcome_of_steps hsteps (Nat.zero_le _)] at h
  by_cases hlimit : linkLimit host < 0 + n
  · rw [if_pos hlimit] at h
    cases h
  · simp only [if_neg hlimit, hdone (Nat.le_of_not_lt hlimit)] at h
    split at h
    · cases h
    · split at h
      · cases h
      · exact Except.ok.inj h

theorem traversal_of_steps {c : Path × List Name}
    (hsteps : fs.Steps caller strictDots followFinal ([], pendingOf host raw followFinal) n c)
    (hlimit : linkLimit host < n) (path : Path) :
    fs.traversal host caller raw path strictDots followFinal = .error .ELOOP := by
  rw [traversal_eq howned, outcome_of_steps hsteps (Nat.zero_le _), if_pos (by omega)]

theorem traversal_cyclic {directory : Path} {name : Name} {pending : List Name}
    (hcyclic : fs.Cyclic caller strictDots directory name)
    (hsteps : fs.Steps caller strictDots followFinal ([], pendingOf host raw followFinal) n
      (directory, name :: pending)) (hgo : followFinal ∨ pending ≠ []) (path : Path) :
    fs.traversal host caller raw path strictDots followFinal = .error .ELOOP := by
  obtain ⟨m, c, hm, hsteps'⟩ := hcyclic.endless (linkLimit host + 1) hgo
  exact traversal_of_steps howned (hsteps.trans hsteps') (by omega) path

end Traversal

/-- **Path resolution.** In a file system that owns `/` the loop of `traversal` ends on every
absolute path; a path it succeeds with has only directories above it, is where resolution leads step
by step within the limit of links, and resolves to itself; a link on a cycle that is followed gives
`ELOOP`. -/
theorem traversal_resolves (fs : VirtualFs) (hroot : [] ∈ fs.ownedPrefixes) (host : Host)
    (caller : Credentials) (raw : List Byte) (habsolute : startsWithSlash raw)
    (strictDots followFinal : Bool) :
    (∃ turns, fs.run host caller strictDots followFinal turns
      ⟨[], pendingOf host raw followFinal, 0⟩ =
      some (fs.walk caller strictDots followFinal (linkLimit host) 0 []
        (pendingOf host raw followFinal))) ∧
    (∀ p, fs.traversal host caller raw (normalize raw) strictDots followFinal = .ok p →
      (dot ∉ p ∧ dotDot ∉ p) ∧
      (∀ q, q <+: p → q ≠ p → q ≠ [] → ∃ i, fs.tree.get? q = some (.dir i)) ∧
      (∃ n ≤ linkLimit host, fs.Steps caller strictDots followFinal
        ([], pendingOf host raw followFinal) n (p, [])) ∧
      (∀ n p', fs.Steps caller strictDots followFinal ([], pendingOf host raw followFinal) n
        (p', []) →
        p' = p) ∧
      fs.traversal host caller (pathBytes p) (normalize (pathBytes p)) strictDots false = .ok p) ∧
    (∀ directory name pending n, fs.Cyclic caller strictDots directory name →
      fs.Steps caller strictDots followFinal ([], pendingOf host raw followFinal) n
        (directory, name :: pending) → followFinal ∨ pending ≠ [] →
      fs.traversal host caller raw (normalize raw) strictDots followFinal = .error .ELOOP) := by
  have howned : ∀ path, fs.owned path :=
    fun path => any_eq_true.mpr ⟨[], hroot, decide_eq_true nil_prefix⟩
  refine ⟨exists_run ⟨[], pendingOf host raw followFinal, 0⟩ (Nat.zero_le _), fun p hp => ?_,
    fun directory name pending n hcyclic hsteps hgo => traversal_cyclic howned hcyclic hsteps hgo _⟩
  obtain ⟨hsteps, hentered⟩ := steps_of_traversal howned hp
  refine ⟨⟨fun hmem => ?_, fun hmem => ?_⟩, fun q hq hne hq' => ?_, hsteps,
    fun n p' => eq_of_steps howned hp, traversal_again howned habsolute hp _⟩
  · exact (hentered.plain dot hmem).1.2.1 rfl
  · exact (hentered.plain dotDot hmem).1.2.2 rfl
  · rcases hentered.above q hq hne with ⟨i, hdir, -⟩ | ⟨hnil, -⟩
    · exact ⟨i, hdir⟩
    · exact absurd hnil hq'

/-- The directory `/d`, a link `/l` to it, and the links `/a` and `/b` to each other. -/
def sampleLinks : VirtualFs where
  tree := [([], .dir 1), ([[97]], .symlink 3 [98]),
    ([[98]], .symlink 5 [47, 97]), ([[100]], .dir 7),
    ([[108]], .symlink 9 [100, 47])].foldl (fun tree e => tree.insert e.1 e.2) .empty
  inodes _ := ⟨.directory, 2, ⟨0o755, 0, 0⟩⟩
  ownedPrefixes := [[]]

def sampleLinksCaller : Credentials := ⟨7, 7, [7], false, 0o022, by decide⟩

/-- `/l/./` resolves to `/d`, which resolves to itself; `/a` and `/b` lead to each other. -/
theorem traversal_resolves_sample :
    sampleLinks.traversal .macos sampleLinksCaller [47, 108, 47, 46, 47] [[108]] true true
        = .ok [[100]] ∧
      sampleLinks.traversal .macos sampleLinksCaller [47, 100] [[100]] true false = .ok [[100]] ∧
      sampleLinks.traversal .linux sampleLinksCaller [47, 97] [[97]] true true = .error .ELOOP := by
  have hresolved :
      sampleLinks.traversal .macos sampleLinksCaller [47, 108, 47, 46, 47] [[108]] true true
        = .ok [[100]] := by
    decide +kernel
  obtain ⟨-, hagain, -⟩ := traversal_resolves sampleLinks (by decide) .macos sampleLinksCaller
    [47, 108, 47, 46, 47] (by decide) true true
  obtain ⟨-, -, hloop⟩ := traversal_resolves sampleLinks (by decide) .linux sampleLinksCaller
    [47, 97] (by decide) true true
  have hlook (name : Name) : sampleLinks.lookIn sampleLinksCaller true [] name = .ok () :=
    lookIn_of_enterable (.inl ⟨1, by decide +kernel, by decide +kernel⟩)
  have hforth : sampleLinks.Step sampleLinksCaller true true ([], [[97]]) 1 ([], [[98]]) :=
    .follow (hlook _) ⟨by decide, by decide, by decide⟩
      (by decide +kernel : sampleLinks.tree.get? ([] ++ [[97]]) = some (.symlink 3 [98])) (.inl rfl)
      (by decide)
  have hback : sampleLinks.Step sampleLinksCaller true true ([], [[98]]) 1 ([], [[97]]) :=
    .follow (hlook _) ⟨by decide, by decide, by decide⟩
      (by decide +kernel : sampleLinks.tree.get? ([] ++ [[98]]) = some (.symlink 5 [47, 97]))
        (.inl rfl)
      (by decide)
  have hcyclic : sampleLinks.Cyclic sampleLinksCaller true [] [97] :=
    ⟨⟨by decide, by decide, by decide⟩, 2, [], by decide, .head hforth (.head hback (.refl _))⟩
  exact ⟨hresolved, (hagain [[100]] hresolved).2.2.2.2,
    hloop [] [97] [] 0 hcyclic (.refl _) (.inl rfl)⟩

end VirtualFs

end Snare.Fs
