import Snare.Lib.SortedMap

/-!
# References between triggers

A trigger reads variables that other triggers of its instance define, and fires synthetic events. A
command is taken as the list of its parts, with whether the checks that have nothing to do with
references accept each; what is refused changes nothing.

* **`State.Sound`**: every variable read is defined on the event it was found on, and every
  synthetic event fired exists with as many fields as values are passed.
* **`references_hold`**: whatever is written, truncated, made and removed.
-/

namespace Snare.Tracefs

open List SortedMap

/-- A trigger: the variables it defines, those of other triggers it reads, the synthetic events it
fires with the number of values passed, and the rest of its text. -/
structure Trigger where
  vars : List String := []
  refs : List (String × String) := []
  traces : List (String × Nat) := []
  rest : String := ""

def Trigger.defines (t : Trigger) (name : String) : Bool := t.vars.contains name

def Trigger.matches_ (t u : Trigger) : Bool :=
  t.vars = u.vars ∧ t.traces = u.traces ∧ t.rest = u.rest

/-- A term of an expression or a parameter of an action: `$var` or not, and whether it is accepted.
-/
structure Operand where
  var : Option String
  ok : Bool

inductive Part where
  | option (ok : Bool)
  | onmatch (ok : Bool) (synth : String) (params : List Operand)
  | onmax (var : Option String) (ok : Bool)
  | var (name : String) (ok : Bool) (expr : List Operand)

abbrev Instance := SortedMap String (List Trigger)

/-- The synthetic events with the number of their fields, and the instances. -/
structure State where
  synthetic : SortedMap String Nat := .empty
  instances : SortedMap String Instance := empty.insert "" .empty

/-! ## Parsing -/

variable (inst : Instance)

/-- `resolve_var`: `some none` for a variable of the trigger itself, `none` for none or several. -/
def resolveVar (t : Trigger) (name : String) : Option (Option String) :=
  if t.defines name then some none
  else
    match inst.entries.flatMap fun e => (e.2.filter (·.defines name)).map fun _ => e.1 with
    | [ev] => some (some ev)
    | _ => none

def readVar (t : Trigger) (name : String) : Option Trigger :=
  (resolveVar inst t name).map fun
    | none => t
    | some ev => { t with refs := t.refs ++ [(ev, name)] }

def readOperand (t : Trigger) (o : Operand) : Option Trigger := do
  let t ← o.var.elim (some t) (readVar inst t)
  if o.ok then some t else none

def parsePart (s : State) (inst : Instance) (t : Trigger) : Part → Option Trigger
  | .option ok => if ok then some t else none
  | .onmatch ok synth params => do
    let fields ← s.synthetic.get? synth
    if ¬ok ∨ params.length ≠ fields then none
    else
      let t ← params.foldlM (readOperand inst) t
      some { t with traces := t.traces ++ [(synth, params.length)] }
  | .onmax var ok => readOperand inst t ⟨var, ok && var.isSome⟩
  | .var name ok expr =>
    if ¬ok ∨ t.defines name then none
    else do
      let t ← expr.foldlM (readOperand inst) t
      some { t with vars := t.vars ++ [name] }

/-! ## Writes -/

def varReferenced (event : String) (index : Nat) : Bool :=
  match (inst.get? event).bind (·[index]?) with
  | none => false
  | some me =>
    inst.entries.any fun e => e.2.zipIdx.any fun (t, i) =>
      !(e.1 = event && i = index) && t.refs.any fun r => r.1 = event && me.defines r.2

def removeTrigger (event : String) (index : Nat) : Instance :=
  if varReferenced inst event index then inst else inst.modify event (·.eraseIdx index)

def addTrigger (event : String) (t : Trigger) : Instance :=
  inst.alter event fun ts => some (ts.getD [] ++ [t])

def truncateLoop (event : String) : Nat → Instance → Instance
  | 0, inst => inst
  | n + 1, inst => truncateLoop event n (removeTrigger inst event n)

namespace State

variable (s : State)

def synthReferenced (name : String) : Bool :=
  s.instances.entries.any fun i =>
    (i.2.get? ("synthetic/" ++ name)).any (!·.isEmpty) ||
      i.2.entries.any fun e => e.2.any fun t => t.traces.any (·.1 = name)

def triggerWrite (name event : String) (remove : Bool) (parts : List Part)
    (ok : Bool) (rest : String) : State :=
  match s.instances.get? name with
  | none => s
  | some inst =>
    match parts.foldlM (parsePart s inst) { rest } with
    | none => s
    | some t =>
      let existing := (inst.get? event).bind (·.findIdx? (·.matches_ t))
      if ¬ok then s
      else
        match remove, existing with
        | true, some index =>
          { s with instances := s.instances.insert name (removeTrigger inst event index) }
        | true, none | false, some _ => s
        | false, none => { s with instances := s.instances.insert name (addTrigger inst event t) }

def triggerTruncate (name event : String) : State :=
  { s with instances := s.instances.modify name fun inst =>
      truncateLoop event ((inst.get? event).getD []).length inst }

def synthDefine (name : String) (fields : Nat) : State :=
  if (s.synthetic.get? name).isSome then s else
    { s with synthetic := s.synthetic.insert name fields }

def synthRemove (name : String) : State :=
  if s.synthReferenced name then s else { s with synthetic := s.synthetic.erase name }

def synthTruncate : State := s.synthetic.keys.foldl synthRemove s

def makeInstance (name : String) : State :=
  if (s.instances.get? name).isSome then s else
    { s with instances := s.instances.insert name .empty }

def removeInstance (name : String) (piped : Bool) : State :=
  match s.instances.get? name with
  | none => s
  | some inst =>
    if piped || inst.entries.any fun e => !e.2.isEmpty then s
    else { s with instances := s.instances.erase name }

end State

/-- What changes triggers, synthetic events and instances. -/
inductive Write where
  | trigger (name event : String) (remove : Bool) (parts : List Part) (ok : Bool) (rest : String)
  | triggerTruncate (name event : String)
  | synthDefine (name : String) (fields : Nat)
  | synthRemove (name : String)
  | synthTruncate
  | makeInstance (name : String)
  | removeInstance (name : String) (piped : Bool)

def State.step (s : State) : Write → State
  | .trigger name event remove parts ok rest => s.triggerWrite name event remove parts ok rest
  | .triggerTruncate name event => s.triggerTruncate name event
  | .synthDefine name fields => s.synthDefine name fields
  | .synthRemove name => s.synthRemove name
  | .synthTruncate => s.synthTruncate
  | .makeInstance name => s.makeInstance name
  | .removeInstance name piped => s.removeInstance name piped

/-! ## What a command refers to -/

def Defines (event var : String) : Prop :=
  ∃ ts, inst.get? event = some ts ∧ ∃ u ∈ ts, u.defines var

structure Trigger.Backed (synthetic : SortedMap String Nat) (inst : Instance) (t : Trigger) :
    Prop where
  refs : ∀ r ∈ t.refs, Defines inst r.1 r.2
  traces : ∀ a ∈ t.traces, synthetic.get? a.1 = some a.2

def Instance.Sound (synthetic : SortedMap String Nat) (inst : Instance) : Prop :=
  ∀ event ts, inst.get? event = some ts → ∀ t ∈ ts, t.Backed synthetic inst

def State.Sound (s : State) : Prop :=
  ∀ name inst, s.instances.get? name = some inst → Instance.Sound s.synthetic inst

theorem foldlM_keeps {α β : Type} {P : β → Prop} {f : β → α → Option β}
    (hf : ∀ {b a b'}, P b → f b a = some b' → P b') (l : List α) {b b' : β} (hb : P b)
    (h : l.foldlM f b = some b') : P b' := by
  induction l generalizing b with
  | nil => exact Option.some.inj h ▸ hb
  | cons a l ih =>
    obtain ⟨b₁, hb₁, hrest⟩ := Option.bind_eq_some_iff.mp h
    exact ih (hf hb hb₁) hrest

section Parse

variable {s : State} {inst : Instance} {t t' : Trigger}

theorem Trigger.Backed.readOperand (ht : t.Backed s.synthetic inst) {o : Operand}
    (h : readOperand inst t o = some t') : t'.Backed s.synthetic inst := by
  obtain ⟨t₁, hread, hok⟩ := Option.bind_eq_some_iff.mp h
  obtain rfl : t₁ = t' := by split at hok <;> simp_all
  cases hvar : o.var with
  | none =>
    rw [hvar] at hread
    exact Option.some.inj hread ▸ ht
  | some name =>
    rw [hvar] at hread
    obtain ⟨found, hfound, rfl⟩ := Option.map_eq_some_iff.mp hread
    cases found with
    | none => exact ht
    | some ev =>
      refine ⟨fun r hr => ?_, ht.traces⟩
      rcases mem_append.mp hr with hr | hr
      · exact ht.refs r hr
      · obtain rfl := mem_singleton.mp hr
        unfold resolveVar at hfound
        split at hfound
        · cases hfound
        split at hfound
        case h_2 => cases hfound
        case h_1 ev' heq =>
          obtain rfl : ev' = ev := by simpa using hfound
          obtain ⟨e, he, hev⟩ := mem_flatMap.mp (heq ▸ mem_singleton_self ev')
          obtain ⟨u, hu, rfl⟩ := mem_map.mp hev
          obtain ⟨hu, hdefines⟩ := mem_filter.mp hu
          exact ⟨e.2, get?_eq_some_iff.mpr he, u, hu, hdefines⟩

theorem Trigger.Backed.parsePart (ht : t.Backed s.synthetic inst) {part : Part}
    (h : parsePart s inst t part = some t') : t'.Backed s.synthetic inst := by
  cases part with
  | option ok =>
    simp only [Tracefs.parsePart] at h
    split at h
    · exact Option.some.inj h ▸ ht
    · cases h
  | onmatch ok synth params =>
    obtain ⟨fields, hfields, h⟩ := Option.bind_eq_some_iff.mp h
    split at h
    · cases h
    · next hcount =>
      obtain ⟨t₁, hread, heq⟩ := Option.bind_eq_some_iff.mp h
      obtain rfl := Option.some.inj heq
      have ht₁ := foldlM_keeps (fun hb hf => hb.readOperand hf) params ht hread
      refine ⟨ht₁.refs, fun a ha => ?_⟩
      rcases mem_append.mp ha with ha | ha
      · exact ht₁.traces a ha
      · obtain rfl := mem_singleton.mp ha
        rw [hfields, not_not.mp (not_or.mp hcount).2]
  | onmax var ok => exact ht.readOperand h
  | var name ok expr =>
    simp only [Tracefs.parsePart] at h
    split at h
    · cases h
    · obtain ⟨t₁, hread, heq⟩ := Option.bind_eq_some_iff.mp h
      obtain rfl := Option.some.inj heq
      have ht₁ := foldlM_keeps (fun hb hf => hb.readOperand hf) expr ht hread
      exact { ht₁ with }

end Parse

/-! ## Adding and removing triggers -/

section Triggers

variable {synthetic : SortedMap String Nat} {inst : Instance} {event : String}

theorem Instance.Sound.addTrigger (h : inst.Sound synthetic) {t : Trigger}
    (ht : t.Backed synthetic inst) : Instance.Sound synthetic (addTrigger inst event t) := by
  have hget := fun ev => inst.get?_alter event ev fun ts => some (ts.getD [] ++ [t])
  have hmono : ∀ {u : Trigger}, u.Backed synthetic inst →
      u.Backed synthetic (Tracefs.addTrigger inst event t) := by
    refine fun hu => ⟨fun r hr => ?_, hu.traces⟩
    obtain ⟨ts, hts, w, hw, hdefines⟩ := hu.refs r hr
    by_cases heq : r.1 = event
    · exact ⟨_, (hget r.1).trans (if_pos heq), w,
        mem_append_left _ (by rw [← heq, hts]; exact hw), hdefines⟩
    · exact ⟨ts, (hget r.1).trans ((if_neg heq).trans hts), w, hw, hdefines⟩
  intro ev ts hts u hu
  rw [Tracefs.addTrigger, hget] at hts
  split at hts
  · obtain rfl := Option.some.inj hts
    rcases mem_append.mp hu with hu | hu
    · cases hold : inst.get? event with
      | none => simp [hold] at hu
      | some old => exact hmono (h event old hold u (by simpa [hold] using hu))
    · exact hmono (mem_singleton.mp hu ▸ ht)
  · exact hmono (h ev ts hts u hu)

theorem Instance.Sound.removeTrigger (h : inst.Sound synthetic) (index : Nat) :
    Instance.Sound synthetic (removeTrigger inst event index) := by
  unfold Tracefs.removeTrigger
  split
  · exact h
  next hfree =>
  intro ev ts hts t ht
  -- the trigger stood at another place, and what it reads is not defined at this one
  obtain ⟨ts₀, i, hts₀, hi, hplace⟩ : ∃ ts₀ i, inst.get? ev = some ts₀ ∧ ts₀[i]? = some t ∧
      ¬(ev = event ∧ i = index) := by
    rw [get?_modify] at hts
    split at hts
    · next heq =>
      obtain ⟨ts₀, hts₀, rfl⟩ := Option.map_eq_some_iff.mp hts
      obtain ⟨i, hne, hi⟩ := mem_eraseIdx_iff_getElem?.mp ht
      exact ⟨ts₀, i, heq ▸ hts₀, hi, fun hplace => hne hplace.2⟩
    · next hne =>
      obtain ⟨i, hi⟩ := mem_iff_getElem?.mp ht
      exact ⟨ts, i, hts, hi, fun hplace => hne hplace.1⟩
  have hbacked := h ev ts₀ hts₀ t (mem_of_getElem? hi)
  refine ⟨fun r hr => ?_, hbacked.traces⟩
  obtain ⟨ts₁, hts₁, u, hu, hdefines⟩ := hbacked.refs r hr
  by_cases heq : r.1 = event
  · obtain ⟨j, hj⟩ := mem_iff_getElem?.mp hu
    refine ⟨ts₁.eraseIdx index, by rw [get?_modify, if_pos heq, ← heq, hts₁]; rfl, u,
      mem_eraseIdx_iff_getElem?.mpr ⟨j, ?_, hj⟩, hdefines⟩
    rintro rfl
    refine hfree ?_
    rw [varReferenced, ← heq, hts₁, Option.bind_some, hj]
    refine any_eq_true.mpr ⟨(ev, ts₀), get?_eq_some_iff.mp hts₀,
      any_eq_true.mpr ⟨(t, i), mem_zipIdx_iff_getElem?.mpr hi, ?_⟩⟩
    rw [Bool.and_eq_true, any_eq_true]
    exact ⟨by simpa [heq, imp_iff_not_or] using hplace, r, hr, by simpa using hdefines⟩
  · exact ⟨ts₁, by rw [get?_modify, if_neg heq, hts₁], u, hu, hdefines⟩

theorem Instance.Sound.truncateLoop (n : Nat) {inst : Instance} (h : inst.Sound synthetic) :
    Instance.Sound synthetic (truncateLoop event n inst) := by
  induction n generalizing inst with
  | zero => exact h
  | succ n ih => exact ih (h.removeTrigger n)

end Triggers

/-! ## Every write -/

namespace State

variable {s : State}

theorem Sound.insert (h : s.Sound) (name : String) {inst : Instance}
    (hinst : Instance.Sound s.synthetic inst) :
    Sound { s with instances := s.instances.insert name inst } := by
  intro name' inst' hget
  rw [get?_insert] at hget
  split at hget
  · exact Option.some.inj hget ▸ hinst
  · exact h name' inst' hget

theorem Sound.triggerWrite (h : s.Sound) (name event : String) (remove : Bool) (parts : List Part)
    (ok : Bool) (rest : String) : (s.triggerWrite name event remove parts ok rest).Sound := by
  unfold State.triggerWrite
  split
  · exact h
  next inst hinst =>
  split
  · exact h
  next t hparse =>
  have ht : t.Backed s.synthetic inst :=
    foldlM_keeps (fun hb hf => hb.parsePart hf) parts ⟨by simp, by simp⟩ hparse
  dsimp only
  split
  · exact h
  split
  · exact h.insert name ((h name inst hinst).removeTrigger _)
  · exact h
  · exact h
  · exact h.insert name ((h name inst hinst).addTrigger ht)

theorem Sound.synthRemove (h : s.Sound) (name : String) : (s.synthRemove name).Sound := by
  unfold State.synthRemove
  split
  · exact h
  next hfree =>
  intro name' inst hinst event ts hts t ht
  have hbacked := h name' inst hinst event ts hts t ht
  refine ⟨hbacked.refs, fun a ha => ?_⟩
  rw [get?_erase, if_neg, hbacked.traces a ha]
  -- a trigger that fires it refers to it
  intro heq
  refine hfree (any_eq_true.mpr ⟨(name', inst), get?_eq_some_iff.mp hinst, ?_⟩)
  refine Bool.or_eq_true_iff.mpr (.inr (any_eq_true.mpr ⟨(event, ts),
    get?_eq_some_iff.mp hts, any_eq_true.mpr ⟨t, ht, ?_⟩⟩))
  exact any_eq_true.mpr ⟨a, ha, by simpa using heq⟩

theorem Sound.step (h : s.Sound) (w : Write) : (s.step w).Sound := by
  cases w with
  | trigger name event remove parts ok rest => exact h.triggerWrite name event remove parts ok rest
  | triggerTruncate name event =>
    intro name' inst hget
    rw [State.step, State.triggerTruncate, get?_modify] at hget
    split at hget
    · obtain ⟨inst₀, hinst₀, rfl⟩ := Option.map_eq_some_iff.mp hget
      exact (h name inst₀ hinst₀).truncateLoop _
    · exact h name' inst hget
  | synthDefine name fields =>
    rw [State.step, State.synthDefine]
    split
    · exact h
    next hnew =>
    intro name' inst hinst event ts hts t ht
    have hbacked := h name' inst hinst event ts hts t ht
    refine ⟨hbacked.refs, fun a ha => ?_⟩
    rw [get?_insert, if_neg, hbacked.traces a ha]
    exact fun heq => hnew (by rw [← heq, hbacked.traces a ha]; rfl)
  | synthRemove name => exact h.synthRemove name
  | synthTruncate =>
    exact s.synthetic.keys.foldlRecOn State.synthRemove h fun _ h name _ => h.synthRemove name
  | makeInstance name =>
    rw [State.step, State.makeInstance]
    split
    · exact h
    · exact h.insert name fun _ _ hget => by cases hget
  | removeInstance name piped =>
    rw [State.step, State.removeInstance]
    split
    · exact h
    split
    · exact h
    · intro name' inst hget
      rw [get?_erase] at hget
      split at hget
      · cases hget
      · exact h name' inst hget

/-- **References never dangle.** After any writes, truncations, and making and removing of
instances, every variable a trigger reads is defined for the event it names in the same instance,
and every synthetic event it fires exists with as many fields as values are passed. -/
theorem references_hold (ws : List Write) : (ws.foldl step {}).Sound := by
  have hempty : State.Sound { instances := .empty } := fun _ _ hget => by cases hget
  exact ws.foldlRecOn step (hempty.insert "" fun _ _ hget => by cases hget) fun _ h w _ => h.step w

end State

end Snare.Tracefs
