import Snare.Lib.Runs
import Snare.Lib.Update
import Snare.RealFd.Watches

/-!
# A waiting thread is watched

The registry has one entry for a watch, with plain flags, whatever number of threads waits on it.
Their starts and looks only set flags; the end of a wait clears them all, and a look that finds no
descriptor for a child to write clears `outside`.

* **`Inv`**: what every step keeps: the entry of a watch is armed for each of its waits that has
  looked, or the watcher is to wake it; and an armed entry is in the watcher's set or the watcher
  looks at the registry before it sleeps again;
* **`Kept`**: the steps that clear a flag no other wait needs;
* **`waits_watched`**: in every run of such steps the waits are watched.

When the first of two waits on one watch ends, the second sleeps unwatched (`unwatched_sleeper`).
-/

namespace Snare.RealFd

open Function Update

/-! ## The property -/

/-- It is counted into the clock, and not between that and the entry's mark. -/
def Wait.Holds (x : Wait) : Prop := x.holds = true ∧ x.stage ≠ .mark true

instance (x : Wait) : Decidable x.Holds := inferInstanceAs (Decidable (_ ∧ _))

def Wait.Sleeps (x : Wait) : Prop := x.stage = .asleep ∧ x.bumped = false

def Round.Polls (w : Nat) : Round → Prop
  | .poll set => w ∈ set
  | _ => False

/-- The watches whose probes it found readable, and those it is to wake. -/
def Round.hot : Round → List Nat
  | .read hot | .disarm hot => hot
  | _ => []

def Round.woken : Round → List Nat
  | .wake woken => woken
  | _ => []

def State.Poking (s : State) : Prop := ∃ t x, s.waits t = some x ∧ x.stage = .poke

/-- The watcher looks at the registry before it blocks again, and does not disarm `w` before. -/
def State.LooksAgain (s : State) (w : Nat) : Prop :=
  match s.round with
  | .poll _ => s.poked = true ∨ s.Poking
  | _ => w ∉ s.round.hot

def State.Due (s : State) (w : Nat) : Prop :=
  (∃ e, s.entries w = some e ∧ e.armed = true ∧ e.waiting = true) ∧ s.LooksAgain w

/-- The waits are watched: their entries are marked, and where a thread outside a deterministic
schedule sleeps on a readable probe, the watcher has the probe in its set, is due to collect it, or
is to wake the watch's key. -/
structure Watched (s : State) : Prop where
  waiting : ∀ t x, s.waits t = some x → ∃ e, s.entries x.watch = some e ∧ e.waiting = true
  outside : ∀ t x, s.waits t = some x → x.Holds →
    (∃ e, s.entries x.watch = some e ∧ e.outside = true) ∧ s.outside (s.domains x.watch) = true
  asleep : ∀ t x, s.waits t = some x → x.det = false → x.Sleeps → s.readable x.watch = true →
    s.round.Polls x.watch ∨ s.Due x.watch ∨ x.watch ∈ s.round.hot ∨ x.watch ∈ s.round.woken

def State.NoOther (s : State) (t w : Nat) (P : Wait → Prop) : Prop :=
  ∀ u < s.started, u ≠ t → ∀ y ∈ s.waits u, y.watch = w → ¬ P y

instance State.NoOther.decidable (s : State) (t w : Nat) (P : Wait → Prop) [DecidablePred P] :
    Decidable (s.NoOther t w P) :=
  inferInstanceAs (Decidable (∀ _ < _, _))

/-- The wait whose end a step is, and the wait that marks its entry. -/
def Act.clears : Act → Option Nat
  | .clear t => some t
  | _ => none

def Act.marks : Act → Option Nat
  | .mark t => some t
  | _ => none

/-- The steps that leave the other waits of the watch their flags: a wait ends as the only one on
it, and the entry is not marked off while another holds the clock. -/
def Kept (s : State) (a : Act) : Prop :=
  (∀ t ∈ a.clears, ∀ x ∈ s.waits t, x.stage = .ending → s.NoOther t x.watch fun _ => True) ∧
    ∀ t ∈ a.marks, ∀ x ∈ s.waits t, x.stage = .mark false → s.NoOther t x.watch Wait.Holds

instance Kept.decidable (s : State) (a : Act) : Decidable (Kept s a) :=
  inferInstanceAs (Decidable (_ ∧ _))

/-! ## The invariant -/

/-- Past its arm, outside a deterministic schedule, with no bump to end its sleep. -/
def Wait.Listens (x : Wait) : Prop :=
  x.det = false ∧ x.bumped = false ∧ x.stage ≠ .drain ∧ x.stage ≠ .arm ∧ x.stage ≠ .ending

structure Inv (s : State) : Prop where
  made : ∀ w e, s.entries w = some e → w < s.made
  started : ∀ t x, s.waits t = some x → t < s.started
  waiting : ∀ t x, s.waits t = some x →
    ∃ e, s.entries x.watch = some e ∧ e.waiting = true ∧ e.child = false
  marks : ∀ t x o, s.waits t = some x → x.stage = .mark o → x.holds = o
  outside : ∀ t x e, s.waits t = some x → x.Holds → s.entries x.watch = some e → e.outside = true
  armed : ∀ w e, s.entries w = some e → e.armed = true → e.waiting = true
  listens : ∀ t x, s.waits t = some x → x.Listens →
    (∃ e, s.entries x.watch = some e ∧ e.armed = true) ∨ x.watch ∈ s.round.woken
  collects : ∀ w e set, s.entries w = some e → e.armed = true → s.round = .poll set →
    w ∈ set ∨ s.poked = true ∨ s.Poking

theorem Inv.init : Inv {} where
  made _ _ he := nomatch he
  started _ _ hx := nomatch hx
  waiting _ _ hx := nomatch hx
  marks _ _ _ hx := nomatch hx
  outside _ _ _ hx := nomatch hx
  armed _ _ he := nomatch he
  listens _ _ hx := nomatch hx
  collects _ _ _ he := nomatch he

section Steps

variable {s : State} {t w : Nat} {x : Wait}

theorem Inv.setWait (h : Inv s) (hx : s.waits t = some x) (y : Wait)
    (hwatch : y.watch = x.watch) (hmarks : ∀ o, y.stage = .mark o → y.holds = o)
    (hholds : y.Holds → x.Holds) (hlistens : y.Listens → x.Listens)
    (hpoke : x.stage = .poke → s.poked = true) : Inv (s.setWait t y) := by
  -- every wait of the new state stands for one of the old state
  have hold : ∀ u z, (s.setWait t y).waits u = some z → ∃ z₀, s.waits u = some z₀ ∧
      z.watch = z₀.watch ∧ (∀ o, z.stage = .mark o → z.holds = o) ∧ (z.Holds → z₀.Holds) ∧
      (z.Listens → z₀.Listens) := by
    intro u z hz
    rcases of_update_eq hz with ⟨rfl, ⟨⟩⟩ | ⟨-, hz⟩
    · exact ⟨x, hx, hwatch, hmarks, hholds, hlistens⟩
    · exact ⟨z, hz, rfl, fun o => h.marks u z o hz, id, id⟩
  have hpoking : s.Poking → s.poked = true ∨ (s.setWait t y).Poking := by
    rintro ⟨u, z, hz, hstage⟩
    by_cases hu : u = t
    · subst hu
      rw [hx] at hz
      cases hz
      exact .inl (hpoke hstage)
    · exact .inr ⟨u, z, (update_of_ne hu _ _).trans hz, hstage⟩
  refine ⟨h.made, ?_, ?_, ?_, ?_, h.armed, ?_, ?_⟩
  · intro u z hz
    obtain ⟨z₀, hz₀, -⟩ := hold u z hz
    exact h.started u z₀ hz₀
  · intro u z hz
    obtain ⟨z₀, hz₀, hw, -⟩ := hold u z hz
    rw [hw]
    exact h.waiting u z₀ hz₀
  · intro u z o hz
    obtain ⟨z₀, -, -, hm, -⟩ := hold u z hz
    exact hm o
  · intro u z e hz hholds'
    obtain ⟨z₀, hz₀, hw, -, hh, -⟩ := hold u z hz
    rw [hw]
    exact h.outside u z₀ e hz₀ (hh hholds')
  · intro u z hz hl
    obtain ⟨z₀, hz₀, hw, -, -, hl₀⟩ := hold u z hz
    rw [hw]
    exact h.listens u z₀ hz₀ (hl₀ hl)
  · intro w e set he harmed hround
    rcases h.collects w e set he harmed hround with hset | hpoked | hp
    · exact .inl hset
    · exact .inr (.inl hpoked)
    · exact .inr (hpoking hp)

theorem Inv.env (h : Inv s) (readable : Nat → Bool) (bumps : List Wakes) :
    Inv { s with readable, bumps } :=
  { h with }

theorem Inv.poked (h : Inv s) : Inv { s with poked := true } :=
  { h with collects := fun _ _ _ _ _ _ => .inr (.inl rfl) }

/-- Past its arm, and not between the clock and the entry's mark. -/
def Stage.settled : Stage → Bool
  | .settle | .hold _ | .awake | .asleep => true
  | _ => false

theorem Inv.moveOn (h : Inv s) (hx : s.waits t = some x)
    (hsettled : x.stage.settled = true) (y : Wait) (hwatch : y.watch = x.watch)
    (hmarks : ∀ o, y.stage = .mark o → y.holds = o) (hholds : y.Holds → x.holds = true)
    (hlistens : y.Listens → x.det = false ∧ x.bumped = false) : Inv (s.setWait t y) := by
  have hne : ∀ st, st.settled = false → x.stage ≠ st := by
    rintro st hst rfl
    cases hsettled.symm.trans hst
  refine h.setWait hx y hwatch hmarks (fun hh => ⟨hholds hh, hne _ rfl⟩) ?_
    fun hpoke => absurd hpoke (hne _ rfl)
  intro hl
  obtain ⟨hdet, hbumped⟩ := hlistens hl
  exact ⟨hdet, hbumped, hne _ rfl, hne _ rfl, hne _ rfl⟩

/-- The entry of the watch of `x` becomes `f e`, which keeps every flag but `outside` and those `f`
sets, while `x` moves on to `y`. -/
theorem Inv.withEntry (h : Inv s) (hx : s.waits t = some x) (y : Wait)
    (f : Entry → Entry) (hwatch : y.watch = x.watch) (hwaiting : ∀ e, (f e).waiting = e.waiting)
    (hchild : ∀ e, (f e).child = e.child) (harmed : ∀ e, e.armed = true → (f e).armed = true)
    (hmarks : ∀ o, y.stage = .mark o → y.holds = o) (hstage : x.stage ≠ .poke)
    (hholds : y.Holds → ∀ e, s.entries x.watch = some e → (f e).outside = true)
    (hothers : ∀ u z e, u ≠ t → s.waits u = some z → z.watch = x.watch → z.Holds →
      e.outside = true → (f e).outside = true)
    (hlistens : y.Listens → (∃ e, s.entries x.watch = some e ∧ (f e).armed = true) ∨
      x.watch ∈ s.round.woken) (hcollects : ∀ e, s.entries x.watch = some e → (f e).armed = true →
      e.armed = true ∨ y.stage = .poke) : Inv ((s.withEntry x.watch f).setWait t y) := by
  obtain ⟨e, he, hew, hec⟩ := h.waiting t x hx
  have hself : (s.withEntry x.watch f).entries x.watch = some (f e) := by
    simp only [State.withEntry, update_self, he, Option.map_some]
  have hne : ∀ w, w ≠ x.watch → (s.withEntry x.watch f).entries w = s.entries w :=
    fun w hw => update_of_ne hw _ _
  -- an entry of the new registry is that of the watch, or an old one
  have hentry : ∀ w e', (s.withEntry x.watch f).entries w = some e' →
      (w = x.watch ∧ e' = f e) ∨ (w ≠ x.watch ∧ s.entries w = some e') := by
    intro w e' he'
    refine (of_update_eq he').imp_left fun ⟨hw, hf⟩ => ⟨hw, ?_⟩
    rw [he] at hf
    exact (Option.some.inj hf).symm
  have hwait : ∀ u z, ((s.withEntry x.watch f).setWait t y).waits u = some z →
      (u = t ∧ z = y) ∨ (u ≠ t ∧ s.waits u = some z) := by
    intro u z hz
    rcases of_update_eq hz with ⟨rfl, ⟨⟩⟩ | hz
    · exact .inl ⟨rfl, rfl⟩
    · exact .inr hz
  refine ⟨?_, ?_, ?_, ?_, ?_, ?_, ?_, ?_⟩
  · intro w e' he'
    rcases hentry w e' he' with ⟨rfl, -⟩ | ⟨-, he'⟩
    · exact h.made x.watch e he
    · exact h.made w e' he'
  · intro u z hz
    rcases hwait u z hz with ⟨rfl, -⟩ | ⟨-, hz⟩
    · exact h.started u x hx
    · exact h.started u z hz
  · intro u z hz
    by_cases hw : z.watch = x.watch
    · rw [hw]
      exact ⟨f e, hself, (hwaiting e).trans hew, (hchild e).trans hec⟩
    · rcases hwait u z hz with ⟨-, rfl⟩ | ⟨-, hz⟩
      · exact absurd hwatch hw
      · obtain ⟨e', he', hprops⟩ := h.waiting u z hz
        exact ⟨e', (hne _ hw).trans he', hprops⟩
  · intro u z o hz
    rcases hwait u z hz with ⟨-, rfl⟩ | ⟨-, hz⟩
    · exact hmarks o
    · exact h.marks u z o hz
  · intro u z e' hz hh he'
    rcases hwait u z hz with ⟨-, rfl⟩ | ⟨hu, hz⟩
    · rw [hwatch] at he'
      cases hself.symm.trans he'
      exact hholds hh e he
    · rcases hentry _ e' he' with ⟨hw, rfl⟩ | ⟨-, he'⟩
      · exact hothers u z e hu hz hw hh (h.outside u z e hz hh (hw ▸ he))
      · exact h.outside u z e' hz hh he'
  · intro w e' he' ha
    rcases hentry w e' he' with ⟨-, rfl⟩ | ⟨-, he'⟩
    · exact (hwaiting e).trans hew
    · exact h.armed w e' he' ha
  · intro u z hz hl
    rcases hwait u z hz with ⟨-, rfl⟩ | ⟨-, hz⟩
    · rw [hwatch]
      rcases hlistens hl with ⟨e', he', ha⟩ | hw
      · rw [he] at he'
        cases he'
        exact .inl ⟨f e, hself, ha⟩
      · exact .inr hw
    · rcases h.listens u z hz hl with ⟨e', he', ha⟩ | hw
      · by_cases hw : z.watch = x.watch
        · rw [hw] at he' ⊢
          rw [he] at he'
          cases he'
          exact .inl ⟨f e, hself, harmed e ha⟩
        · exact .inl ⟨e', (hne _ hw).trans he', ha⟩
      · exact .inr hw
  · intro w e' set he' ha hround
    -- a wait that is to poke is not `x`, so it is still there
    have hpoking : s.Poking → ((s.withEntry x.watch f).setWait t y).Poking := by
      rintro ⟨u, z, hz, hzs⟩
      have hu : u ≠ t := by
        rintro rfl
        rw [hx] at hz
        cases hz
        exact hstage hzs
      exact ⟨u, z, (update_of_ne hu _ _).trans hz, hzs⟩
    have hold : ∀ e₀, s.entries w = some e₀ → e₀.armed = true →
        w ∈ set ∨ s.poked = true ∨ ((s.withEntry x.watch f).setWait t y).Poking :=
      fun e₀ he₀ ha₀ => (h.collects w e₀ set he₀ ha₀ hround).imp_right (Or.imp_right hpoking)
    rcases hentry w e' he' with ⟨rfl, rfl⟩ | ⟨-, he'⟩
    · rcases hcollects e he ha with ha | hpoke
      · exact hold e he ha
      · exact .inr (.inr ⟨t, y, update_self .., hpoke⟩)
    · exact hold e' he' ha

variable {e : Entry}

section

variable (h : Inv s)
include h

theorem Inv.arm (hx : s.waits t = some x) (hstage : x.stage = .arm)
    (he : s.entries x.watch = some e) :
    Inv ((s.withEntry x.watch fun entry => { entry with armed := true }).setWait t
      { x with stage := if e.armed then .settle else .poke }) := by
  refine h.withEntry hx _ _ rfl (fun _ => rfl) (fun _ => rfl) (fun _ _ => rfl) ?_ ?_ ?_ ?_ ?_ ?_
  · intro o ho
    split at ho <;> cases ho
  · rw [hstage]
    nofun
  · intro hh e' he'
    exact h.outside t x e' hx ⟨hh.1, by rw [hstage]; nofun⟩ he'
  · exact fun _ _ _ _ _ _ _ ho => ho
  · exact fun _ => .inl ⟨e, he, rfl⟩
  · intro e' he' _
    rw [he] at he'
    cases he'
    cases ha : e.armed
    · exact .inr rfl
    · exact .inl rfl

theorem Inv.mark {o : Bool} (hx : s.waits t = some x)
    (hstage : x.stage = .mark o) (hkept : o = false → s.NoOther t x.watch Wait.Holds) :
    Inv ((s.withEntry x.watch fun entry => { entry with outside := o }).setWait t
      { x with stage := .awake }) := by
  refine h.withEntry hx _ _ rfl (fun _ => rfl) (fun _ => rfl) (fun _ ha => ha) nofun ?_ ?_ ?_ ?_ ?_
  · rw [hstage]
    nofun
  · intro hh e he
    exact (h.marks t x o hx hstage).symm.trans hh.1
  · intro u z e hu hz hw hh _
    cases o with
    | true => rfl
    | false => exact absurd hh (hkept rfl u (h.started u z hz) hu z hz hw)
  · intro hl
    exact h.listens t x hx ⟨hl.1, hl.2.1, by rw [hstage]; exact ⟨nofun, nofun, nofun⟩⟩
  · exact fun e _ ha => .inl ha

theorem Inv.clear (hx : s.waits t = some x)
    (hstage : x.stage = .ending) (hkept : s.NoOther t x.watch fun _ => True) :
    Inv { s.withEntry x.watch fun entry =>
        { entry with waiting := false, armed := false, outside := false } with
      waits := update s.waits t none } := by
  set f : Entry → Entry := fun entry =>
    { entry with waiting := false, armed := false, outside := false }
  -- the other waits are on other watches, whose entries are as they were
  have hwait : ∀ u z, update s.waits t none u = some z →
      u ≠ t ∧ s.waits u = some z ∧ z.watch ≠ x.watch := by
    intro u z hz
    rcases of_update_eq hz with ⟨-, ⟨⟩⟩ | ⟨hu, hz⟩
    exact ⟨hu, hz, fun hw => hkept u (h.started u z hz) hu z hz hw trivial⟩
  have hne : ∀ w, w ≠ x.watch → (s.withEntry x.watch f).entries w = s.entries w :=
    fun w hw => update_of_ne hw _ _
  have hentry : ∀ w e, (s.withEntry x.watch f).entries w = some e →
      ∃ e₀, s.entries w = some e₀ ∧ (w = x.watch ∧ e.armed = false ∨ e = e₀) := by
    intro w e he
    rcases of_update_eq he with ⟨rfl, hf⟩ | ⟨-, he⟩
    · obtain ⟨e₀, he₀, rfl⟩ := Option.map_eq_some_iff.mp hf
      exact ⟨e₀, he₀, .inl ⟨rfl, rfl⟩⟩
    · exact ⟨e, he, .inr rfl⟩
  have harmed : ∀ w e, (s.withEntry x.watch f).entries w = some e → e.armed = true →
      s.entries w = some e := by
    intro w e he ha
    obtain ⟨e₀, he₀, ⟨-, hoff⟩ | rfl⟩ := hentry w e he
    · rw [ha] at hoff
      cases hoff
    · exact he₀
  refine ⟨?_, ?_, ?_, ?_, ?_, ?_, ?_, ?_⟩
  · intro w e he
    obtain ⟨e₀, he₀, -⟩ := hentry w e he
    exact h.made w e₀ he₀
  · intro u z hz
    exact h.started u z (hwait u z hz).2.1
  · intro u z hz
    obtain ⟨-, hz, hw⟩ := hwait u z hz
    obtain ⟨e, he, hprops⟩ := h.waiting u z hz
    exact ⟨e, (hne _ hw).trans he, hprops⟩
  · intro u z o hz
    exact h.marks u z o (hwait u z hz).2.1
  · intro u z e hz hh he
    obtain ⟨-, hz, hw⟩ := hwait u z hz
    exact h.outside u z e hz hh ((hne _ hw).symm.trans he)
  · intro w e he ha
    exact h.armed w e (harmed w e he ha) ha
  · intro u z hz hl
    obtain ⟨-, hz, hw⟩ := hwait u z hz
    refine (h.listens u z hz hl).imp_left ?_
    rintro ⟨e, he, ha⟩
    exact ⟨e, (hne _ hw).trans he, ha⟩
  · intro w e set he ha hround
    refine (h.collects w e set (harmed w e he ha) ha hround).imp_right (Or.imp_right ?_)
    rintro ⟨u, z, hz, hzs⟩
    have hu : u ≠ t := by
      rintro rfl
      rw [hx] at hz
      cases hz
      rw [hstage] at hzs
      cases hzs
    exact ⟨u, z, (update_of_ne hu _ _).trans hz, hzs⟩

theorem Inv.registry (s' : State) (hwaits : s'.waits = s.waits)
    (hstarted : s'.started = s.started) (hpoked : s'.poked = s.poked) (hround : s'.round = s.round)
    (hmade : ∀ w e, s'.entries w = some e → w < s'.made)
    (hsame : ∀ t x, s.waits t = some x → s'.entries x.watch = s.entries x.watch)
    (harmed : ∀ w e, s'.entries w = some e → e.armed = true → s.entries w = some e) : Inv s' := by
  have hpoking : s'.Poking ↔ s.Poking := by
    unfold State.Poking
    rw [hwaits]
  refine ⟨hmade, ?_, ?_, ?_, ?_, ?_, ?_, ?_⟩
  · rw [hwaits, hstarted]
    exact h.started
  · intro t x hx
    rw [hwaits] at hx
    rw [hsame t x hx]
    exact h.waiting t x hx
  · rw [hwaits]
    exact h.marks
  · intro t x e hx
    rw [hwaits] at hx
    rw [hsame t x hx]
    exact h.outside t x e hx
  · intro w e he ha
    exact h.armed w e (harmed w e he ha) ha
  · intro t x hx
    rw [hwaits] at hx
    rw [hsame t x hx, hround]
    exact h.listens t x hx
  · intro w e set he ha
    rw [hround, hpoked, hpoking]
    exact h.collects w e set (harmed w e he ha) ha

theorem Inv.push (domain : Nat) {entry : Entry} (hentry : entry.armed = false) :
    Inv (s.push domain entry) := by
  have hne : ∀ w, w ≠ s.made → (s.push domain entry).entries w = s.entries w :=
    fun w hw => update_of_ne hw _ _
  refine h.registry (s.push domain entry) rfl rfl rfl rfl ?_ ?_ ?_
  · intro w e he
    rcases of_update_eq he with ⟨rfl, -⟩ | ⟨-, he⟩
    · exact Nat.lt_succ_self _
    · exact (h.made w e he).trans (Nat.lt_succ_self _)
  · intro t x hx
    obtain ⟨e, he, -⟩ := h.waiting t x hx
    exact hne _ (h.made _ e he).ne
  · intro w e he ha
    rcases of_update_eq he with ⟨-, ⟨⟩⟩ | ⟨-, he⟩
    · cases hentry.symm.trans ha
    · exact he

theorem Inv.dropWatch (w : Nat) : Inv (s.dropWatch w) := by
  unfold State.dropWatch
  split
  · split
    · exact h
    · rename_i hno
      simp only [Bool.or_eq_true, not_or, State.waitsOn, List.any_eq_true, not_exists, not_and,
        Option.any_eq_true, beq_iff_eq, List.mem_range] at hno
      have hentry : ∀ w' e, update s.entries w none w' = some e →
          s.entries w' = some e := by
        intro w' e he
        rcases of_update_eq he with ⟨-, ⟨⟩⟩ | ⟨-, he⟩
        exact he
      refine h.registry _ rfl rfl rfl rfl (fun w' e he => h.made w' e (hentry w' e he)) ?_
        fun w' e he _ => hentry w' e he
      intro t x hx
      exact update_of_ne (fun hw => hno.2 t (h.started t x hx) x hx hw) _ _
  · exact h

theorem Inv.wait (w : Nat) (det : Bool) : Inv (s.wait w det) := by
  unfold State.wait
  split
  · rename_i e he
    split
    · exact h
    · rename_i hchild
      set s' : State := { s.withEntry w fun entry => { entry with waiting := true } with
        waits := update s.waits s.started (some { watch := w, det })
        started := s.started + 1 }
      have hself : s'.entries w = some { e with waiting := true } := by
        simp only [s', State.withEntry, update_self, he, Option.map_some]
      -- every other flag of every entry is as it was
      have hentry : ∀ w' e', s'.entries w' = some e' → ∃ e₀, s.entries w' = some e₀ ∧
          e'.armed = e₀.armed ∧ e'.outside = e₀.outside ∧ e'.child = e₀.child ∧
          (e₀.waiting = true → e'.waiting = true) := by
        intro w' e' he'
        rcases of_update_eq he' with ⟨rfl, -⟩ | ⟨-, he'⟩
        · cases hself.symm.trans he'
          exact ⟨e, he, rfl, rfl, rfl, fun _ => rfl⟩
        · exact ⟨e', he', rfl, rfl, rfl, id⟩
      have hkeep : ∀ w' e₀, s.entries w' = some e₀ → ∃ e', s'.entries w' = some e' ∧
          e'.armed = e₀.armed ∧ e'.child = e₀.child ∧ (e₀.waiting = true → e'.waiting = true) := by
        intro w' e₀ he₀
        by_cases hw : w' = w
        · subst hw
          cases he.symm.trans he₀
          exact ⟨_, hself, rfl, rfl, fun _ => rfl⟩
        · exact ⟨e₀, (update_of_ne hw _ _).trans he₀, rfl, rfl, id⟩
      have hwait : ∀ t x, s'.waits t = some x →
          (t = s.started ∧ x = { watch := w, det }) ∨ s.waits t = some x := by
        intro t x hx
        rcases of_update_eq hx with ⟨rfl, ⟨⟩⟩ | ⟨-, hx⟩
        · exact .inl ⟨rfl, rfl⟩
        · exact .inr hx
      refine ⟨?_, ?_, ?_, ?_, ?_, ?_, ?_, ?_⟩
      · intro w' e' he'
        obtain ⟨e₀, he₀, -⟩ := hentry w' e' he'
        exact h.made w' e₀ he₀
      · intro t x hx
        rcases hwait t x hx with ⟨rfl, -⟩ | hx
        · exact Nat.lt_succ_self _
        · exact (h.started t x hx).trans (Nat.lt_succ_self _)
      · intro t x hx
        rcases hwait t x hx with ⟨-, rfl⟩ | hx
        · exact ⟨_, hself, rfl, Bool.eq_false_iff.mpr hchild⟩
        · obtain ⟨e₀, he₀, hw₀, hc₀⟩ := h.waiting t x hx
          obtain ⟨e', he', -, hc, hw⟩ := hkeep _ e₀ he₀
          exact ⟨e', he', hw hw₀, hc.trans hc₀⟩
      · intro t x o hx hstage
        rcases hwait t x hx with ⟨-, rfl⟩ | hx
        · cases hstage
        · exact h.marks t x o hx hstage
      · intro t x e' hx hh he'
        rcases hwait t x hx with ⟨-, rfl⟩ | hx
        · cases hh.1
        · obtain ⟨e₀, he₀, -, ho, -⟩ := hentry _ e' he'
          exact ho.trans (h.outside t x e₀ hx hh he₀)
      · intro w' e' he' ha
        obtain ⟨e₀, he₀, ha₀, -, -, hw⟩ := hentry w' e' he'
        exact hw (h.armed w' e₀ he₀ (ha₀.symm.trans ha))
      · intro t x hx hl
        rcases hwait t x hx with ⟨-, rfl⟩ | hx
        · exact absurd rfl hl.2.2.2.1
        · refine (h.listens t x hx hl).imp_left ?_
          rintro ⟨e₀, he₀, ha₀⟩
          obtain ⟨e', he', ha, -⟩ := hkeep _ e₀ he₀
          exact ⟨e', he', ha.trans ha₀⟩
      · intro w' e' set he' ha hround
        obtain ⟨e₀, he₀, ha₀, -⟩ := hentry w' e' he'
        refine (h.collects w' e₀ set he₀ (ha₀.symm.trans ha) hround).imp_right (Or.imp_right ?_)
        rintro ⟨t, x, hx, hstage⟩
        exact ⟨t, x, (update_of_ne (h.started t x hx).ne _ _).trans hx, hstage⟩
  · exact h

end

theorem bumpKeys_eq_some {keys : List Nat} {reached : Wait → Bool}
    (hx : (s.bumpKeys keys reached).waits t = some x) : ∃ x₀, s.waits t = some x₀ ∧
      (x = { x₀ with bumped := true } ∨ x = x₀ ∧ (x₀.watch ∈ keys → reached x₀ = false)) := by
  simp only [State.bumpKeys, Option.map_eq_some_iff] at hx
  obtain ⟨x₀, hx₀, rfl⟩ := hx
  refine ⟨x₀, hx₀, ?_⟩
  split
  · exact .inl rfl
  · rename_i hno
    refine .inr ⟨rfl, fun hw => ?_⟩
    simpa only [hw, decide_true, Bool.true_and, Bool.not_eq_true] using hno

theorem Inv.bumpKeys (h : Inv s) (keys : List Nat) (reached : Wait → Bool) :
    Inv (s.bumpKeys keys reached) := by
  have hwait : ∀ t x, (s.bumpKeys keys reached).waits t = some x → ∃ x₀, s.waits t = some x₀ ∧
      x.watch = x₀.watch ∧ x.stage = x₀.stage ∧ x.holds = x₀.holds ∧ (x.Listens → x₀.Listens) := by
    intro t x hx
    obtain ⟨x₀, hx₀, rfl | ⟨rfl, -⟩⟩ := bumpKeys_eq_some hx
    · exact ⟨x₀, hx₀, rfl, rfl, rfl, fun hl => nomatch hl.2.1⟩
    · exact ⟨x, hx₀, rfl, rfl, rfl, id⟩
  refine ⟨h.made, ?_, ?_, ?_, ?_, h.armed, ?_, ?_⟩
  · intro t x hx
    obtain ⟨x₀, hx₀, -⟩ := hwait t x hx
    exact h.started t x₀ hx₀
  · intro t x hx
    obtain ⟨x₀, hx₀, hw, -⟩ := hwait t x hx
    rw [hw]
    exact h.waiting t x₀ hx₀
  · intro t x o hx hstage
    obtain ⟨x₀, hx₀, -, hs, hh, -⟩ := hwait t x hx
    rw [hh]
    exact h.marks t x₀ o hx₀ (hs.symm.trans hstage)
  · intro t x e hx hholds
    obtain ⟨x₀, hx₀, hw, hs, hh, -⟩ := hwait t x hx
    rw [hw]
    exact h.outside t x₀ e hx₀ ⟨hh.symm.trans hholds.1, hs ▸ hholds.2⟩
  · intro t x hx hl
    obtain ⟨x₀, hx₀, hw, -, -, hl₀⟩ := hwait t x hx
    rw [hw]
    exact h.listens t x₀ hx₀ (hl₀ hl)
  · intro w e set he ha hround
    refine (h.collects w e set he ha hround).imp_right (Or.imp_right ?_)
    rintro ⟨t, x, hx, hstage⟩
    refine ⟨t, _, congrArg (Option.map _) hx, ?_⟩
    dsimp only
    split <;> exact hstage

theorem Inv.round (h : Inv s) (round : Round) (poked : Bool)
    (hwoken : ∀ w ∈ s.round.woken, w ∈ round.woken)
    (hset : ∀ w e set, s.entries w = some e → e.armed = true → round = .poll set → w ∈ set) :
    Inv { s with round, poked } where
  __ := h
  listens t x hx hl := (h.listens t x hx hl).imp_right (hwoken x.watch)
  collects w e set he ha hround := .inl (hset w e set he ha hround)

theorem mem_collect (h : Inv s) (he : s.entries w = some e)
    (ha : e.armed = true) : w ∈ s.collect := by
  simp only [State.collect, List.mem_filter, List.mem_range, he, Option.any_some, ha,
    h.armed w e he ha, Bool.and_self, Bool.or_true, and_true]
  exact h.made w e he

variable {hot : List Nat}

theorem disarmed_eq_some (he : s.disarmed hot w = some e) :
    ∃ e₀, s.entries w = some e₀ ∧ e.waiting = e₀.waiting ∧ e.outside = e₀.outside ∧
      (e.armed = true → e₀.armed = true) := by
  unfold State.disarmed at he
  split at he
  · split at he
    · rename_i e₀ he₀
      split at he
      · cases he
      · cases he
        exact ⟨e₀, he₀, rfl, rfl, nofun⟩
    · cases he
  · exact ⟨e, he, rfl, rfl, id⟩

theorem disarmed_of_watch (he : s.entries w = some e) (hchild : e.child = false) :
    s.disarmed hot w = some (if w ∈ hot then { e with armed := false } else e) := by
  unfold State.disarmed
  split
  · simp only [he, hchild, Bool.false_eq_true, ↓reduceIte]
  · exact he

theorem Inv.disarm (h : Inv s) (hround : s.round = .disarm hot) :
    Inv { s with
      entries := s.disarmed hot
      round := .wake (hot.filter fun w => (s.entries w).any fun e => !e.child) } := by
  refine ⟨?_, h.started, ?_, h.marks, ?_, ?_, ?_, nofun⟩
  · intro w e he
    obtain ⟨e₀, he₀, -⟩ := disarmed_eq_some he
    exact h.made w e₀ he₀
  · intro t x hx
    obtain ⟨e, he, hw, hc⟩ := h.waiting t x hx
    refine ⟨_, disarmed_of_watch he hc, ?_⟩
    split
    · exact ⟨hw, hc⟩
    · exact ⟨hw, hc⟩
  · intro t x e hx hh he
    obtain ⟨e₀, he₀, -, ho, -⟩ := disarmed_eq_some he
    exact ho.trans (h.outside t x e₀ hx hh he₀)
  · intro w e he ha
    obtain ⟨e₀, he₀, hw, -, ha₀⟩ := disarmed_eq_some he
    exact hw.trans (h.armed w e₀ he₀ (ha₀ ha))
  · intro t x hx hl
    obtain ⟨e, he, -, hc⟩ := h.waiting t x hx
    by_cases hhot : x.watch ∈ hot
    · refine .inr (List.mem_filter.mpr ⟨hhot, ?_⟩)
      rw [he, Option.any_some, hc]
      rfl
    · rcases h.listens t x hx hl with ⟨e', he', ha⟩ | hw
      · exact .inl ⟨e', (if_neg hhot).trans he', ha⟩
      · rw [hround] at hw
        cases hw

theorem Inv.wake (h : Inv s) {woken : List Nat} (hround : s.round = .wake (w :: woken)) :
    Inv { s.bumpKeys [w] fun x => !x.det with round := .wake woken } := by
  have hbumped := h.bumpKeys [w] fun x => !x.det
  refine { hbumped with listens := ?_, collects := nofun }
  intro t x hx hl
  refine (hbumped.listens t x hx hl).imp_right fun hw => ?_
  -- the waits on `w` have just been bumped
  have hne : x.watch ≠ w := by
    intro hxw
    obtain ⟨x₀, -, rfl | ⟨rfl, hmiss⟩⟩ := bumpKeys_eq_some hx
    · cases hl.2.1
    · have := hmiss (List.mem_singleton.mpr hxw)
      rw [hl.1] at this
      cases this
  change x.watch ∈ s.round.woken at hw
  rw [hround] at hw
  exact (List.mem_cons.mp hw).resolve_left hne

end Steps

/-! ## Runs -/

variable {s : State}

theorem Inv.access (h : Inv s) {a : Act} {t : Nat} (ha : a.waiter = some t) {x : Wait}
    (hx : s.waits t = some x) (hkept : Kept s a) : Inv (s.access t x a) := by
  cases a <;> cases ha <;> simp only [State.access]
  case arm =>
    split
    · rename_i hstage
      split
      · rename_i hdet
        refine h.setWait hx _ rfl nofun (fun hh => ⟨hh.1, by rw [hstage]; nofun⟩) ?_
          (fun hp => by rw [hstage] at hp; cases hp)
        intro hl
        cases hdet.symm.trans hl.1
      · split
        · exact h.arm hx hstage ‹_›
        · rename_i hnone
          obtain ⟨e, he, -⟩ := h.waiting t x hx
          cases hnone.symm.trans he
    · exact h
  case poke =>
    split
    · rename_i hstage
      refine h.poked.setWait hx _ rfl nofun (fun hh => ⟨hh.1, by rw [hstage]; nofun⟩) ?_
        fun _ => rfl
      exact fun hl => ⟨hl.1, hl.2.1, by rw [hstage]; exact ⟨nofun, nofun, nofun⟩⟩
    · exact h
  case settle outside =>
    split
    · rename_i hstage
      refine h.moveOn hx (by rw [hstage]; rfl) _ rfl ?_ And.left fun hl => ⟨hl.1, hl.2.1⟩
      intro o ho
      split at ho <;> cases ho
    · exact h
  case hold =>
    split
    · rename_i outside hstage
      refine h.moveOn hx (by rw [hstage]; rfl) _ rfl ?_ ?_ fun hl => ⟨hl.1, hl.2.1⟩
      · intro o ho
        cases ho
        rfl
      · intro hh
        exact absurd (congrArg Stage.mark hh.1) hh.2
    · exact h
  case mark =>
    split
    · rename_i outside hstage
      refine h.mark hx hstage fun ho => ?_
      subst ho
      exact hkept.2 t rfl x hx hstage
    · exact h
  case look =>
    split
    · rename_i hstage
      exact h.moveOn hx (by rw [hstage]; rfl) _ rfl nofun And.left fun hl => absurd rfl hl.2.2.1
    · exact h
  case drain =>
    split
    · rename_i hstage
      refine (h.env (update s.readable x.watch false) s.bumps).setWait hx _ rfl nofun
        (fun hh => ⟨hh.1, by rw [hstage]; nofun⟩)
        (fun hl => absurd rfl hl.2.2.2.1) (fun hp => by rw [hstage] at hp; cases hp)
    · exact h
  case sleep =>
    split
    · rename_i hcond
      simp only [Bool.and_eq_true, decide_eq_true_eq] at hcond
      exact h.moveOn hx (by rw [hcond.1.1]; rfl) _ rfl nofun And.left fun hl => ⟨hl.1, hl.2.1⟩
    · exact h
  case rouse =>
    split
    · rename_i hstage
      exact h.moveOn hx (by rw [hstage]; rfl) _ rfl nofun And.left fun hl => ⟨hl.1, hl.2.1⟩
    · exact h
  case letGo =>
    split
    · rename_i hstage
      exact h.moveOn hx (by rw [hstage]; rfl) _ rfl nofun (fun hh => nomatch hh.1)
        fun hl => absurd rfl hl.2.2.2.2
    · exact h
  case clear =>
    split
    · rename_i hstage
      exact h.clear hx hstage (hkept.1 t rfl x hx hstage)
    · exact h

theorem Inv.watcher (h : Inv s) (a : Act) : Inv (s.watcher a) := by
  cases a <;> simp only [State.watcher]
  case collect =>
    split
    · rename_i hround
      refine h.round _ s.poked (by rw [hround]; nofun) fun w e set he ha hset => ?_
      cases hset
      exact mem_collect h he ha
    · exact h
  case poll =>
    split
    · rename_i hround
      split
      · exact h.round _ s.poked (by rw [hround]; nofun) nofun
      · exact h
    · exact h
  case read =>
    split
    · rename_i hround
      exact h.round _ false (by rw [hround]; nofun) nofun
    · exact h
  case disarm =>
    split
    · exact h.disarm ‹_›
    · exact h
  case wake =>
    split
    · exact h.wake ‹_›
    · rename_i hround
      exact h.round _ s.poked (by rw [hround]; nofun) nofun
    · exact h
  all_goals exact h

theorem Inv.other (h : Inv s) (a : Act) : Inv (s.other a) := by
  cases a <;> simp only [State.other]
  case new domain => exact h.push domain rfl
  case watchChild domain => exact h.push domain rfl
  case dropWatch w => exact h.dropWatch w
  case change => exact h.env _ s.bumps
  case scan => exact h.env _ s.bumps
  case wait w det => exact h.wait w det
  case settling => exact h.env s.readable _
  case recheck => exact h.env s.readable _
  case realReady => exact h.bumpKeys _ _
  case bump wakes =>
    split
    · exact (h.bumpKeys wakes.keys _).env _ _
    · exact h
  case pokeWatcher => exact h.poked
  all_goals exact h

theorem Inv.step (h : Inv s) {a : Act} (hkept : Kept s a) : Inv (s.step a) := by
  unfold State.step
  split
  · split
    · exact h.access ‹_› ‹_› hkept
    · exact h
  · split
    · exact h.watcher a
    · exact h.other a

theorem Inv.watched (h : Inv s) : Watched s where
  waiting t x hx := by
    obtain ⟨e, he, hw, -⟩ := h.waiting t x hx
    exact ⟨e, he, hw⟩
  outside t x hx hh := by
    obtain ⟨e, he, hw, -⟩ := h.waiting t x hx
    have ho := h.outside t x e hx hh he
    refine ⟨⟨e, he, ho⟩, ?_⟩
    have hmem : x.watch ∈ s.select (s.domains x.watch) fun e _ => e.waiting && e.outside := by
      simp only [State.select, List.mem_filter, List.mem_range, he, Option.any_some, hw, ho,
        beq_self_eq_true, Bool.and_self, and_true]
      exact h.made _ e he
    simp only [State.outside, Bool.not_eq_true', List.isEmpty_eq_false_iff]
    exact List.ne_nil_of_mem hmem
  asleep t x hx hdet hsleeps _ := by
    have hl : x.Listens := ⟨hdet, hsleeps.2, by rw [hsleeps.1]; exact ⟨nofun, nofun, nofun⟩⟩
    rcases h.listens t x hx hl with ⟨e, he, ha⟩ | hw
    · by_cases hhot : x.watch ∈ s.round.hot
      · exact .inr (.inr (.inl hhot))
      have hdue : s.LooksAgain x.watch → s.Due x.watch := fun hlooks =>
        ⟨⟨e, he, ha, h.armed _ e he ha⟩, hlooks⟩
      unfold State.LooksAgain at hdue
      split at hdue
      · rename_i set hround
        rcases h.collects _ e set he ha hround with hset | hagain
        · refine .inl ?_
          rw [hround]
          exact hset
        · exact .inr (.inl (hdue hagain))
      · exact .inr (.inl (hdue hhot))
    · exact .inr (.inr (.inr hw))

/-- **A waiting thread is watched** in every run whose steps are all `Kept`, for any number of waits
on any watches. -/
theorem waits_watched (as : List Act) (h : Runs.Along State.step Kept {} as) :
    Runs.Always State.step Watched {} as := by
  have hstep : ∀ s a, Inv s → Kept s a → Inv (s.step a) := fun s a hs hkept => hs.step hkept
  exact (Runs.always_of_along hstep Inv.init h).imp fun s hs => hs.watched

/-- Two waits on one watch sleep; the watcher, poked by the first, collects the probe, and its
change wakes both. On another watch a wait that holds the clock for a child process comes and goes.
-/
theorem waits_watched_run :
    let as := [.new 0, .collect, .wait 0 false, .arm 0, .poke 0, .settle 0 false, .look 0, .drain 0,
      .arm 0, .settle 0 false, .sleep 0, .wait 0 false, .arm 1, .settle 1 false, .look 1, .drain 1,
      .arm 1, .settle 1 false, .sleep 1, .poll false, .read, .disarm, .wake, .collect, .change 0,
      .new 0, .wait 1 false, .arm 2, .poke 2, .settle 2 true, .hold 2, .mark 2, .poll false, .read,
      .disarm, .wake, .rouse 0, .look 0, .drain 0, .arm 0, .letGo 2, .clear 2]
    Runs.Along State.step Kept {} as ∧ Runs.Always State.step Watched {} as ∧
      ((as.foldl State.step {}).waits 1).map Wait.bumped = some true := by
  intro as
  have hkept : Runs.Along State.step Kept {} as := by decide +kernel
  exact ⟨hkept, waits_watched as hkept, by decide +kernel⟩

/-- Two waits on one watch: the first sleeps, the second looks and ends. Its end clears the flags of
both, so the watcher blocks on an empty set, and the change of the probe wakes nobody. -/
theorem unwatched_sleeper :
    let s := [.new 0, .wait 0 false, .arm 0, .poke 0, .settle 0 false, .look 0, .drain 0, .arm 0,
      .settle 0 false, .sleep 0, .wait 0 false, .arm 1, .settle 1 false, .look 1, .drain 1, .arm 1,
      .settle 1 false, .letGo 1, .clear 1, .collect, .poll false, .read, .disarm, .wake, .collect,
      .change 0].foldl State.step {}
    s.waits 0 = some { watch := 0, det := false, stage := .asleep, checked := true } ∧
      s.readable 0 = true ∧ s.entries 0 = some {} ∧ s.round = .poll [] ∧ s.poked = false ∧
      ¬ Watched s := by
  intro s
  have hwait : s.waits 0 =
      some { watch := 0, det := false, stage := .asleep, checked := true } := by
    decide +kernel
  have hentry : s.entries 0 = some {} := by decide +kernel
  refine ⟨hwait, by decide +kernel, hentry, by decide +kernel, by decide +kernel, fun h => ?_⟩
  obtain ⟨e, he, hwaiting⟩ := h.waiting 0 _ hwait
  cases hentry.symm.trans he
  cases hwaiting

end Snare.RealFd
