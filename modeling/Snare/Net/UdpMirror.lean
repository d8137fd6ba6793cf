import Snare.Lib.Runs
import Snare.Lib.Update
import Snare.Net.UdpRegistry

/-!
# The delivery map mirrors the datagram sockets

A call that changes a socket's address changes the map in one section and the socket in another; in
between it stands `half` way. What the invariant says of a socket is in two cases:

* **`settled`**: no call is half way with it: the map has it at its address and nowhere else;
* **`halfway`**: one call is: what the map has then, `Half.Holds`.

Every section is about one socket, so one lemma carries the invariant over all of them
(`Inv.change`). **`delivery_map_mirrors`** is about the runs in which a call that is to change a
socket finds it as it read it, with no other call half way (`Kept`): two first sends of one socket
both bind it (`bound_twice`).
-/

namespace Snare.Udp

open Function Update Net Directory

/-! ## Calls half way -/

/-- What a call half way has done to socket `id`. -/
inductive Half where
  /-- The map has it at `dst`, and the socket at `fd` is to be told. -/
  | settling (fd id : Nat) (dst : SocketAddr)
  /-- The socket is unbound or closed, and the map has it at `bound` still. -/
  | withdrawing (id : Nat) (bound : SocketAddr)

def Half.id : Half → Nat
  | .settling _ id _ | .withdrawing id _ => id

def Place.half : Place → Option Half
  | .settling fd id dst _ => some (.settling fd id dst)
  | .releasing _ id bound _ | .withdrawing _ id bound _ => some (.withdrawing id bound)
  | _ => none

def Place.mid (p : Place) : Option Nat := p.half.map Half.id

def Half.Holds (s : State) : Half → Prop
  | .settling fd id dst => s.descriptors fd = some id ∧ keysOf s.udp id = [dst]
  | .withdrawing id bound => s.addrOf id = none ∧ keysOf s.udp id = [bound]

def State.Free (s : State) (id : Nat) : Prop := ∀ t < s.threads, (s.calls t).mid ≠ some id

instance (s : State) (id : Nat) : Decidable (s.Free id) :=
  inferInstanceAs (Decidable (∀ _ < _, _))

theorem State.addrOf_eq_join (s : State) (id : Nat) :
    s.addrOf id = ((s.socks id).map Sock.addr).join := by
  unfold State.addrOf
  cases s.socks id <;> rfl

/-! ## The invariant -/

structure Inv (s : State) : Prop where
  /-- A descriptor names an open socket, and a socket has one descriptor. -/
  named : ∀ fd id, s.descriptors fd = some id → (s.socks id).isSome
  once : ∀ fd fd' id, s.descriptors fd = some id → s.descriptors fd' = some id → fd = fd'
  fresh : ∀ id, s.nextId ≤ id → s.socks id = none ∧ keysOf s.udp id = []
  settled : ∀ id, s.Free id → keysOf s.udp id = (s.addrOf id).toList
  halfway : ∀ t < s.threads, ∀ h ∈ (s.calls t).half, h.Holds s
  alone : ∀ t < s.threads, ∀ t' < s.threads, ∀ id,
    (s.calls t).mid = some id → (s.calls t').mid = some id → t = t'

variable {s : State}

theorem Half.Holds.keys_ne_nil {h : Half} (hs : h.Holds s) : keysOf s.udp h.id ≠ [] := by
  cases h with
  | settling fd id dst => exact hs.2 ▸ List.cons_ne_nil _ _
  | withdrawing id bound => exact hs.2 ▸ List.cons_ne_nil _ _

theorem Half.Holds.of_same {s' : State} {h : Half} (hs : h.Holds s)
    (hdescriptors : ∀ fd, s.descriptors fd = some h.id → s'.descriptors fd = some h.id)
    (haddr : s'.addrOf h.id = s.addrOf h.id) (hkeys : keysOf s'.udp h.id = keysOf s.udp h.id) :
    h.Holds s' := by
  cases h with
  | settling fd id dst => exact ⟨hdescriptors fd hs.1, hkeys.trans hs.2⟩
  | withdrawing id bound => exact ⟨haddr.trans hs.1, hkeys.trans hs.2⟩

section Step

variable {s s' : State} {t : Nat}

def State.FreeBut (s : State) (t id : Nat) : Prop :=
  ∀ j < s.threads, j ≠ t → (s.calls j).mid ≠ some id

theorem State.Free.but {id : Nat} (h : s.Free id) (t : Nat) : s.FreeBut t id := fun j hj _ => h j hj

/-- **A section about one socket.** The invariant after thread `t` has moved to `q` and changed
socket `id`, with no other call half way with it. -/
theorem Inv.change (h : Inv s) (id : Nat) (q : Place) (ht : t < s.threads)
    (hthreads : s'.threads = s.threads)
    (hcalls : s'.calls = update s.calls t q) (hfree : s.FreeBut t id)
    (hmid : ∀ i ∈ (s.calls t).mid, i = id) (hmid' : ∀ i ∈ q.mid, i = id)
    (hnamed : ∀ fd i, s'.descriptors fd = some i → (s'.socks i).isSome)
    (honce : ∀ fd fd' i, s'.descriptors fd = some i → s'.descriptors fd' = some i → fd = fd')
    (hfresh : ∀ i, s'.nextId ≤ i → s'.socks i = none ∧ keysOf s'.udp i = [])
    (hdescriptors : ∀ fd i, i ≠ id → s.descriptors fd = some i → s'.descriptors fd = some i)
    (haddr : ∀ i, i ≠ id → s'.addrOf i = s.addrOf i)
    (hkeys : ∀ i, i ≠ id → keysOf s'.udp i = keysOf s.udp i)
    (hsettled : q.half = none → keysOf s'.udp id = (s'.addrOf id).toList)
    (hhalf : ∀ half ∈ q.half, half.Holds s') : Inv s' := by
  have hother : ∀ j, j ≠ t → s'.calls j = s.calls j := fun j hj => by
    rw [hcalls, update_of_ne hj]
  have hself : s'.calls t = q := by rw [hcalls, update_self]
  refine ⟨hnamed, honce, hfresh, fun i hi => ?_, fun j hj half hjhalf => ?_, ?_⟩
  · by_cases hid : i = id
    · subst hid
      refine hsettled ?_
      -- the thread is not half way after the section: what it would be half way with is `i`
      cases hq : q.half with
      | none => rfl
      | some half =>
        have hqmid : q.mid = some half.id := by rw [Place.mid, hq]; rfl
        have hhid := hmid' half.id hqmid
        have := hi t (hthreads ▸ ht)
        rw [hself, hqmid, hhid] at this
        exact absurd rfl this
    · rw [hkeys i hid, haddr i hid]
      refine h.settled i fun j hj hjmid => ?_
      by_cases hjt : j = t
      · subst hjt
        exact hid (hmid i hjmid)
      · exact hi j (hthreads ▸ hj) (by rw [hother j hjt]; exact hjmid)
  · by_cases hjt : j = t
    · subst hjt
      rw [hself] at hjhalf
      exact hhalf half hjhalf
    · rw [hother j hjt] at hjhalf
      rw [hthreads] at hj
      have hne : half.id ≠ id := by
        intro hid
        refine hfree j hj hjt ?_
        rw [Place.mid, hjhalf, ← hid]
        rfl
      exact (h.halfway j hj half hjhalf).of_same (fun fd hfd => hdescriptors fd _ hne hfd)
        (haddr _ hne) (hkeys _ hne)
  · intro j hj j' hj' i hi hi'
    rw [hthreads] at hj hj'
    by_cases hjt : j = t <;> by_cases hjt' : j' = t
    · rw [hjt, hjt']
    · subst hjt
      rw [hself] at hi
      rw [hother j' hjt'] at hi'
      rw [hmid' i hi] at hi'
      exact absurd hi' (hfree j' hj' hjt')
    · subst hjt'
      rw [hself] at hi'
      rw [hother j hjt] at hi
      rw [hmid' i hi'] at hi
      exact absurd hi (hfree j hj hjt)
    · rw [hother j hjt] at hi
      rw [hother j' hjt'] at hi'
      exact h.alone j hj j' hj' i hi hi'

theorem Inv.same (h : Inv s) (hthreads : s'.threads = s.threads)
    (hcalls : ∀ j, (s'.calls j).half = (s.calls j).half)
    (hdescriptors : s'.descriptors = s.descriptors)
    (hsocks : ∀ i, (s'.socks i).map Sock.addr = (s.socks i).map Sock.addr)
    (hnextId : s'.nextId = s.nextId) (hudp : s'.udp = s.udp) : Inv s' := by
  have haddr : ∀ i, s'.addrOf i = s.addrOf i := fun i => by
    rw [State.addrOf_eq_join, State.addrOf_eq_join, hsocks]
  have hmid : ∀ j, (s'.calls j).mid = (s.calls j).mid := fun j => by
    rw [Place.mid, Place.mid, hcalls]
  refine ⟨fun fd i hi => ?_, hdescriptors ▸ h.once, fun i hi => ?_, fun i hi => ?_,
    fun j hj half hhalf => ?_, fun j hj j' hj' i hi hi' => ?_⟩
  · rw [hdescriptors] at hi
    have := h.named fd i hi
    have hi := congrArg Option.isSome (hsocks i)
    rw [Option.isSome_map, Option.isSome_map] at hi
    rw [hi]
    exact this
  · rw [hnextId] at hi
    obtain ⟨hnone, hkeys⟩ := h.fresh i hi
    refine ⟨?_, by rw [hudp]; exact hkeys⟩
    have hi := hsocks i
    rw [hnone] at hi
    exact Option.map_eq_none_iff.mp hi
  · rw [hudp, haddr]
    refine h.settled i fun j hj hjmid => hi j (hthreads ▸ hj) ?_
    rw [hmid]
    exact hjmid
  · rw [hcalls] at hhalf
    exact (h.halfway j (hthreads ▸ hj) half hhalf).of_same
      (fun fd hfd => by rw [hdescriptors]; exact hfd) (haddr _) (by rw [hudp])
  · rw [hmid] at hi hi'
    exact h.alone j (hthreads ▸ hj) j' (hthreads ▸ hj') i hi hi'

theorem Inv.write (h : Inv s) (q : Place) (sock' : Sock) {id : Nat} {sock : Sock}
    (ht : t < s.threads) (hsock : s.socks id = some sock) (hthreads : s'.threads = s.threads)
    (hcalls : s'.calls = update s.calls t q)
    (hdescriptors : s'.descriptors = s.descriptors) (hnextId : s'.nextId = s.nextId)
    (hsocks : s'.socks = update s.socks id (some sock'))
    (hfree : s.FreeBut t id) (hmid : ∀ i ∈ (s.calls t).mid, i = id) (hmid' : ∀ i ∈ q.mid, i = id)
    (hkeys : ∀ i, i ≠ id → keysOf s'.udp i = keysOf s.udp i)
    (hsettled : q.half = none → keysOf s'.udp id = sock'.addr.toList)
    (hhalf : ∀ half ∈ q.half, half.Holds s') : Inv s' := by
  have hsocks_ne : ∀ i, i ≠ id → s'.socks i = s.socks i := fun i hi => by
    rw [hsocks, update_of_ne hi]
  have hsocks_id : s'.socks id = some sock' := by rw [hsocks, update_self]
  refine h.change id q ht hthreads hcalls hfree hmid hmid' (fun fd i hi => ?_)
    (hdescriptors ▸ h.once)
    (fun i hi => ?_) (fun fd i _ hi => by rw [hdescriptors]; exact hi)
    (fun i hi => by rw [State.addrOf, State.addrOf, hsocks_ne i hi]) hkeys (fun hq => ?_) hhalf
  · by_cases hid : i = id
    · rw [hid, hsocks_id]
      rfl
    · rw [hsocks_ne i hid]
      exact h.named fd i (hdescriptors ▸ hi)
  · have hold := h.fresh i (hnextId ▸ hi)
    -- the socket written is an old one
    have hid : i ≠ id := by
      rintro rfl
      rw [hsock] at hold
      cases hold.1
    rw [hsocks_ne i hid, hkeys i hid]
    exact hold
  · rw [hsettled hq, State.addrOf, hsocks_id]
    rfl

theorem Inv.goto (h : Inv s) {q : Place} (hq : q.half = (s.calls t).half) : Inv (s.goto t q) := by
  refine h.same rfl (fun j => ?_) rfl (fun _ => rfl) rfl rfl
  change (update s.calls t q j).half = _
  by_cases hj : j = t
  · subst hj
    rw [update_self, hq]
  · rw [update_of_ne hj]

end Step

/-! ## The sections -/

theorem State.sock_eq_some {fd id : Nat} {sock : Sock} :
    s.sock fd = some (id, sock) ↔ s.descriptors fd = some id ∧ s.socks id = some sock := by
  simp [State.sock, Option.bind_eq_some_iff]

/-- The socket and address a call is to bind or to move, as it read them. -/
def Place.binds : Place → Option (Nat × Nat)
  | .binding fd id _ _ => some (fd, id)
  | _ => none

def Place.moves : Place → Option (Nat × Nat × SocketAddr)
  | .rehashing fd id src _ _ => some (fd, id, src)
  | _ => none

def Place.dissolves : Place → Option Nat
  | .dissolving fd _ => some fd
  | _ => none

/-- The steps that keep the map in line: a section that is to change a socket's address finds the
socket at its descriptor with the address read, and no other call half way with it. -/
def Kept (s : State) : Act → Prop
  | .bind _ fd _ _ => ∀ id ∈ s.descriptors fd, s.addrOf id = none → s.Free id
  | .register t => ∀ b ∈ (s.calls t).binds,
      s.descriptors b.1 = some b.2 ∧ s.addrOf b.2 = none ∧ s.Free b.2
  | .rehash t => ∀ b ∈ (s.calls t).moves,
      s.descriptors b.1 = some b.2.1 ∧ s.addrOf b.2.1 = some b.2.2 ∧ s.Free b.2.1
  | .dissolve t => ∀ fd ∈ (s.calls t).dissolves, ∀ id ∈ s.descriptors fd, s.Free id
  | .close _ fd => ∀ id ∈ s.descriptors fd, s.Free id
  | _ => True

instance Kept.decidable (s : State) : ∀ a, Decidable (Kept s a)
  | .bind .. | .register _ | .rehash _ | .dissolve _ | .close .. =>
    inferInstanceAs (Decidable (∀ _ ∈ _, _))
  | .socket _ _ _ _ | .send _ _ _ | .sendOn _ _ _ | .connect _ _ _ | .look _ | .connectOn _ _
  | .disconnect _ _ | .settle _ | .setPeer _ | .storePort _ | .withdraw _ => .isTrue trivial

section Sections

variable {s : State} {t : Nat}

def After.place (fd : Nat) : After → Place
  | .done => .idle
  | .peer server => .peering fd server
  | .again server => .connect fd server

theorem State.finish_eq (s : State) (t fd : Nat) (after : After) :
    s.finish t fd after = s.goto t (after.place fd) := by
  cases after <;> rfl

theorem After.half_place (after : After) (fd : Nat) : (after.place fd).half = none := by
  cases after <;> rfl

theorem After.mid_place (after : After) (fd : Nat) : (after.place fd).mid = none := by
  cases after <;> rfl

theorem Inv.finish (h : Inv s) (hhalf : (s.calls t).half = none) (fd : Nat) (after : After) :
    Inv (s.finish t fd after) := by
  rw [State.finish_eq]
  exact h.goto (by rw [After.half_place, hhalf])

variable {id fd : Nat}

theorem Inv.setSock (h : Inv s) {sock : Sock} (hsock : s.socks id = some sock)
    (sock' : Sock) (haddr : sock'.addr = sock.addr) : Inv (s.setSock id sock') := by
  refine h.same rfl (fun _ => rfl) rfl (fun i => ?_) rfl rfl
  change (update s.socks id (some sock') i).map Sock.addr = _
  by_cases hi : i = id
  · subst hi
    rw [update_self, hsock, Option.map_some, Option.map_some, haddr]
  · rw [update_of_ne hi]

theorem Inv.rehashTo (h : Inv s) (hhalf : (s.calls t).half = none) (fd id : Nat)
    (src dst : SocketAddr) (after : After) : Inv (s.rehashTo t fd id src dst after) := by
  unfold State.rehashTo
  split
  · exact h.finish hhalf fd after
  · exact h.goto hhalf.symm

theorem Inv.socket (h : Inv s) (ht : t < s.threads) (hp : s.calls t = .idle) (fd : Nat)
    (inet6 v6only : Bool) : Inv (s.socket fd inet6 v6only) := by
  unfold State.socket
  split
  · rename_i hfd
    obtain ⟨hnone, hkeys⟩ := h.fresh s.nextId (Nat.le_refl _)
    have hunnamed : ∀ fd', s.descriptors fd' ≠ some s.nextId := fun fd' hfd' => by
      have := h.named fd' _ hfd'
      rw [hnone] at this
      cases this
    -- no call is half way with the new socket: the map has it nowhere
    have hfree : s.FreeBut t s.nextId := by
      intro j hj _ hmid
      obtain ⟨half, hhalf, hid⟩ := Option.map_eq_some_iff.mp hmid
      exact (h.halfway j hj half hhalf).keys_ne_nil (hid ▸ hkeys)
    refine h.change s.nextId .idle ht rfl ?_ hfree (by rw [hp]; nofun) nofun ?_ ?_ ?_
      ?_ ?_ (fun _ _ => rfl) (fun _ => ?_) nofun
    · rw [← hp, update_eq_self]
    · intro fd' i hi
      dsimp only
      rcases of_update_eq hi with ⟨-, ⟨⟩⟩ | ⟨-, hold⟩
      · rw [update_self]
        rfl
      · rw [update_of_ne]
        · exact h.named fd' i hold
        · rintro rfl
          exact hunnamed fd' hold
    · intro fd₁ fd₂ i h₁ h₂
      rcases of_update_eq h₁ with ⟨hfd₁, ⟨⟩⟩ | ⟨-, hold₁⟩ <;>
        rcases of_update_eq h₂ with ⟨hfd₂, hnew⟩ | ⟨-, hold₂⟩
      · rw [hfd₁, hfd₂]
      · exact absurd hold₂ (hunnamed fd₂)
      · exact absurd (hold₁.trans hnew.symm) (hunnamed fd₁)
      · exact h.once fd₁ fd₂ i hold₁ hold₂
    · intro i hi
      dsimp only at hi ⊢
      rw [update_of_ne (by omega)]
      exact h.fresh i (by omega)
    · intro fd' i _ hi
      dsimp only
      rw [update_of_ne]
      · exact hi
      · rintro rfl
        rw [hfd] at hi
        cases hi
    · intro i hi
      unfold State.addrOf
      dsimp only
      rw [update_of_ne hi]
    · unfold State.addrOf
      dsimp only
      rw [update_self]
      exact hkeys
  · exact h

theorem Inv.bind (h : Inv s) (ht : t < s.threads) (hp : s.calls t = .idle)
    {want : SocketAddr} {refused : Bool} (hkept : Kept s (.bind t fd want refused)) :
    Inv (s.bind fd want refused) := by
  unfold State.bind
  split
  · exact h
  rename_i id sock hsock
  obtain ⟨hfd, hsock⟩ := State.sock_eq_some.mp hsock
  split
  · exact h
  rename_i hunbound
  split
  · exact h
  rename_i addr _
  have haddr : sock.addr = none := by
    cases hs : sock.addr with
    | none => rfl
    | some a => exact absurd (.inl (by rw [hs]; rfl)) hunbound
  have haddrOf : s.addrOf id = none := by rw [State.addrOf, hsock]; exact haddr
  have hfree := hkept id hfd haddrOf
  have hkeys : keysOf s.udp id = [] := by rw [h.settled id hfree, haddrOf]; rfl
  refine h.write .idle _ ht hsock rfl ?_ rfl rfl rfl (hfree.but t) (by rw [hp]; nofun) nofun
    (fun i hi => keysOf_addNew_of_ne _ _ hi) (fun _ => ?_) nofun
  · rw [← hp, update_eq_self]
    rfl
  · change keysOf (addNew s.udp addr id) id = _
    rw [keysOf_addNew_self (by rw [hkeys]; exact List.not_mem_nil), hkeys]
    rfl

variable {after : After}

theorem Inv.register (h : Inv s) (ht : t < s.threads) {ip : IpAddr}
    (hp : s.calls t = .binding fd id ip after) (hkept : Kept s (.register t)) :
    Inv (s.register t fd id ip after) := by
  obtain ⟨hfd, haddr, hfree⟩ := hkept (fd, id) (by rw [hp]; rfl)
  obtain ⟨sock, hsock⟩ := Option.isSome_iff_exists.mp (h.named fd id hfd)
  have hkeys : keysOf s.udp id = [] := by rw [h.settled id hfree, haddr]; rfl
  unfold State.register
  split
  · exact h.goto (by rw [hp]; rfl)
  rename_i dst _
  have hkeys' : keysOf (addNew s.udp dst id) id = [dst] := by
    rw [keysOf_addNew_self (by rw [hkeys]; exact List.not_mem_nil), hkeys]
    rfl
  refine h.write _ sock ht hsock rfl rfl rfl rfl ?_ (hfree.but t) (by rw [hp]; nofun)
    (fun i hi => by cases hi; rfl) (fun i hi => keysOf_addNew_of_ne _ _ hi) nofun ?_
  · rw [← hsock, update_eq_self]
    rfl
  · intro half hhalf
    cases hhalf
    exact ⟨hfd, hkeys'⟩

theorem Inv.rehash (h : Inv s) (ht : t < s.threads) {src dst : SocketAddr}
    (hp : s.calls t = .rehashing fd id src dst after) (hkept : Kept s (.rehash t)) :
    Inv ({ s with udp := addNew (dropFirst s.udp src id) dst id }.goto t
      (.settling fd id dst after)) := by
  obtain ⟨hfd, haddr, hfree⟩ := hkept (fd, id, src) (by rw [hp]; rfl)
  obtain ⟨sock, hsock⟩ := Option.isSome_iff_exists.mp (h.named fd id hfd)
  have hkeys : keysOf (dropFirst s.udp src id) id = [] := by
    rw [keysOf_dropFirst_self, h.settled id hfree, haddr]
    simp
  refine h.write _ sock ht hsock rfl rfl rfl rfl ?_ (hfree.but t) (by rw [hp]; nofun)
    (fun i hi => by cases hi; rfl)
    (fun i hi => (keysOf_addNew_of_ne _ _ hi).trans (keysOf_dropFirst_of_ne _ _ hi)) nofun ?_
  · rw [← hsock, update_eq_self]
    rfl
  · intro half hhalf
    cases hhalf
    refine ⟨hfd, ?_⟩
    change keysOf (addNew (dropFirst s.udp src id) dst id) id = [dst]
    rw [keysOf_addNew_self (by rw [hkeys]; exact List.not_mem_nil), hkeys]
    rfl

theorem mid_of_half {p : Place} {half : Half} (h : p.half = some half) : p.mid = some half.id := by
  rw [Place.mid, h]
  rfl

section

variable (h : Inv s)
include h

theorem Inv.freeBut (ht : t < s.threads) (hmid : (s.calls t).mid = some id) :
    s.FreeBut t id := fun j hj hjt hjmid => hjt (h.alone j hj t ht id hjmid hmid)

theorem Inv.settle (ht : t < s.threads) {dst : SocketAddr}
    (hp : s.calls t = .settling fd id dst after) : Inv (s.settle t fd dst after) := by
  have hhalf : (s.calls t).half = some (.settling fd id dst) := by rw [hp]; rfl
  obtain ⟨hfd, hkeys⟩ := h.halfway t ht _ hhalf
  have hmid := mid_of_half hhalf
  obtain ⟨sock, hsock⟩ := Option.isSome_iff_exists.mp (h.named fd id hfd)
  -- the descriptor names the socket the call began with
  unfold State.settle
  rw [State.sock_eq_some.mpr ⟨hfd, hsock⟩]
  dsimp only
  rw [State.finish_eq]
  refine h.write _ _ ht hsock rfl rfl rfl rfl rfl (h.freeBut ht hmid) ?_ ?_ (fun _ _ => rfl)
    (fun _ => hkeys) ?_
  · intro i hi
    rw [hmid] at hi
    exact (Option.some.inj hi).symm
  · rw [After.mid_place]
    nofun
  · rw [After.half_place]
    nofun

theorem Inv.setPeer {server : SocketAddr}
    (hp : s.calls t = .peering fd server) : Inv (s.setPeer t fd server) := by
  unfold State.setPeer
  split
  · exact h.goto (by rw [hp]; rfl)
  · rename_i id sock hsock
    obtain ⟨-, hsock⟩ := State.sock_eq_some.mp hsock
    refine (h.setSock hsock { sock with peer := some server } rfl).goto ?_
    change _ = (s.calls t).half
    rw [hp]
    rfl

theorem Inv.storePort {bound : SocketAddr}
    (hp : s.calls t = .releasing fd id bound after) : Inv (s.storePort t fd id bound after) := by
  have hqueues : ∀ queues, Inv { s with queues } := fun queues =>
    h.same rfl (fun _ => rfl) rfl (fun _ => rfl) rfl rfl
  refine (hqueues _).goto ?_
  rw [hp]
  rfl

theorem Inv.withdraw (ht : t < s.threads) {bound : SocketAddr}
    (hp : s.calls t = .withdrawing fd id bound after) :
    Inv ({ s with udp := dropFirst s.udp bound id }.finish t fd after) := by
  have hhalf : (s.calls t).half = some (.withdrawing id bound) := by rw [hp]; rfl
  obtain ⟨haddr, hkeys⟩ := h.halfway t ht _ hhalf
  have hmid := mid_of_half hhalf
  rw [State.finish_eq]
  refine h.change id _ ht rfl rfl (h.freeBut ht hmid) ?_ ?_ h.named h.once ?_
    (fun _ _ _ hi => hi) (fun _ _ => rfl) (fun i hi => keysOf_dropFirst_of_ne _ _ hi) ?_ ?_
  · intro i hi
    rw [hmid] at hi
    exact (Option.some.inj hi).symm
  · rw [After.mid_place]
    nofun
  · intro i hi
    obtain ⟨hnone, hnil⟩ := h.fresh i hi
    refine ⟨hnone, (keysOf_dropFirst_of_ne _ _ ?_).trans hnil⟩
    rintro rfl
    rw [hkeys] at hnil
    cases hnil
  · intro _
    change keysOf (dropFirst s.udp bound id) id = (s.addrOf id).toList
    rw [keysOf_dropFirst_self, hkeys, haddr]
    simp
  · rw [After.half_place]
    nofun

theorem Inv.dissolve (ht : t < s.threads)
    (hp : s.calls t = .dissolving fd after) (hkept : Kept s (.dissolve t)) :
    Inv (s.dissolve t fd after) := by
  have hhalf : (s.calls t).half = none := by rw [hp]; rfl
  unfold State.dissolve
  split
  · exact h.finish hhalf fd after
  rename_i id sock hsock
  obtain ⟨hfd, hsock⟩ := State.sock_eq_some.mp hsock
  dsimp only
  split
  · exact (h.setSock hsock { sock with peer := none } rfl).finish hhalf fd after
  rename_i bound hbound
  split
  · -- the port is given up: the socket is unbound before the map is told
    have hfree := hkept fd (by rw [hp]; rfl) id hfd
    refine h.write _ { sock with peer := none, addr := none } ht hsock rfl rfl rfl rfl rfl
      (hfree.but t) (by rw [hp]; nofun) (fun i hi => by cases hi; rfl) (fun _ _ => rfl) nofun ?_
    intro half hh
    cases hh
    refine ⟨?_, ?_⟩
    · change (update s.socks id (some _) id).bind Sock.addr = none
      rw [update_self]
      rfl
    · change keysOf s.udp id = [bound]
      rw [h.settled id hfree, State.addrOf, hsock, Option.bind_some, hbound]
      rfl
  · exact (h.setSock hsock { sock with peer := none } rfl).rehashTo hhalf fd id _ _ after

theorem Inv.close (ht : t < s.threads) (hp : s.calls t = .idle)
    (hkept : Kept s (.close t fd)) : Inv (s.close t fd) := by
  unfold State.close
  split
  · exact h
  rename_i id sock hsock
  obtain ⟨hfd, hsock⟩ := State.sock_eq_some.mp hsock
  have hfree := hkept id hfd
  have hkeys : keysOf s.udp id = sock.addr.toList := by
    rw [h.settled id hfree, State.addrOf, hsock]
    rfl
  -- the tables without the socket, wherever the call goes on
  have hclosed : ∀ q : Place, (∀ i ∈ q.mid, i = id) → (q.half = none → keysOf s.udp id = []) →
      (∀ half ∈ q.half, half = .withdrawing id (sock.addr.getD ⟨false, 0, 0⟩) ∧ sock.addr.isSome) →
      Inv ({ s with
        descriptors := update s.descriptors fd none
        socks := update s.socks id none }.goto t q) := by
    intro q hmid hsettled hhalf
    have hnone : (update s.socks id none id).bind Sock.addr = none := by
      rw [update_self]
      rfl
    refine h.change id _ ht rfl rfl (hfree.but t) (by rw [hp]; nofun) hmid ?_ ?_ ?_ ?_ ?_
      (fun _ _ => rfl) (fun hq => ?_) (fun half hh => ?_)
    · intro fd' i hi
      rcases of_update_eq hi with ⟨-, ⟨⟩⟩ | ⟨hfd', hold⟩
      change (update s.socks id none i).isSome
      rw [update_of_ne]
      · exact h.named fd' i hold
      · rintro rfl
        exact hfd' (h.once fd' fd i hold hfd)
    · intro fd₁ fd₂ i h₁ h₂
      rcases of_update_eq h₁ with ⟨-, ⟨⟩⟩ | ⟨-, hold₁⟩
      rcases of_update_eq h₂ with ⟨-, ⟨⟩⟩ | ⟨-, hold₂⟩
      exact h.once fd₁ fd₂ i hold₁ hold₂
    · intro i hi
      obtain ⟨hold, hnil⟩ := h.fresh i hi
      refine ⟨?_, hnil⟩
      change update s.socks id none i = none
      by_cases hid : i = id
      · rw [hid, update_self]
      · rw [update_of_ne hid, hold]
    · intro fd' i hid hi
      change update s.descriptors fd none fd' = some i
      rw [update_of_ne]
      · exact hi
      · rintro rfl
        rw [hfd] at hi
        exact hid (Option.some.inj hi).symm
    · intro i hid
      change (update s.socks id none i).bind Sock.addr = _
      rw [update_of_ne hid]
      rfl
    · change keysOf s.udp id = ((update s.socks id none id).bind Sock.addr).toList
      rw [hnone, hsettled hq]
      rfl
    · obtain ⟨rfl, hsome⟩ := hhalf half hh
      obtain ⟨bound, hbound⟩ := Option.isSome_iff_exists.mp hsome
      refine ⟨hnone, ?_⟩
      change keysOf s.udp id = _
      rw [hkeys, hbound]
      rfl
  split
  · rename_i haddr
    have := hclosed .idle nofun (fun _ => by rw [hkeys, haddr]; rfl) nofun
    rwa [State.goto, show update s.calls t Place.idle = s.calls by
      rw [← hp, update_eq_self]] at this
  · rename_i bound haddr
    refine hclosed _ (fun i hi => by cases hi; rfl) nofun fun half hh => ?_
    cases hh
    rw [haddr]
    exact ⟨rfl, rfl⟩

/-! The sections that only read. -/

section

variable (hhalf : (s.calls t).half = none)
include hhalf

theorem Inv.sendOn (fd id : Nat)
    (bound requested : Option SocketAddr) (dest : SocketAddr) (refused : Bool)
    (route : Option Sender) : Inv (s.sendOn t fd id bound requested dest refused route) := by
  unfold State.sendOn
  dsimp only
  split
  · exact h.goto hhalf.symm
  split
  · split <;> exact h.goto hhalf.symm
  · split <;> exact h.goto hhalf.symm

theorem Inv.look (fd : Nat) (server : SocketAddr) :
    Inv (s.look t fd server) := by
  unfold State.look
  split
  · exact h.goto hhalf.symm
  dsimp only
  split
  · exact h.goto hhalf.symm
  · split <;> exact h.goto hhalf.symm

theorem Inv.connectOn (fd id : Nat)
    (bound requested : Option SocketAddr) (server : SocketAddr) (route : Option Sender) :
    Inv (s.connectOn t fd id bound requested server route) := by
  unfold State.connectOn
  split
  · exact h.goto hhalf.symm
  split
  · exact h.goto hhalf.symm
  · exact h.rehashTo hhalf fd id _ _ _

end

end

end Sections

/-! ## Runs -/

theorem Inv.access (h : Inv s) {a : Act} (ht : a.thread < s.threads) (hkept : Kept s a) :
    Inv (s.access a.thread (s.calls a.thread) a) := by
  cases a <;> simp only [Act.thread] at ht ⊢ <;> simp only [State.access]
  case socket t fd inet6 v6only =>
    split
    · exact h.socket ht ‹_› fd inet6 v6only
    · exact h
  case bind t fd want refused =>
    split
    · exact h.bind ht ‹_› hkept
    · exact h
  case send t fd dest =>
    split
    · rename_i hp _
      exact h.goto (by rw [hp]; rfl)
    · exact h
  case sendOn t refused route =>
    split
    · rename_i hp
      exact h.sendOn (by rw [hp]; rfl) _ _ _ _ _ _ _
    · exact h
  case connect t fd server =>
    split
    · rename_i hp
      exact h.goto (by rw [hp]; rfl)
    · exact h
  case look t =>
    split
    · rename_i hp
      exact h.look (by rw [hp]; rfl) _ _
    · exact h
  case connectOn t route =>
    split
    · rename_i hp
      exact h.connectOn (by rw [hp]; rfl) _ _ _ _ _ _
    · exact h
  case disconnect t fd =>
    split
    · rename_i hp
      exact h.goto (by rw [hp]; rfl)
    · exact h
  case dissolve t =>
    split
    · exact h.dissolve ht ‹_› hkept
    · exact h
  case register t =>
    split
    · exact h.register ht ‹_› hkept
    · exact h
  case rehash t =>
    split
    · exact h.rehash ht ‹_› hkept
    · exact h
  case settle t =>
    split
    · exact h.settle ht ‹_›
    · exact h
  case setPeer t =>
    split
    · exact h.setPeer ‹_›
    · exact h
  case storePort t =>
    split
    · exact h.storePort ‹_›
    · exact h
  case withdraw t =>
    split
    · exact h.withdraw ht ‹_›
    · exact h
  case close t fd =>
    split
    · exact h.close ht ‹_› hkept
    · exact h

theorem Inv.step (h : Inv s) {a : Act} (hkept : Kept s a) : Inv (s.step a) := by
  unfold State.step
  split
  · exact h.access ‹_› hkept
  · exact h

theorem Inv.init (host : Host) (threads : Nat) (endpoints : List SocketAddr) :
    Inv { host, threads, endpoints } where
  named := nofun
  once := nofun
  fresh _ _ := ⟨rfl, rfl⟩
  settled _ _ := rfl
  halfway := nofun
  alone := nofun

/-- While no call is in progress, the map has each open socket at its address and nowhere else, and
no unbound or closed socket. -/
def Mirrors (s : State) : Prop :=
  (∀ t < s.threads, s.calls t = .idle) → ∀ id, keysOf s.udp id = (s.addrOf id).toList

theorem Inv.mirrors (h : Inv s) : Mirrors s := by
  intro hidle id
  refine h.settled id fun t ht hmid => ?_
  rw [hidle t ht] at hmid
  cases hmid

/-- **The delivery map mirrors the sockets** in every state of a run whose steps are all `Kept`. -/
theorem delivery_map_mirrors (host : Host) (threads : Nat) (endpoints : List SocketAddr)
    (as : List Act) (h : Runs.Along State.step Kept { host, threads, endpoints } as) :
    Runs.Always State.step Mirrors { host, threads, endpoints } as := by
  have hstep : ∀ s a, Inv s → Kept s a → Inv (s.step a) := fun s a hs hkept => hs.step hkept
  exact (Runs.always_of_along hstep (Inv.init host threads endpoints) h).imp fun s hs => hs.mirrors

/-- Two sockets: one sends first while the other is bound, connects and is disconnected, then both
are closed. -/
theorem delivery_map_mirrors_run :
    let wild : SocketAddr := ⟨false, 0, 0⟩
    let server : SocketAddr := ⟨false, 1, 7⟩
    let as := [.socket 0 3 false false, .socket 1 4 true false, .send 0 3 server,
      .bind 1 4 ⟨true, 0, 5000⟩ false, .sendOn 0 false (some (.host ⟨false, 9⟩)),
        .connect 1 4 server,
      .register 0, .look 1, .settle 0, .connectOn 1 (some (.host ⟨false, 9⟩)), .disconnect 0 3,
      .rehash 1, .dissolve 0, .settle 1, .storePort 0, .setPeer 1,
        .withdraw 0, .bind 0 3 wild false,
      .close 1 4, .withdraw 1]
    let s : State := { host := .linux, threads := 2 }
    Runs.Along State.step Kept s as ∧ Runs.Always State.step Mirrors s as ∧
      (as.foldl State.step s).udp = [(⟨false, 0, 49152⟩, 0)] := by
  intro wild server as s
  have hkept : Runs.Along State.step Kept s as := by decide +kernel
  exact ⟨hkept, delivery_map_mirrors .linux 2 [] as hkept, by decide +kernel⟩

/-- Two threads send on one unbound socket: both find it unbound and bind it, so that it is in the
map at two ports and has the address of one. -/
theorem bound_twice :
    let dest : SocketAddr := ⟨false, 1, 7⟩
    let route := some (Sender.host ⟨false, 9⟩)
    let s := [.socket 0 3 false false, .send 0 3 dest, .send 1 3 dest, .sendOn 0 false route,
      .sendOn 1 false route, .register 0, .settle 0, .register 1, .settle 1].foldl State.step
        { host := .linux, threads := 2 }
    (∀ t < s.threads, s.calls t = .idle) ∧ s.addrOf 0 = some ⟨false, 0, 49153⟩ ∧
      keysOf s.udp 0 = [⟨false, 0, 49152⟩, ⟨false, 0, 49153⟩] ∧ ¬ Mirrors s := by
  intro dest route s
  have hidle : ∀ t < s.threads, s.calls t = .idle := by decide +kernel
  have haddr : s.addrOf 0 = some ⟨false, 0, 49153⟩ := by decide +kernel
  have hkeys : keysOf s.udp 0 = [⟨false, 0, 49152⟩, ⟨false, 0, 49153⟩] := by decide +kernel
  refine ⟨hidle, haddr, hkeys, fun hmirrors => ?_⟩
  have := hmirrors hidle 0
  rw [hkeys, haddr] at this
  cases this

end Snare.Udp
