import Snare.Lib.Runs
import Snare.Lib.Update
import Snare.Net.HostUdp

/-!
# The host's socket tables stay consistent

Every section leaves the tables whole, so the invariant does not speak of the calls: it is about the
descriptors and the open sockets, and about the table of bound addresses.

* **`Inv.write`**: a section that changes one open socket;
* **`Inv.closeFd`**, **`Inv.aliasFd`**: the sections that change a descriptor;
* **`host_sockets_consistent`**: in every run whose steps are `Kept`.

A close between the two sections of a `bind` makes it panic (`bind_panics`).
-/

namespace Snare.HostUdp

open Function Update Net Directory

structure Inv (s : State) : Prop where
  panicked : s.panicked = false
  /-- A descriptor names an open socket that has it, and no other. -/
  named : ∀ fd id, s.descriptors fd = some id →
    ∃ sock, s.sockets id = some sock ∧ fd ∈ sock.descriptors
  listed : ∀ id sock, s.sockets id = some sock → sock.descriptors.Nodup ∧
    ∀ fd ∈ sock.descriptors, s.descriptors fd = some id
  fresh : ∀ id, s.nextId ≤ id → s.sockets id = none
  /-- The table of bound addresses lists a socket at its address and nowhere else. -/
  mirrors : ∀ id, keysOf s.bound id = (s.addrOf id).toList

/-- The socket a `bind` or a send is to bind, as it read it. -/
def Place.binds : Place → Option (Nat × Nat)
  | .binding fd id => some (fd, id)
  | _ => none

def Place.autobinds : Place → Option Nat
  | .autobinding fd _ _ _ => some fd
  | _ => none

/-- The steps that keep the tables in line: the second section of `bind` finds its descriptor naming
the socket it read, still unbound; a send that found its socket unbound finds it so, or gone. -/
def Kept (s : State) : Act → Prop
  | .bindOn t _ _ => ∀ b ∈ (s.calls t).binds, s.descriptors b.1 = some b.2 ∧ s.addrOf b.2 = none
  | .autobind t => ∀ fd ∈ (s.calls t).autobinds, ∀ id ∈ s.descriptors fd, s.addrOf id = none
  | _ => True

instance Kept.decidable (s : State) : ∀ a, Decidable (Kept s a)
  | .bindOn .. | .autobind _ => inferInstanceAs (Decidable (∀ _ ∈ _, _))
  | .socket _ _ _ _ | .bind _ _ | .connect _ _ _ | .look _ | .connectOn _ _ | .disconnect _ _
  | .dissolve _ | .send _ _ _ | .sendOn _ _ _ _ | .segment _ | .dup _ _ _ | .dupTo _ _ _
  | .close _ _ => .isTrue trivial

variable {s : State}

theorem State.sock_eq_some {fd id : Nat} {sock : UdpSocket} :
    s.sock fd = some (id, sock) ↔ s.descriptors fd = some id ∧ s.sockets id = some sock := by
  simp [State.sock, Option.bind_eq_some_iff]

section Sections

variable {s s' : State} {fd id : Nat}

theorem Inv.sock (h : Inv s) (hfd : s.descriptors fd = some id) :
    ∃ sock, s.sock fd = some (id, sock) := by
  obtain ⟨sock, hsock, -⟩ := h.named fd id hfd
  exact ⟨sock, State.sock_eq_some.mpr ⟨hfd, hsock⟩⟩

theorem Inv.goto (h : Inv s) (t : Nat) (p : Place) : Inv (s.goto t p) :=
  { h with }

theorem Inv.ephemeral (h : Inv s) (nextEphemeral : Nat) : Inv { s with nextEphemeral } :=
  { h with }

variable {sock : UdpSocket}

section

variable (h : Inv s)
include h

section

variable (hsock : s.sockets id = some sock)
include hsock

theorem Inv.replace (sock' : UdpSocket) (hpanicked : s'.panicked = s.panicked)
    (hother : ∀ fd i, i ≠ id → (s'.descriptors fd = some i ↔ s.descriptors fd = some i))
    (hlisted : ∀ fd, s'.descriptors fd = some id ↔ fd ∈ sock'.descriptors)
    (hnodup : sock'.descriptors.Nodup) (hnextId : s'.nextId = s.nextId)
    (hsockets : s'.sockets = update s.sockets id (some sock'))
    (hkeys_ne : ∀ i, i ≠ id → keysOf s'.bound i = keysOf s.bound i)
    (hkeys : keysOf s'.bound id = sock'.addr.toList) : Inv s' := by
  have hne : ∀ i, i ≠ id → s'.sockets i = s.sockets i := fun i hi => by
    rw [hsockets, update_of_ne hi]
  have hself : s'.sockets id = some sock' := by rw [hsockets, update_self]
  refine ⟨hpanicked.trans h.panicked, fun fd i hi => ?_, fun i sock₁ hi => ?_, fun i hi => ?_,
    fun i => ?_⟩
  · by_cases hid : i = id
    · subst hid
      exact ⟨sock', hself, (hlisted fd).mp hi⟩
    · rw [hne i hid]
      exact h.named fd i ((hother fd i hid).mp hi)
  · by_cases hid : i = id
    · subst hid
      rw [hself] at hi
      cases hi
      exact ⟨hnodup, fun fd hfd => (hlisted fd).mpr hfd⟩
    · rw [hne i hid] at hi
      obtain ⟨hnodup₁, hlisted₁⟩ := h.listed i sock₁ hi
      exact ⟨hnodup₁, fun fd hfd => (hother fd i hid).mpr (hlisted₁ fd hfd)⟩
  · have hold := h.fresh i (hnextId ▸ hi)
    rw [hne i]
    · exact hold
    · rintro rfl
      rw [hsock] at hold
      cases hold
  · by_cases hid : i = id
    · subst hid
      rw [hkeys, State.addrOf, hself]
      rfl
    · rw [hkeys_ne i hid, h.mirrors i, State.addrOf, State.addrOf, hne i hid]

theorem Inv.named_iff (fd : Nat) : s.descriptors fd = some id ↔ fd ∈ sock.descriptors := by
  refine ⟨fun hfd => ?_, (h.listed id sock hsock).2 fd⟩
  obtain ⟨sock₁, hsock₁, hmem⟩ := h.named fd id hfd
  cases hsock.symm.trans hsock₁
  exact hmem

theorem Inv.write (sock' : UdpSocket) (hfds : sock'.descriptors = sock.descriptors)
    (hpanicked : s'.panicked = s.panicked) (hdescriptors : s'.descriptors = s.descriptors)
    (hnextId : s'.nextId = s.nextId) (hsockets : s'.sockets = update s.sockets id (some sock'))
    (hkeys_ne : ∀ i, i ≠ id → keysOf s'.bound i = keysOf s.bound i)
    (hkeys : keysOf s'.bound id = sock'.addr.toList) : Inv s' := by
  refine h.replace hsock sock' hpanicked (fun fd i _ => by rw [hdescriptors]) (fun fd => ?_)
    (hfds ▸ (h.listed id sock hsock).1) hnextId hsockets hkeys_ne hkeys
  rw [hdescriptors, hfds]
  exact h.named_iff hsock fd

theorem Inv.setSock
    (sock' : UdpSocket) (hfds : sock'.descriptors = sock.descriptors)
    (haddr : sock'.addr = sock.addr) : Inv (s.setSock id sock') := by
  refine h.write hsock sock' hfds rfl rfl rfl rfl (fun _ _ => rfl) ?_
  change keysOf s.bound id = _
  rw [h.mirrors id, State.addrOf, hsock, haddr]
  rfl

theorem Inv.keys_eq : keysOf s.bound id = sock.addr.toList := by
  rw [h.mirrors id, State.addrOf, hsock]
  rfl

theorem Inv.bindSock
    (hunbound : sock.addr = none) (sock' : UdpSocket) (hfds : sock'.descriptors = sock.descriptors)
    {addr : SocketAddr} (haddr : sock'.addr = some addr) :
    Inv ((s.bindUdp addr id).setSock id sock') := by
  refine h.write hsock sock' hfds rfl rfl rfl rfl (fun i hi => keysOf_add_of_ne _ _ hi) ?_
  change keysOf (add s.bound addr id) id = _
  rw [keysOf_add_self, h.keys_eq hsock, hunbound, haddr]
  rfl

end

theorem Inv.rehash (hsock : s.sock fd = some (id, sock))
    {src : SocketAddr} (hsrc : sock.addr = some src) (dst : SocketAddr) :
    Inv (s.rehash fd src dst) ∧ (s.rehash fd src dst).descriptors = s.descriptors := by
  unfold State.rehash
  rw [hsock]
  obtain ⟨-, hsock⟩ := State.sock_eq_some.mp hsock
  dsimp only
  split
  · exact ⟨h, rfl⟩
  · refine ⟨h.write hsock { sock with addr := some dst } rfl rfl rfl rfl rfl (fun i hi => ?_) ?_,
      rfl⟩
    · change keysOf (add (dropAll s.bound src id) dst id) i = _
      rw [keysOf_add_of_ne _ _ hi, keysOf_dropAll_of_ne _ _ hi]
    · change keysOf (add (dropAll s.bound src id) dst id) id = _
      rw [keysOf_add_self, keysOf_dropAll_self, h.keys_eq hsock, hsrc]
      simp

theorem Inv.autobindFd (ip : IpAddr) (hunbound : ∀ id ∈ s.descriptors fd, s.addrOf id = none) :
    Inv (s.autobindFd fd ip).2 ∧ (s.autobindFd fd ip).2.descriptors = s.descriptors := by
  unfold State.autobindFd
  split
  · exact ⟨h, rfl⟩
  rename_i id sock hsock
  obtain ⟨hfd, hsock⟩ := State.sock_eq_some.mp hsock
  have haddr := hunbound id hfd
  rw [State.addrOf, hsock] at haddr
  unfold State.allocEphemeral
  generalize s.allocFrom ip (s.dual id ip) dynamicPorts s.nextEphemeral = found
  obtain ⟨port, next⟩ := found
  cases port with
  | none => exact ⟨h.ephemeral next, rfl⟩
  | some port =>
    exact ⟨(h.ephemeral next).bindSock hsock haddr
      { sock with addr := some (.new ip port) } rfl rfl,
      rfl⟩

theorem Inv.setPeer (hfd : s.descriptors fd = some id)
    (server : SocketAddr) : Inv (s.setPeer fd server) := by
  obtain ⟨sock, hsock⟩ := h.sock hfd
  unfold State.setPeer
  rw [hsock]
  obtain ⟨-, hsock⟩ := State.sock_eq_some.mp hsock
  exact h.setSock hsock _ rfl rfl

theorem Inv.connectOn (fd : Nat) (bound requested : Option SocketAddr)
    (server : SocketAddr) (sender : Sender) :
    Inv (s.connectOn fd bound requested server sender) := by
  unfold State.connectOn
  split
  · exact h
  rename_i id sock hsock
  obtain ⟨hfd, hsock'⟩ := State.sock_eq_some.mp hsock
  split
  · rename_i hunbound
    -- the address is looked at again in this section, so the socket bound here is unbound
    have hauto : ∀ ip addr s₁, s.autobindFd fd ip = (addr, s₁) →
        Inv s₁ ∧ s₁.descriptors = s.descriptors := by
      intro ip addr s₁ heq
      have := h.autobindFd ip fun i hi => by
        rw [hfd] at hi
        cases hi
        rw [State.addrOf, hsock']
        exact hunbound
      rwa [heq] at this
    dsimp only
    split
    · exact (hauto _ _ _ ‹_›).1
    · obtain ⟨hinv, hdescriptors⟩ := hauto _ _ _ ‹_›
      exact hinv.setPeer (by rw [hdescriptors]; exact hfd) server
  · rename_i src hsrc
    obtain ⟨hinv, hdescriptors⟩ := h.rehash hsock hsrc (sender.connectedLocal (src.toward server))
    exact hinv.setPeer (by rw [hdescriptors]; exact hfd) server

theorem Inv.dissolve (fd : Nat) : Inv (s.dissolve fd) := by
  unfold State.dissolve
  split
  · exact h
  rename_i id sock hsock
  obtain ⟨hfd, hsock⟩ := State.sock_eq_some.mp hsock
  have hpeer := h.setSock hsock { sock with peer := none } rfl rfl
  dsimp only
  split
  · exact hpeer
  rename_i bound hbound
  split
  · have hsock' : (s.setSock id { sock with peer := none }).sock fd =
        some (id, { sock with peer := none }) :=
      State.sock_eq_some.mpr ⟨hfd, update_self ..⟩
    exact (hpeer.rehash hsock' hbound _).1
  · refine h.write hsock { sock with peer := none, addr := none } rfl rfl rfl rfl rfl
      (fun i hi => keysOf_dropAll_of_ne _ _ hi) ?_
    change keysOf (dropAll s.bound bound id) id = _
    rw [keysOf_dropAll_self, h.keys_eq hsock, hbound]
    simp

theorem Inv.bindAddr (id : Nat) (want : SocketAddr) (conflict : Bool) :
    Inv (s.bindAddr id want conflict).2 ∧
      (s.bindAddr id want conflict).2.descriptors = s.descriptors ∧
      (s.bindAddr id want conflict).2.sockets = s.sockets := by
  unfold State.bindAddr
  split
  · exact ⟨h.ephemeral _, rfl, rfl⟩
  · exact ⟨h, rfl, rfl⟩

theorem Inv.bindOn (hfd : s.descriptors fd = some id)
    (hunbound : s.addrOf id = none) (want : SocketAddr) (conflict : Bool) :
    Inv (s.bindOn fd id want conflict) := by
  obtain ⟨hinv, hdescriptors, hsockets⟩ := h.bindAddr id want conflict
  unfold State.bindOn
  generalize s.bindAddr id want conflict = found at hinv hdescriptors hsockets ⊢
  obtain ⟨addr, s₁⟩ := found
  cases addr with
  | none => exact hinv
  | some addr =>
    obtain ⟨sock, hsock, -⟩ := h.named fd id hfd
    -- the socket is the one the first section read
    have hsock₁ : (s₁.bindUdp addr id).sock fd = some (id, sock) :=
      State.sock_eq_some.mpr ⟨hdescriptors ▸ hfd, hsockets ▸ hsock⟩
    rw [State.addrOf, hsock] at hunbound
    dsimp only
    rw [hsock₁]
    exact hinv.bindSock (hsockets ▸ hsock) hunbound
      { sock with addr := some addr, requested := some want } rfl rfl

theorem Inv.relist (hsock : s.sockets id = some sock)
    (sock' : UdpSocket) (haddr : sock'.addr = sock.addr) (descriptors : Nat → Option Nat)
    (hother : ∀ fd i, i ≠ id → (descriptors fd = some i ↔ s.descriptors fd = some i))
    (hlisted : ∀ fd, descriptors fd = some id ↔ fd ∈ sock'.descriptors)
    (hnodup : sock'.descriptors.Nodup) : Inv ({ s with descriptors }.setSock id sock') :=
  h.replace hsock sock' rfl hother hlisted hnodup rfl rfl (fun _ _ => rfl)
    (haddr ▸ h.keys_eq hsock)

theorem Inv.remove (hfd : s.descriptors fd = some id)
    (hsock : s.sockets id = some sock) (honly : ∀ fd' ∈ sock.descriptors, fd' = fd)
    (bound : List (SocketAddr × Nat)) (hne : ∀ i, i ≠ id → keysOf bound i = keysOf s.bound i)
    (hnil : keysOf bound id = []) :
    Inv { s with
      descriptors := update s.descriptors fd none
      sockets := update s.sockets id none
      bound } := by
  refine ⟨h.panicked, fun fd' i hi => ?_, fun i sock₁ hi => ?_, fun i hi => ?_, fun i => ?_⟩
  · rcases of_update_eq hi with ⟨-, ⟨⟩⟩ | ⟨hfd', hold⟩
    obtain ⟨sock₁, hsock₁, hmem₁⟩ := h.named fd' i hold
    dsimp only
    rw [update_of_ne]
    · exact ⟨sock₁, hsock₁, hmem₁⟩
    · rintro rfl
      rw [hsock] at hsock₁
      cases hsock₁
      exact hfd' (honly fd' hmem₁)
  · rcases of_update_eq hi with ⟨-, ⟨⟩⟩ | ⟨hid, hold⟩
    obtain ⟨hnodup₁, hlisted₁⟩ := h.listed i sock₁ hold
    refine ⟨hnodup₁, fun fd' hfd' => ?_⟩
    have hi' := hlisted₁ fd' hfd'
    dsimp only
    rw [update_of_ne]
    · exact hi'
    · rintro rfl
      rw [hfd] at hi'
      exact hid (Option.some.inj hi').symm
  · dsimp only
    by_cases hid : i = id
    · rw [hid, update_self]
    · rw [update_of_ne hid]
      exact h.fresh i hi
  · unfold State.addrOf
    dsimp only
    by_cases hid : i = id
    · rw [hid, update_self, hnil]
      rfl
    · rw [update_of_ne hid, hne i hid]
      exact h.mirrors i

theorem Inv.closeFd (fd : Nat) :
    Inv (s.closeFd fd) ∧ (s.closeFd fd).descriptors = update s.descriptors fd none := by
  unfold State.closeFd
  split
  · rename_i hfd
    exact ⟨h, by rw [← hfd, update_eq_self]⟩
  rename_i id hfd
  obtain ⟨sock, hsock, hmem⟩ := h.named fd id hfd
  have hnodup := (h.listed id sock hsock).1
  rw [hsock]
  dsimp only
  split
  · rename_i remaining rest herase
    refine ⟨h.relist hsock { sock with fd := remaining, descriptors := remaining :: rest } rfl _
      (fun fd' i hid => ?_) (fun fd' => ?_) ?_, rfl⟩
    · by_cases hfd' : fd' = fd
      · rw [hfd', update_self, hfd]
        exact ⟨nofun, fun hi => absurd (Option.some.inj hi).symm hid⟩
      · rw [update_of_ne hfd']
    · rw [← herase, hnodup.mem_erase_iff]
      by_cases hfd' : fd' = fd
      · rw [hfd', update_self]
        exact ⟨nofun, fun h => absurd rfl h.1⟩
      · rw [update_of_ne hfd', and_iff_right hfd']
        exact h.named_iff hsock fd'
    · rw [← herase]
      exact hnodup.erase fd
  · rename_i herase
    have honly : ∀ fd' ∈ sock.descriptors, fd' = fd := by
      intro fd' hfd'
      by_contra hne
      have := (List.mem_erase_of_ne hne).mpr hfd'
      rw [herase] at this
      cases this
    cases haddr : sock.addr with
    | none =>
      exact ⟨h.remove hfd hsock honly s.bound (fun _ _ => rfl)
        (by rw [h.keys_eq hsock, haddr]; rfl),
        rfl⟩
    | some addr =>
      refine ⟨h.remove hfd hsock honly (dropAll s.bound addr id)
        (fun i hi => keysOf_dropAll_of_ne _ _ hi) ?_, rfl⟩
      rw [keysOf_dropAll_self, h.keys_eq hsock, haddr]
      simp

theorem Inv.aliasFd {newfd : Nat} (hfd : s.descriptors fd = some id)
    (hnew : s.descriptors newfd = none) : Inv (s.aliasFd fd newfd) := by
  obtain ⟨sock, hsock, -⟩ := h.named fd id hfd
  obtain ⟨hnodup, hlisted⟩ := h.listed id sock hsock
  have hout : newfd ∉ sock.descriptors := fun hmem => by
    rw [hlisted newfd hmem] at hnew
    cases hnew
  unfold State.aliasFd
  rw [State.sock_eq_some.mpr ⟨hfd, hsock⟩]
  dsimp only
  rw [if_neg hout]
  refine h.relist hsock { sock with descriptors := sock.descriptors.orderedInsert (· ≤ ·) newfd }
    rfl _
    (fun fd' i hid => ?_) (fun fd' => ?_) ?_
  · by_cases hfd' : fd' = newfd
    · rw [hfd', update_self, hnew]
      exact ⟨fun hi => absurd (Option.some.inj hi).symm hid, nofun⟩
    · rw [update_of_ne hfd']
  · rw [List.mem_orderedInsert]
    by_cases hfd' : fd' = newfd
    · rw [hfd', update_self]
      exact ⟨fun _ => .inl rfl, fun _ => rfl⟩
    · rw [update_of_ne hfd', or_iff_right hfd']
      exact h.named_iff hsock fd'
  · exact (List.perm_orderedInsert _ newfd sock.descriptors).nodup_iff.mpr
      (List.nodup_cons.mpr ⟨hout, hnodup⟩)

theorem Inv.dupTo (fd newfd : Nat) : Inv (s.dupTo fd newfd) := by
  unfold State.dupTo
  split
  · exact h
  rename_i id hfd
  split
  · exact h
  rename_i hnewfd
  obtain ⟨hinv, hdescriptors⟩ := h.closeFd newfd
  refine hinv.aliasFd (?_ : _ = some id) (by rw [hdescriptors, update_self])
  rw [hdescriptors, update_of_ne]
  · exact hfd
  · rintro rfl
    exact hnewfd hfd

theorem Inv.socket (fd : Nat) (inet6 v6only : Bool) : Inv (s.socket fd inet6 v6only) := by
  unfold State.socket
  split
  case isFalse => exact h
  rename_i hfd
  have hnone := h.fresh s.nextId (Nat.le_refl _)
  have hold : ∀ fd' i, s.descriptors fd' = some i → fd' ≠ fd ∧ i ≠ s.nextId := by
    intro fd' i hi
    constructor
    · rintro rfl
      rw [hfd] at hi
      cases hi
    · rintro rfl
      obtain ⟨sock, hsock, -⟩ := h.named fd' _ hi
      rw [hnone] at hsock
      cases hsock
  refine ⟨h.panicked, fun fd' i hi => ?_, fun i sock hi => ?_, fun i hi => ?_, fun i => ?_⟩
  · dsimp only
    rcases of_update_eq hi with ⟨hfd', ⟨⟩⟩ | ⟨-, hnamed⟩
    · rw [update_self]
      exact ⟨_, rfl, by rw [hfd']; exact List.mem_singleton_self fd⟩
    · rw [update_of_ne (hold fd' i hnamed).2]
      exact h.named fd' i hnamed
  · dsimp only at hi ⊢
    by_cases hid : i = s.nextId
    · rw [hid, update_self] at hi
      cases hi
      refine ⟨List.nodup_singleton fd, fun fd' hfd' => ?_⟩
      rw [List.mem_singleton.mp hfd', update_self, hid]
    · rw [update_of_ne hid] at hi
      obtain ⟨hnodup, hlisted⟩ := h.listed i sock hi
      refine ⟨hnodup, fun fd' hfd' => ?_⟩
      rw [update_of_ne (hold fd' i (hlisted fd' hfd')).1]
      exact hlisted fd' hfd'
  · dsimp only at hi ⊢
    rw [update_of_ne (by omega)]
    exact h.fresh i (by omega)
  · have hmirrors := h.mirrors i
    unfold State.addrOf at hmirrors ⊢
    dsimp only
    by_cases hid : i = s.nextId
    · rw [hid, hnone] at hmirrors
      rw [hid, update_self]
      exact hmirrors
    · rw [update_of_ne hid]
      exact hmirrors

theorem Inv.sent (t fd : Nat) (dest : SocketAddr) (rest : Option Nat) :
    Inv (s.sent t fd dest rest) := by
  cases rest <;> exact h.goto t _

/-! The sections that only read. -/

theorem Inv.look (t fd : Nat) (server : SocketAddr) : Inv (s.look t fd server) := by
  unfold State.look
  split
  · exact h.goto t _
  · split <;> exact h.goto t _

theorem Inv.sendOn (t fd id : Nat) (bound requested : Option SocketAddr)
    (dest : SocketAddr) (rest : Option Nat) (refused : Bool) (route : Option Sender)
    (segments : Nat) : Inv (s.sendOn t fd id bound requested dest rest refused route segments) := by
  unfold State.sendOn
  dsimp only
  split
  · exact h.goto t _
  split
  · split <;> exact h.goto t _
  split
  · exact h.goto t _
  split
  · exact h.goto t _
  split
  · exact h.sent t fd dest rest
  · exact h.goto t _

theorem Inv.segment (t fd : Nat) (dest : SocketAddr) (rest : Nat) :
    Inv (s.segment t fd dest rest) := by
  unfold State.segment
  split
  · exact h.goto t _
  · split <;> exact h.goto t _

theorem Inv.autobind (t : Nat) (ip : IpAddr) (dest : SocketAddr)
    (rest : Option Nat) (hunbound : ∀ id ∈ s.descriptors fd, s.addrOf id = none) :
    Inv (s.autobind t fd ip dest rest) := by
  obtain ⟨hinv, -⟩ := h.autobindFd ip hunbound
  unfold State.autobind
  generalize s.autobindFd fd ip = found at hinv ⊢
  obtain ⟨addr, s₁⟩ := found
  cases addr with
  | none => exact hinv.goto t _
  | some addr => exact hinv.sent t fd dest rest

end

end Sections

/-! ## Runs -/

theorem Inv.access (h : Inv s) {a : Act} (hkept : Kept s a) :
    Inv (s.access a.thread (s.calls a.thread) a) := by
  cases a <;> simp only [Act.thread] <;> simp only [State.access]
  case socket t fd inet6 v6only =>
    split
    · exact h.socket fd inet6 v6only
    · exact h
  case bind t fd =>
    split
    · split
      · exact h
      · exact h.goto t _
    · exact h
  case bindOn t want conflict =>
    split
    · rename_i fd id want hp
      obtain ⟨hfd, hunbound⟩ := hkept (fd, id) (by rw [hp]; rfl)
      exact (h.bindOn hfd hunbound want conflict).goto t _
    · exact h.goto t _
    · exact h
  case connect t fd server =>
    split
    · exact h.goto t _
    · exact h
  case look t =>
    split
    · exact h.look t _ _
    · exact h
  case connectOn t route =>
    split
    · exact (h.connectOn _ _ _ _ _).goto t _
    · exact h.goto t _
    · exact h
  case disconnect t fd =>
    split
    · exact h.goto t _
    · exact h
  case dissolve t =>
    split
    · exact (h.dissolve _).goto t _
    · exact h
  case send t fd dest =>
    split
    · exact h.goto t _
    · exact h
  case sendOn t refused route segments =>
    split
    · exact h.sendOn t _ _ _ _ _ _ _ _ _
    · exact h
  case autobind t =>
    split
    · rename_i fd ip dest rest hp
      exact h.autobind t ip dest rest (hkept fd (by rw [hp]; rfl))
    · exact h
  case segment t =>
    split
    · exact h.segment t _ _ _
    · exact h
  case dup t fd newfd =>
    split
    · rename_i hdup
      obtain ⟨⟨id, sock⟩, hsock⟩ := Option.isSome_iff_exists.mp hdup.2.1
      exact h.aliasFd (State.sock_eq_some.mp hsock).1 hdup.2.2
    · exact h
  case dupTo t fd newfd =>
    split
    · exact h.dupTo fd newfd
    · exact h
  case close t fd =>
    split
    · exact (h.closeFd fd).1
    · exact h

theorem Inv.step (h : Inv s) {a : Act} (hkept : Kept s a) : Inv (s.step a) := by
  unfold State.step
  split
  · exact h.access hkept
  · exact h

theorem Inv.init (threads : Nat) : Inv { threads } where
  panicked := rfl
  named := nofun
  listed := nofun
  fresh _ _ := rfl
  mirrors _ := rfl

/-- No call has panicked, every descriptor names an open socket that has it, and the table of bound
addresses lists each bound socket once at its address, and nothing else. -/
structure Consistent (s : State) : Prop where
  panicked : s.panicked = false
  named : ∀ fd id, s.descriptors fd = some id →
    ∃ sock, s.sockets id = some sock ∧ fd ∈ sock.descriptors
  mirrors : ∀ id, keysOf s.bound id = (s.addrOf id).toList

theorem Inv.consistent (h : Inv s) : Consistent s := { h with }

/-- **The host's datagram sockets stay consistent** in every state of a run whose steps are all
`Kept`, whether or not calls are in progress. -/
theorem host_sockets_consistent (threads : Nat) (as : List Act)
    (h : Runs.Along State.step Kept { threads } as) :
    Runs.Always State.step Consistent { threads } as := by
  have hstep : ∀ s a, Inv s → Kept s a → Inv (s.step a) := fun s a hs hkept => hs.step hkept
  exact (Runs.always_of_along hstep (Inv.init threads) h).imp fun s hs => hs.consistent

/-- One socket sends first in two segments while a second is bound, duplicated and connected, and
the first descriptor of the second is closed. -/
theorem host_sockets_consistent_run :
    let server : SocketAddr := ⟨false, 1, 7⟩
    let route := some (Sender.host ⟨false, 9⟩)
    let as := [.socket 0 3 false false, .socket 1 4 true false, .send 0 3 server, .bind 1 4,
      .sendOn 0 false route 2, .bindOn 1 (some ⟨true, 0, 0⟩) false, .segment 0, .dup 1 4 5,
      .sendOn 0 false route 1, .connect 1 5 server, .autobind 0, .look 1, .segment 0,
      .connectOn 1 route, .sendOn 0 false route 1, .close 1 4, .segment 0, .disconnect 0 3,
      .dissolve 0]
    Runs.Along State.step Kept { threads := 2 } as ∧
      Runs.Always State.step Consistent { threads := 2 } as ∧
      (as.foldl State.step { threads := 2 }).bound = [(⟨false, 9, 49152⟩, 1)] := by
  intro server route as
  have hkept : Runs.Along State.step Kept { threads := 2 } as := by decide +kernel
  exact ⟨hkept, host_sockets_consistent 2 as hkept, by decide +kernel⟩

/-- A close of the descriptor between the two sections of a `bind`: the second section finds no
socket at it and panics, with the closed socket in the table of bound addresses. -/
theorem bind_panics :
    let s := [.socket 0 3 false false, .bind 0 3, .close 1 3,
      .bindOn 0 (some ⟨false, 0, 5000⟩) false].foldl State.step { threads := 2 }
    s.panicked = true ∧ s.sockets 0 = none ∧
      s.bound = [(⟨false, 0, 5000⟩, 0)] ∧ ¬ Consistent s := by
  intro s
  have hpanicked : s.panicked = true := by decide +kernel
  refine ⟨hpanicked, by decide +kernel, by decide +kernel, fun h => ?_⟩
  have := h.panicked
  rw [hpanicked] at this
  cases this

end Snare.HostUdp
