import Snare.Stream.Hosts
import Snare.Stream.Progress

/-!
# A tester's outbox

What a tester sends waits in the outbox until the connection's window takes it. A flush whose write
took nothing looks again whether writing is possible: if it is, the connection counts as dead and
the outbox is discarded. The reader may have opened the window between the two.

* **`land_frame`**: what a look lands uses the room it used before, unless macOS drops it;
* **`canWrite_full`**: so a pipe that takes nothing of a write cannot be written when it is looked
  at;
* **`outbox_kept`**: nothing is lost as long as nothing makes room between a write that took nothing
  and its look;
* **`outbox_dropped`**: a window that opens between the two.
-/

namespace Snare.Tester

open Snare.Stream

/-! ## A full pipe -/

section Full

variable {h : HostPipe}

/-- What is said of a pipe whose bytes move and are none lost. -/
structure Moved (h h' : HostPipe) : Prop where
  os : h'.os = h.os
  used : h'.used = h.used
  writer : h'.writer = h.writer
  readShut : h'.readShut = h.readShut
  sendingClosed : h'.sendingClosed = h.sendingClosed

/-- A flight lands. -/
theorem arrive_moved {flight : Flight} {rest : List Flight}
    (hdrop : h.os = .macos → h.readShut = false)
    (hflights : h.inFlight = flight :: rest) :
    Moved h ({ h with inFlight := rest }.arrive flight.bytes) := by
  have hkeeps : ¬ (h.os = .macos ∧ h.readShut = true) :=
    fun ⟨hos, hshut⟩ => by simp [hdrop hos] at hshut
  unfold HostPipe.arrive
  dsimp only
  by_cases hnil : flight.bytes = []
  · rw [if_pos (.inl hnil)]
    exact ⟨rfl, by simp [Pipe.used, hflights, hnil], rfl, rfl, rfl⟩
  · rw [if_neg (not_or.mpr ⟨hnil, hkeeps⟩)]
    refine ⟨rfl, ?_, rfl, rfl, rfl⟩
    simp only [Pipe.used, hflights, List.length_append, List.map_cons, List.sum_cons]
    omega

theorem landFlights_moved (hdrop : h.os = .macos → h.readShut = false) (lands : Deadline → Bool) :
    Moved h (h.landFlights lands) := by
  fun_induction HostPipe.landFlights h lands with
  | case1 h hflights => exact ⟨rfl, rfl, rfl, rfl, rfl⟩
  | case2 h flight rest hflights hlands ih =>
    obtain ⟨hos, hused, hwriter, hshut, hclosed⟩ := arrive_moved hdrop hflights
    obtain ⟨hos', hused', hwriter', hshut', hclosed'⟩ := ih (by rw [hos, hshut]; exact hdrop)
    exact ⟨hos'.trans hos, hused'.trans hused, hwriter'.trans hwriter, hshut'.trans hshut,
      hclosed'.trans hclosed⟩
  | case3 h flight rest hflights hlands => exact ⟨rfl, rfl, rfl, rfl, rfl⟩

theorem land_frame (hdrop : h.os = .macos → h.readShut = false) (m : Moment) :
    Moved h (h.land m) := by
  have hsame : Moved h h := ⟨rfl, rfl, rfl, rfl, rfl⟩
  unfold HostPipe.land
  split
  · -- on Linux landing also transmits, and what it cuts off the backlog is in flight
    have hset := h.toPipe.land_setting m.clocks
    refine ⟨rfl, ?_, hset.writer, hset.readShut, ?_⟩
    · change (h.toPipe.land m.clocks).used = h.toPipe.used
      rw [Pipe.used_eq, Pipe.used_eq, Pipe.land_content]
    · simp only [HostPipe.sendingClosed, HostPipe.withPipe, hset.closed]
  · split
    · exact landFlights_moved hdrop _
    · exact hsame
  · split
    · exact hsame
    · split
      · exact hsame
      · exact landFlights_moved hdrop _

/-- **A pipe that takes nothing of a write cannot be written**, unless it is closed or what lands is
dropped. -/
theorem canWrite_full {bytes : List UInt8} (hne : bytes ≠ []) (hfull : h.accepts bytes = 0)
    (hopen : h.sendingClosed = false) (hdrop : h.os = .macos → h.readShut = false) (m : Moment) :
    (h.canWrite m bytes.length).2 = false := by
  have hland := land_frame hdrop m
  unfold HostPipe.canWrite
  unfold HostPipe.accepts at hfull
  cases hcap : h.capacity with
  | none =>
    rw [hcap] at hfull
    exact absurd (List.length_eq_zero_iff.mp hfull) hne
  | some cap =>
    rw [hcap] at hfull
    dsimp only
    rw [hland.sendingClosed, hopen, hland.os, hland.used, hland.writer,
      show HostPipe.takes h.os cap h.used bytes.length h.writer.isSome = 0 from hfull]
    rfl

/-- A write that took nothing of a connection that is open found it full. -/
theorem writeAfter_nothing (m : Moment) {bytes : List UInt8} (delay : Nat)
    (hopen : h.sendingClosed = false) (hnone : ∀ n, (h.writeAfter m bytes delay).2 ≠ some (n + 1)) :
    (h.writeAfter m bytes delay).1 = h ∧ h.accepts bytes = 0 := by
  unfold HostPipe.writeAfter at hnone ⊢
  rw [hopen] at hnone ⊢
  cases hn : h.accepts bytes with
  | zero => simp
  | succ n =>
    refine absurd ?_ (hnone n)
    dsimp only
    rw [if_neg (by simp), hn, if_neg (Nat.succ_ne_zero n)]
    split <;> rfl

end Full

/-! ## The outbox -/

structure Peer where
  /-- The connection's pipe from the tester. -/
  conn : HostPipe
  outbox : List UInt8 := []
  closed : Bool := false
  closing : Bool := false
  /-- A flush is between its write, which took nothing, and its look. -/
  looking : Bool := false
  /-- What was sent, and what the connection took. -/
  sent : List UInt8 := []
  taken : List UInt8 := []

inductive Act where
  | send (bytes : List UInt8) (m : Moment) (delay : Nat)
  | flush (m : Moment) (delay : Nat)
  | close (m : Moment) (delay : Nat)
  | look (m : Moment)
  /-- A read of the code under test, a change of the window, or whatever else befalls the pipe. -/
  | pipe (op : Op) (m : Moment)

namespace Peer

def new (os : Os) (via : Option LinkState) (ends : Option Ends) : Peer :=
  { conn := .new os via ends }

variable (p : Peer) (m : Moment) (delay : Nat)

def open_ : Bool := !p.closed && !p.closing

def closeNow : Peer :=
  if p.closed then p
  else
    { p with
      closed := true, closing := false, outbox := [], conn := p.conn.withPipe p.conn.close }

/-- The end of a flush: the close that was asked for, once the outbox is empty. -/
def settle : Peer :=
  if p.closing && p.outbox.isEmpty then closeNow { p with closing := false } else p

def flush : Peer :=
  if p.closed then p
  else if p.outbox = [] then p.settle
  else
    match p.conn.writeAfter m p.outbox delay with
    | (conn, some (n + 1)) =>
      settle { p with
        conn, outbox := p.outbox.drop (n + 1), taken := p.taken ++ p.outbox.take (n + 1) }
    | (conn, _) => { p with conn, looking := true }

def look : Peer :=
  match p.conn.canWrite m p.outbox.length with
  | (conn, false) => { p with conn, looking := false }
  | (conn, true) => settle { p with conn, looking := false, outbox := [] }

def send (bytes : List UInt8) : Peer :=
  if p.open_ then flush { p with outbox := p.outbox ++ bytes, sent := p.sent ++ bytes } m delay
  else p

def close : Peer := if p.closed || p.closing then p else flush { p with closing := true } m delay

/-- The tester's thread does nothing else between the two steps of a flush. -/
def step (p : Peer) : Act → Peer
  | .send bytes m delay => if p.looking then p else p.send m delay bytes
  | .flush m delay => if p.looking then p else p.flush m delay
  | .close m delay => if p.looking then p else p.close m delay
  | .look m => if p.looking then p.look m else p
  | .pipe op m => { p with conn := p.conn.apply m op }

/-- What was taken, followed by the outbox, is what was sent; and a close came after all of it. -/
structure Kept (p : Peer) : Prop where
  inOrder : p.taken ++ p.outbox = p.sent
  closed : p.closed → p.outbox = []

/-- Neither end has closed or reset the connection; and between a write that took nothing and its
look nothing makes room: no step on the pipe does, and the look drops nothing that lands. -/
def Unraced (p : Peer) (a : Act) : Prop :=
  (p.closed = false → p.conn.sendingClosed = false) ∧
    (p.looking →
      match a with
      | .pipe op m => p.conn.accepts p.outbox = 0 → (p.conn.apply m op).accepts p.outbox = 0
      | .look _ => p.conn.os = .macos → p.conn.readShut = false
      | _ => True)

instance (p : Peer) : DecidablePred p.Unraced
  | .pipe .. | .look _ | .send .. | .flush .. | .close .. =>
    inferInstanceAs (Decidable (_ ∧ (_ → _)))

/-- A flush that is to look has bytes left, and a pipe that takes none of them. -/
structure Inv (p : Peer) : Prop where
  kept : p.Kept
  looks : p.looking → p.outbox ≠ [] ∧ p.closed = false ∧ p.conn.accepts p.outbox = 0

variable {p}

theorem Kept.settle (h : p.Kept) (hlooking : p.looking = false) : p.settle.Inv := by
  unfold Peer.settle closeNow
  split
  · rename_i hclosing
    have hempty : p.outbox = [] := List.isEmpty_iff.mp (Bool.and_eq_true_iff.mp hclosing).2
    dsimp only
    split
    · exact ⟨{ h with }, by simp [hlooking]⟩
    · exact ⟨⟨hempty ▸ h.inOrder, fun _ => rfl⟩, by simp [hlooking]⟩
  · exact ⟨h, by simp [hlooking]⟩

/-- A flush takes from the outbox, or finds the pipe full and is to look. -/
theorem Kept.flush (h : p.Kept) (hlooking : p.looking = false)
    (hopen : p.closed = false → p.conn.sendingClosed = false) : (p.flush m delay).Inv := by
  unfold Peer.flush
  split
  · exact ⟨h, by simp [hlooking]⟩
  rename_i hclosed
  have hclosed : p.closed = false := by simpa using hclosed
  split
  · exact h.settle hlooking
  rename_i hne
  split
  · -- some of the outbox was taken
    rename_i conn n _
    refine Kept.settle ⟨?_, fun hclosed' => absurd hclosed' (by simp [hclosed])⟩ hlooking
    dsimp only
    rw [List.append_assoc, List.take_append_drop, h.inOrder]
  · -- nothing was: the pipe is as it was, and full
    rename_i conn _ hnothing heq
    obtain ⟨hconn, hfull⟩ := writeAfter_nothing m delay (hopen hclosed)
      fun n hn => hnothing n (by rw [← hn, heq])
    rw [heq] at hconn
    obtain rfl : conn = p.conn := hconn
    exact ⟨{ h with }, fun _ => ⟨hne, hclosed, hfull⟩⟩

theorem Inv.step (h : p.Inv) {a : Act} (hunraced : p.Unraced a) : (p.step a).Inv := by
  obtain ⟨hopen, hroom⟩ := hunraced
  cases a with
  | send bytes m delay =>
    dsimp only [Peer.step, send]
    split
    · exact h
    rename_i hlooking
    split
    · -- the bytes go behind the outbox, and are flushed with it
      rename_i hsends
      refine Kept.flush m delay ⟨?_, fun hclosed => ?_⟩ (by simpa using hlooking) hopen
      · dsimp only
        rw [← List.append_assoc, h.kept.inOrder]
      · simp [open_, show p.closed = true from hclosed] at hsends
    · exact h
  | flush m delay =>
    dsimp only [Peer.step]
    split
    · exact h
    · rename_i hlooking
      exact h.kept.flush m delay (by simpa using hlooking) hopen
  | close m delay =>
    dsimp only [Peer.step, Peer.close]
    split
    · exact h
    rename_i hlooking
    split
    · exact h
    · -- marked as closing, it closes once a flush leaves nothing
      exact Kept.flush m delay ⟨h.kept.inOrder, h.kept.closed⟩ (by simpa using hlooking) hopen
  | look m =>
    dsimp only [Peer.step, look]
    split
    · -- the pipe is still full, so the outbox stays
      rename_i hlooking
      obtain ⟨hne, hclosed, hfull⟩ := h.looks hlooking
      have hcannot := canWrite_full hne hfull (hopen hclosed) (hroom hlooking) m
      split
      · exact ⟨⟨h.kept.inOrder, h.kept.closed⟩, nofun⟩
      · rename_i conn hcan
        simp [hcan] at hcannot
    · exact h
  | pipe op m =>
    -- between a write and its look the step leaves the pipe full
    refine ⟨⟨h.kept.inOrder, h.kept.closed⟩, fun hlooking => ?_⟩
    obtain ⟨hne, hclosed, hfull⟩ := h.looks hlooking
    exact ⟨hne, hclosed, hroom hlooking hfull⟩

/-- **A tester's bytes are kept**: as long as neither end closes or resets the connection, what it
took followed by the outbox is what was sent, and a close comes after all of it, along every run in
which nothing makes room in the pipe between a write that took nothing and the look after it. -/
theorem outbox_kept (os : Os) (via : Option LinkState) (ends : Option Ends) (as : List Act)
    (h : Runs.Along step Unraced (new os via ends) as) :
    Runs.Always step Kept (new os via ends) as :=
  (Runs.always_of_along (fun _ _ hinv hunraced => Inv.step hinv hunraced)
    ⟨⟨rfl, fun _ => rfl⟩, fun hlooking => absurd hlooking Bool.false_ne_true⟩ h).imp
      fun _ hinv => hinv.kept

/-- A moment at which the clocks stand still. -/
def still : Moment := ⟨⟨none, 0⟩, id⟩

/-- A window of 2 takes two bytes of three; the close waits for the third, and a look at a full pipe
keeps it until a read has made room. -/
def sendThenClose : List Act :=
  [.send [1, 2, 3] still 0, .close still 0, .pipe (.peek 1) still, .look still,
    .pipe (.read 2) still, .flush still 0]

theorem outbox_kept_closing :
    let p := new .linux none (some { limits := {}, recvWindow := some 2 })
    Runs.Always step Kept p sendThenClose ∧
      (sendThenClose.foldl step p).taken = [1, 2, 3] ∧
      (sendThenClose.foldl step p).closed = true := by
  exact ⟨outbox_kept _ _ _ sendThenClose (by decide +kernel), by decide +kernel, by decide +kernel⟩

/-- A window of 0 takes nothing of a byte; it is lifted before the look, and the byte is gone. -/
theorem outbox_dropped :
    let p := List.foldl step (new .linux none (some { limits := {}, recvWindow := some 0 }))
      [.send [7] still 0, .pipe (.recvWindow none) still, .look still]
    p.sent = [7] ∧ p.taken = [] ∧ p.outbox = [] ∧ p.conn.sendingClosed = false := by
  decide

end Peer

end Snare.Tester
