import Mathlib

/-!
# The checksums of captured packets

The capture writes each packet with its IP header and the Internet checksums a host would send: the
sum of the 16-bit words with the carries added back in, complemented.

* **`total_eq`**: the loop over the parts, a byte left over from one carried into the next, adds up
  the words of their concatenation (`wordSum`).
* **`Completes.onesSum_eq`**: the sum over bytes that hold their own checksum is `0xffff`.
* **`checksums_verify`**: so the packets in the file verify, where they are not cut off at the
  longest frame the file takes (`long_frame_cut_off`).
-/

namespace Snare.Capture

open List (append_assoc flatten_singleton length_append length_take replicate)

/-! ## The checksum -/

/-- One byte: the sum, and a byte that waits for the other of its word. -/
def step (s : Nat × Option UInt8) (b : UInt8) : Nat × Option UInt8 :=
  match s.2 with
  | some hi => (s.1 + (hi.toNat * 256 + b.toNat), none)
  | none => (s.1, some b)

def finish (s : Nat × Option UInt8) : Nat :=
  match s.2 with
  | some hi => s.1 + hi.toNat * 256
  | none => s.1

def total (parts : List (List UInt8)) : Nat :=
  finish (parts.foldl (fun s part => part.foldl step s) (0, none))

/-- `while sum >> 16 != 0`. -/
def foldCarry (sum : Nat) : Nat :=
  if sum / 65536 = 0 then sum else foldCarry (sum % 65536 + sum / 65536)
termination_by sum
decreasing_by omega

def checksum (parts : List (List UInt8)) : Nat := 65535 - foldCarry (total parts)

def onesSum (bytes : List UInt8) : Nat := foldCarry (total [bytes])

/-! ## Packets -/

inductive IpAddr where
  | v4 (octets : Vector UInt8 4)
  | v6 (octets : Vector UInt8 16)

def mapped : Vector UInt8 12 := #v[0, 0, 0, 0, 0, 0, 0, 0, 0, 0, 255, 255]

def asV6 : IpAddr → Vector UInt8 16
  | .v4 octets => mapped ++ octets
  | .v6 octets => octets

def unmapped : IpAddr → IpAddr
  | .v4 octets => .v4 octets
  | .v6 octets => if octets.take 12 = mapped then .v4 (octets.drop 12) else .v6 octets

def wirePair (a b : IpAddr) : IpAddr × IpAddr :=
  match unmapped a, unmapped b with
  | .v4 a, .v4 b => (.v4 a, .v4 b)
  | a, b => (.v6 (asV6 a), .v6 (asV6 b))

def beBytes (v : Nat) : List UInt8 := [.ofNat (v / 256), .ofNat v]

def written (buf : List UInt8) (at_ v : Nat) : List UInt8 :=
  buf.take at_ ++ beBytes v ++ buf.drop (at_ + 2)

/-- `write_u16`, which panics past the end. -/
def writeU16 (buf : List UInt8) (at_ v : Nat) : Option (List UInt8) :=
  if at_ + 2 ≤ buf.length then some (written buf at_ v) else none

variable (src dst : IpAddr) (proto : UInt8) (len : Nat)

/-- The pseudo-header of `l4_checksum`. -/
def pseudo : List UInt8 :=
  match src, dst with
  | .v4 s, .v4 d => s.toList ++ d.toList ++ [0, proto] ++ beBytes len
  | s, d => (asV6 s).toList ++ (asV6 d).toList ++ (beBytes (len / 65536) ++ beBytes len) ++
      [0, 0, 0, proto]

variable (l4 : List UInt8)

def l4Checksum (udp : Bool) : Nat :=
  let sum := checksum [pseudo src dst proto l4.length, l4]
  if udp ∧ sum = 0 then 65535 else sum

variable (ttl : UInt8)

def ipv4Header (src dst : Vector UInt8 4) (proto : UInt8) (payload id : Nat) :
    Option (List UInt8) :=
  let h := [0x45, 0] ++ beBytes (min (20 + payload) 65535) ++ beBytes id ++ beBytes 0x4000 ++
    [ttl, proto, 0, 0] ++ src.toList ++ dst.toList
  writeU16 h 10 (checksum [h])

def ipv6Header (src dst : Vector UInt8 16) (proto : UInt8) (payload : Nat) :
    List UInt8 :=
  [0x60, 0, 0, 0] ++ beBytes (min payload 65535) ++ [proto, ttl] ++ src.toList ++ dst.toList

def PROTO_ICMP : UInt8 := 1
def PROTO_TCP : UInt8 := 6
def PROTO_UDP : UInt8 := 17
def PROTO_ICMPV6 : UInt8 := 58

/-- `csum_at`: where a protocol's header has its checksum. -/
def csumAt : Option Nat :=
  if proto = PROTO_TCP then some 16
  else if proto = PROTO_UDP then some 6
  else if proto = PROTO_ICMP ∨ proto = PROTO_ICMPV6 then some 2
  else none

/-- What an ICMP message over IPv4 is summed with is nothing, and any other segment its
pseudo-header. -/
def covered : List UInt8 :=
  match src with
  | .v4 _ => if proto = PROTO_ICMP then [] else pseudo src dst proto len
  | .v6 _ => pseudo src dst proto len

/-- The segment with its checksum, between the addresses on the wire. -/
def fillIn : Option (List UInt8) :=
  match csumAt proto with
  | none => some l4
  | some off =>
    writeU16 l4 off
      (match src with
      | .v4 _ =>
        if proto = PROTO_ICMP then checksum
          [l4] else l4Checksum src dst proto l4 (proto = PROTO_UDP)
      | .v6 _ => l4Checksum src dst proto l4 (proto = PROTO_UDP))

def ipHeader (src dst : IpAddr) (proto : UInt8) (payload id : Nat) :
    Option (List UInt8 × List UInt8) :=
  match src, dst with
  | .v4 s, .v4 d => (ipv4Header ttl s d proto payload id).map ([0x08, 0x00], ·)
  | s, d => some ([0x86, 0xdd], ipv6Header ttl (asV6 s) (asV6 d) proto payload)

def MAX_CAPLEN : Nat := 65535

/-- `ip_frame`: the bytes of the frame and its length before it was cut off. -/
def ipFrame (dstMac srcMac : Vector UInt8 6) (src dst : IpAddr) (proto : UInt8)
    (l4 : List UInt8) (id : Nat) : Option (List UInt8 × Nat) := do
  let (s, d) := wirePair src dst
  let l4 ← fillIn s d proto l4
  let (ethertype, header) ← ipHeader ttl s d proto l4.length id
  let bytes := dstMac.toList ++ srcMac.toList ++ ethertype ++ header ++ l4
  some (bytes.take MAX_CAPLEN, bytes.length)

/-! ## Sums of words -/

/-- The sum of the big-endian 16-bit words of some bytes, with a zero byte after an odd one. -/
def wordSum : List UInt8 → Nat
  | [] => 0
  | [hi] => hi.toNat * 256
  | hi :: lo :: rest => hi.toNat * 256 + lo.toNat + wordSum rest

theorem finish_foldl (sum : Nat) (bytes : List UInt8) :
    finish (bytes.foldl step (sum, none)) = sum + wordSum bytes := by
  induction bytes using wordSum.induct generalizing sum with
  | case1 => rfl
  | case2 hi => rfl
  | case3 hi lo rest ih =>
    rw [wordSum, ← Nat.add_assoc]
    exact ih _

/-- **The parts are summed as one.** -/
theorem total_eq (parts : List (List UInt8)) : total parts = wordSum parts.flatten := by
  rw [total, ← List.foldl_flatten, finish_foldl, Nat.zero_add]

theorem wordSum_append {xs : List UInt8} (heven : xs.length % 2 = 0) (ys : List UInt8) :
    wordSum (xs ++ ys) = wordSum xs + wordSum ys := by
  induction xs using wordSum.induct with
  | case1 => exact (Nat.zero_add _).symm
  | case2 hi => simp at heven
  | case3 hi lo rest ih =>
    have heven' : rest.length % 2 = 0 := by
      simp only [List.length_cons] at heven
      omega
    rw [List.cons_append, List.cons_append, wordSum, wordSum, ih heven']
    omega

theorem wordSum_beBytes {v : Nat} (hv : v < 65536) : wordSum (beBytes v) = v := by
  simp only [beBytes, wordSum, UInt8.toNat_ofNat']
  omega

theorem foldCarry_spec (sum : Nat) :
    foldCarry sum % 65535 = sum % 65535 ∧ foldCarry sum < 65536 ∧
      (0 < sum → 0 < foldCarry sum) := by
  induction sum using foldCarry.induct with
  | case1 sum hzero =>
    rw [foldCarry, if_pos hzero]
    omega
  | case2 sum hcarry ih =>
    rw [foldCarry, if_neg hcarry]
    omega

/-- With the value the words make a positive multiple of `0xffff`. -/
structure Completes (v : Nat) (bytes : List UInt8) : Prop where
  lt : v < 65536
  pos : 0 < v + wordSum bytes
  mod : (v + wordSum bytes) % 65535 = 0

theorem Completes.onesSum_eq {before after : List UInt8} {v : Nat} (heven : before.length % 2 = 0)
    (h : Completes v (before ++ [0, 0] ++ after)) :
    onesSum (before ++ beBytes v ++ after) = 65535 := by
  have hsum : wordSum (before ++ beBytes v ++ after) = v + wordSum (before ++ [0, 0] ++ after) := by
    rw [append_assoc, append_assoc, wordSum_append heven, wordSum_append heven,
      wordSum_append (by simp [beBytes]), wordSum_append (by simp), wordSum_beBytes h.lt]
    show _ + (v + _) = v + (_ + (0 + _))
    omega
  have hfold := foldCarry_spec (v + wordSum (before ++ [0, 0] ++ after))
  have hpos := h.pos
  have hmod := h.mod
  rw [onesSum, total_eq, flatten_singleton, hsum]
  omega

theorem checksum_completes (parts : List (List UInt8)) :
    Completes (checksum parts) parts.flatten := by
  obtain ⟨hmod, hlt, hpos⟩ := foldCarry_spec (wordSum parts.flatten)
  rw [checksum, total_eq]
  refine ⟨by omega, ?_, by omega⟩
  by_cases hzero : wordSum parts.flatten = 0
  · rw [hzero, foldCarry, if_pos rfl]
    decide
  · omega

/-! ## The packets verify -/

theorem length_written {buf : List UInt8} {at_ : Nat} (h : at_ + 2 ≤ buf.length) (v : Nat) :
    (written buf at_ v).length = buf.length := by
  simp only [written, length_append, length_take, List.length_drop, beBytes,
    List.length_cons, List.length_nil]
  omega

theorem Completes.onesSum_written {before l4 : List UInt8} {off v : Nat}
    (h : Completes v (before ++ l4))
    (hbefore : before.length % 2 = 0) (heven : off % 2 = 0) (hlen : off + 2 ≤ l4.length)
    (hzero : (l4.drop off).take 2 = [0, 0]) : onesSum (before ++ written l4 off v) = 65535 := by
  have hsplit : l4 = l4.take off ++ [0, 0] ++ l4.drop (off + 2) := by
    rw [← hzero, ← List.drop_drop, append_assoc, List.take_append_drop, List.take_append_drop]
  have hlength : (before ++ l4.take off).length % 2 = 0 := by
    rw [length_append, length_take]
    omega
  rw [hsplit, ← append_assoc, ← append_assoc] at h
  rw [written, ← append_assoc, ← append_assoc]
  exact h.onesSum_eq hlength

theorem even_length_pseudo : (pseudo src dst proto len).length % 2 = 0 := by
  cases src <;> cases dst <;> simp [pseudo, beBytes]

theorem even_csumAt {proto : UInt8} {off : Nat} (h : csumAt proto = some off) : off % 2 = 0 := by
  unfold csumAt at h
  split_ifs at h <;> cases h <;> rfl

theorem l4Checksum_spec (udp : Bool) :
    Completes (l4Checksum src dst proto l4 udp) (pseudo src dst proto l4.length ++ l4) ∧
      (udp = true → l4Checksum src dst proto l4 udp ≠ 0) := by
  have h := checksum_completes [pseudo src dst proto l4.length, l4]
  rw [show [pseudo src dst proto l4.length, l4].flatten = pseudo src dst proto l4.length ++ l4 by
    simp] at h
  unfold l4Checksum
  dsimp only
  split
  · next hzero => exact ⟨⟨by decide, by omega, by have := h.mod; omega⟩, fun _ => by decide⟩
  · next hnot => exact ⟨h, fun hudp hzero => hnot ⟨hudp, hzero⟩⟩

theorem exists_fillIn {proto : UInt8} {l4 : List UInt8} {off : Nat}
    (hoff : csumAt proto = some off) (hlen : off + 2 ≤ l4.length)
    (hzero : (l4.drop off).take 2 = [0, 0]) :
    ∃ v, fillIn src dst proto l4 = some (written l4 off v) ∧ (proto = PROTO_UDP → v ≠ 0) ∧
      onesSum (covered src dst proto l4.length ++ written l4 off v) = 65535 := by
  have heven := even_csumAt hoff
  obtain ⟨hcompletes, hudp⟩ := l4Checksum_spec src dst proto l4 (proto = PROTO_UDP)
  have hsum := hcompletes.onesSum_written (even_length_pseudo ..) heven hlen hzero
  replace hudp := fun h => hudp (decide_eq_true h)
  unfold fillIn covered
  rw [hoff]
  cases src with
  | v6 s => exact ⟨_, if_pos hlen, hudp, hsum⟩
  | v4 s =>
    dsimp only
    split
    case isFalse => exact ⟨_, if_pos hlen, hudp, hsum⟩
    next hicmp =>
    have hicmpSum := checksum_completes [l4]
    rw [flatten_singleton] at hicmpSum
    exact ⟨_, if_pos hlen, fun h => absurd (hicmp.symm.trans h) (by decide),
      @Completes.onesSum_written [] l4 off _ hicmpSum rfl heven hlen hzero⟩

theorem exists_ipv4Header (src dst : Vector UInt8 4) (proto : UInt8) (payload id : Nat) :
    ∃ header, ipv4Header ttl src dst proto payload id = some header ∧ header.length = 20 ∧
      onesSum header = 65535 := by
  have h := checksum_completes [[0x45, 0] ++ beBytes (min (20 + payload) 65535) ++ beBytes id ++
    beBytes 0x4000 ++ [ttl, proto, 0, 0] ++ src.toList ++ dst.toList]
  rw [flatten_singleton] at h
  unfold ipv4Header
  refine ⟨_, if_pos (by simp [beBytes]), (length_written (by simp [beBytes]) _).trans ?_,
    @Completes.onesSum_written [] _ 10 _ h rfl rfl (by simp [beBytes]) rfl⟩
  simp [beBytes]

def headerLen : IpAddr → Nat
  | .v4 _ => 20
  | .v6 _ => 40

theorem wirePair_family (a b : IpAddr) :
    (∃ s d, wirePair a b = (.v4 s, .v4 d)) ∨ ∃ s d, wirePair a b = (.v6 s, .v6 d) := by
  unfold wirePair
  split
  · exact .inl ⟨_, _, rfl⟩
  · exact .inr ⟨_, _, rfl⟩

theorem exists_frame (dstMac srcMac : Vector UInt8 6) (src dst : IpAddr) {proto : UInt8}
    {l4 : List UInt8} {off : Nat} (id : Nat) (hoff : csumAt proto = some off)
    (hlen : off + 2 ≤ l4.length) (hzero : (l4.drop off).take 2 = [0, 0]) : ∃ front v,
      ipFrame ttl dstMac srcMac src dst proto l4 id =
        some ((front ++ written l4 off v).take MAX_CAPLEN,
        14 + headerLen (wirePair src dst).1 + l4.length) ∧
      (∃ ethertype header, front = dstMac.toList ++ srcMac.toList ++ ethertype ++ header ∧
        ∀ s, (wirePair src dst).1 = .v4 s → onesSum header = 65535) ∧
      front.length = 14 + headerLen (wirePair src dst).1 ∧ (proto = PROTO_UDP → v ≠ 0) ∧
      onesSum (covered (wirePair src dst).1 (wirePair src dst).2 proto l4.length ++
        written l4 off v) = 65535 := by
  obtain ⟨v, hfill, hudp, hsum⟩ :=
    exists_fillIn (wirePair src dst).1 (wirePair src dst).2 hoff hlen hzero
  obtain ⟨ethertype, header, hheader, hfront, hverify⟩ : ∃ ethertype header,
      ipHeader ttl (wirePair src dst).1 (wirePair src dst).2 proto l4.length id =
        some (ethertype, header) ∧
      ethertype.length + header.length = 2 + headerLen (wirePair src dst).1 ∧
      ∀ s, (wirePair src dst).1 = .v4 s → onesSum header = 65535 := by
    rcases wirePair_family src dst with ⟨s, d, hpair⟩ | ⟨s, d, hpair⟩
    · obtain ⟨header, hheader, hlen, hverify⟩ := exists_ipv4Header ttl s d proto l4.length id
      rw [hpair]
      exact ⟨[0x08, 0x00], header, by rw [ipHeader, hheader]; rfl, by rw [hlen]; rfl,
        fun _ _ => hverify⟩
    · rw [hpair]
      refine ⟨_, _, rfl, ?_, fun _ h => nomatch h⟩
      simp [ipv6Header, beBytes, asV6, headerLen]
  have hlength : (dstMac.toList ++ srcMac.toList ++ ethertype ++ header).length =
      14 + headerLen (wirePair src dst).1 := by
    simp only [length_append, Vector.length_toList]
    omega
  refine ⟨_, v, ?_, ⟨ethertype, header, rfl, hverify⟩, hlength, hudp, hsum⟩
  unfold ipFrame
  dsimp only
  rw [hfill]
  show (ipHeader ttl _ _ proto (written l4 off v).length id >>= _) = _
  rw [length_written hlen, hheader, ← hlength, ← length_written hlen v, ← length_append]
  rfl

/-- **Captured packets carry valid checksums.** A TCP, UDP or ICMP segment in a frame that the file
takes whole sums with what covers it to `0xffff`, a UDP checksum is not written as 0, and an IPv4
header sums to `0xffff`; and the checksum of parts is that of their concatenation. -/
theorem checksums_verify (ttl : UInt8) (dstMac srcMac : Vector UInt8 6) (src dst : IpAddr)
    {proto : UInt8} {l4 : List UInt8} {off : Nat} (id : Nat) (hoff : csumAt proto = some off)
    (hlen : off + 2 ≤ l4.length) (hzero : (l4.drop off).take 2 = [0, 0])
    (hfits : 14 + headerLen (wirePair src dst).1 + l4.length ≤ MAX_CAPLEN) : (∃ ethertype header v,
      ipFrame ttl dstMac srcMac src dst proto l4 id =
        some (dstMac.toList ++ srcMac.toList ++ ethertype ++ header ++ written l4 off v,
          14 + headerLen (wirePair src dst).1 + l4.length) ∧ (proto = PROTO_UDP → v ≠ 0) ∧
      onesSum (covered (wirePair src dst).1 (wirePair src dst).2 proto l4.length ++
        written l4 off v) = 65535 ∧ ∀ s, (wirePair src dst).1 = .v4 s → onesSum header = 65535) ∧
    ∀ parts, checksum parts = checksum [parts.flatten] := by
  refine ⟨?_, fun parts => by rw [checksum, checksum, total_eq, total_eq, flatten_singleton]⟩
  obtain ⟨front, v, hframe, ⟨ethertype, header, rfl, hverify⟩, hfront, hudp, hsum⟩ :=
    exists_frame ttl dstMac srcMac src dst id hoff hlen hzero
  rw [List.take_of_length_le] at hframe
  · exact ⟨ethertype, header, v, hframe, hudp, hsum, hverify⟩
  · rwa [length_append, hfront, length_written hlen]

/-- A UDP segment from port 53 to port 1024 with a payload of three bytes. -/
def oddUdp : List UInt8 := [0, 53, 4, 0, 0, 11, 0, 0, 1, 2, 3]

theorem checksums_verify_udp : (∃ ethertype header v,
      ipFrame 64 (.replicate 6 0) (.replicate 6 0) (.v4 (.replicate 4 1)) (.v4 (.replicate 4 2))
          PROTO_UDP oddUdp 0 =
        some ((Vector.replicate 6 0).toList ++ (Vector.replicate 6 0).toList ++ ethertype ++
          header ++ written oddUdp 6 v, 14 + 20 + 11) ∧ (PROTO_UDP = PROTO_UDP → v ≠ 0) ∧
      onesSum (covered (.v4 (.replicate 4 1)) (.v4 (.replicate 4 2)) PROTO_UDP 11 ++
        written oddUdp 6 v) = 65535 ∧
      ∀ s, IpAddr.v4 (.replicate 4 1) = .v4 s → onesSum header = 65535) ∧
    ∀ parts, checksum parts = checksum [parts.flatten] :=
  checksums_verify 64 (.replicate 6 0) (.replicate 6 0) (.v4 (.replicate 4 1))
    (.v4 (.replicate 4 2)) 0 (by decide) (by decide) (by decide) (by decide)

/-! ## A frame that is cut off -/

theorem wordSum_append_odd {xs : List UInt8} (hodd : xs.length % 2 = 1) (y : UInt8)
    (ys : List UInt8) : wordSum (xs ++ y :: ys) = wordSum xs + y.toNat + wordSum ys := by
  induction xs using wordSum.induct with
  | case1 => simp at hodd
  | case2 hi => rfl
  | case3 hi lo rest ih =>
    have hodd' : rest.length % 2 = 1 := by
      simp only [List.length_cons] at hodd
      omega
    rw [List.cons_append, List.cons_append, wordSum, wordSum, ih hodd']
    omega

theorem onesSum_ne_of_cut {xs ys : List UInt8} {y : UInt8} (hodd : xs.length % 2 = 1)
    (hsum : onesSum (xs ++ y :: ys) = 65535) (hcut : (y.toNat + wordSum ys) % 65535 ≠ 0) :
    onesSum xs ≠ 65535 := by
  intro hkept
  have hwhole := (foldCarry_spec (total [xs ++ y :: ys])).1
  have hpart := (foldCarry_spec (total [xs])).1
  rw [← onesSum, hsum, total_eq, flatten_singleton, wordSum_append_odd hodd] at hwhole
  rw [← onesSum, hkept, total_eq, flatten_singleton] at hpart
  omega

/-- **The longest datagram is cut off.** The UDP segment of 65515 bytes, the longest an IPv4 packet
holds, is 14 bytes longer in its frame than the file takes; without them it does not verify. -/
theorem long_frame_cut_off :
    ∃ bytes, ipFrame 64 (.replicate 6 0) (.replicate 6 0) (.v4 (.replicate 4 1))
      (.v4 (.replicate 4 2))
        PROTO_UDP (replicate 65514 0 ++ [1]) 0 = some (bytes, 65549) ∧ bytes.length = 65535 ∧
      onesSum (covered (.v4 (.replicate 4 1)) (.v4 (.replicate 4 2)) PROTO_UDP 65515 ++
        bytes.drop 34) ≠ 65535 := by
  have hlength : (replicate 65514 (0 : UInt8) ++ [1]).length = 65515 := by
    rw [length_append, List.length_replicate, List.length_singleton]
  have hzero : ((replicate 65514 (0 : UInt8) ++ [1]).drop 6).take 2 = [0, 0] := by
    rfl
  have hdrop : (replicate 65514 (0 : UInt8) ++ [1]).drop 65501 = 0 :: (.replicate 12 0 ++ [1]) := by
    rw [List.drop_append_of_le_length (by rw [List.length_replicate]; omega), List.drop_replicate]
    rfl
  generalize replicate 65514 (0 : UInt8) ++ [1] = l4 at hlength hzero hdrop ⊢
  obtain ⟨front, v, hframe, -, hfront, -, hsum⟩ :=
    @exists_frame 64 (.replicate 6 0) (.replicate 6 0) (.v4 (.replicate 4 1)) (.v4 (.replicate 4 2))
      PROTO_UDP l4 6 0 (by decide) (by omega) hzero
  replace hfront : front.length = 34 := hfront
  have hfilled := (length_written (show 6 + 2 ≤ l4.length by omega) v).trans hlength
  -- 65501 bytes of the segment are kept, and what is cut off is the tail of the segment
  have htail : (written l4 6 v).drop 65501 = 0 :: (.replicate 12 0 ++ [1]) := by
    have hhead : (l4.take 6 ++ beBytes v).length = 8 := by
      rw [length_append, length_take, hlength]
      rfl
    rw [written, ← hdrop, List.drop_append, hhead, List.drop_drop,
      List.drop_eq_nil_of_le (by omega), List.nil_append]
  have hkept : ((front ++ written l4 6 v).take MAX_CAPLEN).drop 34 =
      (written l4 6 v).take 65501 := by
    rw [List.take_append, List.take_of_length_le (by rw [hfront]; decide), hfront, ← hfront,
      List.drop_left, hfront]
    rfl
  refine ⟨_, by rw [hframe, hlength]; rfl, ?_, ?_⟩
  · rw [length_take, length_append, hfront, hfilled]
    rfl
  · rw [hlength, ← List.take_append_drop 65501 (written l4 6 v), htail, ← append_assoc] at hsum
    rw [hkept]
    refine onesSum_ne_of_cut ?_ hsum (by decide)
    rw [length_append, length_take, hfilled]
    decide

end Snare.Capture
