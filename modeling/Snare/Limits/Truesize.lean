import Snare.Net.RxQueue

/-!
# The fragments of a datagram

A datagram longer than the path's MTU leaves as IP fragments, each received into a buffer of its
own, so a socket is charged the sum of what the fragments' buffers take.

* **`fragmentLoop_eq`**: the loop ends, and its fragments are those of `pieces`, as many of the
  largest size as there are and what is left over.
* **`fragments_fit`**: so they cover the datagram and fit the MTU.
-/

namespace Snare.Net

def ipHeader (v6 : Bool) : Nat := if v6 then 40 + 8 else 20

/-- What one fragment is charged: as the datagram whose packet is as long. -/
def fragmentCharge (v6 : Bool) (skb : Nat × Nat) (fragment : Nat) : Nat :=
  linuxTruesize (if v6 then fragment else fragment - 8) v6 skb

/-- The loop of `linux_truesize_fragmented` as it is written, with the rounds it may take, and the
fragments, which it does not keep. -/
def fragmentLoop (v6 : Bool) (skb : Nat × Nat) (maxFragment : Nat) :
    Nat → (rest total : Nat) → Option (List Nat × Nat)
  | 0, _, _ => none
  | fuel + 1, rest, total =>
    if 0 < rest then do
      let fragment := min rest maxFragment
      let (later, total) ← fragmentLoop v6 skb maxFragment fuel (rest - fragment)
        (total + fragmentCharge v6 skb fragment)
      some (fragment :: later, total)
    else some ([], total)

/-- The MTUs that fragment a datagram: it is longer, and a fragment holds more than its headers. -/
def fragments (len : Nat) (v6 : Bool) (mtu : Nat) : Bool :=
  decide (mtu < (if v6 then 40 else 20) + 8 + len ∧ ipHeader v6 + 8 < mtu)

def pieces (n rest : Nat) : List Nat :=
  List.replicate (rest / n) n ++ if rest % n = 0 then [] else [rest % n]

variable {n : Nat}

theorem pieces_zero : pieces n 0 = [] := by simp [pieces]

theorem pieces_of_pos {rest : Nat} (hn : 0 < n) (hpos : 0 < rest) :
    pieces n rest = min rest n :: pieces n (rest - min rest n) := by
  rcases Nat.lt_or_ge rest n with hlt | hle
  · rw [Nat.min_eq_left hlt.le, Nat.sub_self, pieces_zero, pieces, Nat.div_eq_of_lt hlt,
      Nat.mod_eq_of_lt hlt, if_neg hpos.ne']
    rfl
  · rw [Nat.min_eq_right hle, pieces, pieces, Nat.div_eq_sub_div hn hle, Nat.mod_eq_sub_mod hle]
    rfl

theorem fragmentLoop_eq (v6 : Bool) (skb : Nat × Nat) (hn : 0 < n) {fuel rest : Nat} (total : Nat)
    (hfuel : rest < fuel) :
    fragmentLoop v6 skb n fuel rest total =
      some (pieces n rest, total + ((pieces n rest).map (fragmentCharge v6 skb)).sum) := by
  induction fuel generalizing rest total with
  | zero => omega
  | succ fuel ih =>
    unfold fragmentLoop
    split
    · next hpos =>
      dsimp only
      rw [ih _ (by omega), pieces_of_pos hn hpos, List.map_cons, List.sum_cons, ← Nat.add_assoc]
      rfl
    · obtain rfl : rest = 0 := by omega
      rw [pieces_zero]
      rfl

theorem fragmentsTruesize_eq (v6 : Bool) (skb : Nat × Nat) (hn : 0 < n) (rest : Nat) :
    fragmentsTruesize v6 skb n rest = ((pieces n rest).map (fragmentCharge v6 skb)).sum := by
  fun_induction fragmentsTruesize v6 skb n rest with
  | case1 rest h fragment asDatagram ih =>
    rw [ih, pieces_of_pos hn h.1, List.map_cons, List.sum_cons]
    rfl
  | case2 rest h =>
    obtain rfl : rest = 0 := by omega
    rw [pieces_zero]
    rfl

theorem sum_pieces (n rest : Nat) : (pieces n rest).sum = rest := by
  have hdiv := Nat.div_add_mod' rest n
  unfold pieces
  split
  · simpa [*] using hdiv
  · simpa using hdiv

theorem le_of_mem_pieces {rest f : Nat} (hn : 0 < n) (h : f ∈ pieces n rest) : f ≤ n := by
  rcases List.mem_append.mp h with h | h
  · exact (List.eq_of_mem_replicate h).le
  · split at h
    · cases h
    · exact List.mem_singleton.mp h ▸ (Nat.mod_lt rest hn).le

theorem eq_of_mem_dropLast_pieces {rest f : Nat} (h : f ∈ (pieces n rest).dropLast) : f = n := by
  unfold pieces at h
  split at h
  · rw [List.append_nil] at h
    exact List.eq_of_mem_replicate (List.dropLast_subset _ h)
  · rw [List.dropLast_concat] at h
    exact List.eq_of_mem_replicate h

/-- **A datagram's fragments cover it and fit the MTU.** The loop ends, its fragments add up to the
UDP header and the payload, all but the last are the largest multiple of 8 the MTU has room for,
which is positive, each fits the MTU with its header, and the datagram is charged the sum of their
charges. -/
theorem fragments_fit (len : Nat) (v6 : Bool) (skb : Nat × Nat) {mtu : Nat}
    (hmtu : fragments len v6 mtu = true) :
    let size := (mtu - ipHeader v6) / 8 * 8
    ∃ list : List Nat, list.sum = 8 + len ∧ (0 < size ∧ 8 ∣ size) ∧
      (∀ f ∈ list.dropLast, f = size) ∧ (∀ f ∈ list, ipHeader v6 + f ≤ mtu) ∧
      linuxTruesizeFragmented len v6 skb (some mtu) = (list.map (fragmentCharge v6 skb)).sum ∧
      ∀ fuel, 8 + len < fuel → fragmentLoop v6 skb size fuel (8 + len) 0 =
        some (list, (list.map (fragmentCharge v6 skb)).sum) := by
  intro size
  obtain ⟨-, hsize⟩ := of_decide_eq_true hmtu
  have hpos : 0 < size := by omega
  refine ⟨pieces size (8 + len), sum_pieces _ _, ⟨hpos, Nat.dvd_mul_left 8 _⟩,
    fun f hf => eq_of_mem_dropLast_pieces hf, fun f hf => ?_, ?_, fun fuel hfuel => ?_⟩
  · have hle := le_of_mem_pieces hpos hf
    omega
  · have hfilter : (some mtu).filter (fragments len v6) = some mtu := Option.filter_some_pos hmtu
    unfold linuxTruesizeFragmented
    dsimp only
    split
    next hnone => exact absurd (hfilter.symm.trans hnone) (by simp)
    next hsome =>
      obtain rfl := Option.some.inj (hfilter.symm.trans hsome)
      exact fragmentsTruesize_eq v6 skb hpos _
  · rw [fragmentLoop_eq v6 skb hpos 0 hfuel, Nat.zero_add]

/-- A payload of 3000 bytes over an MTU of 1500. -/
theorem fragments_fit_three : fragments 3000 false 1500 = true ∧
    let size := (1500 - ipHeader false) / 8 * 8
    ∃ list : List Nat, list.sum = 8 + 3000 ∧ (0 < size ∧ 8 ∣ size) ∧
      (∀ f ∈ list.dropLast, f = size) ∧ (∀ f ∈ list, ipHeader false + f ≤ 1500) ∧
      linuxTruesizeFragmented 3000 false (832, 320) (some 1500) =
        (list.map (fragmentCharge false (832, 320))).sum ∧
      ∀ fuel, 8 + 3000 < fuel → fragmentLoop false (832, 320) size fuel (8 + 3000) 0 =
        some (list, (list.map (fragmentCharge false (832, 320))).sum) :=
  ⟨by decide, fragments_fit 3000 false (832, 320) (by decide)⟩

end Snare.Net
