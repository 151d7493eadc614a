import Memra.Server.Session
import Mathlib

/-!
# The yield gate

`memra-lanes`: the lanes by name and by index, the window of interactive step latencies with its
percentiles (`StepStats`), and `LanePolicy::admit`. An instant is a number of nanoseconds; the policy is
part of `Config`. The arithmetic of `f32` is that of the rationals.
-/

namespace Memra

/-- `Lane::parse`: the value of an `x-lane` header. -/
def Lane.parse (v : String) : Option Lane :=
  if v = "interactive" then some interactive
  else if v = "judge" then some judge
  else if v = "harvest" then some harvest
  else none

/-- `Lane::idx`. -/
def Lane.idx : Lane → ℕ
  | interactive => 0
  | judge => 1
  | harvest => 2

/-- `Instant::elapsed`, in milliseconds. -/
def elapsedMs (now since : ℕ) : ℚ := ((now - since : ℕ) : ℚ) / 10 ^ 6

/-- `StepStats`: the samples with their instants, oldest first. -/
structure StepStats where
  window : List (ℕ × ℚ) := []
  windowS : ℚ := 30

namespace StepStats

/-- The number of samples a window is cut to. -/
def capacity : ℕ := 16384

/-- `record`. -/
def record (st : StepStats) (now : ℕ) (ms : ℚ) : StepStats :=
  let window := st.window ++ [(now, ms)]
  { st with window := if capacity < window.length then window.tail else window }

/-- Older than the window. -/
def expired (st : StepStats) (now : ℕ) (x : ℕ × ℚ) : Bool := st.windowS * 1000 < elapsedMs now x.1

/-- `evict`. -/
def evict (st : StepStats) (now : ℕ) : StepStats :=
  { st with window := st.window.dropWhile (st.expired now) }

/-- The position of the percentile `q` among `n` samples, rounded half up. -/
def rank (q : ℚ) (n : ℕ) : ℕ := ⌊q / 100 * ((n - 1 : ℕ) : ℚ) + 1 / 2⌋₊

/-- `p`: the percentile, and the window without what has expired. -/
def p (st : StepStats) (now : ℕ) (q : ℚ) : Option ℚ × StepStats :=
  let st := st.evict now
  let v := (st.window.map (·.2)).mergeSort (· ≤ ·)
  (v[min (rank q v.length) (v.length - 1)]?, st)

end StepStats

/-- `LanePolicy::admit`: a dark lane yields to starvation, then to the interactive p99. -/
def laneAdmit (cfg : Config) (lane : Lane) (p99 : Option ℚ) (starved : Bool) : Bool :=
  if lane = .interactive then true
  else if starved then false
  else p99.all (· < cfg.sloP99Ms * cfg.shedAt lane)

end Memra
