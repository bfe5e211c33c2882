import TermRewriting.Types.Atom
import Mathlib

/-! The probabilistic edit distance `PString` (`types/trs.rs`). The source computes in `f64`;
the model reads every probability over a field `R`. `usize` arithmetic is that of a release
build, which wraps modulo `2^64`; where a debug build panics instead is recorded beside it
(`boundedUnderflow`, `boundedOverflow`, and the bounds of `normalizer_eq_of_prod_lt` and
`insertionCounts_exact`). -/
namespace TermRewriting

/-- A distribution over incorrect substitutions. -/
inductive PStringIncorrect (R : Type) where
  | constant (p : R)
  | bounded (low high : Nat) (weight : R)

/-- `PStringDist`: the parameters of the edit model. -/
structure PStringDist (R : Type) where
  beta : R
  pInsertion : R
  pDeletion : R
  pCorrectSub : R
  pIncorrectSub : PStringIncorrect R

/-- `PString`: the two strings, their lengths, the distribution and the memo table of
`query`, keyed by `(t, d, s)`. -/
structure PString (R : Type) where
  cache : List ((Nat × Nat × Nat) × R)
  m : Nat
  n : Nat
  x : List Atom
  y : List Atom
  dist : PStringDist R
  sig : Signature

/-- `str::parse::<usize>`: an optional `+`, then decimal digits, below `2^64`. -/
def parseUsize (s : String) : Option Nat :=
  let ds := match s.toList with
    | '+' :: ds => ds
    | ds => ds
  if ds ≠ [] ∧ ds.all Char.isDigit then
    let n := ds.foldl (fun n c => 10 * n + (c.toNat - '0'.toNat)) 0
    if n < 2 ^ 64 then some n else none
  else none

/-- `a + b` on `usize` in a release build: the sum modulo `2^64`. A debug build panics where the
sum reaches `2^64`. -/
def wrappingAdd (a b : Nat) : Nat := (a + b) % 2 ^ 64

/-- `a - b` on `usize` in a release build: the difference modulo `2^64`. A debug build panics
where `b > a`. -/
def wrappingSub (a b : Nat) : Nat := (a + (2 ^ 64 - b % 2 ^ 64)) % 2 ^ 64

theorem wrappingAdd_of_lt {a b : Nat} (h : a + b < 2 ^ 64) : wrappingAdd a b = a + b :=
  Nat.mod_eq_of_lt h

theorem wrappingSub_of_le {a b : Nat} (ha : a < 2 ^ 64) (h : b ≤ a) : wrappingSub a b = a - b := by
  unfold wrappingSub
  omega

/-- `t as i32`: the low 32 bits of `t`, read in two's complement. -/
def asI32 (t : Nat) : Int :=
  if t % 2 ^ 32 < 2 ^ 31 then (t % 2 ^ 32 : Nat) else (t % 2 ^ 32 : Nat) - 2 ^ 32

namespace PString

/-- The `peak` of the `Bounded` branch of `p_sub` for the numeral `n_x`: `high + 1 - low` at
either bound, else `(high + 1 - n_x).max(n_x + 1 - low)`, in the release build's `usize`. -/
def boundedPeak (low high nx : Nat) : Nat :=
  if nx = low ∨ nx = high then wrappingSub (wrappingAdd high 1) low
  else max (wrappingSub (wrappingAdd high 1) nx) (wrappingSub (wrappingAdd nx 1) low)

/-- `mass_y = peak - d_xy`, the unnormalised weight of substituting `n_y` for `n_x`. -/
def boundedMass (low high nx ny : Nat) : Nat :=
  wrappingSub (boundedPeak low high nx) (if nx > ny then nx - ny else ny - nx)

/-- The normaliser `z = (1..peak).sum() + (1..peak).rev().take(high - n_x).sum()`; each
`Iterator::sum` and the addition wrap. -/
def boundedZ (low high nx : Nat) : Nat :=
  wrappingAdd ((List.range' 1 (boundedPeak low high nx - 1)).sum % 2 ^ 64)
    (((List.range' 1 (boundedPeak low high nx - 1)).reverse.take (wrappingSub high nx)).sum % 2 ^ 64)

/-- Whether a `usize` subtraction of the `Bounded` branch of `p_sub` underflows, in the code's
order and on the operands the release build computes: `high + 1 - low`; `high + 1 - n_x` and
`n_x + 1 - low` when `n_x` is neither bound; `peak - d_xy`; `high - n_x`. A debug build
panics at the first one, a release build wraps. -/
def boundedUnderflow (low high nx ny : Nat) : Bool :=
  wrappingAdd high 1 < low ||
    (!(nx == low || nx == high) && (wrappingAdd high 1 < nx || wrappingAdd nx 1 < low)) ||
    boundedPeak low high nx < (if nx > ny then nx - ny else ny - nx) || high < nx

/-- Whether a `usize` addition of the `Bounded` branch passes `usize::MAX`, in the code's order
and on the operands the release build computes: `high + 1`; `n_x + 1` when `n_x` is neither
bound; the two sums of `z` and their total (one of these passes it exactly when the exact
total of the two sums does). A debug build panics there, a release build wraps. -/
def boundedOverflow (low high nx : Nat) : Bool :=
  2 ^ 64 ≤ high + 1 || (!(nx == low || nx == high) && 2 ^ 64 ≤ nx + 1) ||
    2 ^ 64 ≤ (List.range' 1 (boundedPeak low high nx - 1)).sum +
      ((List.range' 1 (boundedPeak low high nx - 1)).reverse.take (wrappingSub high nx)).sum

section Bounded

variable {low high nx : Nat}

/-- Where `high + 1` fits and `n_x` lies in `low..=high`, `peak` is computed exactly. -/
theorem boundedPeak_of_le (hh : high + 1 < 2 ^ 64) (hl : low ≤ nx) (hx : nx ≤ high) :
    boundedPeak low high nx =
      if nx = low ∨ nx = high then high + 1 - low else max (high + 1 - nx) (nx + 1 - low) := by
  rw [boundedPeak, wrappingAdd_of_lt hh, wrappingAdd_of_lt (show nx + 1 < 2 ^ 64 by omega),
    wrappingSub_of_le hh (show low ≤ high + 1 by omega),
    wrappingSub_of_le hh (show nx ≤ high + 1 by omega),
    wrappingSub_of_le (show nx + 1 < 2 ^ 64 by omega) (show low ≤ nx + 1 by omega)]

private theorem boundedPeak_bounds (hlh : low < high) (hl : low ≤ nx) (hx : nx ≤ high)
    (hh : high + 1 < 2 ^ 64) :
    nx - low ≤ boundedPeak low high nx - 1 ∧ high - nx ≤ boundedPeak low high nx - 1 ∧
      boundedPeak low high nx ≤ high + 1 ∧
      (nx - low = boundedPeak low high nx - 1 ↔ high - nx ≤ nx - low) := by
  rw [boundedPeak_of_le hh hl hx]
  split_ifs <;> omega

private theorem filter_range'_ne (hl : low ≤ nx) (hx : nx ≤ high) :
    (List.range' low (high + 1 - low)).filter (· ≠ nx) =
      List.range' low (nx - low) ++ List.range' (nx + 1) (high - nx) := by
  rw [show high + 1 - low = (high - nx + 1) + (nx - low) by omega, ← List.range'_append_1,
    show low + (nx - low) = nx by omega, List.range'_succ, List.filter_append, List.filter_cons]
  simp only [ne_eq, not_true_eq_false, decide_False, Bool.false_eq_true, ite_false]
  rw [List.filter_eq_self.mpr, List.filter_eq_self.mpr] <;>
    · intro a ha
      simp only [List.mem_range'_1] at ha
      simp only [ne_eq, decide_eq_true_eq]
      omega

private theorem map_boundedMass_left (hl : low ≤ nx) (hp : boundedPeak low high nx < 2 ^ 64)
    (ha : nx - low ≤ boundedPeak low high nx - 1) :
    (List.range' low (nx - low)).map (boundedMass low high nx) =
      List.range' (boundedPeak low high nx - (nx - low)) (nx - low) := by
  refine List.ext_getElem (by simp) fun i h1 _ => ?_
  simp only [List.length_map, List.length_range'] at h1
  simp only [List.getElem_map, List.getElem_range', boundedMass]
  split_ifs <;> rw [wrappingSub_of_le hp (by omega)] <;> omega

private theorem map_boundedMass_right (hp : boundedPeak low high nx < 2 ^ 64)
    (hb : high - nx ≤ boundedPeak low high nx - 1) :
    (List.range' (nx + 1) (high - nx)).map (boundedMass low high nx) =
      (List.range' (boundedPeak low high nx - (high - nx)) (high - nx)).reverse := by
  refine List.ext_getElem (by simp) fun i h1 _ => ?_
  simp only [List.length_map, List.length_range'] at h1
  simp only [List.getElem_map, List.getElem_range', List.getElem_reverse, List.length_range',
    boundedMass]
  split_ifs <;> rw [wrappingSub_of_le hp (by omega)] <;> omega

private theorem take_reverse_range' {p b : Nat} (hb : b ≤ p - 1) :
    (List.range' 1 (p - 1)).reverse.take b = (List.range' (p - b) b).reverse := by
  refine List.ext_getElem (by simp; omega) fun i h1 _ => ?_
  simp only [List.length_take, List.length_reverse, List.length_range'] at h1
  simp only [List.getElem_take, List.getElem_reverse, List.getElem_range', List.length_range']
  omega

private theorem sum_range'_one_eq_zero {c : Nat} : (List.range' 1 c).sum = 0 ↔ c = 0 := by
  cases c with
  | zero => simp
  | succ c => simp [List.range'_succ]

/-- Where no addition overflows, `high + 1` fits and `z` is the exact total of its two sums. -/
theorem boundedZ_of_not_overflow (hx : nx ≤ high) (ho : boundedOverflow low high nx = false) :
    high + 1 < 2 ^ 64 ∧ boundedZ low high nx = (List.range' 1 (boundedPeak low high nx - 1)).sum +
      ((List.range' 1 (boundedPeak low high nx - 1)).reverse.take (high - nx)).sum := by
  simp only [boundedOverflow, Bool.or_eq_false_iff, decide_eq_false_iff_not, not_le] at ho
  have hsub : wrappingSub high nx = high - nx := wrappingSub_of_le (by omega) hx
  rw [hsub] at ho
  refine ⟨by omega, ?_⟩
  rw [boundedZ, hsub, Nat.mod_eq_of_lt (by omega), Nat.mod_eq_of_lt (by omega),
    wrappingAdd_of_lt (by omega)]

end Bounded

/-- For `usize` bounds `low < high` and `n_x` between them, where no addition of the branch
overflows, the `Bounded` masses of the numerals `low..=high` other than `n_x` add up to `z`
exactly when `n_x` is at least as far from `low` as from `high`. -/
theorem boundedMass_sum_eq_boundedZ_iff {low high nx : Nat} (hlh : low < high) (hl : low ≤ nx)
    (hh : nx ≤ high) (ho : boundedOverflow low high nx = false) :
    (((List.range' low (high + 1 - low)).filter (· ≠ nx)).map (boundedMass low high nx)).sum =
      boundedZ low high nx ↔ high - nx ≤ nx - low := by
  obtain ⟨h1, hz⟩ := boundedZ_of_not_overflow hh ho
  obtain ⟨ha, hb, hp, hiff⟩ := boundedPeak_bounds hlh hl hh h1
  have hsplit : List.range' 1 (boundedPeak low high nx - 1) =
      List.range' 1 (boundedPeak low high nx - 1 - (nx - low)) ++
        List.range' (boundedPeak low high nx - (nx - low)) (nx - low) := by
    rw [show boundedPeak low high nx - (nx - low) = 1 + (boundedPeak low high nx - 1 - (nx - low))
      by omega, List.range'_append_1]
    congr 1
    omega
  rw [filter_range'_ne hl hh, List.map_append, map_boundedMass_left hl (by omega) ha,
    map_boundedMass_right (by omega) hb, hz, take_reverse_range' hb,
    hsplit]
  simp only [List.sum_append, List.sum_reverse]
  rw [← hiff]
  have := (sum_range'_one_eq_zero (c := boundedPeak low high nx - 1 - (nx - low)))
  omega

theorem boundedMass_sum_eq_boundedZ_at_high :
    boundedOverflow 0 2 2 = false ∧
      (((List.range' 0 3).filter (· ≠ 2)).map (boundedMass 0 2 2)).sum = boundedZ 0 2 2 :=
  have ho : boundedOverflow 0 2 2 = false := by decide
  ⟨ho, (@boundedMass_sum_eq_boundedZ_iff 0 2 2 (by decide) (by decide) (by decide) ho).mpr
    (by decide)⟩

/-- At `low = 0`, `high = 2`, `n_x = 0` the masses of `1` and `2` add up to `3`, while `z` is
`6`: the `take(high - n_x)` term counts the long side a second time. -/
theorem boundedZ_ne_mass_sum :
    (((List.range' 0 3).filter (· ≠ 0)).map (boundedMass 0 2 0)).sum = 3 ∧ boundedZ 0 2 0 = 6 := by
  decide

/-- For `usize` bounds `low ≤ high` and a `usize` numeral `n_x`, the `Bounded` branch
underflows exactly when `n_x` is above `high`, or below `low - 1`, or when `n_y` is farther from
`n_x` than `peak`; or when `high` is `usize::MAX`, so that `high + 1` wraps to `0`, and `low` is
positive or `n_x` is neither bound. -/
theorem boundedUnderflow_iff {low high nx ny : Nat} (hlh : low ≤ high) (hh : high < 2 ^ 64)
    (hx : nx < 2 ^ 64) :
    boundedUnderflow low high nx ny = true ↔
      high < nx ∨ nx + 1 < low ∨ boundedPeak low high nx < (if nx > ny then nx - ny else ny - nx) ∨
        (high = 2 ^ 64 - 1 ∧ (0 < low ∨ (nx ≠ low ∧ nx ≠ high))) := by
  simp only [boundedUnderflow, wrappingAdd, Bool.or_eq_true, Bool.and_eq_true, Bool.not_eq_true',
    Bool.or_eq_false_iff, beq_eq_false_iff_ne, decide_eq_true_eq]
  omega

/-- `low = 0`, `high = usize::MAX`: `high + 1` wraps to `0`, and `0 - n_x` underflows at
`n_x = 5`. -/
theorem boundedUnderflow_iff_at_max :
    0 ≤ 2 ^ 64 - 1 ∧ 2 ^ 64 - 1 < 2 ^ 64 ∧ 5 < 2 ^ 64 ∧
      (boundedUnderflow 0 (2 ^ 64 - 1) 5 5 = true ↔
        2 ^ 64 - 1 < 5 ∨ 5 + 1 < 0 ∨ boundedPeak 0 (2 ^ 64 - 1) 5 < (if 5 > 5 then 5 - 5 else 5 - 5) ∨
          (2 ^ 64 - 1 = 2 ^ 64 - 1 ∧ (0 < 0 ∨ (5 ≠ 0 ∧ 5 ≠ 2 ^ 64 - 1)))) :=
  ⟨by decide, by decide, by decide, boundedUnderflow_iff (by decide) (by decide) (by decide)⟩

/-- With `low = 0` and `high = 9`, operators named `5` and `50` give `peak = 6` below
`d_xy = 45`, so `mass_y = peak - d_xy` underflows; a numeral `12` above `high` underflows
`high + 1 - n_x`. -/
theorem pSub_bounded_underflows :
    parseUsize ((Atom.operator ⟨0⟩).display ⟨⟨[(0, some "5"), (0, some "50")], []⟩⟩) = some 5 ∧
      parseUsize ((Atom.operator ⟨1⟩).display ⟨⟨[(0, some "5"), (0, some "50")], []⟩⟩) =
        some 50 ∧
      boundedPeak 0 9 5 = 6 ∧ boundedUnderflow 0 9 5 50 = true ∧ boundedUnderflow 0 9 12 3 = true := by
  decide

variable {R : Type} [Field R]

/-- `PString::new`: a cold cache. -/
def new (x y : List Atom) (dist : PStringDist R) (sig : Signature) : PString R :=
  ⟨[], x.length, y.length, x, y, dist, sig⟩

/-- Two one-atom strings under a constant model. -/
def oneAtom : PString ℚ :=
  new [.operator ⟨0⟩] [.operator ⟨1⟩] ⟨1 / 2, 1 / 4, 1 / 4, 1 / 2, .constant 0⟩ ⟨⟨[], []⟩⟩

/-- `PString::p_sub`: the probability of substituting `b` for `a`. The `Bounded` branch reads
`mass_y` and `z` as the release build computes them; `as f64` is read exactly, and a zero `z`,
where `f64` gives an infinity or NaN, gives the field's quotient by zero, `0`. -/
def pSub (ps : PString R) (a b : Atom) : R :=
  if a = b then ps.dist.pCorrectSub
  else
    match ps.dist.pIncorrectSub with
    | .constant p => p
    | .bounded low high weight =>
      match parseUsize (a.display ps.sig), parseUsize (b.display ps.sig) with
      | some nx, some ny => weight * (boundedMass low high nx ny : R) / (boundedZ low high nx : R)
      | _, _ => 0

/-- `PString::rho_t`: the probability of `t` insertions, `(1 - beta) * beta.powi(t as i32)`. A
negative exponent divides; at `beta = 0` it gives the field's `0⁻¹ = 0` where `f64` gives an
infinity. -/
def rhoT (ps : PString R) (t : Nat) : R := (1 - ps.dist.beta) * ps.dist.beta ^ asI32 t

/-- `PString::normalizer`: `m!t!/(m+t)!` as `∏ 1..=min(m,t)` over `∏ max(m,t)+1..=m+t`, each
product in the release build's wrapping `usize` (a debug build panics where a product passes
`usize::MAX`). A product wrapped to `0` divides to `0` here, where `f64` gives an infinity or
NaN. -/
def normalizer (ps : PString R) (t : Nat) : R :=
  if ps.m = 0 ∧ t = 0 then 1
  else
    (((List.range' 1 (min t ps.m)).prod % 2 ^ 64 : Nat) : R) /
      (((List.range' (max t ps.m + 1) (ps.m + t - max t ps.m)).prod % 2 ^ 64 : Nat) : R)

/-- Store a computed value under its key. -/
def store (key : Nat × Nat × Nat) : Option (R × PString R) → Option (R × PString R)
  | some (v, ps) => some (v, { ps with cache := (key, v) :: ps.cache })
  | none => none

/-- `PString::query`: the memoised recurrence over the numbers `(t, d, s)` of insertions,
deletions and substitutions still to place. The cache is threaded through the calls in the
source's order of evaluation; `none` is an out-of-bounds `x[_]` or `y[_]`. -/
def query (ps : PString R) (t d s : Nat) : Option (R × PString R) :=
  match ps.cache.lookup (t, d, s) with
  | some v => some (v, ps)
  | none =>
    store (t, d, s) <|
    match t, d, s with
    | 0, 0, 0 => some (1, ps)
    | t + 1, 0, 0 => do
      let (q, ps) ← query ps t 0 0
      pure (q * ps.dist.pInsertion, ps)
    | 0, d + 1, 0 => do
      let (q, ps) ← query ps 0 d 0
      pure (q * ps.dist.pDeletion, ps)
    | 0, 0, s + 1 => do
      let (q, ps) ← query ps 0 0 s
      let a ← ps.x[s]?
      let b ← ps.y[s]?
      pure (q * ps.pSub a b, ps)
    | t + 1, d + 1, 0 => do
      let (q₁, ps) ← query ps t (d + 1) 0
      let (q₂, ps) ← query ps (t + 1) d 0
      pure (q₁ * ps.dist.pInsertion + q₂ * ps.dist.pDeletion, ps)
    | t + 1, 0, s + 1 => do
      let (q₁, ps) ← query ps t 0 (s + 1)
      let (q₂, ps) ← query ps (t + 1) 0 s
      let a ← ps.x[s]?
      let b ← ps.y[s + t + 1]?
      pure (q₁ * ps.dist.pInsertion + q₂ * ps.pSub a b, ps)
    | 0, d + 1, s + 1 => do
      let (q₁, ps) ← query ps 0 d (s + 1)
      let (q₂, ps) ← query ps 0 (d + 1) s
      let a ← ps.x[s + d + 1]?
      let b ← ps.y[s]?
      pure (q₁ * ps.dist.pDeletion + q₂ * ps.pSub a b, ps)
    | t + 1, d + 1, s + 1 => do
      let (q₁, ps) ← query ps t (d + 1) (s + 1)
      let (q₂, ps) ← query ps (t + 1) d (s + 1)
      let (q₃, ps) ← query ps (t + 1) (d + 1) s
      let a ← ps.x[s + d + 1]?
      let b ← ps.y[s + t + 1]?
      pure (q₁ * ps.dist.pInsertion + q₂ * ps.dist.pDeletion + q₃ * ps.pSub a b, ps)
termination_by t + d + s
decreasing_by all_goals omega

/-- The insertion counts `PString::compute` sums over: `t_start..=t_end`, with
`t_start = n.saturating_sub(m)` and `t_end = t_max.min((d_max + n).saturating_sub(m))`,
less the `t` its filter drops. -/
def insertionCounts (m n tMax dMax : Nat) : List Nat :=
  (List.range' (n - m) (min tMax ((dMax + n) % 2 ^ 64 - m) + 1 - (n - m))).filter
    fun t => !(t > n || n > m + t)

/-- Where `d_max + n` does not wrap and `m ≤ n + d_max`, the insertion counts are exactly the
feasible ones, each once. -/
theorem insertionCounts_exact {m n tMax dMax : Nat} (hw : dMax + n < 2 ^ 64) (hd : m ≤ n + dMax) :
    (insertionCounts m n tMax dMax).Nodup ∧
      ∀ t, t ∈ insertionCounts m n tMax dMax ↔ t ≤ tMax ∧ t ≤ n ∧ n ≤ m + t ∧ m + t - n ≤ dMax := by
  refine ⟨(List.nodup_range' _ _).filter _, fun t => ?_⟩
  simp only [insertionCounts, Nat.mod_eq_of_lt hw, List.mem_filter, List.mem_range'_1,
    Bool.not_eq_true', Bool.or_eq_false_iff, decide_eq_false_iff_not]
  omega

theorem insertionCounts_exact_example :
    (insertionCounts 2 3 4 1).Nodup ∧
      (2 ∈ insertionCounts 2 3 4 1 ↔ 2 ≤ 4 ∧ 2 ≤ 3 ∧ 3 ≤ 2 + 2 ∧ 2 + 2 - 3 ≤ 1) :=
  have h := @insertionCounts_exact 2 3 4 1 (by decide) (by decide)
  ⟨h.1, h.2 2⟩

/-- With `m = 3`, `n = 1` and `t_max = d_max = 0`, `t = 0` is summed although its deletion
count `m + t - n = 2` exceeds `d_max`; with `m = 0`, `n = 1`, `t_max = 5` and
`d_max = 2^64 - 1`, the bound `d_max + n` wraps to `0` and the feasible `t = 1` is lost. -/
theorem insertionCounts_bounds_slip :
    insertionCounts 3 1 0 0 = [0] ∧ insertionCounts 0 1 5 (2 ^ 64 - 1) = [] := by
  decide

/-- `PString::compute`: the sum of `rho_t(t) * query((t, m + t - n, n - t)) * normalizer(t)`
over the insertion counts. -/
def compute (ps : PString R) (tMax dMax : Nat) : Option (R × PString R) :=
  (insertionCounts ps.m ps.n tMax dMax).foldlM (fun acc t => do
    let (q, ps) ← acc.2.query t (acc.2.m + t - acc.2.n) (acc.2.n - t)
    pure (acc.1 + ps.rhoT t * q * ps.normalizer t, ps)) (0, ps)

section Normalizer

theorem prod_range'_eq_ascFactorial : ∀ a k : Nat, (List.range' a k).prod = a.ascFactorial k
  | _, 0 => rfl
  | a, k + 1 => by
    rw [List.range'_succ, List.prod_cons, prod_range'_eq_ascFactorial (a + 1) k]
    exact Nat.succ_ascFactorial a k

/-- Where the product `∏ max(m,t)+1..=m+t` fits in a `usize`, so does `∏ 1..=min(m,t)`, and
`normalizer(t)` is `m!t!/(m+t)!` exactly. -/
theorem normalizer_eq_of_prod_lt [CharZero R] (ps : PString R) (t : Nat)
    (h : (List.range' (max t ps.m + 1) (ps.m + t - max t ps.m)).prod < 2 ^ 64) :
    ps.normalizer t = (ps.m.factorial * t.factorial : R) / (ps.m + t).factorial := by
  have hlen : ps.m + t - max t ps.m = min t ps.m := by omega
  have hfact : (min t ps.m).factorial * (max t ps.m).factorial = ps.m.factorial * t.factorial := by
    rcases le_total t ps.m with h | h
    · rw [min_eq_left h, max_eq_right h, Nat.mul_comm]
    · rw [min_eq_right h, max_eq_left h]
  have hden : (max t ps.m).factorial * (max t ps.m + 1).ascFactorial (min t ps.m) =
      (ps.m + t).factorial := by
    rw [Nat.factorial_mul_ascFactorial, Nat.add_comm (max t ps.m), ← hlen]
    congr 1
    omega
  have hnum : (min t ps.m).factorial ≤ (max t ps.m + 1).ascFactorial (min t ps.m) := by
    refine Nat.le_of_mul_le_mul_right ?_ (Nat.factorial_pos (max t ps.m))
    rw [hfact, Nat.mul_comm (Nat.ascFactorial _ _), hden]
    exact Nat.le_of_dvd (Nat.factorial_pos _) (Nat.factorial_mul_factorial_dvd_factorial_add _ _)
  rw [hlen, prod_range'_eq_ascFactorial] at h
  unfold normalizer
  split_ifs with h0
  · simp [h0.1, h0.2]
  · have hM : ((max t ps.m).factorial : R) ≠ 0 := Nat.cast_ne_zero.mpr (Nat.factorial_ne_zero _)
    rw [hlen, prod_range'_eq_ascFactorial, prod_range'_eq_ascFactorial, Nat.one_ascFactorial,
      Nat.mod_eq_of_lt h, Nat.mod_eq_of_lt (hnum.trans_lt h), ← Nat.cast_mul, ← hfact, ← hden,
      Nat.cast_mul, Nat.cast_mul, mul_comm ((min t ps.m).factorial : R), mul_div_mul_left _ _ hM]

theorem normalizer_eq_oneAtom :
    (List.range' (max 3 oneAtom.m + 1) (oneAtom.m + 3 - max 3 oneAtom.m)).prod < 2 ^ 64 ∧
      oneAtom.normalizer 3 = (oneAtom.m.factorial * (3 : Nat).factorial : ℚ) / (oneAtom.m + 3).factorial :=
  ⟨by decide, normalizer_eq_of_prod_lt oneAtom 3 (by decide)⟩

/-- With fifteen atoms in each string and `t_max = d_max = 15`, `compute` passes `t = 15`, and
the denominator `∏ 16..=30 = 30!/15!` of `normalizer(15)` passes `2^64`: the wrapped quotient
is not `15!15!/30!`. -/
theorem normalizer_wraps :
    15 ∈ insertionCounts 15 15 15 15 ∧
      (List.range' 16 15).prod % 2 ^ 64 ≠ (List.range' 16 15).prod ∧
      (new (List.replicate 15 (.operator ⟨0⟩)) (List.replicate 15 (.operator ⟨0⟩))
          ⟨0, 0, 0, 0, .constant 0⟩ ⟨⟨[], []⟩⟩ : PString ℚ).normalizer 15 ≠
        ((Nat.factorial 15 * Nat.factorial 15 : Nat) : ℚ) / (Nat.factorial 30 : Nat) := by
  refine ⟨by decide, by decide, ?_⟩
  simp only [normalizer, new, List.length_replicate, and_self, if_neg (by decide : (15 : Nat) ≠ 0)]
  rw [Ne, div_eq_div_iff (Nat.cast_ne_zero.mpr (by decide)) (Nat.cast_ne_zero.mpr (by decide))]
  exact_mod_cast (by decide : (List.range' 1 (min 15 15)).prod % 2 ^ 64 * Nat.factorial 30 ≠
    Nat.factorial 15 * Nat.factorial 15 *
      ((List.range' (max 15 15 + 1) (15 + 15 - max 15 15)).prod % 2 ^ 64))

end Normalizer

end PString

end TermRewriting
