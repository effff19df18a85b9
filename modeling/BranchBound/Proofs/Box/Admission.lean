import BranchBound.Proofs.Scalar.Binary64Laws
import BranchBound.Variable
import Mathlib.Data.Real.Basic
import Mathlib.Order.Bounds.Basic

/-! # Which variables are admitted

The domain of a variable is a set of real numbers: those between its bounds that its kind takes. The
check of a variable admits it if bounds and priority are proper and its domain is not empty. It
leaves the domain as it is and moves the bounds to its least and its greatest value, so that a
variable that was admitted once is admitted unchanged from then on.

* **`Variable.Proper`**, **`Variable.domain`** — what is asked of bounds and priority, and the
  domain.
* **`Variable.shrunk`** — the variable with its bounds moved inwards. `domain_shrunk` says that no
  value is lost, and `shrunk_shrunk` that there is nothing to move the second time.
* **`Variable.validated_of_proper`**, **`Variable.validated_of_not_proper`** — what the check
  answers.
* **`Variable.validated_domain`** — the check in terms of the domain. -/

namespace BranchBound

/-! ## Whole floating-point numbers -/

namespace Binary64

variable {x y : Float} {p q : ℚ} {n : ℤ}

/-- A number of value zero is one of the two zeros. -/
theorem eq_zero_of_value (hx : value? x = some 0) : x = 0 ∨ x = -0 := by
  have hsame : Scalar.Same x 0 := same_of_value hx (by decide +kernel)
  obtain ⟨-, -, heq | ⟨heq, -⟩ | ⟨heq, -⟩⟩ :=
    Float.beq_iff_ne_nan_and_eq.mp (Scalar.Ordered.beq_iff_le_ge.mpr hsame)
  · exact .inl heq
  · exact .inl heq
  · exact .inr heq

/-- A whole number has no fraction to be taken off. -/
theorem truncate_eq_self (hx : value? x = some (n : ℚ)) : truncate x = x := by
  obtain ⟨m, hm, htruncates⟩ := exists_value_truncate hx
  have hmn : m = n := by
    rcases htruncates.between with ⟨hle, hlt⟩ | ⟨hlt, hle⟩
    · have hlt' : n < m + 1 := by exact_mod_cast hlt
      have hle' : m ≤ n := by exact_mod_cast hle
      omega
    · have hlt' : m - 1 < n := by exact_mod_cast hlt
      have hle' : n ≤ m := by exact_mod_cast hle
      omega
  rw [hmn] at hm
  rcases eq_or_zero_of_same (same_of_value hm hx) with heq | ⟨-, hzero⟩
  · exact heq
  · -- the sign of a zero is kept as well
    rcases eq_zero_of_value hzero with rfl | rfl <;> decide +kernel

/-- Rounding down leaves a whole number as it is. -/
theorem floor_eq_self (hx : value? x = some (n : ℚ)) : floor x = x := by
  show (if x < truncate x then truncate x - 1 else truncate x) = x
  rw [truncate_eq_self hx, if_neg fun h => Scalar.not_le_of_lt h (Scalar.le_of_lt h)]

/-- Rounding up leaves a whole number as it is. -/
theorem ceil_eq_self (hx : value? x = some (n : ℚ)) : ceil x = x := by
  show (if truncate x < x then truncate x + 1 else truncate x) = x
  rw [truncate_eq_self hx, if_neg fun h => Scalar.not_le_of_lt h (Scalar.le_of_lt h)]

/-- The value of zero. -/
theorem value?_zero : value? 0 = some ((0 : ℤ) : ℚ) := by
  decide +kernel

/-- The value of the greater of two finite numbers. -/
theorem value?_greatest (hx : value? x = some p) (hy : value? y = some q) :
    value? (Scalar.greatest x y) = some (max p q) := by
  unfold Scalar.greatest
  rw [isNaN_of_value hy]
  by_cases hlt : y < x
  · rw [if_pos (.inl hlt), hx, max_eq_left (le_of_lt ((lt_iff_value_lt hy hx).mp hlt))]
  · rw [if_neg (by simpa using hlt), hy,
      max_eq_right (not_lt.mp fun h => hlt ((lt_iff_value_lt hy hx).mpr h))]

/-- The value of the smaller of two finite numbers. -/
theorem value?_least (hx : value? x = some p) (hy : value? y = some q) :
    value? (Scalar.least x y) = some (min p q) := by
  unfold Scalar.least
  rw [isNaN_of_value hy]
  by_cases hlt : x < y
  · rw [if_pos (.inl hlt), hx, min_eq_left (le_of_lt ((lt_iff_value_lt hx hy).mp hlt))]
  · rw [if_neg (by simpa using hlt), hy,
      min_eq_right (not_lt.mp fun h => hlt ((lt_iff_value_lt hx hy).mpr h))]

/-- A number of value one is one. -/
theorem eq_one_of_value (hx : value? x = some 1) : x = 1 := by
  rcases eq_or_zero_of_same (same_of_value hx (y := 1) value?_one) with heq | ⟨hzero, -⟩
  · exact heq
  · rw [hx] at hzero
    cases hzero

/-- Cutting off at zero is done once. -/
theorem greatest_zero_eq_self (hx : value? x = some p)
    (hy : y = ceil (Scalar.greatest x 0)) : Scalar.greatest y 0 = y := by
  by_cases hpos : 0 < x
  · -- above zero nothing is cut off, and rounding up stays above zero
    have hp : 0 < p := by
      have hlt := (lt_iff_value_lt value?_zero hx).mp hpos
      rwa [Int.cast_zero] at hlt
    have hvalue : value? y = some (⌈p⌉ : ℚ) := by
      rw [hy, Scalar.greatest, if_pos (.inl hpos)]
      exact value?_ceil hx
    have hlt : 0 < y := (lt_iff_value_lt value?_zero hvalue).mpr
      (Int.cast_lt.mpr (Int.ceil_pos.mpr hp))
    rw [Scalar.greatest, if_pos (.inl hlt)]
  · have hzero : Scalar.greatest x 0 = 0 := by
      rw [Scalar.greatest, if_neg (by simpa [isNaN_of_value value?_zero] using hpos)]
    rw [hy, hzero]
    decide +kernel

/-- Nothing is cut off at one from what is not above it. -/
theorem least_one_eq_self (hx : value? x = some p) (hp : p ≤ 1) : Scalar.least x 1 = x := by
  unfold Scalar.least
  split
  · rfl
  · next hge =>
    have hle : 1 ≤ p := by
      have hnot := (lt_iff_value_lt hx value?_one).not.mp fun h => hge (.inl h)
      rwa [Int.cast_one, not_lt] at hnot
    rw [le_antisymm hp hle] at hx
    exact (eq_one_of_value hx).symm

end Binary64

/-! ## The values of a kind -/

namespace VariableKind

variable {kind : VariableKind} {l u : ℚ} {x : ℝ}

/-- The real numbers that a kind takes. -/
def values : VariableKind → Set ℝ
  | continuous => Set.univ
  | binary => {0, 1}
  | integer => Set.range ((↑) : ℤ → ℝ)

/-- The least and the greatest value that a kind takes between two others, if there are any. -/
def ends (kind : VariableKind) (l u : ℚ) : ℚ × ℚ :=
  match kind with
  | continuous => (l, u)
  | binary => (⌈max l 0⌉, ⌊min u 1⌋)
  | integer => (⌈l⌉, ⌊u⌋)

/-- Zero and one are whole. -/
theorem values_binary_subset : values binary ⊆ values integer := by
  rintro x (rfl | rfl)
  · exact ⟨0, Int.cast_zero⟩
  · exact ⟨1, Int.cast_one⟩

/-- A whole number is at least a value if it is at least the next whole number. -/
theorem ceil_le_iff (hx : x ∈ values integer) : ((⌈l⌉ : ℚ) : ℝ) ≤ x ↔ (l : ℝ) ≤ x := by
  obtain ⟨n, rfl⟩ := hx
  rw [Rat.cast_intCast, Int.cast_le, Int.ceil_le]
  exact_mod_cast Iff.rfl

/-- A whole number is at most a value if it is at most the whole number before. -/
theorem le_floor_iff (hx : x ∈ values integer) : x ≤ ((⌊u⌋ : ℚ) : ℝ) ↔ x ≤ (u : ℝ) := by
  obtain ⟨n, rfl⟩ := hx
  rw [Rat.cast_intCast, Int.cast_le, Int.le_floor]
  exact_mod_cast Iff.rfl

/-- The values of a kind between two numbers are those between the ends. -/
theorem ends_iff (hx : x ∈ kind.values) :
    ((kind.ends l u).1 : ℝ) ≤ x ∧ x ≤ ((kind.ends l u).2 : ℝ) ↔ (l : ℝ) ≤ x ∧ x ≤ (u : ℝ) := by
  cases kind with
  | continuous => exact Iff.rfl
  | integer => exact and_congr (ceil_le_iff hx) (le_floor_iff hx)
  | binary =>
    have hwhole := values_binary_subset hx
    have hunit : 0 ≤ x ∧ x ≤ 1 := by
      rcases hx with rfl | rfl
      · exact ⟨le_refl _, zero_le_one⟩
      · exact ⟨zero_le_one, le_refl _⟩
    refine and_congr ((ceil_le_iff hwhole).trans ?_) ((le_floor_iff hwhole).trans ?_)
    · rw [Rat.cast_max, Rat.cast_zero, max_le_iff]
      exact and_iff_left hunit.1
    · rw [Rat.cast_min, Rat.cast_one, le_min_iff]
      exact and_iff_left hunit.2

/-- The ends are whole unless all values are taken. -/
theorem exists_ends (h : kind.isDiscrete = true) (l u : ℚ) :
    ∃ m n : ℤ, kind.ends l u = ((m : ℚ), (n : ℚ)) := by
  cases kind with
  | continuous => cases h
  | binary => exact ⟨_, _, rfl⟩
  | integer => exact ⟨_, _, rfl⟩

/-- A whole number from zero to one is zero or one. -/
theorem mem_values_binary {n : ℤ} (hlow : 0 ≤ n) (hhigh : n ≤ 1) :
    ((n : ℚ) : ℝ) ∈ values binary := by
  obtain rfl | rfl : n = 0 ∨ n = 1 := by omega
  · exact .inl (by norm_num)
  · exact .inr (by norm_num)

/-- Ends that have not crossed are values. -/
theorem ends_mem (h : (kind.ends l u).1 ≤ (kind.ends l u).2) :
    ((kind.ends l u).1 : ℝ) ∈ kind.values ∧ ((kind.ends l u).2 : ℝ) ∈ kind.values := by
  cases kind with
  | continuous => exact ⟨trivial, trivial⟩
  | integer => exact ⟨⟨⌈l⌉, (Rat.cast_intCast _).symm⟩, ⌊u⌋, (Rat.cast_intCast _).symm⟩
  | binary =>
    have hle : ⌈max l 0⌉ ≤ ⌊min u 1⌋ := Int.cast_le.mp h
    have hlow : 0 ≤ ⌈max l 0⌉ := Int.ceil_nonneg (le_max_right l 0)
    have hhigh : ⌊min u 1⌋ ≤ 1 := by
      exact_mod_cast (Int.floor_le (min u 1)).trans (min_le_right u 1)
    exact ⟨mem_values_binary hlow (hle.trans hhigh), mem_values_binary (hlow.trans hle) hhigh⟩

end VariableKind

/-! ## Bounds and priority -/

namespace Variable

section

variable {α : Type} [Scalar α] {v : Variable α}

/-- Bounds and priority of a variable are what they have to be, whatever the kind of the
variable. -/
structure Proper (v : Variable α) : Prop where
  /-- The lower bound is finite. -/
  isFinite_lower : Scalar.isFinite v.lower = true
  /-- So is the upper one. -/
  isFinite_upper : Scalar.isFinite v.upper = true
  /-- They are in order. -/
  le : v.lower ≤ v.upper
  /-- The priority is finite. -/
  isFinite_priority : Scalar.isFinite v.priority = true
  /-- It is not negative. -/
  priority_nonneg : 0 ≤ v.priority

/-- The variable with its bounds moved inwards, to values of its kind. -/
def shrunk (v : Variable α) : Variable α :=
  { v with
    lower := (inward v.kind v.lower v.upper).1
    upper := (inward v.kind v.lower v.upper).2 }

variable [Scalar.Congruent α]

/-- The check moves the bounds of a variable inwards whose bounds and priority are proper, and
admits it unless they cross. -/
theorem validated_of_proper (h : v.Proper) :
    v.validated = if v.shrunk.upper < v.shrunk.lower
      then .error (.unsuitableType v.name (.noIntegralValue v.kind.name)) else .ok v.shrunk := by
  have hpriority : ¬ v.priority < 0 := fun hlt => Scalar.not_le_of_lt hlt h.priority_nonneg
  rw [validated, if_neg (by simp [h.isFinite_lower, h.isFinite_upper]),
    if_neg fun hlt => Scalar.not_le_of_lt hlt h.le,
    if_neg (by simp [h.isFinite_priority, hpriority])]
  rfl

/-- Otherwise the problem is not valid. -/
theorem validated_of_not_proper (h : ¬ v.Proper) :
    ∃ fault, v.validated = .error (.invalidProblem fault) := by
  unfold validated
  -- each check that fails names its fault
  split
  · exact ⟨_, rfl⟩
  · next hfinite =>
    rw [Bool.or_eq_true, not_or, Bool.not_eq_true', Bool.not_eq_false, Bool.not_eq_true',
      Bool.not_eq_false] at hfinite
    split
    · exact ⟨_, rfl⟩
    · next hordered =>
      split
      · exact ⟨_, rfl⟩
      · -- then nothing is missing
        next hpriority =>
        rw [Bool.or_eq_true, not_or, Bool.not_eq_true', Bool.not_eq_false, decide_eq_true_eq]
          at hpriority
        have hdefined := fun {x : α} (hx : Scalar.isFinite x = true) =>
          Scalar.Congruent.isNaN_of_isFinite hx
        exact absurd
          ⟨hfinite.1, hfinite.2,
            Scalar.le_of_not_lt (hdefined hfinite.2) (hdefined hfinite.1) hordered, hpriority.1,
            Scalar.le_of_not_lt (hdefined hpriority.1)
              (hdefined Scalar.Congruent.isFinite_zero) hpriority.2⟩ h

end

/-! ## The domain -/

open Binary64 (value?)

variable {v w : Variable Float} {l u : ℚ} {x : ℝ}

/-- The domain of a variable: the real numbers between its bounds that its kind takes. There are
none unless both bounds are finite. -/
def domain (v : Variable Float) : Set ℝ :=
  {x ∈ v.kind.values | ∃ l u : ℚ, value? v.lower = some l ∧ value? v.upper = some u
    ∧ (l : ℝ) ≤ x ∧ x ≤ (u : ℝ)}

/-- The domain in terms of the values of the bounds. -/
theorem mem_domain (hl : value? v.lower = some l) (hu : value? v.upper = some u) :
    x ∈ v.domain ↔ x ∈ v.kind.values ∧ (l : ℝ) ≤ x ∧ x ≤ (u : ℝ) := by
  refine and_congr_right fun _ => ⟨?_, fun hx => ⟨l, u, hl, hu, hx⟩⟩
  rintro ⟨l', u', hl', hu', hx⟩
  rw [hl] at hl'
  rw [hu] at hu'
  cases hl'
  cases hu'
  exact hx

/-- Bounds move to the ends of the domain. -/
theorem value?_shrunk (hl : value? v.lower = some l) (hu : value? v.upper = some u) :
    value? v.shrunk.lower = some (v.kind.ends l u).1
      ∧ value? v.shrunk.upper = some (v.kind.ends l u).2 := by
  show value? (inward v.kind v.lower v.upper).1 = _ ∧ value? (inward v.kind v.lower v.upper).2 = _
  cases v.kind with
  | continuous => exact ⟨hl, hu⟩
  | integer => exact ⟨Binary64.value?_ceil hl, Binary64.value?_floor hu⟩
  | binary =>
    refine ⟨Binary64.value?_ceil ?_, Binary64.value?_floor ?_⟩
    · exact Binary64.value?_greatest hl Binary64.value?_zero
    · exact Binary64.value?_least hu Binary64.value?_one

/-- No value is lost when bounds move inwards. -/
theorem domain_shrunk (hl : value? v.lower = some l) (hu : value? v.upper = some u) :
    v.shrunk.domain = v.domain := by
  obtain ⟨hlow, hhigh⟩ := value?_shrunk hl hu
  ext x
  rw [mem_domain hlow hhigh, mem_domain hl hu]
  exact and_congr_right VariableKind.ends_iff

/-- Bounds that were moved inwards without crossing are the least and the greatest value. -/
theorem isLeast_isGreatest_domain (hl : value? v.lower = some l) (hu : value? v.upper = some u)
    (hle : (v.kind.ends l u).1 ≤ (v.kind.ends l u).2) :
    IsLeast v.domain ((v.kind.ends l u).1 : ℝ) ∧ IsGreatest v.domain ((v.kind.ends l u).2 : ℝ) := by
  obtain ⟨hlow, hhigh⟩ := value?_shrunk hl hu
  obtain ⟨hleast, hgreatest⟩ := VariableKind.ends_mem hle
  have hle' : ((v.kind.ends l u).1 : ℝ) ≤ ((v.kind.ends l u).2 : ℝ) := by exact_mod_cast hle
  rw [← domain_shrunk hl hu]
  exact ⟨⟨(mem_domain hlow hhigh).mpr ⟨hleast, le_refl _, hle'⟩,
      fun _ hx => ((mem_domain hlow hhigh).mp hx).2.1⟩,
    (mem_domain hlow hhigh).mpr ⟨hgreatest, hle', le_refl _⟩,
      fun _ hx => ((mem_domain hlow hhigh).mp hx).2.2⟩

/-- There are values unless the ends cross. -/
theorem nonempty_domain_iff (hl : value? v.lower = some l) (hu : value? v.upper = some u) :
    v.domain.Nonempty ↔ (v.kind.ends l u).1 ≤ (v.kind.ends l u).2 := by
  constructor
  · rintro ⟨x, hx⟩
    obtain ⟨hkind, hbetween⟩ := (mem_domain hl hu).mp hx
    obtain ⟨hlow, hhigh⟩ := (VariableKind.ends_iff hkind).mpr hbetween
    exact_mod_cast hlow.trans hhigh
  · intro hle
    exact ⟨_, (isLeast_isGreatest_domain hl hu hle).1.1⟩

/-- Bounds that were moved inwards stay where they are. -/
theorem shrunk_shrunk (hl : value? v.lower = some l) (hu : value? v.upper = some u) :
    v.shrunk.shrunk = v.shrunk := by
  -- the ends are whole numbers already, and those of a binary variable lie within zero and one
  have hinward : inward v.kind v.shrunk.lower v.shrunk.upper
      = (v.shrunk.lower, v.shrunk.upper) := by
    obtain ⟨hlow, hhigh⟩ := value?_shrunk hl hu
    have hlower : v.shrunk.lower = (inward v.kind v.lower v.upper).1 := rfl
    have hupper : v.shrunk.upper = (inward v.kind v.lower v.upper).2 := rfl
    generalize v.shrunk.lower = a at hlow hlower ⊢
    generalize v.shrunk.upper = b at hhigh hupper ⊢
    cases hkind : v.kind with
    | continuous => rfl
    | integer =>
      rw [hkind] at hlow hhigh
      exact Prod.ext (Binary64.ceil_eq_self hlow) (Binary64.floor_eq_self hhigh)
    | binary =>
      rw [hkind] at hlow hhigh hlower hupper
      refine Prod.ext ?_ ?_
      · show Binary64.ceil (Scalar.greatest a 0) = a
        rw [Binary64.greatest_zero_eq_self hl hlower, Binary64.ceil_eq_self hlow]
      · show Binary64.floor (Scalar.least b 1) = b
        have hone : (⌊min u 1⌋ : ℚ) ≤ 1 := (Int.floor_le _).trans (min_le_right u 1)
        rw [Binary64.least_one_eq_self hhigh hone, Binary64.floor_eq_self hhigh]
  unfold shrunk at hinward ⊢
  rw [hinward]

/-- A proper variable has bounds of some value. -/
theorem Proper.exists_values (h : v.Proper) :
    ∃ l u : ℚ, value? v.lower = some l ∧ value? v.upper = some u := by
  obtain ⟨l, hl⟩ := Binary64.isFinite_iff.mp h.isFinite_lower
  obtain ⟨u, hu⟩ := Binary64.isFinite_iff.mp h.isFinite_upper
  exact ⟨l, u, hl, hu⟩

/-- Moving the bounds inwards keeps a variable proper unless they cross. -/
theorem Proper.shrunk (h : v.Proper) (hl : value? v.lower = some l) (hu : value? v.upper = some u)
    (hle : (v.kind.ends l u).1 ≤ (v.kind.ends l u).2) : v.shrunk.Proper := by
  obtain ⟨hlow, hhigh⟩ := value?_shrunk hl hu
  exact ⟨Binary64.isFinite_iff.mpr ⟨_, hlow⟩, Binary64.isFinite_iff.mpr ⟨_, hhigh⟩,
    (Binary64.le_iff_value_le hlow hhigh).mpr hle, h.isFinite_priority, h.priority_nonneg⟩

/-! ## The check -/

/-- `w` is `v` with its bounds at the least and the greatest value of the domain. -/
structure Admits (v w : Variable Float) : Prop where
  /-- The kind is the same. -/
  kind : w.kind = v.kind
  /-- So is the name. -/
  name : w.name = v.name
  /-- So is the priority. -/
  priority : w.priority = v.priority
  /-- So is the domain. -/
  domain : w.domain = v.domain
  /-- The lower bound is the least value. -/
  least : ∃ l : ℚ, value? w.lower = some l ∧ IsLeast v.domain (l : ℝ)
  /-- The upper bound is the greatest value. -/
  greatest : ∃ u : ℚ, value? w.upper = some u ∧ IsGreatest v.domain (u : ℝ)
  /-- The bounds of a discrete variable are whole. -/
  whole : w.kind.isDiscrete = true →
    ∃ m n : ℤ, value? w.lower = some (m : ℚ) ∧ value? w.upper = some (n : ℚ)
  /-- The check admits the variable as it is now. -/
  again : w.validated = .ok w

/-- A proper variable is checked for whether its domain is empty. -/
theorem Proper.validated (h : v.Proper) :
    (v.domain.Nonempty → v.validated = .ok v.shrunk ∧ v.Admits v.shrunk)
      ∧ (v.domain = ∅ →
        v.validated = .error (.unsuitableType v.name (.noIntegralValue v.kind.name))) := by
  obtain ⟨l, u, hl, hu⟩ := h.exists_values
  obtain ⟨hlow, hhigh⟩ := value?_shrunk hl hu
  -- the bounds have crossed exactly when no value lies between them
  have hcrossed : v.shrunk.upper < v.shrunk.lower ↔ ¬ v.domain.Nonempty := by
    rw [nonempty_domain_iff hl hu, not_le]
    exact Binary64.lt_iff_value_lt hhigh hlow
  constructor
  · intro hsome
    have hle := (nonempty_domain_iff hl hu).mp hsome
    obtain ⟨hleast, hgreatest⟩ := isLeast_isGreatest_domain hl hu hle
    have hok : v.validated = .ok v.shrunk := by
      rw [validated_of_proper h, if_neg (hcrossed.not.mpr (not_not.mpr hsome))]
    refine ⟨hok, rfl, rfl, rfl, domain_shrunk hl hu, ⟨_, hlow, hleast⟩, ⟨_, hhigh, hgreatest⟩,
      fun hdiscrete => ?_, ?_⟩
    · have hdiscrete : v.kind.isDiscrete = true := hdiscrete
      obtain ⟨m, n, hends⟩ := VariableKind.exists_ends hdiscrete l u
      rw [hends] at hlow hhigh
      exact ⟨m, n, hlow, hhigh⟩
    · rw [validated_of_proper (h.shrunk hl hu hle), shrunk_shrunk hl hu,
        if_neg (hcrossed.not.mpr (not_not.mpr hsome))]
  · intro hempty
    rw [validated_of_proper h, if_pos (hcrossed.mpr (Set.not_nonempty_iff_eq_empty.mpr hempty))]

/-- The check admits the variables whose bounds and priority are proper and whose domain is not
empty, and leaves the domain of each as it is. The type of a variable does not fit if only the
domain is empty; in all other cases the problem is not valid. -/
theorem validated_domain (v : Variable Float) :
    ((∃ w, v.validated = .ok w) ↔ v.Proper ∧ v.domain.Nonempty)
      ∧ (∀ w, v.validated = .ok w → v.Admits w)
      ∧ (v.validated = .error (.unsuitableType v.name (.noIntegralValue v.kind.name))
        ↔ v.Proper ∧ v.domain = ∅)
      ∧ ((∃ fault, v.validated = .error (.invalidProblem fault)) ↔ ¬ v.Proper) := by
  by_cases hproper : v.Proper
  · obtain ⟨hsome, hnone⟩ := hproper.validated
    rcases v.domain.eq_empty_or_nonempty with hempty | hnonempty
    · simp [hnone hempty, hproper, hempty]
    · obtain ⟨hok, hadmits⟩ := hsome hnonempty
      simp [hok, hproper, hnonempty, hnonempty.ne_empty, hadmits]
  · obtain ⟨fault, hfault⟩ := validated_of_not_proper hproper
    simp [hfault, hproper]

/-- A binary variable with bounds on either side of zero. -/
def straddlingSwitch : Variable Float := ⟨-1 / 2, 3 / 4, .binary, 2, "switch"⟩

/-- Its domain is not empty, and so it is admitted. -/
theorem validated_domain_straddlingSwitch :
    ∃ w, straddlingSwitch.validated = .ok w ∧ straddlingSwitch.Admits w := by
  have hok : straddlingSwitch.validated.toBool = true := by decide +kernel
  cases hvalid : straddlingSwitch.validated with
  | error => rw [hvalid] at hok; cases hok
  | ok w => exact ⟨w, rfl, (validated_domain straddlingSwitch).2.1 w hvalid⟩

end Variable

end BranchBound
