import BranchBound.Scalar.Basic
import Mathlib.Data.Set.Insert
import Mathlib.Order.Defs.LinearOrder
import Mathlib.Tactic.Tauto

/-! # The order of scalars

The laws of comparison that scores obey. They hold of binary floating-point numbers as well as of
exact ones: among the values that are not undefined, `≤` is a total preorder with a least and a
greatest element, an undefined value is related to nothing, and `order` is a total order on all
values. Two values that are `≤` each other need not be equal, since a zero may have a sign.

* **`Scalar.Ordered`** — these laws.
* **`least_le_left`**, **`least_le_right`**, **`least_le_iff`** — `least` is a lower bound of the
  operands that are defined.
* **`Scalar.IsLowest scores low`** — `low` is the lowest of some scores; folding `least` over them
  finds it (`IsLowest.foldl`), and it is determined up to equality of values (`IsLowest.unique`). -/

namespace BranchBound.Scalar

/-- The laws of comparison. -/
class Ordered (α : Type) [Scalar α] : Prop where
  /-- A value that is defined is at most itself. -/
  le_refl {x : α} : isNaN x = false → x ≤ x
  /-- Weak comparison is transitive. -/
  le_trans {x y z : α} : x ≤ y → y ≤ z → x ≤ z
  /-- Values that are defined are comparable. -/
  le_total {x y : α} : isNaN x = false → isNaN y = false → x ≤ y ∨ y ≤ x
  /-- Strict comparison is weak comparison in one direction only. -/
  lt_iff_le_not_ge {x y : α} : x < y ↔ x ≤ y ∧ ¬ y ≤ x
  /-- Values compare as equal if each is at most the other. -/
  beq_iff_le_ge {x y : α} : (x == y) = true ↔ x ≤ y ∧ y ≤ x
  /-- An undefined value is at most nothing. -/
  isNaN_left_of_le {x y : α} : x ≤ y → isNaN x = false
  /-- Nothing is at most an undefined value. -/
  isNaN_right_of_le {x y : α} : x ≤ y → isNaN y = false
  /-- Infinity is defined. -/
  isNaN_infinity : isNaN (infinity : α) = false
  /-- A value that is defined is at most infinity. -/
  le_infinity {x : α} : isNaN x = false → x ≤ infinity
  /-- A value that is defined is at least negative infinity. -/
  neg_infinity_le {x : α} : isNaN x = false → -infinity ≤ x
  /-- The total order is oriented and transitive. -/
  order_trans : Std.TransCmp (order : α → α → Ordering)

/-! ## Comparison by ranks -/

section Ranks

variable {α ρ : Type} [Scalar α] [LinearOrder ρ]

/-- Values compare as their ranks do; undefined values are those without a rank. -/
structure IsRank (rank? : α → Option ρ) : Prop where
  /-- Strict comparison. -/
  lt_iff (x y : α) : x < y ↔ ∃ r q, rank? x = some r ∧ rank? y = some q ∧ r < q
  /-- Weak comparison. -/
  le_iff (x y : α) : x ≤ y ↔ ∃ r q, rank? x = some r ∧ rank? y = some q ∧ r ≤ q
  /-- Comparison for equality. -/
  beq_iff (x y : α) : (x == y) = true ↔ ∃ r, rank? x = some r ∧ rank? y = some r
  /-- Undefined values have no rank. -/
  isNaN_iff (x : α) : isNaN x = true ↔ rank? x = none
  /-- Infinity has the highest rank. -/
  infinity_rank : ∃ top, rank? infinity = some top ∧ ∀ x r, rank? x = some r → r ≤ top
  /-- Negative infinity has the lowest rank. -/
  neg_infinity_rank : ∃ bottom, rank? (-infinity) = some bottom ∧
    ∀ x r, rank? x = some r → bottom ≤ r

variable {rank? : α → Option ρ} {x : α} {r : ρ}

/-- A value that is defined has a rank. -/
theorem IsRank.exists_rank (h : IsRank rank?) (hx : isNaN x = false) : ∃ r, rank? x = some r := by
  rw [← Option.isSome_iff_exists, Option.isSome_iff_ne_none]
  intro hnone
  rw [(h.isNaN_iff x).mpr hnone] at hx
  cases hx

/-- A value of some rank is defined. -/
theorem IsRank.isNaN_eq_false (h : IsRank rank?) (hx : rank? x = some r) : isNaN x = false := by
  by_contra hnan
  rw [Bool.not_eq_false, h.isNaN_iff, hx] at hnan
  cases hnan

/-- Values that compare as their ranks do obey the laws of comparison. -/
theorem IsRank.ordered (h : IsRank rank?)
    (order_trans : Std.TransCmp (order : α → α → Ordering)) : Ordered α where
  le_refl hx := by
    obtain ⟨r, hr⟩ := h.exists_rank hx
    exact (h.le_iff _ _).mpr ⟨r, r, hr, hr, le_refl r⟩
  le_trans hxy hyz := by
    obtain ⟨r, q, hr, hq, hrq⟩ := (h.le_iff _ _).mp hxy
    obtain ⟨q', p, hq', hp, hqp⟩ := (h.le_iff _ _).mp hyz
    rw [hq] at hq'
    cases hq'
    exact (h.le_iff _ _).mpr ⟨r, p, hr, hp, le_trans hrq hqp⟩
  le_total hx hy := by
    obtain ⟨r, hr⟩ := h.exists_rank hx
    obtain ⟨q, hq⟩ := h.exists_rank hy
    rcases le_total r q with hle | hle
    · exact .inl ((h.le_iff _ _).mpr ⟨r, q, hr, hq, hle⟩)
    · exact .inr ((h.le_iff _ _).mpr ⟨q, r, hq, hr, hle⟩)
  lt_iff_le_not_ge {x y} := by
    rw [h.lt_iff, h.le_iff, h.le_iff]
    constructor
    · rintro ⟨r, q, hr, hq, hlt⟩
      -- the ranks of the two numbers are the same in both comparisons
      refine ⟨⟨r, q, hr, hq, le_of_lt hlt⟩, ?_⟩
      rintro ⟨q', r', hq', hr', hge⟩
      rw [hq] at hq'
      rw [hr] at hr'
      cases hq'
      cases hr'
      exact absurd hge (not_le_of_gt hlt)
    · rintro ⟨⟨r, q, hr, hq, -⟩, hge⟩
      exact ⟨r, q, hr, hq, not_le.mp fun hqr => hge ⟨q, r, hq, hr, hqr⟩⟩
  beq_iff_le_ge {x y} := by
    rw [h.beq_iff, h.le_iff, h.le_iff]
    constructor
    · rintro ⟨r, hr, hq⟩
      exact ⟨⟨r, r, hr, hq, le_refl r⟩, r, r, hq, hr, le_refl r⟩
    · rintro ⟨⟨r, q, hr, hq, hle⟩, q', r', hq', hr', hge⟩
      rw [hq] at hq'
      rw [hr] at hr'
      cases hq'
      cases hr'
      exact ⟨r, hr, le_antisymm hle hge ▸ hq⟩
  isNaN_left_of_le hle := by
    obtain ⟨r, -, hr, -⟩ := (h.le_iff _ _).mp hle
    exact h.isNaN_eq_false hr
  isNaN_right_of_le hle := by
    obtain ⟨-, q, -, hq, -⟩ := (h.le_iff _ _).mp hle
    exact h.isNaN_eq_false hq
  isNaN_infinity := by
    obtain ⟨top, htop, -⟩ := h.infinity_rank
    exact h.isNaN_eq_false htop
  le_infinity hx := by
    obtain ⟨top, htop, hle⟩ := h.infinity_rank
    obtain ⟨r, hr⟩ := h.exists_rank hx
    exact (h.le_iff _ _).mpr ⟨r, top, hr, htop, hle _ r hr⟩
  neg_infinity_le hx := by
    obtain ⟨bottom, hbottom, hle⟩ := h.neg_infinity_rank
    obtain ⟨r, hr⟩ := h.exists_rank hx
    exact (h.le_iff _ _).mpr ⟨bottom, r, hbottom, hr, hle _ r hr⟩
  order_trans := order_trans

end Ranks

variable {α β : Type} [Scalar α] [Ordered α] {x y z low : α} {scores : Set α}

instance : Std.TransCmp (order : α → α → Ordering) := Ordered.order_trans

/-! ## Comparison -/

/-- The total order is oriented. -/
theorem order_eq_swap (x y : α) : order x y = (order y x).swap := Std.OrientedCmp.eq_swap

/-- A smaller value is at most the greater one. -/
theorem le_of_lt (h : x < y) : x ≤ y := (Ordered.lt_iff_le_not_ge.mp h).1

/-- Of two values that are defined, one is at most the other or greater. -/
theorem le_of_not_lt (hx : isNaN x = false) (hy : isNaN y = false) (h : ¬ x < y) : y ≤ x := by
  rcases Ordered.le_total hx hy with hxy | hyx
  · by_contra hyx
    exact h (Ordered.lt_iff_le_not_ge.mpr ⟨hxy, hyx⟩)
  · exact hyx

/-- Of two values that are defined, one is at most the other or smaller. -/
theorem lt_of_not_le (hx : isNaN x = false) (hy : isNaN y = false) (h : ¬ x ≤ y) : y < x := by
  refine Ordered.lt_iff_le_not_ge.mpr ⟨?_, h⟩
  exact (Ordered.le_total hx hy).resolve_left h

/-- A smaller value is not at least the greater one. -/
theorem not_le_of_lt (h : x < y) : ¬ y ≤ x := (Ordered.lt_iff_le_not_ge.mp h).2

/-- What is at most a smaller value is smaller as well. -/
theorem lt_of_le_of_lt (h : x ≤ y) (k : y < z) : x < z := by
  refine Ordered.lt_iff_le_not_ge.mpr ⟨Ordered.le_trans h (le_of_lt k), fun hzx => ?_⟩
  exact not_le_of_lt k (Ordered.le_trans hzx h)

/-! ## The smaller and the greater of two values -/

omit [Ordered α] in
/-- The smaller of two values is one of them. -/
theorem least_eq_or (x y : α) : least x y = x ∨ least x y = y := by
  unfold least
  split
  · exact .inl rfl
  · exact .inr rfl

omit [Ordered α] in
/-- The greater of two values is one of them. -/
theorem greatest_eq_or (x y : α) : greatest x y = x ∨ greatest x y = y := by
  unfold greatest
  split
  · exact .inl rfl
  · exact .inr rfl

/-- The smaller of two values is at most the first one, if that is defined. -/
theorem least_le_left (hx : isNaN x = false) : least x y ≤ x := by
  unfold least
  split
  · exact Ordered.le_refl hx
  · next h =>
    rw [not_or, Bool.not_eq_true] at h
    exact le_of_not_lt hx h.2 h.1

/-- The smaller of two values is at most the second one, if that is defined. -/
theorem least_le_right (hy : isNaN y = false) : least x y ≤ y := by
  unfold least
  split
  · next h =>
    rw [hy] at h
    exact le_of_lt (h.resolve_right (by decide))
  · exact Ordered.le_refl hy

/-- The smaller of two values is at most what the first one is at most. -/
theorem least_le_of_left (h : x ≤ z) : least x y ≤ z :=
  Ordered.le_trans (least_le_left (Ordered.isNaN_left_of_le h)) h

/-- The smaller of two values is at most what the second one is at most. -/
theorem least_le_of_right (h : y ≤ z) : least x y ≤ z :=
  Ordered.le_trans (least_le_right (Ordered.isNaN_left_of_le h)) h

/-- The smaller of two values is at most what one of them is at most, and nothing else. -/
theorem least_le_iff : least x y ≤ z ↔ x ≤ z ∨ y ≤ z := by
  refine ⟨fun h => ?_, fun h => h.elim least_le_of_left least_le_of_right⟩
  rcases least_eq_or x y with heq | heq <;> rw [heq] at h
  · exact .inl h
  · exact .inr h

/-- The smaller of two values is defined if the first one is. -/
theorem isNaN_least (hx : isNaN x = false) : isNaN (least x y) = false :=
  Ordered.isNaN_left_of_le (least_le_left hx)

/-- The greater of two values is at least the first one, if that is defined. -/
theorem le_greatest_left (hx : isNaN x = false) : x ≤ greatest x y := by
  unfold greatest
  split
  · exact Ordered.le_refl hx
  · next h =>
    rw [not_or, Bool.not_eq_true] at h
    exact le_of_not_lt h.2 hx h.1

/-- The greater of two values is at least the second one, if that is defined. -/
theorem le_greatest_right (hy : isNaN y = false) : y ≤ greatest x y := by
  unfold greatest
  split
  · next h =>
    rw [hy] at h
    exact le_of_lt (h.resolve_right (by decide))
  · exact Ordered.le_refl hy

omit [Ordered α] in
/-- The greater of two values is at most what both are at most. -/
theorem greatest_le (hx : x ≤ z) (hy : y ≤ z) : greatest x y ≤ z := by
  rcases greatest_eq_or x y with h | h <;> rw [h]
  · exact hx
  · exact hy

/-! ## The lowest of some scores -/

/-- `low` is the lowest of those scores that are defined; infinity if there is none. -/
structure IsLowest (scores : Set α) (low : α) : Prop where
  /-- The lowest score is defined. -/
  defined : isNaN low = false
  /-- It is at most every score that is defined. -/
  le : ∀ x ∈ scores, isNaN x = false → low ≤ x
  /-- It is one of the scores, or infinity if none is defined. -/
  attained : low ∈ scores ∨ low = infinity ∧ ∀ x ∈ scores, isNaN x = true

/-- The lowest of no scores is infinity. -/
theorem isLowest_empty : IsLowest (∅ : Set α) infinity where
  defined := Ordered.isNaN_infinity
  le _ hx := hx.elim
  attained := .inr ⟨rfl, fun _ hx => hx.elim⟩

/-- The lowest of some scores and one more. -/
theorem IsLowest.insert (h : IsLowest scores low) (x : α) :
    IsLowest (insert x scores) (least low x) where
  defined := isNaN_least h.defined
  le y hy hdef := by
    rcases hy with rfl | hy
    · exact least_le_right hdef
    · exact Ordered.le_trans (least_le_left h.defined) (h.le y hy hdef)
  attained := by
    unfold least
    split
    · next hlow =>
      rcases h.attained with hmem | ⟨rfl, hall⟩
      · exact .inl (.inr hmem)
      · -- nothing is above infinity, so the new score is undefined as well
        have hnan : isNaN x = true := by
          by_contra hx
          rw [Bool.not_eq_true] at hx
          rw [hx] at hlow
          exact not_le_of_lt (hlow.resolve_right (by decide)) (Ordered.le_infinity hx)
        refine .inr ⟨rfl, fun y hy => ?_⟩
        rcases hy with rfl | hy
        · exact hnan
        · exact hall y hy
    · exact .inl (.inl rfl)

/-- Folding `least` over more scores finds the lowest of all. -/
theorem IsLowest.foldl (h : IsLowest scores low) (items : List β) (score : β → α) :
    IsLowest (scores ∪ {x | ∃ b ∈ items, score b = x})
      (items.foldl (fun low b => least low (score b)) low) := by
  induction items generalizing scores low with
  | nil => simpa using h
  | cons b rest ih =>
    have hset : scores ∪ {x | ∃ c ∈ b :: rest, score c = x}
        = Insert.insert (score b) scores ∪ {x | ∃ c ∈ rest, score c = x} := by
      ext x
      simp only [Set.mem_union, Set.mem_ofPred_eq, List.mem_cons, exists_eq_or_imp,
        Set.mem_insert_iff]
      tauto
    rw [hset]
    exact ih (h.insert (score b))

/-- Folding `least` over scores from infinity on finds the lowest. -/
theorem isLowest_foldl (items : List β) (score : β → α) :
    IsLowest {x | ∃ b ∈ items, score b = x}
      (items.foldl (fun low b => least low (score b)) infinity) := by
  simpa using isLowest_empty.foldl items score

/-- Folding `least` over scores ends with at most what the start or one of the scores is at most. -/
theorem foldl_least_le {items : List β} {score : β → α} {low : α}
    (h : low ≤ z ∨ ∃ b ∈ items, score b ≤ z) :
    items.foldl (fun low b => least low (score b)) low ≤ z := by
  induction items generalizing low with
  | nil => exact h.resolve_right fun ⟨_, hb, _⟩ => absurd hb List.not_mem_nil
  | cons b rest ih =>
    refine ih ?_
    rcases h with hlow | ⟨c, hc, hle⟩
    · exact .inl (least_le_of_left hlow)
    · rcases List.mem_cons.mp hc with rfl | hc
      · exact .inl (least_le_of_right hle)
      · exact .inr ⟨c, hc, hle⟩

/-- Two lowest scores are at most each other. -/
theorem IsLowest.unique {other : α} (h : IsLowest scores low) (k : IsLowest scores other) :
    low ≤ other := by
  rcases k.attained with hmem | ⟨rfl, -⟩
  · exact h.le other hmem k.defined
  · exact Ordered.le_infinity h.defined

end BranchBound.Scalar
