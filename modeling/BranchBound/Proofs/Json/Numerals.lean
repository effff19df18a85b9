import Mathlib.Data.List.Basic
import BranchBound.Json.Token

/-! # Numbers are read as they were written

A numeral is proper if it has the form of a number: digits before the point, of which a zero stands
alone, and digits after it. The text of a proper numeral is scanned as that numeral, whatever
follows it that does not go on with the number, and the numerals that are written are proper.

* **`Numeral.IsProper`** — the numerals that have the form of a number.
* **`Json.scanUnsigned_append`** — a proper numeral is scanned as it was written.
* **`Numeral.isProper_ofNat`**, **`Layout.isProper_numeral`** — the numerals that are written are
  proper. -/

namespace BranchBound

/-! ## Digits -/

/-- Digits of a natural number denote it. -/
@[simp] theorem natOfDigits_toDigits (n : Nat) : natOfDigits (Nat.toDigits 10 n) = n := by
  have h := Nat.ofDigitChars_ten_toDigits (n := n)
  rwa [Nat.ofDigitChars_eq_foldl] at h

/-- The characters of a natural number are digits. -/
theorem isDigit_of_mem_toDigits {n : Nat} {c : Char} (h : c ∈ Nat.toDigits 10 n) :
    c.isDigit = true :=
  Nat.isDigit_of_mem_toDigits (by decide) (by decide) h

/-- Only zero starts with a zero. -/
theorem eq_zero_of_head?_toDigits {n : Nat} (h : (Nat.toDigits 10 n).head? = some '0') :
    n = 0 := by
  induction n using Nat.strongRecOn with
  | ind n ih =>
    rw [Nat.toDigits_eq_if (by decide)] at h
    split at h
    · next hlt =>
      have hdigit : ∀ m < 10, m.digitChar = '0' → m = 0 := by decide
      exact hdigit n hlt (Option.some.inj h)
    · next hge =>
      rw [List.head?_append_of_ne_nil _ Nat.toDigits_ne_nil] at h
      have := ih (n / 10) (by omega) h
      omega

/-- Further digits make a number no smaller. -/
theorem le_foldl_digits (digits : List Char) (n : Nat) :
    n ≤ digits.foldl (fun n c => 10 * n + digitValue c) n := by
  induction digits generalizing n with
  | nil => exact Nat.le_refl n
  | cons c rest ih => exact Nat.le_trans (by omega) (ih (10 * n + digitValue c))

/-- All digits are appended to a coefficient that stays below the limit. -/
theorem appendDigits_eq {limit : Nat} (digits : List Char) (n : Nat)
    (h : digits.foldl (fun n c => 10 * n + digitValue c) n < limit) :
    appendDigits limit digits n = (digits.foldl (fun n c => 10 * n + digitValue c) n, 0) := by
  induction digits generalizing n with
  | nil => rfl
  | cons c rest ih =>
    rw [appendDigits, if_pos (Nat.lt_of_le_of_lt (le_foldl_digits rest _) h), ih _ h]
    rfl

/-! ## Proper numerals -/

/-- A numeral that has the form of a number. -/
structure Numeral.IsProper (n : Numeral) : Prop where
  /-- There is a digit before the point. -/
  whole_ne_nil : n.whole ≠ []
  /-- Digits before the point start with a zero only if that is all. -/
  whole_eq : n.whole.head? = some '0' → n.whole = ['0']
  /-- What stands before the point are digits. -/
  whole_digits : ∀ c ∈ n.whole, c.isDigit = true
  /-- What stands after the point are digits. -/
  places_digits : ∀ c ∈ n.places, c.isDigit = true

/-- The text of the places of a numeral. -/
def Numeral.placesText (n : Numeral) : List Char :=
  if n.places.isEmpty then [] else '.' :: n.places

/-- The text of the power of ten of a numeral. -/
def Numeral.shiftText (n : Numeral) : List Char :=
  match n.shift with
  | none => []
  | some shift => 'e' :: (if shift < 0 then '-' else '+') :: Nat.toDigits 10 shift.natAbs

/-- The text of a numeral without its sign. -/
def Numeral.unsignedText (n : Numeral) : List Char := n.whole ++ (n.placesText ++ n.shiftText)

/-- The text of a numeral is its sign with the rest. -/
theorem Numeral.characters_eq (n : Numeral) :
    n.characters = (if n.negative then ['-'] else []) ++ n.unsignedText := by
  show (if n.negative then ['-'] else []) ++ n.whole ++ n.placesText ++ n.shiftText = _
  rw [unsignedText, List.append_assoc, List.append_assoc]

/-- A natural number is written properly. -/
theorem Numeral.isProper_ofNat (n : Nat) : (ofNat n).IsProper where
  whole_ne_nil := Nat.toDigits_ne_nil
  whole_eq h := by
    obtain rfl := eq_zero_of_head?_toDigits h
    rfl
  whole_digits _ h := isDigit_of_mem_toDigits h
  places_digits _ h := nomatch h

/-- A natural number is read as the word it is. -/
theorem Numeral.toWord?_ofNat {limit n : Nat} (h : n < limit) :
    (ofNat n).toWord? limit = some n := by
  simp [toWord?, toNat?, ofNat, Option.filter, h]

/-- All digits of a natural number below the limit count. -/
theorem Numeral.clipped_ofNat {limit n : Nat} (h : n < limit) :
    (ofNat n).clipped limit = .ofNat n := by
  have hdigits : natOfDigits (Nat.toDigits 10 n) < limit := by rwa [natOfDigits_toDigits]
  have happend := appendDigits_eq _ 0 hdigits
  rw [show (Nat.toDigits 10 n).foldl (fun n c => 10 * n + digitValue c) 0 = n from
    natOfDigits_toDigits n] at happend
  unfold clipped ofNat
  dsimp only
  rw [happend]
  rfl

namespace Layout

variable {negative : Bool} {digits : List Char} {exponent : Int}

/-- Digits with all their places make a proper numeral. A zero must not be moved to the left. -/
theorem isProper_positional (layout : Layout) (hne : digits ≠ [])
    (hdigits : ∀ c ∈ digits, c.isDigit = true)
    (hzero : digits.head? = some '0' → digits = ['0'] ∧ exponent ≤ 0) :
    (layout.positional negative digits exponent).IsProper := by
  have hzeros : ∀ count, ∀ c ∈ List.replicate count '0', c.isDigit = true := fun count c hc => by
    rw [List.eq_of_mem_replicate hc]
    rfl
  unfold positional
  split
  · next hexponent =>
    refine ⟨by simp [hne], fun h => ?_, fun c hc => ?_, fun c hc => ?_⟩
    · rw [List.head?_append_of_ne_nil _ hne] at h
      obtain ⟨rfl, hle⟩ := hzero h
      obtain rfl : exponent = 0 := by omega
      rfl
    · exact (List.mem_append.mp hc).elim (hdigits c) (hzeros _ c)
    · dsimp only at hc
      split at hc
      · exact hzeros 1 c hc
      · cases hc
  · next hexponent =>
    dsimp only
    split
    · next hplaces =>
      refine ⟨?_, fun h => ?_, fun c hc => hdigits c (List.mem_of_mem_take hc),
        fun c hc => hdigits c (List.mem_of_mem_drop hc)⟩
      · simp only [ne_eq, List.take_eq_nil_iff, hne, or_false]
        omega
      · -- several digits, the first of which is a zero
        have hhead : digits.head? = some '0' := by
          rw [List.head?_take, if_neg (by omega)] at h
          exact h
        rw [(hzero hhead).1, List.length_singleton] at hplaces
        omega
    · exact ⟨nofun, fun _ => rfl, hzeros 1, fun c hc =>
        (List.mem_append.mp hc).elim (hzeros _ c) (hdigits c)⟩

/-- Digits with a power of ten make a proper numeral. -/
theorem isProper_scientific (magnitude : Int) (hne : digits ≠ [])
    (hdigits : ∀ c ∈ digits, c.isDigit = true) :
    (scientific negative digits magnitude).IsProper := by
  obtain ⟨c, rest, rfl⟩ := List.exists_cons_of_ne_nil hne
  exact ⟨nofun, fun h => congrArg (· :: []) (Option.some.inj h),
    fun d hd => hdigits d (List.mem_of_mem_take hd),
    fun d hd => hdigits d (List.mem_of_mem_drop hd)⟩

/-- A decimal is written properly; a zero must not be moved to the left. -/
theorem isProper_numeral (layout : Layout) {d : Decimal}
    (h : d.coefficient = 0 → d.exponent ≤ 0) : (layout.numeral d).IsProper := by
  have hdigits : ∀ c ∈ Nat.toDigits 10 d.coefficient, c.isDigit = true :=
    fun _ => isDigit_of_mem_toDigits
  rw [numeral]
  generalize (if d.coefficient = 0 then 0 else d.magnitude) = magnitude
  split
  · refine layout.isProper_positional Nat.toDigits_ne_nil hdigits fun hhead => ?_
    have hzero := eq_zero_of_head?_toDigits hhead
    exact ⟨by rw [hzero]; rfl, h hzero⟩
  · exact isProper_scientific magnitude Nat.toDigits_ne_nil hdigits

end Layout

/-! ## Scanning a numeral -/

namespace Json

/-- A text that does not go on with a number in front of it. -/
def EndsNumber (rest : List Char) : Prop :=
  ∀ c ∈ rest.head?, c.isDigit = false ∧ c ≠ '.' ∧ c ≠ 'e' ∧ c ≠ 'E'

variable {digits rest : List Char}

/-- Digits are taken up to the first character that is none. -/
theorem takeSomeDigits_append (hne : digits ≠ []) (hdigits : ∀ c ∈ digits, c.isDigit = true)
    (hrest : ∀ c ∈ rest.head?, c.isDigit = false) :
    takeSomeDigits (digits ++ rest) = some (digits, rest) := by
  have htake : rest.takeWhile Char.isDigit = [] := by
    cases rest with
    | nil => rfl
    | cons c cs => rw [List.takeWhile_cons, hrest c rfl, if_neg Bool.false_ne_true]
  have hdrop : rest.dropWhile Char.isDigit = rest := by
    cases rest with
    | nil => rfl
    | cons c cs => rw [List.dropWhile_cons, hrest c rfl, if_neg Bool.false_ne_true]
  unfold takeSomeDigits takeDigits
  rw [List.takeWhile_append_of_pos hdigits, List.dropWhile_append_of_pos hdigits, htake, hdrop,
    List.append_nil]
  split
  · next h => exact absurd (Prod.mk.inj h).1 hne
  · next h => rw [h]

/-- The whole part of a proper numeral is taken as it was written. -/
theorem takeWhole_append {n : Numeral} (h : n.IsProper)
    (hrest : ∀ c ∈ rest.head?, c.isDigit = false) :
    takeWhole (n.whole ++ rest) = some (n.whole, rest) := by
  unfold takeWhole
  split
  · next tail heq =>
    -- the whole part starts with a zero, so it is this zero
    obtain ⟨c, cs, hcons⟩ := List.exists_cons_of_ne_nil h.whole_ne_nil
    have hhead : n.whole.head? = some '0' := by
      rw [hcons] at heq ⊢
      exact congrArg some (List.cons.inj heq).1
    rw [h.whole_eq hhead] at heq ⊢
    exact congrArg (fun cs => some (['0'], cs)) (List.cons.inj heq).2.symm
  · exact takeSomeDigits_append h.whole_ne_nil h.whole_digits hrest

/-- The places are taken as they were written. -/
theorem takePlaces_append {n : Numeral} (h : n.IsProper)
    (hrest : ∀ c ∈ rest.head?, c.isDigit = false ∧ c ≠ '.') :
    takePlaces (n.placesText ++ rest) = some (n.places, rest) := by
  unfold Numeral.placesText
  cases hplaces : n.places with
  | nil =>
    show takePlaces rest = some ([], rest)
    unfold takePlaces
    split
    · exact absurd rfl (hrest '.' rfl).2
    · rfl
  | cons c cs =>
    show takeSomeDigits (c :: cs ++ rest) = some (c :: cs, rest)
    exact takeSomeDigits_append nofun (hplaces ▸ h.places_digits) fun d hd => (hrest d hd).1

/-- The power of ten is taken as it was written. -/
theorem takeShift_append (n : Numeral) (hrest : EndsNumber rest) :
    takeShift (n.shiftText ++ rest) = some (n.shift, rest) := by
  unfold Numeral.shiftText
  cases n.shift with
  | none =>
    show takeShift rest = some (none, rest)
    unfold takeShift
    split
    · -- the text that follows does not begin with the letter of a power
      exact absurd rfl (hrest 'e' rfl).2.2.1
    · exact absurd rfl (hrest 'E' rfl).2.2.2
    · rfl
  | some shift =>
    have hdigits : takeSomeDigits (Nat.toDigits 10 shift.natAbs ++ rest)
        = some (Nat.toDigits 10 shift.natAbs, rest) :=
      takeSomeDigits_append Nat.toDigits_ne_nil (fun _ => isDigit_of_mem_toDigits)
        fun c hc => (hrest c hc).1
    have hsigned : takeSigned ((if shift < 0 then '-' else '+')
        :: (Nat.toDigits 10 shift.natAbs ++ rest)) = some (shift, rest) := by
      by_cases hneg : shift < 0
      · simp only [if_pos hneg, takeSigned, hdigits, Option.map_some, natOfDigits_toDigits]
        rw [show -(shift.natAbs : Int) = shift by omega]
      · simp only [if_neg hneg, takeSigned, hdigits, Option.map_some, natOfDigits_toDigits]
        rw [show (shift.natAbs : Int) = shift by omega]
    show (takeSigned ((if shift < 0 then '-' else '+')
      :: (Nat.toDigits 10 shift.natAbs ++ rest))).map _ = _
    rw [hsigned]
    rfl

/-- The digits of a number end where its power of ten starts. -/
theorem head?_shiftText_append (n : Numeral) (hrest : EndsNumber rest) :
    ∀ c ∈ (n.shiftText ++ rest).head?, c.isDigit = false ∧ c ≠ '.' := by
  intro c hc
  unfold Numeral.shiftText at hc
  cases hshift : n.shift with
  | none =>
    rw [hshift] at hc
    exact ⟨(hrest c hc).1, (hrest c hc).2.1⟩
  | some shift =>
    rw [hshift] at hc
    cases hc
    decide

/-- The whole part of a number ends where its places start. -/
theorem head?_placesText_append (n : Numeral) (hrest : EndsNumber rest) :
    ∀ c ∈ (n.placesText ++ (n.shiftText ++ rest)).head?, c.isDigit = false := by
  intro c hc
  unfold Numeral.placesText at hc
  split at hc
  · exact (head?_shiftText_append n hrest c hc).1
  · cases hc
    rfl

/-- A proper numeral is scanned as it was written. -/
theorem scanUnsigned_append {n : Numeral} (h : n.IsProper) (hrest : EndsNumber rest) :
    scanUnsigned n.negative (n.unsignedText ++ rest) = some (.number n, rest) := by
  unfold scanUnsigned Numeral.unsignedText
  rw [List.append_assoc, List.append_assoc, takeWhole_append h (head?_placesText_append n hrest)]
  simp only [Option.bind_eq_bind, Option.bind_some]
  rw [takePlaces_append h (head?_shiftText_append n hrest)]
  simp only [Option.bind_some]
  rw [takeShift_append n hrest]
  rfl

end Json

end BranchBound
