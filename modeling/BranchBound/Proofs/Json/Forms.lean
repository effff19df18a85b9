import BranchBound.Json.Form
import BranchBound.Proofs.Json.Scanning
import BranchBound.Proofs.Scalar.Legible

/-! # What is read of what was written

A structure is written as an object of its parts, and reading takes the object apart again. Each
form has the law that a value comes back if all scalars in it are finite, and that nothing comes
back otherwise; the law of a form with parts follows from those of its parts.

* **`Json.record?_ofMembers`** — an object is taken apart into what it was made of.
* **`JsonForm.Carries`** — the law of a form at a value in which certain scalars stand.
* **`JsonForm.carries_scalar`**, **`JsonForm.Carries.optional`**, **`JsonForm.Carries.list`** and
  their like — the laws of the simple forms. -/

namespace BranchBound

namespace Json

variable {ms : List (String × Json)}

/-- An object of values that can be written can be written. -/
theorem IsWritable.ofMembers (h : ∀ m ∈ ms, m.2.IsWritable) : (ofMembers ms).IsWritable := by
  refine .object ?_ ?_
  · exact List.forall_mem_map.mpr fun _ _ => rfl
  · exact List.forall_mem_map.mpr h

/-- The members of one name, of which there is one. -/
theorem filter_name (hnames : (ms.map (·.1)).Nodup) {m : String × Json} (hm : m ∈ ms) :
    (ms.map fun n => (some n.1, n.2)).filter (fun n => n.1 = some m.1) = [(some m.1, m.2)] := by
  induction ms with
  | nil => cases hm
  | cons n ms ih =>
    rw [List.map_cons, List.nodup_cons] at hnames
    obtain ⟨hne, hnames⟩ := hnames
    rcases List.mem_cons.mp hm with rfl | hm
    · have hnone : (ms.map fun n => (some n.1, n.2)).filter (fun n => n.1 = some m.1) = [] := by
        simp only [List.filter_eq_nil_iff, List.forall_mem_map, decide_eq_true_eq,
          Option.some.injEq]
        exact fun n hn heq => hne (heq ▸ List.mem_map_of_mem hn)
      rw [List.map_cons, List.filter_cons_of_pos (by simp), hnone]
    · have hother : n.1 ≠ m.1 := fun heq => hne (heq ▸ List.mem_map_of_mem hm)
      rw [List.map_cons, List.filter_cons_of_neg (by simpa using hother), ih hnames hm]

/-- The parts of a structure are the values of its members. -/
theorem record?_ofMembers {names : List String} (hnames : ms.map (·.1) = names)
    (hnodup : names.Nodup) : (ofMembers ms).record? names = some (ms.map fun m => some m.2) := by
  subst hnames
  have hvalues : (ms.map (·.1)).map (fun name =>
      ((ms.map fun n => (some n.1, n.2)).filter (·.1 = some name)).map (·.2))
      = ms.map fun m => [m.2] := by
    rw [List.map_map]
    refine List.map_congr_left fun m hm => ?_
    show ((ms.map fun n => (some n.1, n.2)).filter (·.1 = some m.1)).map (·.2) = _
    rw [filter_name hnodup hm]
    rfl
  unfold ofMembers record?
  dsimp only
  rw [hvalues]
  simp [Function.comp_def]

end Json

/-! ## Forms that carry values -/

namespace JsonForm

variable {α : Type} [Scalar α] {β : Type}

/-- A form carries a value in which the given scalars stand: the value can be written, and it is
read again unless one of these scalars is not finite. Then nothing is read at all. -/
structure Carries (form : JsonForm β) (x : β) (xs : List α) : Prop where
  /-- The value can be written. -/
  writable : (form.write x).IsWritable
  /-- The value is read, or nothing is. -/
  read_write : form.read (form.write x) = if xs.all Scalar.isFinite then some x else none

/-- A value in which no scalars stand is read. -/
theorem Carries.read_eq {form : JsonForm β} {x : β} (h : form.Carries x ([] : List α)) :
    form.read (form.write x) = some x :=
  h.read_write

/-- What is done with a value that is read only if some scalars are finite. -/
theorem ite_some_bind {γ : Type} (p : Prop) [Decidable p] (x : β) (f : β → Option γ) :
    (if p then some x else none).bind f = if p then f x else none := by
  split
  · rfl
  · rfl

/-- A form carries natural numbers below its limit. -/
theorem carries_word {limit n : Nat} (h : n < limit) :
    (word limit).Carries n ([] : List α) where
  writable := .number (Numeral.isProper_ofNat n)
  read_write := Numeral.toWord?_ofNat h

/-- A form carries truth values. -/
theorem carries_bool (b : Bool) : bool.Carries b ([] : List α) := ⟨.bool b, rfl⟩

/-- A form carries strings. -/
theorem carries_string (s : String) : string.Carries s ([] : List α) := ⟨.text s, rfl⟩

/-- A form carries scalars that read back. -/
theorem carries_scalar [Scalar.Legible α] {x : α} (h : Scalar.ReadsBack x) :
    scalar.Carries x [x] := by
  have hall : [x].all Scalar.isFinite = Scalar.isFinite x := by
    rw [List.all_cons, List.all_nil, Bool.and_true]
  -- what is not finite has no numeral and is written as the empty value
  cases hfinite : Scalar.isFinite x with
  | true =>
    have hwrite : scalar.write x
        = .number (Layout.wire.numeral (Scalar.toDecimal Layout.wire.tie x)) := if_pos hfinite
    refine ⟨?_, ?_⟩
    · rw [hwrite]
      exact .number (Layout.wire.isProper_numeral fun hzero =>
        (Scalar.Legible.exponent_eq_zero _ x hzero).le)
    · rw [hwrite, hall, hfinite, if_pos rfl]
      exact h hfinite
  | false =>
    have hwrite : scalar.write x = .null := if_neg (Bool.eq_false_iff.mp hfinite)
    refine ⟨?_, ?_⟩
    · rw [hwrite]
      exact .null
    · rw [hwrite, hall, hfinite]
      rfl

/-- A form carries values that may be absent if it carries those that are there. What is there must
not be written as if it were absent. -/
theorem Carries.optional {form : JsonForm β} {scalars : β → List α} {x : Option β}
    (h : ∀ y ∈ x, form.Carries y (scalars y)) (hne : ∀ y ∈ x, form.write y ≠ .null) :
    form.optional.Carries x (x.elim [] scalars) := by
  cases x with
  | none => exact ⟨.null, rfl⟩
  | some y =>
    have hread : form.optional.read (form.write y) = (form.read (form.write y)).map some := by
      have := hne y rfl
      unfold JsonForm.optional
      dsimp only
      split
      · contradiction
      · rfl
    refine ⟨(h y rfl).writable, ?_⟩
    show form.optional.read (form.write y) = if (scalars y).all Scalar.isFinite then _ else _
    rw [hread, (h y rfl).read_write]
    split
    · rfl
    · rfl

/-- A form carries lists of values that it carries. -/
theorem Carries.list {form : JsonForm β} {scalars : β → List α} {ys : List β}
    (h : ∀ y ∈ ys, form.Carries y (scalars y)) : form.list.Carries ys (ys.flatMap scalars) where
  writable := .array (List.forall_mem_map.mpr fun y hy => (h y hy).writable)
  read_write := by
    show (ys.map form.write).mapM form.read = _
    induction ys with
    | nil => rfl
    | cons y ys ih =>
      rw [List.map_cons, List.mapM_cons, (h y List.mem_cons_self).read_write,
        ih fun z hz => h z (List.mem_cons_of_mem _ hz), List.flatMap_cons, List.all_append]
      cases (scalars y).all Scalar.isFinite with
      | false => rfl
      | true =>
        cases (ys.flatMap scalars).all Scalar.isFinite with
        | false => rfl
        | true => rfl

/-- A form carries lists of scalars that read back. -/
theorem carries_scalars [Scalar.Legible α] {xs : List α} (h : ∀ x ∈ xs, Scalar.ReadsBack x) :
    scalar.list.Carries xs xs := by
  have hlist := Carries.list fun x hx => carries_scalar (h x hx)
  rwa [List.flatMap_singleton'] at hlist

/-- A form carries natural numbers below its limit that may be absent. -/
theorem carries_optional_word {limit : Nat} {x : Option Nat} (h : ∀ n ∈ x, n < limit) :
    (word limit).optional.Carries x ([] : List α) := by
  have hoption : (word limit).optional.Carries x (x.elim ([] : List α) fun _ => []) :=
    Carries.optional (fun n hn => carries_word (h n hn)) fun _ _ => nofun
  cases x with
  | none => exact hoption
  | some n => exact hoption

/-- A form carries names that it reads as what they name. -/
theorem carries_named {ofName? : String → Option β} {name : β → String} {x : β}
    (h : ofName? (name x) = some x) : (named ofName? name).Carries x ([] : List α) :=
  ⟨.text _, h⟩

end JsonForm

end BranchBound
