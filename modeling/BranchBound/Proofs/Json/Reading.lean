import BranchBound.Json.Reader
import BranchBound.Proofs.Json.Scanning

/-! # Values are read as they were written

The reader puts the tokens of a value together again, whatever arrays and objects are open around
it. With the scan of its text before, a value that can be written is the value that its text
denotes.

* **`Reads`** — the tokens of a value are read as this value.
* **`reads`** — so are those of every value.
* **`parse?_render`** — the text of a value denotes it. -/

namespace BranchBound.Json

open Reader

/-! ## Induction on values -/

/-- What holds of an array if it holds of its items, and of an object if it holds of the values of
its members, holds of every value. -/
@[elab_as_elim] theorem induction {P : Json → Prop} (null : P .null)
    (bool : ∀ value, P (.bool value)) (number : ∀ n, P (.number n))
    (text : ∀ value, P (.text value))
    (array : ∀ items, (∀ item ∈ items, P item) → P (.array items))
    (object : ∀ members, (∀ m ∈ members, P m.2) → P (.object members)) (j : Json) : P j :=
  @Json.rec P (fun items => ∀ item ∈ items, P item) (fun members => ∀ m ∈ members, P m.2)
    (fun m => P m.2) null bool number text array object nofun
    (fun _ _ hitem hitems => List.forall_mem_cons.mpr ⟨hitem, hitems⟩) nofun
    (fun _ _ hm hmembers => List.forall_mem_cons.mpr ⟨hm, hmembers⟩) (fun _ _ h => h) j

/-! ## Putting tokens together -/

/-- The tokens of a value are read as this value where a value may come, whatever is open around
it. -/
def Reads (j : Json) : Prop :=
  ∀ frames expects, expects = .value ∨ expects = .firstItem →
    j.toTokens.foldlM step ⟨frames, expects⟩ = some (place frames j)

variable {frames : List Frame} {expects : Expectation}

/-- Items with commas between them are read into the array that is open. -/
theorem foldlM_items {item : Json} {items : List Json} (h : ∀ i ∈ item :: items, Reads i)
    (found : List Json) (hexpects : expects = .value ∨ expects = .firstItem) :
    (joinTokens ((item :: items).map toTokens)).foldlM step ⟨.array found :: frames, expects⟩
      = some ⟨.array ((item :: items).reverse ++ found) :: frames, .next⟩ := by
  induction items generalizing item found expects with
  | nil => exact h item List.mem_cons_self _ expects hexpects
  | cons next items ih =>
    have hitem := h item List.mem_cons_self (.array found :: frames) expects hexpects
    have hrest := ih (fun i hi => h i (List.mem_cons_of_mem _ hi)) (item :: found) (.inl rfl)
    show (item.toTokens ++ .comma :: joinTokens ((next :: items).map toTokens)).foldlM step _ = _
    rw [List.foldlM_append, hitem]
    show (joinTokens ((next :: items).map toTokens)).foldlM step
      ⟨.array (item :: found) :: frames, .value⟩ = _
    rw [hrest]
    simp only [List.reverse_cons, List.append_assoc, List.cons_append, List.nil_append]

/-- A member is read into the object that is open. -/
theorem foldlM_member {m : Option String × Json} (h : Reads m.2)
    (found : List (Option String × Json)) (name : Option String)
    (hexpects : expects = .name ∨ expects = .firstName) :
    (.text m.1 :: .colon :: m.2.toTokens).foldlM step ⟨.object found name :: frames, expects⟩
      = some ⟨.object (m :: found) none :: frames, .next⟩ := by
  have hvalue := h (.object found m.1 :: frames) .value (.inl rfl)
  rcases hexpects with rfl | rfl
  · exact hvalue
  · exact hvalue

/-- Members with commas between them are read into the object that is open. -/
theorem foldlM_members {m : Option String × Json} {members : List (Option String × Json)}
    (h : ∀ n ∈ m :: members, Reads n.2) (found : List (Option String × Json))
    (name : Option String) (hexpects : expects = .name ∨ expects = .firstName) :
    (joinTokens ((m :: members).map fun n => .text n.1 :: .colon :: n.2.toTokens)).foldlM step
        ⟨.object found name :: frames, expects⟩
      = some ⟨.object ((m :: members).reverse ++ found) none :: frames, .next⟩ := by
  induction members generalizing m found name expects with
  | nil => exact foldlM_member (h m List.mem_cons_self) found name hexpects
  | cons next members ih =>
    have hrest := ih (fun n hn => h n (List.mem_cons_of_mem _ hn)) (m :: found) none (.inl rfl)
    show (.text m.1 :: .colon :: m.2.toTokens ++ .comma :: joinTokens _).foldlM step _ = _
    rw [List.foldlM_append, foldlM_member (h m List.mem_cons_self) found name hexpects]
    refine hrest.trans ?_
    simp only [List.reverse_cons, List.append_assoc, List.cons_append, List.nil_append]

/-- The tokens of every value are read as this value. -/
theorem reads (j : Json) : j.Reads := by
  induction j using induction with
  | null =>
    rintro frames _ (rfl | rfl)
    all_goals rfl
  | bool value =>
    rintro frames _ (rfl | rfl)
    all_goals rfl
  | number n =>
    rintro frames _ (rfl | rfl)
    all_goals rfl
  | text value =>
    rintro frames _ (rfl | rfl)
    all_goals rfl
  | array items ih =>
    intro frames expects hexpects
    -- the closing bracket finds the items in reverse and puts them in order
    rw [toTokens, itemTokens_eq, List.foldlM_cons]
    have hopen : step ⟨frames, expects⟩ .openArray = some ⟨.array [] :: frames, .firstItem⟩ := by
      rcases hexpects with rfl | rfl
      all_goals rfl
    rw [hopen, Option.bind_eq_bind, Option.bind_some, List.foldlM_append]
    cases items with
    | nil => rfl
    | cons item items =>
      rw [foldlM_items ih [] (.inr rfl), List.append_nil, Option.bind_eq_bind, Option.bind_some]
      show some (place frames (.array (item :: items).reverse.reverse)) = _
      rw [List.reverse_reverse]
  | object members ih =>
    intro frames expects hexpects
    rw [toTokens, memberTokens_eq, List.foldlM_cons]
    have hopen : step ⟨frames, expects⟩ .openObject
        = some ⟨.object [] none :: frames, .firstName⟩ := by
      rcases hexpects with rfl | rfl
      all_goals rfl
    rw [hopen, Option.bind_eq_bind, Option.bind_some, List.foldlM_append]
    cases members with
    | nil => rfl
    | cons m members =>
      rw [foldlM_members ih [] none (.inr rfl), List.append_nil, Option.bind_eq_bind,
        Option.bind_some]
      show some (place frames (.object (m :: members).reverse.reverse)) = _
      rw [List.reverse_reverse]

/-- The tokens of a value denote it. -/
theorem ofTokens?_toTokens (j : Json) : ofTokens? j.toTokens = some j := by
  rw [ofTokens?, start, reads j [] .value (.inl rfl)]
  rfl

/-- A text with the tokens of a value denotes it. -/
theorem parse?_of_tokens {text : String} {j : Json} (h : tokens text.toList = some j.toTokens) :
    parse? text = some j := by
  rw [parse?, h]
  exact ofTokens?_toTokens j

/-- The text of a value denotes it. -/
theorem IsWritable.parse?_render {j : Json} (h : j.IsWritable) : parse? j.render = some j :=
  parse?_of_tokens h.tokens_render

end BranchBound.Json
