import BranchBound.Proofs.Json.Numerals
import BranchBound.Json.Writer

/-! # Tokens are scanned as they were written

The text of a string is scanned character by character, each escape as the character that was
escaped. Tokens are taken from the front of a text one after another, where only a number has to be
kept apart from what follows it: the marks of arrays and objects, which stand between the values of
a text, do that.

* **`scanText_escaped`** — a string is scanned as it was written.
* **`tokens_append`** — a token in front of a text is scanned as it was written.
* **`IsWritable`** — the values that can be written: their numbers have the form of numbers, and
  their strings have values.
* **`IsWritable.tokens_render`** — the text of such a value has the tokens of the value. -/

namespace BranchBound.Json

/-! ## Strings -/

/-- A hexadecimal digit is read as the value it was written for. -/
theorem hexDigit?_hexDigit {n : Nat} (h : n < 16) : hexDigit? (hexDigit n) = some n := by
  have hall : ∀ m < 16, hexDigit? (hexDigit m) = some m := by decide
  exact hall n h

/-- A control character is scanned from its four digits. -/
theorem scanText_control {c : Char} (hc : c.toNat < 0x20) (found rest : List Char) :
    scanText { found } ('\\' :: 'u' :: '0' :: '0' :: hexDigit (c.toNat / 16)
      :: hexDigit (c.toNat % 16) :: rest) = scanText { found := c :: found } rest := by
  have hhigh := hexDigit?_hexDigit (n := c.toNat / 16) (by omega)
  have hlow := hexDigit?_hexDigit (Nat.mod_lt c.toNat (by decide))
  have hzero : hexDigit? '0' = some 0 := rfl
  have hpush : ({ found, mode := .unicode 1 (c.toNat / 16) } : TextScan).pushUnit c.toNat
      = { found := c :: found } := by
    unfold TextScan.pushUnit
    rw [if_neg (by omega), if_neg (by omega), Char.ofNat_toNat]
    rfl
  simp [scanText, TextScan.step, hzero, hhigh, hlow, Nat.div_add_mod', hpush]

/-- An escaped character is scanned as the character. -/
theorem scanText_escape (c : Char) (found rest : List Char) :
    scanText { found } (escape c ++ rest) = scanText { found := c :: found } rest := by
  unfold escape
  split
  iterate 7 rfl
  · next hquote hslash _ _ _ _ _ =>
    split
    · next hcontrol => exact scanText_control hcontrol found rest
    · next hplain =>
      have hstep : ({ found } : TextScan).step c = some { found := c :: found } := by
        simp only [TextScan.step, if_neg hslash, if_neg hplain]
        rfl
      simp only [List.singleton_append, scanText, hstep]
      rw [if_neg fun h => hquote h.2]

/-- A string is scanned as it was written. -/
theorem scanText_escaped (cs found rest : List Char) :
    scanText { found } (cs.flatMap escape ++ '"' :: rest)
      = some (.text (some (String.ofList (found.reverse ++ cs))), rest) := by
  induction cs generalizing found with
  | nil =>
    rw [List.append_nil]
    rfl
  | cons c cs ih =>
    rw [List.flatMap_cons, List.append_assoc, scanText_escape, ih, List.reverse_cons,
      List.append_assoc]
    rfl

/-! ## Tokens -/

/-- A token that has the form of one: its number is proper, its string has a value. -/
def Token.IsProper : Token → Prop
  | number n => n.IsProper
  | text value => value.isSome = true
  | _ => True

/-- What may follow a token: a number must not be gone on with. -/
def Token.EndsBefore : Token → List Char → Prop
  | number _, rest => EndsNumber rest
  | _, _ => True

/-- A token that is scanned at the front of a text is its first token. -/
theorem tokens_cons {c : Char} {cs rest : List Char} {t : Token} (hc : isSpace c = false)
    (h : scanToken c cs = some (t, rest)) : tokens (c :: cs) = (tokens rest).map (t :: ·) := by
  rw [tokens, if_neg (by rw [hc]; exact Bool.false_ne_true)]
  split
  · next hscan =>
    cases h.symm.trans hscan
    rfl
  · next hscan => cases h.symm.trans hscan

/-- A digit starts a number. -/
theorem scanToken_digit {c : Char} (hc : c.isDigit = true) (cs : List Char) :
    scanToken c cs = scanUnsigned false (c :: cs) := by
  unfold scanToken
  split
  iterate 11 exact absurd hc (by decide)
  exact if_pos hc

/-- No digit is a space. -/
theorem isSpace_of_isDigit {c : Char} (hc : c.isDigit = true) : isSpace c = false := by
  unfold isSpace
  simp only [Bool.or_eq_false_iff, decide_eq_false_iff_not]
  refine ⟨⟨⟨?_, ?_⟩, ?_⟩, ?_⟩ <;>
    · rintro rfl
      exact absurd hc (by decide)

/-- A number in front of a text is its first token. -/
theorem tokens_number {n : Numeral} {rest : List Char} (h : n.IsProper)
    (hrest : EndsNumber rest) :
    tokens (n.characters ++ rest) = (tokens rest).map (.number n :: ·) := by
  have hscan := scanUnsigned_append h hrest
  rw [n.characters_eq]
  cases hsign : n.negative with
  | true =>
    rw [hsign] at hscan
    exact tokens_cons (by decide) hscan
  | false =>
    obtain ⟨c, cs, hwhole⟩ := List.exists_cons_of_ne_nil h.whole_ne_nil
    have hdigit : c.isDigit = true := h.whole_digits c (hwhole ▸ List.mem_cons_self)
    rw [hsign] at hscan
    unfold Numeral.unsignedText at hscan ⊢
    rw [hwhole] at hscan ⊢
    exact tokens_cons (isSpace_of_isDigit hdigit) ((scanToken_digit hdigit _).trans hscan)

/-- A token in front of a text is its first token. -/
theorem tokens_append {t : Token} {rest : List Char} (h : t.IsProper) (hrest : t.EndsBefore rest) :
    tokens (t.characters ++ rest) = (tokens rest).map (t :: ·) := by
  cases t with
  | openObject => exact tokens_cons (by decide) rfl
  | closeObject => exact tokens_cons (by decide) rfl
  | openArray => exact tokens_cons (by decide) rfl
  | closeArray => exact tokens_cons (by decide) rfl
  | colon => exact tokens_cons (by decide) rfl
  | comma => exact tokens_cons (by decide) rfl
  | null => exact tokens_cons (by decide) rfl
  | bool value =>
    cases value with
    | true => exact tokens_cons (by decide) rfl
    | false => exact tokens_cons (by decide) rfl
  -- only a number can run on into the text that follows
  | number n => exact tokens_number h hrest
  | text value =>
    obtain ⟨s, rfl⟩ := Option.isSome_iff_exists.mp h
    refine tokens_cons (by decide) ?_
    show scanText {} (s.toList.flatMap escape ++ ['"'] ++ rest) = some (.text (some s), rest)
    rw [List.append_assoc]
    exact (scanText_escaped s.toList [] rest).trans (by rw [List.reverse_nil, List.nil_append,
      String.ofList_toList])

/-! ## Values -/

/-- Tokens that are scanned as they were written, if what follows them does not go on with a
number. -/
def Scans (ts : List Token) : Prop :=
  ∀ rest, EndsNumber rest →
    tokens (ts.flatMap Token.characters ++ rest) = (tokens rest).map (ts ++ ·)

/-- A token that stands between values, or in front of them or after them. -/
def Token.IsMark : Token → Prop
  | openObject | closeObject | openArray | closeArray | colon | comma => True
  | _ => False

variable {t : Token} {ts us : List Token}

/-- A mark ends a number. -/
theorem Token.IsMark.endsNumber (h : t.IsMark) (rest : List Char) :
    EndsNumber (t.characters ++ rest) := by
  cases t <;> first | exact h.elim | (rintro c ⟨⟩; decide)

/-- A mark may be followed by anything. -/
theorem Token.IsMark.endsBefore (h : t.IsMark) (rest : List Char) : t.EndsBefore rest := by
  cases t <;> first | exact h.elim | trivial

/-- A mark has the form of a token. -/
theorem Token.IsMark.isProper (h : t.IsMark) : t.IsProper := by
  cases t <;> first | exact h.elim | trivial

/-- No token is scanned where none is. -/
theorem Scans.nil : Scans [] := fun rest _ => (congrFun Option.map_id (tokens rest)).symm

/-- A single token is scanned as it was written. -/
theorem Scans.single (h : t.IsProper) : Scans [t] := fun rest hrest => by
  have hends : t.EndsBefore rest := by
    cases t with
    | number => exact hrest
    | _ => trivial
  rw [List.flatMap_singleton]
  exact tokens_append h hends

/-- A mark keeps apart what stands before it and after it. -/
theorem Scans.append_mark (hts : Scans ts) (ht : t.IsMark) (hus : Scans us) :
    Scans (ts ++ t :: us) := fun rest hrest => by
  rw [List.flatMap_append, List.flatMap_cons, List.append_assoc, List.append_assoc,
    hts _ (ht.endsNumber _), tokens_append ht.isProper (ht.endsBefore _), hus rest hrest,
    Option.map_map, Option.map_map]
  congr 1
  funext vs
  simp only [Function.comp_apply, List.append_assoc, List.cons_append]

/-- A mark may stand in front. -/
theorem Scans.mark_cons (ht : t.IsMark) (hus : Scans us) : Scans (t :: us) :=
  Scans.nil.append_mark ht hus

/-- Commas keep apart what stands between them. -/
theorem Scans.joinTokens {tss : List (List Token)} (h : ∀ ts ∈ tss, Scans ts) :
    Scans (joinTokens tss) := by
  induction tss with
  | nil => exact .nil
  | cons ts tss ih =>
    have hts := h ts List.mem_cons_self
    cases tss with
    | nil => exact hts
    | cons us tss =>
      exact hts.append_mark trivial (ih fun us hus => h us (List.mem_cons_of_mem _ hus))

/-- A value whose numbers have the form of numbers and whose strings have values. -/
inductive IsWritable : Json → Prop
  /-- The empty value. -/
  | null : IsWritable .null
  /-- A truth value. -/
  | bool (value : Bool) : IsWritable (.bool value)
  /-- A proper number. -/
  | number {n : Numeral} (h : n.IsProper) : IsWritable (.number n)
  /-- A string. -/
  | text (s : String) : IsWritable (.text (some s))
  /-- An array of such values. -/
  | array {items : List Json} (h : ∀ item ∈ items, IsWritable item) : IsWritable (.array items)
  /-- An object of such values. -/
  | object {members : List (Option String × Json)} (hnames : ∀ m ∈ members, m.1.isSome = true)
      (hvalues : ∀ m ∈ members, IsWritable m.2) : IsWritable (.object members)

/-- The tokens of the items of an array. -/
theorem itemTokens_eq (items : List Json) : toTokens.itemTokens items = items.map toTokens := by
  induction items with
  | nil => rfl
  | cons item items ih => rw [toTokens.itemTokens, ih, List.map_cons]

/-- The tokens of the members of an object. -/
theorem memberTokens_eq (members : List (Option String × Json)) :
    toTokens.memberTokens members = members.map fun m => .text m.1 :: .colon :: m.2.toTokens := by
  induction members with
  | nil => rfl
  | cons m members ih => rw [toTokens.memberTokens, ih, List.map_cons]

/-- The tokens of a value are scanned as they were written. -/
theorem IsWritable.scans {j : Json} (h : j.IsWritable) : Scans j.toTokens := by
  induction h with
  | null => exact .single trivial
  | bool value => exact .single trivial
  | number h => exact .single h
  | text s => exact .single rfl
  | array _ ih =>
    rw [toTokens, itemTokens_eq]
    refine .mark_cons trivial (.append_mark (.joinTokens ?_) trivial .nil)
    exact List.forall_mem_map.mpr ih
  | object hnames _ ih =>
    rw [toTokens, memberTokens_eq]
    refine .mark_cons trivial (.append_mark (.joinTokens ?_) trivial .nil)
    refine List.forall_mem_map.mpr fun m hm => ?_
    have hname : (Token.text m.1).IsProper := hnames m hm
    exact (Scans.single hname).append_mark trivial (ih m hm)

/-- The text of a value has its tokens. -/
theorem IsWritable.tokens_render {j : Json} (h : j.IsWritable) :
    tokens j.render.toList = some j.toTokens := by
  have hscans := h.scans [] nofun
  rw [List.append_nil] at hscans
  rw [render, String.toList_ofList, hscans, tokens, Option.map_some, List.append_nil]

end BranchBound.Json
