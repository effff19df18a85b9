import BranchBound.Settings.Text

/-! # Which error a text of settings has

A text that describes no settings has one of two errors. It is an unknown strategy if the text is an
object in which a strategy is given by a name that is not accepted, whatever else is wrong with it;
names in an array are not looked at. Everything else is wrong with the settings as such.

* **`Settings.Misnames`** — a member of an object gives a strategy by a name that is not accepted.
* **`Settings.ofText_unknownStrategy_iff`** — which texts have an unknown strategy.
* **`Settings.ofText_cases`** — every other text is settings that are valid, or wrong as
  settings. -/

namespace BranchBound.Settings

variable {α : Type} [Scalar α] {members : List (Option String × Json)}

/-- The last member of a name is a string that names no value. -/
def Misnames {β : Type} (members : List (Option String × Json)) (name : String)
    (ofName? : String → Option β) : Prop :=
  ∃ value, lastValue? members name = some (.text (some value)) ∧ ofName? value = none

/-- A value is read as a string if it is one. -/
theorem bind_read_string {value : Option Json} {s : String} :
    value.bind JsonForm.string.read = some s ↔ value = some (.text (some s)) := by
  rw [Option.bind_eq_some_iff]
  constructor
  · rintro ⟨j, rfl, hj⟩
    cases j with
    | text t => exact congrArg (fun t => some (Json.text t)) hj
    | _ => cases hj
  · rintro rfl
    exact ⟨_, rfl, rfl⟩

/-- The fault of the last member of a name, if it is a string that names no value. -/
def memberFault? {β : Type} (members : List (Option String × Json)) (name : String)
    (read : String → Except NameFault β) : Option NameFault :=
  match (lastValue? members name).bind JsonForm.string.read with
  | some value =>
      match read value with
      | .error fault => some fault
      | .ok _ => none
  | none => none

/-- A member has a fault if it is misnamed. -/
theorem isSome_memberFault? {β : Type} {read : String → Except NameFault β}
    {ofName? : String → Option β}
    (hread : ∀ value, (∃ fault, read value = .error fault) ↔ ofName? value = none)
    (name : String) :
    (memberFault? members name read).isSome = true ↔ Misnames members name ofName? := by
  unfold memberFault? Misnames
  constructor
  · intro h
    split at h
    · next value hvalue =>
      refine ⟨value, bind_read_string.mp hvalue, (hread value).mp ?_⟩
      split at h
      · next fault hfault => exact ⟨fault, hfault⟩
      · cases h
    · cases h
  · rintro ⟨value, hvalue, hname⟩
    obtain ⟨fault, hfault⟩ := (hread value).mpr hname
    rw [bind_read_string.mpr hvalue]
    simp only [hfault, Option.isSome_some]

/-- An object has a name fault if a strategy is given by a name that is not accepted. -/
theorem isSome_nameFault?_object :
    (nameFault? (.object members)).isSome = true ↔
      Misnames members "node_selection" NodeSelection.ofName?
      ∨ Misnames members "branching_strategy" BranchingRule.ofName?
      ∨ Misnames members "node_score" Scoring.ofName? := by
  have hselection : ∀ value, (∃ fault, NodeSelection.read value = .error fault) ↔
      NodeSelection.ofName? value = none := fun value => by
    unfold NodeSelection.read
    cases NodeSelection.ofName? value <;> simp
  have hrule : ∀ value, (∃ fault, BranchingRule.read value = .error fault) ↔
      BranchingRule.ofName? value = none := fun value => by
    unfold BranchingRule.read
    cases BranchingRule.ofName? value <;> simp
  have hscoring : ∀ value, (∃ fault, Scoring.read value = .error fault) ↔
      Scoring.ofName? value = none := fun value => by
    unfold Scoring.read
    cases Scoring.ofName? value <;> simp
  have heq : nameFault? (.object members)
      = (memberFault? members "node_selection" NodeSelection.read
        <|> memberFault? members "branching_strategy" BranchingRule.read
        <|> memberFault? members "node_score" Scoring.read) := by
    -- the two agree whatever the names are read as
    unfold nameFault?
    generalize NodeSelection.read = readSelection
    generalize BranchingRule.read = readRule
    generalize Scoring.read = readScoring
    rfl
  rw [heq, Option.orElse_eq_orElse, ← Option.or_eq_orElse, ← Option.or_eq_orElse,
    Option.isSome_or, Option.isSome_or, Bool.or_eq_true, Bool.or_eq_true,
    isSome_memberFault? hselection, isSome_memberFault? hrule, isSome_memberFault? hscoring]

/-- What a text of settings comes to. -/
theorem ofText_cases (text : String) :
    (∃ j fault, jsonOfText? α text = some j ∧ nameFault? j = some fault
        ∧ (ofText text : Except (Error α) (Settings α)) = .error (.unknownStrategy fault))
      ∨ (∀ j, jsonOfText? α text = some j → nameFault? j = none)
        ∧ ((∃ fault, (ofText text : Except (Error α) (Settings α))
            = .error (.invalidSettings fault))
          ∨ ∃ s : Settings α, ofText text = .ok s ∧ s.validate = .ok ()) := by
  unfold ofText
  -- names are checked before the values are read, and the settings after that
  cases hjson : jsonOfText? α text with
  | none => exact .inr ⟨nofun, .inl ⟨_, rfl⟩⟩
  | some j =>
    cases hname : nameFault? j with
    | some fault => exact .inl ⟨j, fault, rfl, hname, by simp only [hname]⟩
    | none =>
      right
      constructor
      · intro i hi
        cases hi
        exact hname
      · simp only [hname]
        cases hread : (ofJson? j : Option (Settings α)) with
        | none => exact .inl ⟨_, rfl⟩
        | some s =>
          cases hfault : s.fault? with
          | some fault => exact .inl ⟨fault, by simp only [hfault]⟩
          | none =>
            refine .inr ⟨s, by simp only [hfault], ?_⟩
            unfold validate
            rw [hfault]

/-- A text has an unknown strategy exactly if it is an object in which a strategy is given by a name
that is not accepted. -/
theorem ofText_unknownStrategy_iff (text : String) :
    (∃ fault, (ofText text : Except (Error α) (Settings α)) = .error (.unknownStrategy fault)) ↔
      ∃ members, jsonOfText? α text = some (.object members)
        ∧ (Misnames members "node_selection" NodeSelection.ofName?
          ∨ Misnames members "branching_strategy" BranchingRule.ofName?
          ∨ Misnames members "node_score" Scoring.ofName?) := by
  constructor
  · rintro ⟨fault, herror⟩
    rcases ofText_cases (α := α) text with ⟨j, fault, hjson, hname, -⟩ | ⟨-, ⟨_, heq⟩ | ⟨_, heq, -⟩⟩
    · -- only the members of an object can be misnamed
      cases j with
      | object members =>
        exact ⟨members, hjson, isSome_nameFault?_object.mp (Option.isSome_of_eq_some hname)⟩
      | _ => cases hname
    · cases herror.symm.trans heq
    · cases herror.symm.trans heq
  · rintro ⟨members, hjson, hmisnames⟩
    have hsome := isSome_nameFault?_object.mpr hmisnames
    rcases ofText_cases (α := α) text with ⟨-, fault, -, -, heq⟩ | ⟨hnone, -⟩
    · exact ⟨fault, heq⟩
    · rw [hnone _ hjson] at hsome
      cases hsome

/-- Settings that are listed in an array never have an unknown strategy, whatever names they
give. -/
theorem ofText_array {text : String} {items : List Json}
    (h : jsonOfText? α text = some (.array items)) (fault : NameFault) :
    (ofText text : Except (Error α) (Settings α)) ≠ .error (.unknownStrategy fault) := by
  intro herror
  obtain ⟨members, hobject, -⟩ := (ofText_unknownStrategy_iff text).mp ⟨fault, herror⟩
  cases h.symm.trans hobject

/-- Every other text that describes no settings is wrong as settings. -/
theorem error_of_ofText {text : String} {e : Error α}
    (h : (ofText text : Except (Error α) (Settings α)) = .error e) :
    (∃ fault, e = .unknownStrategy fault) ∨ ∃ fault, e = .invalidSettings fault := by
  rcases ofText_cases (α := α) text with ⟨-, fault, -, -, heq⟩ | ⟨-, ⟨fault, heq⟩ | ⟨_, heq, -⟩⟩
  · cases h.symm.trans heq
    exact .inl ⟨fault, rfl⟩
  · cases h.symm.trans heq
    exact .inr ⟨fault, rfl⟩
  · cases h.symm.trans heq

/-- A search can run under the settings that are read. -/
theorem validate_of_ofText {text : String} {s : Settings α} (h : ofText text = .ok s) :
    s.validate = .ok () := by
  rcases ofText_cases (α := α) text with ⟨_, _, -, -, heq⟩ | ⟨-, ⟨_, heq⟩ | ⟨t, heq, hvalid⟩⟩
  · cases h.symm.trans heq
  · cases h.symm.trans heq
  · cases h.symm.trans heq
    exact hvalid

end BranchBound.Settings
