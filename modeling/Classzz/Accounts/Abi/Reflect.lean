import Classzz.Common.Types

/-!
# Copying decoded ABI arguments into a Go struct

`Arguments.UnpackAtomic` decodes its data with `UnpackValues` and then copies
the values into the struct it was given, by reflection. For a struct whose
fields carry no `abi` tag, `mapArgNamesToStructFields` pairs each argument
with the field named by `ToCamelCase` of the argument's name, if the struct
has a field of exactly that name; `copyTuple` then fails on the first
argument left without a field. A struct is modelled by the names of its
fields, and a field is settable when its name is exported. Names are lists of characters,
so that the mapping evaluates.
-/

namespace Classzz.Abi

/-- A value `UnpackValues` returns. -/
inductive AbiValue where
  | uint (n : ℕ)
  | int (z : ℤ)
  | bool (b : Bool)
  | address (a : Address)
  | fixedBytes (b : Bytes)
  | bytes (b : Bytes)
  | string (s : String)
  | array (vs : List AbiValue)
  | tuple (vs : List AbiValue)
  deriving Repr

/-- The name of an ABI argument or of a struct field. -/
abbrev Name := List Char

/-- `strings.ToUpper(s[:1]) + s[1:]`, for the ASCII names of an ABI. -/
def capitalize : Name → Name
  | [] => []
  | c :: cs => c.toUpper :: cs

/-- `ToCamelCase`: capitalise every part between underscores and join them. -/
def toCamelCase (input : Name) : Name :=
  ((input.splitOn '_').map capitalize).flatten

/-- Go exports a field whose name starts with an upper-case letter; only
those can be set by reflection. -/
def isExported : Name → Bool
  | [] => false
  | c :: _ => c.isUpper

/-- The second round of `mapArgNamesToStructFields`, which is all of it for a
struct without `abi` tags: each argument goes to the field `ToCamelCase`
names, if there is one. The two association lists are `abi2struct` and
`struct2abi`. -/
def mapArgNamesLoop (fields : List Name) :
    List Name → List (Name × Name) → List (Name × Name) →
      Except String (List (Name × Name))
  | [], abi2struct, _ => .ok abi2struct
  | argName :: rest, abi2struct, struct2abi =>
      let structFieldName := toCamelCase argName
      if structFieldName = [] then
        .error "abi: purely underscored output cannot unpack to struct"
      else
        match abi2struct.lookup argName with
        | some paired =>
            if paired ≠ structFieldName ∧ struct2abi.lookup structFieldName = none ∧
                structFieldName ∈ fields then
              .error ("abi: multiple variables maps to the same abi field '" ++
                String.ofList argName ++ "'")
            else mapArgNamesLoop fields rest abi2struct struct2abi
        | none =>
            if (struct2abi.lookup structFieldName).isSome then
              .error ("abi: multiple outputs mapping to the same struct field '" ++
                String.ofList structFieldName ++ "'")
            else if structFieldName ∈ fields then
              mapArgNamesLoop fields rest ((argName, structFieldName) :: abi2struct)
                ((structFieldName, argName) :: struct2abi)
            else
              mapArgNamesLoop fields rest abi2struct
                ((structFieldName, argName) :: struct2abi)

/-- `mapArgNamesToStructFields` for a struct without `abi` tags. -/
def mapArgNamesToStructFields (argNames fields : List Name) :
    Except String (List (Name × Name)) :=
  mapArgNamesLoop fields argNames [] []

/-- The loop of `copyTuple`: the field of each argument, then its value. A
field that is not found fails before the value is read. -/
def copyTupleLoop (fields : List Name) (abi2struct : List (Name × Name))
    (values : List AbiValue) : ℕ → List Name →
      Except (Fault String) (List (Name × AbiValue))
  | _, [] => .ok []
  | i, arg :: rest =>
      let field := (abi2struct.lookup arg).getD []
      if field ∉ fields then
        .error (.error ("abi: field " ++ String.ofList arg ++ " can't be found in the given value"))
      else if !isExported field then .error (.error "abi: cannot unmarshal")
      else
        match values[i]? with
        | none => .error (.panic .indexOutOfRange)
        | some v =>
            (copyTupleLoop fields abi2struct values (i + 1) rest).map ((field, v) :: ·)

/-- `copyTuple` into a struct: the fields set and their values. -/
def copyTuple (argNames fields : List Name) (values : List AbiValue) :
    Except (Fault String) (List (Name × AbiValue)) :=
  match mapArgNamesToStructFields argNames fields with
  | .error e => .error (.error e)
  | .ok abi2struct => copyTupleLoop fields abi2struct values 0 argNames

/-- `copyAtomic` into a struct: a value that is not a tuple goes to the first
field. Copying a tuple field by field (`setStruct`) is not modelled, and
fails here. -/
def copyAtomic (fields : List Name) (value : AbiValue) :
    Except (Fault String) (List (Name × AbiValue)) :=
  match value, fields with
  | .tuple _, _ => .error (.error "abi: cannot unmarshal")
  -- `dst.Field(0)` of a struct without fields
  | _, [] => .error (.panic .indexOutOfRange)
  | v, f :: _ => if isExported f then .ok [(f, v)] else .error (.error "abi: cannot unmarshal")

/-- `UnpackAtomic` into a struct with the given field names; `UnpackValues`
is a parameter. A method of several arguments is a tuple. -/
def unpackAtomic (unpackValues : Bytes → Except String (List AbiValue))
    (argNames fields : List Name) (data : Bytes) :
    Except (Fault String) (List (Name × AbiValue)) :=
  if data.length = 0 then
    if argNames.length ≠ 0 then
      .error (.error "abi: attempting to unmarshall an empty string while arguments are expected")
    else .ok []
  else
    match unpackValues data with
    | .error e => .error (.error e)
    | .ok values =>
        match values with
        | [] => .error (.error "abi: Unpack(no-values unmarshalled)")
        | v :: _ =>
            if 1 < argNames.length then copyTuple argNames fields values
            else copyAtomic fields v

/-- Arguments whose camel-cased names are no field add no pair: the loop
keeps the pairs it started from. -/
theorem mapArgNamesLoop_unpaired {fields : List Name} :
    ∀ {args : List Name} {abi2struct struct2abi r : List (Name × Name)},
      (∀ a ∈ args, toCamelCase a ∉ fields) →
      mapArgNamesLoop fields args abi2struct struct2abi = .ok r → r = abi2struct
  | [], _, _, _, _, h => by
      simp only [mapArgNamesLoop, Except.ok.injEq] at h
      exact h.symm
  | a :: rest, abi2struct, struct2abi, r, hargs, h => by
      have ha : toCamelCase a ∉ fields := hargs a List.mem_cons_self
      have hrest : ∀ b ∈ rest, toCamelCase b ∉ fields :=
        fun b hb => hargs b (List.mem_cons_of_mem a hb)
      -- every branch that does not fail recurses with `abi2struct` unchanged
      simp only [mapArgNamesLoop, ha, and_false, if_false] at h
      split at h
      · cases h
      · split at h
        · exact mapArgNamesLoop_unpaired hrest h
        · split at h
          · cases h
          · exact mapArgNamesLoop_unpaired hrest h

/-- A struct none of whose fields `ToCamelCase` names from an argument cannot
be filled by `copyTuple`: it returns an error, and does not panic. -/
theorem copyTuple_unpaired {argNames fields : List Name} {values : List AbiValue}
    (hargs : ∀ a ∈ argNames, toCamelCase a ∉ fields) (hne : argNames ≠ [])
    (hempty : [] ∉ fields) :
    ∃ e, copyTuple argNames fields values = .error (.error e) := by
  obtain ⟨arg, rest, rfl⟩ := List.exists_cons_of_ne_nil hne
  unfold copyTuple
  split
  · exact ⟨_, rfl⟩
  · rename_i abi2struct hmap
    have hnil : abi2struct = [] := mapArgNamesLoop_unpaired hargs hmap
    subst hnil
    exact ⟨"abi: field " ++ String.ofList arg ++ " can't be found in the given value",
      by simp [copyTupleLoop, hempty]⟩

/-- Nor, for a method of several arguments, by `UnpackAtomic`, whatever the
data. -/
theorem unpackAtomic_unpaired
    {unpackValues : Bytes → Except String (List AbiValue)} {argNames fields : List Name}
    {data : Bytes} (hargs : ∀ a ∈ argNames, toCamelCase a ∉ fields)
    (htuple : 1 < argNames.length) (hempty : [] ∉ fields) :
    ∃ e, unpackAtomic unpackValues argNames fields data = .error (.error e) := by
  have hne : argNames ≠ [] := List.ne_nil_of_length_pos (by omega)
  unfold unpackAtomic
  by_cases hdata : data.length = 0
  · exact ⟨"abi: attempting to unmarshall an empty string while arguments are expected",
      by simp [hdata, hne]⟩
  · rw [if_neg hdata]
    cases unpackValues data with
    | error e => exact ⟨e, rfl⟩
    | ok values =>
        cases values with
        | nil => exact ⟨_, rfl⟩
        | cons v vs =>
            simp only [if_pos htuple]
            exact copyTuple_unpaired hargs hne hempty

end Classzz.Abi
