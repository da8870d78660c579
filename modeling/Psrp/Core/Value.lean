import Psrp.Lib.IndexMap
import Psrp.Lib.Text
import Psrp.Lib.Uuid

/-!
# CLIXML Values

The values the codec reads and writes, and their accessors.

`PsValue` has one variant per CLIXML element: a leaf for every primitive, and
three containers. The properties of an object are an insertion-ordered map,
whose keys are distinct; `PsValue.Valid` says so at every depth, and is what
makes a tree of variants a value of the program.

A floating-point number is opaque apart from what the codec tells apart: a
NaN, an infinity with its sign, and the finite values by their fields. There
is one NaN, as no text form carries a payload.

Values nest through lists and maps, so an induction over them meets four
types at once. `PsValue.induction` states it over `PsValue` alone, with one
case for all leaves and one for each container.

## Main definitions

* `F64`, `F32`: Floating-point numbers.
* `PsValue`, `PsObject`: The values.
* `PsValue.asStr`, `PsValue.asI32`, `PsValue.asI64`, `PsValue.asBool`: The
  typed accessors.
* `PsValue.isContainer`: Lists, dictionaries and objects.
* `PsValue.Valid`: Property names are distinct at every depth.

## Theorems

* `PsValue.induction`: Induction over values.
* `PsValue.valid_list`, `PsValue.valid_dict`, `PsValue.valid_object`: Validity
  of a container.
-/

namespace Psrp

/-- A double-precision number. -/
inductive F64 where
  | nan
  | infinity (negative : Bool)
  | finite (sign : Bool) (exponent : Fin 2047) (mantissa : Fin (2 ^ 52))
  deriving DecidableEq

/-- A single-precision number. -/
inductive F32 where
  | nan
  | infinity (negative : Bool)
  | finite (sign : Bool) (exponent : Fin 255) (mantissa : Fin (2 ^ 23))
  deriving DecidableEq

/-- An object with named properties, over the values they hold. The properties
    are an `IndexMap Text α`, spelled out so that `PsValue` can nest in it. -/
structure PsObjectOf (α : Type) where
  properties : List (Text × α)
  typeNames : List Text
  toString : Option Text

/-- A decoded CLIXML value. -/
inductive PsValue where
  | null
  | bool (b : Bool)
  | i8 (v : Int8)
  | u8 (v : UInt8)
  | i16 (v : Int16)
  | u16 (v : UInt16)
  | i32 (v : Int32)
  | u32 (v : UInt32)
  | i64 (v : Int64)
  | u64 (v : UInt64)
  | f32 (v : F32)
  | double (v : F64)
  /-- The text of a .NET `Decimal`. -/
  | decimal (s : Text)
  /-- One UTF-16 code unit; a surrogate has no `Char`. -/
  | char (c : Char)
  | string (s : Text)
  | bytes (b : List UInt8)
  | dateTime (s : Text)
  | duration (s : Text)
  | guid (g : Uuid)
  | version (s : Text)
  | uri (s : Text)
  | xml (s : Text)
  | scriptBlock (s : Text)
  /-- The body of the element as it travels, or the plaintext a host gave. -/
  | secureString (s : Text)
  | list (items : List PsValue)
  | dict (entries : List (PsValue × PsValue))
  | object (o : PsObjectOf PsValue)

/-- An object with named properties. -/
abbrev PsObject := PsObjectOf PsValue

/-- An object without anything in it. -/
def PsObject.new : PsObject := { properties := [], typeNames := [], toString := none }

/-- Insert or replace a property. -/
def PsObject.with (o : PsObject) (name : Text) (value : PsValue) : PsObject :=
  { o with properties := IndexMap.insert name value o.properties }

/-- Look a property up by name. -/
def PsObject.get (o : PsObject) (name : Text) : Option PsValue := IndexMap.get name o.properties

/-- The name of the synthetic property: what stands bare in an `Obj` rather
    than among its members. -/
def valueKey : Text := "_value".toList

namespace PsValue

/-- The text of a string-like value. -/
def asStr : PsValue → Option Text
  | string s | version s | uri s | xml s | scriptBlock s | decimal s | dateTime s | duration s
  | secureString s => some s
  | _ => none

/-- An `i32`, when the value is an integer that fits one. -/
def asI32 : PsValue → Option Int32
  | i8 v => some v.toInt32
  | i16 v => some v.toInt32
  | i32 v => some v
  | i64 v => if Int32.minValue.toInt ≤ v.toInt ∧ v.toInt ≤ Int32.maxValue.toInt
      then some v.toInt32 else none
  | u8 v => some (Int32.ofNat v.toNat)
  | u16 v => some (Int32.ofNat v.toNat)
  | u32 v => if (v.toNat : Int) ≤ Int32.maxValue.toInt then some (Int32.ofNat v.toNat) else none
  | _ => none

/-- An `i64`, when the value is an integer that fits one. -/
def asI64 : PsValue → Option Int64
  | i8 v => some v.toInt64
  | i16 v => some v.toInt64
  | i32 v => some v.toInt64
  | i64 v => some v
  | u8 v => some (Int64.ofNat v.toNat)
  | u16 v => some (Int64.ofNat v.toNat)
  | u32 v => some (Int64.ofNat v.toNat)
  | u64 v => if (v.toNat : Int) ≤ Int64.maxValue.toInt then some (Int64.ofNat v.toNat) else none
  | _ => none

/-- A boolean, when the value is one. -/
def asBool : PsValue → Option Bool
  | bool b => some b
  | _ => none

/-- The properties, when the value is an object. -/
def properties : PsValue → Option (IndexMap Text PsValue)
  | object o => some o.properties
  | _ => none

/-- Whether a value holds other values. -/
def isContainer : PsValue → Bool
  | list _ | dict _ | object _ => true
  | _ => false

mutual

/-- Property names are distinct in every object of the value. -/
def Valid : PsValue → Prop
  | list items => ValidItems items
  | dict entries => ValidEntries entries
  | object ⟨props, _, _⟩ => IndexMap.Keyed props ∧ ValidProps props
  | _ => True

def ValidItems : List PsValue → Prop
  | [] => True
  | v :: vs => Valid v ∧ ValidItems vs

def ValidEntries : List (PsValue × PsValue) → Prop
  | [] => True
  | (k, v) :: es => Valid k ∧ Valid v ∧ ValidEntries es

def ValidProps : List (Text × PsValue) → Prop
  | [] => True
  | (_, v) :: ps => Valid v ∧ ValidProps ps

end

section Induction

variable {P : PsValue → Prop} (leaf : ∀ v, v.isContainer = false → P v)
  (list : ∀ items, (∀ v ∈ items, P v) → P (.list items))
  (dict : ∀ entries : List (PsValue × PsValue), (∀ e ∈ entries, P e.1 ∧ P e.2) → P (.dict entries))
  (object : ∀ o : PsObject, (∀ p ∈ o.properties, P p.2) → P (.object o))

include leaf list dict object

/-- Induction over values: one case for the leaves, one for each container. -/
theorem induction (v : PsValue) : P v := by
  refine PsValue.rec (motive_1 := P) (motive_2 := fun items => ∀ v ∈ items, P v)
    (motive_3 := fun entries => ∀ e ∈ entries, P e.1 ∧ P e.2)
    (motive_4 := fun o => ∀ p ∈ o.properties, P p.2)
    (motive_5 := fun e => P e.1 ∧ P e.2) (motive_6 := fun props => ∀ p ∈ props, P p.2)
    (motive_7 := fun p => P p.2) ?_ ?_ ?_ ?_ ?_ ?_ ?_ ?_ ?_ ?_ ?_ ?_ ?_ ?_ ?_ ?_ ?_ ?_ ?_ ?_ ?_ ?_
    ?_ ?_ list dict object ?_ ?_ ?_ ?_ ?_ ?_ ?_ ?_ ?_ v
  -- The leaves come first, in the order of the constructors.
  iterate 24 (intros; exact leaf _ rfl)
  · exact fun _ h => absurd h List.not_mem_nil
  · exact fun _ _ hd tl _ hw => (List.mem_cons.mp hw).elim (fun h => h ▸ hd) (tl _)
  · exact fun _ h => absurd h List.not_mem_nil
  · exact fun _ _ hd tl _ hw => (List.mem_cons.mp hw).elim (fun h => h ▸ hd) (tl _)
  · exact fun _ _ _ h => h
  · exact fun _ _ h1 h2 => ⟨h1, h2⟩
  · exact fun _ h => absurd h List.not_mem_nil
  · exact fun _ _ hd tl _ hw => (List.mem_cons.mp hw).elim (fun h => h ▸ hd) (tl _)
  · exact fun _ _ h => h

end Induction

theorem valid_list (items : List PsValue) : Valid (.list items) ↔ ∀ v ∈ items, Valid v := by
  rw [Valid]
  induction items with
  | nil => simp only [ValidItems, List.not_mem_nil, false_implies, implies_true]
  | cons v vs ih => rw [ValidItems, ih, List.forall_mem_cons]

theorem valid_dict (entries : List (PsValue × PsValue)) :
    Valid (.dict entries) ↔ ∀ e ∈ entries, Valid e.1 ∧ Valid e.2 := by
  rw [Valid]
  induction entries with
  | nil => simp only [ValidEntries, List.not_mem_nil, false_implies, implies_true]
  | cons e es ih => rw [ValidEntries, ih, List.forall_mem_cons, and_assoc]

theorem valid_object (o : PsObject) :
    Valid (.object o) ↔ IndexMap.Keyed o.properties ∧ ∀ p ∈ o.properties, Valid p.2 := by
  rcases o with ⟨props, typeNames, toString⟩
  rw [Valid]
  refine and_congr Iff.rfl ?_
  induction props with
  | nil => simp only [ValidProps, List.not_mem_nil, false_implies, implies_true]
  | cons p ps ih => rw [ValidProps, ih, List.forall_mem_cons]

end PsValue

end Psrp
