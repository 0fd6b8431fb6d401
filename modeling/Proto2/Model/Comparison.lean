import Proto2.Model.Declaration
import Proto2.Model.Entries

/-!
Comparing pieces of a schema.

Values compare by what they denote.  Booleans, integers and floating-point numbers are one
kind, numbers, with true as one and false as zero, and compare exactly; a NaN differs from
everything.  The order of list items counts.  Whether the order of aggregate entries counts
depends on the comparison: it does not for equality, and it does where a collection keeps one
of each.  Everything else compares field by field.
-/

namespace Proto2

/-- What a numeric value denotes: a finite number in units of the least binary number, or an
infinity. -/
inductive Quantity where
  | finite (units : Int)
  | infinite (negative : Bool)
deriving DecidableEq, Repr

namespace Quantity

/-- An integer as a quantity. -/
def ofInt (n : Int) : Quantity :=
  .finite (n * (Magnitude.unitsPerOne : Int))

/-- A binary number as a quantity, unless it is a NaN. -/
def ofBinary64? : Binary64 → Option Quantity
  | .finite negative m => some (.finite (if negative then -(m.units : Int) else m.units))
  | .infinite negative => some (.infinite negative)
  | .nan => none

end Quantity

/-- Whether the order of the entries of an aggregate counts. -/
inductive EntryOrder where
  | ignored
  | kept
deriving DecidableEq, Repr

/-- The quantity that a value denotes, if it is a number. -/
def Value.quantity? : Value → Option Quantity
  | .bool b => some (.ofInt (if b then 1 else 0))
  | .int n => some (.ofInt n)
  | .float x => Quantity.ofBinary64? x
  | _ => none

/-- Whether two numeric values denote the same quantity. -/
def Value.sameQuantity (v w : Value) : Bool :=
  match v.quantity?, w.quantity? with
  | some a, some b => a = b
  | _, _ => false

mutual

/-- Whether two settings are the same. -/
def Setting.same (order : EntryOrder) : Setting → Setting → Bool
  | ⟨name, value, custom⟩, t =>
    name = t.name && value.same order t.value && custom = t.custom

/-- Whether two values are the same. -/
def Value.same (order : EntryOrder) : Value → Value → Bool
  | .string s, .string t => s = t
  | .constant s, .constant t => s = t
  | .list xs, .list ys => Value.allSame order xs ys
  | .aggregate es, .aggregate fs =>
    match order with
    | .kept => Value.sameSequence order es fs
    | .ignored => es.length = fs.length && Value.sameUnder order es fs
  | .setting s, .setting t => s.same order t
  | v, w => v.sameQuantity w

/-- Whether two lists have the same values in the same order. -/
def Value.allSame (order : EntryOrder) : List Value → List Value → Bool
  | [], [] => true
  | v :: vs, w :: ws => v.same order w && Value.allSame order vs ws
  | _, _ => false

/-- Whether entries have the same keys and values in the same order. -/
def Value.sameSequence (order : EntryOrder) :
    List (String × Value) → List (String × Value) → Bool
  | [], [] => true
  | (k, v) :: es, (l, w) :: fs => k = l && v.same order w && Value.sameSequence order es fs
  | _, _ => false

/-- Whether every entry has its key in other entries, with the same value there. -/
def Value.sameUnder (order : EntryOrder) :
    List (String × Value) → List (String × Value) → Bool
  | [], _ => true
  | (k, v) :: es, fs =>
    (match Entries.get? k fs with
      | some w => v.same order w
      | none => false) && Value.sameUnder order es fs

end

/-- Whether two lists have as many elements, and those in the same place are related. -/
def sameElements {α : Type} (r : α → α → Bool) : List α → List α → Bool
  | [], [] => true
  | a :: as, b :: bs => r a b && sameElements r as bs
  | _, _ => false

/-- Whether two lists of settings are the same. -/
def Setting.allSame (order : EntryOrder) (ss ts : List Setting) : Bool :=
  sameElements (Setting.same order) ss ts

/-- Whether two fields are the same. -/
def Field.same (order : EntryOrder) (f g : Field) : Bool :=
  f.label = g.label && f.type = g.type && f.name = g.name && f.tag = g.tag &&
    f.documentation = g.documentation && Setting.allSame order f.options g.options

/-- Whether two enum values are the same. -/
def EnumValue.same (order : EntryOrder) (v w : EnumValue) : Bool :=
  v.name = w.name && v.tag = w.tag && v.documentation = w.documentation &&
    Setting.allSame order v.options w.options

/-- Whether two enums are the same. -/
def Enumeration.same (order : EntryOrder) (e f : Enumeration) : Bool :=
  e.name = f.name && e.fullName = f.fullName && e.documentation = f.documentation &&
    Setting.allSame order e.options f.options &&
    sameElements (EnumValue.same order) e.values f.values

mutual

/-- Whether two messages are the same. -/
def Message.same (order : EntryOrder) : Message → Message → Bool
  | ⟨name, fullName, documentation, fields, nestedTypes, extensionRanges, options⟩, n =>
    name = n.name && fullName = n.fullName && documentation = n.documentation &&
      sameElements (Field.same order) fields n.fields &&
      TypeDecl.allSame order nestedTypes n.nestedTypes &&
      extensionRanges = n.extensionRanges && Setting.allSame order options n.options

/-- Whether two declared types are the same. -/
def TypeDecl.same (order : EntryOrder) : TypeDecl → TypeDecl → Bool
  | .message m, .message n => m.same order n
  | .enumeration e, .enumeration f => e.same order f
  | _, _ => false

/-- Whether two lists of declared types are the same. -/
def TypeDecl.allSame (order : EntryOrder) : List TypeDecl → List TypeDecl → Bool
  | [], [] => true
  | t :: ts, u :: us => t.same order u && TypeDecl.allSame order ts us
  | _, _ => false

end

/-- Whether two extensions are the same. -/
def Extend.same (order : EntryOrder) (e f : Extend) : Bool :=
  e.name = f.name && e.fullName = f.fullName && e.documentation = f.documentation &&
    sameElements (Field.same order) e.fields f.fields

/-- Whether two procedures are the same. -/
def Rpc.same (order : EntryOrder) (r q : Rpc) : Bool :=
  r.name = q.name && r.requestType = q.requestType && r.responseType = q.responseType &&
    r.documentation = q.documentation && Setting.allSame order r.options q.options

/-- Whether two services are the same. -/
def Service.same (order : EntryOrder) (s t : Service) : Bool :=
  s.name = t.name && s.fullName = t.fullName && s.documentation = t.documentation &&
    Setting.allSame order s.options t.options && sameElements (Rpc.same order) s.rpcs t.rpcs

/-- Whether two files are the same. -/
def SchemaFile.same (order : EntryOrder) (f g : SchemaFile) : Bool :=
  f.fileName = g.fileName && f.package = g.package && f.imports = g.imports &&
    f.publicImports = g.publicImports && TypeDecl.allSame order f.types g.types &&
    sameElements (Service.same order) f.services g.services &&
    Setting.allSame order f.options g.options &&
    sameElements (Extend.same order) f.extensions g.extensions

namespace Node

/-- Whether two pieces of a schema are the same. -/
def same (order : EntryOrder) : Node → Node → Bool
  | file f, file g => f.same order g
  | message m, message n => m.same order n
  | enumeration e, enumeration f => e.same order f
  | enumValue v, enumValue w => v.same order w
  | field f, field g => f.same order g
  | extensionRange r, extensionRange q => r = q
  | extension e, extension f => e.same order f
  | service s, service t => s.same order t
  | rpc r, rpc q => r.same order q
  | setting s, setting t => s.same order t
  | _, _ => false

/-- Equality of pieces of a schema, in which the order of aggregate entries is ignored. -/
def equal (m n : Node) : Bool :=
  same .ignored m n

/-- The places of the nodes that a collection keeps which takes only one of each.  Two nodes
count as one if they are the same with the order of aggregate entries. -/
def distinct (nodes : List Node) : List Nat :=
  go 0 [] nodes
where
  /-- Goes through the nodes from a place on, given those kept so far. -/
  go (place : Nat) (kept : List Node) : List Node → List Nat
    | [] => []
    | n :: ns =>
      if kept.any (same .kept · n) then go (place + 1) kept ns
      else place :: go (place + 1) (n :: kept) ns

end Node

end Proto2
