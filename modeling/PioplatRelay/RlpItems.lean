import PioplatRelay.BigEndianBytes

/-!
# Recursive length prefix items

The data of the format are byte strings and finite lists of items.  A byte below
128 stands for itself; every other item has a header in front, one byte for payloads
below 56 bytes and otherwise one byte for the length of the length, followed by the
length in as few bytes as possible.
-/

namespace PioplatRelay.Rlp

open BigEndian

inductive Item
  | str (bytes : List UInt8)
  | list (elements : List Item)
  deriving Repr

def header (smalltag largetag : UInt8) (size : Nat) : List UInt8 :=
  if size < 56 then [smalltag + UInt8.ofNat size]
  else (largetag + UInt8.ofNat (minimal size).length) :: minimal size

def stringHeader (size : Nat) : List UInt8 := header 0x80 0xB7 size

def listHeader (size : Nat) : List UInt8 := header 0xC0 0xF7 size

def selfEncoded : List UInt8 → Bool
  | [byte] => byte < 0x80
  | _ => false

def encodeString (bytes : List UInt8) : List UInt8 :=
  if selfEncoded bytes then bytes else stringHeader bytes.length ++ bytes

mutual

def Item.encode : Item → List UInt8
  | .str bytes => encodeString bytes
  | .list elements => listHeader (Item.encodeAll elements).length ++ Item.encodeAll elements

def Item.encodeAll : List Item → List UInt8
  | [] => []
  | item :: items => item.encode ++ Item.encodeAll items

end

/-- Unsigned integers are the strings of their minimal big-endian form. -/
def Item.uint (number : Nat) : Item := .str (minimal number)

/-- Induction over a sequence of items: its first item is a string, or a list
whose elements are a sequence of their own. -/
@[elab_as_elim]
theorem Item.sequence_induction {motive : List Item → Prop} (nil : motive [])
    (str : ∀ bytes rest, motive rest → motive (.str bytes :: rest))
    (list : ∀ elements rest, motive elements → motive rest →
      motive (.list elements :: rest)) (items : List Item) : motive items := by
  match items with
  | [] => exact nil
  | .str bytes :: rest => exact str bytes rest (Item.sequence_induction nil str list rest)
  | .list elements :: rest =>
    exact list elements rest (Item.sequence_induction nil str list elements)
      (Item.sequence_induction nil str list rest)

@[simp]
theorem Item.encodeAll_nil : Item.encodeAll [] = [] := by
  rw [Item.encodeAll]

@[simp]
theorem Item.encodeAll_cons (item : Item) (items : List Item) :
    Item.encodeAll (item :: items) = item.encode ++ Item.encodeAll items := by
  rw [Item.encodeAll]

theorem Item.encode_str (bytes : List UInt8) : (Item.str bytes).encode = encodeString bytes := by
  rw [Item.encode]

theorem Item.encode_list (elements : List Item) : (Item.list elements).encode =
      listHeader (Item.encodeAll elements).length ++ Item.encodeAll elements := by
  rw [Item.encode]

theorem header_ne_nil (smalltag largetag : UInt8) (size : Nat) :
    header smalltag largetag size ≠ [] := by
  unfold header
  split <;> simp

theorem encodeString_singleton {byte : UInt8} (small : byte < 0x80) :
    encodeString [byte] = [byte] := by
  simp [encodeString,selfEncoded,small]

theorem encodeString_of_not_selfEncoded {bytes : List UInt8} (headed : selfEncoded bytes = false) :
    encodeString bytes = stringHeader bytes.length ++ bytes := by
  simp [encodeString,headed]

end PioplatRelay.Rlp
