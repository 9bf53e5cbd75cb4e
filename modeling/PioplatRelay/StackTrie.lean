import PioplatRelay.HexKeys
import PioplatRelay.RlpWriters

/-!
# The stack trie

`StackTrie` takes keys in increasing order.  Once a key goes to a later child of a
branch, nothing more can arrive below the elder children, so the nearest of them is
replaced by its hash, or by its encoding if that is shorter than a hash.  A panic is
`none`.
-/

namespace PioplatRelay.Trie

open Patricia Rlp

/-- A pointer to a node.  A node keeps a key, a value and children only where its type
has them. -/
inductive StackTrie
  | nil
  | emptyNode
  | branchNode (children : Fin 16 → StackTrie)
  | extNode (key : List UInt8) (child : StackTrie)
  | leafNode (key val : List UInt8)
  | hashedNode (val : List UInt8)

namespace StackTrie

def isNil : StackTrie → Bool
  | .nil => true
  | _ => false

def isHashed : StackTrie → Bool
  | .hashedNode _ => true
  | _ => false

end StackTrie

/-- `emptyRoot`, the known root hash of an empty trie. -/
def emptyRoot : Vector UInt8 32 :=
  ⟨#[0x56, 0xe8, 0x1f, 0x17, 0x1b, 0xcc, 0x55, 0xa6, 0xff, 0x83, 0x45, 0xe6, 0x92, 0xc0, 0xf8, 0x6e,
    0x5b, 0x48, 0xe0, 0x1b, 0x99, 0x6c, 0xad, 0xc0, 0x01, 0x62, 0x2f, 0xb5, 0xe3, 0x63, 0xb4, 0x21],
    rfl⟩

/-! ### Encoding -/

def writeRaw (bytes : List UInt8) : TypeWriter := fun buf =>
  .ok (buf.write bytes)

def writeChild (val : List UInt8) : TypeWriter :=
  if val.length < 32 then writeRaw val else writeByteSlice val

/-- `encodedBytes` after the items of a node were encoded as a list. -/
def encodedNode (writers : List TypeWriter) : Option (List UInt8) :=
  (writeEnclosed writers).toBytes.toOption

def compactKey (key : List UInt8) : Option (List UInt8) := do
  let (hex, size) ← hexToCompactInPlace key
  some (hex.take size)

section Hashing

variable (keccak : List UInt8 → Vector UInt8 32)

def hashedVal (encoded : List UInt8) : List UInt8 :=
  if encoded.length < 32 then encoded else (keccak encoded).toList

/-- `hashRec`: the value of the hashed node that a node becomes. -/
def hashRec : StackTrie → Option (List UInt8)
  | .nil => none
  | .hashedNode val => some val
  | .emptyNode => some emptyRoot.toList
  | .branchNode children => do
      let nodes ← (List.finRange 16).mapM fun index =>
        if (children index).isNil then some (writeByteSlice [])
        else (hashRec (children index)).map writeChild
      -- The value slot is nil, and encoded as an empty string.
      let encoded ← encodedNode (nodes ++ [writeRaw [0x80]])
      some (hashedVal keccak encoded)
  | .extNode key child => do
      let val ← hashRec child
      let path ← compactKey key
      let encoded ← encodedNode [writeByteSlice path, writeChild val]
      some (hashedVal keccak encoded)
  | .leafNode key val => do
      let path ← compactKey (key ++ [16])
      let encoded ← encodedNode [writeByteSlice path, writeByteSlice val]
      some (hashedVal keccak encoded)

variable (st : StackTrie)

def hash : Option StackTrie := (hashRec keccak st).map .hashedNode

def rootHash : Option (Vector UInt8 32) := do
  let val ← hashRec keccak st
  if size : val.toArray.size = 32 then some ⟨val.toArray,size⟩ else some (keccak val)

/-! ### Insertion -/

/-- `getDiffIndex`: the key may be too short. -/
def getDiffIndex : List UInt8 → List UInt8 → Option Nat
  | [], _ => some 0
  | _ :: _, [] => none
  | nibble :: stKey, x :: key => if nibble ≠ x then some 0 else (getDiffIndex stKey key).map (· + 1)

def slotOf (nibble : UInt8) : Option (Fin 16) :=
  if inRange : nibble.toNat < 16 then some ⟨nibble.toNat,inRange⟩ else none

/-- The nearest elder sibling below `bound` is hashed. -/
def hashElder (children : Fin 16 → StackTrie) : Nat → Option (Fin 16 → StackTrie)
  | 0 => some children
  | i + 1 =>
    if inRange : i < 16 then
      if (children ⟨i,inRange⟩).isNil then hashElder children i
      else if (children ⟨i,inRange⟩).isHashed then some children
      else do
        let hashed ← hash keccak (children ⟨i,inRange⟩)
        some (Function.update children ⟨i,inRange⟩ hashed)
    else none

def fork (origIdx : Fin 16) (original : StackTrie) (newIdx : Fin 16) (leaf : StackTrie) :
    StackTrie :=
  .branchNode (Function.update (Function.update (fun _ => .nil) origIdx original) newIdx leaf)

/-- A branch where the keys differ, over the hashed original part and a leaf for the
new key, and an extension over it for the nibbles before. -/
def splitAt (stKey : List UInt8) (original : StackTrie) (diffidx : Nat) (key value : List UInt8) :
    Option StackTrie := do
  let origIdx ← slotOf (← stKey[diffidx]?)
  let newIdx ← slotOf (← key[diffidx]?)
  let branch := fork origIdx original newIdx (.leafNode (key.drop (diffidx + 1)) value)
  some (if diffidx = 0 then branch else .extNode (stKey.take diffidx) branch)

def insert (value : List UInt8) : StackTrie → List UInt8 → Option StackTrie
  | .nil, _ => none
  | .emptyNode, key => some (.leafNode key value)
  | .hashedNode _, _ => none
  | .leafNode stKey stVal, key => do
      let diffidx ← getDiffIndex stKey key
      if diffidx ≥ stKey.length then none
      else
        let original ← hash keccak (.leafNode (stKey.drop (diffidx + 1)) stVal)
        splitAt stKey original diffidx key value
  | .extNode stKey child, key => do
      let diffidx ← getDiffIndex stKey key
      if diffidx = stKey.length then
        let child ← insert value child (key.drop diffidx)
        some (.extNode stKey child)
      else
        let rest := if diffidx < stKey.length - 1 then .extNode (stKey.drop (diffidx + 1)) child
          else child
        let original ← hash keccak rest
        splitAt stKey original diffidx key value
  | .branchNode children, key => do
      let idx ← slotOf (← key[0]?)
      -- The elder siblings lie below the index, so the child at the index is not changed.
      let resolved ← hashElder keccak children idx
      let child ← (if (children idx).isNil then some (.leafNode (key.drop 1) value)
        else insert value (children idx) (key.drop 1))
      some (.branchNode (Function.update resolved idx child))

def tryUpdate (key value : List UInt8) : Option StackTrie :=
  let k := keybytesToHex key
  if value.length = 0 then none else insert keccak value st (k.take (k.length - 1))

def updateAll (pairs : List (List UInt8 × List UInt8)) : Option StackTrie :=
  pairs.foldlM (fun st pair => tryUpdate keccak st pair.1 pair.2) st

end Hashing

end PioplatRelay.Trie
